import MiniPascal.Proofs.Program.Diagrams

/-! # Diagrams in sinks that fill up

A diagram is handed to a sink piece by piece, and the first piece without enough room ends the call.
What the sink has taken then is the beginning of the diagram, cut wherever the sink was full, as if
the whole text had been handed over at once. A writer keeps the lines of its latest diagram, also
after a call that was cut short, and nothing of them gets into the next one. -/
set_option autoImplicit false
namespace MiniPascal

theorem extract_of_le {bytes : ByteArray} {room : Nat} (fits : bytes.size ≤ room) :
    bytes.extract 0 room = bytes := by
  rw [ByteArray.ext_iff, ByteArray.data_extract]
  exact Array.extract_eq_self_of_le fits

theorem extract_append_of_le {first second : ByteArray} {room : Nat} (fits : first.size ≤ room) :
    (first ++ second).extract 0 room = first ++ second.extract 0 (room - first.size) := by
  rw [ByteArray.extract_append, Nat.zero_sub, extract_of_le fits]

theorem extract_append_of_lt {first second : ByteArray} {room : Nat} (full : room < first.size) :
    (first ++ second).extract 0 room = first.extract 0 room := by
  have none : second.extract 0 (room - first.size) = ByteArray.empty := by
    rw [ByteArray.extract_eq_empty_iff]
    omega
  rw [ByteArray.extract_append, Nat.zero_sub, none, ByteArray.append_empty]

namespace Sink

/-- How many bytes of a text the sink takes. -/
def takes (sink : Sink) (text : ByteArray) : Nat :=
  match sink.limit with
  | none => text.size
  | some limit => min (limit - sink.written.size) text.size

/-- The sink has taken the first bytes of the text, as many as found room, and the call has failed
exactly if these are not all of them. -/
structure Fills (before : Sink) (text : ByteArray) (outcome : Bool × Sink) : Prop where
  limit : outcome.2.limit = before.limit
  written : outcome.2.written = before.written ++ text.extract 0 (before.takes text)
  failed : outcome.1 = false ↔ before.takes text < text.size

theorem fills_write (sink : Sink) (text : String) : sink.Fills text.toUTF8 (sink.write text) := by
  obtain ⟨limit, written⟩ := sink
  cases limit with
  | none =>
      refine ⟨rfl, ?_, ?_⟩
      · simp only [write, takes, ByteArray.extract_zero_size]
      · simp only [write, takes, Bool.true_eq_false, Nat.lt_irrefl]
  | some limit =>
      refine ⟨rfl, ?_, ?_⟩
      · simp only [write, takes]
        congr 1
        rw [ByteArray.ext_iff, ByteArray.data_extract, ByteArray.data_extract]
        exact Array.extract_eq_extract_right.mpr (by simp [ByteArray.size_data])
      · simp only [write, takes, decide_eq_false_iff_not]
        omega

/-- A sink with room for the first of two texts has less of it for the second, and a sink without is
full. -/
theorem write_append (sink : Sink) (first second : String) :
    sink.write (first ++ second)
      = match sink.write first with
        | (true, behind) => behind.write second
        | (false, behind) => (false, behind) := by
  obtain ⟨limit, written⟩ := sink
  have bytes : (first ++ second).toUTF8 = first.toUTF8 ++ second.toUTF8 :=
    String.toByteArray_append
  cases limit with
  | none => simp only [write, bytes, ByteArray.append_assoc]
  | some limit =>
      simp only [write, bytes]
      by_cases fits : first.toUTF8.size ≤ limit - written.size
      · have left : limit - (written ++ first.toUTF8).size
            = limit - written.size - first.toUTF8.size := by
          rw [ByteArray.size_append, Nat.sub_add_eq]
        have room : (first.toUTF8 ++ second.toUTF8).size ≤ limit - written.size
            ↔ second.toUTF8.size ≤ limit - written.size - first.toUTF8.size := by
          rw [ByteArray.size_append]
          exact (Nat.le_sub_iff_add_le' fits).symm
        simp only [fits, decide_true, extract_of_le fits, left, room, extract_append_of_le fits,
          ByteArray.append_assoc]
      · have room : ¬ (first.toUTF8 ++ second.toUTF8).size ≤ limit - written.size := by
          rw [ByteArray.size_append]
          omega
        simp only [fits, room, decide_false, extract_append_of_lt (Nat.lt_of_not_le fits)]

/-- It makes no difference in which pieces a text is handed over. -/
theorem writeAll_eq_write (texts : List String) : ∀ sink : Sink,
    sink.writeAll texts = sink.write (String.join texts) := by
  induction texts with
  | nil =>
      intro sink
      obtain ⟨limit, written⟩ := sink
      cases limit with
      | none => simp [writeAll, write]
      | some limit => simp [writeAll, write, extract_of_le]
  | cons text rest ih =>
      intro sink
      rw [writeAll, String.join_cons, write_append]
      rcases sink.write text with ⟨_ | _, behind⟩
      · rfl
      · exact ih behind

end Sink

namespace DiagramWriter

/-- The outcomes of several calls of one writer, each with its program and its sink. -/
def writeEach (writer : DiagramWriter) : List (Program × Sink) → List (Bool × Sink)
  | [] => []
  | (program, sink) :: rest =>
    match writer.write program sink with
    | (outcome, writer) => outcome :: writer.writeEach rest

/-- What a call writes is the diagram of its program, whatever the writer has collected before. -/
theorem write_fst (writer : DiagramWriter) (program : Program) (sink : Sink) :
    (writer.write program sink).1 = sink.write program.diagram := by
  rw [write, Program.diagram, pieces_collect fresh, ← pieces_collect writer,
    Sink.writeAll_eq_write]

theorem writeEach_eq_map (calls : List (Program × Sink)) : ∀ writer : DiagramWriter,
    writer.writeEach calls = calls.map fun call => call.2.write call.1.diagram := by
  induction calls with
  | nil => exact fun _ => rfl
  | cons call rest ih =>
      intro writer
      obtain ⟨program, sink⟩ := call
      rw [writeEach, List.map_cons]
      simp only [ih, write_fst]

/-- Every call of a writer writes the diagram that a new writer writes for the same program, as far as
the sink has room for it, and fails exactly if it is longer than that. What was written before has
no part in it, be it in full or cut short. -/
theorem writeEach_fills (writer : DiagramWriter) (calls : List (Program × Sink)) :
    writer.writeEach calls = calls.map (fun call => (fresh.write call.1 call.2).1)
      ∧ (∀ program : Program, (fresh.write program Sink.unlimited).1
        = (true, ⟨none, program.diagram.toUTF8⟩))
      ∧ List.Forall₂ (fun (call : Program × Sink) outcome =>
        call.2.Fills call.1.diagram.toUTF8 outcome) calls (writer.writeEach calls) := by
  have each : ∀ call : Program × Sink,
      (fresh.write call.1 call.2).1 = call.2.write call.1.diagram :=
    fun call => write_fst fresh call.1 call.2
  refine ⟨?_, fun program => program.write_unlimited fresh, ?_⟩
  · simp only [each, writeEach_eq_map]
  · rw [writeEach_eq_map, List.forall₂_map_right_iff, List.forall₂_same]
    exact fun call _ => call.2.fills_write call.1.diagram

end DiagramWriter
end MiniPascal
