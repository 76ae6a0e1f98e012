import MiniPascal.Proofs.Token.Calls

/-! # What a reader passes

Between two places of a reader lies a text. The offset and the position of the second place are
those of the first with this text counted in, and the text is what a token made of the two places
holds. Every operation of a reader goes from a place to a later one; which text it passes follows
from what it leaves. -/
set_option autoImplicit false
namespace MiniPascal

/-- The position behind a text. -/
def Position.afterAll (position : Position) (text : List Char) : Position :=
  text.foldl Position.after position

theorem Position.afterAll_append (position : Position) (first second : List Char) :
    position.afterAll (first ++ second) = (position.afterAll first).afterAll second :=
  List.foldl_append

namespace Reader

/-- The number of bytes of a text in UTF-8. -/
def bytes : List Char → Nat
  | [] => 0
  | c :: rest => c.utf8Size + bytes rest

theorem bytes_append (first second : List Char) :
    bytes (first ++ second) = bytes first + bytes second := by
  induction first with
  | nil => simp [bytes]
  | cons c first ih => rw [List.cons_append, bytes, ih, bytes, Nat.add_assoc]

theorem takeBytes_append (text rest : List Char) :
    takeBytes (bytes text) (text ++ rest) = text := by
  induction text with
  | nil =>
      cases rest with
      | nil => rfl
      | cons c rest =>
          have positive := c.utf8Size_pos
          simp [takeBytes, bytes]
          omega
  | cons c text ih =>
      have shorter : bytes (c :: text) - c.utf8Size = bytes text := by simp [bytes]
      have fits : c.utf8Size ≤ bytes (c :: text) := by simp [bytes]
      rw [List.cons_append, takeBytes, if_pos fits, shorter, ih]

/-- Going on from the first place to the second passes the text. -/
structure Passes (start : Reader) (text : List Char) (stop : Reader) : Prop where
  remaining : start.remaining = text ++ stop.remaining
  offset : stop.offset = start.offset + bytes text
  position : stop.position = start.position.afterAll text

namespace Passes

variable {start middle stop : Reader} {text first second rest : List Char}

theorem refl (reader : Reader) : reader.Passes [] reader :=
  ⟨rfl, rfl, rfl⟩

theorem trans (left : start.Passes first middle) (right : middle.Passes second stop) :
    start.Passes (first ++ second) stop := by
  refine ⟨?_, ?_, ?_⟩
  · rw [left.remaining, right.remaining, List.append_assoc]
  · rw [right.offset, left.offset, bytes_append, Nat.add_assoc]
  · rw [right.position, left.position, Position.afterAll_append]

/-- What is left determines what has been passed. -/
theorem of_remaining (passes : start.Passes text stop) (split : start.remaining = first ++ rest)
    (left : stop.remaining = rest) : start.Passes first stop := by
  have same : text = first := by
    have whole := passes.remaining
    rw [split, left] at whole
    exact (List.append_cancel_right whole).symm
  exact same ▸ passes

theorem textUpTo (passes : start.Passes text stop) : start.textUpTo stop = String.ofList text := by
  rw [Reader.textUpTo, passes.offset, passes.remaining, Nat.add_sub_cancel_left, takeBytes_append]

theorem token (passes : start.Passes text stop) (kind : TokenKind) :
    Reader.token kind start stop = ⟨kind, String.ofList text, start.position⟩ := by
  rw [Reader.token, passes.textUpTo]

end Passes

/-- The second place is the first one or a later one of the same text. -/
def Leads (start stop : Reader) : Prop :=
  ∃ text, start.Passes text stop

theorem Leads.trans {start middle stop : Reader} (first : start.Leads middle)
    (second : middle.Leads stop) : start.Leads stop := by
  obtain ⟨_, first⟩ := first
  obtain ⟨_, second⟩ := second
  exact ⟨_, first.trans second⟩

theorem Leads.passes {start stop : Reader} (leads : start.Leads stop) {text rest : List Char}
    (split : start.remaining = text ++ rest) (left : stop.remaining = rest) :
    start.Passes text stop := by
  obtain ⟨_, passes⟩ := leads
  exact passes.of_remaining split left

theorem leads_next (reader : Reader) : reader.Leads reader.next.2 := by
  obtain ⟨lookahead, unread, offset, position⟩ := reader
  cases lookahead with
  | none =>
      cases unread with
      | nil => exact ⟨[], Passes.refl _⟩
      | cons c rest => exact ⟨[c], rfl, rfl, rfl⟩
  | one c => exact ⟨[c], rfl, rfl, rfl⟩
  | two c d => exact ⟨[c], rfl, rfl, rfl⟩

theorem leads_peek (reader : Reader) : reader.Leads reader.peek.2 := by
  obtain ⟨lookahead, unread, offset, position⟩ := reader
  cases lookahead with
  | none => cases unread <;> exact ⟨[], rfl, rfl, rfl⟩
  | one c => exact ⟨[], rfl, rfl, rfl⟩
  | two c d => exact ⟨[], rfl, rfl, rfl⟩

theorem leads_peekSecond (reader : Reader) : reader.Leads reader.peekSecond.2 := by
  obtain ⟨lookahead, unread, offset, position⟩ := reader
  cases lookahead with
  | none =>
      cases unread with
      | nil => exact ⟨[], rfl, rfl, rfl⟩
      | cons c rest => cases rest <;> exact ⟨[], rfl, rfl, rfl⟩
  | one c => cases unread <;> exact ⟨[], rfl, rfl, rfl⟩
  | two c d => exact ⟨[], rfl, rfl, rfl⟩

theorem leads_accept (reader : Reader) (expected : Char) :
    reader.Leads (reader.accept expected).2 := by
  have looked := reader.leads_peek
  rw [accept]
  rcases peeked : reader.peek with ⟨found, after⟩
  rw [peeked] at looked
  dsimp only
  split
  · exact looked.trans after.leads_next
  · exact looked

theorem leads_step (call : Call) (reader : Reader) :
    reader.Leads (operations.step call reader).2 := by
  cases call with
  | next => exact reader.leads_next
  | peek => exact reader.leads_peek
  | peekSecond => exact reader.leads_peekSecond
  | accept expected => exact reader.leads_accept expected

/-- Calls lead to later places only. -/
theorem Reaches.leads {start stop : Reader} (reaches : start.Reaches stop) : start.Leads stop :=
  reaches.induct ⟨[], .refl start⟩ fun call reader leads => leads.trans (leads_step call reader)

variable {reader : Reader} {c : Char} {text rest : List Char}

/-! ## The operations where the text is known -/

theorem next_of_cons (remaining : reader.remaining = c :: rest) :
    reader.next.1 = some c ∧ reader.Passes [c] reader.next.2
      ∧ reader.next.2.remaining = rest := by
  have left : reader.next.2.remaining = rest := by rw [remaining_next, remaining, List.tail_cons]
  exact ⟨by rw [next_fst, remaining, List.head?_cons],
    reader.leads_next.passes remaining left, left⟩

theorem passes_peek (reader : Reader) : reader.Passes [] reader.peek.2 :=
  reader.leads_peek.passes rfl reader.remaining_peek

theorem passes_peekSecond (reader : Reader) : reader.Passes [] reader.peekSecond.2 :=
  reader.leads_peekSecond.passes rfl reader.remaining_peekSecond

/-- No character at the beginning of the text has the property. -/
def Stops (p : Char → Bool) (text : List Char) : Prop :=
  ∀ c ∈ text.head?, p c = false

theorem dropWhile_append_of_stops {p : Char → Bool} (all : ∀ c ∈ text, p c = true)
    (stops : Stops p rest) : (text ++ rest).dropWhile p = rest := by
  rw [List.dropWhile_append_of_pos all]
  cases rest with
  | nil => rfl
  | cons c rest => rw [List.dropWhile_cons_of_neg (by simp [stops c rfl])]

theorem skipWhile_of_append {p : Char → Bool} (remaining : reader.remaining = text ++ rest)
    (all : ∀ c ∈ text, p c = true) (stops : Stops p rest) :
    reader.Passes text (reader.skipWhile p) ∧ (reader.skipWhile p).remaining = rest := by
  have left : (reader.skipWhile p).remaining = rest := by
    rw [remaining_skipWhile, remaining, dropWhile_append_of_stops all stops]
  exact ⟨(reader.reaches_skipWhile p).leads.passes remaining left, left⟩

theorem skipPast_of_append {last : Char} (remaining : reader.remaining = text ++ last :: rest)
    (absent : last ∉ text) :
    reader.Passes (text ++ [last]) (reader.skipPast last)
      ∧ (reader.skipPast last).remaining = rest := by
  have others : ∀ c ∈ text, (c != last) = true := by
    intro c member
    exact bne_iff_ne.mpr fun same => absent (same ▸ member)
  have left : (reader.skipPast last).remaining = rest := by
    rw [remaining_skipPast, remaining,
      dropWhile_append_of_stops others (by simp [Stops]), List.tail_cons]
  refine ⟨(reader.reaches_skipPast last).leads.passes ?_ left, left⟩
  rw [remaining, List.append_assoc, List.singleton_append]

end Reader
end MiniPascal
