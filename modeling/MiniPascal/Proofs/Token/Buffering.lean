import MiniPascal.Proofs.Token.Tiling

/-! # The buffer of a reader

What a reader has looked at waits in two slots in front of the unread characters. The slots are
filled in order and emptied in order, so together with the unread characters they hold what the text
has behind the offset, and a cursor that looks the characters up in the text answers every call in
the same way. -/
set_option autoImplicit false
namespace MiniPascal

/-! ## Slots -/

/-- Two slots that can be filled one without the other, and the unread characters behind them. -/
structure Buffer where
  first : Option Char
  second : Option Char
  unread : List Char
  offset : Nat
  position : Position

namespace Buffer

/-- An empty buffer at the beginning of a text. -/
def ofString (source : String) : Buffer :=
  ⟨none, none, source.toList, 0, Position.start⟩

/-- What the slots and the unread characters hold, in order. -/
def held (buffer : Buffer) : List Char :=
  buffer.first.toList ++ buffer.second.toList ++ buffer.unread

/-- Counts a character that has been taken. -/
def pass (buffer : Buffer) (c : Char) : Buffer :=
  { buffer with
    offset := buffer.offset + c.utf8Size
    position := buffer.position.after c }

/-- Takes a character out of the first slot, where the second one moves up, or else out of the
unread characters, whatever the second slot holds. -/
def next (buffer : Buffer) : Option Char × Buffer :=
  match buffer.first with
  | some c => (some c, { buffer with first := buffer.second, second := none }.pass c)
  | none =>
    match buffer.unread with
    | [] => (none, buffer)
    | c :: rest => (some c, { buffer with unread := rest }.pass c)

/-- Fills the first slot if it is empty. -/
def peek (buffer : Buffer) : Option Char × Buffer :=
  match buffer.first with
  | some c => (some c, buffer)
  | none =>
    (buffer.unread.head?,
      { buffer with first := buffer.unread.head?, unread := buffer.unread.tail })

/-- Fills the first slot, and then the second one if there was a character for the first. -/
def peekSecond (buffer : Buffer) : Option Char × Buffer :=
  match buffer.peek with
  | (none, buffer) => (none, buffer)
  | (some _, buffer) =>
    match buffer.second with
    | some d => (some d, buffer)
    | none =>
      (buffer.unread.head?,
        { buffer with second := buffer.unread.head?, unread := buffer.unread.tail })

/-- Takes the next character if it is the expected one. -/
def accept (buffer : Buffer) (expected : Char) : Bool × Buffer :=
  match buffer.peek with
  | (found, buffer) =>
    if found = some expected then (true, buffer.next.2) else (false, buffer)

def operations : Operations Buffer :=
  ⟨next, peek, peekSecond, accept⟩

end Buffer

namespace Reader

/-- The slots of a reader. -/
def buffer (reader : Reader) : Buffer :=
  match reader.lookahead with
  | .none => ⟨none, none, reader.unread, reader.offset, reader.position⟩
  | .one c => ⟨some c, none, reader.unread, reader.offset, reader.position⟩
  | .two c d => ⟨some c, some d, reader.unread, reader.offset, reader.position⟩

theorem held_buffer (reader : Reader) : reader.buffer.held = reader.remaining := by
  obtain ⟨lookahead, unread, offset, position⟩ := reader
  cases lookahead <;> rfl

/-- The slots of a reader are filled in order. -/
theorem first_of_second (reader : Reader) (filled : reader.buffer.second.isSome = true) :
    reader.buffer.first.isSome = true := by
  obtain ⟨lookahead, unread, offset, position⟩ := reader
  cases lookahead with
  | none => cases filled
  | one c => rfl
  | two c d => rfl

theorem next_buffer (reader : Reader) :
    reader.buffer.next = (reader.next.1, reader.next.2.buffer) := by
  obtain ⟨lookahead, unread, offset, position⟩ := reader
  cases lookahead with
  | none => cases unread <;> rfl
  | one c => rfl
  | two c d => rfl

theorem peek_buffer (reader : Reader) :
    reader.buffer.peek = (reader.peek.1, reader.peek.2.buffer) := by
  obtain ⟨lookahead, unread, offset, position⟩ := reader
  cases lookahead with
  | none => cases unread <;> rfl
  | one c => rfl
  | two c d => rfl

theorem peekSecond_buffer (reader : Reader) :
    reader.buffer.peekSecond = (reader.peekSecond.1, reader.peekSecond.2.buffer) := by
  obtain ⟨lookahead, unread, offset, position⟩ := reader
  cases lookahead with
  | none =>
      cases unread with
      | nil => rfl
      | cons c rest => cases rest <;> rfl
  | one c => cases unread <;> rfl
  | two c d => rfl

theorem accept_buffer (reader : Reader) (expected : Char) :
    reader.buffer.accept expected
      = ((reader.accept expected).1, (reader.accept expected).2.buffer) := by
  rw [Buffer.accept, accept, peek_buffer]
  rcases reader.peek with ⟨found, after⟩
  dsimp only
  split
  · rw [next_buffer]
  · rfl

/-- A reader and its slots answer every call in the same way. -/
theorem step_buffer (call : Call) (reader : Reader) :
    Buffer.operations.step call reader.buffer
      = ((operations.step call reader).1, (operations.step call reader).2.buffer) := by
  cases call with
  | next => simp only [Operations.step, Buffer.operations, operations, next_buffer]
  | peek => simp only [Operations.step, Buffer.operations, operations, peek_buffer]
  | peekSecond => simp only [Operations.step, Buffer.operations, operations, peekSecond_buffer]
  | accept expected => simp only [Operations.step, Buffer.operations, operations, accept_buffer]

end Reader

/-! ## Cursors -/

/-- An offset into a text, where characters are looked up. -/
structure Cursor where
  source : String
  offset : Nat

namespace Cursor

/-- The character at the offset, if there is one. -/
def found (cursor : Cursor) : Option Char :=
  String.Pos.Raw.get? cursor.source ⟨cursor.offset⟩

/-- The cursor behind a character. -/
def pass (cursor : Cursor) (c : Char) : Cursor :=
  { cursor with offset := cursor.offset + c.utf8Size }

def next (cursor : Cursor) : Option Char × Cursor :=
  match cursor.found with
  | none => (none, cursor)
  | some c => (some c, cursor.pass c)

def peek (cursor : Cursor) : Option Char × Cursor :=
  (cursor.found, cursor)

def peekSecond (cursor : Cursor) : Option Char × Cursor :=
  (cursor.found.bind fun c => (cursor.pass c).found, cursor)

def accept (cursor : Cursor) (expected : Char) : Bool × Cursor :=
  if cursor.found = some expected then (true, cursor.pass expected) else (false, cursor)

def operations : Operations Cursor :=
  ⟨next, peek, peekSecond, accept⟩

end Cursor

namespace Reader

/-- The place of a reader as an offset into the text. -/
def cursor (source : String) (reader : Reader) : Cursor :=
  ⟨source, reader.offset⟩

variable {source : String} {reader after : Reader} {c : Char}

theorem Passes.cursor (passes : reader.Passes [] after) :
    after.cursor source = reader.cursor source :=
  congrArg (Cursor.mk source) passes.offset

theorem Passes.cursor_singleton (passes : reader.Passes [c] after) :
    after.cursor source = (reader.cursor source).pass c :=
  congrArg (Cursor.mk source) passes.offset

/-- In the places of a text a cursor finds what comes next. -/
theorem found_cursor (leads : (ofString source).Leads reader) :
    (reader.cursor source).found = reader.remaining.head? := by
  obtain ⟨before, passes⟩ := leads
  have split : source = String.ofList (before ++ reader.remaining) := by
    rw [← passes.remaining, remaining_ofString, String.ofList_toList]
  have offset : reader.offset = String.utf8Len before := by
    rw [passes.offset, bytes_eq, String.utf8ByteSize_ofList]
    exact Nat.zero_add _
  rw [Cursor.found, cursor, offset]
  conv => lhs; rw [split]
  exact String.get?_of_valid before reader.remaining

theorem next_of_nil (remaining : reader.remaining = []) :
    reader.next.1 = none ∧ reader.Passes [] reader.next.2 := by
  refine ⟨by rw [next_fst, remaining, List.head?_nil], reader.leads_next.passes remaining ?_⟩
  rw [remaining_next, remaining, List.tail_nil]

theorem next_cursor (leads : (ofString source).Leads reader) :
    (reader.cursor source).next = (reader.next.1, reader.next.2.cursor source) := by
  have found := found_cursor leads
  cases remaining : reader.remaining with
  | nil =>
      obtain ⟨none, passes⟩ := next_of_nil remaining
      rw [Cursor.next, found, remaining, none, passes.cursor]
      rfl
  | cons c rest =>
      obtain ⟨some, passes, _⟩ := next_of_cons remaining
      rw [Cursor.next, found, remaining, some, passes.cursor_singleton]
      rfl

theorem peek_cursor (leads : (ofString source).Leads reader) :
    (reader.cursor source).peek = (reader.peek.1, reader.peek.2.cursor source) := by
  rw [Cursor.peek, found_cursor leads, peek_fst, reader.passes_peek.cursor]

theorem peekSecond_cursor (leads : (ofString source).Leads reader) :
    (reader.cursor source).peekSecond
      = (reader.peekSecond.1, reader.peekSecond.2.cursor source) := by
  rw [Cursor.peekSecond, found_cursor leads, peekSecond_fst, reader.passes_peekSecond.cursor]
  cases remaining : reader.remaining with
  | nil => rfl
  | cons c rest =>
      -- the character after the next one is the next one behind it
      obtain ⟨_, passes, left⟩ := next_of_cons remaining
      have further := found_cursor (leads.trans reader.leads_next)
      rw [passes.cursor_singleton, left] at further
      rw [List.head?_cons, Option.bind_some, further, List.tail_cons]

theorem accept_cursor (leads : (ofString source).Leads reader) (expected : Char) :
    (reader.cursor source).accept expected
      = ((reader.accept expected).1, (reader.accept expected).2.cursor source) := by
  have found := reader.peek_fst
  have passes := reader.passes_peek
  rw [Cursor.accept, found_cursor leads, accept]
  rcases peeked : reader.peek with ⟨head, after⟩
  rw [peeked] at found passes
  dsimp only at found passes ⊢
  rw [← found]
  split
  · rename_i same
    have remaining : after.remaining = expected :: after.remaining.tail := by
      rw [found, passes.remaining, List.nil_append] at same
      exact (List.cons_head?_tail same).symm
    rw [(next_of_cons remaining).2.1.cursor_singleton, passes.cursor]
  · rw [passes.cursor]

/-- A reader and a cursor in the same place of a text answer every call in the same way, and are in
the same place again. -/
theorem step_cursor (leads : (ofString source).Leads reader) (call : Call) :
    Cursor.operations.step call (reader.cursor source)
      = ((operations.step call reader).1, (operations.step call reader).2.cursor source) := by
  cases call with
  | next => simp only [Operations.step, Cursor.operations, operations, next_cursor leads]
  | peek => simp only [Operations.step, Cursor.operations, operations, peek_cursor leads]
  | peekSecond =>
      simp only [Operations.step, Cursor.operations, operations, peekSecond_cursor leads]
  | accept expected =>
      simp only [Operations.step, Cursor.operations, operations, accept_cursor leads]

/-! ## Successions of calls -/

/-- What every place in a text has: the slots and the unread characters hold the text from the
offset on, which is in front of a whole character, and the first slot is filled before the second. -/
structure Holds (source : String) (reader : Reader) : Prop where
  text : Slices source reader.offset source.utf8ByteSize (String.ofList reader.buffer.held)
  filled : reader.buffer.second.isSome = true → reader.buffer.first.isSome = true

theorem holds_of_leads (leads : (ofString source).Leads reader) : reader.Holds source := by
  obtain ⟨before, passes⟩ := leads
  have split : source.toList = before ++ reader.remaining ++ [] := by
    rw [List.append_nil]
    exact passes.remaining
  have first : bytes before = reader.offset := by
    rw [passes.offset]
    exact (Nat.zero_add _).symm
  have last : bytes (before ++ reader.remaining) = source.utf8ByteSize := by
    rw [List.append_nil] at split
    rw [← split, bytes_eq, String.ofList_toList]
  refine ⟨?_, reader.first_of_second⟩
  rw [held_buffer, ← first, ← last]
  exact slices_of_split split

theorem Leads.offset_le (leads : reader.Leads after) : reader.offset ≤ after.offset := by
  obtain ⟨text, passes⟩ := leads
  exact passes.offset ▸ Nat.le_add_right _ _

/-- The slots go along with the reader. -/
theorem simulates_buffer (reader : Reader) (calls : List Call) :
    Buffer.operations.answers reader.buffer calls = operations.answers reader calls
      ∧ Buffer.operations.after reader.buffer calls = (operations.after reader calls).buffer := by
  refine Buffer.operations.simulates operations (fun buffer reader => buffer = reader.buffer) ?_
    calls rfl
  rintro call _ reader rfl
  rw [step_buffer]
  exact ⟨rfl, rfl⟩

/-- The cursor in the place of a reader goes along with it. -/
theorem simulates_cursor (leads : (ofString source).Leads reader) (calls : List Call) :
    Cursor.operations.answers (reader.cursor source) calls = operations.answers reader calls
      ∧ Cursor.operations.after (reader.cursor source) calls
        = (operations.after reader calls).cursor source := by
  have together := Cursor.operations.simulates operations
    (fun cursor reader => (ofString source).Leads reader ∧ cursor = reader.cursor source)
    ?_ calls ⟨leads, rfl⟩
  · exact ⟨together.1, together.2.2⟩
  · rintro call _ reader ⟨leads, rfl⟩
    rw [step_cursor leads]
    exact ⟨rfl, leads.trans (leads_step call reader), rfl⟩

/-- Calls behind a look are answered as they are without it. -/
theorem answers_of_passes (leads : (ofString source).Leads reader) (passes : reader.Passes [] after)
    (calls : List Call) : operations.answers after calls = operations.answers reader calls := by
  rw [← (simulates_cursor leads calls).1, ← (simulates_cursor (leads.trans ⟨_, passes⟩) calls).1,
    passes.cursor]

/-- Calls on a text leave a reader, its slots and a cursor in one place, and all three have given
the same answers. -/
structure Refines (source : String) (calls : List Call) : Prop where
  holds : (operations.after (ofString source) calls).Holds source
  slots : Buffer.operations.after (Buffer.ofString source) calls
    = (operations.after (ofString source) calls).buffer
  slotAnswers : Buffer.operations.answers (Buffer.ofString source) calls
    = operations.answers (ofString source) calls
  cursor : Cursor.operations.after ⟨source, 0⟩ calls
    = (operations.after (ofString source) calls).cursor source
  cursorAnswers : Cursor.operations.answers ⟨source, 0⟩ calls
    = operations.answers (ofString source) calls

theorem refines (source : String) (calls : List Call) : Refines source calls := by
  have begins : (ofString source).Leads (ofString source) := ⟨[], .refl _⟩
  have reaches : (ofString source).Reaches (operations.after (ofString source) calls) :=
    ⟨calls, rfl⟩
  obtain ⟨slotAnswers, slots⟩ := simulates_buffer (ofString source) calls
  obtain ⟨cursorAnswers, cursor⟩ := simulates_cursor begins calls
  exact ⟨holds_of_leads reaches.leads, slots, slotAnswers, cursor, cursorAnswers⟩

/-- The reader of a lexer is always in a place that calls on the text lead to. -/
theorem reaches_afterSteps (lexer : Lexer) (steps : Nat) :
    lexer.reader.Reaches (lexer.afterSteps steps).reader := by
  have scanned : ∀ lexer : Lexer, lexer.reader.Reaches lexer.scan.2.reader := by
    intro lexer
    obtain ⟨start, begins, stops, _⟩ := reaches_scanWithin lexer.reader.remaining lexer.reader
    have reaches : lexer.reader.Reaches lexer.reader.scan.2 := begins.trans stops
    rw [Lexer.scan]
    split <;> rename_i outcome <;> rw [outcome] at reaches <;> exact reaches
  have advanced : ∀ lexer : Lexer, lexer.reader.Reaches lexer.advance.2.reader := by
    intro lexer
    rw [Lexer.advance]
    split
    · split
      · exact .refl _
      · exact scanned lexer
    · exact scanned lexer
  induction steps generalizing lexer with
  | zero => exact .refl _
  | succ steps ih => exact (advanced lexer).trans (ih lexer.advance.2)

/-- After any calls on a text, a reader holds the text from its offset on and has answered as a
cursor in the text. The offset never falls, and a look has no influence on later answers. A lexer is
in such a place before and after each step, and in between where a token starts. -/
theorem calls_refine_cursor (source : String) :
    (∀ calls, Refines source calls)
      ∧ (∀ calls later, (operations.after (ofString source) calls).offset
        ≤ (operations.after (ofString source) (calls ++ later)).offset)
      ∧ (∀ calls later,
        operations.answers (operations.after (ofString source) (calls ++ [.peek])) later
            = operations.answers (operations.after (ofString source) calls) later
          ∧ operations.answers (operations.after (ofString source) (calls ++ [.peekSecond])) later
            = operations.answers (operations.after (ofString source) calls) later)
      ∧ ∀ steps, ∃ start stop outcome,
        ((Lexer.ofString source).afterSteps steps).reader.scan = (outcome, stop)
          ∧ (ofString source).Reaches ((Lexer.ofString source).afterSteps steps).reader
          ∧ ((Lexer.ofString source).afterSteps steps).reader.Reaches start
          ∧ start.Reaches stop ∧ start.offset ≤ stop.offset ∧ start.Yields stop outcome := by
  refine ⟨refines source, fun calls later => ?_, fun calls later => ?_, fun steps => ?_⟩
  · have reaches : (operations.after (ofString source) calls).Reaches
        (operations.after (ofString source) (calls ++ later)) := ⟨later, List.foldl_append ..⟩
    exact reaches.leads.offset_le
  · have reaches : (ofString source).Reaches (operations.after (ofString source) calls) :=
      ⟨calls, rfl⟩
    have behind : ∀ look, operations.after (ofString source) (calls ++ [look])
        = (operations.step look (operations.after (ofString source) calls)).2 := fun look =>
      List.foldl_append ..
    rw [behind, behind]
    exact ⟨answers_of_passes reaches.leads (passes_peek _) later,
      answers_of_passes reaches.leads (passes_peekSecond _) later⟩
  · obtain ⟨start, begins, stops, yields⟩ :=
      reaches_scanWithin _ ((Lexer.ofString source).afterSteps steps).reader
    exact ⟨start, _, _, rfl, reaches_afterSteps (Lexer.ofString source) steps, begins, stops,
      stops.leads.offset_le, yields⟩

end Reader
end MiniPascal
