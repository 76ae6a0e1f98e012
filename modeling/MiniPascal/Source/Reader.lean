import MiniPascal.Source.Position

/-! # A reader with two characters of look-ahead

A reader walks over a text one character at a time and can look at the next two characters
without taking them. What it has looked at waits in front of the unread rest; `remaining` is the
text that is still to be taken, wherever it waits. The main statements say what every operation
does to `remaining`: looking never changes it, taking a character removes its first one, and
skipping drops characters from its front. -/
set_option autoImplicit false
namespace MiniPascal

/-- The characters looked at in advance: at most two, in order. -/
inductive Lookahead where
  | none
  | one (first : Char)
  | two (first second : Char)
deriving DecidableEq

def Lookahead.toList : Lookahead → List Char
  | .none => []
  | .one first => [first]
  | .two first second => [first, second]

/-- A place in a text with the characters looked at in advance. The offset counts the bytes of the
characters taken so far in UTF-8. -/
structure Reader where
  lookahead : Lookahead
  unread : List Char
  offset : Nat
  position : Position
deriving DecidableEq

namespace Reader

def ofString (source : String) : Reader :=
  ⟨.none, source.toList, 0, Position.start⟩

/-- The characters still to be taken, in order. -/
def remaining (reader : Reader) : List Char :=
  reader.lookahead.toList ++ reader.unread

/-- Moves the offset and the position behind a character that has been taken out of the text. -/
def pass (reader : Reader) (c : Char) : Reader :=
  { reader with
    offset := reader.offset + c.utf8Size
    position := reader.position.after c }

def next (reader : Reader) : Option Char × Reader :=
  match reader.lookahead with
  | .two c d => (some c, { reader with lookahead := .one d }.pass c)
  | .one c => (some c, { reader with lookahead := .none }.pass c)
  | .none =>
    match reader.unread with
    | [] => (none, reader)
    | c :: rest => (some c, { reader with unread := rest }.pass c)

def peek (reader : Reader) : Option Char × Reader :=
  match reader.lookahead with
  | .two c _ => (some c, reader)
  | .one c => (some c, reader)
  | .none =>
    match reader.unread with
    | [] => (none, reader)
    | c :: rest => (some c, { reader with lookahead := .one c, unread := rest })

def peekSecond (reader : Reader) : Option Char × Reader :=
  match reader.lookahead, reader.unread with
  | .two _ d, _ => (some d, reader)
  | .one _, [] => (none, reader)
  | .one c, d :: rest => (some d, { reader with lookahead := .two c d, unread := rest })
  | .none, [] => (none, reader)
  | .none, [c] => (none, { reader with lookahead := .one c, unread := [] })
  | .none, c :: d :: rest => (some d, { reader with lookahead := .two c d, unread := rest })

/-- Takes the next character if it is the given one, and says whether it was. -/
def accept (reader : Reader) (c : Char) : Bool × Reader :=
  match reader.peek with
  | (found, reader) => if found = some c then (true, reader.next.2) else (false, reader)

/-- The characters at the beginning of a text that make up so many bytes in UTF-8. -/
def takeBytes : Nat → List Char → List Char
  | _, [] => []
  | bytes, c :: rest =>
    if c.utf8Size ≤ bytes then c :: takeBytes (bytes - c.utf8Size) rest else []

/-- The text between two places of a reader: the bytes from the first offset up to the second. -/
def textUpTo (start stop : Reader) : String :=
  String.ofList (takeBytes (stop.offset - start.offset) start.remaining)

/-- `skipWhile` for a reader with at most as many characters left as the list is long. -/
def skipWhileWithin (p : Char → Bool) : List Char → Reader → Reader
  | [], reader => reader
  | _ :: bound, reader =>
    match reader.peek with
    | (none, reader) => reader
    | (some c, reader) => if p c then skipWhileWithin p bound reader.next.2 else reader

/-- Takes characters as long as they satisfy `p`. -/
def skipWhile (reader : Reader) (p : Char → Bool) : Reader :=
  skipWhileWithin p reader.remaining reader

/-- `skipPast` for a reader with at most as many characters left as the list is long. -/
def skipPastWithin (last : Char) : List Char → Reader → Reader
  | [], reader => reader
  | _ :: bound, reader =>
    match reader.next with
    | (none, reader) => reader
    | (some c, reader) => if c = last then reader else skipPastWithin last bound reader

/-- Takes everything up to the first `last` and that character too, or all the rest without one. -/
def skipPast (reader : Reader) (last : Char) : Reader :=
  skipPastWithin last reader.remaining reader

/-! ## What the operations do to the remaining text -/

theorem remaining_ofString (source : String) : (ofString source).remaining = source.toList :=
  rfl

theorem next_fst (reader : Reader) : reader.next.1 = reader.remaining.head? := by
  obtain ⟨lookahead, unread, offset, position⟩ := reader
  cases lookahead with
  | none => cases unread <;> rfl
  | one c => rfl
  | two c d => rfl

theorem remaining_next (reader : Reader) : reader.next.2.remaining = reader.remaining.tail := by
  obtain ⟨lookahead, unread, offset, position⟩ := reader
  cases lookahead with
  | none => cases unread <;> rfl
  | one c => rfl
  | two c d => rfl

theorem peek_fst (reader : Reader) : reader.peek.1 = reader.remaining.head? := by
  obtain ⟨lookahead, unread, offset, position⟩ := reader
  cases lookahead with
  | none => cases unread <;> rfl
  | one c => rfl
  | two c d => rfl

theorem remaining_peek (reader : Reader) : reader.peek.2.remaining = reader.remaining := by
  obtain ⟨lookahead, unread, offset, position⟩ := reader
  cases lookahead with
  | none => cases unread <;> rfl
  | one c => rfl
  | two c d => rfl

theorem peekSecond_fst (reader : Reader) :
    reader.peekSecond.1 = reader.remaining.tail.head? := by
  obtain ⟨lookahead, unread, offset, position⟩ := reader
  cases lookahead with
  | none =>
    cases unread with
    | nil => rfl
    | cons c rest => cases rest <;> rfl
  | one c => cases unread <;> rfl
  | two c d => rfl

theorem remaining_peekSecond (reader : Reader) :
    reader.peekSecond.2.remaining = reader.remaining := by
  obtain ⟨lookahead, unread, offset, position⟩ := reader
  cases lookahead with
  | none =>
    cases unread with
    | nil => rfl
    | cons c rest => cases rest <;> rfl
  | one c => cases unread <;> rfl
  | two c d => rfl

/-- Skipping drops the longest run of characters with the property, whatever waits where. -/
theorem remaining_skipWhileWithin (p : Char → Bool) :
    ∀ (bound : List Char) (reader : Reader), reader.remaining.length ≤ bound.length →
      (skipWhileWithin p bound reader).remaining = reader.remaining.dropWhile p := by
  intro bound
  induction bound with
  | nil =>
    intro reader enough
    have ended : reader.remaining = [] := List.length_eq_zero_iff.mp (Nat.le_zero.mp enough)
    simp [skipWhileWithin, ended]
  | cons c bound ih =>
    intro reader enough
    have found := reader.peek_fst
    have kept := reader.remaining_peek
    rcases looked : reader.peek with ⟨head, after⟩
    rw [looked] at found kept
    simp only at found kept
    cases text : reader.remaining with
    | nil =>
      rw [text, List.head?_nil] at found
      subst found
      simp [skipWhileWithin, looked, kept, text]
    | cons d rest =>
      rw [text, List.head?_cons] at found
      subst found
      by_cases holds : p d
      · have shorter : after.next.2.remaining = rest := by
          rw [remaining_next, kept, text, List.tail_cons]
        have step := ih after.next.2 (by
          rw [shorter]
          rw [text] at enough
          exact Nat.le_of_succ_le_succ enough)
        simp [skipWhileWithin, looked, holds, step, shorter]
      · simp [skipWhileWithin, looked, holds, kept, text]

theorem remaining_skipWhile (reader : Reader) (p : Char → Bool) :
    (reader.skipWhile p).remaining = reader.remaining.dropWhile p :=
  remaining_skipWhileWithin p reader.remaining reader (Nat.le_refl _)

/-- Skipping past a character drops everything in front of it, and the character as well. -/
theorem remaining_skipPastWithin (last : Char) :
    ∀ (bound : List Char) (reader : Reader), reader.remaining.length ≤ bound.length →
      (skipPastWithin last bound reader).remaining
        = (reader.remaining.dropWhile (fun c => c != last)).tail := by
  intro bound
  induction bound with
  | nil =>
    intro reader enough
    have ended : reader.remaining = [] := List.length_eq_zero_iff.mp (Nat.le_zero.mp enough)
    simp [skipPastWithin, ended]
  | cons c bound ih =>
    intro reader enough
    have found := reader.next_fst
    have rest := reader.remaining_next
    rcases taken : reader.next with ⟨head, after⟩
    rw [taken] at found rest
    simp only at found rest
    cases text : reader.remaining with
    | nil =>
      rw [text, List.head?_nil] at found
      rw [text, List.tail_nil] at rest
      subst found
      simp [skipPastWithin, taken, rest]
    | cons d tail =>
      rw [text, List.head?_cons] at found
      rw [text, List.tail_cons] at rest
      subst found
      by_cases same : d = last
      · simp [skipPastWithin, taken, same, rest]
      · have step := ih after (by
          rw [rest]
          rw [text] at enough
          exact Nat.le_of_succ_le_succ enough)
        simp [skipPastWithin, taken, same, step, rest]

theorem remaining_skipPast (reader : Reader) (last : Char) :
    (reader.skipPast last).remaining
      = (reader.remaining.dropWhile (fun c => c != last)).tail :=
  remaining_skipPastWithin last reader.remaining reader (Nat.le_refl _)

end Reader
end MiniPascal
