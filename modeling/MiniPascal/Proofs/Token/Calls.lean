import MiniPascal.Token.Lexer

/-! # Calls of a reader

A reader answers four kinds of calls. All that a lexer does with it is one call after the other, so
whatever a single call preserves holds in every place that a scan comes by. -/
set_option autoImplicit false
namespace MiniPascal

/-- What can be asked of a reader. -/
inductive Call where
  | next
  | peek
  | peekSecond
  | accept (expected : Char)

/-- What a call answers: a character, if there is one, or whether the next one was expected. -/
inductive Answer where
  | character (found : Option Char)
  | accepted (whether : Bool)

/-- The operations of a reader on some kind of state. -/
structure Operations (State : Type) where
  next : State → Option Char × State
  peek : State → Option Char × State
  peekSecond : State → Option Char × State
  accept : State → Char → Bool × State

namespace Operations

variable {State : Type} (operations : Operations State)

/-- The answer to a call, and the state behind it. -/
def step : Call → State → Answer × State
  | .next, state => (.character (operations.next state).1, (operations.next state).2)
  | .peek, state => (.character (operations.peek state).1, (operations.peek state).2)
  | .peekSecond, state =>
    (.character (operations.peekSecond state).1, (operations.peekSecond state).2)
  | .accept expected, state =>
    (.accepted (operations.accept state expected).1, (operations.accept state expected).2)

/-- The state behind some calls. -/
def after (state : State) (calls : List Call) : State :=
  calls.foldl (fun state call => (operations.step call state).2) state

/-- The answers to some calls. -/
def answers : State → List Call → List Answer
  | _, [] => []
  | state, call :: calls =>
    (operations.step call state).1 :: answers (operations.step call state).2 calls

/-- Two kinds of state that agree on every call agree on all calls. -/
theorem simulates {Other : Type} (others : Operations Other) (Agree : State → Other → Prop)
    (square : ∀ call state other, Agree state other →
      (operations.step call state).1 = (others.step call other).1
        ∧ Agree (operations.step call state).2 (others.step call other).2)
    (calls : List Call) : ∀ {state other}, Agree state other →
      operations.answers state calls = others.answers other calls
        ∧ Agree (operations.after state calls) (others.after other calls) := by
  induction calls with
  | nil => exact fun agree => ⟨rfl, agree⟩
  | cons call calls ih =>
      intro state other agree
      obtain ⟨answer, agree⟩ := square call state other agree
      obtain ⟨rest, agree⟩ := ih agree
      refine ⟨?_, agree⟩
      rw [answers, answers, answer, rest]

end Operations

namespace Reader

def operations : Operations Reader :=
  ⟨next, peek, peekSecond, accept⟩

/-- Some calls lead from the first place to the second. -/
def Reaches (start stop : Reader) : Prop :=
  ∃ calls, stop = operations.after start calls

namespace Reaches

theorem refl (reader : Reader) : reader.Reaches reader :=
  ⟨[], rfl⟩

theorem trans {start middle stop : Reader} (first : start.Reaches middle)
    (second : middle.Reaches stop) : start.Reaches stop := by
  obtain ⟨before, rfl⟩ := first
  obtain ⟨behind, rfl⟩ := second
  exact ⟨before ++ behind, (List.foldl_append ..).symm⟩

/-- What every call preserves holds in every place that is reached. -/
theorem induct {start stop : Reader} (reaches : start.Reaches stop) {Holds : Reader → Prop}
    (begins : Holds start)
    (step : ∀ call reader, Holds reader → Holds (operations.step call reader).2) :
    Holds stop := by
  obtain ⟨calls, rfl⟩ := reaches
  induction calls generalizing start with
  | nil => exact begins
  | cons call calls ih => exact ih (step call start begins)

end Reaches

theorem reaches_next (reader : Reader) : reader.Reaches reader.next.2 :=
  ⟨[.next], rfl⟩

theorem reaches_peek (reader : Reader) : reader.Reaches reader.peek.2 :=
  ⟨[.peek], rfl⟩

theorem reaches_peekSecond (reader : Reader) : reader.Reaches reader.peekSecond.2 :=
  ⟨[.peekSecond], rfl⟩

theorem reaches_accept (reader : Reader) (expected : Char) :
    reader.Reaches (reader.accept expected).2 :=
  ⟨[.accept expected], rfl⟩

/-! ## Scanning -/

theorem reaches_skipWhileWithin (p : Char → Bool) : ∀ (bound : List Char) (reader : Reader),
    reader.Reaches (skipWhileWithin p bound reader) := by
  intro bound
  induction bound with
  | nil => exact Reaches.refl
  | cons _ bound ih =>
      intro reader
      have looked := reader.reaches_peek
      rw [skipWhileWithin]
      split
      · rename_i after peeked
        rw [peeked] at looked
        exact looked
      · rename_i c after peeked
        rw [peeked] at looked
        split
        · exact looked.trans (after.reaches_next.trans (ih _))
        · exact looked

theorem reaches_skipWhile (reader : Reader) (p : Char → Bool) :
    reader.Reaches (reader.skipWhile p) :=
  reaches_skipWhileWithin p reader.remaining reader

theorem reaches_skipPastWithin (last : Char) : ∀ (bound : List Char) (reader : Reader),
    reader.Reaches (skipPastWithin last bound reader) := by
  intro bound
  induction bound with
  | nil => exact Reaches.refl
  | cons _ bound ih =>
      intro reader
      have moved := reader.reaches_next
      rw [skipPastWithin]
      split
      · rename_i after taken
        rw [taken] at moved
        exact moved
      · rename_i c after taken
        rw [taken] at moved
        split
        · exact moved
        · exact moved.trans (ih after)

theorem reaches_skipPast (reader : Reader) (last : Char) :
    reader.Reaches (reader.skipPast last) :=
  reaches_skipPastWithin last reader.remaining reader

theorem reaches_number (reader : Reader) : reader.Reaches reader.number.2 := by
  have whole := reader.reaches_skipWhile Alphabet.isDigit
  have looked := whole.trans (reader.skipWhile Alphabet.isDigit).reaches_peek
  rw [number]
  split
  · rename_i after peeked
    rw [peeked] at looked
    exact looked
  · rename_i c after peeked
    rw [peeked] at looked
    have further := looked.trans after.reaches_peekSecond
    split
    · split
      · rename_i last peeked
        rw [peeked] at further
        exact further
      · rename_i d last peeked
        rw [peeked] at further
        split
        · exact further.trans (last.reaches_next.trans (last.next.2.reaches_skipWhile _))
        · exact further
    · exact looked

/-- What is yielded for the text between two places: a token of it, or the error at its start. -/
def Yields (start stop : Reader) (outcome : Except LexError Token) : Prop :=
  (∃ kind, outcome = .ok (token kind start stop)) ∨ ∃ c, outcome = .error ⟨start.position, c⟩

theorem reaches_lexeme (start : Reader) (c : Char) (reader : Reader) :
    reader.Reaches (lexeme start c reader).2
      ∧ start.Yields (lexeme start c reader).2 (lexeme start c reader).1 := by
  rw [lexeme]
  split
  · exact ⟨.refl _, .inl ⟨_, rfl⟩⟩
  · split
    · have accepted := reader.reaches_accept '='
      split <;> rename_i answered <;> rw [answered] at accepted <;>
        exact ⟨accepted, .inl ⟨_, rfl⟩⟩
    · split
      · exact ⟨reader.reaches_number, .inl ⟨_, rfl⟩⟩
      · split
        · exact ⟨reader.reaches_skipWhile _, .inl ⟨_, rfl⟩⟩
        · exact ⟨.refl _, .inr ⟨c, rfl⟩⟩

/-- A scan comes by the place where its token starts, and stops behind the token. -/
theorem reaches_scanWithin : ∀ (bound : List Char) (reader : Reader),
    ∃ start, reader.Reaches start ∧ start.Reaches (scanWithin bound reader).2
      ∧ start.Yields (scanWithin bound reader).2 (scanWithin bound reader).1 := by
  intro bound
  induction bound with
  | nil => exact fun reader => ⟨reader, .refl _, .refl _, .inl ⟨_, rfl⟩⟩
  | cons _ bound ih =>
      intro reader
      have blanks := reader.reaches_skipWhile Alphabet.isBlank
      have moved := (reader.skipWhile Alphabet.isBlank).reaches_next
      rw [scanWithin]
      split
      · rename_i after taken
        rw [taken] at moved
        exact ⟨_, blanks, moved, .inl ⟨_, rfl⟩⟩
      · rename_i c after taken
        rw [taken] at moved
        split
        · obtain ⟨start, further, stops, yields⟩ := ih (after.skipPast '\x7d')
          exact ⟨start, blanks.trans (moved.trans ((after.reaches_skipPast _).trans further)),
            stops, yields⟩
        · obtain ⟨stops, yields⟩ := reaches_lexeme (reader.skipWhile Alphabet.isBlank) c after
          exact ⟨_, blanks, moved.trans stops, yields⟩

end Reader
end MiniPascal
