import MiniPascal.Proofs.Program.FirstError
import MiniPascal.Proofs.Program.ParsingAdvances
import MiniPascal.Proofs.Program.ParsingViable
import MiniPascal.Proofs.Program.Spaced

/-! # Tokens are refused as early as possible

A token that a parser does not expect could not stand there in any program, and the tokens in front
of it do begin one. So the parser never goes on when all is lost, and never gives up before. -/
set_option autoImplicit false
namespace MiniPascal

theorem Grammar.Program.exists_dot {tokens : List Token} {tree : MiniPascal.Program}
    (derived : Grammar.Program tokens tree) : ∃ others dot, tokens = others ++ [dot]
      ∧ dot.kind = .dot ∧ ∀ token ∈ others, token.kind ≠ .dot := by
  cases derived with
  | @mk keyword name semicolon dot tokens block opens kind ends derived dots =>
      refine ⟨keyword :: name :: semicolon :: tokens, dot, by simp, dots, ?_⟩
      simp only [List.forall_mem_cons, opens, kind, ends]
      exact ⟨by decide, by decide, by decide, derived.tidy.ne_dot⟩

theorem Lexer.closed_outcomes (source : String) : Closed (outcomes source) := by
  obtain ⟨front, last, same, kind⟩ := exists_last source
  exact ⟨last, by rw [same, List.getLast?_concat], kind⟩

/-- The text begins with these tokens, of the same kinds and texts, wherever they stand. -/
def Lexer.Begins (source : String) (tokens : List Token) : Prop :=
  ∃ (placed : List Token) (rest : List (Except LexError Token)),
    outcomes source = placed.map Except.ok ++ rest
      ∧ placed.map Token.unplaced = tokens.map Token.unplaced

namespace Parser

open Parse Session

variable {token got : Token} {others : List Token} {rest : List (Except LexError Token)}
  {bound size : Nat} {expected : Expectation} {after : Session} {error : ParseError}

/-- Behind these tokens every text fails with the error, if the bound is not too small. -/
def Dead (error : ParseError) (size : Nat) (token : Token) (others : List Token) : Prop :=
  ∀ bound, size ≤ bound → ∀ rest, ∃ later,
    program bound (Session.begun token (others.map Except.ok ++ rest)) = .error error later

/-- A larger bound makes no difference to a program that is parsed. -/
theorem program_of_larger {bound' : Nat} {program : MiniPascal.Program}
    (closed : Closed (.ok token :: rest)) (short : rest.length < bound) (larger : bound ≤ bound')
    (done : Parser.program bound (Session.begun token rest) = .ok program after) :
    Parser.program bound' (Session.begun token rest) = .ok program after := by
  have ready : (Session.begun token rest).Ready := ⟨rfl, closed⟩
  have taken := takes_program larger _ ready short
  rw [done] at taken
  cases taken with
  | ok used split ready again =>
      have same := again after.stream.pending
      rw [← split] at same
      exact same

/-- The outcomes that a session has taken are the tokens that it has read, and no errors. -/
theorem exists_read_of_advances {used : List (Except LexError Token)}
    (advances : (Session.begun token rest).Advances after) (free : after.lookahead = none)
    (split : rest = used ++ after.stream.pending) :
    ∃ read : List Token, used = read.map Except.ok ∧ token :: read <+: after.read.reverse := by
  have passed : (.ok token :: used : List (Except LexError Token))
      <+: after.read.reverse.map .ok := by
    have met := advances.met
    have whole : (Session.begun token rest).met = (.ok token :: used) ++ after.stream.pending := by
      rw [Session.met, Session.upcoming_of_free rfl]
      simp [Session.begun, split]
    have later : after.met = after.read.reverse.map .ok ++ after.stream.pending := by
      rw [Session.met, Session.upcoming_of_free free]
    rw [whole, later] at met
    refine List.prefix_of_prefix_length_le ((List.prefix_append _ _).trans met)
      (List.prefix_append _ _) ?_
    have := met.length_le
    simp only [List.length_append] at this
    omega
  obtain ⟨tokens, begins, same⟩ := List.prefix_map_iff.mp passed
  cases tokens with
  | nil => cases same
  | cons first read =>
      rw [List.map_cons] at same
      injection same with first used
      injection first with first
      subst first used
      exact ⟨read, rfl, begins⟩

/-- What has been read when a token is refused decides that it is. -/
theorem exists_read (closed : Closed (.ok token :: rest)) (short : rest.length < bound)
    (failed : program bound (Session.begun token rest)
      = .error (.unexpectedToken expected got) after) :
    ∃ read : List Token, rest = read.map Except.ok ++ after.stream.pending
      ∧ after.lookahead = none
      ∧ (∀ before last more, token :: read = before ++ last :: more →
        ∀ token ∈ before, token.Fits)
      ∧ Dead (.unexpectedToken expected got) bound token read := by
  have ready : (Session.begun token rest).Ready := ⟨rfl, closed⟩
  have takes : ∀ bound', bound ≤ bound' → ∃ used, rest = used ++ after.stream.pending
      ∧ after.lookahead = none ∧ ∀ others, ∃ later,
        program bound' (Session.begun token (used ++ others))
          = .error (.unexpectedToken expected got) later := by
    intro bound' larger
    have taken := takes_program larger _ ready short
    rw [failed] at taken
    cases taken with
    | stopped used split ready blames again => exact ⟨used, split, ready.free, again⟩
  obtain ⟨used, split, free, _⟩ := takes bound (Nat.le_refl _)
  have advances := advances_program bound (Session.begun token rest)
  rw [failed] at advances
  obtain ⟨read, rfl, more, begins⟩ := exists_read_of_advances advances free split
  refine ⟨read, split, free, ?_, fun bound' larger => ?_⟩
  · intro before last behind same other member
    rw [same, List.append_assoc, List.cons_append] at begins
    have passed : other ∈ after.read.reverse.dropLast := by
      rw [← begins, List.dropLast_append_of_ne_nil (List.cons_ne_nil _ _)]
      exact List.mem_append_left _ member
    rw [List.dropLast_reverse, List.mem_reverse] at passed
    exact advances.fits (by simp [Session.begun]) other passed
  · obtain ⟨used, again, _, fails⟩ := takes bound' larger
    rwa [List.append_cancel_right (again.symm.trans split)] at fails

/-- Tokens at the beginning of some outcomes stand in front of the first error. -/
theorem prefix_of_append_eq {first second : List Token} {beyond : List (Except LexError Token)}
    {unknown : LexError}
    (same : second.map Except.ok ++ .error unknown :: beyond = first.map Except.ok ++ rest) :
    first <+: second := by
  refine prefix_of_map_ok (.inr ⟨unknown, beyond, rfl⟩) ?_
  rw [same]
  exact List.prefix_append _ _

/-- The refused token and those in front of it: these begin a program, and behind all of them every
text fails. -/
theorem exists_viable (dead : Dead (.unexpectedToken expected got) size token others)
    (fits : ∀ before last more, token :: others = before ++ last :: more →
      ∀ token ∈ before, token.Fits) :
    ∃ before behind more size', token :: others = before ++ got :: behind
      ∧ before ++ [got] = token :: more ∧ (∀ token ∈ before, token.Fits)
      ∧ Completable Grammar.Program before
      ∧ Dead (.unexpectedToken expected got) size' token more := by
  -- An unknown character behind the tokens shows how far the parser gets with them alone.
  let beyond : List (Except LexError Token) := [.error ⟨Position.start, '?'⟩, .ok Token.initial]
  obtain ⟨bound, least, enough⟩ : ∃ bound, size ≤ bound ∧ others.length + 3 ≤ bound :=
    ⟨_, Nat.le_max_left _ _, Nat.le_max_right _ _⟩
  have short : (others.map Except.ok ++ beyond).length < bound := by
    simp only [beyond, List.length_append, List.length_map, List.length_cons, List.length_nil]
    omega
  have closed : Closed (.ok token :: (others.map Except.ok ++ beyond)) :=
    ⟨Token.initial, by simp [beyond, List.getLast?_cons], rfl⟩
  obtain ⟨after, failed⟩ := dead bound least beyond
  obtain ⟨before, behind, known, split, viable, stood⟩ :=
    viable_program _ (stands_begun .stopped) failed
  obtain ⟨read, pending, free, _, stays⟩ := exists_read closed short failed
  have among : read <+: others := prefix_of_append_eq pending
  obtain ⟨unread, rfl⟩ := among
  -- Nothing of what stands behind the refused token has been read.
  have remaining : behind <+: unread := by
    obtain ⟨others, coming, _⟩ := stood.coming
    rw [free, Option.toList_none, List.map_nil, List.nil_append, List.tail_cons] at coming
    rw [List.map_append, List.append_assoc] at pending
    rw [← List.append_cancel_left pending] at coming
    exact prefix_of_append_eq coming
  have begins : token :: read <+: before ++ [got] := by
    rw [← List.cons_append, List.append_cons] at split
    refine List.prefix_of_prefix_length_le (split ▸ List.prefix_append _ _)
      (List.prefix_append _ behind) ?_
    have := remaining.length_le
    have := congrArg List.length split
    simp only [List.length_append, List.length_cons, List.length_nil] at this ⊢
    omega
  obtain ⟨more, same⟩ := begins
  refine ⟨before, behind, read ++ more, bound, split, same.symm, fits _ _ _ split, viable, ?_⟩
  intro bound' larger rest
  rw [List.map_append, List.append_assoc]
  exact stays bound' larger _

/-! ## Whole texts -/

variable {source : String}

/-- No text that begins with dead tokens is parsed, wherever they stand in it. -/
theorem not_begins_of_dead (dead : Dead error size token others) {program : MiniPascal.Program}
    (done : parse (Session.ofString source) = .ok program after) :
    ¬ Lexer.Begins source (token :: others) := by
  rintro ⟨placed, rest, outcomes, same⟩
  cases placed with
  | nil => cases same
  | cons first placed =>
      rw [List.map_cons, List.cons_append] at outcomes
      rw [parse_of_ok outcomes] at done
      have larger := program_of_larger (outcomes ▸ Lexer.closed_outcomes source)
        (Nat.lt_add_of_pos_right Nat.two_pos) (Nat.le_max_right size _) done
      obtain ⟨value, later, parsed⟩ := exists_ok_of_unplaced larger same
      obtain ⟨last, failed⟩ := dead _ (Nat.le_max_left _ _) rest
      rw [parsed] at failed
      cases failed

/-- The tokens of a text are those of a program if its first ones are, and the only dot is the last
of them. -/
theorem eq_of_derived {tokens placed used : List Token} {last : Token}
    {tree tree' : MiniPascal.Program} (derived : Grammar.Program tokens tree)
    (same : placed.map Token.unplaced = tokens.map Token.unplaced)
    (derived' : Grammar.Program used tree') (begins : used <+: placed ++ [last]) :
    used = placed := by
  obtain ⟨others, dot, rfl, dots, free⟩ := derived.exists_dot
  obtain ⟨others', dot', rfl, dots', free'⟩ := derived'.exists_dot
  rw [List.map_append] at same
  obtain ⟨front, back, rfl, fronts, backs⟩ := List.map_eq_append_iff.mp same
  obtain ⟨end', rfl, ends⟩ := List.map_eq_singleton_iff.mp backs
  have plain : ∀ token ∈ front, token.kind ≠ .dot := by
    intro token member kind
    have among : token.unplaced ∈ others.map Token.unplaced :=
      fronts ▸ List.mem_map_of_mem member
    obtain ⟨other, found, equal⟩ := List.mem_map.mp among
    exact free other found ((congrArg Token.kind equal).trans kind)
  have kind : end'.kind = .dot := (congrArg Token.kind ends).trans dots
  have whole : others' ++ [dot'] <+: front ++ end' :: [last] := by simpa using begins
  obtain rfl := Grammar.eq_of_prefix whole free' plain dots' kind
  obtain ⟨rfl, _⟩ := List.cons_prefix_cons.mp ((List.prefix_append_right_inj _).mp whole)
  rfl

/-- What can be completed is the beginning of the tokens of a program that is parsed. -/
theorem exists_completed {tokens : List Token} (begun : Completable Grammar.Program tokens)
    (fits : ∀ token ∈ tokens, token.Fits) (lexed : ∀ token ∈ tokens, token.Lexes) :
    ∃ (other : String) (program : MiniPascal.Program) (later : Session) (whole : List Token),
      parse (Session.ofString other) = .ok program later
        ∧ whole.map Except.ok <+: Lexer.outcomes other ∧ Grammar.Program whole program.bare
        ∧ tokens.map Token.unplaced <+: whole.map Token.unplaced := by
  obtain ⟨ahead, tree, fills, derived⟩ := begun
  have lexed : ∀ token ∈ tokens ++ ahead, token.Lexes :=
    List.forall_mem_append.mpr ⟨lexed, fun token member => (fills token member).lexes⟩
  have fits : ∀ token ∈ tokens ++ ahead, token.Fits :=
    List.forall_mem_append.mpr ⟨fits, fun token member => (fills token member).fits⟩
  have more : ∀ token ∈ tokens ++ ahead, token.kind ≠ .endOfFile :=
    fun token member => (lexed token member).elim fun _ lexeme => lexeme.kind_ne
  obtain ⟨other, placed, last, same, kind, outcomes⟩ := Token.exists_source lexed
  obtain ⟨program, later, parsed⟩ := exists_parsed_of_unplaced derived fits more same kind outcomes
  obtain ⟨used, begins, _, _, derived'⟩ := sound_parse parsed
  have among : used <+: placed ++ [last] := by
    refine prefix_of_map_ok (.inl rfl) ?_
    rwa [List.append_nil, ← outcomes]
  obtain rfl := eq_of_derived derived same derived' among
  refine ⟨other, program, later, used, parsed, begins, derived', ?_⟩
  rw [same, List.map_append]
  exact List.prefix_append _ _

/-- Tokens of a text in front of another one are lexemes of the text. -/
theorem lexes_of_outcomes {before : List Token}
    (outcomes : Lexer.outcomes source = before.map Except.ok ++ .ok got :: rest) :
    ∀ token ∈ before, token.Lexes := by
  intro token member
  obtain ⟨passed, front, _, _, cuts, whole⟩ := Lexer.exists_outcomes_cut source
  rw [outcomes] at whole
  obtain ⟨between, rfl⟩ := exists_of_append_eq (List.cons_ne_nil _ _) whole.symm
  have inside : .ok token ∈ before.map (Except.ok : Token → Except LexError Token) :=
    List.mem_map_of_mem member
  rcases Lexer.lexemeOf_of_mem (outcomes ▸ List.mem_append_left _ inside) with found | rfl
  · obtain ⟨_, text, rest, _, lexeme, same, _⟩ := found
    exact ⟨rest, by rwa [same, String.toList_ofList]⟩
  · exact absurd rfl (cuts.kind_ne _ (List.mem_append_left _ inside))

/-- If a parser meets a token that it does not expect, the tokens of the text before it are the
first ones of a program that is parsed, and no text that is parsed begins with them and this
token. -/
theorem parse_refuses_earliest
    (failed : parse (Session.ofString source) = .error (.unexpectedToken expected got) after) :
    ∃ (before : List Token) (rest : List (Except LexError Token)),
      Lexer.outcomes source = before.map Except.ok ++ .ok got :: rest
        ∧ (∃ (other : String) (program : MiniPascal.Program) (later : Session) (whole : List Token),
          parse (Session.ofString other) = .ok program later
            ∧ whole.map Except.ok <+: Lexer.outcomes other ∧ Grammar.Program whole program.bare
            ∧ before.map Token.unplaced <+: whole.map Token.unplaced)
        ∧ ∀ (other : String) (program : MiniPascal.Program) (later : Session),
          parse (Session.ofString other) = .ok program later →
            ¬ Lexer.Begins other (before ++ [got]) := by
  obtain ⟨outcome, rest, first⟩ : ∃ outcome rest, Lexer.outcomes source = outcome :: rest := by
    obtain ⟨front, last, outcomes, _⟩ := Lexer.exists_last source
    exact List.exists_cons_of_ne_nil (by simp [outcomes])
  cases outcome with
  | error unknown =>
      rw [parse_of_error first] at failed
      cases failed
  | ok token =>
      rw [parse_of_ok first] at failed
      obtain ⟨read, pending, _, fits, dead⟩ := exists_read
        (first ▸ Lexer.closed_outcomes source) (Nat.lt_add_of_pos_right Nat.two_pos) failed
      obtain ⟨before, behind, more, size, split, begins, fits, viable, dead⟩ :=
        exists_viable dead fits
      have whole : Lexer.outcomes source
          = before.map Except.ok ++ .ok got :: (behind.map Except.ok ++ after.stream.pending) := by
        rw [first, pending, ← List.cons_append, ← List.map_cons, split]
        simp
      refine ⟨before, _, whole, exists_completed viable fits (lexes_of_outcomes whole), ?_⟩
      intro other program later done
      rw [begins]
      exact not_begins_of_dead dead done

/-- A program whose only statement is the name of no procedure, and the token behind the name. -/
def alone : String × Token :=
  ("PROGRAM p; BEGIN x END.", ⟨.finish, "END", ⟨1, 20⟩⟩)

theorem parse_refuses_earliest_alone :
    FailsWith alone.1 (.unexpectedToken (.token .assign) alone.2)
      ∧ ∃ (before : List Token) (rest : List (Except LexError Token)),
        Lexer.outcomes alone.1 = before.map Except.ok ++ .ok alone.2 :: rest
          ∧ (∃ (other : String) (program : MiniPascal.Program) (later : Session)
              (whole : List Token), parse (Session.ofString other) = .ok program later
            ∧ whole.map Except.ok <+: Lexer.outcomes other ∧ Grammar.Program whole program.bare
            ∧ before.map Token.unplaced <+: whole.map Token.unplaced)
          ∧ ∀ (other : String) (program : MiniPascal.Program) (later : Session),
            parse (Session.ofString other) = .ok program later →
              ¬ Lexer.Begins other (before ++ [alone.2]) := by
  have fails : FailsWith alone.1 (.unexpectedToken (.token .assign) alone.2) := by decide +kernel
  obtain ⟨after, failed⟩ := fails
  exact ⟨⟨after, failed⟩, parse_refuses_earliest failed⟩

end Parser
end MiniPascal
