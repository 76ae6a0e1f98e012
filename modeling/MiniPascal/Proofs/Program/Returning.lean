import Mathlib.Logic.Function.Iterate
import MiniPascal.Proofs.Program.Descent
import MiniPascal.Proofs.Program.Succession
import MiniPascal.Proofs.Token.Cutting

/-! # Parses return

Behind every token there is less to come, and so the descent without bounds comes to its end: after
as many passes as there are outcomes to come it does what the parser with its bounds does, whatever
the table was to begin with. On its way the lexer gives out no more tokens than are left of the
text, and the end of file. -/
set_option autoImplicit false
namespace MiniPascal

/-! ## What is given out -/

/-- The tokens to come, the end of file among them. -/
def TokenStream.tokens (stream : TokenStream) : List Token :=
  stream.pending.filterMap Except.toOption

/-- How many tokens are left of the text, not counting the end of file. -/
def TokenStream.left (stream : TokenStream) : Nat :=
  stream.tokens.countP fun token => token.kind ≠ .endOfFile

/-- A token that is taken is no longer to come, but for the end of file behind the last outcome. -/
theorem TokenStream.pending_of_advanced {stream after : TokenStream} {token : Token}
    (advanced : stream.advance = (.ok token, after)) :
    stream.pending = .ok token :: after.pending ∨ stream.pending = [] ∧ after.pending = [] := by
  rw [advance] at advanced
  split at advanced
  · rename_i none
    cases advanced
    exact .inr ⟨none, none⟩
  · rename_i pending
    cases advanced
    exact .inl pending
  · cases advanced

namespace Session

variable {source : String} {start session : Session} {token : Token}

/-- How many tokens the lexer has given out. -/
def drawn (session : Session) : Nat :=
  session.read.length + session.lookahead.toList.length

theorem length_upcoming (session : Session) : session.upcoming.length
    = session.lookahead.toList.length + session.stream.pending.length := by
  rw [upcoming, List.length_append, List.length_map]

theorem Ready.pending_eq {stream : TokenStream} (ready : session.Ready)
    (more : session.current.kind ≠ .endOfFile)
    (advanced : session.stream.advance = (.ok token, stream)) :
    session.stream.pending = .ok token :: stream.pending := by
  obtain ⟨outcome, rest, pending⟩ := ready.exists_cons more
  rcases TokenStream.pending_of_advanced advanced with next | ⟨none, _⟩
  · exact next
  · rw [pending] at none
    cases none

theorem Ready.closed_upcoming (ready : session.Ready) :
    Closed (.ok session.current :: session.upcoming) := by
  rw [upcoming_of_free ready.free]
  exact ready.closed

/-- The first move of a call takes at most one outcome, and its token is given out. -/
theorem drawn_of_consume (free : session.lookahead = none)
    (done : consume session = .ok () start) :
    start.drawn = session.drawn + 1 ∧ start.stream.tokens = session.stream.tokens.tail
      ∧ start.stream.pending.length ≤ session.stream.pending.length := by
  rcases advanced : session.stream.advance with ⟨error | token, stream⟩
  · rw [Parse.consume_of_blocked free advanced] at done
    cases done
  · rw [Parse.consume_of_advanced free advanced] at done
    cases done
    have given : session.drawn + 1 = session.read.length + 1 := by
      rw [drawn, free]
      rfl
    refine ⟨given.symm, ?_⟩
    rcases TokenStream.pending_of_advanced advanced with next | ⟨none, ended⟩
    · rw [TokenStream.tokens, TokenStream.tokens, next]
      exact ⟨rfl, Nat.le_succ _⟩
    · rw [TokenStream.tokens, TokenStream.tokens, none, ended]
      exact ⟨rfl, Nat.le_refl _⟩

theorem drawn_of_failed {error : ParseError} (free : session.lookahead = none)
    (failed : consume session = .error error start) : start.drawn = session.drawn := by
  rcases advanced : session.stream.advance with ⟨unknown | token, stream⟩
  · rw [Parse.consume_of_blocked free advanced] at failed
    cases failed
    rfl
  · rw [Parse.consume_of_advanced free advanced] at failed
    cases failed

/-- On the way from one session to another some of the tokens to come have been given out, and the
end of the text is still to come or is reached. -/
structure Gives (start session : Session) : Prop where
  given : ∃ given : List Token,
    start.stream.pending = given.map Except.ok ++ session.stream.pending
      ∧ session.drawn = start.drawn + given.length
  closed : Closed (.ok session.current :: session.upcoming)

/-- Where the lexer may be asked for a token, it gives out the next one to come. -/
theorem Gives.next {stream : TokenStream} (gives : start.Gives session)
    (free : session.lookahead = none) (more : session.current.kind ≠ .endOfFile)
    (advanced : session.stream.advance = (.ok token, stream)) :
    (∃ given : List Token, start.stream.pending = given.map Except.ok ++ stream.pending
      ∧ session.read.length + 1 = start.drawn + given.length)
    ∧ Closed (.ok session.current :: .ok token :: stream.pending) := by
  obtain ⟨⟨given, pending, drawn⟩, closed⟩ := gives
  rw [upcoming_of_free free] at closed
  rw [Session.drawn, free] at drawn
  have next := Ready.pending_eq ⟨free, closed⟩ more advanced
  rw [next] at pending closed
  refine ⟨⟨given ++ [token], ?_, ?_⟩, closed⟩
  · rw [pending, List.map_append, List.append_assoc]
    rfl
  · rw [List.length_append, ← Nat.add_assoc, ← drawn]
    rfl

theorem Goes.gives (goes : start.Goes session)
    (closed : Closed (.ok start.current :: start.upcoming)) : start.Gives session := by
  induction goes with
  | refl => exact ⟨⟨[], rfl, rfl⟩, closed⟩
  | shifted _ looked ih =>
      obtain ⟨⟨given, pending, drawn⟩, closed⟩ := ih
      rw [upcoming_of_looked looked] at closed
      rw [Session.drawn, looked] at drawn
      exact ⟨⟨given, pending, drawn⟩, closed.tail⟩
  | advanced _ free more advanced ih =>
      obtain ⟨given, closed⟩ := ih.next free more advanced
      exact ⟨given, closed.tail⟩
  | looked _ free more advanced ih =>
      obtain ⟨given, closed⟩ := ih.next free more advanced
      exact ⟨given, closed⟩
  | numbered _ ih => exact ⟨ih.given, ih.closed⟩
  | learned _ _ ih => exact ⟨ih.given, ih.closed⟩

/-- What has been read is no longer to come. -/
theorem Gives.length_eq (gives : start.Gives session) :
    session.read.length + session.upcoming.length
      = start.read.length + start.upcoming.length := by
  obtain ⟨⟨given, pending, drawn⟩, -⟩ := gives
  have split := congrArg List.length pending
  rw [List.length_append, List.length_map] at split
  rw [Session.drawn, Session.drawn] at drawn
  rw [length_upcoming, length_upcoming]
  omega

theorem Gives.drawn_le (gives : start.Gives session) :
    session.drawn ≤ start.drawn + start.stream.tokens.length := by
  obtain ⟨⟨given, pending, drawn⟩, -⟩ := gives
  have tokens : start.stream.tokens = given ++ session.stream.tokens := by
    rw [TokenStream.tokens, pending, List.filterMap_append, List.filterMap_map]
    exact congrArg (· ++ _) List.filterMap_some
  rw [drawn, tokens, List.length_append]
  omega

/-- An attempt in vain gives out nothing. -/
theorem drawn_after_le {α : Type} {parser : Parse α} (walked : start.Walked (parser session))
    (closed : Closed (.ok start.current :: start.upcoming)) :
    (parser.after session).drawn ≤ start.drawn + start.stream.tokens.length := by
  rw [Parse.after]
  cases done : parser session with
  | ok value after =>
      rw [done] at walked
      exact (Goes.gives walked closed).drawn_le
  | error error after =>
      rw [done] at walked
      obtain goes | ⟨last, unknown, stream, goes, _, _, _, _, rfl⟩ := walked
      · exact (goes.gives closed).drawn_le
      · exact (goes.gives closed).drawn_le

/-- The end of file comes at most once. -/
theorem Draws.length_tokens_le (draws : session.Draws source) (free : session.lookahead = none) :
    session.stream.tokens.length ≤ session.stream.left + 1 := by
  obtain ⟨front, last, _, outcomes, _, inside, _⟩ := Lexer.exists_front source ""
  have suffix := draws.suffix
  rw [upcoming_of_free free, outcomes] at suffix
  rw [TokenStream.left, TokenStream.tokens]
  rcases List.suffix_concat_iff.mp suffix with none | ⟨before, pending, within⟩
  · rw [none]
    exact Nat.zero_le _
  · have all : ∀ token ∈ before.filterMap Except.toOption, token.kind ≠ .endOfFile := by
      intro token member
      obtain ⟨outcome, among, same⟩ := List.mem_filterMap.mp member
      cases outcome with
      | ok found =>
          cases same
          exact inside token (within.subset among)
      | error error => cases same
    have counted := List.countP_eq_length.mpr fun token member =>
      decide_eq_true (all token member)
    rw [pending, List.filterMap_append, List.countP_append, counted, List.length_append]
    have single : ([.ok last] : List (Except LexError Token)).filterMap Except.toOption = [last] :=
      rfl
    rw [single]
    exact Nat.add_le_add_right (Nat.le_add_right _ _) 1

end Session

/-! ## Bounds -/

namespace Parse

variable {α : Type} {size : Nat} {start : Session} {first second : Parse α}

/-- The parsers are twins wherever fewer outcomes are to come. -/
def TwinsWithin (size : Nat) (first second : Parse α) : Prop :=
  ∀ session : Session, Closed (.ok session.current :: session.upcoming) →
    session.upcoming.length < size → Twins session first second

theorem TwinsWithin.behind (within : TwinsWithin size first second)
    (closed : Closed (.ok start.current :: start.upcoming))
    (short : start.upcoming.length < size + 1) : Behind start first second := by
  intro session goes more
  have gives := goes.gives closed
  have fewer := gives.length_eq
  exact within session gives.closed (by omega)

end Parse

namespace Parser

open Session
open Parse (Twins Behind TwinsWithin)

namespace Rules

variable {size bound depth : Nat} {turns : Rule → Nat} {rules : Rules}

/-- The parser's functions with a bound, and each of its loops with a number of turns. -/
def bounded (bound : Nat) (turns : Rule → Nat) : Rules
  | .factor => Parser.factor bound
  | .products left => chain multiplying (Parser.factor bound) (turns (.products left)) left
  | .sums left => chain adding (term (Parser.factor bound) bound) (turns (.sums left)) left
  | .arguments => following (expression bound) .comma (turns .arguments)
  | .statement => Parser.statement bound
  | .statements => following (Parser.statement bound) .semicolon (turns .statements)
  | .names => following variableName .comma (turns .names)
  | .declarations => varDecls (turns .declarations)
  | .groups => following (paramGroup bound) .semicolon (turns .groups)
  | .procedures => proceduresOf (Parser.block bound) bound (turns .procedures)
  | .block => Parser.block bound

/-- With bounds that are not zero, each of them is one pass with other bounds. Either the bound is
one less, or the loop has one turn less and all that it calls is as before. -/
theorem exists_bounded (larger : size < bound) (enough : ∀ rule, size < turns rule) (rule : Rule) :
    ∃ bound' turns', size ≤ bound' ∧ (∀ rule, size ≤ turns' rule)
      ∧ bounded bound turns rule = (bounded bound' turns').unfold rule := by
  obtain ⟨less, rfl⟩ : ∃ less, bound = less + 1 :=
    Nat.exists_eq_add_one_of_ne_zero (Nat.ne_zero_of_lt larger)
  obtain ⟨fewer, same⟩ : ∃ fewer, turns rule = fewer + 1 :=
    Nat.exists_eq_add_one_of_ne_zero (Nat.ne_zero_of_lt (enough rule))
  have small : size ≤ less := Nat.le_of_lt_succ larger
  have few : size ≤ fewer := Nat.le_of_lt_succ (Nat.lt_of_lt_of_eq (enough rule) same)
  have whole : ∀ other : Rule,
      size ≤ if other.ctorIdx = rule.ctorIdx then fewer else less + 1 := by
    intro other
    split
    · exact few
    · exact Nat.le_succ_of_le small
  cases rule with
  | factor | statement | block => exact ⟨less, fun _ => less, small, fun _ => small, rfl⟩
  | declarations =>
      -- The loops in a declaration have as many turns as the bound that is handed down to it.
      refine ⟨less, fun _ => fewer, small, fun _ => few, ?_⟩
      rw [bounded, same]
      rfl
  | products left | sums left | arguments | statements | names | groups | procedures =>
      refine ⟨less + 1, _, Nat.le_succ_of_le small, whole, ?_⟩
      rw [bounded, same]
      rfl

/-- Wherever fewer outcomes are to come, the table does what the parser does with any bounds that
are not less. -/
def Agrees (size : Nat) (rules : Rules) : Prop :=
  ∀ bound turns, size ≤ bound → (∀ rule, size ≤ turns rule) →
    ∀ rule, TwinsWithin size (rules rule) (bounded bound turns rule)

theorem Agrees.unfold (agrees : rules.Agrees size) : rules.unfold.Agrees (size + 1) := by
  intro bound turns larger enough rule session closed short
  obtain ⟨bound, turns, larger, enough, same⟩ := exists_bounded larger enough rule
  rw [same]
  exact twins_unfold (fun rule => (agrees bound turns larger enough rule).behind closed short) rule

/-- With the passes the agreement grows, whatever the table was to begin with. -/
theorem agrees_iterate (bottom : Rules) (deep : size ≤ depth) :
    (Rules.unfold^[depth] bottom).Agrees size := by
  induction size generalizing depth with
  | zero => exact fun _ _ _ _ _ _ _ short => absurd short (Nat.not_lt_zero _)
  | succ size ih =>
      obtain ⟨less, rfl⟩ : ∃ less, depth = less + 1 :=
        Nat.exists_eq_add_one_of_ne_zero (Nat.ne_zero_of_lt deep)
      rw [Function.iterate_succ_apply']
      exact (ih (Nat.le_of_succ_le_succ deep)).unfold

end Rules

variable {source : String} {session first : Session} {bound depth : Nat}

theorem twins_program (bottom : Rules) (ready : first.Ready)
    (deep : first.stream.pending.length ≤ depth) (larger : first.stream.pending.length ≤ bound) :
    Twins first (programBy ((Rules.unfold^[depth] bottom) .block)) (program bound) := by
  have agrees := Rules.agrees_iterate bottom deep bound (fun _ => bound) larger
    (fun _ => larger) .block
  have short : first.upcoming.length < first.stream.pending.length + 1 := by
    rw [upcoming_of_free ready.free]
    exact Nat.lt_succ_self _
  exact (strides_programBy (agrees.behind ready.closed_upcoming short)).toTwins

theorem parse_of_consume (done : consume session = .ok () first) :
    parse session = program first.bound first :=
  Parse.bind_eq done

theorem drawn_expectEnd_le (free : session.lookahead = none) :
    (expectEnd.after session).drawn ≤ session.drawn + 1 := by
  rw [Parse.after]
  cases done : consume session with
  | error error after =>
      rw [expectEnd, Parse.bind_eq_error done]
      exact Nat.le_succ_of_le (Nat.le_of_eq (drawn_of_failed free done))
  | ok value first =>
      have once := Nat.le_of_eq (drawn_of_consume free done).1
      rw [expectEnd, Parse.bind_eq done, Parse.bind_eq (show isAt .endOfFile first = _ from rfl)]
      by_cases ended : first.current.kind = .endOfFile
      · simp only [ended, decide_true, if_true]
        exact once
      · simp only [ended, decide_false, Bool.false_eq_true, if_false]
        exact once

/-- Every call returns, whether its text is a program or not and wherever earlier calls have left
the session: with as many passes as outcomes are to come, the descent without bounds has the result
of the parser. Each pass uses its table only behind a token. Behind the first move no token is asked
for where the current one is the end of file, and so a call draws no more tokens than are left of
the text and the end of file. -/
theorem parse_returns (reaches : (Session.ofString source).Reaches session) :
    (∀ (bottom : Rules) (depth : Nat), session.bound ≤ depth →
      (Rules.unfold^[depth] bottom).parse session = parse session)
    ∧ (∀ (start : Session) (rules other : Rules),
      (∀ rule, Behind start (rules rule) (other rule)) →
        ∀ rule, Twins start (rules.unfold rule) (other.unfold rule))
    ∧ (∀ first, consume session = .ok () first → first.Walked (parse session))
    ∧ (parse.after session).drawn ≤ session.drawn + session.stream.left + 1
    ∧ (expectEnd.after session).drawn ≤ session.drawn + 1 := by
  have draws := reaches.draws
  have free := reaches.free
  have ready : ∀ first, consume session = .ok () first → first.Ready := fun first done =>
    draws.ready_of_consume free (.inl ⟨(), done⟩)
  have twins : ∀ bottom first depth, consume session = .ok () first →
      session.stream.pending.length ≤ depth →
        Twins first (programBy ((Rules.unfold^[depth] bottom) .block)) (program first.bound) :=
    fun bottom first depth done deep => twins_program bottom (ready first done)
      ((drawn_of_consume free done).2.2.trans deep) (Nat.le_add_right _ _)
  have walks : ∀ first, consume session = .ok () first → first.Walked (parse session) := by
    intro first done
    have same := twins (Rules.bounded 0 fun _ => 0) first _ done (Nat.le_refl _)
    rw [parse_of_consume done, ← same.same]
    exact same.walked
  refine ⟨?_, fun start rules other behind => Rules.twins_unfold behind, walks, ?_,
    drawn_expectEnd_le free⟩
  · intro bottom depth deep
    have enough : session.stream.pending.length ≤ depth := Nat.le_of_add_right_le deep
    cases done : consume session with
    | error error after => exact (Parse.bind_eq_error done).trans (Parse.bind_eq_error done).symm
    | ok value first =>
        rw [parse_of_consume done, ← (twins bottom first depth done enough).same]
        exact Parse.bind_eq done
  · have left := draws.length_tokens_le free
    cases done : consume session with
    | error error after =>
        have failed : parse session = .error error after := Parse.bind_eq_error done
        have same : after.drawn = session.drawn := drawn_of_failed free done
        rw [Parse.after, failed]
        exact (Nat.le_of_eq same).trans (by omega)
    | ok value first =>
        obtain ⟨once, tail, _⟩ := drawn_of_consume free done
        have drawn := drawn_after_le (walks first done) (ready first done).closed_upcoming
        rw [once, tail, List.length_tail] at drawn
        omega

/-- A text that ends inside of brackets. -/
def unclosed : String :=
  "PROGRAM a; BEGIN ; b := (1"

/-- Behind the end of this text another call is given the end of file once more and stops there. -/
theorem parse_returns_unclosed :
    let ended := parse.after (Session.ofString unclosed)
    (Session.ofString unclosed).Reaches ended ∧ ended.drawn = 10 ∧ ended.stream.left = 0
      ∧ (Rules.unfold^[2] (Rules.bounded 0 fun _ => 0)).parse ended = parse ended
      ∧ (parse.after ended).drawn ≤ ended.drawn + ended.stream.left + 1
      ∧ (parse.after ended).drawn = 11 := by
  intro ended
  have reaches : (Session.ofString unclosed).Reaches ended :=
    .parse .refl (Parse.leaves_after _ _)
  obtain ⟨returns, -, -, drawn, -⟩ := parse_returns reaches
  exact ⟨reaches, by decide +kernel, by decide +kernel, returns _ 2 (by decide +kernel), drawn,
    by decide +kernel⟩

end Parser
end MiniPascal
