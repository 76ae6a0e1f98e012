import MiniPascal.Pipeline
import MiniPascal.Proofs.Program.ParsingTaken
import MiniPascal.Proofs.Program.Rereading

/-! # Nothing behind the last dot matters

A program ends with a dot behind a word. Where its tokens end is decided in front of the dot, and
the parser stops at the dot without a look at what follows. So the text up to the dot, with anything
behind it, is the same program to all stages. -/
set_option autoImplicit false
namespace MiniPascal

namespace Parser

/-- A program that has been read leaves the session at its dot. -/
theorem current_of_parse {source : String} {program : Program} {after : Session}
    (done : parse (Session.ofString source) = .ok program after) : after.current.kind = .dot := by
  obtain ⟨_, session, _, done⟩ := Parse.bind_eq_ok done
  obtain ⟨_, _, _, done⟩ := Parse.bind_eq_ok done
  obtain ⟨_, _, _, done⟩ := Parse.bind_eq_ok done
  obtain ⟨_, _, _, done⟩ := Parse.bind_eq_ok done
  obtain ⟨_, _, _, done⟩ := Parse.bind_eq_ok done
  obtain ⟨_, between, _, done⟩ := Parse.bind_eq_ok done
  obtain ⟨found, stopped, looked, done⟩ := Parse.bind_eq_ok done
  injection looked with same stays
  subst same stays
  split at done
  · rename_i dot
    obtain ⟨_, _, fresh, done⟩ := Parse.bind_eq_ok done
    cases fresh
    obtain ⟨_, rfl⟩ := Parse.pure_eq_ok done
    exact of_decide_eq_true dot
  · exact absurd done Parse.refuse_ne_ok

end Parser

namespace Program

variable {source : String} {program : Program} {after : Session}

/-- The part of a text down to the dot of its program reads as the tokens of the program, and does
so whatever stands behind it. -/
theorem exists_used (done : Parser.parse (Session.ofString source) = .ok program after) :
    ∃ text rest used tree, source.toList = text ++ rest ∧ (∃ before, text = before ++ ['.'])
      ∧ (∀ other, Reads Position.start text used other) ∧ Grammar.Program used tree
      ∧ ∀ token ∈ used, token.Fits := by
  obtain ⟨passed, front, body, dot, others, rest, split, reads, declared, compound, dots, sound⟩ :=
    exists_derivation done
  obtain ⟨text, behind, rfl, own⟩ := reads.split
  have symbol : TokenKind.ofSymbol? '.' = some dot.kind := dots ▸ rfl
  -- The token in front of the dot is an END, so no digit behind the dot makes a real number.
  have word : ∀ before token, front ++ body = before ++ [token] → token.kind ≠ .integerConst := by
    intro before token same
    cases compound with
    | @mk first last tokens _ _ _ closes =>
        rw [← List.cons_append, ← List.append_assoc] at same
        obtain rfl : last = token := by
          injection List.append_inj_right' same rfl
        rw [closes]
        decide
  have again := fun other => own.of_symbol symbol (.inr word) other
  obtain ⟨_, before, ends, _⟩ := again []
  exact ⟨text, behind ++ rest, front ++ body ++ [dot], _, by rw [split, List.append_assoc],
    ⟨before, ends⟩, fun other => (again other).1, declared.program compound dots,
    fun token member => (sound token member).fits⟩

/-- A text that reads as a program and nothing else is parsed in the same way with anything behind
it. -/
theorem exists_parsed {text : List Char} {used : List Token} {tree : Program}
    (reads : ∀ other, Reads Position.start text used other) (derived : Grammar.Program used tree)
    (fits : ∀ token ∈ used, token.Fits) : ∃ (program : Program) (count : NodeId),
      ∀ more : String, ∃ later, Parser.parse (Session.ofString (String.ofList text ++ more))
        = .ok program later ∧ later.nextId = count := by
  have whole : (String.ofList text).toList = text ++ [] := by simp
  obtain ⟨last, kind, outcomes⟩ := Lexer.outcomes_of_reads whole (reads [])
    ⟨[], [], rfl, .blanks (by simp), .nothing⟩
  obtain ⟨program, after, parsed, _⟩ := Parser.complete_parse derived fits (by
    rw [outcomes]
    exact (List.prefix_append used [last]).map _)
  refine ⟨program, after.nextId, fun more => ?_⟩
  have split : (String.ofList text ++ more).toList = text ++ more.toList := by simp
  obtain ⟨behind, nonempty, longer⟩ := Lexer.exists_more split (reads more.toList).cuts
  obtain ⟨token, others, rfl⟩ : ∃ token others, used = token :: others := by
    cases derived with
    | mk => exact ⟨_, _, rfl⟩
  rw [List.cons_append, List.map_cons, List.map_append] at outcomes
  rw [List.map_cons, List.cons_append] at longer
  have closed : Closed (.ok token :: (others.map Except.ok ++ [.ok last])) :=
    ⟨last, by rw [← List.cons_append, List.getLast?_concat], kind⟩
  obtain ⟨start, second, pending, taken, again⟩ := Parser.taken_parse outcomes closed longer (by
    have := List.length_pos_iff.mpr nonempty
    simp only [List.length_append, List.length_map, List.length_cons, List.length_nil]
    omega)
  rw [parsed] at taken
  cases taken with
  | ok _ split ready same =>
      have open' : after.current.kind ≠ .endOfFile := by
        rw [Parser.current_of_parse parsed]
        decide
      rw [pending] at split
      obtain ⟨between, passed⟩ := ready.exists_between open' split
      refine ⟨after.awaiting (between ++ behind), ?_, rfl⟩
      rw [again, passed, List.append_assoc]
      exact same _

/-- A program that is parsed has a front of its text that ends with a dot, and with any text behind
this front the program, the count of its nodes, and the results of reading and of interpreting are
the same. -/
theorem exists_front_of_parse (done : Parser.parse (Session.ofString source) = .ok program after) :
    ∃ front : String, (∃ body, front = body ++ ".") ∧ (∃ rest, source = front ++ rest)
      ∧ ∀ text,
        (∃ later, Parser.parse (Session.ofString (front ++ text)) = .ok program later
          ∧ later.nextId = after.nextId)
        ∧ (readProgram (front ++ text)).result = (readProgram source).result
        ∧ ∀ depth,
          (interpretWithin depth (front ++ text)).result = (interpretWithin depth source).result := by
  obtain ⟨passed, rest, used, tree, split, ⟨body, ends⟩, reads, derived, fits⟩ := exists_used done
  obtain ⟨again, count, parsed⟩ := exists_parsed reads derived fits
  have whole : source = String.ofList passed ++ String.ofList rest := by
    rw [← String.ofList_append, ← split, String.ofList_toList]
  -- The text itself is one of those that begin with the front.
  obtain ⟨own, same, counted⟩ := parsed (String.ofList rest)
  rw [← whole, done] at same
  injection same with programs sessions
  subst programs sessions
  refine ⟨String.ofList passed, ⟨String.ofList body, ?_⟩, ⟨String.ofList rest, whole⟩, ?_⟩
  · rw [ends, String.ofList_append]
  · intro text
    obtain ⟨later, parsed, counted'⟩ := parsed text
    refine ⟨⟨later, parsed, counted'.trans counted.symm⟩, ?_, fun depth => ?_⟩
    · rw [result_readProgram, result_readProgram, parsed, done]
    · rw [result_interpretWithin, result_interpretWithin, parsed, done]

/-- A program with a number and a comment behind its dot. -/
def trailed : String :=
  "PROGRAM p; VAR x : INTEGER; BEGIN x := 2 + 1 END.5\x7b"

theorem exists_front_of_parse_trailed : ∃ program after,
    Parser.parse (Session.ofString trailed) = .ok program after
      ∧ ∃ front : String, (∃ body, front = body ++ ".") ∧ (∃ rest, trailed = front ++ rest)
        ∧ ∀ text, (∃ later, Parser.parse (Session.ofString (front ++ text)) = .ok program later
          ∧ later.nextId = after.nextId)
          ∧ (readProgram (front ++ text)).result = (readProgram trailed).result
          ∧ ∀ depth, (interpretWithin depth (front ++ text)).result
            = (interpretWithin depth trailed).result := by
  have accepted : (readProgram trailed).result.isOk = true := by decide +kernel
  cases parsed : Parser.parse (Session.ofString trailed) with
  | error error after =>
      rw [result_readProgram, parsed] at accepted
      cases accepted
  | ok program after => exact ⟨program, after, rfl, exists_front_of_parse parsed⟩

end Program
end MiniPascal
