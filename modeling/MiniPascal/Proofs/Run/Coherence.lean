import MiniPascal.Proofs.Run.Initialisation
import MiniPascal.Proofs.Run.Unfolding

/-! # Latest values cohere

An interpreter keeps one value for every expression, the latest one, whichever activation it comes
from. A statement evaluates all its expressions before anything else happens, and no two statements
share an expression. So behind a run that succeeds the values of a statement are those of its last
execution, all of them in one frame. -/
set_option autoImplicit false
namespace MiniPascal

/-! ## Expressions of statements -/

mutual

theorem Statement.operands_eq : ∀ statement : Statement,
    statement.operands = statement.inOrder.flatMap Statement.ownOperands
  | .compound id statements => by
    rw [Statement.operands, Statement.inOrder, List.flatMap_cons, Statement.ownOperands,
      List.nil_append, Statement.operandsOf_eq statements]
  | .assignment id target value => rfl
  | .call id name position arguments => (List.append_nil _).symm
  | .empty id => rfl

theorem Statement.operandsOf_eq : ∀ statements : List Statement,
    Statement.operandsOf statements
      = (Statement.inOrderAll statements).flatMap Statement.ownOperands
  | [] => rfl
  | statement :: rest => by
    rw [Statement.operandsOf, Statement.inOrderAll, List.flatMap_append,
      Statement.operands_eq statement, Statement.operandsOf_eq rest]

end

namespace Statement

theorem map_id_ownParts (statement : Statement) :
    statement.ownParts.map Expr.id = statement.ownOperands.flatMap Expr.ids := by
  rw [ownParts, List.map_flatMap]
  exact congrArg (List.flatMap · _) (funext Expr.map_id_parts)

end Statement

namespace Expr

theorem mem_parts_self (expr : Expr) : expr ∈ expr.parts := by
  cases expr <;> simp [parts]

/-- The parts of a part are parts. -/
theorem parts_subset (expr : Expr) {part : Expr} :
    part ∈ expr.parts → part.parts ⊆ expr.parts := by
  induction expr with
  | number id value =>
      intro member
      rw [List.mem_singleton.mp member]
      exact List.Subset.refl _
  | read source =>
      intro member
      rw [List.mem_singleton.mp member]
      exact List.Subset.refl _
  | unary id operator operand position ih =>
      intro member
      rcases List.mem_append.mp member with inside | own
      · exact List.subset_append_of_subset_left _ (ih inside)
      · rw [List.mem_singleton.mp own]
        exact List.Subset.refl _
  | binary id operator left right position first second =>
      intro member
      rcases List.mem_append.mp member with inside | own
      · refine List.subset_append_of_subset_left _ ?_
        rcases List.mem_append.mp inside with one | two
        · exact List.subset_append_of_subset_left _ (first one)
        · exact List.subset_append_of_subset_right _ (second two)
      · rw [List.mem_singleton.mp own]
        exact List.Subset.refl _

end Expr

theorem Statement.parts_subset_ownParts {statement : Statement} {part : Expr}
    (member : part ∈ statement.ownParts) : part.parts ⊆ statement.ownParts := by
  obtain ⟨operand, own, inside⟩ := List.mem_flatMap.mp member
  exact fun inner among =>
    List.mem_flatMap.mpr ⟨operand, own, operand.parts_subset inside among⟩

/-- The statements of all bodies of a program. -/
def Program.statements (program : Program) : List Statement :=
  program.scopes.flatMap fun scope => Statement.inOrderAll scope.statements

namespace Program

variable {program : Program}

/-- In a program whose nodes have numbers of their own, no two expressions of its statements share
one. -/
theorem nodup_ownParts (numbered : program.ids.Nodup) :
    (program.statements.flatMap fun statement => statement.ownParts.map Expr.id).Nodup := by
  have expressions := (List.nodup_append'.mp (program.ids_perm.nodup_iff.mp numbered)).2.1
  have same : (program.statements.flatMap fun statement => statement.ownParts.map Expr.id)
      = program.scopes.flatMap fun scope => Statement.expressionIds scope.statements := by
    simp only [Program.statements, Statement.map_id_ownParts, Statement.expressionIds,
      Statement.operandsOf_eq, List.flatMap_assoc]
  rw [same]
  exact expressions

theorem ownParts_disjoint (numbered : program.ids.Nodup) {first second : Statement}
    (one : first ∈ program.statements) (other : second ∈ program.statements)
    (different : first ≠ second) :
    List.Disjoint (first.ownParts.map Expr.id) (second.ownParts.map Expr.id) := by
  have separate := (List.nodup_flatMap.mp (nodup_ownParts numbered)).2
  have symmetric : Std.Symm (Function.onFun List.Disjoint
      fun statement : Statement => statement.ownParts.map Expr.id) :=
    ⟨fun _ _ disjoint _ one other => disjoint other one⟩
  exact separate.forall one other different

end Program

/-! ## What a run records -/

/-- Events in which every statement evaluates all its own expressions at once, with values for all
of them, and in which nothing else is evaluated. -/
inductive Recorded (program : Program) : List Event → Prop where
  | nil : Recorded program []
  | other {event : Event} {rest : List Event} :
    (∀ values, event.updateValues values = values) →
    (∀ stack statement, event ≠ .executing stack statement) → Recorded program rest →
      Recorded program (event :: rest)
  | executing {frame : Frame} {below : List Frame} {statement : Statement} {rest : List Event} :
    statement ∈ program.statements →
    (∀ part ∈ statement.ownParts, ∃ value, part.valueIn frame = .ok value) →
    Recorded program rest →
      Recorded program (.executing (frame :: below) statement
        :: (Expr.evaluations frame statement.ownParts ++ rest))

namespace Recorded

variable {program : Program} {events further : List Event}

theorem append (first : Recorded program events) :
    Recorded program further → Recorded program (events ++ further) := by
  induction first with
  | nil => exact id
  | other silent mute _ ih => exact fun second => .other silent mute (ih second)
  | executing member values _ ih =>
      intro second
      rw [List.cons_append, List.append_assoc]
      exact .executing member values (ih second)

end Recorded

theorem Runs.recorded {interpreter : Interpreter} {below : List Frame} {frame last : Frame}
    {statements : List Statement} {events : List Event} (sound : interpreter.Sound)
    (runs : Runs interpreter below frame statements events last) :
    Statement.inOrderAll statements ⊆ interpreter.program.statements →
      Recorded interpreter.program events := by
  induction runs with
  | done => exact fun _ => .nil
  | compound id _ _ inside behind =>
      intro listed
      obtain ⟨here, others⟩ := List.cons_subset.mp listed
      obtain ⟨inner, rest⟩ := List.append_subset.mp others
      exact .executing here nofun ((inside inner).append (behind rest))
  | @assignment below frame last value result rest events id target found _ ih =>
      intro listed
      obtain ⟨here, others⟩ := List.cons_subset.mp listed
      have own : (Statement.assignment id target value).ownParts = value.parts :=
        List.append_nil _
      have recorded : Recorded interpreter.program (.assigned target.name result :: events) :=
        .other (fun _ => rfl) nofun (ih others)
      rw [← own]
      exact .executing here (own ▸ value.exists_valueIn_parts found) recorded
  | @call below frame final last name arguments header procedure values rest inner events id
      position resolved given body _ inside behind =>
      intro listed
      obtain ⟨here, others⟩ := List.cons_subset.mp listed
      -- The body that is executed is that of one of the scopes.
      have indexed := sound.indexed ▸ (Interpreter.resolve_eq_ok resolved).2.1
      obtain ⟨among, _⟩ := Program.mem_allProcedures_of_index sound.accepted indexed
      obtain ⟨callee, member, _, _, statements⟩ :=
        Block.exists_scope_of_mem _ none [] [] interpreter.program.block procedure among
      have within : Statement.inOrderAll procedure.block.body.statements
          ⊆ interpreter.program.statements := by
        rw [← statements]
        exact fun inner inside => List.mem_flatMap.mpr ⟨callee, member, inside⟩
      have left : Recorded interpreter.program (.left final :: events) :=
        .other (fun _ => rfl) nofun (behind others)
      exact .executing here (Expr.exists_valueIn_flatMap given)
        (.other (fun _ => rfl) nofun ((inside within).append left))
  | empty id _ ih =>
      intro listed
      obtain ⟨here, others⟩ := List.cons_subset.mp listed
      exact .executing here nofun (ih others)

/-! ## The latest values -/

namespace Event

theorem foldl_updateValues_evaluations {frame : Frame} {id : NodeId} (parts : List Expr) :
    id ∉ parts.map Expr.id → ∀ values : Std.TreeMap NodeId Number,
      ((Expr.evaluations frame parts).foldl updateValues values)[id]? = values[id]? := by
  induction parts with
  | nil => exact fun _ _ => rfl
  | cons part rest ih =>
      intro absent values
      rw [List.map_cons, List.mem_cons, not_or] at absent
      obtain ⟨different, others⟩ := absent
      rw [Expr.evaluations]
      cases part.valueIn frame with
      | error error => rfl
      | ok value =>
          rw [List.foldl_cons, ih others, updateValues, Std.TreeMap.getElem?_insert]
          simp [Ne.symm different]

/-- Behind the evaluation of parts with numbers of their own each of them has its value. -/
theorem getElem?_foldl_evaluations {frame : Frame} (parts : List Expr) :
    (∀ part ∈ parts, ∃ value, part.valueIn frame = .ok value) → (parts.map Expr.id).Nodup →
      ∀ values : Std.TreeMap NodeId Number, ∀ part ∈ parts, ∃ value,
        part.valueIn frame = .ok value
          ∧ ((Expr.evaluations frame parts).foldl updateValues values)[part.id]? = some value := by
  induction parts with
  | nil => exact fun _ _ _ _ member => absurd member List.not_mem_nil
  | cons first rest ih =>
      intro found numbered values part member
      obtain ⟨absent, others⟩ := List.nodup_cons.mp numbered
      obtain ⟨value, here⟩ := found first List.mem_cons_self
      simp only [Expr.evaluations, here, List.foldl_cons, updateValues]
      rcases List.mem_cons.mp member with rfl | later
      · refine ⟨value, here, ?_⟩
        rw [foldl_updateValues_evaluations rest absent, Std.TreeMap.getElem?_insert_self]
      · exact ih (fun other inside => found other (List.mem_cons_of_mem first inside)) others _
          part later

end Event

/-- The statement was executed last in this frame, and nothing has changed its values since. -/
def Event.LastIn (events : List Event) (statement : Statement) (frame : Frame) : Prop :=
  ∃ earlier below later, events = earlier ++ .executing (frame :: below) statement
      :: (Expr.evaluations frame statement.ownParts ++ later)
    ∧ ∀ stack, .executing stack statement ∉ later

theorem Event.LastIn.append {events : List Event} {statement : Statement} {frame : Frame}
    (last : LastIn events statement frame) (before : List Event) :
    LastIn (before ++ events) statement frame := by
  obtain ⟨earlier, below, later, rfl, final⟩ := last
  exact ⟨before ++ earlier, below, later, (List.append_assoc _ _ _).symm, final⟩

/-- Either a statement is executed and its values are those of its last execution, or it is not and
they stay what they were. -/
theorem Recorded.values {program : Program} {events : List Event}
    (numbered : program.ids.Nodup) {statement : Statement}
    (listed : statement ∈ program.statements) (recorded : Recorded program events) :
    ∀ values : Std.TreeMap NodeId Number,
      (∃ frame, Event.LastIn events statement frame
          ∧ ∀ part ∈ statement.ownParts, ∃ value, part.valueIn frame = .ok value
            ∧ (events.foldl Event.updateValues values)[part.id]? = some value)
        ∨ (∀ stack, .executing stack statement ∉ events)
          ∧ ∀ part ∈ statement.ownParts,
            (events.foldl Event.updateValues values)[part.id]? = values[part.id]? := by
  induction recorded with
  | nil => exact fun _ => .inr ⟨fun _ => List.not_mem_nil, fun _ _ => rfl⟩
  | @other event rest silent mute _ ih =>
      intro values
      rw [List.foldl_cons, silent]
      rcases ih values with ⟨frame, last, cached⟩ | ⟨absent, same⟩
      · exact .inl ⟨frame, last.append [event], cached⟩
      · refine .inr ⟨fun stack member => ?_, same⟩
        rcases List.mem_cons.mp member with rfl | later
        · exact mute _ _ rfl
        · exact absent stack later
  | @executing frame below other rest member found _ ih =>
      intro values
      rw [List.foldl_cons, List.foldl_append]
      rcases ih _ with ⟨frame', last, cached⟩ | ⟨absent, same⟩
      · exact .inl ⟨frame', last.append (_ :: _), cached⟩
      · by_cases own : other = statement
        · subst own
          have distinct := (List.nodup_flatMap.mp (Program.nodup_ownParts numbered)).1 _ listed
          refine .inl ⟨frame, ⟨[], below, rest, rfl, absent⟩, fun part inside => ?_⟩
          rw [same part inside]
          exact Event.getElem?_foldl_evaluations _ found distinct _ part inside
        · have apart := Program.ownParts_disjoint numbered member listed own
          refine .inr ⟨fun stack inside => ?_, fun part inside => ?_⟩
          · rcases List.mem_cons.mp inside with same | later
            · injection same with _ equal
              exact own equal.symm
            · rcases List.mem_append.mp later with evaluated | further
              · obtain ⟨_, _, impossible⟩ := Expr.evaluated_of_mem _ evaluated
                cases impossible
              · exact absent stack further
          · rw [same part inside]
            refine Event.foldl_updateValues_evaluations _ (fun shared => ?_) _
            exact apart shared (List.mem_map_of_mem inside)

/-- The value of a node fits the values that its operands have, and a constant has its own. -/
def Expr.Coheres (values : Std.TreeMap NodeId Number) : Expr → Number → Prop
  | .number _ constant, value => value = constant
  | .read _, _ => True
  | .unary _ operator operand _, value => ∃ inner, values[operand.id]? = some inner
    ∧ operator.apply inner = .ok value
  | .binary _ operator left right _, value => ∃ first second, values[left.id]? = some first
    ∧ values[right.id]? = some second ∧ operator.apply first second = .ok value

/-- Values that all parts of a node have in one frame fit together. -/
theorem Expr.coheres_of_values {values : Std.TreeMap NodeId Number} {frame : Frame} (expr : Expr)
    (cached : ∀ part ∈ expr.parts, ∃ value, part.valueIn frame = .ok value
      ∧ values[part.id]? = some value) {value : Number}
    (found : expr.valueIn frame = .ok value) : expr.Coheres values value := by
  -- The cached value of an operand is the one that the operator was applied to.
  have latest : ∀ {part : Expr} {inner : Number}, part ∈ expr.parts →
      part.valueIn frame = .ok inner → values[part.id]? = some inner := by
    intro part inner member here
    obtain ⟨other, there, kept⟩ := cached part member
    rwa [← Except.ok.inj (there.symm.trans here)]
  cases expr with
  | number id constant => exact (Except.ok.inj found).symm
  | read source => trivial
  | unary id operator operand position =>
      obtain ⟨inner, under, applied⟩ := valueIn_unary_iff.mp found
      exact ⟨inner, latest (List.mem_append_left _ operand.mem_parts_self) under, applied⟩
  | binary id operator left right position =>
      obtain ⟨first, second, before, after, applied⟩ := valueIn_binary_iff.mp found
      have operands : left ∈ left.parts ++ right.parts ∧ right ∈ left.parts ++ right.parts :=
        ⟨List.mem_append_left _ left.mem_parts_self, List.mem_append_right _ right.mem_parts_self⟩
      exact ⟨first, second, latest (List.mem_append_left _ operands.1) before,
        latest (List.mem_append_left _ operands.2) after, applied⟩

namespace Interpreter

/-- Behind a run that succeeds the latest values cohere. A statement that was executed has values
for everything that it evaluates, all of them from its last execution, and one that was not has
none. So every node with a value has operands with values, and its own is what its operator makes of
them; a constant's value is the constant. -/
theorem run_coherent {program : Program} {tree : ScopeTree} {session after : Session}
    (parsed : Parser.parse session = .ok program after) (accepted : program.analyse = .ok tree)
    {interpreter : Interpreter} (started : Started program tree interpreter) {depth : Nat}
    {outcome : Outcome} (succeeds : (interpreter.run depth).1 = .ok outcome) :
    (∀ scope ∈ program.scopes, ∀ expr ∈ (Statement.operandsOf scope.statements).flatMap Expr.parts,
        ∀ value, outcome.values[expr.id]? = some value → expr.Coheres outcome.values value)
      ∧ ∀ scope ∈ program.scopes, ∀ statement ∈ Statement.inOrderAll scope.statements,
        (∃ frame, Event.LastIn (interpreter.run depth).2.machine.history statement frame
            ∧ ∀ expr ∈ statement.ownParts, ∃ value, expr.valueIn frame = .ok value
              ∧ outcome.values[expr.id]? = some value)
          ∨ (∀ stack, .executing stack statement ∉ (interpreter.run depth).2.machine.history)
            ∧ ∀ expr ∈ statement.ownParts, outcome.values[expr.id]? = none := by
  rw [started.run_eq depth] at succeeds ⊢
  obtain ⟨inner, final, reached, runs, rfl, happened, rfl⟩ := run_eq_ok succeeds
  have numbered := Parser.nodup_ids_of_parse parsed
  have body : Statement.inOrderAll program.block.body.statements ⊆ program.statements := by
    obtain ⟨own, listed, _, statements⟩ := program.exists_own_scope
    rw [← statements]
    exact fun inner inside => List.mem_flatMap.mpr ⟨own, listed, inside⟩
  have recorded : Recorded program ((ofProgram program tree).run depth).2.machine.history := by
    rw [happened]
    have within := runs.recorded (Started.new.sound accepted).1 body
    exact .other (fun _ => rfl) nofun (.other (fun _ => rfl) nofun
      (within.append (.other (fun _ => rfl) nofun .nil)))
  have latest : ∀ scope ∈ program.scopes, ∀ statement ∈ Statement.inOrderAll scope.statements, _ :=
    fun scope member statement inside =>
      recorded.values numbered (List.mem_flatMap.mpr ⟨scope, member, inside⟩) ∅
  refine ⟨?_, fun scope member statement inside => ?_⟩
  · intro scope member expr evaluated value cached
    rw [Statement.operandsOf_eq, List.flatMap_assoc] at evaluated
    obtain ⟨statement, inside, own⟩ := List.mem_flatMap.mp evaluated
    rcases latest scope member statement inside with ⟨frame, _, found⟩ | ⟨_, none⟩
    · obtain ⟨other, here, kept⟩ := found expr own
      obtain rfl : other = value := Option.some.inj (kept.symm.trans cached)
      exact expr.coheres_of_values
        (fun part among => found part (Statement.parts_subset_ownParts own among)) here
    · have absent := cached.symm.trans (none expr own)
      rw [Std.TreeMap.getElem?_emptyc] at absent
      cases absent
  · rcases latest scope member statement inside with executed | ⟨absent, none⟩
    · exact .inl executed
    · exact .inr ⟨absent, fun expr own => (none expr own).trans Std.TreeMap.getElem?_emptyc⟩

/-- A text in which the same expression is evaluated twice. -/
def twice : String :=
  "PROGRAM p; VAR a: INTEGER; PROCEDURE q(n: INTEGER); VAR r: INTEGER; BEGIN r := -n + 1 END; "
    ++ "BEGIN q(2); q(5); a := 7 END."

theorem run_coherent_twice : ∃ program session tree outcome,
    Parser.parse (Session.ofString twice) = .ok program session
      ∧ program.analyse = .ok tree ∧ ((ofProgram program tree).run 1).1 = .ok outcome
      ∧ outcome.values[11]? = some (.integer (-5))
      ∧ ∀ scope ∈ program.scopes,
        ∀ expr ∈ (Statement.operandsOf scope.statements).flatMap Expr.parts,
          ∀ value, outcome.values[expr.id]? = some value → expr.Coheres outcome.values value := by
  have latest : ((Parser.parse.run' (Session.ofString twice)).bind fun program =>
      program.analyse.toOption.bind fun tree =>
        ((ofProgram program tree).run 1).1.toOption.bind fun outcome => outcome.values[11]?)
      = some (.integer (-5)) := by decide +kernel
  delta EStateM.run' EStateM.run at latest
  cases parsed : Parser.parse (Session.ofString twice) with
  | error error session =>
      rw [parsed] at latest
      cases latest
  | ok program session =>
      rw [parsed, Option.bind_some] at latest
      cases accepted : program.analyse with
      | error diagnoses =>
          rw [accepted] at latest
          cases latest
      | ok tree =>
          rw [accepted, Except.toOption, Option.bind_some] at latest
          cases succeeds : ((ofProgram program tree).run 1).1 with
          | error halt =>
              rw [succeeds] at latest
              cases latest
          | ok outcome =>
              rw [succeeds, Except.toOption, Option.bind_some] at latest
              exact ⟨program, session, tree, outcome, rfl, accepted, succeeds, latest,
                (run_coherent parsed accepted .new succeeds).1⟩

end Interpreter
end MiniPascal
