import MiniPascal.Proofs.Run.Unfolding

/-! # Runs come to an end where calls do

Whatever a run has done, the scopes on its stack are a chain of calls. Where no scope that is reached
calls itself, not even through others, no scope is on the stack twice, so there are never more frames
than scopes. A run that may nest calls as deeply as there are procedures is then not stopped for it,
since one more callee would make the chain too long. -/
set_option autoImplicit false
namespace MiniPascal

open Relation

namespace Event

/-- What an event does to the scopes on the stack, the innermost first. -/
def restack (scopes : List String) : Event → List String
  | .entered frame _ => frame.scope :: scopes
  | .left _ => scopes.tail
  | _ => scopes

/-- The scopes on the stack behind the events of a run. -/
def stacked (events : List Event) : List String :=
  events.foldl restack []

/-- What an event says about the stack is what is on it. -/
def Sees (scopes : List String) : Event → Prop
  | .executing stack _ => stack.map Frame.scope = scopes
  | .entered _ depth => depth = scopes.length + 1
  | .left frame => scopes.head? = some frame.scope
  | _ => True

theorem stacked_concat (events : List Event) (event : Event) :
    stacked (events ++ [event]) = event.restack (stacked events) :=
  List.foldl_append

end Event

/-! ## Chains -/

namespace Program

variable {program : Program} {tree : ScopeTree}

theorem chain_nil (program : Program) (tree : ScopeTree) : program.Chain tree [] :=
  ⟨.nil, by simp⟩

theorem Chain.tail {stack : List String} (chain : program.Chain tree stack) :
    program.Chain tree stack.tail :=
  ⟨chain.ordered.sublist (List.tail_sublist stack), fun scope member =>
    chain.reached scope (List.mem_of_mem_tail member)⟩

/-- What a call finds in the tree of an analysed program is one of its procedures. -/
theorem exists_procedure_of_find (accepted : program.analyse = .ok tree) {scope name : String}
    {header : ProcedureHeader} (found : tree.findProcedure? scope name = some header) :
    ∃ procedure ∈ program.block.allProcedures, procedure.header = header := by
  obtain ⟨place, _, here⟩ := List.exists_of_findSome?_eq_some found
  split at here
  · rename_i table known
    have held := (holds_of_analyse accepted).tables place table known
    exact program.exists_procedure ((held.procedure?_eq_some_iff name header).mp here)
  · cases here

theorem mem_names_of_calls (accepted : program.analyse = .ok tree) {caller callee : String}
    (calls : program.Calls tree caller callee) :
    callee ∈ program.block.allProcedures.map Procedure.name := by
  obtain ⟨call, _, found⟩ := List.mem_filterMap.mp calls
  obtain ⟨header, resolved, rfl⟩ := Option.map_eq_some_iff.mp found
  obtain ⟨procedure, among, rfl⟩ := exists_procedure_of_find accepted resolved
  exact List.mem_map_of_mem among

/-- Without cycles a chain has at most one element for each procedure, and the program. -/
theorem Chain.length_le {stack : List String} (chain : program.Chain tree stack)
    (accepted : program.analyse = .ok tree)
    (acyclic : ∀ name, ReflTransGen (program.Calls tree) program.name name →
      ¬ TransGen (program.Calls tree) name name) :
    stack.length ≤ 1 + program.block.allProcedures.length := by
  have listed : stack ⊆ program.name :: program.block.allProcedures.map Procedure.name := by
    intro scope member
    rcases (chain.reached scope member).cases_tail with same | ⟨caller, _, calls⟩
    · exact same ▸ List.mem_cons_self
    · exact List.mem_cons_of_mem _ (mem_names_of_calls accepted calls)
  have short := (List.subperm_of_subset (chain.nodup acyclic) listed).length_le
  rwa [List.length_cons, List.length_map, Nat.add_comm] at short

end Program

/-! ## Machines -/

namespace Machine

variable {program : Program} {tree : ScopeTree} {scope : String} {below : List Frame}
  {machine : Machine}

/-- At every point of what has happened the scopes on the stack were a chain, and the events told of
them as they were. -/
structure Chained (program : Program) (tree : ScopeTree) (machine : Machine) : Prop where
  stack : Event.stacked machine.history = machine.stack.map Frame.scope
  points : ∀ earlier later, machine.history = earlier ++ later →
    program.Chain tree (Event.stacked earlier)
      ∧ ∀ event rest, later = event :: rest → event.Sees (Event.stacked earlier)

/-- A machine that has done so, with a frame of the given scope on top of the given frames. -/
structure Inside (program : Program) (tree : ScopeTree) (scope : String) (below : List Frame)
    (machine : Machine) : Prop extends machine.Chained program tree where
  innermost : ∃ frame, machine.stack = frame :: below ∧ frame.scope = scope

theorem Chained.chain (chained : machine.Chained program tree) :
    program.Chain tree (machine.stack.map Frame.scope) := by
  rw [← chained.stack]
  exact (chained.points machine.history [] (List.append_nil _).symm).1

/-- One more event, with the stack that it leads to. -/
theorem Chained.step (chained : machine.Chained program tree) {event : Event} {stack : List Frame}
    (sees : event.Sees (machine.stack.map Frame.scope))
    (leads : event.restack (machine.stack.map Frame.scope) = stack.map Frame.scope)
    (chain : program.Chain tree (stack.map Frame.scope)) :
    Chained program tree { machine.note event with stack := stack } := by
  have happened : Machine.history { machine.note event with stack := stack }
      = machine.history ++ [event] := machine.history_note event
  have reached : Event.stacked (machine.history ++ [event]) = stack.map Frame.scope := by
    rw [Event.stacked_concat, chained.stack, leads]
  refine ⟨by rw [happened, reached], fun earlier later split => ?_⟩
  rw [happened] at split
  rcases List.eq_nil_or_concat' later with rfl | ⟨before, last, rfl⟩
  · rw [List.append_nil] at split
    rw [← split, reached]
    exact ⟨chain, fun _ _ impossible => by cases impossible⟩
  · rw [← List.append_assoc] at split
    obtain ⟨same, ends⟩ := List.append_inj' split rfl
    cases ends
    obtain ⟨known, seen⟩ := chained.points earlier before same
    refine ⟨known, fun next rest begins => ?_⟩
    cases before with
    | nil =>
        cases begins
        rw [List.append_nil] at same
        rw [← same, chained.stack]
        exact sees
    | cons first others =>
        cases begins
        exact seen next others rfl

/-- An event that is not about the stack. -/
theorem Chained.note (chained : machine.Chained program tree) {event : Event}
    (sees : event.Sees (machine.stack.map Frame.scope))
    (stays : event.restack (machine.stack.map Frame.scope) = machine.stack.map Frame.scope) :
    (machine.note event).Chained program tree :=
  chained.step sees stays chained.chain

theorem Chained.noteAll {events : List Event} (chained : machine.Chained program tree)
    (values : ∀ event ∈ events, ∃ id value, event = .evaluated id value) :
    (machine.noteAll events).Chained program tree := by
  induction events generalizing machine with
  | nil => exact chained
  | cons event rest ih =>
      obtain ⟨⟨id, value, rfl⟩, others⟩ := List.forall_mem_cons.mp values
      have noted : (machine.note (.evaluated id value)).Chained program tree :=
        chained.note trivial rfl
      simpa [Machine.noteAll, Machine.note] using ih noted others

theorem Inside.evaluations (inside : machine.Inside program tree scope below) (frame : Frame)
    (parts : List Expr) :
    (machine.noteAll (Expr.evaluations frame parts)).Inside program tree scope below :=
  ⟨inside.noteAll fun _ member => Expr.evaluated_of_mem parts member, inside.innermost⟩

/-- A callee's frame makes the chain longer. -/
theorem Chained.push (chained : machine.Chained program tree) {frame : Frame}
    (chain : program.Chain tree (frame.scope :: machine.stack.map Frame.scope)) :
    (machine.push frame).Inside program tree frame.scope machine.stack := by
  refine ⟨chained.step ?_ rfl chain, frame, rfl, rfl⟩
  simp [Event.Sees]

theorem Inside.pop (inside : machine.Inside program tree scope below) :
    machine.pop.2.Chained program tree ∧ machine.pop.2.stack = below := by
  obtain ⟨frame, stack, same⟩ := inside.innermost
  have chain : program.Chain tree (below.map Frame.scope) := by
    have whole := inside.chain.tail
    rwa [stack, List.map_cons, List.tail_cons] at whole
  have popped : machine.pop.2 = { machine.note (.left frame) with stack := below } := by
    simp [Machine.pop, stack]
  rw [popped]
  refine ⟨inside.step ?_ ?_ chain, rfl⟩ <;> rw [stack] <;> rfl

end Machine

/-! ## Computations -/

namespace Execute

variable {α β : Type} {program : Program} {tree : ScopeTree} {scope : String} {below : List Frame}
  {enough : Prop}

/-- The computation stays inside of its scope, and is not stopped for depth if there is enough. -/
def Stays (program : Program) (tree : ScopeTree) (scope : String) (below : List Frame)
    (enough : Prop) (body : Execute α) : Prop :=
  ∀ machine : Machine, machine.Inside program tree scope below →
    match body machine with
    | .ok _ reached => reached.Inside program tree scope below
    | .error halt reached => reached.Inside program tree scope below
      ∧ (enough → halt ≠ .depthExceeded)

namespace Stays

theorem pure (value : α) : Stays program tree scope below enough (Pure.pure value) :=
  fun _ inside => inside

theorem bind {body : Execute α} {further : α → Execute β}
    (first : Stays program tree scope below enough body)
    (second : ∀ value, Stays program tree scope below enough (further value)) :
    Stays program tree scope below enough (body >>= further) := by
  intro machine inside
  have done := first machine inside
  simp only [Bind.bind, EStateM.bind]
  cases result : body machine with
  | ok value reached =>
      rw [result] at done
      exact second value reached done
  | error halt reached =>
      rw [result] at done
      exact done

/-- A fault is not a matter of depth. -/
theorem of_settled {machine : Machine} (inside : machine.Inside program tree scope below)
    (result : Except RuntimeError α) :
    match settled machine result with
    | .ok _ reached => reached.Inside program tree scope below
    | .error halt reached => reached.Inside program tree scope below
      ∧ (enough → halt ≠ .depthExceeded) := by
  cases result with
  | ok value => exact inside
  | error error => exact ⟨inside, fun _ impossible => by cases impossible⟩

theorem noteStatement (statement : Statement) :
    Stays program tree scope below enough (Execute.noteStatement statement) :=
  fun _ inside => ⟨inside.note rfl rfl, inside.innermost⟩

theorem evaluate (expr : Expr) : Stays program tree scope below enough expr.evaluate := by
  intro machine inside
  obtain ⟨frame, stack, _⟩ := inside.innermost
  rw [expr.evaluate_eq stack]
  exact of_settled (inside.evaluations frame expr.parts) _

/-- Setting a variable, with the note of it, does not touch the scopes. -/
theorem assign (name : String) (value : Number) :
    Stays program tree scope below enough (do
      Execute.note (.assigned name value)
      Execute.assign name value) := by
  intro machine inside
  obtain ⟨frame, stack, same⟩ := inside.innermost
  have noted : (machine.note (.assigned name value)).Chained program tree :=
    inside.note trivial rfl
  simp only [Bind.bind, EStateM.bind, Execute.note, Execute.assign, Machine.stack_note, stack]
  refine ⟨⟨noted.stack.trans ?_, noted.points⟩, frame.set name value, rfl, same⟩
  rw [Machine.stack_note, stack]
  rfl

/-- A body in the frame of its own scope, put on a chain. -/
theorem framed {machine : Machine} {frame : Frame} {body : Execute Unit}
    (chained : machine.Chained program tree)
    (chain : program.Chain tree (frame.scope :: machine.stack.map Frame.scope))
    (stays : Stays program tree frame.scope machine.stack enough body) :
    match Execute.framed frame body machine with
    | .ok _ reached => reached.Chained program tree ∧ reached.stack = machine.stack
    | .error halt reached => (reached.Chained program tree ∧ reached.stack = machine.stack)
      ∧ (enough → halt ≠ .depthExceeded) := by
  have done := stays (machine.push frame) (chained.push chain)
  simp only [Execute.framed]
  cases result : body (machine.push frame) with
  | ok value reached =>
      rw [result] at done
      exact done.pop
  | error halt reached =>
      rw [result] at done
      exact ⟨done.1.pop, done.2⟩

end Stays
end Execute

section Statements

variable {program : Program} {tree : ScopeTree} {scope : String} {below : List Frame}
  {enough : Prop} {call : String → List Expr → Execute Unit}

/-- The rule for calls that statements are to be executed with. -/
def Execute.CallsStay (program : Program) (tree : ScopeTree) (scope : String)
    (below : List Frame) (enough : Prop) (call : String → List Expr → Execute Unit) : Prop :=
  ∀ name arguments, (∀ header, tree.findProcedure? scope name = some header →
      program.Calls tree scope header.name) →
    Execute.Stays program tree scope below enough (call name arguments)

theorem ScopeTree.callees_cons (tree : ScopeTree) (scope : String) (statement : Statement)
    (rest : List Statement) :
    tree.callees scope (statement :: rest)
      = tree.callees scope [statement] ++ tree.callees scope rest := by
  simp [ScopeTree.callees, Statement.callsOf]

open Execute

mutual

theorem Statement.stays (calls : CallsStay program tree scope below enough call) :
    ∀ statement : Statement,
      (∀ callee ∈ tree.callees scope [statement], program.Calls tree scope callee) →
      Stays program tree scope below enough (statement.execute call)
  | .compound id statements, called => by
    rw [ScopeTree.callees_compound] at called
    rw [Statement.execute]
    refine .bind (.noteStatement _) fun _ => Statement.stays_all calls statements ?_
    exact fun callee among => called callee (List.mem_append_left _ among)
  | .assignment id target value, _ => by
    rw [Statement.execute]
    exact .bind (.noteStatement _) fun _ => .bind (.evaluate value) fun result => .assign _ result
  | .call id name position arguments, called => by
    rw [Statement.execute]
    refine .bind (.noteStatement _) fun _ => calls name arguments fun header found => ?_
    rw [ScopeTree.callees_call found] at called
    exact called header.name List.mem_cons_self
  | .empty id, _ => by
    rw [Statement.execute]
    exact .noteStatement _

theorem Statement.stays_all (calls : CallsStay program tree scope below enough call) :
    ∀ statements : List Statement,
      (∀ callee ∈ tree.callees scope statements, program.Calls tree scope callee) →
      Stays program tree scope below enough (Statement.executeAll call statements)
  | [], _ => by
    rw [Statement.executeAll]
    exact .pure ()
  | statement :: rest, called => by
    rw [ScopeTree.callees_cons] at called
    rw [Statement.executeAll]
    refine .bind (Statement.stays calls statement ?_) fun _ => Statement.stays_all calls rest ?_
    · exact fun callee among => called callee (List.mem_append_left _ among)
    · exact fun callee among => called callee (List.mem_append_right _ among)

end

end Statements

namespace Interpreter

open Execute

variable {interpreter : Interpreter} {scope : String} {below : List Frame}

/-- The rule for bodies that are invoked with some depth of calls left. -/
def InvokesStay (interpreter : Interpreter) (depth : Nat)
    (invoked : Procedure → Frame → Execute Unit) : Prop :=
  ∀ scope below name count header procedure values,
    interpreter.resolve scope name count = .ok (header, procedure) →
    interpreter.program.Calls interpreter.scopes scope header.name →
      Stays interpreter.program interpreter.scopes scope below
        (interpreter.program.block.allProcedures.length ≤ below.length + depth)
        (invoked procedure (callFrame header values))

theorem stays_call {depth : Nat} {invoked : Procedure → Frame → Execute Unit}
    (invokes : interpreter.InvokesStay depth invoked) (scope : String) (below : List Frame) :
    CallsStay interpreter.program interpreter.scopes scope below
      (interpreter.program.block.allProcedures.length ≤ below.length + depth)
      (interpreter.call invoked) := by
  intro name arguments called machine inside
  obtain ⟨frame, stack, same⟩ := inside.innermost
  rw [call_eq stack, same]
  cases resolved : interpreter.resolve scope name arguments.length with
  | error reason => exact ⟨inside, fun _ impossible => by cases impossible⟩
  | ok found =>
      obtain ⟨header, procedure⟩ := found
      have evaluated := inside.evaluations frame (arguments.flatMap Expr.parts)
      simp only
      cases Expr.valuesIn frame arguments with
      | error error => exact ⟨evaluated, fun _ impossible => by cases impossible⟩
      | ok values =>
          have calls := called header (resolve_eq_ok resolved).1
          exact invokes scope below name _ header procedure values resolved calls _ evaluated

/-- Invoking a procedure puts its scope on the chain. If there is no depth left for it then the
chain is as long as there are scopes, and no other scope can be on it. -/
theorem stays_invoke (finds : interpreter.FindsBodies)
    (bounded : ∀ stack, interpreter.program.Chain interpreter.scopes stack →
      stack.length ≤ 1 + interpreter.program.block.allProcedures.length) :
    ∀ depth : Nat, interpreter.InvokesStay depth (interpreter.invoke depth) := by
  intro depth
  induction depth with
  | zero =>
      intro scope below name count header procedure values _ calls machine inside
      refine ⟨inside, fun enough _ => ?_⟩
      obtain ⟨frame, stack, rfl⟩ := inside.innermost
      have chain := inside.chain
      rw [stack, List.map_cons] at chain
      have short := bounded _ (chain.push calls)
      simp only [List.length_cons, List.length_map] at short
      omega
  | succ depth ih =>
      intro scope below name count header procedure values resolved calls machine inside
      obtain ⟨frame, stack, rfl⟩ := inside.innermost
      have chain := inside.chain
      rw [stack, List.map_cons] at chain
      have pushed := chain.push calls
      rw [← List.map_cons, ← stack, ← scope_callFrame header values] at pushed
      have body : Stays interpreter.program interpreter.scopes (callFrame header values).scope
          machine.stack (interpreter.program.block.allProcedures.length
            ≤ machine.stack.length + depth)
          (Statement.executeAll (interpreter.call (interpreter.invoke depth))
            procedure.block.body.statements) := by
        refine Statement.stays_all (stays_call ih _ _) _ ?_
        rw [scope_callFrame, ← finds _ _ _ _ _ resolved]
        exact fun callee among => among
      have framed := Stays.framed inside.toChained pushed body
      have enough : machine.stack.length + depth = below.length + (depth + 1) := by
        rw [stack, List.length_cons]
        omega
      rw [enough] at framed
      simp only [Interpreter.invoke, Bind.bind, EStateM.bind]
      cases result : Execute.framed (callFrame header values) (Statement.executeAll
          (interpreter.call (interpreter.invoke depth)) procedure.block.body.statements) machine with
      | ok last reached =>
          rw [result] at framed
          exact ⟨framed.1, frame, framed.2.trans stack, rfl⟩
      | error halt reached =>
          rw [result] at framed
          exact ⟨⟨framed.1.1, frame, framed.1.2.trans stack, rfl⟩, framed.2⟩

/-- The program's own frame begins the chain. -/
theorem executeProgram_chained {program : Program} {tree : ScopeTree}
    (accepted : program.analyse = .ok tree)
    (bounded : ∀ stack, program.Chain tree stack →
      stack.length ≤ 1 + program.block.allProcedures.length) (depth : Nat) :
    match (ofProgram program tree).executeProgram depth
        ⟨(ofProgram program tree).machine.stack,
          [.started (ofProgram program tree).program.name]⟩ with
    | .ok _ reached => reached.Chained program tree ∧ reached.stack = []
    | .error halt reached => (reached.Chained program tree ∧ reached.stack = [])
      ∧ (program.block.allProcedures.length ≤ depth → halt ≠ .depthExceeded) := by
  have own : program.statementsOf program.name = program.block.body.statements := by
    obtain ⟨scope, listed, named, statements⟩ := program.exists_own_scope
    have distinct := (program.exists_analyse_iff.mp ⟨tree, accepted⟩).1.scopeNames
    rw [← named, Program.statementsOf_eq distinct listed, statements]
  have idle : Machine.Chained program tree Machine.idle := by
    refine ⟨rfl, fun earlier later split => ?_⟩
    obtain ⟨rfl, rfl⟩ := List.append_eq_nil_iff.mp split.symm
    exact ⟨program.chain_nil tree, fun _ _ impossible => by cases impossible⟩
  have begun : (Machine.idle.note (.started program.name)).Chained program tree :=
    idle.note trivial rfl
  have body : Stays program tree (Frame.ofScope program.name).scope []
      (program.block.allProcedures.length ≤ ([] : List Frame).length + depth)
      (Statement.executeAll
        ((ofProgram program tree).call ((ofProgram program tree).invoke depth))
        program.block.body.statements) := by
    have invokes := stays_invoke (findsBodies_of_analyse accepted) bounded depth
    refine Statement.stays_all (stays_call invokes _ []) _ ?_
    rw [← own]
    exact fun callee among => among
  have framed := Stays.framed begun (program.chain_own tree) body
  rw [List.length_nil, Nat.zero_add] at framed
  exact framed

/-- Whatever depth is allowed for, the scopes on the stack are a chain at every point of a run; and
a run that may nest calls as deeply as there are procedures is not stopped for depth. -/
theorem run_chained {program : Program} {tree : ScopeTree} (accepted : program.analyse = .ok tree)
    (bounded : ∀ stack, program.Chain tree stack →
      stack.length ≤ 1 + program.block.allProcedures.length) (depth : Nat) :
    ((ofProgram program tree).run depth).2.machine.Chained program tree
      ∧ (program.block.allProcedures.length ≤ depth →
        ((ofProgram program tree).run depth).1 ≠ .error .depthExceeded) := by
  have chained := executeProgram_chained accepted bounded depth
  rw [run]
  cases result : (ofProgram program tree).executeProgram depth
      ⟨(ofProgram program tree).machine.stack,
        [.started (ofProgram program tree).program.name]⟩ with
  | ok last reached =>
      rw [result] at chained
      cases last with
      | none => exact ⟨chained.1, fun _ impossible => by cases impossible⟩
      | some frame => exact ⟨chained.1, fun _ impossible => by cases impossible⟩
  | error halt reached =>
      rw [result] at chained
      refine ⟨chained.1.1, fun enough impossible => ?_⟩
      cases impossible
      exact chained.2 enough rfl

/-- Where no scope that the program reaches by calls comes back to itself, a run ends, with a result
or with a fault: it needs no more depth than there are procedures, and comes to the same at every
greater one. At every point of a run no scope is on the stack twice, so there are at most as many
frames as there are procedures and the program. -/
theorem run_ends {program : Program} {tree : ScopeTree} (accepted : program.analyse = .ok tree)
    (acyclic : ∀ name, ReflTransGen (program.Calls tree) program.name name →
      ¬ TransGen (program.Calls tree) name name)
    {interpreter : Interpreter} (started : Started program tree interpreter) :
    (∀ depth, program.block.allProcedures.length ≤ depth →
        ((∃ outcome, (interpreter.run depth).1 = .ok outcome)
          ∨ ∃ error, (interpreter.run depth).1 = .error (.fault error))
        ∧ interpreter.run depth = interpreter.run program.block.allProcedures.length)
      ∧ ∀ depth earlier later, (interpreter.run depth).2.machine.history = earlier ++ later →
        (Event.stacked earlier).Nodup
          ∧ (Event.stacked earlier).length ≤ 1 + program.block.allProcedures.length
          ∧ ∀ event rest, later = event :: rest → event.Sees (Event.stacked earlier) := by
  have bounded : ∀ stack, program.Chain tree stack →
      stack.length ≤ 1 + program.block.allProcedures.length :=
    fun stack chain => chain.length_le accepted acyclic
  have returns : ∀ depth, program.block.allProcedures.length ≤ depth →
      (interpreter.run depth).1 ≠ .error .depthExceeded := by
    intro depth enough
    rw [started.run_eq depth]
    exact (run_chained accepted bounded depth).2 enough
  constructor
  · intro depth enough
    refine ⟨?_, interpreter.run_deeper enough (returns _ (Nat.le_refl _))⟩
    have ended := returns depth enough
    cases result : (interpreter.run depth).1 with
    | ok outcome => exact .inl ⟨outcome, rfl⟩
    | error halt =>
        cases halt with
        | fault error => exact .inr ⟨error, rfl⟩
        | depthExceeded => exact absurd result ended
  · intro depth earlier later split
    rw [started.run_eq depth] at split
    obtain ⟨chain, sees⟩ := (run_chained accepted bounded depth).1.points earlier later split
    exact ⟨chain.nodup acyclic, bounded _ chain, sees⟩

theorem run_ends_stairs : ∃ tree, stairs.analyse = .ok tree
    ∧ (∀ depth, 3 ≤ depth →
      (ofProgram stairs tree).run depth = (ofProgram stairs tree).run 3)
    ∧ ∀ depth earlier later,
      ((ofProgram stairs tree).run depth).2.machine.history = earlier ++ later →
        (Event.stacked earlier).length ≤ 4 := by
  let tree := (Analysis.run stairs).scopes
  have leaf : Unfolding (stairs.callees tree) ["leaf"] ["leaf"] :=
    .single (by decide +kernel) .nil
  have step : Unfolding (stairs.callees tree) ["step"] ["leaf", "step"] :=
    .single (by decide +kernel) leaf
  have unfolds : Unfolding (stairs.callees tree) ["main"] ["leaf", "step", "leaf", "main"] :=
    .single (by decide +kernel) (step.append leaf)
  have acyclic : ∀ name, ReflTransGen (stairs.Calls tree) stairs.name name →
      ¬ TransGen (stairs.Calls tree) name name :=
    fun name reaches =>
      not_transGen_self (unfolds.acc stairs.name List.mem_cons_self) reaches
  obtain ⟨ends, points⟩ := run_ends analyse_stairs acyclic .new
  exact ⟨tree, analyse_stairs, fun depth enough => (ends depth enough).2,
    fun depth earlier later split => (points depth earlier later split).2.1⟩

end Interpreter
end MiniPascal
