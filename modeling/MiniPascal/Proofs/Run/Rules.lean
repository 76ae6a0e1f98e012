import MiniPascal.Proofs.Run.CallSites

/-! # Rules for executing a body in its scope

`Keeps` says of a computation that it leaves the frame of one scope on top of the same stack, that
everything on the machine fits the scopes of the program, and that it ends early only for a reason
which an analysed program can have. There is one rule for each operation of a machine and one for
each kind of expression and statement. -/
set_option autoImplicit false
namespace MiniPascal

/-- The scope exists, and only its variables have values. -/
def Frame.Fits (tree : ScopeTree) (frame : Frame) : Prop :=
  (tree.table? frame.scope).isSome
    ∧ ∀ name value, frame.get? name = some value → tree.HasVariable frame.scope name

/-- The reasons to end early that an analysed program can have. -/
def Halt.Expected (tree : ScopeTree) : Halt → Prop
  | .fault (.divisionByZero _) => True
  | .fault (.overflow _) => True
  | .fault (.uninitialized name scope _) => tree.HasVariable scope name
  | .fault (.mismatch _) => False
  | .depthExceeded => True

namespace Interpreter

/-- A call in a scope means the same at its site in the analysis and in the finished tree: one
header, the one declaration of its name, and as many parameters as there are arguments. -/
def Resolves (interpreter : Interpreter) (scope : String) (id : NodeId) (name : String)
    (position : Position) (arguments : List Expr) : Prop :=
  interpreter.program.Site scope (.call id name position arguments)
    ∧ ∃ header procedure, interpreter.scopes.findProcedure? scope name = some header
      ∧ (∀ earlier later,
        interpreter.program.visits = earlier ++ .call id name position arguments :: later →
          (interpreter.program.analysisAfter earlier).scopes.findProcedure?
            (interpreter.program.analysisAfter earlier).scope name = some header)
      ∧ interpreter.procedures[header.name]? = some procedure ∧ procedure.header = header
      ∧ (interpreter.program.block.allProcedures.filter fun other => other.name = header.name)
        = [procedure]
      ∧ header.parameters.length = arguments.length

end Interpreter

/-- The frames of an event fit the scopes, and a call that it executes resolves in the scope of the
innermost frame. -/
def Event.Agrees (interpreter : Interpreter) : Event → Prop
  | .entered frame _ => frame.Fits interpreter.scopes
  | .left frame => frame.Fits interpreter.scopes
  | .executing stack (.call id name position arguments) =>
    (∀ frame ∈ stack, frame.Fits interpreter.scopes)
      ∧ ∃ frame rest, stack = frame :: rest
        ∧ interpreter.Resolves frame.scope id name position arguments
  | .executing stack _ => ∀ frame ∈ stack, frame.Fits interpreter.scopes
  | _ => True

/-- All frames fit, and so does everything that has happened. -/
structure Machine.Agrees (interpreter : Interpreter) (machine : Machine) : Prop where
  frames : ∀ frame ∈ machine.stack, frame.Fits interpreter.scopes
  events : ∀ event ∈ machine.events, event.Agrees interpreter

/-- A machine in the given scope, with the given frames below. -/
structure Machine.At (interpreter : Interpreter) (scope : String) (rest : List Frame)
    (machine : Machine) : Prop extends machine.Agrees interpreter where
  innermost : ∃ frame, machine.stack = frame :: rest ∧ frame.scope = scope

namespace Execute

/-- The computation keeps the machine in its scope; its value satisfies the condition, and it ends
early only for an expected reason. -/
def Keeps {α : Type} (interpreter : Interpreter) (scope : String) (rest : List Frame)
    (condition : α → Prop) (body : Execute α) : Prop :=
  ∀ machine : Machine, machine.At interpreter scope rest →
    match body machine with
    | .ok value after => condition value ∧ after.At interpreter scope rest
    | .error halt after => halt.Expected interpreter.scopes ∧ after.At interpreter scope rest

end Execute

theorem Frame.fits_ofScope {tree : ScopeTree} {scope : String}
    (known : (tree.table? scope).isSome) : (Frame.ofScope scope).Fits tree := by
  refine ⟨known, fun name value found => ?_⟩
  simp [Frame.ofScope, Frame.get?] at found

theorem Frame.Fits.set {tree : ScopeTree} {frame : Frame} (fits : frame.Fits tree) {name : String}
    (declared : tree.HasVariable frame.scope name) (value : Number) :
    (frame.set name value).Fits tree := by
  refine ⟨fits.1, fun other known found => ?_⟩
  rw [Frame.get?, Frame.set, Std.TreeMap.getElem?_insert] at found
  simp only [Std.LawfulEqOrd.compare_eq_iff_eq] at found
  split at found
  · rename_i same
    exact same ▸ declared
  · exact fits.2 other known found

theorem Frame.fits_setAll {tree : ScopeTree} : ∀ (values : List (String × Number)) (frame : Frame),
    frame.Fits tree → (∀ entry ∈ values, tree.HasVariable frame.scope entry.1) →
      (frame.setAll values).Fits tree := by
  intro values
  induction values with
  | nil => intro frame fits _; exact fits
  | cons entry rest ih =>
      intro frame fits declared
      have here := declared entry List.mem_cons_self
      exact ih (frame.set entry.1 entry.2) (fits.set here entry.2)
        fun other member => declared other (List.mem_cons_of_mem _ member)

theorem Frame.scope_setAll : ∀ (values : List (String × Number)) (frame : Frame),
    (frame.setAll values).scope = frame.scope := by
  intro values
  induction values with
  | nil => intro frame; rfl
  | cons entry rest ih =>
      intro frame
      exact ih (frame.set entry.1 entry.2)

namespace Machine

variable {interpreter : Interpreter} {scope : String} {rest : List Frame} {machine : Machine}

theorem At.note (here : machine.At interpreter scope rest) {event : Event}
    (agrees : event.Agrees interpreter) : (machine.note event).At interpreter scope rest := by
  refine ⟨⟨here.frames, ?_⟩, here.innermost⟩
  intro other member
  rcases List.mem_cons.mp member with rfl | member
  · exact agrees
  · exact here.events other member

theorem Agrees.push (agrees : machine.Agrees interpreter) {frame : Frame}
    (fits : frame.Fits interpreter.scopes) :
    (machine.push frame).At interpreter frame.scope machine.stack := by
  refine ⟨⟨?_, ?_⟩, frame, rfl, rfl⟩
  · intro other member
    rcases List.mem_cons.mp member with rfl | member
    · exact fits
    · exact agrees.frames other member
  · intro event member
    rcases List.mem_cons.mp member with rfl | member
    · exact fits
    · exact agrees.events event member

theorem At.pop (here : machine.At interpreter scope rest) :
    ∃ frame, machine.pop.1 = some frame ∧ frame.scope = scope ∧ frame.Fits interpreter.scopes
      ∧ machine.pop.2.stack = rest ∧ machine.pop.2.Agrees interpreter := by
  obtain ⟨frame, stack, same⟩ := here.innermost
  have fits := here.frames
  rw [stack] at fits
  have own := fits frame List.mem_cons_self
  refine ⟨frame, by simp [Machine.pop, stack], same, own, by simp [Machine.pop, stack], ?_⟩
  refine ⟨?_, ?_⟩
  · simp only [Machine.pop, stack]
    exact fun other member => fits other (List.mem_cons_of_mem _ member)
  · simp only [Machine.pop, stack]
    intro event member
    rcases List.mem_cons.mp member with rfl | member
    · exact own
    · exact here.events event member

end Machine

namespace Execute.Keeps

variable {α β : Type} {interpreter : Interpreter} {scope : String} {rest : List Frame}
  {condition : α → Prop} {next : β → Prop}

theorem pure {value : α} (holds : condition value) :
    Keeps interpreter scope rest condition (Pure.pure value) :=
  fun _ here => ⟨holds, here⟩

theorem bind {body : Execute α} {further : α → Execute β}
    (first : Keeps interpreter scope rest condition body)
    (second : ∀ value, condition value → Keeps interpreter scope rest next (further value)) :
    Keeps interpreter scope rest next (body >>= further) := by
  intro machine here
  have done := first machine here
  simp only [Bind.bind, EStateM.bind]
  cases result : body machine with
  | ok value after =>
      rw [result] at done
      exact second value done.1 after done.2
  | error halt after =>
      rw [result] at done
      exact done

theorem fail {error : RuntimeError} (expected : (Halt.fault error).Expected interpreter.scopes) :
    Keeps interpreter scope rest condition (Execute.fail error) :=
  fun _ here => ⟨expected, here⟩

theorem note {event : Event} (agrees : event.Agrees interpreter) :
    Keeps interpreter scope rest (fun _ => True) (Execute.note event) :=
  fun _ here => ⟨trivial, here.note agrees⟩

theorem innermost : Keeps interpreter scope rest (fun frame => frame.scope = scope)
    Execute.innermost := by
  intro machine here
  obtain ⟨frame, stack, same⟩ := here.innermost
  simp only [Execute.innermost, stack]
  exact ⟨same, here⟩

theorem assign {name : String} (declared : interpreter.scopes.HasVariable scope name)
    (value : Number) :
    Keeps interpreter scope rest (fun _ => True) (Execute.assign name value) := by
  intro machine here
  obtain ⟨frame, stack, same⟩ := here.innermost
  have fits := here.frames
  rw [stack] at fits
  simp only [Execute.assign, stack]
  refine ⟨trivial, ⟨?_, here.events⟩, frame.set name value, rfl, same⟩
  intro other member
  rcases List.mem_cons.mp member with rfl | member
  · exact (fits frame List.mem_cons_self).set (same ▸ declared) value
  · exact fits other (List.mem_cons_of_mem _ member)

theorem noteStatement {statement : Statement}
    (resolves : ∀ id name position arguments, statement = .call id name position arguments →
      interpreter.Resolves scope id name position arguments) :
    Keeps interpreter scope rest (fun _ => True) (Execute.noteStatement statement) := by
  intro machine here
  refine ⟨trivial, here.note ?_⟩
  cases statement with
  | call id name position arguments =>
      obtain ⟨frame, stack, same⟩ := here.innermost
      exact ⟨here.frames, frame, rest, stack, same ▸ resolves id name position arguments rfl⟩
  | _ => exact here.frames

theorem arithmetic (position : Position) (result : Except ArithmeticFault Number) :
    Keeps interpreter scope rest (fun _ => True) (Execute.arithmetic position result) := by
  cases result with
  | ok value => exact pure trivial
  | error fault =>
      cases fault with
      | divisionByZero => exact fail trivial
      | overflow => exact fail trivial

/-- A body in a frame of its own leaves the stack as it was. -/
theorem framed {machine : Machine} {frame : Frame} {body : Execute Unit}
    (agrees : machine.Agrees interpreter) (fits : frame.Fits interpreter.scopes)
    (keeps : Keeps interpreter frame.scope machine.stack (fun _ => True) body) :
    match Execute.framed frame body machine with
    | .ok last after => (∃ final, last = some final ∧ final.scope = frame.scope
        ∧ final.Fits interpreter.scopes)
      ∧ after.stack = machine.stack ∧ after.Agrees interpreter
    | .error halt after => halt.Expected interpreter.scopes
      ∧ after.stack = machine.stack ∧ after.Agrees interpreter := by
  have done := keeps (machine.push frame) (agrees.push fits)
  simp only [Execute.framed]
  cases result : body (machine.push frame) with
  | ok value after =>
      rw [result] at done
      obtain ⟨final, popped, same, own, stack, further⟩ := done.2.pop
      exact ⟨⟨final, popped, same, own⟩, stack, further⟩
  | error halt after =>
      rw [result] at done
      obtain ⟨_, _, _, _, stack, further⟩ := done.2.pop
      exact ⟨done.1, stack, further⟩

theorem evaluate : ∀ expr : Expr,
    (∀ used ∈ expr.mentions, interpreter.scopes.HasVariable scope used.name) →
      Keeps interpreter scope rest (fun _ => True) expr.evaluate := by
  intro expr
  induction expr with
  | number id value =>
      intro _
      exact bind (note trivial) fun _ _ => pure trivial
  | read source =>
      intro declared
      have known := declared source List.mem_cons_self
      refine bind innermost fun frame same => ?_
      cases frame.get? source.name with
      | none => exact fail (same ▸ known)
      | some value => exact bind (note trivial) fun _ _ => pure trivial
  | unary id operator operand position ih =>
      intro declared
      refine bind (ih declared) fun inner _ => ?_
      refine bind (arithmetic position _) fun value _ => ?_
      exact bind (note trivial) fun _ _ => pure trivial
  | binary id operator left right position first second =>
      intro declared
      have before := first fun used member => declared used (List.mem_append_left _ member)
      have after := second fun used member => declared used (List.mem_append_right _ member)
      refine bind before fun _ _ => bind after fun _ _ => ?_
      refine bind (arithmetic position _) fun value _ => ?_
      exact bind (note trivial) fun _ _ => pure trivial

theorem evaluateAll : ∀ exprs : List Expr,
    (∀ used ∈ exprs.flatMap Expr.mentions, interpreter.scopes.HasVariable scope used.name) →
      Keeps interpreter scope rest (fun _ => True) (Expr.evaluateAll exprs) := by
  intro exprs
  induction exprs with
  | nil => intro _; exact pure trivial
  | cons first others ih =>
      intro declared
      rw [List.flatMap_cons] at declared
      have before : Keeps interpreter scope rest (fun _ => True) first.evaluate :=
        evaluate first fun used member => declared used (List.mem_append_left _ member)
      have after := ih fun used member => declared used (List.mem_append_right _ member)
      exact bind before fun _ _ => bind after fun _ _ => pure trivial

end Execute.Keeps

section Statements

variable {interpreter : Interpreter} {scope : String} {rest : List Frame}
  {call : String → List Expr → Execute Unit}

/-- The rule for calls that `Statement.execute` is to be used with. -/
def Execute.CallsKeep (interpreter : Interpreter) (scope : String) (rest : List Frame)
    (call : String → List Expr → Execute Unit) : Prop :=
  ∀ id name position arguments, interpreter.Resolves scope id name position arguments →
    (∀ used ∈ arguments.flatMap Expr.mentions, interpreter.scopes.HasVariable scope used.name) →
      Execute.Keeps interpreter scope rest (fun _ => True) (call name arguments)

open Execute Execute.Keeps

mutual

theorem Statement.keeps (calls : Execute.CallsKeep interpreter scope rest call) :
    ∀ statement : Statement,
      (∀ used ∈ statement.mentions, interpreter.scopes.HasVariable scope used.name) →
      (∀ id name position arguments, .call id name position arguments ∈ statement.visits →
        interpreter.Resolves scope id name position arguments) →
      Execute.Keeps interpreter scope rest (fun _ => True) (statement.execute call)
  | .compound id statements, declared, resolves => by
    refine bind (noteStatement (by simp)) fun _ _ => ?_
    refine Statement.keepsAll calls statements declared fun id name position arguments member => ?_
    exact resolves id name position arguments
      (List.mem_append_left _ (List.mem_cons_of_mem _ member))
  | .assignment id target value, declared, _ => by
    have known := declared target List.mem_cons_self
    refine bind (noteStatement (by simp)) fun _ _ => ?_
    refine bind (evaluate value fun used member => declared used (List.mem_cons_of_mem _ member))
      fun result _ => ?_
    exact bind (note trivial) fun _ _ => assign known result
  | .call id name position arguments, declared, resolves => by
    have site := resolves id name position arguments
      (List.mem_append_right _ (List.mem_singleton_self _))
    refine bind (noteStatement ?_) fun _ _ => calls id name position arguments site declared
    rintro _ _ _ _ ⟨⟩
    exact site
  | .empty id, _, _ => noteStatement (by simp)

theorem Statement.keepsAll (calls : Execute.CallsKeep interpreter scope rest call) :
    ∀ statements : List Statement,
      (∀ used ∈ Statement.mentionsOf statements,
        interpreter.scopes.HasVariable scope used.name) →
      (∀ id name position arguments,
        .call id name position arguments ∈ Statement.visitsOf statements →
        interpreter.Resolves scope id name position arguments) →
      Execute.Keeps interpreter scope rest (fun _ => True) (Statement.executeAll call statements)
  | [], _, _ => pure trivial
  | statement :: others, declared, resolves => by
    refine bind (Statement.keeps calls statement
      (fun used member => declared used (List.mem_append_left _ member))
      fun id name position arguments member =>
        resolves id name position arguments (List.mem_append_left _ member)) fun _ _ => ?_
    exact Statement.keepsAll calls others
      (fun used member => declared used (List.mem_append_right _ member))
      fun id name position arguments member =>
        resolves id name position arguments (List.mem_append_right _ member)

end

end Statements
end MiniPascal
