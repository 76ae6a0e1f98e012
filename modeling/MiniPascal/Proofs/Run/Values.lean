import Mathlib.Data.List.Forall2
import MiniPascal.Run.Execution

/-! # Values of expressions

In a frame an expression has a value or a fault, and neither needs a machine. Evaluation on a
machine comes to exactly that. What it adds to the record are the values of the parts of the
expression, operands first and from the left, up to the first part that has a fault; the stack stays
as it is. -/
set_option autoImplicit false
namespace MiniPascal

theorem eq_error_of_map {ε α β : Type} {f : α → β} {result : Except ε α} {error : ε}
    (failed : result.map f = .error error) : result = .error error := by
  cases result with
  | ok value => cases failed
  | error other =>
      cases failed
      rfl

/-- The result of one step of arithmetic, with faults at a position. -/
def RuntimeError.located (position : Position) :
    Except ArithmeticFault Number → Except RuntimeError Number
  | .ok value => .ok value
  | .error .divisionByZero => .error (.divisionByZero position)
  | .error .overflow => .error (.overflow position)

theorem RuntimeError.located_eq_ok_iff {position : Position}
    {result : Except ArithmeticFault Number} {value : Number} :
    located position result = .ok value ↔ result = .ok value := by
  cases result with
  | ok other => simp [located]
  | error fault => cases fault <;> simp [located]

namespace Expr

/-- The value of an expression in a frame, or the fault that comes first. -/
def valueIn (frame : Frame) : Expr → Except RuntimeError Number
  | .number _ value => .ok value
  | .read source =>
    match frame.get? source.name with
    | none => .error (.uninitialized source.name frame.scope source.position)
    | some value => .ok value
  | .unary _ operator operand position =>
    match operand.valueIn frame with
    | .error error => .error error
    | .ok inner => RuntimeError.located position (operator.apply inner)
  | .binary _ operator left right position =>
    match left.valueIn frame with
    | .error error => .error error
    | .ok first =>
      match right.valueIn frame with
      | .error error => .error error
      | .ok second => RuntimeError.located position (operator.apply first second)

/-- A node with operands has a value if they have values and the operator can be applied. -/
theorem valueIn_unary_iff {frame : Frame} {id : NodeId} {operator : UnaryOperator} {operand : Expr}
    {position : Position} {value : Number} :
    (Expr.unary id operator operand position).valueIn frame = .ok value
      ↔ ∃ inner, operand.valueIn frame = .ok inner ∧ operator.apply inner = .ok value := by
  rw [valueIn]
  cases operand.valueIn frame with
  | error error => simp
  | ok inner => simp [RuntimeError.located_eq_ok_iff]

theorem valueIn_binary_iff {frame : Frame} {id : NodeId} {operator : BinaryOperator}
    {left right : Expr} {position : Position} {value : Number} :
    (Expr.binary id operator left right position).valueIn frame = .ok value
      ↔ ∃ first second, left.valueIn frame = .ok first ∧ right.valueIn frame = .ok second
        ∧ operator.apply first second = .ok value := by
  rw [valueIn]
  cases left.valueIn frame with
  | error error => simp
  | ok first =>
      cases right.valueIn frame with
      | error error => simp
      | ok second => simp [RuntimeError.located_eq_ok_iff]

/-- The values of several expressions in a frame, or the fault that comes first. -/
def valuesIn (frame : Frame) : List Expr → Except RuntimeError (List Number)
  | [] => .ok []
  | first :: rest =>
    match first.valueIn frame with
    | .error error => .error error
    | .ok value =>
      match valuesIn frame rest with
      | .error error => .error error
      | .ok values => .ok (value :: values)

/-- An expression and all expressions in it, operands first and from the left. -/
def parts : Expr → List Expr
  | .number id value => [.number id value]
  | .read source => [.read source]
  | .unary id operator operand position => operand.parts ++ [.unary id operator operand position]
  | .binary id operator left right position =>
    left.parts ++ right.parts ++ [.binary id operator left right position]

/-- What is evaluated for a value has a value itself. -/
theorem exists_valueIn_parts {frame : Frame} (expr : Expr) :
    ∀ {value : Number}, expr.valueIn frame = .ok value →
      ∀ part ∈ expr.parts, ∃ value, part.valueIn frame = .ok value := by
  -- The expression itself is the last of its parts, and operands of a value have values.
  induction expr with
  | number id value =>
      intro _ found part member
      rw [List.mem_singleton.mp member]
      exact ⟨_, found⟩
  | read source =>
      intro _ found part member
      rw [List.mem_singleton.mp member]
      exact ⟨_, found⟩
  | unary id operator operand position ih =>
      intro _ found part member
      obtain ⟨_, inner, _⟩ := valueIn_unary_iff.mp found
      rcases List.mem_append.mp member with inside | own
      · exact ih inner part inside
      · rw [List.mem_singleton.mp own]
        exact ⟨_, found⟩
  | binary id operator left right position first second =>
      intro _ found part member
      obtain ⟨_, _, before, after, _⟩ := valueIn_binary_iff.mp found
      rcases List.mem_append.mp member with inside | own
      · rcases List.mem_append.mp inside with one | two
        · exact first before part one
        · exact second after part two
      · rw [List.mem_singleton.mp own]
        exact ⟨_, found⟩

/-- The values of expressions in order, up to the first one with a fault. -/
def evaluations (frame : Frame) : List Expr → List Event
  | [] => []
  | part :: rest =>
    match part.valueIn frame with
    | .ok value => .evaluated part.id value :: evaluations frame rest
    | .error _ => []

/-- A fault of an expression ends the evaluations behind it, because it is a part of itself. -/
theorem evaluations_parts_append (frame : Frame) (expr : Expr) :
    ∀ rest : List Expr, evaluations frame (expr.parts ++ rest)
      = match expr.valueIn frame with
        | .ok _ => evaluations frame expr.parts ++ evaluations frame rest
        | .error _ => evaluations frame expr.parts := by
  -- An expression closes the list of its own parts, so `single` is what is left to do at a node
  -- once the operands are known to have values.
  have single : ∀ (node : Expr) (rest : List Expr), evaluations frame (node :: rest)
      = match node.valueIn frame with
        | .ok _ => evaluations frame [node] ++ evaluations frame rest
        | .error _ => evaluations frame [node] := by
    intro node rest
    cases found : node.valueIn frame <;> simp [evaluations, found]
  induction expr with
  | number id value => exact single _
  | read source => exact single _
  | unary id operator operand position ih =>
      intro rest
      simp only [parts, List.append_assoc, List.singleton_append]
      rw [ih, ih [_]]
      cases inner : operand.valueIn frame with
      | error error => simp only [valueIn, inner]
      | ok value =>
          simp only
          rw [single _ rest]
          cases (Expr.unary id operator operand position).valueIn frame <;> simp
  | binary id operator left right position first second =>
      intro rest
      simp only [parts, List.append_assoc, List.singleton_append]
      rw [first, first (right.parts ++ [_]), second, second [_]]
      cases before : left.valueIn frame with
      | error error => simp only [valueIn, before]
      | ok value =>
          cases after : right.valueIn frame with
          | error error => simp only [valueIn, before, after]
          | ok value =>
              simp only
              rw [single _ rest]
              cases (Expr.binary id operator left right position).valueIn frame <;> simp

/-- If an expression has a value then every part of it has one. -/
theorem evaluations_of_ok {frame : Frame} {expr : Expr} {value : Number}
    (found : expr.valueIn frame = .ok value) (rest : List Expr) :
    evaluations frame (expr.parts ++ rest)
      = evaluations frame expr.parts ++ evaluations frame rest := by
  rw [evaluations_parts_append, found]

theorem evaluations_of_error {frame : Frame} {expr : Expr} {error : RuntimeError}
    (found : expr.valueIn frame = .error error) (rest : List Expr) :
    evaluations frame (expr.parts ++ rest) = evaluations frame expr.parts := by
  rw [evaluations_parts_append, found]

/-- Evaluation adds nothing else to the record. -/
theorem evaluated_of_mem {frame : Frame} {event : Event} (parts : List Expr) :
    event ∈ evaluations frame parts → ∃ id value, event = .evaluated id value := by
  induction parts with
  | nil => exact fun member => absurd member List.not_mem_nil
  | cons part rest ih =>
      rw [evaluations]
      cases part.valueIn frame with
      | error error => exact fun member => absurd member List.not_mem_nil
      | ok value =>
          intro member
          rcases List.mem_cons.mp member with rfl | later
          · exact ⟨part.id, value, rfl⟩
          · exact ih later

end Expr

/-- Adds events to the record, the first of them first. -/
def Machine.noteAll (machine : Machine) (events : List Event) : Machine :=
  { machine with events := events.reverse ++ machine.events }

namespace Machine

theorem stack_noteAll (machine : Machine) (events : List Event) :
    (machine.noteAll events).stack = machine.stack :=
  rfl

theorem history_noteAll (machine : Machine) (events : List Event) :
    (machine.noteAll events).history = machine.history ++ events := by
  simp [history, noteAll]

theorem noteAll_append (machine : Machine) (first second : List Event) :
    machine.noteAll (first ++ second) = (machine.noteAll first).noteAll second := by
  simp [noteAll]

end Machine

namespace Execute

/-- A computation that comes to a value or a fault on a machine. -/
def settled {α : Type} (machine : Machine) : Except RuntimeError α → EStateM.Result Halt Machine α
  | .ok value => .ok value machine
  | .error error => .error (.fault error) machine

theorem arithmetic_eq (position : Position) (result : Except ArithmeticFault Number)
    (machine : Machine) :
    arithmetic position result machine
      = settled machine (RuntimeError.located position result) := by
  cases result with
  | ok value => rfl
  | error fault => cases fault <;> rfl

end Execute

open Execute

variable {frame : Frame} {below : List Frame}

theorem Expr.evaluate_eq (expr : Expr) : ∀ {machine : Machine}, machine.stack = frame :: below →
    expr.evaluate machine
      = settled (machine.noteAll (Expr.evaluations frame expr.parts)) (expr.valueIn frame) := by
  induction expr with
  | number id value => intro machine _; rfl
  | read source =>
      intro machine stack
      simp only [Expr.evaluate, bind, EStateM.bind, innermost, stack, Expr.parts,
        Expr.evaluations, Expr.valueIn]
      cases frame.get? source.name <;> rfl
  | unary id operator operand position ih =>
      intro machine stack
      simp only [Expr.evaluate, bind, EStateM.bind, ih stack, Expr.parts, Expr.valueIn]
      cases inner : operand.valueIn frame with
      | error error => rw [Expr.evaluations_of_error inner]; rfl
      | ok value =>
          rw [Expr.evaluations_of_ok inner, Machine.noteAll_append]
          simp only [settled, arithmetic_eq, Expr.evaluations, Expr.valueIn, inner]
          cases RuntimeError.located position (operator.apply value) <;> rfl
  | binary id operator left right position first second =>
      intro machine stack
      simp only [Expr.evaluate, bind, EStateM.bind, first stack, Expr.parts, Expr.valueIn,
        List.append_assoc]
      cases before : left.valueIn frame with
      | error error => rw [Expr.evaluations_of_error before]; rfl
      | ok value =>
          rw [Expr.evaluations_of_ok before, Machine.noteAll_append]
          simp only [settled]
          rw [second (show (machine.noteAll _).stack = _ from stack)]
          cases after : right.valueIn frame with
          | error error => rw [Expr.evaluations_of_error after]; rfl
          | ok other =>
              rw [Expr.evaluations_of_ok after, Machine.noteAll_append]
              simp only [settled, arithmetic_eq, Expr.evaluations, Expr.valueIn, before, after]
              cases RuntimeError.located position (operator.apply value other) <;> rfl

theorem Expr.evaluateAll_eq (exprs : List Expr) :
    ∀ {machine : Machine}, machine.stack = frame :: below →
      Expr.evaluateAll exprs machine
        = settled (machine.noteAll (Expr.evaluations frame (exprs.flatMap Expr.parts)))
            (Expr.valuesIn frame exprs) := by
  induction exprs with
  | nil => intro machine _; rfl
  | cons first rest ih =>
      intro machine stack
      simp only [Expr.evaluateAll, bind, EStateM.bind, Expr.evaluate_eq first stack,
        List.flatMap_cons, Expr.valuesIn]
      cases found : first.valueIn frame with
      | error error => rw [Expr.evaluations_of_error found]; rfl
      | ok value =>
          rw [Expr.evaluations_of_ok found, Machine.noteAll_append]
          simp only [settled]
          rw [ih (show (machine.noteAll _).stack = _ from stack)]
          cases Expr.valuesIn frame rest <;> rfl

/-- Several expressions have values if each of them has one. -/
theorem Expr.valuesIn_eq_ok_iff (exprs : List Expr) : ∀ values : List Number,
    Expr.valuesIn frame exprs = .ok values
      ↔ List.Forall₂ (fun expr value => expr.valueIn frame = .ok value) exprs values := by
  induction exprs with
  | nil =>
      intro values
      rw [Expr.valuesIn, List.forall₂_nil_left_iff, Except.ok.injEq, eq_comm]
  | cons first rest ih =>
      intro values
      rw [Expr.valuesIn, List.forall₂_cons_left_iff]
      cases found : first.valueIn frame with
      | error error => simp
      | ok value =>
          cases others : Expr.valuesIn frame rest with
          | error error => simp [← ih, others]
          | ok more =>
              simp only [← ih, others, Except.ok.injEq]
              constructor
              · rintro rfl
                exact ⟨value, more, rfl, rfl, rfl⟩
              · rintro ⟨_, _, rfl, rfl, rfl⟩
                rfl

/-- Several expressions without values for all of them have a first one with a fault. -/
theorem Expr.exists_of_valuesIn_error {error : RuntimeError} (exprs : List Expr) :
    Expr.valuesIn frame exprs = .error error → ∃ earlier first later values,
      exprs = earlier ++ first :: later
        ∧ List.Forall₂ (fun expr value => expr.valueIn frame = .ok value) earlier values
        ∧ first.valueIn frame = .error error := by
  induction exprs with
  | nil => exact nofun
  | cons head rest ih =>
      intro failed
      rw [Expr.valuesIn] at failed
      cases found : head.valueIn frame with
      | error early =>
          rw [found] at failed
          cases failed
          exact ⟨[], head, rest, [], rfl, .nil, found⟩
      | ok value =>
          rw [found] at failed
          cases others : Expr.valuesIn frame rest with
          | ok values =>
              rw [others] at failed
              cases failed
          | error late =>
              rw [others] at failed
              cases failed
              obtain ⟨earlier, first, later, values, rfl, before, fails⟩ := ih others
              exact ⟨head :: earlier, first, later, value :: values, rfl, .cons found before, fails⟩

/-- Whatever is evaluated for the values of several expressions has a value itself. -/
theorem Expr.exists_valueIn_flatMap {exprs : List Expr} {values : List Number}
    (found : Expr.valuesIn frame exprs = .ok values) :
    ∀ part ∈ exprs.flatMap Expr.parts, ∃ value, part.valueIn frame = .ok value := by
  have each := (Expr.valuesIn_eq_ok_iff exprs values).mp found
  clear found
  induction each with
  | nil => exact fun part member => absurd member List.not_mem_nil
  | cons here _ ih =>
      intro part member
      rcases List.mem_append.mp member with inside | later
      · exact Expr.exists_valueIn_parts _ here part inside
      · exact ih part later

end MiniPascal
