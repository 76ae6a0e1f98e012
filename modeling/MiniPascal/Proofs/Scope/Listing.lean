import MiniPascal.Scope.Analysis

/-! # The scopes of a program, listed

A program is read here as a list of scopes: its own and one for every procedure at any depth, each
scope in front of those inside it. What a scope declares, what it refers to and which procedures it
can see are read off the program's tree alone, without a table or a walk. `Program.WellFormed` says
in these terms when a program has no fault. -/
set_option autoImplicit false
namespace MiniPascal

/-- One scope of a program: what it declares, the statements of its body, and the procedures that
enclosing scopes have declared up to the place where it stands, itself included. -/
structure Scope where
  name : String
  parent : Option String
  params : List Param
  declarations : List VarDecl
  procedures : List Procedure
  statements : List Statement
  inherited : List Procedure

mutual

/-- The scope of a block and the scopes inside it. -/
def Block.scopes (name : String) (parent : Option String) (params : List Param)
    (inherited : List Procedure) : Block → List Scope
  | ⟨_, declarations, procedures, body⟩ =>
    ⟨name, parent, params, declarations, procedures, body.statements, inherited⟩ ::
      Procedure.scopesOf name inherited procedures

/-- The scopes of several procedures. Each procedure sees itself and the ones before it. -/
def Procedure.scopesOf (parent : String) (visible : List Procedure) :
    List Procedure → List Scope
  | [] => []
  | ⟨id, name, position, params, block⟩ :: rest =>
    block.scopes name (some parent) params (visible ++ [⟨id, name, position, params, block⟩])
      ++ Procedure.scopesOf parent (visible ++ [⟨id, name, position, params, block⟩]) rest

end

/-- All scopes of a program, its own first. -/
def Program.scopes (program : Program) : List Scope :=
  program.block.scopes program.name none [] []

mutual

/-- The procedures declared in a block at any depth, each in front of those inside it. -/
def Block.allProcedures : Block → List Procedure
  | ⟨_, _, procedures, _⟩ => Procedure.allOf procedures

/-- The given procedures and those inside them. -/
def Procedure.allOf : List Procedure → List Procedure
  | [] => []
  | ⟨id, name, position, params, block⟩ :: rest =>
    ⟨id, name, position, params, block⟩ :: (block.allProcedures ++ Procedure.allOf rest)

end

namespace Scope

/-- The variables of a scope with their types: its parameters and what its `VAR` part lists. -/
def typedNames (scope : Scope) : List (String × DataType) :=
  scope.params.map (fun param => (param.declared.name, param.typeSpec.dataType))
    ++ scope.declarations.flatMap fun decl =>
      decl.names.map fun declared => (declared.name, decl.typeSpec.dataType)

/-- Everything a scope declares directly, with what each name stands for. -/
def symbols (scope : Scope) : List (String × Symbol) :=
  scope.typedNames.map (fun entry => (entry.1, .variable entry.2))
    ++ scope.procedures.map fun procedure => (procedure.name, .procedure procedure.header)

/-- The procedures that the statements of a scope can call. -/
def visible (scope : Scope) : List Procedure :=
  scope.inherited ++ scope.procedures

end Scope

/-- The variables that an expression reads. -/
def Expr.mentions : Expr → List Variable
  | .number _ _ => []
  | .read source => [source]
  | .unary _ _ operand _ => operand.mentions
  | .binary _ _ left right _ => left.mentions ++ right.mentions

mutual

/-- The variables that a statement reads or assigns. -/
def Statement.mentions : Statement → List Variable
  | .compound _ statements => Statement.mentionsOf statements
  | .assignment _ target value => target :: value.mentions
  | .call _ _ _ arguments => arguments.flatMap Expr.mentions
  | .empty _ => []

def Statement.mentionsOf : List Statement → List Variable
  | [] => []
  | statement :: rest => statement.mentions ++ Statement.mentionsOf rest

end

mutual

/-- The calls in a statement: the name that is called and the number of arguments. -/
def Statement.calls : Statement → List (String × Nat)
  | .compound _ statements => Statement.callsOf statements
  | .assignment _ _ _ => []
  | .call _ name _ arguments => [(name, arguments.length)]
  | .empty _ => []

def Statement.callsOf : List Statement → List (String × Nat)
  | [] => []
  | statement :: rest => statement.calls ++ Statement.callsOf rest

end

namespace Scope

/-- Every variable that the statements of a scope read or assign is declared in that scope. -/
def DeclaresMentions (scope : Scope) : Prop :=
  ∀ used ∈ Statement.mentionsOf scope.statements, used.name ∈ scope.typedNames.map Prod.fst

/-- Every call in the statements of a scope names a procedure that the scope can see, and passes as
many arguments as that procedure has parameters. -/
def ResolvesCalls (scope : Scope) : Prop :=
  ∀ call ∈ Statement.callsOf scope.statements,
    ∃ procedure ∈ scope.visible, procedure.name = call.1 ∧ procedure.params.length = call.2

instance (scope : Scope) : Decidable scope.DeclaresMentions :=
  inferInstanceAs (Decidable (∀ used ∈ _, _))

instance (scope : Scope) : Decidable scope.ResolvesCalls :=
  inferInstanceAs (Decidable (∀ call ∈ _, _))

end Scope

/-- A program without faults: scope names are distinct in the whole program, declared names are
distinct in each scope, and every reference finds its declaration. -/
structure Program.WellFormed (program : Program) : Prop where
  scopeNames : (program.scopes.map Scope.name).Nodup
  declaredNames : ∀ scope ∈ program.scopes, (scope.symbols.map Prod.fst).Nodup
  mentions : ∀ scope ∈ program.scopes, scope.DeclaresMentions
  calls : ∀ scope ∈ program.scopes, scope.ResolvesCalls

instance (program : Program) : Decidable program.WellFormed :=
  decidable_of_iff
    ((program.scopes.map Scope.name).Nodup
      ∧ (∀ scope ∈ program.scopes, (scope.symbols.map Prod.fst).Nodup)
      ∧ (∀ scope ∈ program.scopes, scope.DeclaresMentions)
      ∧ ∀ scope ∈ program.scopes, scope.ResolvesCalls)
    ⟨fun ⟨scopeNames, declaredNames, mentions, calls⟩ =>
      ⟨scopeNames, declaredNames, mentions, calls⟩,
    fun wellFormed =>
      ⟨wellFormed.scopeNames, wellFormed.declaredNames, wellFormed.mentions, wellFormed.calls⟩⟩

/-! ## Names of scopes and procedures -/

mutual

theorem Block.map_name_scopes (name : String) (parent : Option String) (params : List Param)
    (inherited : List Procedure) : ∀ block : Block,
    (block.scopes name parent params inherited).map Scope.name
      = name :: block.allProcedures.map Procedure.name
  | ⟨_, _, procedures, _⟩ => by
    simp only [Block.scopes, Block.allProcedures, List.map_cons,
      Procedure.map_name_scopesOf name inherited procedures]

theorem Procedure.map_name_scopesOf (parent : String) (visible : List Procedure) :
    ∀ procedures : List Procedure,
    (Procedure.scopesOf parent visible procedures).map Scope.name
      = (Procedure.allOf procedures).map Procedure.name
  | [] => rfl
  | ⟨id, name, position, params, block⟩ :: rest => by
    simp only [Procedure.scopesOf, Procedure.allOf, List.map_append, List.map_cons,
      Block.map_name_scopes name (some parent) params _ block,
      Procedure.map_name_scopesOf parent _ rest, List.cons_append]

end

/-- The scopes of a program are its own and one for every procedure, in the same order. -/
theorem Program.map_name_scopes (program : Program) :
    program.scopes.map Scope.name
      = program.name :: program.block.allProcedures.map Procedure.name :=
  Block.map_name_scopes program.name none [] [] program.block

end MiniPascal
