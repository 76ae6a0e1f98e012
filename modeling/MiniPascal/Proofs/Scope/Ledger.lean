import Mathlib.Data.List.Perm.Basic
import Mathlib.Data.List.Nodup
import MiniPascal.Proofs.Scope.Listing

/-! # The declarations of a program in order

An analysis enters scopes and names one after the other. The ledger of a block is the list of these
entries in the order in which a walk meets them, and an entry is fresh if nothing of the same key is
there already. A ledger of fresh entries has distinct keys, and it holds the same entries as the
listed scopes of the program: this turns the order of a walk into conditions on scopes. -/
set_option autoImplicit false
namespace MiniPascal

/-- One declaration: a scope with the scope around it, or a name in a scope. -/
inductive Entry where
  | scope (name parent : String)
  | symbol (place name : String) (meaning : Symbol)
deriving DecidableEq

namespace Entry

/-- What may be declared only once. -/
def key : Entry → String × Option String
  | .scope name _ => (name, none)
  | .symbol place name _ => (place, some name)

/-- Names that are taken from the start: the program's own as a scope, and the built-in types. -/
def Reserved (root : String) : Entry → Prop
  | .scope name _ => name = root
  | .symbol _ name _ => ∃ dataType : DataType, dataType.name = name

/-- Whether an entry opens a scope. -/
def opens : Entry → Bool
  | .scope _ _ => true
  | .symbol _ _ _ => false

end Entry

/-- The entry of a parameter in the scope of its procedure. -/
def Param.entry (scope : String) (param : Param) : Entry :=
  .symbol scope param.declared.name (.variable param.typeSpec.dataType)

def VarDecl.entries (scope : String) (decl : VarDecl) : List Entry :=
  decl.names.map fun declared => .symbol scope declared.name (.variable decl.typeSpec.dataType)

/-- The two entries of a procedure: its name around it, and its own scope. -/
def Procedure.heading (scope : String) (procedure : Procedure) : List Entry :=
  [.symbol scope procedure.name (.procedure procedure.header), .scope procedure.name scope]

mutual

/-- The entries of a block in the given scope. -/
def Block.entries (scope : String) : Block → List Entry
  | ⟨_, declarations, procedures, _⟩ =>
    declarations.flatMap (VarDecl.entries scope) ++ Procedure.entriesOf scope procedures

def Procedure.entriesOf (scope : String) : List Procedure → List Entry
  | [] => []
  | ⟨id, name, position, params, block⟩ :: rest =>
    Procedure.heading scope ⟨id, name, position, params, block⟩
      ++ (params.map (Param.entry name) ++ block.entries name) ++ Procedure.entriesOf scope rest

end

def Program.entries (program : Program) : List Entry :=
  program.block.entries program.name

/-! ## Fresh entries -/

/-- Nothing of the entry's key is there already. -/
def Fresh (root : String) (ledger : List Entry) (entry : Entry) : Prop :=
  ¬ entry.Reserved root ∧ entry.key ∉ ledger.map Entry.key

/-- The added entries are fresh one after the other. -/
def Extends (root : String) (ledger : List Entry) : List Entry → Prop
  | [] => True
  | entry :: rest => Fresh root ledger entry ∧ Extends root (ledger ++ [entry]) rest

theorem extends_append (root : String) : ∀ (first second ledger : List Entry),
    Extends root ledger (first ++ second)
      ↔ Extends root ledger first ∧ Extends root (ledger ++ first) second := by
  intro first
  induction first with
  | nil => intro second ledger; simp [Extends]
  | cons entry rest ih =>
      intro second ledger
      simp only [List.cons_append, Extends, ih, and_assoc, List.append_assoc, List.nil_append]

/-- Entries are fresh one after the other if none is reserved, their keys are distinct, and no key
is in use. -/
theorem extends_iff (root : String) : ∀ (added ledger : List Entry),
    Extends root ledger added
      ↔ (∀ entry ∈ added, ¬ entry.Reserved root) ∧ (added.map Entry.key).Nodup
        ∧ ∀ entry ∈ added, entry.key ∉ ledger.map Entry.key := by
  intro added
  induction added with
  | nil => intro ledger; simp [Extends]
  | cons entry rest ih =>
      intro ledger
      simp only [Extends, Fresh, ih, List.map_cons, List.nodup_cons, List.forall_mem_cons,
        List.map_append, List.map_nil, List.mem_append, List.mem_singleton, not_or]
      constructor
      · rintro ⟨⟨free, unused⟩, frees, distinct, others⟩
        refine ⟨⟨free, frees⟩, ⟨?_, distinct⟩, unused, fun other member => (others other member).1⟩
        intro again
        obtain ⟨other, member, same⟩ := List.mem_map.mp again
        exact (others other member).2 same
      · rintro ⟨⟨free, frees⟩, ⟨once, distinct⟩, unused, others⟩
        refine ⟨⟨free, unused⟩, frees, distinct, fun other member => ⟨others other member, ?_⟩⟩
        intro same
        exact once (same ▸ List.mem_map_of_mem member)

/-! ## Well-kept ledgers -/

/-- Whether a name is that of a scope: the program's own, or one that has been opened. -/
def IsScope (root : String) (ledger : List Entry) (name : String) : Prop :=
  name = root ∨ ∃ parent, Entry.scope name parent ∈ ledger

/-- A ledger as a walk keeps it: fresh entries, names in scopes that have been opened, and for every
procedure the scope of its name. -/
structure WellKept (root : String) (ledger : List Entry) : Prop where
  fresh : Extends root [] ledger
  placed : ∀ place name meaning, Entry.symbol place name meaning ∈ ledger →
    IsScope root ledger place
  paired : ∀ place name header, Entry.symbol place name (.procedure header) ∈ ledger →
    Entry.scope name place ∈ ledger

theorem IsScope.append {root name : String} {ledger : List Entry} (known : IsScope root ledger name)
    (added : List Entry) : IsScope root (ledger ++ added) name := by
  rcases known with rfl | ⟨parent, member⟩
  · exact Or.inl rfl
  · exact Or.inr ⟨parent, List.mem_append_left _ member⟩

namespace WellKept

variable {root : String} {ledger : List Entry}

theorem nil (root : String) : WellKept root [] :=
  ⟨trivial, by simp, by simp⟩

/-- Two entries of one key are the same entry. -/
theorem eq_of_key_eq (kept : WellKept root ledger) {first second : Entry} (left : first ∈ ledger)
    (right : second ∈ ledger) (same : first.key = second.key) : first = second :=
  List.inj_on_of_nodup_map ((extends_iff root ledger []).mp kept.fresh).2.1 left right same

theorem not_reserved (kept : WellKept root ledger) {entry : Entry} (member : entry ∈ ledger) :
    ¬ entry.Reserved root :=
  ((extends_iff root ledger []).mp kept.fresh).1 entry member

/-- The program's own scope has no scope around it. -/
theorem root_not_opened (kept : WellKept root ledger) (parent : String) :
    Entry.scope root parent ∉ ledger :=
  fun member => kept.not_reserved member rfl

/-- A procedure name is declared in one scope only, with one header. -/
theorem procedure_unique (kept : WellKept root ledger) {first second name : String}
    {left right : ProcedureHeader} (here : Entry.symbol first name (.procedure left) ∈ ledger)
    (there : Entry.symbol second name (.procedure right) ∈ ledger) :
    first = second ∧ left = right := by
  have opened := kept.eq_of_key_eq (kept.paired _ _ _ here) (kept.paired _ _ _ there) rfl
  injection opened with _ scopes
  subst scopes
  have entries := kept.eq_of_key_eq here there rfl
  injection entries with _ _ meanings
  injection meanings with headers
  exact ⟨rfl, headers⟩

/-- Fresh entries that name variables of an open scope keep a ledger well kept. -/
theorem append_variables (kept : WellKept root ledger) {added : List Entry}
    (extended : Extends root ledger added)
    (vars : ∀ entry ∈ added, ∃ place name dataType,
      entry = .symbol place name (.variable dataType) ∧ IsScope root ledger place) :
    WellKept root (ledger ++ added) := by
  refine ⟨(extends_append root ledger added []).mpr ⟨kept.fresh, by simpa using extended⟩, ?_, ?_⟩
  · intro place name meaning member
    rcases List.mem_append.mp member with member | member
    · exact (kept.placed place name meaning member).append added
    · obtain ⟨_, _, _, same, known⟩ := vars _ member
      injection same with scopes
      exact (scopes ▸ known).append added
  · intro place name header member
    rcases List.mem_append.mp member with member | member
    · exact List.mem_append_left _ (kept.paired place name header member)
    · obtain ⟨_, _, _, same, _⟩ := vars _ member
      injection same with _ _ meanings
      cases meanings

/-- Opening a procedure in an open scope keeps a ledger well kept. -/
theorem append_heading (kept : WellKept root ledger) {scope : String} {procedure : Procedure}
    (extended : Extends root ledger (procedure.heading scope)) (known : IsScope root ledger scope) :
    WellKept root (ledger ++ procedure.heading scope) := by
  refine ⟨(extends_append root ledger _ []).mpr ⟨kept.fresh, by simpa using extended⟩, ?_, ?_⟩
  · intro place name meaning member
    rcases List.mem_append.mp member with member | member
    · exact (kept.placed place name meaning member).append _
    · have same : place = scope := by
        simp only [Procedure.heading, List.mem_cons, Entry.symbol.injEq, reduceCtorEq,
          List.not_mem_nil, or_false] at member
        exact member.1
      exact (same ▸ known).append _
  · intro place name header member
    rcases List.mem_append.mp member with member | member
    · exact List.mem_append_left _ (kept.paired place name header member)
    · simp only [Procedure.heading, List.mem_cons, Entry.symbol.injEq, reduceCtorEq,
        List.not_mem_nil, or_false] at member
      obtain ⟨rfl, rfl, _⟩ := member
      exact List.mem_append_right _ (by simp [Procedure.heading])

end WellKept

/-! ## The ledger of a program and its scopes -/

/-- The entries of one listed scope. The program's own scope stands around itself here. -/
def Scope.entries (scope : Scope) : List Entry :=
  .scope scope.name (scope.parent.getD scope.name) ::
    scope.symbols.map fun entry => .symbol scope.name entry.1 entry.2

theorem Scope.entries_mk (name : String) (parent : Option String) (params : List Param)
    (declarations : List VarDecl) (procedures : List Procedure) (statements : List Statement)
    (inherited : List Procedure) :
    Scope.entries ⟨name, parent, params, declarations, procedures, statements, inherited⟩
      = .scope name (parent.getD name) :: (params.map (Param.entry name)
        ++ declarations.flatMap (VarDecl.entries name)
        ++ procedures.map fun procedure =>
          .symbol name procedure.name (.procedure procedure.header)) := by
  simp only [Scope.entries, Scope.symbols, Scope.typedNames, List.map_append, List.map_map,
    List.map_flatMap, Function.comp_def, List.cons.injEq, true_and]
  rfl

theorem Scope.map_key_entries (scope : Scope) :
    scope.entries.map Entry.key
      = (scope.name, none) :: (scope.symbols.map Prod.fst).map fun name => (scope.name, some name) := by
  simp [Scope.entries, Entry.key, Function.comp_def]

/-- The entries of a scope have distinct keys exactly if the names that it declares are distinct. -/
theorem Scope.nodup_keys (scope : Scope) :
    (scope.entries.map Entry.key).Nodup ↔ (scope.symbols.map Prod.fst).Nodup := by
  have injective : Function.Injective fun name : String => (scope.name, some name) := by
    intro first second same
    injection same with _ names
    injection names
  rw [scope.map_key_entries, List.nodup_cons, List.nodup_map_iff injective]
  simp

/-- The entries of two scopes have no key in common exactly if the scopes have different names. -/
theorem Scope.disjoint_keys (first second : Scope) :
    List.Disjoint (first.entries.map Entry.key) (second.entries.map Entry.key)
      ↔ first.name ≠ second.name := by
  rw [first.map_key_entries, second.map_key_entries]
  constructor
  · intro apart same
    exact apart List.mem_cons_self (same ▸ List.mem_cons_self)
  · intro different key left right
    have named : ∀ (scope : Scope), key ∈ (scope.name, none) ::
        (scope.symbols.map Prod.fst).map (fun name => (scope.name, some name)) →
        key.1 = scope.name := by
      intro scope member
      rcases List.mem_cons.mp member with rfl | member
      · rfl
      · obtain ⟨name, _, rfl⟩ := List.mem_map.mp member
        rfl
    exact different ((named first left).symm.trans (named second right))

mutual

theorem Block.entries_perm (name : String) (parent : Option String) (params : List Param)
    (inherited : List Procedure) : ∀ block : Block,
    ((block.scopes name parent params inherited).flatMap Scope.entries).Perm
      (.scope name (parent.getD name) :: (params.map (Param.entry name) ++ block.entries name))
  | ⟨_, declarations, procedures, _⟩ => by
    have nested := Procedure.entriesOf_perm name inherited procedures
    simp only [Block.scopes, Block.entries, List.flatMap_cons, Scope.entries_mk, List.cons_append,
      List.append_assoc]
    exact ((nested.append_left _).append_left _).cons _

theorem Procedure.entriesOf_perm (parent : String) (visible : List Procedure) :
    ∀ procedures : List Procedure,
    ((procedures.map fun procedure =>
        Entry.symbol parent procedure.name (.procedure procedure.header))
      ++ (Procedure.scopesOf parent visible procedures).flatMap Scope.entries).Perm
      (Procedure.entriesOf parent procedures)
  | [] => .nil
  | ⟨id, name, position, params, block⟩ :: rest => by
    have inner := Block.entries_perm name (some parent) params
      (visible ++ [⟨id, name, position, params, block⟩]) block
    have later := Procedure.entriesOf_perm parent
      (visible ++ [⟨id, name, position, params, block⟩]) rest
    simp only [Procedure.scopesOf, Procedure.entriesOf, Procedure.heading, List.map_cons,
      List.flatMap_append, List.cons_append, List.nil_append]
    refine List.Perm.cons _ ?_
    refine List.perm_append_comm_assoc _ _ _ |>.trans ?_
    exact inner.append later

end

/-- The entries of a program are those of its scopes, one of them for the program itself. -/
theorem Program.entries_perm (program : Program) :
    (program.scopes.flatMap Scope.entries).Perm
      (.scope program.name program.name :: program.entries) :=
  Block.entries_perm program.name none [] [] program.block

mutual

/-- A name inside a block belongs to the block's own scope or to one that the block opens. -/
theorem Block.place_of_symbol (scope : String) : ∀ (block : Block) (place name : String)
    (meaning : Symbol), Entry.symbol place name meaning ∈ block.entries scope →
      place = scope ∨ ∃ parent, Entry.scope place parent ∈ block.entries scope
  | ⟨_, declarations, procedures, _⟩, place, name, meaning, member => by
    rcases List.mem_append.mp member with member | member
    · obtain ⟨decl, _, member⟩ := List.mem_flatMap.mp member
      obtain ⟨declared, _, same⟩ := List.mem_map.mp member
      injection same with places
      exact Or.inl places.symm
    · rcases Procedure.place_of_symbol scope procedures place name meaning member with
        ⟨own, _⟩ | ⟨parent, opened⟩
      · exact Or.inl own
      · exact Or.inr ⟨parent, List.mem_append_right _ opened⟩

/-- A name inside procedures is that of one of them, or belongs to a scope that they open. -/
theorem Procedure.place_of_symbol (scope : String) : ∀ (procedures : List Procedure)
    (place name : String) (meaning : Symbol),
      Entry.symbol place name meaning ∈ Procedure.entriesOf scope procedures →
      (place = scope ∧ ∃ procedure ∈ procedures,
          procedure.name = name ∧ .procedure procedure.header = meaning)
        ∨ ∃ parent, Entry.scope place parent ∈ Procedure.entriesOf scope procedures
  | [], _, _, _, member => by cases member
  | ⟨id, own, position, params, block⟩ :: rest, place, name, meaning, member => by
    have opened : Entry.scope own scope
        ∈ Procedure.entriesOf scope (⟨id, own, position, params, block⟩ :: rest) := by
      simp [Procedure.entriesOf, Procedure.heading]
    simp only [Procedure.entriesOf, List.mem_append] at member opened ⊢
    rcases member with (member | member | member) | member
    · simp only [Procedure.heading, List.mem_cons, Entry.symbol.injEq, reduceCtorEq,
        List.not_mem_nil, or_false] at member
      obtain ⟨here, same, header⟩ := member
      exact Or.inl ⟨here, _, List.mem_cons_self, same.symm, header.symm⟩
    · obtain ⟨param, _, same⟩ := List.mem_map.mp member
      injection same with places
      exact Or.inr ⟨scope, places ▸ opened⟩
    · rcases Block.place_of_symbol own block place name meaning member with inner | ⟨parent, inner⟩
      · exact Or.inr ⟨scope, inner ▸ opened⟩
      · exact Or.inr ⟨parent, Or.inl (Or.inr (Or.inr inner))⟩
    · rcases Procedure.place_of_symbol scope rest place name meaning member with
        ⟨here, procedure, among, same⟩ | ⟨parent, inner⟩
      · exact Or.inl ⟨here, procedure, List.mem_cons_of_mem _ among, same⟩
      · exact Or.inr ⟨parent, Or.inr inner⟩

end

theorem Procedure.heading_subset_entriesOf (scope : String) : ∀ (procedures : List Procedure),
    ∀ procedure ∈ procedures, procedure.heading scope ⊆ Procedure.entriesOf scope procedures := by
  intro procedures
  induction procedures with
  | nil => intro procedure member; cases member
  | cons first rest ih =>
      intro procedure member entry inside
      obtain ⟨id, name, position, params, block⟩ := first
      rw [Procedure.entriesOf]
      rcases List.mem_cons.mp member with rfl | member
      · exact List.mem_append_left _ (List.mem_append_left _ inside)
      · exact List.mem_append_right _ (ih procedure member inside)

/-- Of a scope that is open already, fresh procedures only declare their own names, and only in the
scope where they stand. -/
theorem Procedure.symbol_mem_entriesOf {root : String} {ledger : List Entry} {scope place : String}
    {procedures : List Procedure} (extended : Extends root ledger (Procedure.entriesOf scope procedures))
    (known : IsScope root ledger place) (name : String) (meaning : Symbol) :
    Entry.symbol place name meaning ∈ Procedure.entriesOf scope procedures
      ↔ place = scope ∧ ∃ procedure ∈ procedures,
        procedure.name = name ∧ .procedure procedure.header = meaning := by
  constructor
  · intro member
    rcases Procedure.place_of_symbol scope procedures place name meaning member with
      own | ⟨parent, opened⟩
    · exact own
    · obtain ⟨free, _, unused⟩ := (extends_iff root _ ledger).mp extended
      rcases known with rfl | ⟨around, before⟩
      · exact absurd rfl (free _ opened)
      · have used : (Entry.scope place parent).key ∈ ledger.map Entry.key :=
          List.mem_map.mpr ⟨_, before, rfl⟩
        exact absurd used (unused _ opened)
  · rintro ⟨rfl, procedure, among, rfl, rfl⟩
    exact Procedure.heading_subset_entriesOf place procedures procedure among List.mem_cons_self

mutual

/-- A scope inside a block is the block's own, or the ledger says which scope it stands in. -/
theorem Block.scope_mem_entries (name : String) (parent : Option String) (params : List Param)
    (inherited : List Procedure) : ∀ (block : Block) (inner : Scope),
      inner ∈ block.scopes name parent params inherited →
      inner.name = name ∧ inner.parent = parent
        ∨ ∃ around, inner.parent = some around ∧ Entry.scope inner.name around ∈ block.entries name
  | ⟨_, _, procedures, _⟩, inner, member => by
    rcases List.mem_cons.mp member with rfl | member
    · exact Or.inl ⟨rfl, rfl⟩
    · obtain ⟨around, enclosed, opened⟩ :=
        Procedure.scope_mem_entries name inherited procedures inner member
      exact Or.inr ⟨around, enclosed, List.mem_append_right _ opened⟩

theorem Procedure.scope_mem_entries (scope : String) (visible : List Procedure) :
    ∀ (procedures : List Procedure) (inner : Scope),
      inner ∈ Procedure.scopesOf scope visible procedures →
      ∃ around, inner.parent = some around
        ∧ Entry.scope inner.name around ∈ Procedure.entriesOf scope procedures
  | [], _, member => by cases member
  | ⟨id, name, position, params, block⟩ :: rest, inner, member => by
    simp only [Procedure.entriesOf, List.mem_append]
    rcases List.mem_append.mp member with member | member
    · rcases Block.scope_mem_entries name _ _ _ block inner member with
        ⟨own, enclosed⟩ | ⟨around, enclosed, opened⟩
      · exact ⟨scope, enclosed, Or.inl (Or.inl (by simp [Procedure.heading, own]))⟩
      · exact ⟨around, enclosed, Or.inl (Or.inr (Or.inr opened))⟩
    · obtain ⟨around, enclosed, opened⟩ := Procedure.scope_mem_entries scope _ rest inner member
      exact ⟨around, enclosed, Or.inr opened⟩

end

namespace Program

theorem symbol_mem_entries (program : Program) (place name : String) (meaning : Symbol) :
    Entry.symbol place name meaning ∈ program.entries
      ↔ ∃ scope ∈ program.scopes, scope.name = place ∧ (name, meaning) ∈ scope.symbols := by
  have listed := program.entries_perm.mem_iff (a := .symbol place name meaning)
  simp only [List.mem_cons, reduceCtorEq, false_or, List.mem_flatMap, Scope.entries,
    List.mem_map, Entry.symbol.injEq, Prod.exists] at listed
  rw [← listed]
  constructor
  · rintro ⟨scope, member, _, _, inside, rfl, rfl, rfl⟩
    exact ⟨scope, member, rfl, inside⟩
  · rintro ⟨scope, member, rfl, inside⟩
    exact ⟨scope, member, name, meaning, inside, rfl, rfl, rfl⟩

theorem exists_scope_of_opened (program : Program) {name parent : String}
    (opened : Entry.scope name parent ∈ program.entries) :
    ∃ scope ∈ program.scopes, scope.name = name ∧ scope.parent.getD scope.name = parent := by
  have listed := program.entries_perm.mem_iff.mpr (List.mem_cons_of_mem _ opened)
  obtain ⟨scope, member, inside⟩ := List.mem_flatMap.mp listed
  simp only [Scope.entries, List.mem_cons, Entry.scope.injEq, List.mem_map, reduceCtorEq,
    and_false, exists_false, or_false] at inside
  exact ⟨scope, member, inside.1.symm, inside.2.symm⟩

theorem isScope_entries (program : Program) (name : String) :
    IsScope program.name program.entries name ↔ ∃ scope ∈ program.scopes, scope.name = name := by
  constructor
  · rintro (rfl | ⟨parent, opened⟩)
    · have own : program.name ∈ program.scopes.map Scope.name := by
        rw [program.map_name_scopes]
        exact List.mem_cons_self
      obtain ⟨scope, member, same⟩ := List.mem_map.mp own
      exact ⟨scope, member, same⟩
    · obtain ⟨scope, member, same, _⟩ := program.exists_scope_of_opened opened
      exact ⟨scope, member, same⟩
  · rintro ⟨scope, member, rfl⟩
    rcases Block.scope_mem_entries _ _ _ _ program.block scope member with
      ⟨own, _⟩ | ⟨around, _, opened⟩
    · exact Or.inl own
    · exact Or.inr ⟨around, opened⟩

/-- The scope around a listed scope is the one that the ledger names. -/
theorem parent_eq_some_iff (program : Program)
    (kept : WellKept program.name program.entries) {scope : Scope}
    (member : scope ∈ program.scopes) (parent : String) :
    scope.parent = some parent ↔ Entry.scope scope.name parent ∈ program.entries := by
  rcases Block.scope_mem_entries _ _ _ _ program.block scope member with
    ⟨own, outermost⟩ | ⟨around, enclosed, opened⟩
  · rw [outermost, own]
    constructor
    · intro impossible
      cases impossible
    · intro opened
      exact absurd opened (kept.root_not_opened parent)
  · rw [enclosed]
    constructor
    · intro same
      injection same with same
      exact same ▸ opened
    · intro again
      have same := kept.eq_of_key_eq opened again rfl
      injection same with _ parents
      rw [parents]

/-- The declarations of a program are fresh in their order exactly if its scope names are distinct,
the names in each scope are distinct, and no name is that of a type. -/
theorem extends_entries_iff (program : Program) :
    Extends program.name [] program.entries
      ↔ (program.scopes.map Scope.name).Nodup
        ∧ ∀ scope ∈ program.scopes, (scope.symbols.map Prod.fst).Nodup
          ∧ ∀ entry ∈ scope.symbols, ∀ dataType : DataType, dataType.name ≠ entry.1 := by
  have keys := (program.entries_perm.map Entry.key).nodup_iff
  have apart : program.scopes.Pairwise
      (Function.onFun List.Disjoint fun scope => scope.entries.map Entry.key)
      ↔ (program.scopes.map Scope.name).Nodup := by
    rw [List.Nodup, List.pairwise_map]
    exact List.Pairwise.iff fun first second => first.disjoint_keys second
  rw [List.map_flatMap, List.nodup_flatMap, apart, List.map_cons, List.nodup_cons] at keys
  simp only [Scope.nodup_keys] at keys
  rw [extends_iff]
  constructor
  · rintro ⟨free, distinct, _⟩
    have unopened : Entry.key (.scope program.name program.name)
        ∉ program.entries.map Entry.key := by
      intro again
      obtain ⟨entry, member, same⟩ := List.mem_map.mp again
      cases entry with
      | scope name parent =>
          injection same with names
          exact free _ member names
      | symbol place name meaning =>
          injection same with _ kinds
          cases kinds
    obtain ⟨each, scopes⟩ := keys.mpr ⟨unopened, distinct⟩
    refine ⟨scopes, fun scope member => ⟨each scope member, ?_⟩⟩
    intro entry inside dataType reserved
    exact free _ ((program.symbol_mem_entries scope.name entry.1 entry.2).mpr
      ⟨scope, member, rfl, inside⟩) ⟨dataType, reserved⟩
  · rintro ⟨scopes, each⟩
    obtain ⟨unopened, distinct⟩ := keys.mp ⟨fun scope member => (each scope member).1, scopes⟩
    refine ⟨?_, distinct, by simp⟩
    intro entry member
    cases entry with
    | scope name parent =>
        rintro rfl
        exact unopened (List.mem_map.mpr ⟨_, member, rfl⟩)
    | symbol place name meaning =>
        rintro ⟨dataType, reserved⟩
        obtain ⟨scope, listed, _, inside⟩ :=
          (program.symbol_mem_entries place name meaning).mp member
        exact (each scope listed).2 (name, meaning) inside dataType reserved

end Program

end MiniPascal
