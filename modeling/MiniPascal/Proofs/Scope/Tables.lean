import Std.Data.TreeMap.Lemmas
import MiniPascal.Proofs.Scope.Ledger

/-! # What the tables of a scope tree hold

A scope tree is described by a ledger: it has a table for every scope of the ledger, each table
knows the built-in types and the names of its scope, and parents are the scopes around. Adding a
symbol or a scope to a tree adds an entry to its ledger, and is refused exactly if the entry is not
fresh. A procedure is looked up along the chain of open scopes. -/
set_option autoImplicit false
namespace MiniPascal

/-- The symbols of the built-in types. -/
def BuiltIn (name : String) (meaning : Symbol) : Prop :=
  ∃ dataType : DataType, dataType.name = name ∧ meaning = .typeName dataType

/-- A table holds the built-in types and what a ledger lists for one scope. -/
structure SymbolTable.Holds (ledger : List Entry) (scope : String) (table : SymbolTable) : Prop where
  name : table.name = scope
  find? : ∀ name meaning, table.find? name = some meaning
    ↔ BuiltIn name meaning ∨ Entry.symbol scope name meaning ∈ ledger

/-- A tree holds the scopes of a ledger, each with its names and the scope around it. -/
structure ScopeTree.Holds (root : String) (ledger : List Entry) (tree : ScopeTree) : Prop where
  outermost : tree.root = root
  scopes : ∀ scope, (tree.table? scope).isSome ↔ IsScope root ledger scope
  tables : ∀ scope table, tree.table? scope = some table → table.Holds ledger scope
  parents : ∀ scope parent, tree.parent? scope = some parent ↔ Entry.scope scope parent ∈ ledger
  size : tree.tables.size = ledger.countP Entry.opens + 1

namespace SymbolTable

theorem find?_insert (table : SymbolTable) (name other : String) (meaning : Symbol) :
    SymbolTable.find? { table with symbols := table.symbols.insert name meaning } other
      = if name = other then some meaning else table.find? other := by
  simp only [find?, Std.TreeMap.getElem?_insert, Std.LawfulEqOrd.compare_eq_iff_eq]

theorem find?_ofName (scope name : String) :
    (ofName scope).find? name
      = if "REAL" = name then some (.typeName .real)
        else if "INTEGER" = name then some (.typeName .integer) else none := by
  simp only [ofName, find?, DataType.all, List.foldl_cons, List.foldl_nil, DataType.name,
    Std.TreeMap.getElem?_insert, Std.LawfulEqOrd.compare_eq_iff_eq, Std.TreeMap.getElem?_emptyc]

theorem holds_ofName {ledger : List Entry} {scope : String}
    (unused : ∀ name meaning, Entry.symbol scope name meaning ∉ ledger) :
    (ofName scope).Holds ledger scope := by
  refine ⟨rfl, fun name meaning => ?_⟩
  rw [find?_ofName]
  simp only [unused, or_false, BuiltIn]
  constructor
  · intro found
    split at found
    · rename_i same
      exact ⟨.real, same, (Option.some.inj found).symm⟩
    · split at found
      · rename_i same
        exact ⟨.integer, same, (Option.some.inj found).symm⟩
      · cases found
  · rintro ⟨dataType, rfl, rfl⟩
    cases dataType <;> decide

/-- The built-in types are found in every table. -/
theorem Holds.find?_typeName {ledger : List Entry} {scope : String} {table : SymbolTable}
    (holds : table.Holds ledger scope) (dataType : DataType) :
    table.find? dataType.name = some (.typeName dataType) :=
  (holds.find? _ _).mpr (Or.inl ⟨dataType, rfl, rfl⟩)

/-- A name is free in a table exactly if its entry is fresh. -/
theorem Holds.find?_eq_none_iff {ledger : List Entry} {scope : String} {table : SymbolTable}
    (holds : table.Holds ledger scope) (root name : String) (meaning : Symbol) :
    table.find? name = none ↔ Fresh root ledger (.symbol scope name meaning) := by
  constructor
  · intro free
    refine ⟨?_, ?_⟩
    · rintro ⟨dataType, rfl⟩
      rw [holds.find?_typeName dataType] at free
      cases free
    · intro used
      obtain ⟨entry, member, same⟩ := List.mem_map.mp used
      cases entry with
      | scope other parent =>
          injection same with _ kinds
          cases kinds
      | symbol place other known =>
          injection same with places names
          injection names with names
          subst places names
          rw [(holds.find? other known).mpr (Or.inr member)] at free
          cases free
  · rintro ⟨free, unused⟩
    cases found : table.find? name with
    | none => rfl
    | some known =>
        rcases (holds.find? name known).mp found with ⟨dataType, reserved, _⟩ | member
        · exact absurd ⟨dataType, reserved⟩ free
        · exact absurd (List.mem_map.mpr ⟨_, member, rfl⟩) unused

/-- A table with one more name holds one more entry. -/
theorem Holds.insert {ledger : List Entry} {scope : String} {table : SymbolTable}
    (holds : table.Holds ledger scope) {root name : String} {meaning : Symbol}
    (fresh : Fresh root ledger (.symbol scope name meaning)) :
    SymbolTable.Holds (ledger ++ [.symbol scope name meaning]) scope
      { table with symbols := table.symbols.insert name meaning } := by
  refine ⟨holds.name, fun other known => ?_⟩
  rw [find?_insert]
  simp only [List.mem_append, List.mem_singleton, Entry.symbol.injEq, true_and]
  by_cases same : name = other
  · subst same
    have free := (holds.find?_eq_none_iff root name meaning).mpr fresh
    have absent : ¬ (BuiltIn name known ∨ Entry.symbol scope name known ∈ ledger) := by
      intro present
      rw [(holds.find? name known).mpr present] at free
      cases free
    rw [if_pos rfl, ← or_assoc, or_iff_right absent]
    simp [eq_comm]
  · rw [if_neg same, holds.find?]
    simp [Ne.symm same]

/-- A table holds more entries if those are of other scopes. -/
theorem Holds.append_other {ledger : List Entry} {scope : String} {table : SymbolTable}
    (holds : table.Holds ledger scope) {added : List Entry}
    (other : ∀ name meaning, Entry.symbol scope name meaning ∉ added) :
    table.Holds (ledger ++ added) scope := by
  refine ⟨holds.name, fun name meaning => ?_⟩
  rw [holds.find?]
  simp [other]

theorem define?_eq (table : SymbolTable) (name : String) (meaning : Symbol) :
    table.define? name meaning
      = if table.find? name = none then
          some { table with symbols := table.symbols.insert name meaning }
        else none := by
  cases found : table.symbols[name]? <;>
    simp [define?, find?, Std.TreeMap.contains_eq_isSome_getElem?, found]

/-- Defining variables one after the other refuses none exactly if their entries are fresh one
after the other, and the table then holds them too. -/
theorem Holds.defineAll (root scope : String) (meaning : Symbol) : ∀ (names : List String)
    (ledger : List Entry) (table : SymbolTable), table.Holds ledger scope →
      ((table.defineAll meaning names).2 = []
          ↔ Extends root ledger (names.map fun name => .symbol scope name meaning))
        ∧ ((table.defineAll meaning names).2 = [] →
          (table.defineAll meaning names).1.Holds
            (ledger ++ names.map fun name => .symbol scope name meaning) scope) := by
  intro names
  induction names with
  | nil =>
      intro ledger table holds
      simpa [SymbolTable.defineAll, Extends] using holds
  | cons name rest ih =>
      intro ledger table holds
      have free := holds.find?_eq_none_iff root name meaning
      by_cases fresh : Fresh root ledger (.symbol scope name meaning)
      · have defined : table.define? name meaning
            = some { table with symbols := table.symbols.insert name meaning } := by
          rw [define?_eq, if_pos (free.mpr fresh)]
        simp only [SymbolTable.defineAll, defined, List.map_cons, Extends, fresh, true_and]
        simpa only [List.append_assoc, List.singleton_append] using ih _ _ (holds.insert fresh)
      · have refused : table.define? name meaning = none := by
          rw [define?_eq, if_neg (fun none => fresh (free.mp none))]
        simp [SymbolTable.defineAll, refused, Extends, fresh]

theorem Holds.procedure?_eq_some_iff {ledger : List Entry} {scope : String} {table : SymbolTable}
    (holds : table.Holds ledger scope) (name : String) (header : ProcedureHeader) :
    table.procedure? name = some header ↔ Entry.symbol scope name (.procedure header) ∈ ledger := by
  have found := holds.find? name (.procedure header)
  have notType : ¬ BuiltIn name (.procedure header) := by
    rintro ⟨_, _, same⟩
    cases same
  rw [or_iff_right notType] at found
  rw [← found, procedure?]
  split
  · rename_i known same
    simp [same]
  · rename_i other
    constructor
    · intro impossible
      cases impossible
    · intro same
      exact absurd same (other header)

end SymbolTable

/-! ## Trees -/

/-- Open scopes from the inside out, up to the program's own. -/
def Lineage (root : String) (ledger : List Entry) : List String → Prop
  | [] => False
  | [scope] => scope = root
  | scope :: parent :: rest =>
    Entry.scope scope parent ∈ ledger ∧ Lineage root ledger (parent :: rest)

theorem Lineage.append {root : String} {ledger : List Entry} (added : List Entry) :
    ∀ {opened : List String}, Lineage root ledger opened → Lineage root (ledger ++ added) opened
  | [], lineage => lineage
  | [_], lineage => lineage
  | _ :: _ :: _, ⟨opened, lineage⟩ =>
    ⟨List.mem_append_left _ opened, Lineage.append added lineage⟩

theorem Lineage.isScope {root : String} {ledger : List Entry} :
    ∀ {opened : List String}, Lineage root ledger opened → ∀ scope ∈ opened, IsScope root ledger scope
  | [], _, _, member => by cases member
  | [_], same, scope, member => by
    rw [List.mem_singleton.mp member]
    exact Or.inl same
  | first :: parent :: rest, ⟨opened, lineage⟩, scope, member => by
    rcases List.mem_cons.mp member with rfl | member
    · exact Or.inr ⟨parent, opened⟩
    · exact lineage.isScope scope member

namespace ScopeTree

variable {root : String} {ledger : List Entry} {tree : ScopeTree}

theorem table?_setTable (tree : ScopeTree) (scope other : String) (table : SymbolTable) :
    (tree.setTable scope table).table? other
      = if scope = other then some table else tree.table? other := by
  simp only [setTable, table?, Std.TreeMap.getElem?_insert, Std.LawfulEqOrd.compare_eq_iff_eq]

theorem holds_ofRoot (root : String) : (ofRoot root).Holds root [] := by
  have tables : ∀ scope, (ofRoot root).table? scope
      = if root = scope then some (SymbolTable.ofName root) else none := by
    intro scope
    simp only [ofRoot, table?, Std.TreeMap.getElem?_insert, Std.LawfulEqOrd.compare_eq_iff_eq,
      Std.TreeMap.getElem?_emptyc]
  refine ⟨rfl, ?_, ?_, ?_, ?_⟩
  · intro scope
    rw [tables, IsScope]
    by_cases same : root = scope <;> simp [same, eq_comm]
  · intro scope table found
    rw [tables] at found
    split at found
    · rename_i same
      injection found with found
      subst same found
      exact SymbolTable.holds_ofName (by simp)
    · cases found
  · intro scope parent
    simp [ofRoot, parent?]
  · simp [ofRoot, Std.TreeMap.size_insert]

theorem Holds.exists_table (holds : tree.Holds root ledger) {scope : String}
    (known : IsScope root ledger scope) :
    ∃ table, tree.table? scope = some table ∧ table.Holds ledger scope := by
  obtain ⟨table, found⟩ := Option.isSome_iff_exists.mp ((holds.scopes scope).mpr known)
  exact ⟨table, found, holds.tables scope table found⟩

/-- A tree holds more names of one scope once the scope's table does. -/
theorem Holds.setTable (holds : tree.Holds root ledger) {scope : String} {table : SymbolTable}
    {added : List Entry} (known : IsScope root ledger scope)
    (names : ∀ entry ∈ added, ∃ name meaning, entry = .symbol scope name meaning)
    (more : table.Holds (ledger ++ added) scope) :
    (tree.setTable scope table).Holds root (ledger ++ added) := by
  have opensNone : ∀ name parent, Entry.scope name parent ∉ added := by
    intro name parent member
    obtain ⟨_, _, same⟩ := names _ member
    cases same
  refine ⟨holds.outermost, ?_, ?_, ?_, ?_⟩
  · intro other
    have same : IsScope root (ledger ++ added) other ↔ IsScope root ledger other := by
      simp [IsScope, opensNone]
    rw [same, table?_setTable, ← holds.scopes]
    split
    · rename_i here
      subst here
      simp [(holds.scopes scope).mpr known]
    · rfl
  · intro other found
    rw [table?_setTable]
    split
    · rename_i here
      rintro ⟨rfl⟩
      exact here ▸ more
    · rename_i elsewhere
      intro unchanged
      refine (holds.tables other found unchanged).append_other fun name meaning member => ?_
      obtain ⟨_, _, same⟩ := names _ member
      injection same with places
      exact elsewhere places.symm
  · intro other parent
    rw [List.mem_append, or_iff_left (opensNone other parent)]
    exact holds.parents other parent
  · have none : added.countP Entry.opens = 0 := by
      rw [List.countP_eq_zero]
      intro entry member
      obtain ⟨_, _, same⟩ := names _ member
      simp [same, Entry.opens]
    have kept : tree.tables.contains scope = true := by
      rw [Std.TreeMap.contains_eq_isSome_getElem?]
      exact (holds.scopes scope).mpr known
    rw [List.countP_append, none, Nat.add_zero, ← holds.size]
    simp [ScopeTree.setTable, Std.TreeMap.size_insert, kept]

/-- A name can be defined in an open scope exactly if its entry is fresh. -/
theorem Holds.define? (holds : tree.Holds root ledger) {scope : String}
    (known : IsScope root ledger scope) (name : String) (meaning : Symbol) :
    (Fresh root ledger (.symbol scope name meaning) →
        ∃ defined, tree.define? scope name meaning = some defined
          ∧ defined.Holds root (ledger ++ [.symbol scope name meaning]))
      ∧ (¬ Fresh root ledger (.symbol scope name meaning) →
        tree.define? scope name meaning = none) := by
  obtain ⟨table, found, held⟩ := holds.exists_table known
  have free := held.find?_eq_none_iff root name meaning
  constructor
  · intro fresh
    refine ⟨_, ?_, holds.setTable known (by simp) (held.insert fresh)⟩
    simp [ScopeTree.define?, found, SymbolTable.define?_eq, free.mpr fresh]
  · intro stale
    have taken : ¬ table.find? name = none := fun none => stale (free.mp none)
    simp [ScopeTree.define?, found, SymbolTable.define?_eq, taken]

theorem fresh_scope_iff (root : String) (ledger : List Entry) (name parent : String) :
    Fresh root ledger (.scope name parent) ↔ ¬ IsScope root ledger name := by
  simp only [Fresh, Entry.Reserved, IsScope, not_or, List.mem_map, Entry.key]
  refine and_congr_right fun _ => not_congr ?_
  constructor
  · rintro ⟨entry, member, same⟩
    cases entry with
    | scope other around =>
        injection same with names
        exact ⟨around, names ▸ member⟩
    | symbol place other meaning =>
        injection same with _ kinds
        cases kinds
  · rintro ⟨around, member⟩
    exact ⟨_, member, rfl⟩

/-- A scope can be opened exactly if its entry is fresh. -/
theorem Holds.addScope? (holds : tree.Holds root ledger) (name parent : String)
    (placed : ∀ place other meaning, Entry.symbol place other meaning ∈ ledger →
      IsScope root ledger place) :
    (Fresh root ledger (.scope name parent) →
        ∃ added, tree.addScope? name parent = some added
          ∧ added.Holds root (ledger ++ [.scope name parent]))
      ∧ (¬ Fresh root ledger (.scope name parent) → tree.addScope? name parent = none) := by
  rw [fresh_scope_iff, ← holds.scopes, ScopeTree.addScope?,
    Std.TreeMap.contains_eq_isSome_getElem?]
  constructor
  · intro absent
    have missing : tree.tables.contains name = false := by
      rw [Std.TreeMap.contains_eq_isSome_getElem?]
      exact Bool.eq_false_iff.mpr absent
    have unused : ∀ other meaning, Entry.symbol name other meaning ∉ ledger :=
      fun other meaning member => absent ((holds.scopes name).mpr (placed name other meaning member))
    refine ⟨_, if_neg absent, holds.outermost, ?_, ?_, ?_, ?_⟩
    · intro other
      have known := holds.scopes other
      simp only [table?, IsScope] at known
      simp only [table?, IsScope, Std.TreeMap.getElem?_insert, Std.LawfulEqOrd.compare_eq_iff_eq,
        List.mem_append, List.mem_singleton, Entry.scope.injEq]
      by_cases same : name = other
      · simp [same]
      · rw [if_neg same, known]
        simp [Ne.symm same]
    · intro other found
      simp only [table?, Std.TreeMap.getElem?_insert, Std.LawfulEqOrd.compare_eq_iff_eq]
      split
      · rename_i same
        rintro ⟨rfl⟩
        subst same
        exact SymbolTable.holds_ofName (by simp [unused])
      · intro unchanged
        exact (holds.tables other found unchanged).append_other (by simp)
    · intro other around
      have enclosed := holds.parents other around
      simp only [parent?] at enclosed
      simp only [parent?, Std.TreeMap.getElem?_insert, Std.LawfulEqOrd.compare_eq_iff_eq,
        List.mem_append, List.mem_singleton, Entry.scope.injEq]
      by_cases same : name = other
      · subst same
        have new : Entry.scope name around ∉ ledger := fun member =>
          absent ((holds.scopes name).mpr (Or.inr ⟨around, member⟩))
        simp [new, eq_comm]
      · simp [same, Ne.symm same, enclosed]
    · simp [Std.TreeMap.size_insert, missing, holds.size, Entry.opens]
  · intro present
    exact if_pos (not_not.mp present)

/-- The way from an open scope outwards leads through the scopes around it. -/
theorem Holds.pathWithin (holds : tree.Holds root ledger) (kept : WellKept root ledger) :
    ∀ (bound : Nat) (scope : String) (outer : List String), Lineage root ledger (scope :: outer) →
      outer.length < bound → tree.pathWithin bound scope = scope :: outer := by
  intro bound
  induction bound with
  | zero => intro scope outer _ impossible; omega
  | succ bound ih =>
      intro scope outer lineage short
      cases outer with
      | nil =>
          have outermost : tree.parent? scope = none := by
            cases found : tree.parent? scope with
            | none => rfl
            | some parent =>
                have opened := (holds.parents scope parent).mp found
                have same : scope = root := lineage
                exact absurd (same ▸ opened) (kept.root_not_opened parent)
          simp [ScopeTree.pathWithin, outermost]
      | cons parent rest =>
          have enclosed := (holds.parents scope parent).mpr lineage.1
          have further := ih parent rest lineage.2 (by simpa using short)
          simp [ScopeTree.pathWithin, enclosed, further]

/-- Where the places have one answer at most, the first answer is the only one. -/
theorem findSome?_eq_some_iff_of_unique {places : List String}
    {answer : String → Option ProcedureHeader} {Declares : String → ProcedureHeader → Prop}
    (answers : ∀ place ∈ places, ∀ known, answer place = some known ↔ Declares place known)
    {header : ProcedureHeader}
    (unique : ∀ place other known, Declares place header → Declares other known →
      header = known) :
    places.findSome? answer = some header ↔ ∃ place ∈ places, Declares place header := by
  constructor
  · intro first
    obtain ⟨place, member, here⟩ := List.exists_of_findSome?_eq_some first
    exact ⟨place, member, (answers place member header).mp here⟩
  · rintro ⟨place, member, declared⟩
    have some : (places.findSome? answer).isSome := by
      rw [List.findSome?_isSome_iff]
      exact ⟨place, member, by rw [(answers place member header).mpr declared]; rfl⟩
    obtain ⟨known, first⟩ := Option.isSome_iff_exists.mp some
    obtain ⟨other, among, here⟩ := List.exists_of_findSome?_eq_some first
    rw [first, unique place other known declared ((answers other among known).mp here)]

/-- A call from an open scope finds the procedure of the name that one of the open scopes declares.
There is at most one, so it does not matter which of them is the nearest. -/
theorem Holds.findProcedure?_eq_some_iff (holds : tree.Holds root ledger)
    (kept : WellKept root ledger) {scope : String} {outer : List String}
    (lineage : Lineage root ledger (scope :: outer))
    (short : outer.length ≤ ledger.countP Entry.opens)
    (name : String) (header : ProcedureHeader) :
    tree.findProcedure? scope name = some header
      ↔ ∃ place ∈ scope :: outer, Entry.symbol place name (.procedure header) ∈ ledger := by
  have path : tree.path scope = scope :: outer :=
    holds.pathWithin kept _ scope outer lineage (by rw [holds.size]; omega)
  rw [findProcedure?, path]
  apply findSome?_eq_some_iff_of_unique
  · intro place member known
    obtain ⟨table, present, held⟩ := holds.exists_table (lineage.isScope place member)
    rw [present]
    exact held.procedure?_eq_some_iff name known
  · intro place other known declared further
    exact (kept.procedure_unique declared further).2

end ScopeTree
end MiniPascal
