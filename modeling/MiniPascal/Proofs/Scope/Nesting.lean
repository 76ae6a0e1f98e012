import MiniPascal.Proofs.Scope.StatementParts

/-! # How scopes are nested

A scope is only ever added inside a scope that is there, and under a name that no scope has. So the
parents lead from every scope to the outermost one: a new scope comes in front of the way of its
parent, and no way that was there before changes. The search for a procedure follows this way, whose
length is what the lookup is bounded by. An analysis keeps the scopes nested whatever a program
declares, and the scope in which it declares something has a table. -/
set_option autoImplicit false
namespace MiniPascal

namespace ScopeTree

/-- The trees that come about from a single scope by defining names and by adding scopes inside of
scopes that are there. What is refused changes nothing. -/
inductive Grown (root : String) : ScopeTree → Prop
  | single : Grown root (ofRoot root)
  | define {tree : ScopeTree} (scope name : String) (meaning : Symbol) :
      Grown root tree → Grown root ((tree.define? scope name meaning).getD tree)
  | addScope {tree : ScopeTree} (name parent : String) :
      Grown root tree → (tree.table? parent).isSome →
      Grown root ((tree.addScope? name parent).getD tree)

/-- The way from a scope outwards, by parents, up to a scope that has none. -/
inductive Way (tree : ScopeTree) : String → List String → Prop
  | last {scope : String} : tree.parent? scope = none → Way tree scope [scope]
  | further {scope parent : String} {rest : List String} :
      tree.parent? scope = some parent → Way tree parent rest → Way tree scope (scope :: rest)

/-- A tree in which scopes are nested. A way of no more names than there are scopes has fewer steps
than that. -/
structure Rooted (root : String) (tree : ScopeTree) : Prop where
  outermost : tree.root = root ∧ (tree.table? root).isSome ∧ tree.parent? root = none
  named : ∀ scope table, tree.table? scope = some table → table.name = scope
  typed : ∀ scope table, tree.table? scope = some table →
    ∀ dataType : DataType, table.find? dataType.name = some (.typeName dataType)
  enclosed : ∀ scope, (tree.table? scope).isSome → scope ≠ root →
    ∃ parent, tree.parent? scope = some parent
  encloses : ∀ scope parent, tree.parent? scope = some parent →
    (tree.table? scope).isSome ∧ (tree.table? parent).isSome
  ways : ∀ scope, (tree.table? scope).isSome → ∃ path, tree.Way scope path
    ∧ path.getLast? = some root ∧ path.length ≤ tree.tables.size

/-- The name stands for a procedure in the table of the scope. -/
def Knows (tree : ScopeTree) (scope name : String) (header : ProcedureHeader) : Prop :=
  ∃ table, tree.table? scope = some table ∧ table.find? name = some (.procedure header)

/-- A search for a procedure by parents, however long it takes, with its result. Other symbols of
the name are passed by. -/
inductive Searches (tree : ScopeTree) (name : String) :
    Option String → Option ProcedureHeader → Prop
  | outside : Searches tree name none none
  | found {scope : String} {header : ProcedureHeader} :
      tree.Knows scope name header → Searches tree name (some scope) (some header)
  | onward {scope : String} {result : Option ProcedureHeader} :
      (∀ header, ¬ tree.Knows scope name header) →
      Searches tree name (tree.parent? scope) result → Searches tree name (some scope) result

/-- The search from a scope comes to an end, with the nearest procedure of the name on the way
outwards, or with nothing if there is none on it. -/
structure Resolves (tree : ScopeTree) (scope name : String) : Prop where
  searches : ∀ result, tree.Searches name (some scope) result
    ↔ result = tree.findProcedure? scope name
  nearest : ∀ header, tree.findProcedure? scope name = some header
    ↔ ∃ nearer place further, tree.Way scope (nearer ++ place :: further)
      ∧ tree.Knows place name header ∧ ∀ other ∈ nearer, ∀ known, ¬ tree.Knows other name known
  missing : tree.findProcedure? scope name = none
    ↔ ∃ path, tree.Way scope path ∧ ∀ place ∈ path, ∀ header, ¬ tree.Knows place name header

end ScopeTree

/-! ## Tables -/

namespace SymbolTable

/-- A table under its own name, which still knows the built-in types. -/
structure Typed (scope : String) (table : SymbolTable) : Prop where
  name : table.name = scope
  types : ∀ dataType : DataType, table.find? dataType.name = some (.typeName dataType)

theorem typed_ofName (scope : String) : (ofName scope).Typed scope :=
  ⟨rfl, fun dataType => by rw [find?_ofName]; cases dataType <;> decide⟩

/-- A name that can be defined is none of a type. -/
theorem Typed.insert {scope : String} {table : SymbolTable} (typed : table.Typed scope)
    {name : String} (free : table.find? name = none) (meaning : Symbol) :
    Typed scope { table with symbols := table.symbols.insert name meaning } := by
  refine ⟨typed.name, fun dataType => ?_⟩
  have other : name ≠ dataType.name := by
    rintro rfl
    rw [typed.types] at free
    cases free
  rw [find?_insert, if_neg other, typed.types]

/-- Some of the names are new and defined, and the others are taken. -/
structure Defines (before after : SymbolTable) (meaning : Symbol) (names taken : List String)
    (defined : List String) : Prop where
  name : after.name = before.name
  split : names.Perm (defined ++ taken)
  once : defined.Nodup
  free : ∀ name ∈ defined, before.find? name = none
  found : ∀ name, after.find? name
    = if name ∈ defined then some meaning else before.find? name
  refused : ∀ name ∈ taken, (before.find? name).isSome ∨ name ∈ defined

/-- A free name is defined in front of the others. -/
theorem Defines.cons {table after : SymbolTable} {meaning : Symbol} {name : String}
    {rest taken defined : List String} (known : table.find? name = none)
    (defines : Defines { table with symbols := table.symbols.insert name meaning } after meaning
      rest taken defined) :
    table.Defines after meaning (name :: rest) taken (name :: defined) := by
  have looked : ∀ other, SymbolTable.find?
      { table with symbols := table.symbols.insert name meaning } other
        = if name = other then some meaning else table.find? other :=
    fun other => find?_insert table name other meaning
  have fresh : name ∉ defined := by
    intro member
    have free := defines.free name member
    rw [looked, if_pos rfl] at free
    cases free
  refine ⟨defines.name, defines.split.cons name, List.nodup_cons.mpr ⟨fresh, defines.once⟩,
    ?_, ?_, ?_⟩
  · intro other member
    rcases List.mem_cons.mp member with rfl | member
    · exact known
    · have free := defines.free other member
      have different : name ≠ other := by
        rintro rfl
        exact fresh member
      rwa [looked, if_neg different] at free
  · intro other
    rw [defines.found, looked]
    by_cases same : other = name
    · simp [same]
    · simp [same, Ne.symm same]
  · intro other member
    rcases defines.refused other member with there | there
    · rw [looked] at there
      by_cases same : name = other
      · exact .inr (same ▸ List.mem_cons_self)
      · rw [if_neg same] at there
        exact .inl there
    · exact .inr (List.mem_cons_of_mem _ there)

/-- A name that stands for something already is taken. -/
theorem Defines.skip {table after : SymbolTable} {meaning : Symbol} {name : String}
    {rest taken defined : List String} (known : (table.find? name).isSome)
    (defines : table.Defines after meaning rest taken defined) :
    table.Defines after meaning (name :: rest) (name :: taken) defined := by
  refine ⟨defines.name, (defines.split.cons name).trans List.perm_middle.symm, defines.once,
    defines.free, defines.found, fun again member => ?_⟩
  rcases List.mem_cons.mp member with rfl | member
  · exact .inl known
  · exact defines.refused again member

/-- Every name is either defined or reported as taken. -/
theorem defines_defineAll (meaning : Symbol) : ∀ (names : List String) (table : SymbolTable),
    ∃ defined, table.Defines (table.defineAll meaning names).1 meaning names
      (table.defineAll meaning names).2 defined := by
  intro names
  induction names with
  | nil =>
      intro table
      exact ⟨[], rfl, .refl [], List.nodup_nil, by simp, by simp [defineAll], by simp [defineAll]⟩
  | cons name rest ih =>
      intro table
      cases known : table.find? name with
      | none =>
          obtain ⟨defined, defines⟩ :=
            ih { table with symbols := table.symbols.insert name meaning }
          rw [defineAll, define?_eq, if_pos known]
          exact ⟨name :: defined, defines.cons known⟩
      | some other =>
          obtain ⟨defined, defines⟩ := ih table
          rw [defineAll, define?_eq, known, if_neg (Option.some_ne_none other)]
          exact ⟨defined, defines.skip (by rw [known]; rfl)⟩

theorem Defines.typed {before after : SymbolTable} {meaning : Symbol}
    {names taken defined : List String} {scope : String}
    (defines : before.Defines after meaning names taken defined) (typed : before.Typed scope) :
    after.Typed scope := by
  refine ⟨defines.name.trans typed.name, fun dataType => ?_⟩
  have kept : dataType.name ∉ defined := by
    intro member
    have free := defines.free _ member
    rw [typed.types] at free
    cases free
  rw [defines.found, if_neg kept, typed.types]

end SymbolTable

/-! ## Trees -/

namespace ScopeTree

variable {root : String} {tree : ScopeTree}

theorem Way.unique {scope : String} {path other : List String} (way : tree.Way scope path)
    (again : tree.Way scope other) : path = other := by
  induction way generalizing other with
  | last outermost =>
      cases again with
      | last _ => rfl
      | further enclosed _ =>
          rw [outermost] at enclosed
          cases enclosed
  | further enclosed _ ih =>
      cases again with
      | last outermost =>
          rw [outermost] at enclosed
          cases enclosed
      | further around way =>
          rw [enclosed] at around
          cases around
          rw [ih way]

theorem Way.pathWithin {scope : String} {path : List String} (way : tree.Way scope path) :
    ∀ {bound : Nat}, path.length ≤ bound → tree.pathWithin bound scope = path := by
  induction way with
  | last outermost =>
      intro bound short
      cases bound with
      | zero => cases short
      | succ bound => simp [ScopeTree.pathWithin, outermost]
  | further enclosed _ ih =>
      intro bound short
      cases bound with
      | zero => cases short
      | succ bound => simp [ScopeTree.pathWithin, enclosed, ih (Nat.le_of_succ_le_succ short)]

/-- Ways depend on the parents alone, and only on those of the scopes that are there. -/
theorem Way.transfer {other : ScopeTree} {scope : String} {path : List String}
    (way : tree.Way scope path) (known : (tree.table? scope).isSome)
    (closed : ∀ scope parent, tree.parent? scope = some parent → (tree.table? parent).isSome)
    (same : ∀ scope, (tree.table? scope).isSome → other.parent? scope = tree.parent? scope) :
    other.Way scope path := by
  induction way with
  | last outermost => exact .last ((same _ known).trans outermost)
  | further enclosed _ ih =>
      exact .further ((same _ known).trans enclosed) (ih (closed _ _ enclosed))

theorem Rooted.typed_table (rooted : tree.Rooted root) {scope : String} {table : SymbolTable}
    (found : tree.table? scope = some table) : table.Typed scope :=
  ⟨rooted.named scope table found, rooted.typed scope table found⟩

theorem rooted_ofRoot (root : String) : (ofRoot root).Rooted root := by
  have tables : ∀ scope, (ofRoot root).table? scope
      = if root = scope then some (SymbolTable.ofName root) else none := by
    intro scope
    simp only [ofRoot, table?, Std.TreeMap.getElem?_insert, Std.LawfulEqOrd.compare_eq_iff_eq,
      Std.TreeMap.getElem?_emptyc]
  have parents : ∀ scope, (ofRoot root).parent? scope = none := by
    simp [ofRoot, parent?]
  have typed : ∀ scope table, (ofRoot root).table? scope = some table → table.Typed scope := by
    intro scope table found
    rw [tables] at found
    split at found
    · rename_i here
      cases found
      exact here ▸ SymbolTable.typed_ofName root
    · cases found
  have alone : ∀ scope, ((ofRoot root).table? scope).isSome → root = scope := by
    intro scope known
    rw [tables] at known
    by_contra other
    rw [if_neg other] at known
    cases known
  refine ⟨⟨rfl, by rw [tables, if_pos rfl]; rfl, parents root⟩,
    fun scope table found => (typed scope table found).name,
    fun scope table found => (typed scope table found).types,
    fun scope known other => absurd (alone scope known).symm other,
    fun scope parent enclosed => ?_, fun scope known => ?_⟩
  · rw [parents] at enclosed
    cases enclosed
  · cases alone scope known
    exact ⟨[root], .last (parents root), rfl, by simp [ofRoot, Std.TreeMap.size_insert]⟩

/-- A table that is put in the place of another changes nothing about the nesting. -/
theorem Rooted.setTable (rooted : tree.Rooted root) {scope : String} {table : SymbolTable}
    (known : (tree.table? scope).isSome) (typed : table.Typed scope) :
    (tree.setTable scope table).Rooted root := by
  have scopes : ∀ other, ((tree.setTable scope table).table? other).isSome
      ↔ (tree.table? other).isSome := by
    intro other
    rw [table?_setTable]
    split
    · rename_i here
      simp [← here, known]
    · rfl
  have tables : ∀ other found, (tree.setTable scope table).table? other = some found →
      found.Typed other := by
    intro other found same
    rw [table?_setTable] at same
    split at same
    · rename_i here
      cases same
      exact here ▸ typed
    · exact rooted.typed_table same
  obtain ⟨name, outermost, alone⟩ := rooted.outermost
  refine ⟨⟨name, (scopes root).mpr outermost, alone⟩,
    fun other found same => (tables other found same).name,
    fun other found same => (tables other found same).types,
    fun other there => rooted.enclosed other ((scopes other).mp there), ?_, ?_⟩
  · intro other parent enclosed
    obtain ⟨inner, outer⟩ := rooted.encloses other parent enclosed
    exact ⟨(scopes other).mpr inner, (scopes parent).mpr outer⟩
  · intro other there
    obtain ⟨path, way, last, short⟩ := rooted.ways other ((scopes other).mp there)
    have size : (tree.setTable scope table).tables.size = tree.tables.size := by
      have kept : tree.tables.contains scope = true := by
        rw [Std.TreeMap.contains_eq_isSome_getElem?]
        exact known
      simp [ScopeTree.setTable, Std.TreeMap.size_insert, kept]
    exact ⟨path, way.transfer ((scopes other).mp there)
      (fun inner outer enclosed => (rooted.encloses inner outer enclosed).2) (fun _ _ => rfl),
      last, by rwa [size]⟩

/-- What a definition in a tree does. -/
theorem define?_eq (tree : ScopeTree) {scope : String} {table : SymbolTable}
    (found : tree.table? scope = some table) (name : String) (meaning : Symbol) :
    tree.define? scope name meaning = if table.find? name = none then
        some (tree.setTable scope { table with symbols := table.symbols.insert name meaning })
      else none := by
  rw [define?, found]
  by_cases free : table.find? name = none <;> simp [SymbolTable.define?_eq, free]

theorem Rooted.define? (rooted : tree.Rooted root) (scope name : String) (meaning : Symbol) :
    ((tree.define? scope name meaning).getD tree).Rooted root := by
  cases found : tree.table? scope with
  | none =>
      rw [ScopeTree.define?, found]
      exact rooted
  | some table =>
      rw [define?_eq tree found]
      split
      · rename_i free
        exact rooted.setTable (by rw [found]; rfl) ((rooted.typed_table found).insert free meaning)
      · exact rooted

/-- A scope is added under a name that no scope has, with the parent and the table of a new one. -/
structure Adds (before after : ScopeTree) (name parent : String) : Prop where
  root : after.root = before.root
  new : before.table? name = none
  tables : ∀ scope, after.table? scope
    = if name = scope then some (SymbolTable.ofName name) else before.table? scope
  parents : ∀ scope, after.parent? scope
    = if name = scope then some parent else before.parent? scope
  size : after.tables.size = before.tables.size + 1

theorem addScope?_cases (tree : ScopeTree) (name parent : String) :
    (tree.addScope? name parent = none ∧ (tree.table? name).isSome)
      ∨ ∃ added, tree.addScope? name parent = some added ∧ tree.Adds added name parent := by
  rw [ScopeTree.addScope?, Std.TreeMap.contains_eq_isSome_getElem?]
  cases found : tree.table? name with
  | some table =>
      have there : tree.tables[name]? = some table := found
      exact .inl ⟨by simp [there], rfl⟩
  | none =>
      have absent : tree.tables[name]? = none := found
      refine .inr ⟨_, if_neg (by simp [absent]), rfl, found, fun scope => ?_, fun scope => ?_, ?_⟩
      · simp only [table?, Std.TreeMap.getElem?_insert, Std.LawfulEqOrd.compare_eq_iff_eq]
      · simp only [parent?, Std.TreeMap.getElem?_insert, Std.LawfulEqOrd.compare_eq_iff_eq]
      · simp [Std.TreeMap.size_insert, Std.TreeMap.contains_eq_isSome_getElem?, absent]

namespace Adds

variable {added : ScopeTree} {name parent scope : String}

theorem isSome_table? (adds : tree.Adds added name parent) : (added.table? name).isSome := by
  rw [adds.tables, if_pos rfl]
  rfl

theorem ne_of_isSome (adds : tree.Adds added name parent) (there : (tree.table? scope).isSome) :
    name ≠ scope := by
  rintro rfl
  rw [adds.new] at there
  cases there

theorem table?_eq (adds : tree.Adds added name parent) (there : (tree.table? scope).isSome) :
    added.table? scope = tree.table? scope := by
  rw [adds.tables, if_neg (adds.ne_of_isSome there)]

theorem parent?_eq (adds : tree.Adds added name parent) (there : (tree.table? scope).isSome) :
    added.parent? scope = tree.parent? scope := by
  rw [adds.parents, if_neg (adds.ne_of_isSome there)]

theorem kept (adds : tree.Adds added name parent) (there : (tree.table? scope).isSome) :
    (added.table? scope).isSome := by
  rwa [adds.table?_eq there]

end Adds

/-- The way of a new scope is its name in front of the way of its parent. No other way changes, as
none of them leads through the new name. -/
theorem Rooted.of_adds (rooted : tree.Rooted root) {added : ScopeTree} {name parent : String}
    (known : (tree.table? parent).isSome) (adds : tree.Adds added name parent) :
    added.Rooted root := by
  have tables : ∀ scope table, added.table? scope = some table → table.Typed scope := by
    intro scope table found
    rw [adds.tables] at found
    split at found
    · rename_i here
      cases found
      exact here ▸ SymbolTable.typed_ofName name
    · exact rooted.typed_table found
  have way : ∀ scope, (tree.table? scope).isSome → ∃ path, added.Way scope path
      ∧ path.getLast? = some root ∧ path.length ≤ tree.tables.size := by
    intro scope there
    obtain ⟨path, way, last, short⟩ := rooted.ways scope there
    exact ⟨path, way.transfer there
      (fun inner outer enclosed => (rooted.encloses inner outer enclosed).2)
      (fun _ there => adds.parent?_eq there), last, short⟩
  have here : added.parent? name = some parent := by rw [adds.parents, if_pos rfl]
  obtain ⟨outermost, there, alone⟩ := rooted.outermost
  refine ⟨⟨adds.root.trans outermost, adds.kept there, (adds.parent?_eq there).trans alone⟩,
    fun scope table found => (tables scope table found).name,
    fun scope table found => (tables scope table found).types, ?_, ?_, ?_⟩
  · intro scope there inner
    by_cases same : name = scope
    · exact ⟨parent, same ▸ here⟩
    · rw [adds.tables, if_neg same] at there
      obtain ⟨around, enclosed⟩ := rooted.enclosed scope there inner
      exact ⟨around, (adds.parent?_eq there).trans enclosed⟩
  · intro scope around enclosed
    rw [adds.parents] at enclosed
    split at enclosed
    · rename_i same
      cases enclosed
      exact ⟨same ▸ adds.isSome_table?, adds.kept known⟩
    · obtain ⟨inner, outer⟩ := rooted.encloses scope around enclosed
      exact ⟨adds.kept inner, adds.kept outer⟩
  · intro scope there
    rw [adds.size]
    by_cases same : name = scope
    · subst same
      obtain ⟨path, outwards, last, short⟩ := way parent known
      refine ⟨name :: path, .further here outwards, ?_, by simpa using short⟩
      rw [List.getLast?_cons, last]
      rfl
    · rw [adds.tables, if_neg same] at there
      obtain ⟨path, outwards, last, short⟩ := way scope there
      exact ⟨path, outwards, last, Nat.le_succ_of_le short⟩

theorem Rooted.addScope? (rooted : tree.Rooted root) (name : String) {parent : String}
    (known : (tree.table? parent).isSome) :
    ((tree.addScope? name parent).getD tree).Rooted root := by
  rcases tree.addScope?_cases name parent with ⟨refused, _⟩ | ⟨added, done, adds⟩
  · rw [refused]
    exact rooted
  · rw [done]
    exact rooted.of_adds known adds

theorem Grown.rooted (grown : tree.Grown root) : tree.Rooted root := by
  induction grown with
  | single => exact rooted_ofRoot root
  | define scope name meaning _ ih => exact ih.define? scope name meaning
  | addScope name parent _ known ih => exact ih.addScope? name known

/-! ## The search for a procedure -/

/-- The procedure that a name stands for in one scope. -/
def procedureAt? (tree : ScopeTree) (name scope : String) : Option ProcedureHeader :=
  match tree.table? scope with
  | some table => table.procedure? name
  | none => none

theorem procedureAt?_eq_some_iff (name scope : String) (header : ProcedureHeader) :
    tree.procedureAt? name scope = some header ↔ tree.Knows scope name header := by
  rw [procedureAt?, Knows]
  cases tree.table? scope with
  | none => simp
  | some table =>
      cases found : table.find? name with
      | none => simp [SymbolTable.procedure?, found]
      | some meaning => cases meaning <;> simp [SymbolTable.procedure?, found]

theorem procedureAt?_eq_none_iff (name scope : String) :
    tree.procedureAt? name scope = none ↔ ∀ header, ¬ tree.Knows scope name header := by
  simp only [Option.eq_none_iff_forall_ne_some, ne_eq, procedureAt?_eq_some_iff]

/-- A search along a way ends with the first procedure on it. -/
theorem Way.searches {scope : String} {path : List String} (way : tree.Way scope path)
    (name : String) :
    tree.Searches name (some scope) (path.findSome? (tree.procedureAt? name)) := by
  induction way with
  | @last scope outermost =>
      rw [List.findSome?_singleton]
      cases here : tree.procedureAt? name scope with
      | some header => exact .found ((procedureAt?_eq_some_iff name scope header).mp here)
      | none =>
          refine .onward ((procedureAt?_eq_none_iff name scope).mp here) ?_
          rw [outermost]
          exact .outside
  | @further scope parent rest enclosed _ ih =>
      rw [List.findSome?_cons]
      cases here : tree.procedureAt? name scope with
      | some header => exact .found ((procedureAt?_eq_some_iff name scope header).mp here)
      | none =>
          refine .onward ((procedureAt?_eq_none_iff name scope).mp here) ?_
          rw [enclosed]
          exact ih

theorem Searches.unique {name : String} {start : Option String}
    {result other : Option ProcedureHeader} (search : tree.Searches name start result)
    (again : tree.Searches name start other) : result = other := by
  induction search generalizing other with
  | outside =>
      cases again
      rfl
  | found knows =>
      cases again with
      | found known =>
          rw [← procedureAt?_eq_some_iff] at knows known
          exact knows.symm.trans known
      | onward unknown _ => exact absurd knows (unknown _)
  | onward unknown _ ih =>
      cases again with
      | found known => exact absurd known (unknown _)
      | onward _ further => exact ih further

/-- The way from a name is no longer than the lookup looks, whether it is a scope or not. -/
theorem Rooted.way_path (rooted : tree.Rooted root) (scope : String) :
    tree.Way scope (tree.path scope) := by
  cases found : tree.table? scope with
  | some table =>
      obtain ⟨path, way, _, short⟩ := rooted.ways scope (by rw [found]; rfl)
      rwa [ScopeTree.path, way.pathWithin (Nat.le_succ_of_le short)]
  | none =>
      have alone : tree.parent? scope = none := by
        rw [Option.eq_none_iff_forall_ne_some]
        intro parent enclosed
        have there := (rooted.encloses scope parent enclosed).1
        rw [found] at there
        cases there
      have way : tree.Way scope [scope] := .last alone
      rwa [ScopeTree.path, way.pathWithin (Nat.succ_le_succ (Nat.zero_le _))]

theorem Rooted.resolves (rooted : tree.Rooted root) (scope name : String) :
    tree.Resolves scope name := by
  have way := rooted.way_path scope
  have search : tree.Searches name (some scope) (tree.findProcedure? scope name) :=
    way.searches name
  have lookup : tree.findProcedure? scope name
      = (tree.path scope).findSome? (tree.procedureAt? name) := rfl
  refine ⟨fun result => ⟨(·.unique search), (· ▸ search)⟩, fun header => ?_, ?_⟩
  · rw [lookup, List.findSome?_eq_some_iff]
    simp only [procedureAt?_eq_some_iff, procedureAt?_eq_none_iff]
    constructor
    · rintro ⟨nearer, place, further, split, knows, unknown⟩
      exact ⟨nearer, place, further, split ▸ way, knows, unknown⟩
    · rintro ⟨nearer, place, further, outwards, knows, unknown⟩
      exact ⟨nearer, place, further, way.unique outwards, knows, unknown⟩
  · rw [lookup, List.findSome?_eq_none_iff]
    simp only [procedureAt?_eq_none_iff]
    constructor
    · intro unknown
      exact ⟨tree.path scope, way, unknown⟩
    · rintro ⟨path, outwards, unknown⟩
      rwa [way.unique outwards]

end ScopeTree

/-! ## What a visit records -/

namespace Analysis

/-- Names are declared as variables of one type: each is defined in the open scope, or it is taken
and reported. -/
def Declares (before after : Analysis) (names : List String) (dataType : DataType) : Prop :=
  ∃ table changed taken defined, before.scopes.table? before.scope = some table
    ∧ after.scopes.table? before.scope = some changed
    ∧ table.Defines changed (.variable dataType) names taken defined
    ∧ after.diagnoses = before.diagnoses
      ++ if taken = [] then [] else [.alreadyDefined before.scope taken]

/-- A procedure is declared: its name is defined in the open scope unless it is taken, its scope is
added inside of that one unless it is there, and what is refused is reported. -/
def Opens (before after : Analysis) (procedure : Procedure) : Prop :=
  ∃ table changed, before.scopes.table? before.scope = some table
    ∧ after.scopes.table? before.scope = some changed
    ∧ (table.find? procedure.name = none →
      changed.find? procedure.name = some (.procedure procedure.header))
    ∧ (before.scopes.table? procedure.name = none →
      (after.scopes.table? procedure.name).isSome
        ∧ after.scopes.parent? procedure.name = some before.scope)
    ∧ after.opened = procedure.name :: before.opened
    ∧ after.diagnoses = before.diagnoses
      ++ if (before.scopes.table? procedure.name).isSome then
          [.duplicateScope procedure.name procedure.position]
        else if (table.find? procedure.name).isSome then
          [.alreadyDefined before.scope [procedure.name]]
        else []

/-- What a visit does to the tables. Only declarations change them. -/
def Recorded (before after : Analysis) : Visit → Prop
  | .varDeclStart decl =>
    before.Declares after (decl.names.map Variable.name) decl.typeSpec.dataType
  | .param param => before.Declares after [param.declared.name] param.typeSpec.dataType
  | .procedureStart procedure => before.Opens after procedure
  | _ => after.scopes = before.scopes

/-- A state whose scopes are nested, whose open scopes have tables, and which has not met an unknown
type. -/
structure Nested (root : String) (analysis : Analysis) : Prop where
  rooted : analysis.scopes.Rooted root
  opened : ∀ scope ∈ analysis.opened, (analysis.scopes.table? scope).isSome
  types : ∀ name position, Diagnosis.unknownType name position ∉ analysis.diagnoses

variable {root : String} {analysis : Analysis}

namespace Nested

theorem exists_table (nested : analysis.Nested root) :
    ∃ table, analysis.scopes.table? analysis.scope = some table ∧ table.Typed analysis.scope := by
  have there : (analysis.scopes.table? analysis.scope).isSome := by
    rw [scope]
    cases opened : analysis.opened with
    | nil =>
        rw [List.headD_nil, nested.rooted.outermost.1]
        exact nested.rooted.outermost.2.1
    | cons scope outer => exact nested.opened scope (by rw [opened]; exact List.mem_cons_self)
  obtain ⟨table, found⟩ := Option.isSome_iff_exists.mp there
  exact ⟨table, found, nested.rooted.typed_table found⟩

theorem checkType_eq_nil (nested : analysis.Nested root) (typeSpec : TypeSpec) :
    analysis.scopes.checkType analysis.scope typeSpec = [] := by
  obtain ⟨table, found, typed⟩ := nested.exists_table
  rw [ScopeTree.checkType, found, Option.bind_some, typed.types]

theorem report (nested : analysis.Nested root) {more : List Diagnosis}
    (types : ∀ name position, Diagnosis.unknownType name position ∉ more) :
    (analysis.report more).Nested root := by
  refine ⟨nested.rooted, nested.opened, fun name position member => ?_⟩
  rcases List.mem_append.mp member with before | new
  · exact nested.types name position before
  · exact types name position new

theorem declare (nested : analysis.Nested root) (names : List String) (dataType : DataType) :
    (analysis.declare names dataType).Nested root
      ∧ analysis.Declares (analysis.declare names dataType) names dataType := by
  obtain ⟨table, found, typed⟩ := nested.exists_table
  obtain ⟨defined, defines⟩ := table.defines_defineAll (.variable dataType) names
  rcases declared : table.defineAll (.variable dataType) names with ⟨changed, taken⟩
  rw [declared] at defines
  have same : analysis.declare names dataType
      = Analysis.report
        { analysis with scopes := analysis.scopes.setTable analysis.scope changed }
        (if taken = [] then [] else [.alreadyDefined analysis.scope taken]) := by
    simp only [Analysis.declare, found, declared, List.isEmpty_iff]
  have there : (analysis.scopes.table? analysis.scope).isSome := by rw [found]; rfl
  rw [same]
  constructor
  · have kept : Nested root
        { analysis with scopes := analysis.scopes.setTable analysis.scope changed } := by
      refine ⟨nested.rooted.setTable there (defines.typed typed), fun scope member => ?_,
        nested.types⟩
      rw [ScopeTree.table?_setTable]
      split
      · rfl
      · exact nested.opened scope member
    refine kept.report fun name position => ?_
    split <;> simp
  · refine ⟨table, changed, taken, defined, found, ?_, defines, rfl⟩
    exact (ScopeTree.table?_setTable ..).trans (if_pos rfl)

/-- The table of the open scope behind the definition of a procedure. No other table changes. -/
theorem exists_defined (nested : analysis.Nested root) (name : String) (meaning : Symbol) :
    ∃ table changed, analysis.scopes.table? analysis.scope = some table
      ∧ (table.find? name = none → changed.find? name = some meaning)
      ∧ ((analysis.scopes.define? analysis.scope name meaning).isNone
        ↔ (table.find? name).isSome)
      ∧ ∀ scope,
        ((analysis.scopes.define? analysis.scope name meaning).getD analysis.scopes).table? scope
          = if analysis.scope = scope then some changed else analysis.scopes.table? scope := by
  obtain ⟨table, found, _⟩ := nested.exists_table
  rw [ScopeTree.define?_eq _ found]
  by_cases free : table.find? name = none
  · refine ⟨table, { table with symbols := table.symbols.insert name meaning }, found, fun _ => ?_,
      by simp [free], fun scope => ?_⟩
    · rw [SymbolTable.find?_insert, if_pos rfl]
    · rw [if_pos free, Option.getD_some, ScopeTree.table?_setTable]
  · refine ⟨table, table, found, fun none => absurd none free, by
      simp [free, Option.isSome_iff_ne_none], fun scope => ?_⟩
    rw [if_neg free, Option.getD_none]
    split
    · rename_i here
      rw [← here, found]
    · rfl

end Nested

/-- The tree behind the definition of a procedure in the open scope, in front of its own scope. -/
def defining (analysis : Analysis) (procedure : Procedure) : ScopeTree :=
  (analysis.scopes.define? analysis.scope procedure.name (.procedure procedure.header)).getD
    analysis.scopes

theorem openProcedure_of_none (analysis : Analysis) (procedure : Procedure)
    (refused : (analysis.defining procedure).addScope? procedure.name analysis.scope = none) :
    analysis.openProcedure procedure = Analysis.report
      ⟨analysis.defining procedure, procedure.name :: analysis.opened, analysis.diagnoses⟩
      [.duplicateScope procedure.name procedure.position] := by
  rw [defining] at refused
  simp only [Analysis.openProcedure, refused]
  rfl

theorem openProcedure_of_some (analysis : Analysis) (procedure : Procedure) {added : ScopeTree}
    (done : (analysis.defining procedure).addScope? procedure.name analysis.scope = some added) :
    analysis.openProcedure procedure = Analysis.report
      ⟨added, procedure.name :: analysis.opened, analysis.diagnoses⟩
      (if (analysis.scopes.define? analysis.scope procedure.name
          (.procedure procedure.header)).isNone then
        [.alreadyDefined analysis.scope [procedure.name]] else []) := by
  rw [defining] at done
  simp only [Analysis.openProcedure, done]
  rfl

namespace Nested

/-- The scopes stay nested when a scope is opened that is there, in a tree that has all the scopes
there were. -/
theorem enter (nested : analysis.Nested root) {scopes : ScopeTree} {name : String}
    (rooted : scopes.Rooted root) (own : (scopes.table? name).isSome)
    (kept : ∀ scope, (analysis.scopes.table? scope).isSome → (scopes.table? scope).isSome) :
    Nested root ⟨scopes, name :: analysis.opened, analysis.diagnoses⟩ :=
  ⟨rooted, List.forall_mem_cons.mpr ⟨own, fun scope member =>
    kept scope (nested.opened scope member)⟩, nested.types⟩

theorem openProcedure (nested : analysis.Nested root) (procedure : Procedure) :
    (analysis.openProcedure procedure).Nested root
      ∧ analysis.Opens (analysis.openProcedure procedure) procedure := by
  obtain ⟨table, changed, found, defines, taken, looked⟩ :=
    nested.exists_defined procedure.name (.procedure procedure.header)
  let scopes := analysis.defining procedure
  have tables : ∀ scope, scopes.table? scope
      = if analysis.scope = scope then some changed else analysis.scopes.table? scope := looked
  have rooted : scopes.Rooted root := nested.rooted.define? _ _ _
  have here : scopes.table? analysis.scope = some changed := (tables _).trans (if_pos rfl)
  have kept : ∀ scope, (scopes.table? scope).isSome ↔ (analysis.scopes.table? scope).isSome := by
    intro scope
    rw [tables]
    split
    · rename_i here
      simp [← here, found]
    · rfl
  have around : (scopes.table? analysis.scope).isSome := (kept _).mpr (by rw [found]; rfl)
  rcases scopes.addScope?_cases procedure.name analysis.scope with
    ⟨refused, there⟩ | ⟨added, done, adds⟩
  · -- the procedure goes on in the scope that has its name
    have known := (kept _).mp there
    have entered := nested.enter rooted there fun scope => (kept scope).mpr
    rw [openProcedure_of_none analysis procedure refused]
    refine ⟨entered.report (by simp), table, changed, found, here, defines, fun none => ?_, rfl, ?_⟩
    · rw [none] at known
      cases known
    · rw [if_pos known]
      rfl
  · have new : ¬ (analysis.scopes.table? procedure.name).isSome := by
      rw [← kept, adds.new]
      exact Bool.false_ne_true
    have entered := nested.enter (rooted.of_adds around adds) adds.isSome_table?
      fun scope there => adds.kept ((kept scope).mpr there)
    rw [openProcedure_of_some analysis procedure done, if_congr taken rfl rfl]
    refine ⟨entered.report fun name position => ?_, table, changed, found,
      (adds.table?_eq around).trans here, defines, fun _ => ⟨adds.isSome_table?, ?_⟩, rfl, ?_⟩
    · split <;> simp
    · exact (adds.parents _).trans (if_pos rfl)
    · rw [if_neg new]
      rfl

theorem step (nested : analysis.Nested root) (visit : Visit) :
    (analysis.step visit).Nested root ∧ analysis.Recorded (analysis.step visit) visit := by
  have typed : ∀ typeSpec : TypeSpec,
      analysis.report (analysis.scopes.checkType analysis.scope typeSpec) = analysis := by
    intro typeSpec
    rw [nested.checkType_eq_nil typeSpec, Analysis.report, List.append_nil]
  cases visit with
  | varDeclStart decl =>
      rw [Analysis.step, typed]
      exact nested.declare _ _
  | param param =>
      rw [Analysis.step, typed]
      exact nested.declare _ _
  | procedureStart procedure => exact nested.openProcedure procedure
  | procedureEnd procedure =>
      exact ⟨⟨nested.rooted, fun scope member => nested.opened scope (List.mem_of_mem_tail member),
        nested.types⟩, rfl⟩
  | call id name position arguments =>
      refine ⟨nested.report fun other place => ?_, rfl⟩
      rw [ScopeTree.checkCall]
      split
      · split <;> simp
      · simp
  | used name =>
      refine ⟨nested.report fun other place => ?_, rfl⟩
      rw [ScopeTree.checkVariable]
      split <;> simp
  | _ => exact ⟨nested, rfl⟩

end Nested
end Analysis

/-! ## What is open -/

/-- What is open in front of the visits stays open behind each of them, and nothing else is open at
their end. -/
structure Contained (visits : List Visit) : Prop where
  closed : ∀ analysis : Analysis, (visits.foldl Analysis.step analysis).opened = analysis.opened
  within : ∀ (analysis : Analysis) (earlier : List Visit), earlier <+: visits →
    analysis.opened <:+ (earlier.foldl Analysis.step analysis).opened

namespace Contained

theorem of_flat {visits : List Visit} (flat : ∀ visit ∈ visits, visit.nests = false) :
    Contained visits := by
  refine ⟨Analysis.opened_foldl_of_flat flat, fun analysis earlier before => ?_⟩
  rw [Analysis.opened_foldl_of_flat fun visit member => flat visit (before.subset member)]

theorem of_refers {visits : List Visit} (refer : ∀ visit ∈ visits, visit.refers) :
    Contained visits := by
  refine of_flat fun visit member => ?_
  have refers := refer visit member
  cases visit <;> first | rfl | cases refers

theorem append {first second : List Visit} (contained : Contained first)
    (further : Contained second) : Contained (first ++ second) := by
  constructor
  · intro analysis
    rw [List.foldl_append, further.closed, contained.closed]
  · rintro analysis earlier ⟨later, split⟩
    rcases List.append_eq_append_iff.mp split with ⟨rest, whole, _⟩ | ⟨rest, rfl, whole⟩
    · exact contained.within analysis earlier ⟨rest, whole.symm⟩
    · rw [List.foldl_append, ← contained.closed analysis]
      exact further.within _ rest ⟨later, whole.symm⟩

/-- The visits of a procedure close the one scope that they open. -/
theorem bracket (procedure : Procedure) {inner : List Visit} (contained : Contained inner) :
    Contained (.procedureStart procedure :: inner ++ [.procedureEnd procedure]) := by
  have left : ∀ analysis : Analysis,
      ((Visit.procedureStart procedure :: inner ++ [Visit.procedureEnd procedure]).foldl
        Analysis.step analysis).opened = analysis.opened := by
    intro analysis
    rw [List.foldl_append]
    exact congrArg List.tail (contained.closed (analysis.step (.procedureStart procedure)))
  refine ⟨left, fun analysis earlier before => ?_⟩
  rcases List.prefix_concat_iff.mp before with rfl | before
  · rw [left]
  · rcases List.prefix_cons_iff.mp before with rfl | ⟨rest, rfl, inside⟩
    · exact List.suffix_rfl
    · have outer : analysis.opened <:+ (analysis.step (.procedureStart procedure)).opened :=
        List.suffix_cons procedure.name analysis.opened
      exact outer.trans (contained.within _ rest inside)

end Contained

mutual

theorem Block.contained : ∀ block : Block, Contained block.visits
  | ⟨id, declarations, procedures, body⟩ => by
    have declared : Contained (.blockStart ⟨id, declarations, procedures, body⟩
        :: declarations.flatMap VarDecl.visits) :=
      .of_flat (List.forall_mem_cons.mpr ⟨rfl, VarDecl.nests_of_mem_visits⟩)
    have statements : Contained body.visits := .of_refers body.refers_of_mem_visits
    exact ((declared.append (Procedure.contained_visitsOf procedures)).append statements).append
      (.of_flat (by simp [Visit.nests]))

theorem Procedure.contained_visitsOf : ∀ procedures : List Procedure,
    Contained (Procedure.visitsOf procedures)
  | [] => .of_flat (by simp [Procedure.visitsOf])
  | ⟨id, name, position, params, block⟩ :: rest => by
    have inner : Contained (params.flatMap Param.visits ++ block.visits) :=
      (Contained.of_flat Param.nests_of_mem_visits).append block.contained
    exact (Contained.bracket ⟨id, name, position, params, block⟩ inner).append
      (Procedure.contained_visitsOf rest)

end

namespace Program

theorem contained (program : Program) : Contained program.visits := by
  have start : Contained [.programStart program] := .of_flat (by simp [Visit.nests])
  have last : Contained [.programEnd program] := .of_flat (by simp [Visit.nests])
  exact (start.append program.block.contained).append last

theorem nested_foldl (program : Program) (visits : List Visit) :
    (visits.foldl Analysis.step (Analysis.ofProgram program)).Nested program.name := by
  induction visits using List.reverseRecOn with
  | nil =>
      have rooted := ScopeTree.rooted_ofRoot program.name
      refine ⟨rooted, fun scope member => ?_, by simp [Analysis.ofProgram]⟩
      rw [List.mem_singleton.mp member]
      exact rooted.outermost.2.1
  | append_singleton visits visit ih =>
      rw [List.foldl_append]
      exact (ih.step visit).1

/-- In every tree that comes about from the tree of one scope by defining names and by adding scopes
inside of scopes that are there, the scopes are nested: each has a table of its own name, which
knows the built-in types, and the parents lead to the outermost scope in fewer steps than there are
scopes. In such a tree the search for a procedure comes to an end from everywhere, at the nearest
one. An analysis, whatever the program declares, has such a tree in front of each of its visits. A
scope is open then, which has a table, so every declaration is recorded or reported, and no type is
ever unknown. -/
theorem scopes_nested :
    (∀ (root : String) (tree : ScopeTree), tree.Grown root → tree.Rooted root)
      ∧ (∀ (root : String) (tree : ScopeTree), tree.Rooted root →
        ∀ scope name, tree.Resolves scope name)
      ∧ ∀ (program : Program) (earlier later : List Visit), program.visits = earlier ++ later →
        let state := earlier.foldl Analysis.step (Analysis.ofProgram program)
        (∃ top outer, state.opened = top :: outer ∧ state.scope = top)
          ∧ state.Nested program.name
          ∧ ∀ visit rest, later = visit :: rest → state.Recorded (state.step visit) visit := by
  refine ⟨fun root tree => ScopeTree.Grown.rooted, fun root tree rooted => rooted.resolves, ?_⟩
  intro program earlier later split state
  have nested : state.Nested program.name := program.nested_foldl earlier
  have opened : [program.name] <:+ state.opened :=
    program.contained.within (Analysis.ofProgram program) earlier ⟨later, split.symm⟩
  refine ⟨?_, nested, fun visit rest _ => (nested.step visit).2⟩
  cases scopes : state.opened with
  | nil =>
      rw [scopes, List.suffix_nil] at opened
      cases opened
  | cons top outer => exact ⟨top, outer, rfl, by rw [Analysis.scope, scopes, List.headD_cons]⟩

/-- A tree in which a scope is added inside of another. -/
def innerScopes : ScopeTree :=
  let single := ScopeTree.ofRoot "main"
  let first := (single.addScope? "alpha" "main").getD single
  (first.addScope? "beta" "alpha").getD first

/-- The same tree with a procedure in the outermost scope and a variable of its name further in. -/
def shadowedScopes : ScopeTree :=
  let header : ProcedureHeader := ⟨"alpha", [⟨"a", .integer⟩]⟩
  let known := (innerScopes.define? "main" "alpha" (.procedure header)).getD innerScopes
  (known.define? "alpha" "alpha" (.variable .real)).getD known

theorem grown_innerScopes : innerScopes.Grown "main" :=
  .addScope "beta" "alpha" (.addScope "alpha" "main" .single (by decide +kernel))
    (by decide +kernel)

theorem grown_shadowedScopes : shadowedScopes.Grown "main" :=
  .define "alpha" "alpha" (.variable .real) (.define "main" "alpha" _ grown_innerScopes)

/-- A program with a procedure of its own name. -/
def eponymous : Program :=
  ⟨0, "p", ⟨1, [], [⟨2, "p", ⟨1, 12⟩, [], ⟨3, [], [], ⟨4, []⟩⟩⟩], ⟨5, []⟩⟩⟩

theorem scopes_nested_shadowed :
    shadowedScopes.Rooted "main"
      ∧ shadowedScopes.Searches "alpha" (some "beta") (some ⟨"alpha", [⟨"a", .integer⟩]⟩)
      ∧ ((eponymous.visits.take 3).foldl Analysis.step (Analysis.ofProgram eponymous)).Nested "p"
      ∧ ((eponymous.visits.take 3).foldl Analysis.step (Analysis.ofProgram eponymous)).diagnoses
        = [.duplicateScope "p" ⟨1, 12⟩] := by
  obtain ⟨rooted, resolves, walked⟩ := scopes_nested
  have nested := rooted "main" shadowedScopes grown_shadowedScopes
  have found : shadowedScopes.findProcedure? "beta" "alpha"
      = some ⟨"alpha", [⟨"a", .integer⟩]⟩ := by decide +kernel
  have searches := (resolves "main" shadowedScopes nested "beta" "alpha").searches
  refine ⟨nested, (searches _).mpr found.symm, ?_, by decide +kernel⟩
  exact (walked eponymous _ _ (List.take_append_drop 3 eponymous.visits).symm).2.1

end Program
end MiniPascal
