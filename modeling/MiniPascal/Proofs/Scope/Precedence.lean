import MiniPascal.Proofs.Scope.Tables

/-! # The first declaration counts

Of several declarations of one key a scope tree keeps the first and refuses the others. After any
declarations, clashing or not, it therefore holds those entries that nothing of their key comes
before. -/
set_option autoImplicit false
namespace MiniPascal

/-- The entry is not reserved, and the first one of its key. -/
def Leads (root : String) (entries : List Entry) (entry : Entry) : Prop :=
  ∃ before after, entries = before ++ entry :: after ∧ Fresh root before entry

/-- The ledger that is left of some entries if each of them is added that is fresh by then. -/
inductive Kept (root : String) : List Entry → List Entry → Prop where
  | nil : Kept root [] []
  | fresh {entries ledger : List Entry} {entry : Entry} : Kept root entries ledger →
    Fresh root ledger entry → Kept root (entries ++ [entry]) (ledger ++ [entry])
  | stale {entries ledger : List Entry} {entry : Entry} : Kept root entries ledger →
    ¬ Fresh root ledger entry → Kept root (entries ++ [entry]) ledger

section

variable {root : String} {entries ledger : List Entry}

/-- Whether an entry is fresh depends on its key alone. -/
theorem fresh_congr {first second : Entry} (same : first.key = second.key) :
    Fresh root entries first ↔ Fresh root entries second := by
  rw [Fresh, Fresh, same]
  cases first <;> cases second <;> simp_all [Entry.key, Entry.Reserved]

theorem fresh_concat_iff (entry other : Entry) : Fresh root (entries ++ [other]) entry
    ↔ Fresh root entries entry ∧ entry.key ≠ other.key := by
  simp only [Fresh, List.map_append, List.map_cons, List.map_nil, List.mem_append,
    List.mem_singleton, not_or, and_assoc]

theorem leads_concat_iff (entry other : Entry) : Leads root (entries ++ [other]) entry
    ↔ Leads root entries entry ∨ entry = other ∧ Fresh root entries other := by
  constructor
  · rintro ⟨before, after, split, fresh⟩
    rcases List.eq_nil_or_concat after with rfl | ⟨front, last, rfl⟩
    · obtain ⟨rfl, same⟩ := List.append_inj' split rfl
      obtain rfl := List.singleton_inj.mp same
      exact .inr ⟨rfl, fresh⟩
    · rw [List.concat_eq_append, ← List.cons_append, ← List.append_assoc] at split
      exact .inl ⟨before, front, List.append_inj_left' split rfl, fresh⟩
  · rintro (⟨before, after, rfl, fresh⟩ | ⟨rfl, fresh⟩)
    · exact ⟨before, after ++ [other], by simp, fresh⟩
    · exact ⟨entries, [], rfl, fresh⟩

namespace Kept

/-- What is refused changes nothing: an entry is fresh if no other of its key has come at all. -/
theorem fresh_iff (kept : Kept root entries ledger) :
    ∀ entry, Fresh root ledger entry ↔ Fresh root entries entry := by
  induction kept with
  | nil => exact fun _ => .rfl
  | fresh _ _ ih =>
      intro entry
      rw [fresh_concat_iff, fresh_concat_iff, ih]
  | @stale entries ledger other _ stale ih =>
      intro entry
      rw [fresh_concat_iff, ← ih entry, iff_self_and]
      intro fresh same
      exact stale ((fresh_congr same).mp fresh)

theorem mem_iff (kept : Kept root entries ledger) :
    ∀ entry, entry ∈ ledger ↔ Leads root entries entry := by
  induction kept with
  | nil => exact fun entry => by simp [Leads]
  | fresh kept fresh ih =>
      intro entry
      rw [leads_concat_iff, ← ih, List.mem_append, List.mem_singleton,
        and_iff_left ((kept.fresh_iff _).mp fresh)]
  | stale kept stale ih =>
      intro entry
      rw [leads_concat_iff, ← ih, or_iff_left]
      exact fun both => stale ((kept.fresh_iff _).mpr both.2)

theorem subset (kept : Kept root entries ledger) : ledger ⊆ entries := by
  intro entry member
  obtain ⟨before, after, rfl, -⟩ := (kept.mem_iff entry).mp member
  simp

theorem isScope_iff (kept : Kept root entries ledger) (name : String) :
    IsScope root ledger name ↔ IsScope root entries name := by
  have same := kept.fresh_iff (.scope name root)
  rw [ScopeTree.fresh_scope_iff, ScopeTree.fresh_scope_iff] at same
  exact not_iff_not.mp same

end Kept
end

namespace ScopeTree

/-- The tree holds the first entry of every key that is not reserved. -/
def Keeps (root : String) (entries : List Entry) (tree : ScopeTree) : Prop :=
  ∃ ledger, Kept root entries ledger ∧ tree.Holds root ledger

variable {root : String} {entries : List Entry} {tree : ScopeTree}

theorem keeps_ofRoot (root : String) : (ofRoot root).Keeps root [] :=
  ⟨[], .nil, holds_ofRoot root⟩

theorem Keeps.isSome_table?_iff (keeps : tree.Keeps root entries) (scope : String) :
    (tree.table? scope).isSome ↔ IsScope root entries scope := by
  obtain ⟨ledger, kept, holds⟩ := keeps
  rw [holds.scopes, kept.isScope_iff]

theorem Keeps.parent?_eq_some_iff (keeps : tree.Keeps root entries) (scope parent : String) :
    tree.parent? scope = some parent ↔ Leads root entries (.scope scope parent) := by
  obtain ⟨ledger, kept, holds⟩ := keeps
  rw [holds.parents, kept.mem_iff]

theorem Keeps.find?_eq_some_iff (keeps : tree.Keeps root entries) {scope : String}
    {table : SymbolTable} (found : tree.table? scope = some table) (name : String)
    (meaning : Symbol) : table.find? name = some meaning
      ↔ BuiltIn name meaning ∨ Leads root entries (.symbol scope name meaning) := by
  obtain ⟨ledger, kept, holds⟩ := keeps
  rw [(holds.tables scope table found).find?, kept.mem_iff]

/-- A name can be defined in a scope if nothing of its key has come, and else nothing changes. -/
theorem Keeps.define? (keeps : tree.Keeps root entries) {scope : String}
    (known : IsScope root entries scope) (name : String) (meaning : Symbol) :
    ((tree.define? scope name meaning).isSome ↔ Fresh root entries (.symbol scope name meaning))
      ∧ ((tree.define? scope name meaning).getD tree).Keeps root
        (entries ++ [.symbol scope name meaning]) := by
  obtain ⟨ledger, kept, holds⟩ := keeps
  obtain ⟨accepted, refused⟩ := holds.define? ((kept.isScope_iff scope).mpr known) name meaning
  rw [← kept.fresh_iff]
  by_cases fresh : Fresh root ledger (.symbol scope name meaning)
  · obtain ⟨defined, same, held⟩ := accepted fresh
    rw [same]
    exact ⟨by simp [fresh], _, kept.fresh fresh, held⟩
  · rw [refused fresh]
    exact ⟨by simp [fresh], ledger, kept.stale fresh, holds⟩

/-- A scope can be opened if nothing of its key has come, and else nothing changes. -/
theorem Keeps.addScope? (keeps : tree.Keeps root entries) (name parent : String)
    (placed : ∀ place other meaning, Entry.symbol place other meaning ∈ entries →
      IsScope root entries place) :
    ((tree.addScope? name parent).isSome ↔ ¬ IsScope root entries name)
      ∧ ((tree.addScope? name parent).getD tree).Keeps root (entries ++ [.scope name parent]) := by
  obtain ⟨ledger, kept, holds⟩ := keeps
  obtain ⟨accepted, refused⟩ := holds.addScope? name parent fun place other meaning member =>
    (kept.isScope_iff place).mpr (placed place other meaning (kept.subset member))
  rw [← fresh_scope_iff root entries name parent, ← kept.fresh_iff]
  by_cases fresh : Fresh root ledger (.scope name parent)
  · obtain ⟨added, same, held⟩ := accepted fresh
    rw [same]
    exact ⟨by simp [fresh], _, kept.fresh fresh, held⟩
  · rw [refused fresh]
    exact ⟨by simp [fresh], ledger, kept.stale fresh, holds⟩

end ScopeTree

/-! ## Names that are defined one after the other -/

/-- The names are none of a type. -/
def AvoidTypes (names : List String) : Prop :=
  ∀ name ∈ names, ∀ dataType : DataType, dataType.name ≠ name

theorem AvoidTypes.not_reserved {names : List String} (avoid : AvoidTypes names) {name : String}
    (among : name ∈ names) (root scope : String) (meaning : Symbol) :
    ¬ Entry.Reserved root (.symbol scope name meaning) := by
  rintro ⟨dataType, same⟩
  exact avoid name among dataType same

/-- The names that have been seen before, some from the start and the others among these names. -/
def clashes : List String → List String → List String
  | _, [] => []
  | seen, name :: rest => (if name ∈ seen then [name] else []) ++ clashes (seen ++ [name]) rest

namespace SymbolTable

variable {root scope : String}

/-- Of names that are defined one after the other, those are refused that have been seen before. -/
theorem Holds.defineAll_eq_clashes (meaning : Symbol) {names : List String}
    (avoid : AvoidTypes names) :
    ∀ {entries ledger : List Entry} {table : SymbolTable} {seen : List String},
      Kept root entries ledger → table.Holds ledger scope →
      (∀ name, name ∈ seen ↔ (scope, some name) ∈ entries.map Entry.key) →
      (table.defineAll meaning names).2 = clashes seen names
        ∧ ∃ added, (∀ entry ∈ added, ∃ name meaning, entry = .symbol scope name meaning)
          ∧ Kept root (entries ++ names.map fun name => .symbol scope name meaning)
            (ledger ++ added)
          ∧ (table.defineAll meaning names).1.Holds (ledger ++ added) scope := by
  induction names with
  | nil =>
      intro entries ledger table seen kept holds _
      refine ⟨rfl, [], List.forall_mem_nil _, ?_, ?_⟩
      · simpa using kept
      · rw [List.append_nil]
        exact holds
  | cons name rest ih =>
      intro entries ledger table seen kept holds known
      have further : ∀ other, other ∈ seen ++ [name] ↔ (scope, some other)
          ∈ (entries ++ [Entry.symbol scope name meaning]).map Entry.key := by
        intro other
        simp [known, Entry.key]
      have fresh_iff : Fresh root ledger (.symbol scope name meaning) ↔ name ∉ seen := by
        rw [kept.fresh_iff, Fresh, known]
        exact and_iff_right (avoid.not_reserved List.mem_cons_self root scope meaning)
      have free_iff := holds.find?_eq_none_iff root name meaning
      have others := (List.forall_mem_cons.mp avoid).2
      rw [SymbolTable.defineAll, define?_eq, clashes, List.map_cons, List.append_cons entries]
      by_cases free : table.find? name = none
      · have fresh := free_iff.mp free
        simp only [if_pos free, if_neg (fresh_iff.mp fresh), List.nil_append]
        obtain ⟨taken, added, names, kept, held⟩ :=
          ih others (kept.fresh fresh) (holds.insert fresh) further
        rw [List.append_assoc ledger] at kept held
        exact ⟨taken, _, by simpa using names, kept, held⟩
      · have stale := fun fresh => free (free_iff.mpr fresh)
        have again : name ∈ seen := not_not.mp fun unseen => stale (fresh_iff.mpr unseen)
        simp only [if_neg free, if_pos again, List.singleton_append, List.cons.injEq, true_and]
        exact ih others (kept.stale stale) holds further

end SymbolTable
end MiniPascal
