import SmallScheme.Text.Basic

/-!
# Symbol tables

A symbol table keeps one copy of each name, so that all atoms of one name share it. It finds the
copy by the name. A table is faithful if every name is kept for itself: interning keeps it so, and a
faithful table answers every name with that name.
-/

namespace SmallScheme

set_option autoImplicit false

/-- The names asked for so far, each with the copy that is kept for it. -/
structure SymbolTable where
  entries : List (Text × Text)
  deriving DecidableEq, Repr

namespace SymbolTable

/-- The table without names. -/
def empty : SymbolTable := ⟨[]⟩

/-- The copy kept for a name, and the table behind the request. A name that is new is kept for
itself. -/
def intern (table : SymbolTable) (name : Text) : Text × SymbolTable :=
  match table.entries.lookup name with
  | some kept => (kept, table)
  | none => (name, ⟨(name, name) :: table.entries⟩)

/-- The names asked for so far. -/
def keys (table : SymbolTable) : List Text := table.entries.map Prod.fst

/-- The number of names kept. -/
def size (table : SymbolTable) : Nat := table.entries.length

/-- Interning in a table that may be absent; an absent table keeps nothing. -/
def intern? (table : Option SymbolTable) (name : Text) : Text × Option SymbolTable :=
  match table with
  | some table =>
    let (kept, table) := table.intern name
    (kept, some table)
  | none => (name, none)

/-- Every name is kept once, and for itself. -/
structure Faithful (table : SymbolTable) : Prop where
  nodup : table.keys.Nodup
  kept_eq : ∀ e ∈ table.entries, e.2 = e.1

/-- A table that is faithful, if there is one. -/
def Faithful? (table : Option SymbolTable) : Prop := ∀ t ∈ table, t.Faithful

variable {table : SymbolTable} {name kept : Text}

instance : DecidablePred Faithful := fun table =>
  decidable_of_iff (table.keys.Nodup ∧ ∀ e ∈ table.entries, e.2 = e.1)
    ⟨fun h => ⟨h.1, h.2⟩, fun h => ⟨h.nodup, h.kept_eq⟩⟩

instance : DecidablePred Faithful?
  | none => isTrue nofun
  | some t => decidable_of_iff t.Faithful (by simp [Faithful?])

theorem faithful_empty : empty.Faithful := ⟨.nil, nofun⟩

theorem faithful?_none : Faithful? none := nofun

theorem faithful?_some : Faithful? (some table) ↔ table.Faithful := by
  simp [Faithful?]

theorem faithful?_empty : Faithful? (some empty) := faithful?_some.mpr faithful_empty

theorem mem_of_lookup (h : table.entries.lookup name = some kept) :
    (name, kept) ∈ table.entries := by
  obtain ⟨before, after, he, -⟩ := List.lookup_eq_some_iff.mp h
  simp [he]

theorem not_mem_of_lookup (h : table.entries.lookup name = none) :
    name ∉ table.keys := by
  intro hm
  obtain ⟨e, he, rfl⟩ := List.mem_map.mp hm
  have hne := List.lookup_eq_none_iff.mp h e he
  simp at hne

/-- A faithful table answers a name with that name. -/
theorem Faithful.fst_intern (h : table.Faithful) (name : Text) : (table.intern name).1 = name := by
  rw [intern]
  split
  · rename_i kept hk
    exact h.kept_eq _ (mem_of_lookup hk)
  · rfl

/-- A request keeps a table faithful. -/
theorem Faithful.intern (h : table.Faithful) (name : Text) : (table.intern name).2.Faithful := by
  rw [SymbolTable.intern]
  split
  · exact h
  · rename_i hn
    refine ⟨List.nodup_cons.mpr ⟨not_mem_of_lookup hn, h.nodup⟩, ?_⟩
    intro e he
    rcases List.mem_cons.mp he with rfl | he
    · rfl
    · exact h.kept_eq e he

theorem fst_intern? {table : Option SymbolTable} (h : Faithful? table) (name : Text) :
    (intern? table name).1 = name := by
  cases table with
  | none => rfl
  | some table => exact (h table rfl).fst_intern name

theorem faithful_intern? {table : Option SymbolTable} (h : Faithful? table) (name : Text) :
    Faithful? (intern? table name).2 := by
  cases table with
  | none => exact h
  | some table => exact faithful?_some.mpr ((h table rfl).intern name)

end SymbolTable

end SmallScheme
