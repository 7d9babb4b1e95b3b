set_option autoImplicit false

/-!
# Tables

A table binds names to entries.  A name is bound at most once, and a name that is
bound anew keeps its place.
-/

namespace StepScript

/-- Names with their entries, in the order in which they were first bound. -/
abbrev Table (α : Type) : Type := List (String × α)

namespace Table

variable {α : Type}

def get? : Table α → String → Option α
  | [], _ => none
  | (key, entry) :: rest, name => if key = name then some entry else get? rest name

def binds (table : Table α) (name : String) : Bool := (table.get? name).isSome

def insert : Table α → String → α → Table α
  | [], name, entry => [(name, entry)]
  | (key, old) :: rest, name, entry =>
    if key = name then (key, entry) :: rest else (key, old) :: insert rest name entry

def names (table : Table α) : List String := table.map (·.1)

def entries (table : Table α) : List α := table.map (·.2)

@[simp] theorem get?_insert_self (table : Table α) (name : String) (entry : α) :
    (table.insert name entry).get? name = some entry := by
  induction table with
  | nil => simp [insert, get?]
  | cons head rest ih =>
    obtain ⟨key, old⟩ := head
    by_cases h : key = name
    · simp [insert, get?, h]
    · simp [insert, get?, h, ih]

theorem get?_insert_of_ne {name other : String} (h : other ≠ name) (table : Table α)
    (entry : α) : (table.insert name entry).get? other = table.get? other := by
  induction table with
  | nil => simp [insert, get?, Ne.symm h]
  | cons head rest ih =>
    obtain ⟨key, old⟩ := head
    by_cases hk : key = name
    · subst hk
      simp [insert, get?, Ne.symm h]
    · by_cases ho : key = other
      · subst ho
        simp [insert, get?, hk]
      · simp [insert, get?, hk, ho, ih]

theorem insert_of_unbound {table : Table α} {name : String} (entry : α)
    (h : table.get? name = none) : table.insert name entry = table ++ [(name, entry)] := by
  induction table with
  | nil => rfl
  | cons head rest ih =>
    obtain ⟨key, old⟩ := head
    unfold Table.get? at h
    split at h
    · cases h
    · next hne =>
      unfold Table.insert
      rw [if_neg hne, ih h]
      rfl

theorem not_mem_of_unbound {table : Table α} {name : String} :
    table.get? name = none ↔ name ∉ table.map (·.1) := by
  induction table with
  | nil => simp [Table.get?]
  | cons head rest ih =>
    obtain ⟨key, old⟩ := head
    unfold Table.get?
    by_cases hkey : key = name
    · simp [hkey]
    · rw [if_neg hkey, ih, List.map_cons, List.mem_cons, not_or]
      exact (and_iff_right (Ne.symm hkey)).symm

theorem get?_append (table more : Table α) (name : String) :
    get? (table ++ more) name = (table.get? name).or (more.get? name) := by
  induction table with
  | nil => rfl
  | cons head rest ih =>
    obtain ⟨key, old⟩ := head
    by_cases hkey : key = name
    · simp [get?, hkey]
    · simpa [get?, hkey] using ih

theorem binds_append_singleton (table : Table α) (key name : String) (entry : α) :
    binds (table ++ [(key, entry)]) name = true ↔ table.binds name = true ∨ key = name := by
  have hget := get?_append table [(key, entry)] name
  unfold binds
  rw [hget, Option.isSome_or]
  by_cases hkey : key = name <;> simp [get?, hkey]

theorem get?_append_new {table : Table α} {name : String} (entry : α)
    (h : table.binds name = false) : get? (table ++ [(name, entry)]) name = some entry := by
  have hget := get?_append table [(name, entry)] name
  rw [hget, Option.isSome_eq_false_iff.mp h |> Option.isNone_iff_eq_none.mp]
  simp [get?]

theorem mem_of_get? {table : Table α} {name : String} {entry : α}
    (h : table.get? name = some entry) : (name, entry) ∈ table := by
  induction table with
  | nil => cases h
  | cons head rest ih =>
    obtain ⟨key, old⟩ := head
    unfold get? at h
    split at h
    · next heq =>
      obtain rfl := Option.some.inj h
      exact heq ▸ List.mem_cons_self
    · exact List.mem_cons_of_mem _ (ih h)

/-- In a table without repetitions every entry is found. -/
theorem get?_of_mem {table : Table α} (hnames : (table.map (·.1)).Nodup) {name : String}
    {entry : α} (h : (name, entry) ∈ table) : table.get? name = some entry := by
  induction table with
  | nil => cases h
  | cons head rest ih =>
    obtain ⟨key, old⟩ := head
    obtain ⟨hkey, hrest⟩ := List.nodup_cons.mp hnames
    unfold get?
    rcases List.mem_cons.mp h with heq | hmem
    · cases heq
      exact if_pos rfl
    · have hne : key ≠ name := by
        rintro rfl
        exact hkey (List.mem_map.mpr ⟨_, hmem, rfl⟩)
      rw [if_neg hne]
      exact ih hrest hmem

end Table

end StepScript
