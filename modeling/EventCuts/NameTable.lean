/-!
# Name tables

A finite map from names. Every name occurs once, and lookups say all there is to a
table; the order of the entries is not part of its meaning, so listings are sorted.
-/

namespace EventCuts

structure NameTable (α : Type) where
  entries : List (String × α)
  nodup : (entries.map Prod.fst).Nodup

namespace NameTable

variable {α : Type}

def empty : NameTable α := ⟨[], List.nodup_nil⟩

def get? (table : NameTable α) (name : String) : Option α := table.entries.lookup name

def size (table : NameTable α) : Nat := table.entries.length

def without (table : NameTable α) (name : String) : List (String × α) :=
  table.entries.filter fun entry => entry.1 != name

theorem nodup_without (table : NameTable α) (name : String) (a : α) :
    (((name, a) :: table.without name).map Prod.fst).Nodup := by
  refine List.nodup_cons.2 ⟨by simp [without], ?_⟩
  exact (List.Sublist.map Prod.fst List.filter_sublist).nodup table.nodup

def insert (table : NameTable α) (name : String) (a : α) : NameTable α :=
  ⟨(name, a) :: table.without name, table.nodup_without name a⟩

def insertNew (table : NameTable α) (name : String) (a : α) : NameTable α :=
  if (table.get? name).isSome then table else table.insert name a

def ofList (entries : List (String × α)) : NameTable α :=
  entries.foldl (fun table entry => table.insert entry.1 entry.2) empty

def sorted (table : NameTable α) : List (String × α) :=
  table.entries.mergeSort fun a b => a.1 ≤ b.1

def names (table : NameTable α) : List String := table.sorted.map Prod.fst

theorem lookup_filter_ne (entries : List (String × α)) {name other : String} (h : other ≠ name) :
    (entries.filter fun entry => entry.1 != name).lookup other = entries.lookup other := by
  induction entries with
  | nil => rfl
  | cons entry rest ih =>
    obtain ⟨key, a⟩ := entry
    by_cases hn : key = name
    · have hk : (other == key) = false := by simp [hn, h]
      simp only [List.lookup_cons, hk]
      simpa [hn] using ih
    · have hk : (key != name) = true := by simp [hn]
      simp only [List.filter_cons, hk, if_true, List.lookup_cons, ih]

theorem get?_insert (table : NameTable α) (name other : String) (a : α) :
    (table.insert name a).get? other = if other = name then some a else table.get? other := by
  by_cases h : other = name
  · simp [get?, insert, h]
  · have hk : (other == name) = false := by simp [h]
    simp only [get?, insert, without, List.lookup_cons, hk, h, if_false]
    exact lookup_filter_ne table.entries h

theorem get?_insertNew (table : NameTable α) (name other : String) (a : α) :
    (table.insertNew name a).get? other =
      if other = name then some ((table.get? name).getD a) else table.get? other := by
  unfold insertNew
  by_cases hs : (table.get? name).isSome
  · obtain ⟨b, hb⟩ := Option.isSome_iff_exists.1 hs
    by_cases h : other = name <;> simp [hb, h]
  · have hn : table.get? name = none := by simpa using hs
    by_cases h : other = name <;> simp [get?_insert, hn, h]

end NameTable

end EventCuts
