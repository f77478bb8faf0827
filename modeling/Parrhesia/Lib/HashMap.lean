import Mathlib.Algebra.Ring.Nat
import Mathlib.Data.Finset.Card
import Mathlib.Data.List.AList

/-!
# Lib.HashMap

Finite maps with the operations of a hash map: `get`, `insert`, `remove`, `len`, `isEmpty`,
`retain` and the list of entries. They are association lists with distinct keys (`AList`); the
order of the entries carries no meaning, and two maps are compared through `get`.

The lemmas give `get` after each update, `len` where the update is known to add an entry or to
keep one, and the sum of the values of a map into the naturals.
-/

namespace Lib

abbrev HashMap (κ α : Type*) := AList fun _ : κ => α

namespace HashMap

variable {κ α : Type*}

def len (m : HashMap κ α) : Nat := m.entries.length

def isEmpty (m : HashMap κ α) : Bool := m.entries.isEmpty

/-- The entries, in some order. -/
def toList (m : HashMap κ α) : List (κ × α) := m.entries.map fun e => (e.1, e.2)

/-- Keep the entries that satisfy `p`. -/
def retain (p : κ → α → Bool) (m : HashMap κ α) : HashMap κ α :=
  ⟨m.entries.filter fun e => p e.1 e.2, m.nodupKeys.sublist List.filter_sublist⟩

/-- `f` on every value. -/
def mapValues {β : Type*} (f : α → β) (m : HashMap κ α) : HashMap κ β :=
  ⟨m.entries.map fun e => ⟨e.1, f e.2⟩, by
    have hkeys : (m.entries.map fun e => (⟨e.1, f e.2⟩ : Sigma fun _ => β)).keys =
        m.entries.keys := by
      simp [List.keys]
    rw [List.NodupKeys, hkeys]
    exact m.nodupKeys⟩

/-- The sum of the values. -/
def sum (m : HashMap κ Nat) : Nat := (m.entries.map fun e => e.2).sum

theorem map_fst_toList (m : HashMap κ α) : m.toList.map Prod.fst = m.keys := by
  simp [toList, AList.keys, List.keys]

theorem len_eq_keys (m : HashMap κ α) : len m = m.keys.length := by
  simp [len, AList.keys, List.keys]

theorem len_retain_le (p : κ → α → Bool) (m : HashMap κ α) : len (retain p m) ≤ len m :=
  List.length_filter_le _ _

variable [DecidableEq κ]

def get (m : HashMap κ α) (k : κ) : Option α := AList.lookup k m

def containsKey (m : HashMap κ α) (k : κ) : Bool := (get m k).isSome

def insert (m : HashMap κ α) (k : κ) (v : α) : HashMap κ α := AList.insert k v m

def remove (m : HashMap κ α) (k : κ) : HashMap κ α := AList.erase k m

@[simp] theorem get_empty (k : κ) : get (∅ : HashMap κ α) k = none := rfl

theorem get_insert (m : HashMap κ α) (k k' : κ) (v : α) :
    get (insert m k v) k' = if k' = k then some v else get m k' := by
  unfold get insert
  split
  · rename_i h; rw [h]; exact AList.lookup_insert m
  · rename_i h; exact AList.lookup_insert_ne h

@[simp] theorem get_insert_self (m : HashMap κ α) (k : κ) (v : α) :
    get (insert m k v) k = some v := by simp [get_insert]

theorem get_insert_of_ne {m : HashMap κ α} {k k' : κ} {v : α} (h : k' ≠ k) :
    get (insert m k v) k' = get m k' := by simp [get_insert, h]

theorem get_remove (m : HashMap κ α) (k k' : κ) :
    get (remove m k) k' = if k' = k then none else get m k' := by
  unfold get remove
  split
  · rename_i h; rw [h]; exact AList.lookup_erase k m
  · rename_i h; exact AList.lookup_erase_ne h

@[simp] theorem get_remove_self (m : HashMap κ α) (k : κ) : get (remove m k) k = none := by
  simp [get_remove]

theorem get_remove_of_ne {m : HashMap κ α} {k k' : κ} (h : k' ≠ k) :
    get (remove m k) k' = get m k' := by simp [get_remove, h]

theorem get_eq_some_iff {m : HashMap κ α} {k : κ} {v : α} :
    get m k = some v ↔ (⟨k, v⟩ : Sigma fun _ => α) ∈ m.entries :=
  List.mem_dlookup_iff m.nodupKeys

theorem mem_keys_iff {m : HashMap κ α} {k : κ} : k ∈ m.keys ↔ ∃ v, get m k = some v := by
  rw [← AList.mem_keys, ← AList.lookup_isSome, Option.isSome_iff_exists]; rfl

theorem mem_toList {m : HashMap κ α} {k : κ} {v : α} :
    (k, v) ∈ toList m ↔ get m k = some v := by
  rw [get_eq_some_iff, toList, List.mem_map]
  constructor
  · rintro ⟨⟨k', v'⟩, he, heq⟩
    cases heq; exact he
  · intro h; exact ⟨⟨k, v⟩, h, rfl⟩

theorem get_retain (p : κ → α → Bool) (m : HashMap κ α) (k : κ) :
    get (retain p m) k = (get m k).filter (p k) := by
  apply Option.ext
  intro v
  rw [get_eq_some_iff, Option.filter_eq_some_iff, get_eq_some_iff]
  exact List.mem_filter

theorem get_mapValues {β : Type*} (f : α → β) (m : HashMap κ α) (k : κ) :
    get (mapValues f m) k = (get m k).map f := by
  apply Option.ext
  intro v
  rw [get_eq_some_iff, Option.map_eq_some_iff]
  simp only [mapValues, List.mem_map, get_eq_some_iff]
  constructor
  · rintro ⟨⟨k', w⟩, hmem, heq⟩
    cases heq
    exact ⟨w, hmem, rfl⟩
  · rintro ⟨w, hmem, rfl⟩
    exact ⟨⟨k, w⟩, hmem, rfl⟩

theorem len_insert_of_none {m : HashMap κ α} {k : κ} (v : α) (h : get m k = none) :
    len (insert m k v) = len m + 1 := by
  rw [len, insert, AList.entries_insert_of_notMem (AList.lookup_eq_none.mp h)]; rfl

/-- The keys, as a set. -/
def keySet (m : HashMap κ α) : Finset κ := m.keys.toFinset

theorem mem_keySet {m : HashMap κ α} {k : κ} : k ∈ keySet m ↔ ∃ v, get m k = some v := by
  rw [keySet, List.mem_toFinset, mem_keys_iff]

theorem card_keySet (m : HashMap κ α) : (keySet m).card = len m := by
  rw [keySet, List.toFinset_card_of_nodup m.keys_nodup, len_eq_keys]

theorem len_insert_of_some {m : HashMap κ α} {k : κ} {v : α} (v' : α) (h : get m k = some v) :
    len (insert m k v') = len m := by
  rw [← card_keySet, ← card_keySet]
  congr 1
  ext k'
  rw [mem_keySet, mem_keySet, get_insert]
  by_cases he : k' = k
  · subst he; simp [h]
  · simp [he]

theorem remove_of_none {m : HashMap κ α} {k : κ} (h : get m k = none) : remove m k = m := by
  refine AList.ext (List.kerase_of_notMem_keys ?_)
  intro hk
  obtain ⟨v, hv⟩ := mem_keys_iff.mp hk
  rw [h] at hv; cases hv

theorem len_remove_le (m : HashMap κ α) (k : κ) : len (remove m k) ≤ len m := by
  rw [len_eq_keys, len_eq_keys, remove, AList.keys_erase]
  exact List.length_erase_le

theorem sum_remove (m : HashMap κ Nat) (k : κ) : sum (remove m k) + (get m k).getD 0 = sum m := by
  cases h : get m k with
  | none => rw [remove_of_none h]; rfl
  | some n =>
    obtain ⟨n', l₁, l₂, -, hentries, herase⟩ :=
      List.exists_of_kerase (mem_keys_iff.mpr ⟨n, h⟩ : k ∈ m.entries.keys)
    have hmem := get_eq_some_iff.mpr (show (⟨k, n'⟩ : Sigma fun _ => Nat) ∈ m.entries by
      rw [hentries]; simp)
    rw [h] at hmem
    cases hmem
    have hremove : (remove m k).entries = l₁ ++ l₂ := herase
    simp only [sum, hremove, hentries, List.map_append, List.map_cons, List.sum_append,
      List.sum_cons, Option.getD_some]
    omega

theorem sum_insert (m : HashMap κ Nat) (k : κ) (n : Nat) :
    sum (insert m k n) + (get m k).getD 0 = sum m + n := by
  have hinsert : (insert m k n).entries = ⟨k, n⟩ :: (remove m k).entries := AList.entries_insert
  have hremove := sum_remove m k
  simp only [sum, hinsert, List.map_cons, List.sum_cons] at hremove ⊢
  omega

theorem isEmpty_iff {m : HashMap κ α} : isEmpty m = true ↔ ∀ k, get m k = none := by
  rw [isEmpty, List.isEmpty_iff]
  constructor
  · intro h k
    refine AList.lookup_eq_none.mpr ?_
    rw [AList.mem_keys]
    simp [AList.keys, h]
  · intro h
    by_contra hne
    obtain ⟨e, he⟩ := List.exists_mem_of_ne_nil _ hne
    have := get_eq_some_iff.mpr (show (⟨e.1, e.2⟩ : Sigma fun _ => α) ∈ m.entries from he)
    rw [h e.1] at this
    cases this

theorem isEmpty_eq_false_iff {m : HashMap κ α} :
    isEmpty m = false ↔ ∃ k v, get m k = some v := by
  rw [← Bool.not_eq_true, isEmpty_iff]
  constructor
  · intro h
    by_contra hne
    exact h fun k => Option.eq_none_iff_forall_ne_some.mpr fun v hv => hne ⟨k, v, hv⟩
  · rintro ⟨k, v, hv⟩ h
    rw [h k] at hv; cases hv

end HashMap
end Lib
