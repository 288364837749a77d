import Mathlib.Data.Finset.Basic
import Std.Data.ExtTreeMap

/-!
# Lookups in finite maps

`Std.ExtTreeMap` states its lookups with `compare`; over a key type whose order is lawful
these read with equality.  `insertIfNew` is an overlay: what was there stays.
-/

namespace Std.ExtTreeMap

variable {κ α : Type} [Ord κ] [TransOrd κ]

theorem mem_iff_lookup {m : ExtTreeMap κ α} {k : κ} : k ∈ m ↔ ∃ v, m[k]? = some v := by
  rw [mem_iff_isSome_getElem?, Option.isSome_iff_exists]

theorem lookup_empty (k : κ) : (∅ : ExtTreeMap κ α)[k]? = none := getElem?_empty

variable [LawfulEqOrd κ]

theorem mem_insertIfNew_iff {m : ExtTreeMap κ α} {k x : κ} {v : α} :
    x ∈ m.insertIfNew k v ↔ x ∈ m ∨ x = k := by
  rw [mem_insertIfNew, compare_eq_iff_eq, or_comm]
  exact or_congr_right eq_comm

theorem mem_toList_iff {m : ExtTreeMap κ α} {k : κ} {v : α} :
    (k, v) ∈ m.toList ↔ m[k]? = some v :=
  mem_toList_iff_getElem?_eq_some

theorem nodup_toList (m : ExtTreeMap κ α) : m.toList.Nodup := by
  refine List.Pairwise.imp ?_ (distinct_keys_toList (t := m))
  rintro a b hab rfl
  exact hab compare_self

theorem nodup_keys_toList (m : ExtTreeMap κ α) : (m.toList.map (·.1)).Nodup := by
  refine List.pairwise_map.mpr (List.Pairwise.imp ?_ (distinct_keys_toList (t := m)))
  intro a b hab heq
  exact hab (compare_eq_iff_eq.mpr heq)

theorem mem_iff_mem_keys_toList {m : ExtTreeMap κ α} {k : κ} : k ∈ m ↔ k ∈ m.toList.map (·.1) := by
  rw [mem_iff_lookup, List.mem_map]
  constructor
  · rintro ⟨v, hv⟩
    exact ⟨(k, v), mem_toList_iff.mpr hv, rfl⟩
  · rintro ⟨⟨_, v⟩, hp, rfl⟩
    exact ⟨v, mem_toList_iff.mp hp⟩

theorem eq_empty_of_toList {m : ExtTreeMap κ α} (h : m.toList = []) : m = ∅ := by
  apply ext_getElem?
  intro k
  rw [lookup_empty]
  cases hk : m[k]? with
  | none => rfl
  | some v =>
      have hmem := mem_toList_iff.mpr hk
      rw [h] at hmem
      exact absurd hmem (by simp)

variable [DecidableEq κ]

theorem lookup_insert (m : ExtTreeMap κ α) (k a : κ) (v : α) :
    (m.insert k v)[a]? = if k = a then some v else m[a]? := by
  rw [getElem?_insert]
  by_cases h : k = a
  · rw [if_pos h, if_pos (by rw [h]; exact compare_self)]
  · rw [if_neg h, if_neg (fun hc => h (compare_eq_iff_eq.mp hc))]

/-- What a map with one key holds. -/
theorem lookup_single {k a : κ} {v w : α} (h : ((∅ : ExtTreeMap κ α).insert k v)[a]? = some w) :
    a = k ∧ w = v := by
  rw [lookup_insert, lookup_empty] at h
  split at h
  · next heq => exact ⟨heq.symm, (Option.some.inj h).symm⟩
  · exact absurd h (by simp)

theorem lookup_erase (m : ExtTreeMap κ α) (k a : κ) :
    (m.erase k)[a]? = if k = a then none else m[a]? := by
  rw [getElem?_erase]
  by_cases h : k = a
  · rw [if_pos h, if_pos (by rw [h]; exact compare_self)]
  · rw [if_neg h, if_neg (fun hc => h (compare_eq_iff_eq.mp hc))]

/-- Erasing a list of keys. -/
def eraseAll (m : ExtTreeMap κ α) (ks : List κ) : ExtTreeMap κ α := ks.foldl (fun m k => m.erase k) m

theorem lookup_eraseAll (m : ExtTreeMap κ α) (ks : List κ) (a : κ) :
    (m.eraseAll ks)[a]? = if a ∈ ks then none else m[a]? := by
  induction ks generalizing m with
  | nil => rfl
  | cons k ks ih =>
      show ((m.erase k).eraseAll ks)[a]? = _
      rw [ih, lookup_erase]
      by_cases hk : k = a
      · simp [hk]
      · simp [hk, Ne.symm hk]

/-- A new key comes with its value, in some place. -/
theorem toList_insert_perm {m : ExtTreeMap κ α} {k : κ} (hk : k ∉ m) (v : α) :
    (m.insert k v).toList.Perm ((k, v) :: m.toList) := by
  have hnew : (k, v) ∉ m.toList := fun h => hk (mem_iff_lookup.mpr ⟨v, mem_toList_iff.mp h⟩)
  rw [List.perm_ext_iff_of_nodup (nodup_toList _) (List.nodup_cons.mpr ⟨hnew, nodup_toList _⟩)]
  rintro ⟨a, w⟩
  rw [List.mem_cons, mem_toList_iff, mem_toList_iff, lookup_insert]
  by_cases h : k = a
  · subst h
    rw [if_pos rfl]
    have hnone : m[k]? = none := getElem?_eq_none hk
    simp [hnone, eq_comm]
  · rw [if_neg h]
    simp [Ne.symm h]

/-- Erasing takes one entry away. -/
theorem toList_erase_perm {m : ExtTreeMap κ α} {k : κ} {v : α} (hk : m[k]? = some v) :
    m.toList.Perm ((k, v) :: (m.erase k).toList) := by
  have hgone : (k, v) ∉ (m.erase k).toList := by
    rw [mem_toList_iff, lookup_erase, if_pos rfl]
    exact nofun
  rw [List.perm_ext_iff_of_nodup (nodup_toList _) (List.nodup_cons.mpr ⟨hgone, nodup_toList _⟩)]
  rintro ⟨a, w⟩
  rw [List.mem_cons, mem_toList_iff, mem_toList_iff, lookup_erase]
  by_cases h : k = a
  · subst h
    rw [if_pos rfl, hk]
    simp [eq_comm]
  · rw [if_neg h]
    simp [Ne.symm h]

theorem not_mem_erase (m : ExtTreeMap κ α) (k : κ) : k ∉ m.erase k := by
  rw [mem_iff_lookup, lookup_erase, if_pos rfl]
  exact nofun

/-- Inserting replaces what was there. -/
theorem insert_eq_insert_erase (m : ExtTreeMap κ α) (k : κ) (v : α) :
    m.insert k v = (m.erase k).insert k v := by
  apply ext_getElem?
  intro a
  rw [lookup_insert, lookup_insert, lookup_erase]
  by_cases h : k = a
  · rw [if_pos h, if_pos h]
  · rw [if_neg h, if_neg h, if_neg h]

/-- An existing value wins over the inserted one. -/
theorem lookup_insertIfNew (m : ExtTreeMap κ α) (k a : κ) (v : α) :
    (m.insertIfNew k v)[a]? = m[a]?.or (if k = a then some v else none) := by
  rw [getElem?_insertIfNew]
  by_cases h : k = a
  · subst h
    rw [if_pos rfl]
    by_cases hm : k ∈ m
    · rw [if_neg (fun hc => hc.2 hm), getElem?_eq_some_getElem hm]
      rfl
    · rw [if_pos ⟨compare_self, hm⟩, getElem?_eq_none hm]
      rfl
  · rw [if_neg (fun hc => h (compare_eq_iff_eq.mp hc.1)), if_neg h, Option.or_none]

/-- What was there stays. -/
theorem lookup_insertIfNew_of_some {m : ExtTreeMap κ α} {a : κ} {w : α} (h : m[a]? = some w) (k : κ)
    (v : α) : (m.insertIfNew k v)[a]? = some w := by
  rw [lookup_insertIfNew, h]
  rfl

/-- Inserting over an existing key with `insertIfNew` changes nothing. -/
theorem insertIfNew_of_mem {m : ExtTreeMap κ α} {k : κ} (h : k ∈ m) (v : α) :
    m.insertIfNew k v = m := by
  apply ext_getElem?
  intro a
  rw [lookup_insertIfNew]
  by_cases hk : k = a
  · subst hk
    rw [getElem?_eq_some_getElem h]
    rfl
  · rw [if_neg hk, Option.or_none]

end Std.ExtTreeMap
