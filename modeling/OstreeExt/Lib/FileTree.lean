import Mathlib.Data.List.Basic
import Mathlib.Data.List.Induction
import Mathlib.Data.List.Nodup

/-!
# File trees

A file tree is a finite table of entries under the paths from its root, where what stands above an
entry is a directory.  It can be asked for an entry (`lookup`) and for the names in a directory
(`readDir`), and an entry without anything below it can be taken out (`remove`).

**`Pinned F`** is what a clean-up that must spare the paths of `F` has to leave: those paths, what
is below them, and the directories above them.
-/

-- ── What has to stay because of some of the paths ─────────────────────────────

section Pinned

variable {κ : Type} {F : List κ → Prop} {n : κ} {p q : List κ}

/-- Some path of `F` other than the starting point itself is above `q`, or below it. -/
def Pinned (F : List κ → Prop) (q : List κ) : Prop :=
  ∃ m, m ≠ [] ∧ F m ∧ (m <+: q ∨ q <+: m)

/-- What is pinned one level down. -/
theorem pinned_cons_iff : Pinned F (n :: q) ↔ F [n] ∨ Pinned (fun m => F (n :: m)) q := by
  constructor
  · rintro ⟨m, hm, hF, h⟩
    rcases m with _ | ⟨a, m⟩
    · exact absurd rfl hm
    rw [List.cons_prefix_cons, List.cons_prefix_cons] at h
    have ha : a = n := h.elim (fun h => h.1) (fun h => h.1.symm)
    have hsides : m <+: q ∨ q <+: m := h.imp (fun h => h.2) (fun h => h.2)
    subst ha
    rcases m with _ | ⟨b, m⟩
    · exact .inl hF
    · exact .inr ⟨b :: m, by simp, hF, hsides⟩
  · rintro (hF | ⟨m, _, hF, h⟩)
    · exact ⟨[n], by simp, hF, .inl (by simp)⟩
    · refine ⟨n :: m, by simp, hF, ?_⟩
      rw [List.cons_prefix_cons, List.cons_prefix_cons]
      exact h.imp (fun h => ⟨rfl, h⟩) (fun h => ⟨rfl, h⟩)

/-- The starting point is pinned by anything below it. -/
theorem pinned_nil_iff : Pinned F [] ↔ ∃ m, m ≠ [] ∧ F m := by
  constructor
  · rintro ⟨m, hm, hF, _⟩
    exact ⟨m, hm, hF⟩
  · rintro ⟨m, hm, hF⟩
    exact ⟨m, hm, hF, .inr List.nil_prefix⟩

/-- The starting point is pinned when something in it is. -/
theorem pinned_nil_iff_exists : Pinned F [] ↔ ∃ n, Pinned F [n] := by
  rw [pinned_nil_iff]
  constructor
  · rintro ⟨m, hm, hF⟩
    rcases m with _ | ⟨n, m⟩
    · exact absurd rfl hm
    · exact ⟨n, n :: m, by simp, hF, .inr (by simp)⟩
  · rintro ⟨n, m, hm, hF, _⟩
    exact ⟨m, hm, hF⟩

/-- What stands above a pinned path is pinned. -/
theorem Pinned.above (h : Pinned F q) (hp : p <+: q) : Pinned F p := by
  obtain ⟨m, hm, hF, hmq | hqm⟩ := h
  · exact ⟨m, hm, hF, List.prefix_or_prefix_of_prefix hmq hp⟩
  · exact ⟨m, hm, hF, .inr (hp.trans hqm)⟩

/-- More paths pin more. -/
theorem Pinned.mono {G : List κ → Prop} (hFG : ∀ m, m ≠ [] → F m → G m) (h : Pinned F q) :
    Pinned G q := by
  obtain ⟨m, hm, hF, hsides⟩ := h
  exact ⟨m, hm, hFG m hm hF, hsides⟩

theorem pinned_congr {G : List κ → Prop} (hFG : ∀ m, F m ↔ G m) : Pinned F q ↔ Pinned G q :=
  ⟨Pinned.mono fun m _ => (hFG m).mp, Pinned.mono fun m _ => (hFG m).mpr⟩

end Pinned

-- ── File trees ────────────────────────────────────────────────────────────────

/-- The name of `q` inside the directory `p`, if it is directly in it. -/
def nameIn (p q : List String) : Option String := if q.dropLast = p then q.getLast? else none

theorem nameIn_eq_some_iff {p q : List String} {n : String} :
    nameIn p q = some n ↔ q = p ++ [n] := by
  unfold nameIn
  rcases List.eq_nil_or_concat' q with rfl | ⟨l, b, rfl⟩
  · simp
  · rw [List.dropLast_concat, List.getLast?_concat]
    by_cases h : l = p
    · rw [if_pos h, h]
      simp
    · rw [if_neg h]
      refine iff_of_false (by simp) ?_
      intro heq
      exact h (List.append_inj_left' heq rfl)

/-- A finite tree: the entries have paths of their own below the root, and what stands above an
    entry is a directory. -/
structure FileTree (α : Type) (isDir : α → Bool) where
  entries : List (List String × α)
  nodup : (entries.map Prod.fst).Nodup
  below_root : ∀ e ∈ entries, e.1 ≠ []
  parents : ∀ q n a, (q ++ [n], a) ∈ entries → q = [] ∨ ∃ b, (q, b) ∈ entries ∧ isDir b = true

namespace FileTree

/-- A tree from the list of its entries. -/
def ofList {α : Type} {isDir : α → Bool} (l : List (List String × α))
    (hnodup : (l.map Prod.fst).Nodup) (hroot : ∀ e ∈ l, e.1 ≠ [])
    (hparents : ∀ e ∈ l, e.1.dropLast = [] ∨ ∃ b ∈ l, b.1 = e.1.dropLast ∧ isDir b.2 = true) :
    FileTree α isDir where
  entries := l
  nodup := hnodup
  below_root := hroot
  parents := by
    intro q n a h
    have hq := hparents (q ++ [n], a) h
    rw [List.dropLast_concat] at hq
    refine hq.imp_right ?_
    rintro ⟨⟨q', b⟩, hmem, rfl, hdir⟩
    exact ⟨b, hmem, hdir⟩

variable {α : Type} {isDir : α → Bool} {t : FileTree α isDir} {p q x : List String} {n : String}
  {a : α}

/-- The entry at a path. -/
def lookup (t : FileTree α isDir) (p : List String) : Option α :=
  (t.entries.find? (fun e => e.1 = p)).map Prod.snd

/-- The names in a directory, in the order of the tree. -/
def readDir (t : FileTree α isDir) (p : List String) : List String :=
  t.entries.filterMap (fun e => nameIn p e.1)

/-- The length of the longest path. -/
def depth (t : FileTree α isDir) : Nat := t.entries.foldr (fun e d => max e.1.length d) 0

theorem lookup_eq_some_iff : t.lookup p = some a ↔ (p, a) ∈ t.entries := by
  rw [lookup, Option.map_eq_some_iff]
  constructor
  · rintro ⟨⟨p', a'⟩, hfind, rfl⟩
    have hp : p' = p := by simpa using List.find?_some hfind
    exact hp ▸ List.mem_of_find?_eq_some hfind
  · intro hmem
    cases hfind : t.entries.find? (fun e => e.1 = p) with
    | none =>
        have hnone := List.find?_eq_none.mp hfind (p, a) hmem
        exact absurd hnone (by simp)
    | some e =>
        refine ⟨e, rfl, ?_⟩
        have hp : e.1 = p := by simpa using List.find?_some hfind
        have heq : e = (p, a) :=
          List.inj_on_of_nodup_map t.nodup (List.mem_of_find?_eq_some hfind) hmem hp
        rw [heq]

/-- What is so of all entries is so of those that are looked up. -/
theorem forall_lookup {P : List String → α → Prop} (h : ∀ e ∈ t.entries, P e.1 e.2) (p : List String)
    (a : α) (hp : t.lookup p = some a) : P p a :=
  h (p, a) (lookup_eq_some_iff.mp hp)

/-- The root itself is no entry. -/
theorem ne_nil_of_lookup (h : t.lookup p = some a) : p ≠ [] :=
  t.below_root (p, a) (lookup_eq_some_iff.mp h)

theorem mem_readDir_iff : n ∈ t.readDir p ↔ ∃ a, t.lookup (p ++ [n]) = some a := by
  rw [readDir, List.mem_filterMap]
  constructor
  · rintro ⟨⟨q, a⟩, hmem, hn⟩
    rw [nameIn_eq_some_iff] at hn
    exact ⟨a, lookup_eq_some_iff.mpr (hn ▸ hmem)⟩
  · rintro ⟨a, ha⟩
    exact ⟨(p ++ [n], a), lookup_eq_some_iff.mp ha, nameIn_eq_some_iff.mpr rfl⟩

/-- A directory lists no name twice. -/
theorem nodup_readDir (t : FileTree α isDir) (p : List String) : (t.readDir p).Nodup := by
  have hmap : t.readDir p = (t.entries.map Prod.fst).filterMap (nameIn p) := by
    rw [readDir, List.filterMap_map]
    rfl
  rw [hmap]
  refine t.nodup.filterMap ?_
  intro q q' n hq hq'
  rw [nameIn_eq_some_iff.mp hq, nameIn_eq_some_iff.mp hq']

theorem length_le_depth (h : t.lookup p = some a) : p.length ≤ t.depth := by
  have hmem := lookup_eq_some_iff.mp h
  unfold depth
  revert hmem
  induction t.entries with
  | nil => exact fun hmem => absurd hmem List.not_mem_nil
  | cons e l ih =>
      intro hmem
      rw [List.foldr_cons]
      rcases List.mem_cons.mp hmem with rfl | hmem
      · exact Nat.le_max_left ..
      · exact Nat.le_trans (ih hmem) (Nat.le_max_right ..)

/-- What stands above an entry is a directory. -/
theorem isDir_above (h : t.lookup (p ++ x) = some a) (hp : p ≠ []) (hx : x ≠ []) :
    ∃ b, t.lookup p = some b ∧ isDir b = true := by
  induction x using List.reverseRecOn generalizing a with
  | nil => exact absurd rfl hx
  | append_singleton x n ih =>
      rw [← List.append_assoc, lookup_eq_some_iff] at h
      rcases t.parents (p ++ x) n a h with hnil | ⟨b, hb, hdir⟩
      · exact absurd (List.append_eq_nil_iff.mp hnil).1 hp
      · by_cases hx' : x = []
        · rw [hx', List.append_nil] at hb
          exact ⟨b, lookup_eq_some_iff.mpr hb, hdir⟩
        · exact ih (lookup_eq_some_iff.mpr hb) hx'

/-- What stands above an entry exists. -/
theorem lookup_above (h : t.lookup (p ++ x) = some a) (hp : p ≠ []) :
    ∃ b, t.lookup p = some b := by
  by_cases hx : x = []
  · exact ⟨a, by rw [hx, List.append_nil] at h; exact h⟩
  · exact (isDir_above h hp hx).imp fun _ h => h.1

/-- What leads to an entry is listed on the way. -/
theorem mem_readDir_of_below (h : t.lookup (p ++ n :: x) = some a) : n ∈ t.readDir p := by
  rw [List.append_cons] at h
  exact mem_readDir_iff.mpr (lookup_above h (by simp))

/-- Nothing is below what is no directory. -/
theorem readDir_eq_nil (h : t.lookup p = some a) (hfile : isDir a = false) :
    t.readDir p = [] := by
  rw [List.eq_nil_iff_forall_not_mem]
  intro n hn
  obtain ⟨b, hb⟩ := mem_readDir_iff.mp hn
  obtain ⟨c, hc, hdir⟩ := isDir_above hb (ne_nil_of_lookup h) (by simp)
  rw [h] at hc
  injection hc with hc
  rw [hc, hdir] at hfile
  exact absurd hfile (by simp)

/-- Take out an entry; one that something stands below stays. -/
def remove (t : FileTree α isDir) (p : List String) : FileTree α isDir :=
  if h : t.readDir p = [] then
    { entries := t.entries.filter (fun e => e.1 ≠ p)
      nodup := t.nodup.sublist (List.filter_sublist.map _)
      below_root := fun e he => t.below_root e (List.mem_filter.mp he).1
      parents := by
        intro q n a hkept
        have hmem := (List.mem_filter.mp hkept).1
        refine (t.parents q n a hmem).imp_right ?_
        rintro ⟨b, hb, hdir⟩
        refine ⟨b, List.mem_filter.mpr ⟨hb, ?_⟩, hdir⟩
        -- the directory of a remaining entry is not the one taken out, which is empty
        have hq : q ≠ p := by
          rintro rfl
          have hn : n ∈ t.readDir q := mem_readDir_iff.mpr ⟨a, lookup_eq_some_iff.mpr hmem⟩
          rw [h] at hn
          exact absurd hn List.not_mem_nil
        simpa using hq }
  else t

/-- Taking out an entry changes nothing else. -/
theorem lookup_remove (h : t.readDir p = []) (q : List String) :
    (t.remove p).lookup q = if q = p then none else t.lookup q := by
  have hentries : (t.remove p).entries = t.entries.filter (fun e => e.1 ≠ p) := by
    rw [remove, dif_pos h]
  ext a
  rw [lookup_eq_some_iff, hentries, List.mem_filter, ← lookup_eq_some_iff]
  by_cases hq : q = p
  · rw [if_pos hq, hq]
    simp
  · rw [if_neg hq]
    simp [hq]

end FileTree
