import Mathlib.Data.List.Perm.Basic
import OstreeExt.Statistics

/-!
# Packing without a prior build

`basic_packing` distributes components over partitions, partitions over bins, and merges
bins until they fit.  No step loses or repeats a component (`basicPacking_partition`).  The
counts that it subtracts and the class that it takes statistics of are another matter:
`basicPacking_returns_iff` says when it comes to an end without a panic.
-/

namespace OstreeExt

open Std

-- ── Partitions ────────────────────────────────────────────────────────────────

/-- All components of some partitions. -/
def partitioned (ps : ExtTreeMap String Bin) : Bin := ps.toList.flatMap (·.2)

theorem partitioned_empty : partitioned ∅ = [] := by
  rw [partitioned, List.flatMap_eq_nil_iff]
  rintro ⟨key, bin⟩ h
  rw [ExtTreeMap.mem_toList_iff, ExtTreeMap.lookup_empty] at h
  exact absurd h (by simp)

theorem partitioned_insert {ps : ExtTreeMap String Bin} {key : String} (h : key ∉ ps) (bin : Bin) :
    (partitioned (ps.insert key bin)).Perm (bin ++ partitioned ps) :=
  (ExtTreeMap.toList_insert_perm h bin).flatMap_right _

/-- A pushed component is added to those that are there. -/
theorem pushPartition_perm (ps : ExtTreeMap String Bin) (key : String) (pkg : ObjectSourceMetaSized) :
    (partitioned (pushPartition ps key pkg)).Perm (partitioned ps ++ [pkg]) := by
  rw [pushPartition, ExtTreeMap.getD_eq_getD_getElem?]
  cases hk : ps[key]? with
  | none =>
      have hnew : key ∉ ps := by
        rw [ExtTreeMap.mem_iff_lookup, hk]
        exact nofun
      exact (partitioned_insert hnew _).trans List.perm_append_comm
  | some bin =>
      have hold : (partitioned ps).Perm (bin ++ partitioned (ps.erase key)) :=
        (ExtTreeMap.toList_erase_perm hk).flatMap_right _
      rw [ExtTreeMap.insert_eq_insert_erase]
      refine (partitioned_insert (ExtTreeMap.not_mem_erase ps key) _).trans ?_
      refine List.Perm.trans ?_ (hold.append_right [pkg]).symm
      rw [Option.getD_some, List.append_assoc, List.append_assoc]
      exact (List.perm_append_comm).append_left bin

/-- Pushing a list. -/
theorem foldl_pushPartition_perm (key : ObjectSourceMetaSized → String) (l : Bin)
    (ps : ExtTreeMap String Bin) :
    (partitioned (l.foldl (fun ps p => pushPartition ps (key p) p) ps)).Perm (partitioned ps ++ l) := by
  induction l generalizing ps with
  | nil => simp
  | cons p l ih =>
      refine (ih (pushPartition ps (key p) p)).trans ?_
      refine ((pushPartition_perm ps (key p) p).append_right l).trans ?_
      rw [List.append_assoc]
      exact .refl _

/-- The keys after pushing a list. -/
theorem mem_foldl_pushPartition {key : ObjectSourceMetaSized → String} {l : Bin}
    {ps : ExtTreeMap String Bin} {k : String}
    (h : k ∈ l.foldl (fun ps p => pushPartition ps (key p) p) ps) :
    k ∈ ps ∨ ∃ p ∈ l, key p = k := by
  induction l generalizing ps with
  | nil => exact .inl h
  | cons p l ih =>
      rcases ih h with h | ⟨q, hq, heq⟩
      · have h : k ∈ ps.insert (key p) (ps.getD (key p) [] ++ [p]) := h
        rw [ExtTreeMap.mem_insert] at h
        rcases h with h | h
        · exact .inr ⟨p, List.mem_cons_self .., Std.compare_eq_iff_eq.mp h⟩
        · exact .inl h
      · exact .inr ⟨q, List.mem_cons_of_mem _ hq, heq⟩

section Classes

variable (st : Statistics)

/-- The components of high size. -/
def highSized (components : Bin) : Bin :=
  components.filter (fun p => st.highSize (components.map (·.size)) p.size)

/-- The components of low size. -/
def lowSized (components : Bin) : Bin :=
  (components.filter (fun p => ¬ st.highSize (components.map (·.size)) p.size)).filter
    (fun p => st.lowSize (components.map (·.size)) p.size)

/-- The components of medium size. -/
def medSized (components : Bin) : Bin :=
  (components.filter (fun p => ¬ st.highSize (components.map (·.size)) p.size)).filter
    (fun p => ¬ st.lowSize (components.map (·.size)) p.size)

end Classes

/-- What is left for the medium-size bins, in the order of the frequencies. -/
def remainingSized (st : Statistics) (components : Bin) (limit : Nat) : Bin :=
  ((highSized st components).drop limit ++ medSized st components).mergeSort
    (fun a b => a.changeFrequency ≤ b.changeFrequency)

theorem remainingSized_eq_nil {st : Statistics} {components : Bin} {limit : Nat} :
    remainingSized st components limit = [] ↔
      (highSized st components).length ≤ limit ∧ medSized st components = [] := by
  have hperm : (remainingSized st components limit).Perm
      ((highSized st components).drop limit ++ medSized st components) := List.mergeSort_perm ..
  rw [← List.length_eq_zero_iff, hperm.length_eq, List.length_eq_zero_iff, List.append_eq_nil_iff,
    List.drop_eq_nil_iff]

/-- The partitions, when there are any. -/
theorem getPartitions_eq (st : Statistics) (components : Bin) (limit : Nat) :
    getPartitionsWithThreshold st components limit =
      if remainingSized st components limit = [] then none
      else some ((remainingSized st components limit).foldl
        (fun ps p => pushPartition ps (medBucket st
          ((remainingSized st components limit).map (·.size))
          ((remainingSized st components limit).map (·.changeFrequency)) p) p)
        (((lowSized st components).foldl (fun ps p => pushPartition ps lowPartition p) ∅).insert
          highPartition ((highSized st components).take limit))) := by
  rw [getPartitionsWithThreshold]
  dsimp only
  by_cases hempty : components = []
  · subst hempty
    have hnil : remainingSized st [] limit = [] := remainingSized_eq_nil.mpr ⟨Nat.zero_le _, rfl⟩
    have hsizes : (([] : Bin).map (·.size)).isEmpty = true := rfl
    rw [if_pos hsizes, if_pos hnil]
  · rw [if_neg (by simpa using hempty)]
    show (if (remainingSized st components limit).isEmpty = true then none else some _) = _
    by_cases hrem : remainingSized st components limit = []
    · rw [if_pos hrem, if_pos (List.isEmpty_iff.mpr hrem)]
    · rw [if_neg hrem, if_neg (fun h => hrem (List.isEmpty_iff.mp h))]
      rfl

section Partition

variable {st : Statistics} {components : Bin} {limit : Nat}

/-- A condition splits a list. -/
theorem filter_not_perm (p : ObjectSourceMetaSized → Bool) (l : Bin) :
    (l.filter p ++ l.filter (fun x => ¬ p x)).Perm l := by
  have hnot : l.filter (fun x => ¬ p x) = l.filter (fun x => !p x) :=
    List.filter_congr (fun x _ => by simp)
  rw [hnot]
  exact List.filter_append_perm p l

/-- **Every component is in exactly one partition.** -/
theorem getPartitions_perm {ps : ExtTreeMap String Bin}
    (h : getPartitionsWithThreshold st components limit = some ps) :
    (partitioned ps).Perm components := by
  rw [getPartitions_eq] at h
  by_cases hrem : remainingSized st components limit = []
  · rw [if_pos hrem] at h
    exact absurd h (by simp)
  rw [if_neg hrem] at h
  obtain rfl := Option.some.inj h
  let high := highSized st components
  let low := lowSized st components
  let med := medSized st components
  have hlow : (partitioned (low.foldl (fun ps p => pushPartition ps lowPartition p) ∅)).Perm low := by
    have h := foldl_pushPartition_perm (fun _ => lowPartition) low ∅
    rwa [partitioned_empty, List.nil_append] at h
  have hnew : highPartition ∉ low.foldl (fun ps p => pushPartition ps lowPartition p) ∅ := by
    intro h
    rcases mem_foldl_pushPartition h with h | ⟨_, _, h⟩
    · exact ExtTreeMap.not_mem_empty h
    · exact absurd h (by decide)
  -- the middle classes change places
  have hmiddle : ((high.take limit ++ low) ++ (high.drop limit ++ med)).Perm
      (high.take limit ++ (high.drop limit ++ (low ++ med))) := by
    rw [List.append_assoc]
    exact (List.perm_append_comm_assoc _ _ _).append_left _
  have hall : (high.take limit ++ (high.drop limit ++ (low ++ med))).Perm components := by
    rw [← List.append_assoc, List.take_append_drop]
    exact ((filter_not_perm _ _).append_left _).trans (filter_not_perm _ components)
  refine (foldl_pushPartition_perm (medBucket st _ _) _ _).trans ?_
  refine (((partitioned_insert hnew _).trans (hlow.append_left _)).append
    (List.mergeSort_perm ..)).trans ?_
  exact hmiddle.trans hall

end Partition

-- ── Bins ──────────────────────────────────────────────────────────────────────

theorem chunksOf_flatten (n : Nat) (pkgs bin : Bin) :
    (chunksOf n pkgs bin).flatten = bin ++ pkgs := by
  induction pkgs generalizing bin with
  | nil =>
      rw [chunksOf]
      cases bin with
      | nil => rfl
      | cons p bin => simp
  | cons p pkgs ih =>
      rw [chunksOf]
      split
      · rw [ih, List.append_assoc]
        rfl
      · rw [List.flatten_cons, ih]
        rfl

theorem partitionBins_flatten (n : Nat) (partition : String) (pkgs : Bin) :
    (partitionBins n partition pkgs).flatten = pkgs := by
  rw [partitionBins]
  split
  · rw [← List.flatMap_def, List.flatMap_singleton']
  · split
    · exact List.append_nil pkgs
    · exact chunksOf_flatten n pkgs []

/-- The bins of all partitions hold what is in them. -/
theorem flatMap_partitionBins_flatten (n : Nat) (ps : List (String × Bin)) :
    (ps.flatMap (fun p => partitionBins n p.1 p.2)).flatten = ps.flatMap (·.2) := by
  induction ps with
  | nil => rfl
  | cons p ps ih =>
      rw [List.flatMap_cons, List.flatten_append, partitionBins_flatten, ih, List.flatMap_cons]

-- ── Merging ───────────────────────────────────────────────────────────────────

/-- Two neighbours, and what is before and behind them. -/
theorem split_pair {α : Type} {r : List α} {i : Nat} {prev curr : α} (hprev : r[i]? = some prev)
    (hcurr : r[i + 1]? = some curr) :
    ∃ before behind, r = before ++ prev :: curr :: behind ∧ before.length = i := by
  obtain ⟨hi, rfl⟩ := List.getElem?_eq_some_iff.mp hprev
  obtain ⟨hi', rfl⟩ := List.getElem?_eq_some_iff.mp hcurr
  refine ⟨r.take i, r.drop (i + 2), ?_, ?_⟩
  · rw [← List.drop_eq_getElem_cons hi', ← List.drop_eq_getElem_cons hi, List.take_append_drop]
  · rw [List.length_take]
    omega

/-- What a merge does to two neighbours. -/
theorem mergeBins_eq (before behind : List Bin) (prev curr : Bin) :
    mergeBins (before ++ prev :: curr :: behind) (before.length + 1) =
      if before.length + 1 ≤ (before ++ behind).length then
        .ok ((before ++ behind).insertIdx (before.length + 1) (prev ++ curr))
      else .error (.panic "insertion index should be <= len") := by
  have hprev : (before ++ prev :: curr :: behind)[before.length]? = some prev := by simp
  have hcurr : (before ++ prev :: curr :: behind)[before.length + 1]? = some curr := by simp
  have herase : ((before ++ prev :: curr :: behind).eraseIdx (before.length + 1)).eraseIdx
      before.length = before ++ behind := by
    rw [List.eraseIdx_append_of_length_le (by omega), Nat.add_sub_cancel_left,
      List.eraseIdx_append_of_length_le (by omega), Nat.sub_self]
    rfl
  rw [mergeBins, Nat.add_sub_cancel, hprev, hcurr]
  dsimp only
  rw [herase]

/-- One place behind some elements is the place after the next one. -/
theorem insertIdx_behind {α : Type} (before behind : List α) (next a : α) :
    (before ++ next :: behind).insertIdx (before.length + 1) a = before ++ next :: a :: behind := by
  induction before with
  | nil => rfl
  | cons b before ih =>
      rw [List.cons_append, List.length_cons, List.insertIdx_succ_cons, ih]
      rfl

/-- **A merge** of two neighbours: the merged bin goes behind the next one, which has to be
    there. -/
theorem mergeBins_split {r r' : List Bin} {i : Nat} (hi : 0 < i) (h : mergeBins r i = .ok r') :
    ∃ before prev curr next behind, r = before ++ prev :: curr :: next :: behind ∧
      before.length + 1 = i ∧ r' = before ++ next :: (prev ++ curr) :: behind := by
  obtain ⟨i, rfl⟩ : ∃ j, i = j + 1 := ⟨i - 1, by omega⟩
  have hpair : ∃ prev curr, r[i]? = some prev ∧ r[i + 1]? = some curr := by
    rw [mergeBins, Nat.add_sub_cancel] at h
    cases hprev : r[i]? with
    | none => rw [hprev] at h; exact absurd h (by simp)
    | some prev =>
        cases hcurr : r[i + 1]? with
        | none => rw [hprev, hcurr] at h; exact absurd h (by simp)
        | some curr => exact ⟨prev, curr, rfl, rfl⟩
  obtain ⟨prev, curr, hprev, hcurr⟩ := hpair
  obtain ⟨before, behind, rfl, rfl⟩ := split_pair hprev hcurr
  rw [mergeBins_eq] at h
  cases behind with
  | nil =>
      rw [if_neg (by simp)] at h
      exact absurd h (by simp)
  | cons next behind =>
      rw [if_pos (by rw [List.length_append, List.length_cons]; omega)] at h
      obtain rfl := Except.ok.inj h
      refine ⟨before, prev, curr, next, behind, rfl, rfl, ?_⟩
      exact insertIdx_behind before behind next _

/-- It keeps all components and takes one bin away. -/
theorem mergeBins_perm {r r' : List Bin} {i : Nat} (hi : 0 < i) (h : mergeBins r i = .ok r') :
    r'.flatten.Perm r.flatten ∧ r'.length + 1 = r.length := by
  obtain ⟨before, prev, curr, next, behind, rfl, -, rfl⟩ := mergeBins_split hi h
  constructor
  · simp only [List.flatten_append, List.flatten_cons]
    refine List.Perm.append_left _ ?_
    have hswap := (@List.perm_append_comm _ next (prev ++ curr)).append_right behind.flatten
    simp only [List.append_assoc] at hswap ⊢
    exact hswap
  · simp only [List.length_append, List.length_cons]
    omega

/-- A merge that leaves room behind it succeeds. -/
theorem mergeBins_ok {r : List Bin} {i : Nat} (hi : 0 < i) (hlen : i + 2 ≤ r.length) :
    ∃ r', mergeBins r i = .ok r' := by
  obtain ⟨i, rfl⟩ : ∃ j, i = j + 1 := ⟨i - 1, by omega⟩
  obtain ⟨prev, hprev⟩ : ∃ b, r[i]? = some b := ⟨_, List.getElem?_eq_getElem (by omega)⟩
  obtain ⟨curr, hcurr⟩ : ∃ b, r[i + 1]? = some b := ⟨_, List.getElem?_eq_getElem (by omega)⟩
  obtain ⟨before, behind, rfl, rfl⟩ := split_pair hprev hcurr
  simp only [List.length_append, List.length_cons] at hlen
  refine ⟨(before ++ behind).insertIdx (before.length + 1) (prev ++ curr), ?_⟩
  rw [mergeBins_eq, if_pos (by rw [List.length_append]; omega)]

/-- What every merge from some place on keeps, a round keeps. -/
theorem mergeRound_rel {R : List Bin → List Bin → Prop} {low target : Nat} (hrefl : ∀ r, R r r)
    (htrans : ∀ a b c, R a b → R b c → R a c)
    (hmerge : ∀ r r' i, low ≤ i → target < r.length → mergeBins r i = .ok r' → R r r')
    {is : List Nat} {r r' : List Bin} (his : ∀ i ∈ is, low ≤ i)
    (h : mergeRound target is r = .ok r') : R r r' := by
  induction is generalizing r with
  | nil =>
      obtain rfl := Except.ok.inj h
      exact hrefl r
  | cons i is ih =>
      rw [mergeRound] at h
      by_cases hle : r.length ≤ target
      · rw [if_pos hle] at h
        obtain rfl := Except.ok.inj h
        exact hrefl r
      · rw [if_neg hle] at h
        obtain ⟨r₁, hstep, h⟩ := result_bind_eq_ok.mp h
        have hfirst := hmerge r r₁ i (his i (List.mem_cons_self ..)) (Nat.not_le.mp hle) hstep
        exact htrans _ _ _ hfirst (ih (fun j hj => his j (List.mem_cons_of_mem _ hj)) h)

/-- **One round** keeps all components. -/
theorem mergeRound_perm {target : Nat} {is : List Nat} {r r' : List Bin} (his : ∀ i ∈ is, 0 < i)
    (h : mergeRound target is r = .ok r') : r'.flatten.Perm r.flatten ∧ r'.length ≤ r.length := by
  refine @mergeRound_rel (fun r r' => r'.flatten.Perm r.flatten ∧ r'.length ≤ r.length) 1 target
    (fun r => ⟨.refl _, Nat.le_refl _⟩)
    (fun a b c hab hbc => ⟨hbc.1.trans hab.1, hbc.2.trans hab.2⟩) ?_ is r r' his h
  intro r r' i hi _ hstep
  obtain ⟨hperm, hlen⟩ := mergeBins_perm hi hstep
  exact ⟨hperm, by omega⟩

/-- A round over indices that go down by two, with room behind the first, succeeds. -/
theorem mergeRound_ok {target : Nat} {is : List Nat} {r : List Bin}
    (his : ∀ i ∈ is, 0 < i ∧ i + 2 ≤ r.length) (hdown : is.Pairwise (fun a b => b + 2 ≤ a)) :
    ∃ r', mergeRound target is r = .ok r' := by
  induction is generalizing r with
  | nil => exact ⟨r, rfl⟩
  | cons i is ih =>
      rw [mergeRound]
      by_cases hle : r.length ≤ target
      · rw [if_pos hle]
        exact ⟨r, rfl⟩
      · rw [if_neg hle]
        obtain ⟨hi, hroom⟩ := his i (List.mem_cons_self ..)
        obtain ⟨r₁, hstep⟩ := mergeBins_ok hi hroom
        obtain ⟨_, hlen₁⟩ := mergeBins_perm hi hstep
        rw [hstep, bind_ok_eq]
        rw [List.pairwise_cons] at hdown
        refine ih (fun j hj => ?_) hdown.2
        have hj' := hdown.1 j hj
        exact ⟨(his j (List.mem_cons_of_mem _ hj)).1, by omega⟩

theorem mem_stepIndices {start stop i : Nat} (h : i ∈ stepIndices start stop) :
    start ≤ i ∧ i + 1 ≤ stop := by
  rw [stepIndices, List.mem_reverse, List.mem_map] at h
  obtain ⟨k, hk, rfl⟩ := h
  rw [List.mem_range] at hk
  omega

theorem stepIndices_down (start stop : Nat) :
    (stepIndices start stop).Pairwise (fun a b => b + 2 ≤ a) := by
  rw [stepIndices, List.pairwise_reverse, List.pairwise_map]
  refine List.Pairwise.imp ?_ List.pairwise_lt_range
  intro a b hab
  omega

theorem stepIndices_cons {start stop : Nat} (h : start < stop) :
    ∃ i is, stepIndices start stop = i :: is := by
  have hne : stepIndices start stop ≠ [] := by
    have hmem : start ∈ stepIndices start stop := by
      rw [stepIndices, List.mem_reverse, List.mem_map]
      exact ⟨0, List.mem_range.mpr (by omega), rfl⟩
    exact List.ne_nil_of_mem hmem
  exact List.exists_cons_of_ne_nil hne

/-- What every merge from the start of the range on keeps, the loop keeps; it ends with few enough
    bins. -/
theorem foldBins_rel {R : List Bin → List Bin → Prop} {start target : Nat} (hrefl : ∀ r, R r r)
    (htrans : ∀ a b c, R a b → R b c → R a c)
    (hmerge : ∀ r r' i, start ≤ i → target < r.length → mergeBins r i = .ok r' → R r r')
    {fuel : Nat} {r r' : List Bin} (h : foldBins start target fuel r = .ok r') :
    R r r' ∧ r'.length ≤ target := by
  induction fuel generalizing r with
  | zero =>
      rw [foldBins] at h
      by_cases hle : r.length ≤ target
      · rw [if_pos hle] at h
        obtain rfl := Except.ok.inj h
        exact ⟨hrefl r, hle⟩
      · rw [if_neg hle] at h
        exact absurd h (by simp)
  | succ fuel ih =>
      rw [foldBins] at h
      by_cases hle : r.length ≤ target
      · rw [if_pos hle] at h
        obtain rfl := Except.ok.inj h
        exact ⟨hrefl r, hle⟩
      · rw [if_neg hle] at h
        obtain ⟨r₁, hround, h⟩ := result_bind_eq_ok.mp h
        have hfirst := mergeRound_rel hrefl htrans hmerge
          (fun i hi => (mem_stepIndices hi).1) hround
        obtain ⟨hrest, hlen⟩ := ih h
        exact ⟨htrans _ _ _ hfirst hrest, hlen⟩

/-- **The loop** keeps all components and ends with few enough bins. -/
theorem foldBins_perm {start target fuel : Nat} {r r' : List Bin} (hstart : 0 < start)
    (h : foldBins start target fuel r = .ok r') :
    r'.flatten.Perm r.flatten ∧ r'.length ≤ target :=
  foldBins_rel (R := fun r r' => r'.flatten.Perm r.flatten) (fun _ => .refl _)
    (fun _ _ _ hab hbc => hbc.trans hab)
    (fun _ _ _ hi _ hstep => (mergeBins_perm (Nat.lt_of_lt_of_le hstart hi) hstep).1) h

/-- **The loop ends**: while there are too many bins, a round finds two to merge. -/
theorem foldBins_ok {start target fuel : Nat} {r : List Bin} (hstart : 0 < start)
    (htarget : start < target) (hfuel : r.length ≤ fuel + target) :
    ∃ r', foldBins start target fuel r = .ok r' := by
  induction fuel generalizing r with
  | zero =>
      rw [foldBins, if_pos (by omega)]
      exact ⟨r, rfl⟩
  | succ fuel ih =>
      rw [foldBins]
      by_cases hle : r.length ≤ target
      · rw [if_pos hle]
        exact ⟨r, rfl⟩
      · rw [if_neg hle]
        have hroom : ∀ i ∈ stepIndices start (r.length - 1), 0 < i ∧ i + 2 ≤ r.length :=
          fun i hi => by have := mem_stepIndices hi; omega
        obtain ⟨r₁, hround⟩ := @mergeRound_ok target _ _ hroom (stepIndices_down _ _)
        rw [hround, bind_ok_eq]
        -- the first index merges, as there are too many bins
        have hless : r₁.length < r.length := by
          obtain ⟨i, is, heq⟩ := stepIndices_cons (show start < r.length - 1 by omega)
          rw [heq] at hround hroom
          rw [mergeRound, if_neg hle] at hround
          obtain ⟨r₂, hstep, hround⟩ := result_bind_eq_ok.mp hround
          obtain ⟨_, hlen₂⟩ := mergeBins_perm (hroom i (List.mem_cons_self ..)).1 hstep
          obtain ⟨_, hlen⟩ := mergeRound_perm
            (fun j hj => (hroom j (List.mem_cons_of_mem _ hj)).1) hround
          omega
        exact ih (by omega)

-- ── The partition ─────────────────────────────────────────────────────────────

theorem checkedSub_eq_ok {a b n : Nat} : checkedSub a b = .ok n ↔ b ≤ a ∧ n = a - b := by
  rw [checkedSub]
  by_cases h : b ≤ a
  · rw [if_pos h]
    simp [h, eq_comm]
  · rw [if_neg h]
    simp [h]

section Pack

variable {st : Statistics} {fuel : Nat} {components : Bin} {binSize : Nat} {r : List Bin}

/-- The bins for the components below maximal frequency, if there are any. -/
def sizedBins (st : Statistics) (fuel : Nat) (components : Bin) (binSize : Nat) :
    Result (List Bin) :=
  if (components.filter (·.changeFrequency ≠ u32Max)).isEmpty then .ok []
  else packSized st fuel (components.filter (·.changeFrequency ≠ u32Max))
    (components.filter (·.changeFrequency = u32Max)).length binSize

/-- The bin for those of maximal frequency, and the reserved one. -/
def lastBins (components : Bin) : List Bin :=
  (if (components.filter (·.changeFrequency = u32Max)).isEmpty then []
    else [components.filter (·.changeFrequency = u32Max)]) ++ [[]]

/-- The final assertions. -/
def checkBins (components : Bin) (binSize : Nat) (r : List Bin) : Result (List Bin) :=
  if (r.map List.length).sum ≠ components.length then
    .error (.panic "assertion `left == right` failed")
  else if binSize < r.length then
    .error (.panic "assertion failed: r.len() <= bin_size.get() as usize")
  else .ok r

/-- `basic_packing` where there are enough components to pack. -/
theorem basicPacking_many (hsize : minChunkedLayers ≤ binSize) (hmany : binSize ≤ components.length) :
    basicPacking st fuel components binSize none = (do
      let r ← sizedBins st fuel components binSize
      checkBins components binSize (r ++ lastBins components)) := by
  rw [basicPacking, if_neg (by omega)]
  dsimp only
  rw [if_neg (by omega), sizedBins]
  split
  · rw [bind_ok_eq, bind_ok_eq, checkBins, lastBins, ← List.append_assoc]
  · simp only [checkBins, lastBins, ← List.append_assoc]

theorem checkBins_eq_ok {r r' : List Bin} (h : checkBins components binSize r = .ok r') :
    r' = r ∧ r.length ≤ binSize := by
  rw [checkBins] at h
  split at h
  · exact absurd h (by simp)
  split at h
  · exact absurd h (by simp)
  · exact ⟨(Except.ok.inj h).symm, by omega⟩

theorem lastBins_flatten (components : Bin) :
    (lastBins components).flatten = components.filter (·.changeFrequency = u32Max) := by
  rw [lastBins]
  split
  · rename_i hnone
    rw [List.isEmpty_iff.mp hnone]
    rfl
  · exact List.append_nil _

/-- The bins of the components below maximal frequency. -/
theorem packSized_perm {nMaxFreq : Nat} (h : packSized st fuel components nMaxFreq binSize = .ok r) :
    r.flatten.Perm components := by
  obtain ⟨rest, _, h⟩ := result_bind_eq_ok.mp h
  obtain ⟨limitMsBins, _, h⟩ := result_bind_eq_ok.mp h
  cases hps : getPartitionsWithThreshold st components (st.highSizeCutoff rest) with
  | none => rw [hps] at h; exact absurd h (by simp)
  | some ps =>
      rw [hps] at h
      obtain ⟨n₁, _, h⟩ := result_bind_eq_ok.mp h
      obtain ⟨n₂, _, h⟩ := result_bind_eq_ok.mp h
      by_cases hms : limitMsBins = 0
      · rw [if_pos hms] at h
        exact absurd h (by simp)
      · rw [if_neg hms] at h
        have hperm := (foldBins_perm (by omega) h).1
        rw [flatMap_partitionBins_flatten] at hperm
        exact hperm.trans (getPartitions_perm hps)

theorem sizedBins_perm (h : sizedBins st fuel components binSize = .ok r) :
    r.flatten.Perm (components.filter (·.changeFrequency ≠ u32Max)) := by
  rw [sizedBins] at h
  split at h
  · rename_i hnone
    obtain rfl := Except.ok.inj h
    rw [List.isEmpty_iff.mp hnone]
    exact .nil
  · exact packSized_perm h

theorem filter_max_perm (components : Bin) :
    (components.filter (·.changeFrequency ≠ u32Max) ++
      components.filter (·.changeFrequency = u32Max)).Perm components := by
  have h := filter_not_perm (fun p => p.changeFrequency = u32Max) components
  have hnot : components.filter (fun p => ¬ decide (p.changeFrequency = u32Max))
      = components.filter (·.changeFrequency ≠ u32Max) :=
    List.filter_congr (fun p _ => by simp)
  rw [hnot] at h
  exact List.perm_append_comm.trans h

/-- There is a smallest number of bins. -/
theorem minChunkedLayers_le {prior : Option ImageManifest}
    (h : basicPacking st fuel components binSize prior = .ok r) : minChunkedLayers ≤ binSize := by
  by_contra hlt
  unfold basicPacking at h
  rw [if_pos (Nat.not_le.mp hlt)] at h
  exact absurd h (by simp)

/-- The two ways to pack without a prior build. -/
theorem basicPacking_cases (h : basicPacking st fuel components binSize none = .ok r) :
    (components.length < binSize ∧
      r = components.map (fun p => [p]) ++ if 0 < components.length then [[]] else []) ∨
    ∃ bins, sizedBins st fuel components binSize = .ok bins ∧ r = bins ++ lastBins components ∧
      r.length ≤ binSize := by
  have hsize := minChunkedLayers_le h
  by_cases hfew : components.length < binSize
  · rw [basicPacking, if_neg (by omega)] at h
    dsimp only at h
    rw [if_pos hfew] at h
    exact .inl ⟨hfew, (Except.ok.inj h).symm⟩
  · rw [basicPacking_many hsize (by omega)] at h
    obtain ⟨bins, hbins, h⟩ := result_bind_eq_ok.mp h
    obtain ⟨rfl, hlen⟩ := checkBins_eq_ok h
    exact .inr ⟨bins, hbins, rfl, hlen⟩

/-- Every component is in exactly one bin. -/
theorem basicPacking_perm (h : basicPacking st fuel components binSize none = .ok r) :
    r.flatten.Perm components := by
  rcases basicPacking_cases h with ⟨_, rfl⟩ | ⟨bins, hbins, rfl, _⟩
  · have hsingle : (components.map (fun p => [p])).flatten = components := by
      rw [← List.flatMap_def, List.flatMap_singleton']
    rw [List.flatten_append, hsingle]
    split
    · exact .of_eq (List.append_nil _)
    · exact .of_eq (List.append_nil _)
  · rw [List.flatten_append, lastBins_flatten]
    exact ((sizedBins_perm hbins).append_right _).trans (filter_max_perm components)

/-- There are not too many bins. -/
theorem basicPacking_length (h : basicPacking st fuel components binSize none = .ok r) :
    r.length ≤ binSize := by
  rcases basicPacking_cases h with ⟨hfew, rfl⟩ | ⟨_, _, _, hlen⟩
  · rw [List.length_append, List.length_map]
    split
    · rw [List.length_singleton]
      omega
    · rw [List.length_nil]
      omega
  · exact hlen

/-- The last bin is reserved. -/
theorem basicPacking_reserved (h : basicPacking st fuel components binSize none = .ok r)
    (hne : components ≠ []) : r.getLast? = some [] := by
  rcases basicPacking_cases h with ⟨_, rfl⟩ | ⟨bins, _, rfl, _⟩
  · rw [if_pos (List.length_pos_iff.mpr hne)]
    exact List.getLast?_concat ..
  · rw [lastBins, ← List.append_assoc]
    exact List.getLast?_concat ..

/-- **Packing without a prior build is a bounded partition** whose last bin is reserved. -/
theorem basicPacking_partition (h : basicPacking st fuel components binSize none = .ok r) :
    r.flatten.Perm components ∧ r.length ≤ binSize ∧ (components ≠ [] → r.getLast? = some []) :=
  ⟨basicPacking_perm h, basicPacking_length h, basicPacking_reserved h⟩

end Pack

/-- Three components that change all the time, and one that does not. -/
def mostlyMaxFreq : Bin :=
  [{ identifier := "kernel", name := "kernel", changeFrequency := 12, size := 900 },
   { identifier := "initramfs", name := "initramfs", changeFrequency := u32Max, size := 400 },
   { identifier := "unpackaged", name := "unpackaged", changeFrequency := u32Max, size := 70 },
   { identifier := "rpmdb", name := "rpmdb", changeFrequency := u32Max, size := 30 }]

/-- They take three of four bins. -/
theorem mostlyMaxFreq_partition : ∃ r, basicPacking exactStatistics 0 mostlyMaxFreq 4 none = .ok r ∧
    r.flatten.Perm mostlyMaxFreq ∧ r.length = 3 ∧ r.getLast? = some [] := by
  have hpack : basicPacking exactStatistics 0 mostlyMaxFreq 4 none
      = .ok [mostlyMaxFreq.take 1, mostlyMaxFreq.drop 1, []] := by decide +kernel
  obtain ⟨hperm, _, hlast⟩ := basicPacking_partition hpack
  exact ⟨_, hpack, hperm, rfl, hlast (by simp [mostlyMaxFreq])⟩

-- ── When packing panics ───────────────────────────────────────────────────────

section Panics

variable (st : Statistics)

/-- The number of bins for single components of high size. -/
def limitHsBins (components : Bin) (binSize : Nat) : Nat :=
  st.highSizeCutoff (binSize - (1 + 1 + min (components.filter (·.changeFrequency = u32Max)).length 1))

/-- The classes that the counts are taken of are large enough: something is left for the
    medium-size bins, and there are as many components that are not of low size as there are
    bins for those of high size. -/
def SizesFit (sized : Bin) (limit : Nat) : Prop :=
  (limit < (highSized st sized).length ∨ medSized st sized ≠ []) ∧
    limit + (lowSized st sized).length ≤ sized.length

/-- The components that `basic_packing` can deal with. -/
def Packable (components : Bin) (binSize : Nat) : Prop :=
  binSize < minChunkedLayers ∨ components.length < binSize ∨
    components.filter (·.changeFrequency ≠ u32Max) = [] ∨
    SizesFit st (components.filter (·.changeFrequency ≠ u32Max)) (limitHsBins st components binSize)

end Panics

/-- The call comes to an end, with a value or an error. -/
def Returns {α : Type} (x : Result α) : Prop := (∃ a, x = .ok a) ∨ ∃ msg, x = .error (.err msg)

theorem lookup_foldl_pushPartition_ne {key : ObjectSourceMetaSized → String} {l : Bin}
    {ps : ExtTreeMap String Bin} {k : String} (h : ∀ p ∈ l, key p ≠ k) :
    (l.foldl (fun ps p => pushPartition ps (key p) p) ps)[k]? = ps[k]? := by
  induction l generalizing ps with
  | nil => rfl
  | cons p l ih =>
      rw [List.foldl_cons, ih (fun q hq => h q (List.mem_cons_of_mem _ hq)), pushPartition,
        ExtTreeMap.lookup_insert, if_neg (h p (List.mem_cons_self ..))]

theorem getD_foldl_pushPartition {l : Bin} {ps : ExtTreeMap String Bin} {k : String} :
    (l.foldl (fun ps p => pushPartition ps k p) ps).getD k [] = ps.getD k [] ++ l := by
  induction l generalizing ps with
  | nil => rw [List.append_nil]; rfl
  | cons p l ih =>
      have hpush : (pushPartition ps k p).getD k [] = ps.getD k [] ++ [p] := by
        rw [ExtTreeMap.getD_eq_getD_getElem?, pushPartition, ExtTreeMap.lookup_insert, if_pos rfl]
        rfl
      rw [List.foldl_cons, ih, hpush, List.append_assoc]
      rfl

theorem medBucket_ne_low (st : Statistics) (sizes freqs : List Nat) (pkg : ObjectSourceMetaSized) :
    medBucket st sizes freqs pkg ≠ lowPartition := by
  rw [medBucket]
  cases st.medHighFreq freqs pkg.changeFrequency <;> cases st.medLowFreq freqs pkg.changeFrequency <;>
    cases st.medHighSize sizes pkg.size <;> cases st.medLowSize sizes pkg.size <;> decide

/-- The low-size partition is the low-size class. -/
theorem getPartitions_low {st : Statistics} {components : Bin} {limit : Nat}
    {ps : ExtTreeMap String Bin} (h : getPartitionsWithThreshold st components limit = some ps) :
    ps.getD lowPartition [] = lowSized st components := by
  rw [getPartitions_eq] at h
  by_cases hrem : remainingSized st components limit = []
  · rw [if_pos hrem] at h
    exact absurd h (by simp)
  · rw [if_neg hrem] at h
    obtain rfl := Option.some.inj h
    rw [ExtTreeMap.getD_eq_getD_getElem?,
      lookup_foldl_pushPartition_ne (fun p _ => medBucket_ne_low st _ _ p),
      ExtTreeMap.lookup_insert, if_neg (by decide), ← ExtTreeMap.getD_eq_getD_getElem?,
      getD_foldl_pushPartition, ExtTreeMap.getD_eq_getD_getElem?, ExtTreeMap.lookup_empty]
    rfl

section Returns

variable {st : Statistics} {sized : Bin} {binSize nMaxFreq : Nat}

/-- The first steps of packing by size cannot fail. -/
theorem packSized_eq (hst : ∀ n, 0 < n → st.highSizeCutoff n < n)
    (hsize : minChunkedLayers ≤ binSize) :
    ∃ hs ms, hs = st.highSizeCutoff (binSize - (1 + 1 + min nMaxFreq 1)) ∧
      1 + hs < binSize - 1 - min nMaxFreq 1 ∧
      ∀ fuel, packSized st fuel sized nMaxFreq binSize = (
        match getPartitionsWithThreshold st sized hs with
        | none => .error (.panic "Partitioning components into sets")
        | some ps => do
            let n ← checkedSub sized.length hs
            let n ← checkedSub n (ps.getD lowPartition []).length
            foldBins (1 + hs) (binSize - 1 - min nMaxFreq 1) fuel
              (ps.toList.flatMap (fun p => partitionBins (n / ms) p.1 p.2))) := by
  have hfour : minChunkedLayers = 4 := rfl
  have hcut := hst (binSize - (1 + 1 + min nMaxFreq 1)) (by omega)
  refine ⟨_, binSize - (st.highSizeCutoff (binSize - (1 + 1 + min nMaxFreq 1))
    + (1 + 1 + min nMaxFreq 1)), rfl, by omega, fun fuel => ?_⟩
  rw [packSized]
  dsimp only
  rw [checkedSub_eq_ok.mpr ⟨by omega, rfl⟩, bind_ok_eq, checkedSub_eq_ok.mpr ⟨by omega, rfl⟩, bind_ok_eq]
  cases getPartitionsWithThreshold st sized
      (st.highSizeCutoff (binSize - (1 + 1 + min nMaxFreq 1))) with
  | none => rfl
  | some ps =>
      have hms : ¬ binSize - (st.highSizeCutoff (binSize - (1 + 1 + min nMaxFreq 1))
          + (1 + 1 + min nMaxFreq 1)) = 0 := by omega
      simp only [if_neg hms]

/-- **Packing by size** ends in a value when the classes are large enough. -/
theorem packSized_ok (hst : ∀ n, 0 < n → st.highSizeCutoff n < n)
    (hsize : minChunkedLayers ≤ binSize)
    (hfit : SizesFit st sized (st.highSizeCutoff (binSize - (1 + 1 + min nMaxFreq 1)))) :
    ∃ fuel₀, ∀ fuel, fuel₀ ≤ fuel → ∃ r, packSized st fuel sized nMaxFreq binSize = .ok r ∧
      r.length ≤ binSize - 1 - min nMaxFreq 1 := by
  obtain ⟨hs, ms, hhs, htarget, heq⟩ := @packSized_eq st sized binSize nMaxFreq hst hsize
  rw [← hhs] at hfit
  have hrem : remainingSized st sized hs ≠ [] := by
    intro h
    obtain ⟨hhigh, hmed⟩ := remainingSized_eq_nil.mp h
    exact hfit.1.elim (fun h => by omega) (fun h => h hmed)
  obtain ⟨ps, hps⟩ : ∃ ps, getPartitionsWithThreshold st sized hs = some ps :=
    ⟨_, by rw [getPartitions_eq, if_neg hrem]⟩
  have hlow := getPartitions_low hps
  let n := sized.length - hs - (lowSized st sized).length
  refine ⟨(ps.toList.flatMap (fun p => partitionBins (n / ms) p.1 p.2)).length, fun fuel hfuel => ?_⟩
  obtain ⟨r, hr⟩ := @foldBins_ok (1 + hs) (binSize - 1 - min nMaxFreq 1) fuel
    (ps.toList.flatMap (fun p => partitionBins (n / ms) p.1 p.2)) (by omega) htarget (by omega)
  refine ⟨r, ?_, (foldBins_perm (by omega) hr).2⟩
  have hcount := hfit.2
  rw [heq, hps]
  dsimp only
  rw [hlow, checkedSub_eq_ok.mpr ⟨by omega, rfl⟩, bind_ok_eq, checkedSub_eq_ok.mpr ⟨by omega, rfl⟩,
    bind_ok_eq]
  exact hr

/-- It panics when they are not. -/
theorem packSized_panics (hst : ∀ n, 0 < n → st.highSizeCutoff n < n)
    (hsize : minChunkedLayers ≤ binSize)
    (hfit : ¬ SizesFit st sized (st.highSizeCutoff (binSize - (1 + 1 + min nMaxFreq 1))))
    (fuel : Nat) : ∃ msg, packSized st fuel sized nMaxFreq binSize = .error (.panic msg) := by
  obtain ⟨hs, ms, hhs, _, heq⟩ := @packSized_eq st sized binSize nMaxFreq hst hsize
  rw [← hhs] at hfit
  rw [heq]
  cases hps : getPartitionsWithThreshold st sized hs with
  | none => exact ⟨_, rfl⟩
  | some ps =>
      have hrem : remainingSized st sized hs ≠ [] := by
        intro h
        rw [getPartitions_eq, if_pos h] at hps
        exact absurd hps (by simp)
      -- something is left, so one of the subtractions fails
      have hcount : ¬ hs + (lowSized st sized).length ≤ sized.length := by
        intro hle
        refine hfit ⟨?_, hle⟩
        by_contra hnot
        rw [not_or, not_not] at hnot
        exact hrem (remainingSized_eq_nil.mpr ⟨by omega, hnot.2⟩)
      dsimp only
      rw [getPartitions_low hps]
      by_cases hhs' : hs ≤ sized.length
      · rw [checkedSub_eq_ok.mpr ⟨hhs', rfl⟩, bind_ok_eq, checkedSub, if_neg (by omega)]
        exact ⟨_, rfl⟩
      · rw [checkedSub, if_neg hhs']
        exact ⟨_, rfl⟩

/-- The final assertions hold of a partition into few enough bins. -/
theorem checkBins_ok {components : Bin} {r : List Bin} (hperm : r.flatten.Perm components)
    (hlen : r.length ≤ binSize) : checkBins components binSize r = .ok r := by
  have hsum : (r.map List.length).sum = components.length := by
    rw [← List.length_flatten, hperm.length_eq]
  rw [checkBins, if_neg (fun h => h hsum), if_neg (by omega)]

theorem lastBins_length (components : Bin) : (lastBins components).length
    = min (components.filter (·.changeFrequency = u32Max)).length 1 + 1 := by
  rw [lastBins]
  cases components.filter (·.changeFrequency = u32Max) with
  | nil => rfl
  | cons p l =>
      simp only [List.isEmpty_cons, Bool.false_eq_true, if_false, List.length_append, List.length_cons,
        List.length_nil]
      omega

/-- **When packing without a prior build panics.** -/
theorem basicPacking_returns_iff (hst : ∀ n, 0 < n → st.highSizeCutoff n < n) (components : Bin)
    (binSize : Nat) :
    (∃ fuel₀, ∀ fuel, fuel₀ ≤ fuel → Returns (basicPacking st fuel components binSize none)) ↔
      Packable st components binSize := by
  have hfour : minChunkedLayers = 4 := rfl
  by_cases hsmall : binSize < minChunkedLayers
  · refine iff_of_true ⟨0, fun fuel _ => .inr ?_⟩ (.inl hsmall)
    rw [basicPacking, if_pos hsmall]
    exact ⟨_, rfl⟩
  by_cases hfew : components.length < binSize
  · refine iff_of_true ⟨0, fun fuel _ => .inl ?_⟩ (.inr (.inl hfew))
    rw [basicPacking, if_neg hsmall]
    dsimp only
    rw [if_pos hfew]
    exact ⟨_, rfl⟩
  have hmany : ∀ fuel, basicPacking st fuel components binSize none = _ :=
    fun fuel => basicPacking_many (Nat.not_lt.mp hsmall) (Nat.not_lt.mp hfew)
  have hlast := lastBins_length components
  -- whatever the bins of the sized components are, the assertions hold
  have hcheck : ∀ fuel r, sizedBins st fuel components binSize = .ok r →
      r.length ≤ binSize - 1 - min (components.filter (·.changeFrequency = u32Max)).length 1 →
      Returns (basicPacking st fuel components binSize none) := by
    intro fuel r hr hlen
    refine .inl ⟨r ++ lastBins components, ?_⟩
    rw [hmany, hr, bind_ok_eq]
    refine checkBins_ok ?_ ?_
    · rw [List.flatten_append, lastBins_flatten]
      exact ((sizedBins_perm hr).append_right _).trans (filter_max_perm components)
    · rw [List.length_append]
      omega
  by_cases hnone : components.filter (·.changeFrequency ≠ u32Max) = []
  · refine iff_of_true ⟨0, fun fuel _ => hcheck fuel [] ?_ (Nat.zero_le _)⟩ (.inr (.inr (.inl hnone)))
    rw [sizedBins, if_pos (List.isEmpty_iff.mpr hnone)]
  have hsized : ∀ fuel, sizedBins st fuel components binSize
      = packSized st fuel (components.filter (·.changeFrequency ≠ u32Max))
        (components.filter (·.changeFrequency = u32Max)).length binSize := by
    intro fuel
    rw [sizedBins, if_neg (fun h => hnone (List.isEmpty_iff.mp h))]
  by_cases hfit : SizesFit st (components.filter (·.changeFrequency ≠ u32Max))
      (limitHsBins st components binSize)
  · refine iff_of_true ?_ (.inr (.inr (.inr hfit)))
    obtain ⟨fuel₀, hok⟩ := packSized_ok hst (Nat.not_lt.mp hsmall) hfit
    refine ⟨fuel₀, fun fuel hfuel => ?_⟩
    obtain ⟨r, hr, hlen⟩ := hok fuel hfuel
    exact hcheck fuel r ((hsized fuel).trans hr) hlen
  · refine iff_of_false ?_ ?_
    · rintro ⟨fuel₀, h⟩
      obtain ⟨msg, hpanic⟩ := packSized_panics hst (Nat.not_lt.mp hsmall) hfit fuel₀
      have hrun : basicPacking st fuel₀ components binSize none = .error (.panic msg) := by
        rw [hmany, hsized, hpanic, bind_error_eq]
      rcases h fuel₀ (Nat.le_refl _) with ⟨a, ha⟩ | ⟨msg', hmsg⟩
      · exact absurd (hrun.symm.trans ha) (by simp)
      · exact absurd (hrun.symm.trans hmsg) (by simp)
    · rintro (h | h | h | h)
      · exact hsmall h
      · exact hfew h
      · exact hnone h
      · exact hfit h

end Returns

theorem exactStatistics_cutoff (n : Nat) (h : 0 < n) : exactStatistics.highSizeCutoff n < n := by
  show 3 * n / 5 < n
  omega

/-- With four bins, one component below maximal frequency is left for a medium-size bin. -/
theorem mostlyMaxFreq_returns : Packable exactStatistics mostlyMaxFreq 4 ∧
    ∃ fuel₀, ∀ fuel, fuel₀ ≤ fuel →
      Returns (basicPacking exactStatistics fuel mostlyMaxFreq 4 none) := by
  have hpackable : Packable exactStatistics mostlyMaxFreq 4 :=
    .inr (.inr (.inr ⟨.inl (by decide +kernel), by decide +kernel⟩))
  exact ⟨hpackable, (basicPacking_returns_iff exactStatistics_cutoff mostlyMaxFreq 4).mpr hpackable⟩

/-- A further component of maximal frequency. -/
def allButOneMaxFreq : Bin := mostlyMaxFreq ++
  [{ identifier := "locale", name := "locale", changeFrequency := u32Max, size := 5 }]

/-- With five bins it goes to a high-size bin, and there are no statistics of the rest. -/
theorem allButOneMaxFreq_panics :
    (allButOneMaxFreq.map (·.identifier)).Nodup ∧
    allButOneMaxFreq.Pairwise (fun a b => b.size ≤ a.size) ∧
    (allButOneMaxFreq.map (·.size)).sum < 2 ^ 64 ∧
    ∀ fuel, basicPacking exactStatistics fuel allButOneMaxFreq 5 none
      = .error (.panic "Partitioning components into sets") := by
  refine ⟨by decide, by decide, by decide, fun fuel => ?_⟩
  have hmany : minChunkedLayers ≤ 5 ∧ 5 ≤ allButOneMaxFreq.length := by decide
  have hsized : sizedBins exactStatistics fuel allButOneMaxFreq 5
      = .error (.panic "Partitioning components into sets") := by
    obtain ⟨hs, ms, hhs, _, heq⟩ := @packSized_eq exactStatistics (mostlyMaxFreq.take 1) 5 4
      exactStatistics_cutoff hmany.1
    have hone : hs = 1 := hhs
    have hpartitions : getPartitionsWithThreshold exactStatistics (mostlyMaxFreq.take 1) 1 = none :=
      Option.isNone_iff_eq_none.mp (by decide +kernel)
    have hsplit : sizedBins exactStatistics fuel allButOneMaxFreq 5
        = packSized exactStatistics fuel (mostlyMaxFreq.take 1) 4 5 := rfl
    rw [hsplit, heq, hone, hpartitions]
  rw [basicPacking_many hmany.1 hmany.2, hsized, bind_error_eq]

end OstreeExt
