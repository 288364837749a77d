import OstreeExt.Merge

/-!
# The bins of high size

The loop of `basic_packing` merges bins while there are too many of them.  It ends, with few enough
bins, and no index is out of range (`foldBins_spares`); and it starts to merge behind the bins of
the high-size components, which stay alone (`packing_spares_high`).
-/

namespace OstreeExt

open Std

-- ── What a merge leaves alone ─────────────────────────────────────────────────

/-- A merge changes nothing more than one place before its index. -/
theorem mergeBins_take {r r' : List Bin} {i hs : Nat} (hi : hs < i) (h : mergeBins r i = .ok r') :
    r'.take hs = r.take hs := by
  obtain ⟨before, prev, curr, next, behind, rfl, hlen, rfl⟩ :=
    mergeBins_split (Nat.lt_of_le_of_lt (Nat.zero_le hs) hi) h
  have hle : hs ≤ before.length := by omega
  rw [List.take_append_of_le_length hle, List.take_append_of_le_length hle]

/-- **The loop leaves the first bins alone.** -/
theorem foldBins_take {hs target fuel : Nat} {r r' : List Bin}
    (h : foldBins (1 + hs) target fuel r = .ok r') : r'.take hs = r.take hs :=
  (foldBins_rel (R := fun r r' => r'.take hs = r.take hs) (fun _ => rfl)
    (fun _ _ _ hab hbc => hbc.trans hab)
    (fun _ _ _ hi _ hmerge => mergeBins_take (by omega) hmerge) h).1

/-- More rounds than are needed change nothing. -/
theorem foldBins_more {start target fuel more : Nat} {r r' : List Bin} (hle : fuel ≤ more)
    (h : foldBins start target fuel r = .ok r') : foldBins start target more r = .ok r' := by
  induction fuel generalizing more r with
  | zero =>
      rw [foldBins] at h
      by_cases hfew : r.length ≤ target
      · rw [if_pos hfew] at h
        rw [foldBins_of_le hfew]
        exact h
      · rw [if_neg hfew] at h
        exact absurd h (by simp)
  | succ fuel ih =>
      obtain ⟨more, rfl⟩ : ∃ m, more = m + 1 := ⟨more - 1, by omega⟩
      rw [foldBins] at h ⊢
      by_cases hfew : r.length ≤ target
      · rw [if_pos hfew] at h ⊢
        exact h
      · rw [if_neg hfew] at h ⊢
        obtain ⟨r₁, hround, h⟩ := result_bind_eq_ok.mp h
        rw [hround, bind_ok_eq]
        exact ih (by omega) h

/-- **The loop** with the limits of `basic_packing`: no subtraction goes below zero, the loop ends
    after as many rounds as there are bins too many, or fewer, with no index out of range, and with
    few enough bins; and those of high size are as they were. -/
theorem foldBins_spares {binSize nMaxFreq hs : Nat}
    (hms : hs + (1 + 1 + min nMaxFreq 1) < binSize) (r : List Bin) :
    1 + min nMaxFreq 1 < binSize ∧ ∃ r',
      (∀ fuel, r.length ≤ fuel + (binSize - 1 - min nMaxFreq 1) →
        foldBins (1 + hs) (binSize - 1 - min nMaxFreq 1) fuel r = .ok r') ∧
      r'.length ≤ binSize - 1 - min nMaxFreq 1 ∧ r'.take hs = r.take hs := by
  have htarget : 1 + hs < binSize - 1 - min nMaxFreq 1 := by omega
  obtain ⟨r', hr'⟩ := @foldBins_ok (1 + hs) (binSize - 1 - min nMaxFreq 1)
    (r.length - (binSize - 1 - min nMaxFreq 1)) r (by omega) htarget (by omega)
  refine ⟨by omega, r', ?_, (foldBins_perm (by omega) hr').2, foldBins_take hr'⟩
  intro fuel hfuel
  exact foldBins_more (by omega) hr'

-- ── The partitions in order ───────────────────────────────────────────────────

/-- The medium-size partitions are behind that of high size. -/
theorem high_lt_medBucket (st : Statistics) (sizes freqs : List Nat) (pkg : ObjectSourceMetaSized) :
    compare highPartition (medBucket st sizes freqs pkg) = .lt := by
  rw [medBucket]
  cases st.medHighFreq freqs pkg.changeFrequency <;> cases st.medLowFreq freqs pkg.changeFrequency <;>
    cases st.medHighSize sizes pkg.size <;> cases st.medLowSize sizes pkg.size <;> decide

section Order

variable {st : Statistics} {components : Bin} {limit : Nat} {ps : ExtTreeMap String Bin}

/-- The high-size partition, with no more components than there are bins for them. -/
theorem getPartitions_high (h : getPartitionsWithThreshold st components limit = some ps) :
    ps[highPartition]? = some ((highSized st components).take limit) := by
  rw [getPartitions_eq] at h
  by_cases hrem : remainingSized st components limit = []
  · rw [if_pos hrem] at h
    exact absurd h (by simp)
  · rw [if_neg hrem] at h
    injection h with h
    rw [← h, lookup_foldl_pushPartition_ne (fun p _ => medBucket_ne_high st _ _ p),
      ExtTreeMap.lookup_insert, if_pos rfl]

/-- All other partitions are behind it. -/
theorem getPartitions_order (h : getPartitionsWithThreshold st components limit = some ps)
    {k : String} (hk : k ∈ ps) : k = highPartition ∨ compare highPartition k = .lt := by
  rw [getPartitions_eq] at h
  by_cases hrem : remainingSized st components limit = []
  · rw [if_pos hrem] at h
    exact absurd h (by simp)
  rw [if_neg hrem] at h
  injection h with h
  subst h
  rcases mem_foldl_pushPartition hk with hk | ⟨p, -, rfl⟩
  · rw [ExtTreeMap.mem_insert] at hk
    rcases hk with heq | hk
    · exact .inl (Std.compare_eq_iff_eq.mp heq).symm
    · rcases mem_foldl_pushPartition hk with hk | ⟨p, -, rfl⟩
      · exact absurd hk ExtTreeMap.not_mem_empty
      · exact .inr (by decide)
  · exact .inr (high_lt_medBucket st _ _ p)

/-- **The high-size partition is the first one.** -/
theorem getPartitions_toList (h : getPartitionsWithThreshold st components limit = some ps) :
    ∃ rest, ps.toList = (highPartition, (highSized st components).take limit) :: rest := by
  have hmem : (highPartition, (highSized st components).take limit) ∈ ps.toList :=
    ExtTreeMap.mem_toList_iff.mpr (getPartitions_high h)
  have hsorted := ExtTreeMap.ordered_keys_toList (t := ps)
  cases hlist : ps.toList with
  | nil =>
      rw [hlist] at hmem
      exact absurd hmem List.not_mem_nil
  | cons e rest =>
      rw [hlist] at hmem hsorted
      have hin : e.1 ∈ ps := by
        rw [ExtTreeMap.mem_iff_mem_keys_toList, hlist]
        exact List.mem_cons_self ..
      rcases List.mem_cons.mp hmem with heq | hmem
      · exact ⟨rest, by rw [heq]⟩
      · -- the first key would be before it, and after it
        have hlt := (List.pairwise_cons.mp hsorted).1 _ hmem
        rcases getPartitions_order h hin with heq | hgt
        · rw [heq] at hlt
          exact absurd hlt (by simp)
        · rw [@Std.OrientedCmp.eq_swap _ compare, hlt] at hgt
          exact absurd hgt (by decide)

end Order

-- ── The bins of the result ────────────────────────────────────────────────────

section Pack

variable {st : Statistics} {fuel : Nat} {components : Bin} {binSize : Nat} {r : List Bin}
  {ps : ExtTreeMap String Bin}

/-- The high-size components, each in a bin of its own, are the first bins of all partitions. -/
theorem allBins_high {limit quota : Nat}
    (hps : getPartitionsWithThreshold st components limit = some ps) :
    ∃ tail, allBins quota ps
      = ((highSized st components).take limit).map (fun p => [p]) ++ tail := by
  obtain ⟨rest, hlist⟩ := getPartitions_toList hps
  refine ⟨rest.flatMap (fun p => partitionBins quota p.1 p.2), ?_⟩
  rw [allBins, hlist, List.flatMap_cons, partitionBins, if_pos rfl]

/-- What is short enough is kept with the first elements of a list. -/
theorem prefix_of_take_eq {α : Type} {front tail r : List α} {n : Nat} (hlen : front.length ≤ n)
    (h : r.take n = (front ++ tail).take n) : front <+: r := by
  have hprefix : front <+: r.take n := by
    rw [h, List.take_append, List.take_of_length_le hlen]
    exact List.prefix_append _ _
  exact hprefix.trans (List.take_prefix n r)

/-- The loop does not touch them. -/
theorem packSized_high {nMaxFreq hs : Nat}
    (hhs : hs = st.highSizeCutoff (binSize - (1 + 1 + min nMaxFreq 1)))
    (hps : getPartitionsWithThreshold st components hs = some ps)
    (h : packSized st fuel components nMaxFreq binSize = .ok r) :
    (ps.getD highPartition []).map (fun p => [p]) <+: r := by
  obtain ⟨rest, hrest, h⟩ := result_bind_eq_ok.mp h
  obtain ⟨-, rfl⟩ := checkedSub_eq_ok.mp hrest
  rw [← hhs] at h
  obtain ⟨ms, -, h⟩ := result_bind_eq_ok.mp h
  rw [hps] at h
  obtain ⟨n₁, -, h⟩ := result_bind_eq_ok.mp h
  obtain ⟨n₂, -, h⟩ := result_bind_eq_ok.mp h
  by_cases hms : ms = 0
  · rw [if_pos hms] at h
    exact absurd h (by simp)
  rw [if_neg hms] at h
  have htake : r.take hs = (allBins (n₂ / ms) ps).take hs := foldBins_take h
  obtain ⟨tail, hbins⟩ := @allBins_high st components ps hs (n₂ / ms) hps
  rw [hbins] at htake
  rw [ExtTreeMap.getD_eq_getD_getElem?, getPartitions_high hps, Option.getD_some]
  refine prefix_of_take_eq ?_ htake
  rw [List.length_map, List.length_take]
  exact Nat.min_le_left _ _

/-- **The components of the high-size partition** are alone in the first bins of the result. -/
theorem basicPacking_high (h : basicPacking st fuel components binSize none = .ok r)
    (hmany : binSize ≤ components.length)
    (hps : getPartitionsWithThreshold st (components.filter (·.changeFrequency ≠ u32Max))
      (limitHsBins st components binSize) = some ps) :
    (ps.getD highPartition []).map (fun p => [p]) <+: r := by
  rcases basicPacking_cases h with ⟨hfew, -⟩ | ⟨bins, hbins, rfl, -⟩
  · exact absurd hfew (by omega)
  · rw [sizedBins] at hbins
    by_cases hnone : (components.filter (·.changeFrequency ≠ u32Max)).isEmpty = true
    · rw [List.isEmpty_iff.mp hnone] at hps
      exact absurd hps (by simp [getPartitionsWithThreshold])
    · rw [if_neg hnone] at hbins
      exact (packSized_high rfl hps hbins).trans (List.prefix_append _ _)

end Pack

/-- **The loop of `basic_packing` ends within its bounds and spares the bins of high size.**  For
    any limits that leave a bin for medium size, and any bins: no subtraction goes below zero, no
    index is out of range, as many rounds as there are bins too many are enough, and few enough bins
    are left, of which the first are as they were; so in a packing the components of the high-size
    partition are alone in the first bins. -/
theorem packing_spares_high :
    (∀ (binSize nMaxFreq hs : Nat) (r : List Bin), hs + (1 + 1 + min nMaxFreq 1) < binSize →
      1 + min nMaxFreq 1 < binSize ∧ ∃ r',
        (∀ fuel, r.length ≤ fuel + (binSize - 1 - min nMaxFreq 1) →
          foldBins (1 + hs) (binSize - 1 - min nMaxFreq 1) fuel r = .ok r') ∧
        r'.length ≤ binSize - 1 - min nMaxFreq 1 ∧ r'.take hs = r.take hs) ∧
    ∀ (st : Statistics) (fuel : Nat) (components : Bin) (binSize : Nat) (r : List Bin)
      (ps : ExtTreeMap String Bin), basicPacking st fuel components binSize none = .ok r →
      binSize ≤ components.length →
      getPartitionsWithThreshold st (components.filter (·.changeFrequency ≠ u32Max))
        (limitHsBins st components binSize) = some ps →
      (ps.getD highPartition []).map (fun p => [p]) <+: r :=
  ⟨fun _ _ _ r hms => foldBins_spares hms r,
    fun _ _ _ _ _ _ h hmany hps => basicPacking_high h hmany hps⟩

/-- Six bins for a packing of at most four, two of them of high size. -/
theorem advancedBins_spared : ∃ r',
    (∀ fuel, advancedBins.length ≤ fuel + (6 - 1 - min 1 1) →
      foldBins (1 + 2) (6 - 1 - min 1 1) fuel advancedBins = .ok r') ∧
    r'.length ≤ 4 ∧ r'.take 2 = advancedBins.take 2 :=
  (packing_spares_high.1 6 1 2 advancedBins (by decide)).2

end OstreeExt
