import OstreeExt.Bins

/-!
# Empty bins

Medium-size components fill a bin up to a quota, the number of components that are left for
these bins by the number of bins.  A bin that is full is put out, empty or not; only the last
bin of a partition is put out when something is in it.  With a quota of zero the first bin of
each partition is therefore empty, and merging cannot remove all of them:
`basicPacking_filled_iff` says when only the reserved bin is empty.
-/

namespace OstreeExt

open Std

-- ── The bins of one partition ─────────────────────────────────────────────────

/-- With a quota, no bin of a partition is empty. -/
theorem chunksOf_filled {n : Nat} (hn : 0 < n) (pkgs bin : Bin) :
    [] ∉ chunksOf n pkgs bin := by
  induction pkgs generalizing bin with
  | nil =>
      rw [chunksOf]
      cases bin with
      | nil => simp
      | cons p bin => simp
  | cons p pkgs ih =>
      rw [chunksOf]
      split
      · exact ih _
      · next hfull =>
          rw [List.mem_cons, not_or]
          refine ⟨?_, ih _⟩
          rintro rfl
          exact hfull hn

/-- Without one, the first bin is. -/
theorem chunksOf_zero (p : ObjectSourceMetaSized) (pkgs : Bin) :
    [] ∈ chunksOf 0 (p :: pkgs) [] := by
  rw [chunksOf, if_neg (Nat.not_lt_zero _)]
  exact List.mem_cons_self ..

/-- The partitions that are pushed to are not empty. -/
theorem foldl_pushPartition_filled {key : ObjectSourceMetaSized → String} {l : Bin}
    {ps : ExtTreeMap String Bin} {k₀ : String}
    (hps : ∀ k bin, ps[k]? = some bin → k ≠ k₀ → bin ≠ []) (k : String) (bin : Bin)
    (h : (l.foldl (fun ps p => pushPartition ps (key p) p) ps)[k]? = some bin) (hk : k ≠ k₀) :
    bin ≠ [] := by
  induction l generalizing ps with
  | nil => exact hps k bin h hk
  | cons p l ih =>
      rw [List.foldl_cons] at h
      refine ih (fun k' bin' h' hk' => ?_) h
      rw [pushPartition, ExtTreeMap.lookup_insert] at h'
      split at h'
      · obtain rfl := Option.some.inj h'
        simp
      · exact hps k' bin' h' hk'

/-- The keys that are pushed to, and those that were there. -/
theorem mem_foldl_pushPartition_of {key : ObjectSourceMetaSized → String} {l : Bin}
    {ps : ExtTreeMap String Bin} {k : String} (h : k ∈ ps ∨ ∃ p ∈ l, key p = k) :
    k ∈ l.foldl (fun ps p => pushPartition ps (key p) p) ps := by
  induction l generalizing ps with
  | nil =>
      rcases h with h | ⟨p, hp, -⟩
      · exact h
      · exact absurd hp (by simp)
  | cons q l ih =>
      rw [List.foldl_cons]
      refine ih ?_
      rw [pushPartition, ExtTreeMap.mem_insert]
      rcases h with h | ⟨p, hp, hkey⟩
      · exact .inl (.inr h)
      · rcases List.mem_cons.mp hp with rfl | hp
        · exact .inl (.inl (Std.compare_eq_iff_eq.mpr hkey))
        · exact .inr ⟨p, hp, hkey⟩

theorem medBucket_ne_high (st : Statistics) (sizes freqs : List Nat) (pkg : ObjectSourceMetaSized) :
    medBucket st sizes freqs pkg ≠ highPartition := by
  rw [medBucket]
  cases st.medHighFreq freqs pkg.changeFrequency <;> cases st.medLowFreq freqs pkg.changeFrequency <;>
    cases st.medHighSize sizes pkg.size <;> cases st.medLowSize sizes pkg.size <;> decide

section Partitions

variable {st : Statistics} {components : Bin} {limit : Nat} {ps : ExtTreeMap String Bin}

/-- Only the high-size partition can be empty, and one of medium size is there. -/
theorem getPartitions_filled (h : getPartitionsWithThreshold st components limit = some ps) :
    (∀ k bin, ps[k]? = some bin → k ≠ highPartition → bin ≠ []) ∧
      ∃ k bin, ps[k]? = some bin ∧ k ≠ highPartition ∧ k ≠ lowPartition := by
  rw [getPartitions_eq] at h
  by_cases hrem : remainingSized st components limit = []
  · rw [if_pos hrem] at h
    exact absurd h (by simp)
  rw [if_neg hrem] at h
  obtain rfl := Option.some.inj h
  constructor
  · refine foldl_pushPartition_filled (fun k bin hk hne => ?_)
    rw [ExtTreeMap.lookup_insert, if_neg (fun heq => hne heq.symm)] at hk
    refine @foldl_pushPartition_filled _ _ _ highPartition (fun k bin hk _ => ?_) k bin hk hne
    rw [ExtTreeMap.lookup_empty] at hk
    exact absurd hk (by simp)
  · obtain ⟨p, rest, hp⟩ := List.exists_cons_of_ne_nil hrem
    have hmem := @mem_foldl_pushPartition_of
      (medBucket st ((remainingSized st components limit).map (·.size))
        ((remainingSized st components limit).map (·.changeFrequency)))
      (remainingSized st components limit)
      (((lowSized st components).foldl (fun ps p => pushPartition ps lowPartition p) ∅).insert
        highPartition ((highSized st components).take limit)) _
      (.inr ⟨p, by rw [hp]; exact List.mem_cons_self .., rfl⟩)
    rw [ExtTreeMap.mem_iff_lookup] at hmem
    obtain ⟨bin, hbin⟩ := hmem
    exact ⟨_, bin, hbin, medBucket_ne_high _ _ _ _, medBucket_ne_low _ _ _ _⟩

/-- The bins of all partitions, before any is merged. -/
def allBins (quota : Nat) (ps : ExtTreeMap String Bin) : List Bin :=
  ps.toList.flatMap (fun p => partitionBins quota p.1 p.2)

theorem mem_allBins {quota : Nat} {bin : Bin} : bin ∈ allBins quota ps ↔
    ∃ k pkgs, ps[k]? = some pkgs ∧ bin ∈ partitionBins quota k pkgs := by
  rw [allBins, List.mem_flatMap]
  constructor
  · rintro ⟨⟨k, pkgs⟩, hmem, hbin⟩
    exact ⟨k, pkgs, ExtTreeMap.mem_toList_iff.mp hmem, hbin⟩
  · rintro ⟨k, pkgs, hk, hbin⟩
    exact ⟨(k, pkgs), ExtTreeMap.mem_toList_iff.mpr hk, hbin⟩

/-- **With a quota, no bin is empty.** -/
theorem allBins_filled (h : getPartitionsWithThreshold st components limit = some ps) {quota : Nat}
    (hquota : 0 < quota) : [] ∉ allBins quota ps := by
  intro hmem
  obtain ⟨k, pkgs, hk, hbin⟩ := mem_allBins.mp hmem
  rw [partitionBins] at hbin
  split at hbin
  · simp at hbin
  next hhigh =>
  split at hbin
  · exact (getPartitions_filled h).1 k pkgs hk hhigh (List.mem_singleton.mp hbin).symm
  · exact chunksOf_filled hquota pkgs [] hbin

/-- **Without one, some bin is.** -/
theorem allBins_empty (h : getPartitionsWithThreshold st components limit = some ps) :
    [] ∈ allBins 0 ps := by
  obtain ⟨hfilled, k, pkgs, hk, hhigh, hlow⟩ := getPartitions_filled h
  obtain ⟨p, rest, rfl⟩ := List.exists_cons_of_ne_nil (hfilled k pkgs hk hhigh)
  refine mem_allBins.mpr ⟨k, _, hk, ?_⟩
  rw [partitionBins, if_neg hhigh, if_neg hlow]
  exact chunksOf_zero p rest

/-- The components of low size share a bin. -/
theorem lowSized_mem_allBins (h : getPartitionsWithThreshold st components limit = some ps)
    {quota : Nat} (hne : lowSized st components ≠ []) : lowSized st components ∈ allBins quota ps := by
  have hlow := getPartitions_low h
  rw [ExtTreeMap.getD_eq_getD_getElem?] at hlow
  cases hget : ps[lowPartition]? with
  | none =>
      rw [hget] at hlow
      exact absurd hlow.symm hne
  | some pkgs =>
      rw [hget, Option.getD_some] at hlow
      refine mem_allBins.mpr ⟨lowPartition, pkgs, hget, ?_⟩
      rw [partitionBins, if_neg (by decide), if_pos rfl, hlow]
      exact List.mem_singleton_self _

end Partitions

-- ── Counting empty bins ───────────────────────────────────────────────────────

/-- The number of empty bins. -/
def empties (r : List Bin) : Nat := r.count []

/-- Bins that are not empty hold something: there are no more of them than components, and
    fewer by what one of them holds beyond its first. -/
theorem filled_le (r : List Bin) : r.length ≤ empties r + r.flatten.length := by
  induction r with
  | nil => exact Nat.zero_le _
  | cons bin r ih =>
      rw [empties] at ih ⊢
      rw [List.length_cons, List.flatten_cons, List.length_append, List.count_cons]
      cases bin with
      | nil => simp only [List.length_nil, beq_self_eq_true, if_true]; omega
      | cons p bin => simp only [List.length_cons]; omega

theorem filled_add_le {r : List Bin} {bin : Bin} (hbin : bin ∈ r) (hne : bin ≠ []) :
    r.length + bin.length ≤ empties r + r.flatten.length + 1 := by
  obtain ⟨before, behind, rfl⟩ := List.append_of_mem hbin
  have hrest := filled_le (before ++ behind)
  have hcount : empties (before ++ bin :: behind) = empties (before ++ behind) := by
    rw [empties, empties, List.count_append, List.count_append, List.count_cons_of_ne hne]
  rw [hcount]
  simp only [List.flatten_append, List.flatten_cons, List.length_append, List.length_cons] at hrest ⊢
  omega

/-- What merging does to the number of empty bins: it does not go up, it goes down by no more
    than the number of bins, and merging stops as soon as there are few enough. -/
structure Shrinks (target : Nat) (r r' : List Bin) : Prop where
  empties_le : empties r' ≤ empties r
  empties_ge : empties r + r'.length ≤ empties r' + r.length
  length_ge : min r.length target ≤ r'.length

theorem Shrinks.refl (target : Nat) (r : List Bin) : Shrinks target r r :=
  ⟨Nat.le_refl _, Nat.le_refl _, Nat.min_le_left _ _⟩

theorem Shrinks.trans {target : Nat} (a b c : List Bin) (hab : Shrinks target a b)
    (hbc : Shrinks target b c) : Shrinks target a c := by
  obtain ⟨hle, hge, hlen⟩ := hab
  obtain ⟨hle', hge', hlen'⟩ := hbc
  exact ⟨by omega, by omega, by omega⟩

/-- Two bins merged are empty only if both were. -/
theorem empties_append (prev curr : Bin) (behind : List Bin) :
    empties ((prev ++ curr) :: behind) ≤ empties (prev :: curr :: behind) ∧
      empties (prev :: curr :: behind) ≤ empties ((prev ++ curr) :: behind) + 1 := by
  simp only [empties, List.count_cons]
  cases prev with
  | nil =>
      rw [List.nil_append, if_pos (beq_self_eq_true _)]
      omega
  | cons p prev =>
      have hprev : ((p :: prev) == ([] : Bin)) = false := rfl
      have hmerged : ((p :: prev ++ curr) == ([] : Bin)) = false := rfl
      rw [hprev, hmerged, if_neg Bool.false_ne_true]
      split <;> omega

theorem mergeBins_shrinks {target : Nat} {r r' : List Bin} {i : Nat} (hi : 0 < i)
    (hlong : target < r.length) (h : mergeBins r i = .ok r') : Shrinks target r r' := by
  obtain ⟨before, prev, curr, next, behind, rfl, -, rfl⟩ := mergeBins_split hi h
  have hmerged := empties_append prev curr (next :: behind)
  simp only [empties, List.count_cons, List.length_append, List.length_cons] at hmerged hlong
  refine ⟨?_, ?_, ?_⟩
  · simp only [empties, List.count_append, List.count_cons]
    omega
  · simp only [empties, List.count_append, List.count_cons, List.length_append, List.length_cons]
    omega
  · simp only [List.length_append, List.length_cons]
    omega

/-- **The whole loop.** -/
theorem foldBins_shrinks {start target fuel : Nat} {r r' : List Bin} (hstart : 0 < start)
    (h : foldBins start target fuel r = .ok r') : Shrinks target r r' :=
  (foldBins_rel (Shrinks.refl target) Shrinks.trans (fun _ _ _ hi hlong hmerge =>
    mergeBins_shrinks (Nat.lt_of_lt_of_le hstart hi) hlong hmerge) h).1

theorem empties_eq_zero {r : List Bin} : empties r = 0 ↔ [] ∉ r := List.count_eq_zero

-- ── Packing by size ───────────────────────────────────────────────────────────

section Pack

variable {st : Statistics} {fuel : Nat} {components : Bin} {binSize : Nat} {r : List Bin}

/-- Packing by size from its partitions. -/
theorem packSized_run {nMaxFreq hs : Nat} {ps : ExtTreeMap String Bin}
    (hhs : hs = st.highSizeCutoff (binSize - (1 + 1 + min nMaxFreq 1)))
    (hps : getPartitionsWithThreshold st components hs = some ps)
    (hms : hs + (1 + 1 + min nMaxFreq 1) < binSize)
    (hcount : hs + (lowSized st components).length ≤ components.length) :
    packSized st fuel components nMaxFreq binSize =
      foldBins (1 + hs) (binSize - 1 - min nMaxFreq 1) fuel
        (allBins ((components.length - hs - (lowSized st components).length)
          / (binSize - (hs + (1 + 1 + min nMaxFreq 1)))) ps) := by
  rw [packSized]
  dsimp only
  rw [checkedSub_eq_ok.mpr ⟨by omega, rfl⟩, bind_ok_eq, ← hhs, checkedSub_eq_ok.mpr ⟨by omega, rfl⟩,
    bind_ok_eq, hps]
  dsimp only
  rw [checkedSub_eq_ok.mpr ⟨by omega, rfl⟩, bind_ok_eq, getPartitions_low hps,
    checkedSub_eq_ok.mpr ⟨by omega, rfl⟩, bind_ok_eq, if_neg (by omega)]
  rfl

/-- **When packing by size leaves no bin empty**: the quota is not zero. -/
theorem packSized_filled_iff {nMaxFreq hs : Nat}
    (hhs : hs = st.highSizeCutoff (binSize - (1 + 1 + min nMaxFreq 1)))
    (h : packSized st fuel components nMaxFreq binSize = .ok r) :
    [] ∉ r ↔ binSize - (hs + (1 + 1 + min nMaxFreq 1))
      ≤ components.length - hs - (lowSized st components).length := by
  obtain ⟨rest, hrest, h₁⟩ := result_bind_eq_ok.mp h
  obtain ⟨hle, rfl⟩ := checkedSub_eq_ok.mp hrest
  rw [← hhs] at h₁
  obtain ⟨ms, hms, h₂⟩ := result_bind_eq_ok.mp h₁
  obtain ⟨hle', rfl⟩ := checkedSub_eq_ok.mp hms
  cases hps : getPartitionsWithThreshold st components hs with
  | none =>
      rw [hps] at h₂
      exact absurd h₂ (by simp)
  | some ps =>
      rw [hps] at h₂
      obtain ⟨n₁, hn₁, h₃⟩ := result_bind_eq_ok.mp h₂
      obtain ⟨hcount₁, rfl⟩ := checkedSub_eq_ok.mp hn₁
      obtain ⟨n₂, hn₂, h₄⟩ := result_bind_eq_ok.mp h₃
      obtain ⟨hcount₂, rfl⟩ := checkedSub_eq_ok.mp hn₂
      rw [getPartitions_low hps] at hcount₂ h₄
      by_cases hzero : binSize - (hs + (1 + 1 + min nMaxFreq 1)) = 0
      · rw [if_pos hzero] at h₄
        exact absurd h₄ (by simp)
      rw [if_neg hzero] at h₄
      have hfold : foldBins (1 + hs) (binSize - 1 - min nMaxFreq 1) fuel
          (allBins ((components.length - hs - (lowSized st components).length)
            / (binSize - (hs + (1 + 1 + min nMaxFreq 1)))) ps) = .ok r := h₄
      obtain ⟨hempties, hmerged, hlen⟩ := foldBins_shrinks (by omega) hfold
      constructor
      · -- with a quota of zero there are too many empty bins to merge them all
        intro hfilled
        by_contra hless
        rw [Nat.div_eq_of_lt (Nat.not_le.mp hless)] at hempties hmerged hlen
        have hpos : 0 < empties (allBins 0 ps) :=
          List.count_pos_iff.mpr (allBins_empty hps)
        have hflat : (allBins 0 ps).flatten.length = components.length := by
          rw [allBins, flatMap_partitionBins_flatten]
          exact (getPartitions_perm hps).length_eq
        have hnone := empties_eq_zero.mpr hfilled
        by_cases hlow : lowSized st components = []
        · have hfew := filled_le (allBins 0 ps)
          rw [hlow, List.length_nil] at hless
          omega
        · have hfew := filled_add_le (@lowSized_mem_allBins st components hs ps hps 0 hlow) hlow
          omega
      · intro hquota
        have hzero' := empties_eq_zero.mpr (allBins_filled hps
          (Nat.div_pos hquota (Nat.pos_of_ne_zero hzero)))
        exact empties_eq_zero.mp (by omega)

/-- **The quota is not zero**: there is nothing to pack by size, or at least as many components
    are left for the medium-size bins as there are such bins. -/
def QuotaFits (st : Statistics) (components : Bin) (binSize : Nat) : Prop :=
  components.length < binSize ∨
  components.filter (·.changeFrequency ≠ u32Max) = [] ∨
  binSize - (limitHsBins st components binSize
      + (1 + 1 + min (components.filter (·.changeFrequency = u32Max)).length 1))
    ≤ (components.filter (·.changeFrequency ≠ u32Max)).length - limitHsBins st components binSize
      - (lowSized st (components.filter (·.changeFrequency ≠ u32Max))).length

/-- **When only the reserved bin is empty.**  For every list of components, every number of
    bins and all statistics: if packing without a prior build succeeds, all bins but the last
    hold something if and only if the quota is not zero. -/
theorem basicPacking_filled_iff (h : basicPacking st fuel components binSize none = .ok r) :
    (∀ bin ∈ r.dropLast, bin ≠ []) ↔ QuotaFits st components binSize := by
  have hsize := minChunkedLayers_le h
  have hno : (∀ bin ∈ r.dropLast, bin ≠ []) ↔ [] ∉ r.dropLast :=
    ⟨fun hall hmem => hall [] hmem rfl, fun hnot bin hbin heq => hnot (heq ▸ hbin)⟩
  rw [hno]
  by_cases hfew : components.length < binSize
  · refine iff_of_true ?_ (.inl hfew)
    rw [basicPacking, if_neg (by omega)] at h
    dsimp only at h
    rw [if_pos hfew] at h
    obtain rfl := Except.ok.inj h
    cases components with
    | nil => exact List.not_mem_nil
    | cons p components =>
        rw [if_pos (List.length_pos_iff.mpr (List.cons_ne_nil p components)), List.dropLast_concat]
        simp
  rw [basicPacking_many hsize (Nat.not_lt.mp hfew)] at h
  obtain ⟨bins, hbins, h₁⟩ := result_bind_eq_ok.mp h
  obtain ⟨rfl, -⟩ := checkBins_eq_ok h₁
  have hlast : (bins ++ lastBins components).dropLast = bins ++
      (if (components.filter (·.changeFrequency = u32Max)).isEmpty then []
        else [components.filter (·.changeFrequency = u32Max)]) := by
    rw [lastBins, ← List.append_assoc, List.dropLast_concat]
  have hmax : [] ∉ (if (components.filter (·.changeFrequency = u32Max)).isEmpty then []
        else [components.filter (·.changeFrequency = u32Max)]) := by
    split
    · exact List.not_mem_nil
    · next hne =>
        rw [List.mem_singleton]
        exact fun heq => hne (List.isEmpty_iff.mpr heq.symm)
  rw [hlast, List.mem_append, not_or, and_iff_left hmax]
  rw [sizedBins] at hbins
  split at hbins
  · next hnone =>
      obtain rfl := Except.ok.inj hbins
      exact iff_of_true List.not_mem_nil (.inr (.inl (List.isEmpty_iff.mp hnone)))
  · next hsome =>
      rw [packSized_filled_iff rfl hbins]
      constructor
      · exact fun hquota => .inr (.inr hquota)
      · rintro (hless | hnone | hquota)
        · exact absurd hless hfew
        · exact absurd (List.isEmpty_iff.mpr hnone) hsome
        · exact hquota

end Pack

/-- With four bins, one component is left for one medium-size bin. -/
theorem mostlyMaxFreq_filled : ∃ r, basicPacking exactStatistics 0 mostlyMaxFreq 4 none = .ok r ∧
    ((∀ bin ∈ r.dropLast, bin ≠ []) ↔ QuotaFits exactStatistics mostlyMaxFreq 4) := by
  have hpack : basicPacking exactStatistics 0 mostlyMaxFreq 4 none
      = .ok [mostlyMaxFreq.take 1, mostlyMaxFreq.drop 1, []] := by decide +kernel
  exact ⟨_, hpack, basicPacking_filled_iff hpack⟩

/-- Two components that change at times, and four that change all the time. -/
def twoMedium : Bin :=
  [{ identifier := "kernel", name := "kernel", changeFrequency := 12, size := 900 },
   { identifier := "initramfs", name := "initramfs", changeFrequency := u32Max, size := 800 },
   { identifier := "glibc", name := "glibc", changeFrequency := 12, size := 700 },
   { identifier := "unpackaged", name := "unpackaged", changeFrequency := u32Max, size := 70 },
   { identifier := "rpmdb", name := "rpmdb", changeFrequency := u32Max, size := 30 },
   { identifier := "locale", name := "locale", changeFrequency := u32Max, size := 5 }]

/-- The two that are packed by size. -/
def twoSized : Bin := twoMedium.take 1 ++ (twoMedium.drop 2).take 1

theorem mad_twoSized : medianAbsoluteDeviation [900, 700] = some (800, 100) := by
  have hdata : (([900, 700] : List Nat) >>= fun v => pure (v : Rat)) = [900, 700] := by
    decide +kernel
  have hmiddle : middle (([900, 700] : List Rat).map (fun v => v)) = 800 := by decide +kernel
  have hdev : (([900, 700] : List Rat).map fun v => absRat (v - 800)) = [100, 100] := by
    decide +kernel
  have hsort : ([100, 100] : List Rat).mergeSort (· ≤ ·) = [100, 100] :=
    List.mergeSort_of_pairwise (by decide +kernel)
  rw [medianAbsoluteDeviation, if_neg (by decide)]
  dsimp only
  rw [hdata, hmiddle, hdev, hsort]
  decide +kernel

/-- Both are of medium size. -/
theorem classes_twoSized : highSized exactStatistics twoSized = [] ∧
    lowSized exactStatistics twoSized = [] ∧ medSized exactStatistics twoSized = twoSized := by
  have hhigh : ∀ n, exactStatistics.highSize [900, 700] n
      = decide (800 + packingThreshold * 100 ≤ (n : Rat)) := by
    intro n
    simp only [exactStatistics, mad_twoSized]
  have hlow : ∀ n, exactStatistics.lowSize [900, 700] n
      = decide ((n : Rat) ≤ absRat (800 - packingThreshold * 100) / 2) := by
    intro n
    simp only [exactStatistics, mad_twoSized]
  have hsizes : twoSized.map (·.size) = [900, 700] := rfl
  refine ⟨?_, ?_, ?_⟩
  · simp only [highSized, hsizes, hhigh]
    decide +kernel
  · simp only [lowSized, hsizes, hhigh, hlow]
    decide +kernel
  · simp only [medSized, hsizes, hhigh, hlow]
    decide +kernel

/-- They are in one partition, which starts with an empty bin. -/
theorem partitions_twoSized : ∃ ps, getPartitionsWithThreshold exactStatistics twoSized 1 = some ps ∧
    allBins 0 ps = [[], twoMedium.take 1, (twoMedium.drop 2).take 1] := by
  obtain ⟨hhigh, hlow, hmed⟩ := classes_twoSized
  have hremaining : remainingSized exactStatistics twoSized 1 = twoSized := by
    rw [remainingSized, hhigh, hmed]
    exact List.mergeSort_of_pairwise (by decide)
  refine ⟨_, by rw [getPartitions_eq, hremaining, hlow, hhigh, if_neg (by decide)], ?_⟩
  decide +kernel

/-- **A quota of zero leaves the first bin empty**: with six bins there are two for one
    component of medium size. -/
theorem twoMedium_empty : twoMedium ≠ [] ∧ twoMedium.Pairwise (fun a b => b.size ≤ a.size) ∧
    ∃ r, basicPacking exactStatistics 0 twoMedium 6 none = .ok r ∧ [] ∈ r.dropLast := by
  obtain ⟨ps, hps, hbins⟩ := partitions_twoSized
  have hsized : sizedBins exactStatistics 0 twoMedium 6
      = .ok [[], twoMedium.take 1, (twoMedium.drop 2).take 1] := by
    have hsplit : sizedBins exactStatistics 0 twoMedium 6
        = packSized exactStatistics 0 twoSized 4 6 := rfl
    rw [hsplit, @packSized_run exactStatistics 0 twoSized 6 4 1 ps rfl hps (by decide)
      (by rw [classes_twoSized.2.1]; decide), classes_twoSized.2.1]
    show foldBins 2 4 0 (allBins 0 ps) = _
    rw [hbins]
    rfl
  refine ⟨by decide, by decide,
    [[], twoMedium.take 1, (twoMedium.drop 2).take 1] ++ lastBins twoMedium, ?_, ?_⟩
  · rw [basicPacking_many (by decide) (by decide), hsized, bind_ok_eq]
    rfl
  · decide

end OstreeExt
