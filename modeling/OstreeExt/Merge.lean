import OstreeExt.Quota

/-!
# The order of merged bins

When there are too many bins, `basic_packing` merges neighbours from the end.  Both are
removed and the merged bin is inserted at the index of the second one, which by then is
behind the bin that follows: a round moves that bin in front of all it has merged.
`foldBins_keepsOrder` says what this means for the order of the components, which the source
wants to stay as it was.
-/

namespace OstreeExt

-- ── Order ─────────────────────────────────────────────────────────────────────

/-- **The order is kept**: the components follow each other as before, and each bin is a
    concatenation of neighbours. -/
def KeepsOrder (r r' : List Bin) : Prop :=
  r'.flatten = r.flatten ∧
    ∀ bin ∈ r', ∃ before run behind, r = before ++ run ++ behind ∧ bin = run.flatten

theorem KeepsOrder.refl (r : List Bin) : KeepsOrder r r := by
  refine ⟨rfl, fun bin hbin => ?_⟩
  obtain ⟨before, behind, rfl⟩ := List.append_of_mem hbin
  refine ⟨before, [bin], behind, ?_, ?_⟩
  · rw [List.append_assoc]
    rfl
  · rw [List.flatten_singleton]

/-- Neighbours that were merged two by two. -/
inductive Pairs : List Bin → List Bin → Prop
  | nil : Pairs [] []
  | cons {run new : List Bin} (prev curr : Bin) :
      Pairs run new → Pairs (prev :: curr :: run) ((prev ++ curr) :: new)

/-- The merges go from the end to the front. -/
theorem Pairs.snoc {run new : List Bin} (h : Pairs run new) (prev curr : Bin) :
    Pairs (run ++ [prev, curr]) (new ++ [prev ++ curr]) := by
  induction h with
  | nil => exact .cons prev curr .nil
  | cons a b _ ih => exact .cons a b ih

theorem Pairs.flatten {run new : List Bin} (h : Pairs run new) : new.flatten = run.flatten := by
  induction h with
  | nil => rfl
  | cons prev curr _ ih =>
      rw [List.flatten_cons, List.flatten_cons, List.flatten_cons, ih, List.append_assoc]

-- ── One round ─────────────────────────────────────────────────────────────────

/-- The first `k` indices from `start` in steps of two, backwards. -/
def downTo (start k : Nat) : List Nat := ((List.range k).map (fun j => start + 2 * j)).reverse

theorem downTo_succ (start k : Nat) : downTo start (k + 1) = (start + 2 * k) :: downTo start k := by
  rw [downTo, List.range_succ, List.map_append, List.reverse_append]
  rfl

theorem stepIndices_eq (start stop : Nat) :
    stepIndices start stop = downTo start ((stop - start + 1) / 2) := rfl

theorem pos_of_mem_downTo {start k i : Nat} (hstart : 0 < start) (h : i ∈ downTo start k) :
    0 < i := by
  rw [downTo, List.mem_reverse, List.mem_map] at h
  obtain ⟨j, -, rfl⟩ := h
  omega

/-- What a round does to the bins: those in `run` are merged, and the one behind them, `kept`,
    goes in front.  The round goes down to `start`, or stops when there are few enough bins. -/
structure Round (start target : Nat) (r r' front run new : List Bin) (kept : Bin)
    (behind : List Bin) : Prop where
  before : r = front ++ run ++ kept :: behind
  after : r' = front ++ kept :: (new ++ behind)
  pairs : Pairs run new
  stops : front.length + 1 = start ∨ start + 2 ≤ front.length + 1 ∧ r'.length ≤ target

/-- **A round moves the bin behind the merged ones to the front.** -/
theorem mergeRound_moves {start target k : Nat} {r' front : List Bin} {kept : Bin}
    {behind : List Bin} (hstart : 0 < start) (hfront : front.length + 1 = start + 2 * k)
    (h : mergeRound target (downTo start k) (front ++ kept :: behind) = .ok r') :
    ∃ front' run new, Round start target (front ++ kept :: behind) r' front' run new kept behind := by
  induction k generalizing front behind with
  | zero =>
      obtain rfl := Except.ok.inj h
      exact ⟨front, [], [], by rw [List.append_nil], rfl, .nil, .inl hfront⟩
  | succ k ih =>
      rw [downTo_succ, mergeRound] at h
      by_cases hle : (front ++ kept :: behind).length ≤ target
      · rw [if_pos hle] at h
        obtain rfl := Except.ok.inj h
        exact ⟨front, [], [], by rw [List.append_nil], rfl, .nil, .inr ⟨by omega, hle⟩⟩
      · rw [if_neg hle] at h
        obtain ⟨r₁, hstep, h₁⟩ := result_bind_eq_ok.mp h
        obtain ⟨before, prev, curr, next, rest, hsplit, hbefore, rfl⟩ :=
          mergeBins_split (by omega) hstep
        -- the merged neighbours are the last two in front of the kept bin
        have hlen : front.length = (before ++ [prev, curr]).length := by
          rw [List.length_append, List.length_cons, List.length_singleton]
          omega
        have hsame : front ++ kept :: behind = (before ++ [prev, curr]) ++ next :: rest := by
          rw [hsplit, List.append_assoc]
          rfl
        obtain ⟨rfl, htail⟩ := List.append_inj hsame hlen
        injection htail with hnext hrest
        subst hnext hrest
        obtain ⟨front', run, new, hround⟩ := ih (by omega) h₁
        refine ⟨front', run ++ [prev, curr], new ++ [prev ++ curr], ?_, ?_, hround.pairs.snoc _ _,
          hround.stops⟩
        · have hb := List.append_inj_left' (hround.before : before ++ kept :: _ = _) (by simp)
          rw [hb]
          simp only [List.append_assoc]
        · rw [hround.after]
          simp only [List.append_assoc]
          rfl

/-- An element, and what is before and behind it. -/
theorem split_at {α : Type} {r : List α} {i : Nat} (hi : i < r.length) :
    ∃ before a behind, r = before ++ a :: behind ∧ before.length = i := by
  refine ⟨r.take i, r[i], r.drop (i + 1), ?_, ?_⟩
  · rw [← List.drop_eq_getElem_cons hi, List.take_append_drop]
  · rw [List.length_take]
    omega

/-- **A round of the loop**: where there are too many bins, some are merged. -/
theorem mergeRound_round {start target : Nat} {r r' : List Bin} (hstart : 0 < start)
    (htarget : start < target) (hlong : target < r.length)
    (h : mergeRound target (stepIndices start (r.length - 1)) r = .ok r') :
    ∃ front run new kept behind, Round start target r r' front run new kept behind ∧ run ≠ [] := by
  have hk : 0 < (r.length - 1 - start + 1) / 2 ∧
      start + 2 * ((r.length - 1 - start + 1) / 2) ≤ r.length := by omega
  rw [stepIndices_eq] at h
  generalize (r.length - 1 - start + 1) / 2 = k at h hk
  -- the bin behind the last pair
  obtain ⟨before, kept, behind, rfl, hbefore⟩ :=
    split_at (show start + 2 * k - 1 < r.length by omega)
  obtain ⟨front, run, new, hround⟩ := mergeRound_moves hstart (by omega) h
  refine ⟨front, run, new, kept, behind, hround, ?_⟩
  rintro rfl
  -- nothing merged: then the round is at its start and at its end at once
  have hpairs := hround.pairs
  cases hpairs
  have hlen := congrArg List.length hround.before
  have hlen' := congrArg List.length hround.after
  simp only [List.append_nil, List.length_append, List.length_cons, List.nil_append] at hlen hlen' hlong
  rcases hround.stops with hstops | ⟨-, hstops⟩
  · omega
  · omega

-- ── The loop ──────────────────────────────────────────────────────────────────

/-- Behind the bins `front` comes a bin that is not empty, and the component `a` only after
    it. -/
def Displaced (front : List Bin) (a : ObjectSourceMetaSized) (r : List Bin) : Prop :=
  ∃ kept bin rest, r = front ++ kept :: bin :: rest ∧ kept ≠ [] ∧ a ∈ bin

section Loop

variable {start target fuel : Nat} {r r' front : List Bin} {a : ObjectSourceMetaSized}

/-- A round that goes all the way down displaces the first components. -/
theorem Round.displaces {front run new behind : List Bin} {kept prev curr : Bin} {rest : List Bin}
    (hround : Round start target r r' front run new kept behind)
    (hsplit : run = prev :: curr :: rest) (hkept : kept ≠ []) (ha : a ∈ prev ++ curr) :
    Displaced front a r' := by
  have hpairs := hround.pairs
  subst hsplit
  cases hpairs with
  | cons _ _ hrest => exact ⟨kept, prev ++ curr, _, hround.after, hkept, ha⟩

theorem mergeRound_filled (hstart : 0 < start) (hfilled : [] ∉ r)
    (h : mergeRound target (stepIndices start (r.length - 1)) r = .ok r') : [] ∉ r' := by
  have hshrinks := mergeRound_rel (Shrinks.refl target) Shrinks.trans
    (fun _ _ _ hi hlong hmerge => mergeBins_shrinks hi hlong hmerge)
    (fun i hi => by have := mem_stepIndices hi; omega) h
  have hle := hshrinks.empties_le
  rw [empties_eq_zero.mpr hfilled] at hle
  exact empties_eq_zero.mp (Nat.le_zero.mp hle)

/-- **What is displaced stays so.** -/
theorem foldBins_displaced (hstart : 0 < start) (htarget : start < target)
    (hfront : front.length + 1 = start) (hfilled : [] ∉ r) (hr : Displaced front a r)
    (h : foldBins start target fuel r = .ok r') : Displaced front a r' := by
  induction fuel generalizing r with
  | zero =>
      rw [foldBins] at h
      split at h
      · obtain rfl := Except.ok.inj h
        exact hr
      · exact absurd h (by simp)
  | succ fuel ih =>
      rw [foldBins] at h
      by_cases hle : r.length ≤ target
      · rw [if_pos hle] at h
        obtain rfl := Except.ok.inj h
        exact hr
      rw [if_neg hle] at h
      obtain ⟨r₁, hround, h₁⟩ := result_bind_eq_ok.mp h
      refine ih (mergeRound_filled hstart hfilled hround) ?_ h₁
      obtain ⟨front', run, new, kept, behind, hmoves, hrun⟩ :=
        mergeRound_round hstart htarget (Nat.not_le.mp hle) hround
      obtain ⟨first, bin, rest, hr, hfirst, ha⟩ := hr
      have hsame := hr.symm.trans hmoves.before
      rw [List.append_assoc] at hsame
      rcases hmoves.stops with hstops | ⟨hstops, -⟩
      · -- the round merges the two bins behind `front`
        obtain ⟨rfl, htail⟩ := List.append_inj hsame (by omega)
        have hpairs := hmoves.pairs
        cases hpairs with
        | nil => exact absurd rfl hrun
        | cons prev curr hrest =>
            injection htail with hprev htail
            injection htail with hcurr htail
            refine hmoves.displaces rfl ?_ (List.mem_append_right _ (hcurr ▸ ha))
            rintro rfl
            refine hfilled ?_
            rw [hmoves.before]
            simp
      · -- or it stops behind them
        have hlen : (front ++ [first, bin]).length ≤ front'.length := by
          rw [List.length_append, List.length_cons, List.length_singleton]
          omega
        have hprefix : front ++ [first, bin] <+: front' := by
          refine List.prefix_of_prefix_length_le ⟨rest, ?_⟩ ⟨run ++ kept :: behind, rfl⟩ hlen
          rw [← hsame, List.append_assoc]
          rfl
        obtain ⟨more, rfl⟩ := hprefix
        refine ⟨first, bin, more ++ kept :: (new ++ behind), ?_, hfirst, ha⟩
        rw [hmoves.after]
        simp only [List.append_assoc, List.cons_append, List.nil_append]

theorem foldBins_of_le (hle : r.length ≤ target) : foldBins start target fuel r = .ok r := by
  cases fuel with
  | zero => rw [foldBins, if_pos hle]
  | succ fuel => rw [foldBins, if_pos hle]

/-- A displaced component was not the first one behind `front`. -/
theorem Displaced.flatten_ne (hr : Displaced front a r) {l : Bin} (hnodup : r.flatten.Nodup) :
    r.flatten ≠ front.flatten ++ a :: l := by
  obtain ⟨kept, bin, rest, rfl, hkept, ha⟩ := hr
  intro heq
  obtain ⟨c, kept, rfl⟩ := List.exists_cons_of_ne_nil hkept
  rw [List.flatten_append, List.flatten_cons, List.flatten_cons, List.cons_append] at heq hnodup
  injection List.append_cancel_left heq with hc _
  subst hc
  -- it would be in two bins
  have htail := (List.nodup_append.mp hnodup).2.1
  rw [List.nodup_cons] at htail
  exact htail.1 (List.mem_append_right _ (List.mem_append_left _ ha))

/-- **Merging changes the order** of distinct components in bins that are not empty. -/
theorem foldBins_reorders (hstart : 0 < start) (htarget : start < target) (hfilled : [] ∉ r)
    (hnodup : r.flatten.Nodup) (hlong : target < r.length)
    (h : foldBins start target fuel r = .ok r') : r'.flatten ≠ r.flatten := by
  have hnodup' : r'.flatten.Nodup := (foldBins_perm hstart h).1.nodup_iff.mpr hnodup
  cases fuel with
  | zero =>
      rw [foldBins, if_neg (Nat.not_le.mpr hlong)] at h
      exact absurd h (by simp)
  | succ fuel =>
      rw [foldBins, if_neg (Nat.not_le.mpr hlong)] at h
      obtain ⟨r₁, hround, h₁⟩ := result_bind_eq_ok.mp h
      obtain ⟨front, run, new, kept, behind, hmoves, hrun⟩ :=
        mergeRound_round hstart htarget hlong hround
      have hbin : ∀ bin ∈ run ++ kept :: behind, bin ≠ [] := by
        rintro bin hbin rfl
        refine hfilled ?_
        rw [hmoves.before, List.append_assoc]
        exact List.mem_append_right _ hbin
      have hpairs := hmoves.pairs
      cases hpairs with
      | nil => exact absurd rfl hrun
      | cons prev curr hrest =>
          -- the first component of the first bin that is merged
          obtain ⟨a, prev, rfl⟩ := List.exists_cons_of_ne_nil (hbin prev (by simp))
          have hdisplaced : Displaced front a r₁ :=
            hmoves.displaces rfl (hbin kept (by simp)) (by simp)
          have hlast : Displaced front a r' := by
            rcases hmoves.stops with hstops | ⟨-, hstops⟩
            · exact foldBins_displaced hstart htarget hstops
                (mergeRound_filled hstart hfilled hround) hdisplaced h₁
            · rw [foldBins_of_le hstops] at h₁
              obtain rfl := Except.ok.inj h₁
              exact hdisplaced
          have hfirst : ∃ l, r.flatten = front.flatten ++ a :: l := by
            rw [hmoves.before, List.append_assoc, List.flatten_append]
            exact ⟨_, rfl⟩
          obtain ⟨l, hfirst⟩ := hfirst
          rw [hfirst]
          exact hlast.flatten_ne hnodup'

end Loop

/-- **When merging keeps the order of the components.**  For every number of bins, with the
    limits that `basic_packing` computes from it, and every list of bins: the loop ends; if the
    bins fit, their order is kept, and for distinct components in bins that are not empty it is
    kept only then. -/
theorem foldBins_keepsOrder (st : Statistics) (hst : ∀ n, 0 < n → st.highSizeCutoff n < n)
    (binSize nMaxFreq : Nat) (hsize : minChunkedLayers ≤ binSize) (r : List Bin) (fuel : Nat)
    (hfuel : r.length ≤ fuel) :
    ∃ r', foldBins (1 + st.highSizeCutoff (binSize - (1 + 1 + min nMaxFreq 1)))
        (binSize - 1 - min nMaxFreq 1) fuel r = .ok r' ∧
      (r.length ≤ binSize - 1 - min nMaxFreq 1 → KeepsOrder r r') ∧
      ((∀ bin ∈ r, bin ≠ []) → r.flatten.Nodup →
        (KeepsOrder r r' ↔ r.length ≤ binSize - 1 - min nMaxFreq 1)) := by
  have hfour : minChunkedLayers = 4 := rfl
  have hcut := hst (binSize - (1 + 1 + min nMaxFreq 1)) (by omega)
  have htarget : 1 + st.highSizeCutoff (binSize - (1 + 1 + min nMaxFreq 1))
      < binSize - 1 - min nMaxFreq 1 := by omega
  obtain ⟨r', hr'⟩ := @foldBins_ok _ _ fuel r (by omega) htarget (by omega)
  have hfits : r.length ≤ binSize - 1 - min nMaxFreq 1 → KeepsOrder r r' := by
    intro hle
    rw [foldBins_of_le hle] at hr'
    obtain rfl := Except.ok.inj hr'
    exact KeepsOrder.refl r
  refine ⟨r', hr', hfits, fun hfilled hnodup => ⟨fun hkeeps => ?_, hfits⟩⟩
  by_contra hlong
  exact foldBins_reorders (by omega) htarget (fun hmem => hfilled [] hmem rfl) hnodup
    (Nat.not_le.mp hlong) hr' hkeeps.1

/-- The bins of `test_advanced_packing` before any is merged: one component of high size, two
    of low size, and three partitions of medium size, the second one in two bins. -/
def advancedBins : List Bin :=
  [[{ identifier := "pkg3.0", name := "pkg3", changeFrequency := 30, size := 99998 }],
   [{ identifier := "pkg6.0", name := "pkg6", changeFrequency := 30, size := 2 },
    { identifier := "pkg7.0", name := "pkg7", changeFrequency := 30, size := 1 }],
   [{ identifier := "pkg11.0", name := "pkg11", changeFrequency := 100000, size := 199 }],
   [{ identifier := "pkg9.0", name := "pkg9", changeFrequency := 1, size := 200 },
    { identifier := "pkg8.0", name := "pkg8", changeFrequency := 50, size := 500 }],
   [{ identifier := "pkg10.0", name := "pkg10", changeFrequency := 51, size := 1000 }],
   [{ identifier := "pkg4.0", name := "pkg4", changeFrequency := 100, size := 99997 }]]

/-- The loop on these bins, for six bins and two components of maximal frequency. -/
theorem advancedBins_order : ∃ r',
    foldBins (1 + exactStatistics.highSizeCutoff (6 - (1 + 1 + min 2 1))) (6 - 1 - min 2 1) 6
      advancedBins = .ok r' ∧
    (advancedBins.length ≤ 6 - 1 - min 2 1 → KeepsOrder advancedBins r') ∧
    ((∀ bin ∈ advancedBins, bin ≠ []) → advancedBins.flatten.Nodup →
      (KeepsOrder advancedBins r' ↔ advancedBins.length ≤ 6 - 1 - min 2 1)) :=
  foldBins_keepsOrder exactStatistics exactStatistics_cutoff 6 2 (by decide) advancedBins 6
    (by decide)

/-- **The last bin moves to the front**: it is the second one after two merges. -/
theorem advancedBins_reordered : (∀ bin ∈ advancedBins, bin ≠ []) ∧ advancedBins.flatten.Nodup ∧
    ∃ r', foldBins (1 + exactStatistics.highSizeCutoff (6 - (1 + 1 + min 2 1)))
        (6 - 1 - min 2 1) 6 advancedBins = .ok r' ∧
      r'.map (fun bin => bin.map (·.name)) = [["pkg3"], ["pkg4"], ["pkg6", "pkg7", "pkg11"],
        ["pkg9", "pkg8", "pkg10"]] ∧ ¬ KeepsOrder advancedBins r' := by
  refine ⟨by decide, by decide, _, rfl, rfl, ?_⟩
  rintro ⟨hflatten, -⟩
  exact absurd hflatten (by decide)

end OstreeExt
