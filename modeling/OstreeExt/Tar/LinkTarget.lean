import OstreeExt.Table
import OstreeExt.Tar.Mirror

/-!
# Targets of symbolic links

The tar library stores a link target rebuilt from its components, and the writer goes around it
for targets that contain `//`.  Rebuilding also drops `.` components.  `rebuildTarget_eq_iff`
says which targets come back as they were, and `symlinkTarget_survives_iff` which ones the
writer leaves alone.
-/

namespace OstreeExt.Tar

open OstreeExt Exec

/-- What `append_link` makes of a target: its components, joined again.  Runs of slashes become
    one, `.` components other than the first go away, and a slash at the end stays. -/
def rebuildTarget (target : String) : String :=
  let p := Path.parse target
  if target.toList.getLast? = some '/' ∧ p ≠ [.rootDir] then
    String.ofList (p.render.toList ++ ['/'])
  else p.render

/-- A target that the stored link name can hold: not empty, without NUL, and short. -/
structure IsLinkTarget (target : String) : Prop where
  nonempty : target ≠ ""
  nonul : Char.ofNat 0 ∉ target.toList
  short : strLen target.toList ≤ 100

/-- There is a `.` component other than the first one. -/
def hasInnerDot (target : String) : Bool := ['.'] ∈ (splitChar '/' target.toList).tail

/-- The pieces that stand for components: neither empty nor a dot. -/
def componentPieces (ps : List (List Char)) : List (List Char) :=
  ps.filter (fun q => q ≠ [] ∧ q ≠ ['.'])

/-- The pieces of a target that are still there after it was rebuilt.  The last piece is empty
    when the target ends in a slash, and when only the root is left of it. -/
def keptPieces : List (List Char) → List (List Char)
  | [] => []
  | p :: ps =>
      p :: (componentPieces ps ++
        if ps.getLast? = some [] ∨ (p = [] ∧ componentPieces ps = [] ∧ ps ≠ []) then [[]] else [])

-- ── Slashes and dots ──────────────────────────────────────────────────────────

/-- There is a double slash when a piece is empty that is neither the first nor the last. -/
theorem hasDoubleSlash_iff (s : List Char) :
    hasDoubleSlash s = true ↔ [] ∈ (splitChar '/' s).tail.dropLast := by
  induction s using hasDoubleSlash.induct with
  | case1 s =>
      rw [splitChar_cons_self, splitChar_cons_self, List.tail_cons]
      obtain ⟨p, ps, hps⟩ := List.exists_cons_of_ne_nil (splitChar_ne_nil '/' s)
      rw [hps, List.dropLast_cons_cons]
      simp [hasDoubleSlash]
  | case2 c s hs ih =>
      have hstep : hasDoubleSlash (c :: s) = hasDoubleSlash s := by
        rw [hasDoubleSlash]
        exact hs
      rw [hstep, ih]
      by_cases hc : c = '/'
      · subst hc
        rw [splitChar_cons_self, List.tail_cons]
        obtain ⟨p, ps, hps⟩ := List.exists_cons_of_ne_nil (splitChar_ne_nil '/' s)
        rw [hps, List.tail_cons]
        cases ps with
        | nil => rfl
        | cons q qs =>
            rw [List.dropLast_cons_cons, List.mem_cons]
            have hp : [] ≠ p := by
              rintro rfl
              cases s with
              | nil => simp [splitChar] at hps
              | cons e s =>
                  by_cases he : e = '/'
                  · exact hs s rfl (by rw [he])
                  · obtain ⟨p', ps', _, hcons⟩ := splitChar_cons_of_ne he s
                    rw [hcons] at hps
                    injection hps with h _
                    exact List.cons_ne_nil _ _ h
            constructor
            · exact .inr
            · intro h
              exact h.resolve_left hp
      · obtain ⟨p, ps, hps, hcons⟩ := splitChar_cons_of_ne hc s
        rw [hps, hcons]
        rfl
  | case3 => simp [hasDoubleSlash, splitChar]

/-- The text of the components of some pieces: those that are neither empty nor a dot. -/
theorem map_text_components (ps : List (List Char)) :
    (ps.filterMap Path.componentOf).map Path.Component.text = componentPieces ps := by
  rw [componentPieces]
  induction ps with
  | nil => rfl
  | cons q ps ih =>
      by_cases hempty : q = []
      · subst hempty
        rw [List.filterMap_cons_none (by rfl), List.filter_cons_of_neg (by simp), ih]
      by_cases hdot : q = ['.']
      · subst hdot
        rw [List.filterMap_cons_none (by rfl), List.filter_cons_of_neg (by simp), ih]
      have htext : ∃ c, Path.componentOf q = some c ∧ Path.Component.text c = q := by
        rw [Path.componentOf, if_neg hempty, if_neg hdot]
        by_cases hup : q = ['.', '.']
        · rw [if_pos hup]
          exact ⟨_, rfl, hup.symm⟩
        · rw [if_neg hup]
          exact ⟨_, rfl, String.toList_ofList⟩
      obtain ⟨c, hc, htext⟩ := htext
      rw [List.filterMap_cons_some hc, List.filter_cons_of_pos (by simp [hempty, hdot]),
        List.map_cons, htext, ih]

/-- Nothing but the root has the text of the root for its first component. -/
theorem componentOf_ne_rootDir (ps : List (List Char)) :
    ∀ c ∈ ps.filterMap Path.componentOf, c ≠ .rootDir := by
  intro c hc
  obtain ⟨q, _, hq⟩ := List.mem_filterMap.mp hc
  rintro rfl
  rw [Path.componentOf] at hq
  split_ifs at hq
  · injection hq with hq
    exact Component.noConfusion hq
  · injection hq with hq
    exact Component.noConfusion hq

theorem joinChar_snoc_nil (c : Char) {ps : List (List Char)} (hps : ps ≠ []) :
    joinChar c (ps ++ [[]]) = joinChar c ps ++ [c] := by
  induction ps with
  | nil => exact absurd rfl hps
  | cons p ps ih =>
      cases ps with
      | nil => rfl
      | cons q qs =>
          rw [List.cons_append, List.cons_append, joinChar, ← List.cons_append, ih (by simp), joinChar,
            List.append_assoc, List.cons_append]

/-- The text of a path that does not start at the root. -/
theorem render_toList_of_ne {p : Path} (hp : ∀ c ∈ p, c ≠ .rootDir) :
    p.render.toList = joinChar '/' (p.map Path.Component.text) := by
  cases p with
  | nil => rfl
  | cons c cs =>
      cases c with
      | rootDir => exact absurd rfl (hp _ (List.mem_cons_self ..))
      | curDir => exact String.toList_ofList
      | parentDir => exact String.toList_ofList
      | normal n => exact String.toList_ofList

/-- The components of a text that does not start with a slash. -/
theorem parse_relative {target : String} {d : Char} {s p : List Char} {ps : List (List Char)}
    (hd : d ≠ '/') (htext : target.toList = d :: s) (hsplit : splitChar '/' target.toList = p :: ps) :
    (Path.parse target).map Path.Component.text = p :: componentPieces ps ∧
      ∀ c ∈ Path.parse target, c ≠ .rootDir := by
  have hp : p ≠ [] := by
    rintro rfl
    obtain ⟨q, qs, _, hcons⟩ := splitChar_cons_of_ne hd s
    rw [htext, hcons] at hsplit
    injection hsplit with h _
    exact List.cons_ne_nil _ _ h
  simp only [Path.parse]
  rw [hsplit, Path.leading, htext, List.head?_cons, List.head?_cons, if_neg (by simp [hd])]
  by_cases hdot : p = ['.']
  · subst hdot
    rw [if_pos rfl, List.filterMap_cons_none (by rfl)]
    refine ⟨?_, ?_⟩
    · rw [List.map_append, map_text_components]
      rfl
    · intro c hc
      rcases List.mem_append.mp hc with hc | hc
      · rw [List.mem_singleton.mp hc]
        exact Component.noConfusion
      · exact componentOf_ne_rootDir ps c hc
  · rw [if_neg (by simp [hdot]), List.nil_append]
    refine ⟨?_, componentOf_ne_rootDir (p :: ps)⟩
    rw [map_text_components, componentPieces, List.filter_cons_of_pos (by simp [hp, hdot])]
    rfl

/-- The components of a text that starts with a slash. -/
theorem parse_rooted {target : String} {s : List Char} (htext : target.toList = '/' :: s) :
    Path.parse target = .rootDir :: (splitChar '/' s).filterMap Path.componentOf := by
  simp only [Path.parse]
  rw [htext, splitChar_cons_self, Path.leading, List.head?_cons, if_pos rfl,
    List.filterMap_cons_none (by rfl)]
  rfl

/-- **Rebuilding a target** keeps the first piece, and of the others those that are neither empty
    nor a dot. -/
theorem rebuildTarget_toList (target : String) :
    (rebuildTarget target).toList = joinChar '/' (keptPieces (splitChar '/' target.toList)) := by
  simp only [rebuildTarget]
  cases htext : target.toList with
  | nil =>
      have hnil : target = "" := String.toList_inj.mp htext
      subst hnil
      rfl
  | cons d s =>
      have hlast := getLast?_eq_separator '/' target.toList
      rw [htext] at hlast
      by_cases hd : d = '/'
      · -- an absolute target: the root, and what is kept
        subst hd
        rw [splitChar_cons_self, List.tail_cons] at hlast
        rw [parse_rooted htext, splitChar_cons_self, keptPieces, ← map_text_components]
        cases hcomps : (splitChar '/' s).filterMap Path.componentOf with
        | nil =>
            rw [if_neg (by simp), List.map_nil, List.nil_append,
              if_pos (.inr ⟨rfl, rfl, splitChar_ne_nil _ _⟩)]
            rfl
        | cons c cs =>
            have hrender : (Path.render (.rootDir :: c :: cs)).toList
                = '/' :: joinChar '/' ((c :: cs).map Path.Component.text) := String.toList_ofList
            by_cases hend : (splitChar '/' s).getLast? = some []
            · rw [if_pos ⟨hlast.mpr hend, by simp⟩, if_pos (.inl hend), String.toList_ofList, hrender,
                ← List.cons_append, joinChar_snoc_nil '/' (List.cons_ne_nil _ _)]
              rfl
            · have hend' : ('/' :: s).getLast? ≠ some '/' := fun h => hend (hlast.mp h)
              rw [if_neg (fun h => hend' h.1), if_neg (by simp [hend]), hrender, List.append_nil]
              rfl
      · obtain ⟨p, ps, hps⟩ := List.exists_cons_of_ne_nil (splitChar_ne_nil '/' target.toList)
        obtain ⟨hmap, hroot⟩ := parse_relative hd htext hps
        have hp : p ≠ [] := by
          rintro rfl
          obtain ⟨q, qs, _, hcons⟩ := splitChar_cons_of_ne hd s
          rw [htext, hcons] at hps
          injection hps with h _
          exact List.cons_ne_nil _ _ h
        have hne : Path.parse target ≠ [.rootDir] := fun h =>
          hroot .rootDir (by rw [h]; exact List.mem_singleton.mpr rfl) rfl
        rw [← htext, hps, List.tail_cons, htext] at hlast
        rw [← htext, hps, keptPieces]
        by_cases hend : ps.getLast? = some []
        · rw [if_pos ⟨by rw [htext]; exact hlast.mpr hend, hne⟩, if_pos (.inl hend),
            String.toList_ofList, render_toList_of_ne hroot, hmap,
            ← joinChar_snoc_nil '/' (List.cons_ne_nil _ _), List.cons_append]
        · have hend' : target.toList.getLast? ≠ some '/' := by
            rw [htext]
            exact fun h => hend (hlast.mp h)
          rw [if_neg (fun h => hend' h.1), if_neg (by simp [hend, hp]),
            render_toList_of_ne hroot, hmap, List.append_nil]

-- ── Which targets come back ───────────────────────────────────────────────────

theorem mem_componentPieces {q : List Char} {ps : List (List Char)} :
    q ∈ componentPieces ps ↔ q ∈ ps ∧ q ≠ [] ∧ q ≠ ['.'] := by
  rw [componentPieces, List.mem_filter, decide_eq_true_iff]

/-- Pieces without empty ones and dots all stand for components. -/
theorem componentPieces_eq_self {ps : List (List Char)} (hempty : [] ∉ ps) (hdot : ['.'] ∉ ps) :
    componentPieces ps = ps := by
  rw [componentPieces, List.filter_eq_self]
  intro q hq
  rw [decide_eq_true_iff]
  exact ⟨fun h => hempty (h ▸ hq), fun h => hdot (h ▸ hq)⟩

/-- Of the pieces that are kept only the last one may be empty, and none after the first is a dot. -/
theorem keptPieces_tail (p : List Char) (ps : List (List Char)) :
    [] ∉ (keptPieces (p :: ps)).tail.dropLast ∧ ['.'] ∉ (keptPieces (p :: ps)).tail := by
  have hcomp : [] ∉ componentPieces ps := fun hmem => (mem_componentPieces.mp hmem).2.1 rfl
  have hdot : ['.'] ∉ componentPieces ps := fun hmem => (mem_componentPieces.mp hmem).2.2 rfl
  rw [keptPieces, List.tail_cons]
  split_ifs
  · rw [List.dropLast_concat]
    exact ⟨hcomp, by simp [hdot]⟩
  · rw [List.append_nil]
    exact ⟨fun hmem => hcomp (List.mem_of_mem_dropLast hmem), hdot⟩

/-- Nothing is lost of pieces where only the last one may be empty, and none after the first is
    a dot; and of no others. -/
theorem keptPieces_eq_self_iff (p : List Char) (ps : List (List Char)) :
    keptPieces (p :: ps) = p :: ps ↔ [] ∉ ps.dropLast ∧ ['.'] ∉ ps := by
  constructor
  · intro h
    have hclean := keptPieces_tail p ps
    rw [h] at hclean
    exact hclean
  · rintro ⟨hempty, hdot⟩
    by_cases hend : ps.getLast? = some []
    · obtain ⟨init, rfl⟩ := List.getLast?_eq_some_iff.mp hend
      rw [List.dropLast_concat] at hempty
      have hinit : ['.'] ∉ init := fun hmem => hdot (List.mem_append_left _ hmem)
      have hnone : componentPieces [[]] = [] := rfl
      rw [keptPieces, if_pos (.inl hend), componentPieces, List.filter_append, ← componentPieces,
        ← componentPieces, componentPieces_eq_self hempty hinit, hnone, List.append_nil]
    · have hall : [] ∉ ps := by
        intro hmem
        obtain ⟨init, last, rfl⟩ := (List.eq_nil_or_concat' ps).resolve_left (List.ne_nil_of_mem hmem)
        rw [List.dropLast_concat] at hempty
        rw [List.getLast?_concat] at hend
        rcases List.mem_append.mp hmem with hmem | hmem
        · exact hempty hmem
        · exact hend (congrArg some (List.mem_singleton.mp hmem).symm)
      have hself := componentPieces_eq_self hall hdot
      rw [keptPieces, hself, if_neg, List.append_nil]
      rintro (h | ⟨_, h, hne⟩)
      · exact hend h
      · exact hne h

/-- The pieces of a rebuilt target. -/
theorem splitChar_rebuildTarget (target : String) :
    splitChar '/' (rebuildTarget target).toList = keptPieces (splitChar '/' target.toList) := by
  obtain ⟨p, ps, hps⟩ := List.exists_cons_of_ne_nil (splitChar_ne_nil '/' target.toList)
  have hpieces : ∀ q ∈ keptPieces (p :: ps), '/' ∉ q := by
    intro q hq
    have hmem : q ∈ p :: ps ∨ q = [] := by
      rcases List.mem_cons.mp hq with hq | hq
      · exact .inl (hq ▸ List.mem_cons_self ..)
      rcases List.mem_append.mp hq with hq | hq
      · exact .inl (List.mem_cons_of_mem _ (mem_componentPieces.mp hq).1)
      split_ifs at hq
      · exact .inr (List.mem_singleton.mp hq)
      · exact absurd hq (by simp)
    rcases hmem with hmem | rfl
    · exact not_mem_of_mem_splitChar (hps ▸ hmem)
    · exact List.not_mem_nil
  rw [rebuildTarget_toList, hps]
  exact splitChar_joinChar (List.cons_ne_nil _ _) hpieces

/-- **Which targets come back as they were**: those without `//`, and without a `.` component
    other than the first one. -/
theorem rebuildTarget_eq_iff (target : String) :
    rebuildTarget target = target ↔
      symlinkIsDenormal target = false ∧ hasInnerDot target = false := by
  obtain ⟨p, ps, hps⟩ := List.exists_cons_of_ne_nil (splitChar_ne_nil '/' target.toList)
  have hdouble : symlinkIsDenormal target = false ↔ [] ∉ ps.dropLast := by
    rw [symlinkIsDenormal, ← Bool.not_eq_true, hasDoubleSlash_iff, hps, List.tail_cons]
  have hdot : hasInnerDot target = false ↔ ['.'] ∉ ps := by
    rw [hasInnerDot, decide_eq_false_iff_not, hps, List.tail_cons]
  rw [hdouble, hdot, ← keptPieces_eq_self_iff p ps]
  constructor
  · intro h
    have hsplit := splitChar_rebuildTarget target
    rw [h, hps] at hsplit
    exact hsplit.symm
  · intro h
    rw [← String.toList_inj, rebuildTarget_toList, hps, h, ← hps, joinChar_splitChar]

/-- A rebuilt target has no `//` left, nor a `.` component other than the first one. -/
theorem rebuildTarget_clean (target : String) :
    symlinkIsDenormal (rebuildTarget target) = false ∧ hasInnerDot (rebuildTarget target) = false := by
  obtain ⟨p, ps, hps⟩ := List.exists_cons_of_ne_nil (splitChar_ne_nil '/' target.toList)
  have hclean := keptPieces_tail p ps
  rw [← hps, ← splitChar_rebuildTarget] at hclean
  refine ⟨?_, ?_⟩
  · rw [symlinkIsDenormal, ← Bool.not_eq_true, hasDoubleSlash_iff]
    exact hclean.1
  · rw [hasInnerDot, decide_eq_false_iff_not]
    exact hclean.2

/-- Rebuilding a target again changes nothing. -/
theorem rebuildTarget_rebuildTarget (target : String) :
    rebuildTarget (rebuildTarget target) = rebuildTarget target :=
  (rebuildTarget_eq_iff _).mpr (rebuildTarget_clean target)

/-- A path of plain names comes back from its text. -/
theorem rebuildTarget_render {names : List String} (hne : names ≠ [])
    (h : ∀ s ∈ names, Path.IsFileName s) :
    rebuildTarget (Path.render (names.map Component.normal)) =
      Path.render (names.map Component.normal) := by
  have htext : (Path.render (names.map Component.normal)).toList =
      joinChar '/' (names.map String.toList) := by
    rw [render_toList_of_ne, List.map_map]
    · rfl
    · intro c hc
      obtain ⟨s, _, rfl⟩ := List.mem_map.mp hc
      exact Component.noConfusion
  have hsplit : splitChar '/' (Path.render (names.map Component.normal)).toList =
      names.map String.toList := by
    rw [htext]
    refine splitChar_joinChar (by simpa using hne) fun p hp => ?_
    obtain ⟨s, hs, rfl⟩ := List.mem_map.mp hp
    exact (h s hs).2.2.2
  have hpiece : ∀ q ∈ names.map String.toList, q ≠ [] ∧ q ≠ ['.'] := by
    intro q hq
    obtain ⟨s, hs, rfl⟩ := List.mem_map.mp hq
    exact ⟨(h s hs).1, (h s hs).2.1⟩
  rw [rebuildTarget_eq_iff, symlinkIsDenormal, ← Bool.not_eq_true, hasDoubleSlash_iff, hasInnerDot,
    decide_eq_false_iff_not, hsplit]
  refine ⟨fun hmem => ?_, fun hmem => ?_⟩
  · exact (hpiece [] (List.mem_of_mem_tail (List.mem_of_mem_dropLast hmem))).1 rfl
  · exact (hpiece ['.'] (List.mem_of_mem_tail hmem)).2 rfl

-- ── Main result ───────────────────────────────────────────────────────────────

section Survive

variable {lib : Libostree} {tar : TarCrate} {src : Repo} {w : TarWriter} {c : Checksum}

end Survive

/-- A tar library that rebuilds link targets; it does not read a size that was never set. -/
def rebuildingTar : TarCrate where
  linkName := rebuildTarget
  unsetSize := .error (.err "numeric field was not a number")

/-- A repository with one symbolic link. -/
def linkRepo (c : Checksum) (target : String) : Repo where
  files := (∅ : Std.ExtTreeMap Checksum FileObject).insert c (.symlink 0 0 [] target)

theorem lookup_linkRepo (c : Checksum) (target : String) :
    (linkRepo c target).files[c]? = some (.symlink 0 0 [] target) := by
  show ((∅ : Std.ExtTreeMap Checksum FileObject).insert c _)[c]? = _
  simp

end OstreeExt.Tar
