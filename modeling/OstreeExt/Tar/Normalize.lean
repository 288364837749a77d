import OstreeExt.Tar.Confine
import OstreeExt.Tar.Listing

/-!
# Paths on their way in and out

`normalize_validate_path` by cases on the names of a path (`NormalizeSpec`), for every text that
can stand for a path, and what holds of a path that it returns: it is relative, reads back from
its text, and is left as it is.  On the way out `path_for_tar_v1` and `map_path` undo the one
change that it makes to a path below `usr`.
-/

namespace OstreeExt

-- ── Texts of paths ────────────────────────────────────────────────────────────

namespace Path

instance (s : String) : Decidable (IsFileName s) :=
  inferInstanceAs (Decidable (_ ∧ _ ∧ _ ∧ _))

/-- The names of a path that was read are file names. -/
theorem isFileName_of_parse {text s : String} (h : Component.normal s ∈ parse text) :
    IsFileName s := by
  rcases List.mem_append.mp h with h | h
  · rw [leading] at h
    split at h
    · simp at h
    · split at h
      · simp at h
      · simp at h
  obtain ⟨p, hp, hc⟩ := List.mem_filterMap.mp h
  rw [componentOf] at hc
  split at hc
  · simp at hc
  next hempty =>
  split at hc
  · simp at hc
  next hdot =>
  split at hc
  · simp at hc
  next hdots =>
  obtain rfl := Component.normal.inj (Option.some.inj hc)
  rw [IsFileName, String.toList_ofList]
  exact ⟨hempty, hdot, hdots, not_mem_of_mem_splitChar hp⟩

/-- A path of plain names below `.` reads back from its text. -/
theorem parse_render_curDir {names : List String} (h : ∀ s ∈ names, IsFileName s) :
    parse (render (.curDir :: names.map Component.normal))
      = .curDir :: names.map Component.normal := by
  have htext : (render (.curDir :: names.map Component.normal)).toList
      = joinChar '/' (['.'] :: names.map String.toList) := by
    show (String.ofList (joinChar '/' (['.'] :: (names.map Component.normal).map Component.text))).toList
      = _
    rw [String.toList_ofList, List.map_map]
    rfl
  have hsplit : splitChar '/' (joinChar '/' (['.'] :: names.map String.toList))
      = ['.'] :: names.map String.toList := by
    refine splitChar_joinChar (by simp) ?_
    intro p hp
    rcases List.mem_cons.mp hp with rfl | hp
    · decide
    · obtain ⟨s, hs, rfl⟩ := List.mem_map.mp hp
      exact (h s hs).2.2.2
  have hcomps : (['.'] :: names.map String.toList).filterMap componentOf
      = names.map Component.normal := by
    rw [List.filterMap_cons_none (by decide), List.filterMap_map, ← List.filterMap_eq_map]
    exact List.filterMap_congr (fun s hs => componentOf_isFileName (h s hs))
  have hhead : (joinChar '/' (['.'] :: names.map String.toList)).head? = some '.' := by
    cases names with
    | nil => rfl
    | cons m ms => rfl
  have hlead : leading (joinChar '/' (['.'] :: names.map String.toList))
      (['.'] :: names.map String.toList) = [.curDir] := by
    rw [leading, hhead, if_neg (by decide), List.head?_cons, if_pos rfl]
  rw [parse, htext, hsplit, hcomps, hlead]
  rfl

end Path

namespace Tar

open Exec

/-- The components of a path other than the root and `.`. -/
def names (p : Path) : Path := p.filter (fun c => c ≠ .rootDir ∧ c ≠ .curDir)

/-- Names and `..` are all that counts. -/
theorem names_plain {rest : Path} (h : Plain rest) : names rest = rest := by
  rw [names, List.filter_eq_self]
  intro c hc
  rcases h c hc with rfl | ⟨s, rfl⟩
  · decide
  · simp

theorem names_lead {lead rest : Path} (hlead : lead = [] ∨ lead = [.curDir] ∨ lead = [.rootDir])
    (h : Plain rest) : names (lead ++ rest) = rest := by
  rw [names, List.filter_append, ← names, ← names, names_plain h]
  rcases hlead with rfl | rfl | rfl
  · rfl
  · rfl
  · rfl

-- ── The specification ─────────────────────────────────────────────────────────

/-- An error, as opposed to a panic. -/
def Refused {α : Type} (r : Result α) : Prop := ∃ msg, r = .error (.err msg)

/-- The top-level directories that have a place of their own in the commit. -/
def placedToplevel : List String := ["usr", "etc", "var"]

/-- Where a top-level directory is placed. -/
def toplevelPlace (config : TarImportConfig) (n : String) : List String :=
  if n = "etc" then ["usr", "etc"]
  else if n = "var" ∧ config.remapFactoryVar = true then ["usr", "share", "factory", "var"]
  else [n]

/-- **What `normalize_validate_path` is to return**, by the names of the path. -/
structure NormalizeSpec (config : TarImportConfig) (ns : Path) (r : Result NormalizedPathResult) :
    Prop where
  empty : ns = [] → r = .ok (.normal []) ∨ r = .ok (.normal [.curDir])
  uplink : ∀ rest, ns = .parentDir :: rest → Refused r
  excludedItself : ∀ n, n ∈ excludedToplevelPaths → ns = [.normal n] →
    r = .ok (.normal [.curDir, .normal n])
  excludedUplink : ∀ n rest, n ∈ excludedToplevelPaths → ns = .normal n :: .parentDir :: rest →
    Refused r
  excludedBelow : ∀ n m rest, n ∈ excludedToplevelPaths → ns = .normal n :: .normal m :: rest →
    r = .ok (.filtered m)
  nonusr : ∀ n rest, n ∉ excludedToplevelPaths → n ∉ placedToplevel → config.allowNonusr = false →
    ns = .normal n :: rest → r = .ok (.filtered n)
  keptUplink : ∀ n rest, n ∉ excludedToplevelPaths →
    (n ∈ placedToplevel ∨ config.allowNonusr = true) → ns = .normal n :: rest →
    .parentDir ∈ rest → Refused r
  kept : ∀ n rest, n ∉ excludedToplevelPaths →
    (n ∈ placedToplevel ∨ config.allowNonusr = true) → ns = .normal n :: rest →
    .parentDir ∉ rest → r = .ok (.normal (.curDir :: relPath (toplevelPlace config n) ++ rest))

section Spec

variable {config : TarImportConfig} {path : Path}

/-- The excluded directories have no place of their own. -/
theorem not_excluded_of_placed {n : String} (h : n ∈ placedToplevel) :
    n ∉ excludedToplevelPaths := by
  rw [placedToplevel] at h
  rcases List.mem_cons.mp h with rfl | h
  · decide
  rcases List.mem_cons.mp h with rfl | h
  · decide
  obtain rfl := List.mem_singleton.mp h
  decide

theorem mapToplevel_excluded {n : String} (h : n ∈ excludedToplevelPaths) :
    mapToplevel config n = some ([.normal n], true) := by
  have hplaced : n ∉ placedToplevel := fun hn => not_excluded_of_placed hn h
  rw [placedToplevel, List.mem_cons, List.mem_cons, List.mem_singleton, not_or, not_or] at hplaced
  rw [mapToplevel, if_neg hplaced.1, if_neg hplaced.2.1, if_neg hplaced.2.2, if_pos h]

theorem mapToplevel_nonusr {n : String} (h : n ∉ excludedToplevelPaths) (hplaced : n ∉ placedToplevel)
    (hconfig : config.allowNonusr = false) : mapToplevel config n = none := by
  rw [placedToplevel, List.mem_cons, List.mem_cons, List.mem_singleton, not_or, not_or] at hplaced
  rw [mapToplevel, if_neg hplaced.1, if_neg hplaced.2.1, if_neg hplaced.2.2, if_neg h,
    if_neg (by simp [hconfig])]

theorem mapToplevel_kept {n : String} (h : n ∉ excludedToplevelPaths)
    (hplaced : n ∈ placedToplevel ∨ config.allowNonusr = true) :
    mapToplevel config n = some (relPath (toplevelPlace config n), false) := by
  rw [mapToplevel, toplevelPlace]
  by_cases husr : n = "usr"
  · subst husr
    rfl
  rw [if_neg husr]
  by_cases hetc : n = "etc"
  · rw [if_pos hetc, if_pos hetc]
    rfl
  rw [if_neg hetc, if_neg hetc]
  by_cases hvar : n = "var"
  · subst hvar
    cases config.remapFactoryVar with
    | true => rfl
    | false => rfl
  have hallow : config.allowNonusr = true := by
    refine hplaced.resolve_left (fun hn => ?_)
    rw [placedToplevel, List.mem_cons, List.mem_cons, List.mem_singleton] at hn
    exact hn.elim husr (fun hn => hn.elim hetc hvar)
  rw [if_neg hvar, if_neg h, if_pos hallow, if_neg (fun hn => hvar hn.1)]
  rfl

/-- A `..` among the later names is refused. -/
theorem normalizeParts_uplink {ret rest : Path} (hrest : Plain rest) (h : .parentDir ∈ rest) :
    Refused (normalizeParts config path true false ret rest) := by
  induction rest generalizing ret with
  | nil => exact absurd h (by simp)
  | cons c rest ih =>
      rcases hrest c (List.mem_cons_self ..) with rfl | ⟨s, rfl⟩
      · exact ⟨_, rfl⟩
      · have hmem : .parentDir ∈ rest := (List.mem_cons.mp h).resolve_left (by simp)
        exact ih (fun d hd => hrest d (List.mem_cons_of_mem _ hd)) hmem

/-- The first name of a path decides. -/
theorem normalizeParts_first {ret rest : Path} (n : String) :
    normalizeParts config path false false ret (.normal n :: rest) =
      (match mapToplevel config n with
        | some (dest, excluded) => normalizeParts config path true excluded (ret ++ dest) rest
        | none => .ok (.filtered n)) := by
  rw [normalizeParts, mapComponent]
  rfl

/-- **The loop**, after the leading component. -/
theorem normalizeParts_spec {rest : Path} (hrest : Plain rest) (hne : rest ≠ []) :
    NormalizeSpec config rest (normalizeParts config path false false [.curDir] rest) where
  empty h := absurd h hne
  uplink := by
    rintro tail rfl
    exact ⟨_, rfl⟩
  excludedItself := by
    rintro n hn rfl
    rw [normalizeParts_first, mapToplevel_excluded hn]
    rfl
  excludedUplink := by
    rintro n tail hn rfl
    rw [normalizeParts_first, mapToplevel_excluded hn]
    exact ⟨_, rfl⟩
  excludedBelow := by
    rintro n m tail hn rfl
    rw [normalizeParts_first, mapToplevel_excluded hn]
    rfl
  nonusr := by
    rintro n tail hn hplaced hconfig rfl
    rw [normalizeParts_first, mapToplevel_nonusr hn hplaced hconfig]
  keptUplink := by
    rintro n tail hn hplaced rfl hup
    rw [normalizeParts_first, mapToplevel_kept hn hplaced]
    exact normalizeParts_uplink (fun c hc => hrest c (List.mem_cons_of_mem _ hc)) hup
  kept := by
    rintro n tail hn hplaced rfl hup
    rw [normalizeParts_first, mapToplevel_kept hn hplaced]
    refine (normalizeParts_names (fun c hc => ?_)).trans (by rw [List.singleton_append])
    rcases hrest c (List.mem_cons_of_mem _ hc) with rfl | hname
    · exact absurd hc hup
    · exact hname

/-- Every path as `components` yields it is normalized as specified. -/
theorem normalizeValidatePath_tidy (config : TarImportConfig) (hp : Tidy path) :
    NormalizeSpec config (names path) (normalizeValidatePath path config) := by
  obtain ⟨lead, rest, rfl, hlead, hrest⟩ := hp
  rw [names_lead hlead hrest]
  cases rest with
  | nil =>
      have hempty : normalizeValidatePath (lead ++ []) config = .ok (.normal []) ∨
          normalizeValidatePath (lead ++ []) config = .ok (.normal [.curDir]) := by
        rcases hlead with rfl | rfl | rfl
        · exact .inl rfl
        · exact .inr rfl
        · exact .inr rfl
      exact ⟨fun _ => hempty, by simp, by simp, by simp, by simp, by simp, by simp, by simp⟩
  | cons c rest =>
      rcases hlead with rfl | rfl | rfl
      · rcases hrest c (List.mem_cons_self ..) with rfl | ⟨s, rfl⟩
        · -- nothing is pushed before `..` is refused
          exact ⟨by simp, fun _ _ => ⟨_, rfl⟩, by simp, by simp, by simp, by simp, by simp, by simp⟩
        · exact normalizeParts_spec hrest (by simp)
      · exact normalizeParts_spec hrest (by simp)
      · exact normalizeParts_spec hrest (by simp)

-- ── What is returned ──────────────────────────────────────────────────────────

theorem isFileName_toplevelPlace {n : String} (h : Path.IsFileName n) :
    ∀ m ∈ toplevelPlace config n, Path.IsFileName m := by
  intro m hm
  rw [toplevelPlace] at hm
  split at hm
  · rcases List.mem_cons.mp hm with rfl | hm
    · decide
    obtain rfl := List.mem_singleton.mp hm
    decide
  split at hm
  · have hall : ∀ m ∈ ["usr", "share", "factory", "var"], Path.IsFileName m := by decide
    exact hall m hm
  · obtain rfl := List.mem_singleton.mp hm
    exact h

/-- Names without `..` are those of a relative path. -/
theorem exists_relPath {rest : Path} (hrest : Plain rest) (hup : .parentDir ∉ rest)
    (hnames : ∀ s, .normal s ∈ rest → Path.IsFileName s) :
    ∃ ns, rest = relPath ns ∧ ∀ s ∈ ns, Path.IsFileName s := by
  induction rest with
  | nil => exact ⟨[], rfl, by simp⟩
  | cons c rest ih =>
      obtain ⟨ns, hns, hall⟩ := ih (fun d hd => hrest d (List.mem_cons_of_mem _ hd))
        (fun h => hup (List.mem_cons_of_mem _ h)) (fun s hs => hnames s (List.mem_cons_of_mem _ hs))
      rcases hrest c (List.mem_cons_self ..) with rfl | ⟨s, rfl⟩
      · exact absurd (List.mem_cons_self ..) hup
      · refine ⟨s :: ns, by rw [hns]; rfl, fun t ht => ?_⟩
        rcases List.mem_cons.mp ht with rfl | ht
        · exact hnames _ (List.mem_cons_self ..)
        · exact hall t ht

/-- **The shape of a normalized path**: nothing at all, or plain names below `.`. -/
theorem normalized_shape (hp : Tidy path) (hfiles : ∀ s, .normal s ∈ path → Path.IsFileName s)
    {q : Path} (h : normalizeValidatePath path config = .ok (.normal q)) :
    q = [] ∨ ∃ ns, q = .curDir :: relPath ns ∧ ∀ s ∈ ns, Path.IsFileName s := by
  have hspec := normalizeValidatePath_tidy config hp
  obtain ⟨lead, rest, rfl, hlead, hrest⟩ := hp
  rw [names_lead hlead hrest] at hspec
  have hfiles : ∀ s, .normal s ∈ rest → Path.IsFileName s :=
    fun s hs => hfiles s (List.mem_append_right _ hs)
  have hnot : ¬ Refused (normalizeValidatePath (lead ++ rest) config) := by
    rintro ⟨msg, hmsg⟩
    rw [hmsg] at h
    exact absurd h (by simp)
  have hreturn : ∀ q', normalizeValidatePath (lead ++ rest) config = .ok (.normal q') → q = q' := by
    intro q' hq'
    rw [hq'] at h
    injection h with h
    injection h with h
    exact h.symm
  rcases rest with _ | ⟨c, rest⟩
  · rcases hspec.empty rfl with hq | hq
    · exact .inl (hreturn _ hq)
    · exact .inr ⟨[], hreturn _ hq, by simp⟩
  have htail : Plain rest := fun d hd => hrest d (List.mem_cons_of_mem _ hd)
  rcases hrest c (List.mem_cons_self ..) with rfl | ⟨n, rfl⟩
  · exact absurd (hspec.uplink _ rfl) hnot
  have hn : Path.IsFileName n := hfiles n (List.mem_cons_self ..)
  by_cases hexcluded : n ∈ excludedToplevelPaths
  · rcases rest with _ | ⟨d, rest⟩
    · refine .inr ⟨[n], hreturn _ (hspec.excludedItself n hexcluded rfl), fun s hs => ?_⟩
      rwa [List.mem_singleton.mp hs]
    · rcases htail d (List.mem_cons_self ..) with rfl | ⟨m, rfl⟩
      · exact absurd (hspec.excludedUplink n rest hexcluded rfl) hnot
      · rw [hspec.excludedBelow n m rest hexcluded rfl] at h
        exact absurd h (by simp)
  by_cases hkept : n ∈ placedToplevel ∨ config.allowNonusr = true
  · by_cases hup : .parentDir ∈ rest
    · exact absurd (hspec.keptUplink n rest hexcluded hkept rfl hup) hnot
    obtain ⟨ns, rfl, hns⟩ := exists_relPath htail hup
      (fun s hs => hfiles s (List.mem_cons_of_mem _ hs))
    refine .inr ⟨toplevelPlace config n ++ ns, ?_, fun s hs => ?_⟩
    · rw [hreturn _ (hspec.kept n _ hexcluded hkept rfl hup), List.cons_append, relPath, relPath,
        relPath, List.map_append]
    · rcases List.mem_append.mp hs with hs | hs
      · exact isFileName_toplevelPlace hn s hs
      · exact hns s hs
  · rw [not_or, Bool.not_eq_true] at hkept
    rw [hspec.nonusr n rest hexcluded hkept.1 hkept.2 rfl] at h
    exact absurd h (by simp)

/-- **`normalize_validate_path`** meets its specification on every text, and what it returns is
    relative, without `..`, reads back from its text and is returned again. -/
theorem normalizeValidatePath_spec (text : String) (config : TarImportConfig) :
    NormalizeSpec config (names (Path.parse text))
      (normalizeValidatePath (Path.parse text) config) ∧
    ∀ q, normalizeValidatePath (Path.parse text) config = .ok (.normal q) →
      normalizeValidatePath q config = .ok (.normal q) ∧ Path.parse (Path.render q) = q ∧
      .rootDir ∉ q ∧ .parentDir ∉ q := by
  have htidy := tidy_parse text
  refine ⟨normalizeValidatePath_tidy config htidy, fun q hq => ?_⟩
  have hsettled := normalize_settled htidy hq
  rcases normalized_shape htidy (fun s hs => Path.isFileName_of_parse hs) hq with
    rfl | ⟨ns, rfl, hns⟩
  · exact ⟨rfl, rfl, by simp, by simp⟩
  · have hsettled : Settled config (relPath ns) := hsettled
    have hagain : normalizeParts config (.curDir :: relPath ns) false false [.curDir] (relPath ns)
        = .ok (.normal ([.curDir] ++ relPath ns)) := normalizeParts_of_settled hsettled
    refine ⟨hagain, Path.parse_render_curDir hns, ?_, ?_⟩
    · simp [relPath]
    · simp [relPath]

end Spec

-- ── Out and in again ──────────────────────────────────────────────────────────

/-- The names below `usr` come back from where they are placed. -/
theorem normalize_place (config : TarImportConfig) (ns : List String) :
    normalizeValidatePath (relPath (place ("usr" :: ns))) config
      = .ok (.normal (.curDir :: relPath ("usr" :: ns))) := by
  have hplain : ∀ ms : List String, ∀ c ∈ relPath ms, ∃ s, c = .normal s := by
    intro ms c hc
    obtain ⟨s, _, rfl⟩ := List.mem_map.mp hc
    exact ⟨s, rfl⟩
  rw [place]
  cases hstrip : stripPrefix ["usr", "etc"] ("usr" :: ns) with
  | some rest =>
      rw [stripPrefix_eq_some] at hstrip
      have hns : ns = "etc" :: rest := (List.cons.inj hstrip).2
      show normalizeParts config _ true false [.curDir, .normal "usr", .normal "etc"] (relPath rest) = _
      rw [normalizeParts_names (hplain rest), hns]
      rfl
  | none =>
      show normalizeParts config _ true false [.curDir, .normal "usr"] (relPath ns) = _
      rw [normalizeParts_names (hplain ns)]
      rfl

/-- **The mappings of the export are inverse to that of the import**, and agree with each other,
    on the paths below `usr`. -/
theorem exportPath_inverse (config : TarImportConfig) (ns : List String) :
    normalizeValidatePath (pathForTarV1 (.rootDir :: relPath ("usr" :: ns))) config
      = .ok (.normal (.curDir :: relPath ("usr" :: ns))) ∧
    dropLead (mapPath (.curDir :: relPath ("usr" :: ns)))
      = pathForTarV1 (.rootDir :: relPath ("usr" :: ns)) ∧
    ∀ ms, pathForTarV1 (.rootDir :: relPath ("usr" :: ms))
      = pathForTarV1 (.rootDir :: relPath ("usr" :: ns)) → ms = ns := by
  have hout : ∀ ms, pathForTarV1 (.rootDir :: relPath ("usr" :: ms)) = relPath (place ("usr" :: ms)) := by
    intro ms
    have hstrip : stripPrefix [Component.rootDir] (.rootDir :: relPath ("usr" :: ms))
        = some (relPath ("usr" :: ms)) := stripPrefix_append [Component.rootDir] _
    rw [pathForTarV1, hstrip, Option.getD_some, mapPathV1_relPath]
  refine ⟨?_, ?_, ?_⟩
  · rw [hout, normalize_place]
  · rw [hout, mapPath_relPath]
    rfl
  · intro ms heq
    rw [hout, hout] at heq
    -- the import finds both paths from the same one
    have hback := normalize_place {} ms
    rw [heq, normalize_place] at hback
    injection hback with hback
    injection hback with hback
    exact (List.cons.inj (relPath_inj (List.cons.inj hback).2)).2.symm

end Tar

end OstreeExt
