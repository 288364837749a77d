import OstreeExt.Tar.Write

/-!
# Where filtered entries go

`normalize_validate_path` takes a path below `usr`, or to one of the few other places, and
what it has done once it does not do again (`Kept`).  A copied entry goes there, but a hard
link to a modified object of the repository is written at its own path, and the extension
records of an entry are copied with it; so a filtered stream is confined exactly when these
paths are (`filterTar_confined_iff`).
-/

namespace OstreeExt.Tar

open OstreeExt Exec

/-- A path without a leading `./` or `/`. -/
def dropLead : Path → Path
  | .curDir :: rest => rest
  | .rootDir :: rest => rest
  | path => path

-- ── Normalized paths ──────────────────────────────────────────────────────────

/-- Names and `..` only. -/
def Plain (rest : Path) : Prop := ∀ c ∈ rest, c = .parentDir ∨ ∃ s, c = .normal s

/-- A path as `components` yields it: the root or a `.` in front, then names and `..`. -/
def Tidy (p : Path) : Prop :=
  ∃ lead rest, p = lead ++ rest ∧ (lead = [] ∨ lead = [.curDir] ∨ lead = [.rootDir]) ∧ Plain rest

theorem tidy_parse (s : String) : Tidy (Path.parse s) := by
  refine ⟨Path.leading s.toList (splitChar '/' s.toList), _, rfl, ?_, fun c hc => ?_⟩
  · rw [Path.leading]
    split
    · exact .inr (.inr rfl)
    · split
      · exact .inr (.inl rfl)
      · exact .inl rfl
  · obtain ⟨p, _, hp⟩ := List.mem_filterMap.mp hc
    rw [Path.componentOf] at hp
    split at hp
    · exact nomatch hp
    split at hp
    · exact nomatch hp
    split at hp
    · exact .inl (Option.some.inj hp).symm
    · exact .inr ⟨_, (Option.some.inj hp).symm⟩

theorem tidy_relative {p : Path} (h : Tidy p) : Tidy (relative p) := by
  obtain ⟨lead, rest, rfl, rfl | rfl | rfl, hrest⟩ := h
  · cases rest with
    | nil => exact ⟨[], [], rfl, .inl rfl, hrest⟩
    | cons c rest =>
        have hne : Component.rootDir ≠ c := by
          rintro rfl
          rcases hrest _ (List.mem_cons_self ..) with h | ⟨s, h⟩
          · exact nomatch h
          · exact nomatch h
        rw [relative, List.nil_append, stripPrefix, if_neg hne]
        exact ⟨[], c :: rest, rfl, .inl rfl, hrest⟩
  · exact ⟨[.curDir], rest, rfl, .inr (.inl rfl), hrest⟩
  · rw [relative, stripPrefix_append]
    exact ⟨[], rest, rfl, .inl rfl, hrest⟩

section Normalize

variable {config : TarImportConfig} {path : Path}

/-- After the first name everything is kept, but `..` is refused. -/
theorem normalizeParts_found {ret rest n : Path} (hrest : Plain rest)
    (h : normalizeParts config path true false ret rest = .ok (.normal n)) :
    n = ret ++ rest ∧ ∀ c ∈ rest, ∃ s, c = .normal s := by
  induction rest generalizing ret with
  | nil =>
      rw [normalizeParts] at h
      cases h
      exact ⟨(List.append_nil _).symm, nofun⟩
  | cons c rest ih =>
      have htail : Plain rest := fun d hd => hrest d (List.mem_cons_of_mem _ hd)
      rcases hrest c (List.mem_cons_self ..) with rfl | ⟨s, rfl⟩
      · exact nomatch h
      · obtain ⟨rfl, hnames⟩ := ih htail h
        refine ⟨List.append_assoc .., fun d hd => ?_⟩
        rcases List.mem_cons.mp hd with rfl | hd
        · exact ⟨s, rfl⟩
        · exact hnames d hd

theorem normalizeParts_names {ret rest : Path} (hrest : ∀ c ∈ rest, ∃ s, c = .normal s) :
    normalizeParts config path true false ret rest = .ok (.normal (ret ++ rest)) := by
  induction rest generalizing ret with
  | nil => rw [List.append_nil]; rfl
  | cons c rest ih =>
      obtain ⟨s, rfl⟩ := hrest c (List.mem_cons_self ..)
      show normalizeParts config path true false (ret ++ [.normal s]) rest = _
      rw [ih (fun d hd => hrest d (List.mem_cons_of_mem _ hd)), List.append_assoc]
      rfl

/-- Below an excluded directory everything is filtered. -/
theorem normalizeParts_excluded {ret rest n : Path}
    (h : normalizeParts config path true true ret rest = .ok (.normal n)) :
    rest = [] ∧ n = ret := by
  cases rest with
  | nil =>
      cases h
      exact ⟨rfl, rfl⟩
  | cons c rest =>
      rw [normalizeParts] at h
      split at h
      · exact nomatch h
      · exact nomatch h

/-- Where a first name goes, it stays. -/
theorem mapToplevel_again {s : String} {dest : Path} {excluded : Bool}
    (h : mapToplevel config s = some (dest, excluded)) :
    ∃ s' tl, dest = .normal s' :: tl ∧ (∀ c ∈ tl, ∃ s, c = .normal s) ∧
      mapToplevel config s' = some ([.normal s'], excluded) ∧ (excluded = true → tl = []) ∧
      (config.allowNonusr = false → s' = "usr" ∨ (s' = "var" ∧ config.remapFactoryVar = false) ∨
        (s' ∈ excludedToplevelPaths ∧ excluded = true)) := by
  have husr : mapToplevel config "usr" = some ([.normal "usr"], false) := rfl
  rw [mapToplevel] at h
  split at h
  · next hs =>
    cases h
    subst hs
    exact ⟨"usr", [], rfl, nofun, husr, fun _ => rfl, fun _ => .inl rfl⟩
  next hs₁ =>
  split at h
  · cases h
    exact ⟨"usr", [.normal "etc"], rfl, by simp, husr, nofun, fun _ => .inl rfl⟩
  next hs₂ =>
  split at h
  · next hs =>
    subst hs
    split at h
    · cases h
      exact ⟨"usr", [.normal "share", .normal "factory", .normal "var"], rfl, by simp, husr, nofun,
        fun _ => .inl rfl⟩
    · next hr =>
      cases h
      have hr : config.remapFactoryVar = false := by simpa using hr
      refine ⟨"var", [], rfl, nofun, ?_, fun _ => rfl, fun _ => .inr (.inl ⟨rfl, hr⟩)⟩
      rw [mapToplevel, if_neg (by decide), if_neg (by decide), if_pos rfl, hr]
      rfl
  next hs₃ =>
  split at h
  · next hs =>
    cases h
    refine ⟨s, [], rfl, nofun, ?_, fun _ => rfl, fun _ => .inr (.inr ⟨hs, rfl⟩)⟩
    rw [mapToplevel, if_neg hs₁, if_neg hs₂, if_neg hs₃, if_pos hs]
  next hs₄ =>
  split at h
  · next hallow =>
    cases h
    refine ⟨s, [], rfl, nofun, ?_, fun _ => rfl, fun hno => by rw [hno] at hallow; exact nomatch hallow⟩
    rw [mapToplevel, if_neg hs₁, if_neg hs₂, if_neg hs₃, if_neg hs₄, if_pos hallow]
  · exact nomatch h

/-- The names that are left where they are: none at all, or those that start with one of the
    first names that stay, below which there is nothing if it is excluded. -/
def Settled (config : TarImportConfig) (names : Path) : Prop :=
  names = [] ∨ ∃ s tl excluded, names = .normal s :: tl ∧ (∀ c ∈ tl, ∃ s, c = .normal s) ∧
    mapToplevel config s = some ([.normal s], excluded) ∧ (excluded = true → tl = []) ∧
    (config.allowNonusr = false → s = "usr" ∨ (s = "var" ∧ config.remapFactoryVar = false) ∨
      (s ∈ excludedToplevelPaths ∧ excluded = true))

/-- What the loop returns after the leading component. -/
theorem normalizeParts_settled {ret rest n : Path} (hrest : Plain rest)
    (h : normalizeParts config path false false ret rest = .ok (.normal n)) :
    ∃ names, n = ret ++ names ∧ Settled config names := by
  cases rest with
  | nil =>
      cases h
      exact ⟨[], (List.append_nil _).symm, .inl rfl⟩
  | cons c rest =>
      have htail : Plain rest := fun d hd => hrest d (List.mem_cons_of_mem _ hd)
      rcases hrest c (List.mem_cons_self ..) with rfl | ⟨s, rfl⟩
      · exact nomatch h
      rw [normalizeParts, mapComponent] at h
      dsimp only at h
      rw [if_neg (by simp), if_neg (by simp)] at h
      split at h
      · next dest excluded hmap =>
        obtain ⟨s', tl, rfl, htl, hmap', hexcl, hplace⟩ := mapToplevel_again hmap
        cases excluded with
        | true =>
            obtain ⟨rfl, rfl⟩ := normalizeParts_excluded h
            rw [hexcl rfl] at *
            exact ⟨_, rfl, .inr ⟨s', [], true, rfl, nofun, hmap', fun _ => rfl, hplace⟩⟩
        | false =>
            obtain ⟨rfl, hnames⟩ := normalizeParts_found htail h
            refine ⟨_, List.append_assoc .., .inr ⟨s', tl ++ rest, false, rfl, fun c hc => ?_, hmap',
              nofun, hplace⟩⟩
            rcases List.mem_append.mp hc with hc | hc
            · exact htl c hc
            · exact hnames c hc
      · exact nomatch h

/-- **What is normalized is settled.** -/
theorem normalize_settled {p n : Path} (hp : Tidy p)
    (h : normalizeValidatePath p config = .ok (.normal n)) : Settled config (dropLead n) := by
  obtain ⟨lead, rest, rfl, hlead, hrest⟩ := hp
  have hdrop : ∀ names, Settled config names → Settled config (dropLead names) := by
    rintro names (rfl | ⟨s, tl, excluded, rfl, h⟩)
    · exact .inl rfl
    · exact .inr ⟨s, tl, excluded, rfl, h⟩
  rcases hlead with rfl | rfl | rfl
  · cases rest with
    | nil =>
        cases h
        exact .inl rfl
    | cons c rest =>
        rcases hrest c (List.mem_cons_self ..) with rfl | ⟨s, rfl⟩
        · exact nomatch h
        · obtain ⟨names, rfl, hnames⟩ := normalizeParts_settled hrest h
          exact hnames
  · have h : normalizeParts config _ false false [.curDir] rest = .ok (.normal n) := h
    obtain ⟨names, rfl, hnames⟩ := normalizeParts_settled hrest h
    exact hnames
  · have h : normalizeParts config _ false false [.curDir] rest = .ok (.normal n) := h
    obtain ⟨names, rfl, hnames⟩ := normalizeParts_settled hrest h
    exact hnames

/-- The path is one that `normalize_validate_path` leaves where it is. -/
def Kept (config : TarImportConfig) (q : Path) : Prop :=
  ∃ n, normalizeValidatePath q config = .ok (.normal n) ∧ dropLead n = dropLead q

theorem normalizeParts_of_settled {ret names : Path} (h : Settled config names) :
    normalizeParts config path false false ret names = .ok (.normal (ret ++ names)) := by
  rcases h with rfl | ⟨s, tl, excluded, rfl, htl, hmap, hexcl, _⟩
  · rw [List.append_nil]
    rfl
  rw [normalizeParts, mapComponent]
  dsimp only
  rw [if_neg (by simp), if_neg (by simp), hmap]
  dsimp only
  cases excluded with
  | true =>
      rw [hexcl rfl]
      rfl
  | false =>
      rw [normalizeParts_names htl, List.append_assoc]
      rfl

/-- Settled names are kept, however they are written. -/
theorem kept_of_settled {q : Path} (h : Settled config (dropLead q)) : Kept config q := by
  have hloop : ∀ path, normalizeParts config path false false [.curDir] (dropLead q)
      = .ok (.normal (.curDir :: dropLead q)) := fun _ => normalizeParts_of_settled h
  rcases q with _ | ⟨c, rest⟩
  · exact ⟨[], rfl, rfl⟩
  cases c with
  | curDir => exact ⟨.curDir :: rest, hloop _, rfl⟩
  | rootDir => exact ⟨.curDir :: rest, hloop _, rfl⟩
  | parentDir =>
      rcases h with h | ⟨s, tl, excluded, h, _⟩
      · exact nomatch h
      · exact nomatch h
  | normal s => exact ⟨.curDir :: .normal s :: rest, hloop _, rfl⟩

end Normalize

-- ── What is written ───────────────────────────────────────────────────────────

/-- The path in the extension records of an entry; the last record of a key counts. -/
def pathRecord (key : String) (pax : List PaxExtension) : Option Path :=
  ((pax.filter (·.key = key)).getLast?).bind fun ext =>
    (String.fromUTF8? ⟨ext.value.toArray⟩).map Path.parse

/-- The path of an entry of the filtered stream, where an extension record overrides the
    header. -/
def FilteredEntry.readPath (o : FilteredEntry) : Path := (pathRecord "path" o.pax).getD o.path

/-- The path in the extension records of an entry of the layer. -/
def LayerEntry.paxRecord (e : LayerEntry) (key : String) : Option Path :=
  match e.extensions with
  | .ok pax => pathRecord key pax
  | .error _ => none

/-- The copy has the path it was given, unless a record says otherwise. -/
theorem copyOf_fields {e : LayerEntry} {q : Path} {o : FilteredEntry} (h : copyOf e q = .ok o) :
    o.path = q ∧ o.header = e.header ∧ ∀ key, pathRecord key o.pax = e.paxRecord key := by
  rw [copyOf] at h
  obtain ⟨pax, hpax, h⟩ := result_bind_eq_ok.mp h
  have hrecord : ∀ key, pathRecord key pax = e.paxRecord key := by
    intro key
    rw [LayerEntry.paxRecord, hpax]
  cases hty : e.header.entryType with
  | symlink =>
      rw [hty] at h
      obtain ⟨target, _, h⟩ := result_bind_eq_ok.mp h
      cases h
      exact ⟨rfl, rfl, hrecord⟩
  | link =>
      rw [hty] at h
      obtain ⟨target, _, h⟩ := result_bind_eq_ok.mp h
      cases h
      exact ⟨rfl, rfl, hrecord⟩
  | regular =>
      rw [hty] at h
      cases h
      exact ⟨rfl, rfl, hrecord⟩
  | directory =>
      rw [hty] at h
      cases h
      exact ⟨rfl, rfl, hrecord⟩
  | other flag =>
      rw [hty] at h
      cases h
      exact ⟨rfl, rfl, hrecord⟩

/-- A modified hard link to an object of the repository that an earlier entry has modified. -/
def Relinked (pre : List LayerEntry) (e : LayerEntry) : Prop :=
  ∃ t, e.repoTarget = some t ∧ ∃ e' ∈ pre, e'.Stashed ∧ e'.rel = t

/-- The path at which an entry is written, given the entries before it. -/
def WrittenAt (config : TarImportConfig) (pre : List LayerEntry) (e : LayerEntry) (q : Path) :
    Prop :=
  (∃ n, e.CopiedTo config n ∧ q = (e.paxRecord "path").getD n) ∨ (Relinked pre e ∧ q = e.rel)

/-- Some entry of the list is written at the path. -/
def Written (config : TarImportConfig) (es : List LayerEntry) (q : Path) : Prop :=
  ∃ pre e post, es = pre ++ e :: post ∧ WrittenAt config pre e q

/-- A split of a list with one more member. -/
theorem snoc_split {α : Type} {l pre post : List α} {a e : α} (h : l ++ [a] = pre ++ e :: post) :
    (pre = l ∧ e = a ∧ post = []) ∨ ∃ post', post = post' ++ [a] ∧ l = pre ++ e :: post' := by
  rcases List.append_eq_append_iff.mp h with ⟨as, rfl, has⟩ | ⟨bs, rfl, hbs⟩
  · cases as with
    | nil =>
        obtain ⟨rfl, rfl⟩ := List.cons.inj has
        exact .inl ⟨List.append_nil _, rfl, rfl⟩
    | cons b as => exact absurd (List.cons.inj has).2 (by simp)
  · cases bs with
    | nil =>
        obtain ⟨rfl, rfl⟩ := List.cons.inj hbs
        exact .inl ⟨(List.append_nil _).symm, rfl, rfl⟩
    | cons b bs =>
        obtain ⟨rfl, rfl⟩ := List.cons.inj hbs
        exact .inr ⟨bs, rfl, rfl⟩

theorem written_snoc {config : TarImportConfig} {es : List LayerEntry} {e : LayerEntry} {q : Path} :
    Written config (es ++ [e]) q ↔ Written config es q ∨ WrittenAt config es e q := by
  constructor
  · rintro ⟨pre, e', post, hsplit, h⟩
    rcases snoc_split hsplit with ⟨rfl, rfl, rfl⟩ | ⟨post', rfl, rfl⟩
    · exact .inr h
    · exact .inl ⟨pre, e', post', rfl, h⟩
  · rintro (⟨pre, e', post, rfl, h⟩ | h)
    · exact ⟨pre, e', post ++ [e], by simp, h⟩
    · exact ⟨es, e, [], rfl, h⟩

/-- **The state of the filter after some entries**: the maps know the modified objects, the new
    targets of links are in the output, and the output has the paths at which the entries are
    written. -/
structure Filtered (config : TarImportConfig) (es : List LayerEntry) (w : FilterState) : Prop where
  known : ∀ t, ((w.changedSysrootObjects t).isSome ∨ (w.newSysrootLinkTargets t).isSome) ↔
    ∃ e ∈ es, e.Stashed ∧ e.rel = t
  regular : ∀ t header data, w.changedSysrootObjects t = some (header, data) →
    header.entryType = .regular
  targets : ∀ t p, w.newSysrootLinkTargets t = some p → ∃ o ∈ w.out, o.readPath = p
  paths : ∀ q, (∃ o ∈ w.out, o.readPath = q) ↔ Written config es q

theorem filtered_init (config : TarImportConfig) : Filtered config [] {} where
  known t := ⟨by simp, by simp⟩
  regular _ _ _ h := nomatch h
  targets _ _ h := nomatch h
  paths q := by
    constructor
    · rintro ⟨o, ho, _⟩
      exact nomatch ho
    · rintro ⟨pre, e, post, h, _⟩
      exact absurd h (by simp)

section Run

variable {tar : TarBuilder} {config : TarImportConfig} {es : List LayerEntry} {e : LayerEntry}
  {w w' : FilterState}

/-- What an entry adds to the output. -/
theorem Filtered.added (h : Filtered config es w) (hfate : Fate config e w w') :
    ∃ new : Option FilteredEntry, w'.out = w.out ++ new.toList ∧
      ∀ q, WrittenAt config es e q ↔ ∃ o ∈ new, o.readPath = q := by
  have hnone : (∀ n, ¬ e.CopiedTo config n) → ¬ Relinked es e →
      ∀ q, WrittenAt config es e q ↔ ∃ o ∈ (none : Option FilteredEntry), o.readPath = q := by
    intro hcopied hrelinked q
    constructor
    · rintro (⟨n, hn, _⟩ | ⟨hr, _⟩)
      · exact absurd hn (hcopied n)
      · exact absurd hr hrelinked
    · rintro ⟨o, ho, _⟩
      cases ho
  have hlinked : ∀ {t : Path} {o : FilteredEntry}, e.repoTarget = some t →
      ((w.changedSysrootObjects t).isSome ∨ (w.newSysrootLinkTargets t).isSome) →
      o.readPath = e.rel → ∀ q, WrittenAt config es e q ↔ ∃ o' ∈ some o, o'.readPath = q := by
    intro t o ht hknown ho q
    have hrelinked : Relinked es e := ⟨t, ht, (h.known t).mp hknown⟩
    constructor
    · rintro (⟨n, hn, _⟩ | ⟨_, rfl⟩)
      · cases hn.2.1.symm.trans ht
      · exact ⟨o, rfl, ho⟩
    · rintro ⟨o', ho', hq⟩
      obtain rfl := Option.some.inj ho'
      exact .inr ⟨hrelinked, hq.symm.trans ho⟩
  cases hfate with
  | stashed hs =>
      refine ⟨none, (List.append_nil _).symm, hnone (fun n hn => hn.1 hs) ?_⟩
      rintro ⟨t, ht, _⟩
      rw [LayerEntry.repoTarget, if_neg (by simp [hs.1])] at ht
      cases ht
  | moved ht hc =>
      exact ⟨some _, rfl, hlinked ht (.inl (by rw [hc]; rfl)) rfl⟩
  | relinked ht hc hn =>
      exact ⟨some _, rfl, hlinked ht (.inr (by rw [hn]; rfl)) rfl⟩
  | unhandled ht hc hn =>
      refine ⟨none, (List.append_nil _).symm,
        hnone (fun n hn => by cases hn.2.1.symm.trans ht) ?_⟩
      rintro ⟨t', ht', hknown⟩
      obtain rfl := Option.some.inj (ht.symm.trans ht')
      rcases (h.known _).mpr hknown with hsome | hsome
      · rw [hc] at hsome
        cases hsome
      · rw [hn] at hsome
        cases hsome
  | dropped hs ht hn =>
      refine ⟨none, (List.append_nil _).symm, hnone (fun n hcopied => ?_) ?_⟩
      · cases hn.symm.trans hcopied.2.2
      · rintro ⟨t, ht', _⟩
        cases ht.symm.trans ht'
  | copied hcopied ho =>
      obtain ⟨hpath, _, hrecord⟩ := copyOf_fields ho
      refine ⟨some _, rfl, fun q => ?_⟩
      constructor
      · rintro (⟨n, hn, rfl⟩ | ⟨⟨t, ht, _⟩, _⟩)
        · cases hcopied.2.2.symm.trans hn.2.2
          refine ⟨_, rfl, ?_⟩
          rw [FilteredEntry.readPath, hrecord, hpath]
        · cases hcopied.2.1.symm.trans ht
      · rintro ⟨o', ho', rfl⟩
        obtain rfl := Option.some.inj ho'
        refine .inl ⟨_, hcopied, ?_⟩
        rw [FilteredEntry.readPath, hrecord, hpath]

/-- A stashed entry, or none. -/
theorem exists_stashed_snoc {t : Path} : (∃ e' ∈ es ++ [e], e'.Stashed ∧ e'.rel = t) ↔
    (∃ e' ∈ es, e'.Stashed ∧ e'.rel = t) ∨ (e.Stashed ∧ e.rel = t) := by
  constructor
  · rintro ⟨e', he', h⟩
    rcases List.mem_append.mp he' with he' | he'
    · exact .inl ⟨e', he', h⟩
    · rw [List.mem_singleton.mp he'] at h
      exact .inr h
  · rintro (⟨e', he', h⟩ | h)
    · exact ⟨e', List.mem_append_left _ he', h⟩
    · exact ⟨e, List.mem_append_right _ (List.mem_singleton_self _), h⟩

theorem not_stashed_of_repoTarget {t : Path} (h : e.repoTarget = some t) : ¬ e.Stashed := by
  intro hs
  rw [LayerEntry.repoTarget, if_neg (by simp [hs.1])] at h
  cases h

/-- What the maps know after an entry. -/
theorem Filtered.known_step (h : Filtered config es w) (hfate : Fate config e w w') (t : Path) :
    ((w'.changedSysrootObjects t).isSome ∨ (w'.newSysrootLinkTargets t).isSome) ↔
      ∃ e' ∈ es ++ [e], e'.Stashed ∧ e'.rel = t := by
  have hsame : ¬ e.Stashed → ((∃ e' ∈ es ++ [e], e'.Stashed ∧ e'.rel = t) ↔
      ((w.changedSysrootObjects t).isSome ∨ (w.newSysrootLinkTargets t).isSome)) := by
    intro hs
    rw [exists_stashed_snoc, h.known t]
    exact or_iff_left (fun h' => hs h'.1)
  cases hfate with
  | stashed hs =>
      rw [exists_stashed_snoc, ← h.known t]
      show (Function.update w.changedSysrootObjects e.rel _ t).isSome ∨ _ ↔ _
      by_cases heq : t = e.rel
      · rw [heq, Function.update_self]
        exact iff_of_true (.inl rfl) (.inr ⟨hs, rfl⟩)
      · rw [Function.update_of_ne heq]
        exact (or_iff_left (fun h' => heq h'.2.symm)).symm
  | @moved t' header data ht hc =>
      rw [hsame (not_stashed_of_repoTarget ht)]
      show (Function.update w.changedSysrootObjects t' none t).isSome ∨
        (Function.update w.newSysrootLinkTargets t' _ t).isSome ↔ _
      by_cases heq : t = t'
      · rw [heq, Function.update_self, Function.update_self, hc]
        exact iff_of_true (.inr rfl) (.inl rfl)
      · rw [Function.update_of_ne heq, Function.update_of_ne heq]
  | relinked ht hc hn =>
      rw [hsame (not_stashed_of_repoTarget ht)]
      exact Iff.rfl
  | unhandled ht hc hn =>
      rw [hsame (not_stashed_of_repoTarget ht)]
  | dropped hs ht hn =>
      rw [hsame hs]
      exact Iff.rfl
  | copied hcopied ho =>
      rw [hsame hcopied.1]
      exact Iff.rfl

/-- **One round of the loop.** -/
theorem Filtered.step (h : Filtered config es w) (hfate : Fate config e w w') :
    Filtered config (es ++ [e]) w' := by
  obtain ⟨new, hout, hnew⟩ := h.added hfate
  have hgrows : ∀ o ∈ w.out, o ∈ w'.out := by
    intro o ho
    rw [hout]
    exact List.mem_append_left _ ho
  refine ⟨h.known_step hfate, ?_, ?_, fun q => ?_⟩
  · intro t header data hc
    cases hfate with
    | stashed hs =>
        by_cases heq : t = e.rel
        · have hc : Function.update w.changedSysrootObjects e.rel _ t = _ := hc
          rw [heq, Function.update_self] at hc
          cases hc
          exact hs.2.2
        · have hc : Function.update w.changedSysrootObjects e.rel _ t = _ := hc
          rw [Function.update_of_ne heq] at hc
          exact h.regular t header data hc
    | @moved t' _ _ ht _ =>
        have hc : Function.update w.changedSysrootObjects t' none t = _ := hc
        by_cases heq : t = t'
        · rw [heq, Function.update_self] at hc
          exact nomatch hc
        · rw [Function.update_of_ne heq] at hc
          exact h.regular t header data hc
    | relinked _ _ _ => exact h.regular t header data hc
    | unhandled _ _ _ => exact h.regular t header data hc
    | dropped _ _ _ => exact h.regular t header data hc
    | copied _ _ => exact h.regular t header data hc
  · intro t p hp
    have hold : w.newSysrootLinkTargets t = some p → ∃ o ∈ w'.out, o.readPath = p := by
      intro hp
      obtain ⟨o, ho, hread⟩ := h.targets t p hp
      exact ⟨o, hgrows o ho, hread⟩
    cases hfate with
    | @moved t' _ _ ht _ =>
        have hp : Function.update w.newSysrootLinkTargets t' (some e.rel) t = some p := hp
        by_cases heq : t = t'
        · rw [heq, Function.update_self] at hp
          cases hp
          exact ⟨_, List.mem_append_right _ (List.mem_singleton_self _), rfl⟩
        · rw [Function.update_of_ne heq] at hp
          exact hold hp
    | stashed _ => exact hold hp
    | relinked _ _ _ => exact hold hp
    | unhandled _ _ _ => exact hold hp
    | dropped _ _ _ => exact hold hp
    | copied _ _ => exact hold hp
  · rw [written_snoc, ← h.paths q, hnew q, hout]
    constructor
    · rintro ⟨o, ho, hq⟩
      rcases List.mem_append.mp ho with ho | ho
      · exact .inl ⟨o, ho, hq⟩
      · exact .inr ⟨o, Option.mem_toList.mp ho, hq⟩
    · rintro (⟨o, ho, hq⟩ | ⟨o, ho, hq⟩)
      · exact ⟨o, List.mem_append_left _ ho, hq⟩
      · exact ⟨o, List.mem_append_right _ (Option.mem_toList.mpr ho), hq⟩

/-- The entries of an archive that could be read. -/
def entriesOf (src : List (Except String LayerEntry)) : List LayerEntry :=
  src.filterMap fun
    | .ok e => some e
    | .error _ => none

theorem entriesOf_append (a b : List (Except String LayerEntry)) :
    entriesOf (a ++ b) = entriesOf a ++ entriesOf b := List.filterMap_append ..

/-- A round that succeeds has read its entry. -/
theorem filterTarEntry_read {ent : Except String LayerEntry} {u : Unit}
    (h : filterTarEntry tar config ent w = .ok u w') :
    ∃ e, ent = .ok e ∧ Fate config e w w' := by
  cases ent with
  | error msg => exact nomatch h
  | ok e => exact ⟨e, rfl, filterTarEntry_fate h⟩

/-- **The loop of `filter_tar`** keeps an invariant of its rounds: it holds of all entries at
    the end, or else of those in front of the one that fails. -/
theorem filterTar_run {src : List (Except String LayerEntry)} (I : List LayerEntry → FilterState → Prop)
    (hinit : I [] {})
    (hstep : ∀ es e w w', I es w → Fate config e w w' → I (es ++ [e]) w') :
    ∃ pre post w, entriesOf src = pre ++ post ∧ I pre w ∧ w.out = (filterTar tar config src).1 ∧
      ∀ counts, (filterTar tar config src).2 = .ok counts → post = [] := by
  have hloop := @forM_reaches _ _ _ src (filterTarEntry tar config) (fun pre w => I (entriesOf pre) w)
    {} hinit (by
      intro pre ent post w w' _ hI hrun
      obtain ⟨e, rfl, hfate⟩ := filterTarEntry_read hrun
      rw [entriesOf_append]
      exact hstep _ e w w' hI hfate)
  rcases hloop with ⟨w, hrun, hI⟩ | ⟨pre, ent, post, w, err, w', hsrc, hI, hent, hrun⟩
  · refine ⟨entriesOf src, [], w, (List.append_nil _).symm, hI, ?_, fun _ _ => rfl⟩
    rw [filterTar, hrun]
  · refine ⟨entriesOf pre, entriesOf (ent :: post), w, ?_, hI, ?_, fun counts hcounts => ?_⟩
    · rw [hsrc, entriesOf_append]
    · rw [filterTar, hrun]
      exact (filterTarEntry_error hent).symm
    · rw [filterTar, hrun] at hcounts
      exact nomatch hcounts

end Run

-- ── Confinement ───────────────────────────────────────────────────────────────

/-- The path is where `normalize_validate_path` takes the path of some entry. -/
def Confined (config : TarImportConfig) (es : List LayerEntry) (q : Path) : Prop :=
  ∃ e ∈ es, ∃ n, normalizeValidatePath e.rel config = .ok (.normal n) ∧ dropLead n = dropLead q

/-- The first component below the root is `usr`, `var` unless it is remapped, or one of the
    excluded directories with nothing below it. -/
def BelowUsr (config : TarImportConfig) (q : Path) : Prop :=
  ∀ c rest, dropLead q = c :: rest → c = .normal "usr" ∨
    (c = .normal "var" ∧ config.remapFactoryVar = false) ∨
    ((∃ s ∈ excludedToplevelPaths, c = .normal s) ∧ rest = [])

/-- Every path of the filtered stream is confined. -/
def AllConfined (config : TarImportConfig) (es : List LayerEntry) (out : List FilteredEntry) :
    Prop :=
  ∀ o ∈ out, Confined config es o.readPath ∧
    (config.allowNonusr = false → BelowUsr config o.readPath)

/-- The links to modified objects are at paths that are kept, and so are the paths in the
    extension records of copied entries. -/
def LinksKept (config : TarImportConfig) (es : List LayerEntry) : Prop :=
  ∀ pre e post, es = pre ++ e :: post →
    (Relinked pre e → Kept config e.rel) ∧
    ∀ n p, e.CopiedTo config n → e.paxRecord "path" = some p → Confined config es p

section Confined

variable {tar : TarBuilder} {config : TarImportConfig} {es : List LayerEntry} {q : Path}

theorem Confined.settled (h : Confined config es q) : Settled config (dropLead q) := by
  obtain ⟨e, _, n, hn, heq⟩ := h
  rw [← heq]
  exact normalize_settled (tidy_relative (tidy_parse _)) hn

theorem Confined.belowUsr (h : Confined config es q) (hallow : config.allowNonusr = false) :
    BelowUsr config q := by
  intro c rest hq
  rcases h.settled with hnil | ⟨s, tl, excluded, hnames, _, _, hexcl, hplace⟩
  · exact nomatch hnil.symm.trans hq
  · obtain ⟨rfl, rfl⟩ := List.cons.inj (hnames.symm.trans hq)
    rcases hplace hallow with rfl | ⟨rfl, hremap⟩ | ⟨hs, hexcluded⟩
    · exact .inl rfl
    · exact .inr (.inl ⟨rfl, hremap⟩)
    · exact .inr (.inr ⟨⟨s, hs, rfl⟩, hexcl hexcluded⟩)

/-- Where the entries of a list are written is confined exactly when its links are kept. -/
theorem written_confined_iff :
    (∀ q, Written config es q → Confined config es q) ↔ LinksKept config es := by
  constructor
  · intro h pre e post hsplit
    refine ⟨fun hrelinked => ?_, fun n p hcopied hp => ?_⟩
    · exact kept_of_settled (h e.rel ⟨pre, e, post, hsplit, .inr ⟨hrelinked, rfl⟩⟩).settled
    · exact h p ⟨pre, e, post, hsplit, .inl ⟨n, hcopied, by rw [hp]; rfl⟩⟩
  · rintro h q ⟨pre, e, post, hsplit, ⟨n, hcopied, rfl⟩ | ⟨hrelinked, rfl⟩⟩
    · have he : e ∈ es := by
        rw [hsplit]
        simp
      cases hp : e.paxRecord "path" with
      | none => exact ⟨e, he, n, hcopied.2.2, rfl⟩
      | some p => exact (h pre e post hsplit).2 n p hcopied hp
    · have he : e ∈ es := by
        rw [hsplit]
        simp
      obtain ⟨n, hn, heq⟩ := (h pre e post hsplit).1 hrelinked
      exact ⟨e, he, n, hn, heq⟩

theorem allConfined_iff {w : FilterState} {es' : List LayerEntry} (h : Filtered config es' w) :
    AllConfined config es w.out ↔ ∀ q, Written config es' q → Confined config es q := by
  constructor
  · intro hall q hq
    obtain ⟨o, ho, rfl⟩ := (h.paths q).mpr hq
    exact (hall o ho).1
  · intro hall o ho
    have hconf := hall o.readPath ((h.paths _).mp ⟨o, ho, rfl⟩)
    exact ⟨hconf, hconf.belowUsr⟩

/-- **`filter_tar` confines every path** exactly when the hard links to modified objects of the
    repository are at paths that it would keep, and so are the paths in extension records; it
    does so then also when it fails half-way. -/
theorem filterTar_confined_iff (tar : TarBuilder) (config : TarImportConfig)
    (src : List (Except String LayerEntry)) :
    (∀ counts, (filterTar tar config src).2 = .ok counts →
      (AllConfined config (entriesOf src) (filterTar tar config src).1 ↔
        LinksKept config (entriesOf src))) ∧
    (LinksKept config (entriesOf src) →
      AllConfined config (entriesOf src) (filterTar tar config src).1) := by
  obtain ⟨pre, post, w, hsrc, hw, hout, hok⟩ := @filterTar_run tar config src (Filtered config)
    (filtered_init config) (fun _ _ _ _ h hfate => h.step hfate)
  constructor
  · intro counts hcounts
    have hall : entriesOf src = pre := by rw [hsrc, hok counts hcounts, List.append_nil]
    rw [← hout, allConfined_iff hw, ← hall, written_confined_iff]
  · intro hkept
    rw [← hout, allConfined_iff hw]
    rintro q ⟨a, e, b, rfl, hq⟩
    refine written_confined_iff.mpr hkept q ⟨a, e, b ++ post, ?_, hq⟩
    rw [hsrc]
    simp

end Confined

/-- The checks of the `tar` crate on paths that fit into a header. -/
def sampleBuilder : TarBuilder where
  checkPath p :=
    if .rootDir ∈ p then .error (.err "paths in archives must be relative")
    else if .parentDir ∈ p then .error (.err "paths in archives must not have ..")
    else if p = [] then .error (.err "paths in archives must have at least one component")
    else .ok ()
  checkLink p :=
    if p = [] then .error (.err "paths in archives must have at least one component") else .ok ()

def modifiedObjectPath : String :=
  "sysroot/ostree/repo/objects/60/feb13e826d2f9b62490ab24cea0f4a2d09615fb57027e55f713c18c59f4796.file"

/-- An object of the repository that a layer has modified. -/
def modifiedObject : LayerEntry where
  path := some modifiedObjectPath
  header := { entryType := .regular, uid := 0, gid := 0, mode := 0o644, size := 5, mtime := 1 }
  data := "hello".toUTF8.toList

/-- A modified hard link to it. -/
def modifiedLink (path : String) : LayerEntry where
  path := some path
  header := { entryType := .link, uid := 0, gid := 0, mode := 0o644, size := 0, mtime := 1 }
  headerLink := .utf8 modifiedObjectPath
  link := .utf8 modifiedObjectPath

theorem modifiedLink_kept :
    LinksKept {} (entriesOf [.ok modifiedObject, .ok (modifiedLink "usr/bin/bash")]) := by
  intro pre e post hsplit
  have he : e ∈ [modifiedObject, modifiedLink "usr/bin/bash"] := by
    rw [show [modifiedObject, modifiedLink "usr/bin/bash"] = pre ++ e :: post from hsplit]
    simp
  rcases List.mem_cons.mp he with rfl | he
  · refine ⟨?_, fun n p _ hp => by cases hp⟩
    rintro ⟨t, ht, _⟩
    exact absurd ht (by rw [LayerEntry.repoTarget, if_neg (by decide +kernel)]; simp)
  · obtain rfl := List.mem_singleton.mp he
    refine ⟨fun _ => ?_, fun n p _ hp => by cases hp⟩
    exact ⟨[.curDir, .normal "usr", .normal "bin", .normal "bash"], by decide +kernel,
      by decide +kernel⟩

/-- A modified file with a link below `usr` is confined. -/
theorem modifiedLink_confined :
    LinksKept {} (entriesOf [.ok modifiedObject, .ok (modifiedLink "usr/bin/bash")]) ∧
    AllConfined {} (entriesOf [.ok modifiedObject, .ok (modifiedLink "usr/bin/bash")])
      (filterTar sampleBuilder {} [.ok modifiedObject, .ok (modifiedLink "usr/bin/bash")]).1 :=
  ⟨modifiedLink_kept, (filterTar_confined_iff sampleBuilder {} _).2 modifiedLink_kept⟩

/-- **A modified file with a link in `etc` is not confined**: it stays there. -/
theorem modifiedLink_not_confined :
    (∃ counts, (filterTar sampleBuilder {} [.ok modifiedObject,
      .ok (modifiedLink "etc/motd")]).2 = .ok counts) ∧
    ∃ o ∈ (filterTar sampleBuilder {} [.ok modifiedObject, .ok (modifiedLink "etc/motd")]).1,
      o.readPath = [.normal "etc", .normal "motd"] ∧
      ¬ Confined {} [modifiedObject, modifiedLink "etc/motd"] o.readPath := by
  have hpaths : ((filterTar sampleBuilder {} [.ok modifiedObject,
      .ok (modifiedLink "etc/motd")]).1).map (·.readPath) = [[.normal "etc", .normal "motd"]] := by
    decide +kernel
  obtain ⟨o, ho, hread⟩ := List.mem_map.mp (hpaths ▸ List.mem_singleton_self _)
  refine ⟨⟨_, rfl⟩, o, ho, hread, fun h => ?_⟩
  rw [hread] at h
  rcases h.belowUsr rfl _ _ rfl with h | ⟨h, _⟩ | ⟨⟨s, hs, h⟩, _⟩
  · exact absurd h (by decide)
  · exact absurd h (by decide)
  · obtain rfl := Component.normal.inj h
    exact absurd hs (by decide)

end OstreeExt.Tar
