import OstreeExt.Lib.Alike
import OstreeExt.Tar.Hardlinks
import OstreeExt.Tar.Normalize

/-!
# Spellings of paths

An archive can spell a path `p` as `/p` or `./p` as well, and so it can the target of a hard
link.  `filter_tar` looks at the components of a path in four places, and two of them take a
leading `.` or `/` for a component.  `filterTar_blind_iff` says for which archives it makes no
difference how they are spelled.
-/

namespace OstreeExt.Tar

open OstreeExt Exec

-- ── Spellings ─────────────────────────────────────────────────────────────────

/-- Two texts spell the same path, but for a leading `/` or `./`. -/
def SameText (s t : String) : Prop := dropLead (Path.parse s) = dropLead (Path.parse t)

/-- Link names with the same path. -/
inductive LinkName.Respelled : LinkName → LinkName → Prop where
  | same (l : LinkName) : Respelled l l
  | utf8 {s t : String} (h : SameText s t) : Respelled (.utf8 s) (.utf8 t)

/-- The same extension record, or two records with the same path. -/
def PaxExtension.Respelled (a b : PaxExtension) : Prop :=
  a.key = b.key ∧ (a.value = b.value ∨ a.key ∈ ["path", "linkpath"] ∧ ∃ s t,
    String.fromUTF8? ⟨a.value.toArray⟩ = some s ∧ String.fromUTF8? ⟨b.value.toArray⟩ = some t ∧
    SameText s t)

/-- Extension records as they are read. -/
inductive RecordRespelled : Except String PaxExtension → Except String PaxExtension → Prop where
  | ok {a b : PaxExtension} (h : a.Respelled b) : RecordRespelled (.ok a) (.ok b)
  | error (msg : String) : RecordRespelled (.error msg) (.error msg)

/-- The same entry with another spelling of its path and, for a hard link, of its target. -/
structure LayerEntry.Respelled (e e' : LayerEntry) : Prop where
  path : Option.Rel SameText e.path e'.path
  header : e'.header = e.header
  headerLink : e.headerLink.Respelled e'.headerLink
  link : e.link.Respelled e'.link
  hard : e.header.entryType ≠ .link → e'.headerLink = e.headerLink ∧ e'.link = e.link
  pax : List.Forall₂ RecordRespelled (e.pax.getD []) (e'.pax.getD [])
  data : e'.data = e.data

/-- The same for what the archive yields. -/
inductive Respelled : Except String LayerEntry → Except String LayerEntry → Prop where
  | entry {e e' : LayerEntry} (h : e.Respelled e') : Respelled (.ok e) (.ok e')
  | error (msg : String) : Respelled (.error msg) (.error msg)

/-- The same entry of the filtered stream, with paths and link targets up to their spelling. -/
structure FilteredEntry.Same (o o' : FilteredEntry) : Prop where
  path : dropLead o.path = dropLead o'.path
  header : o.header = o'.header
  link : o.link.map dropLead = o'.link.map dropLead
  pax : List.Forall₂ PaxExtension.Respelled o.pax o'.pax
  data : o.data = o'.data

/-- **The same outcome**: both succeed, with the same entries and counts, or both fail. -/
structure SameOutcome (r r' : List FilteredEntry × Result (Std.ExtTreeMap String Nat)) : Prop where
  succeeds : (∃ counts, r.2 = .ok counts) ↔ ∃ counts, r'.2 = .ok counts
  same : ∀ counts counts', r.2 = .ok counts → r'.2 = .ok counts' →
    counts = counts' ∧ List.Forall₂ FilteredEntry.Same r.1 r'.1

/-- The outcome does not depend on how the archive is spelled. -/
def SpellingBlind (tar : TarBuilder) (config : TarImportConfig)
    (src : List (Except String LayerEntry)) : Prop :=
  ∀ src', List.Forall₂ Respelled src src' →
    SameOutcome (filterTar tar config src) (filterTar tar config src')

-- ── Entries whose spelling matters ────────────────────────────────────────────

/-- The path of an entry without a leading `/` or `./`. -/
def LayerEntry.parts (e : LayerEntry) : Path := dropLead (Path.parse (e.path.getD ""))

/-- The path of a link name without a leading `/` or `./`. -/
def LinkName.parts : LinkName → Option Path
  | .utf8 text => some (dropLead (Path.parse text))
  | _ => none

theorem LinkName.parts_some {l : LinkName} {t : Path} (h : l.parts = some t) :
    ∃ text, l = .utf8 text ∧ dropLead (Path.parse text) = t := by
  cases l with
  | missing => exact absurd h (by simp [LinkName.parts])
  | notUtf8 => exact absurd h (by simp [LinkName.parts])
  | utf8 text => exact ⟨text, rfl, Option.some.inj h⟩

/-- The builder accepts a path. -/
def TarBuilder.Accepts (tar : TarBuilder) (p : Path) : Prop := tar.checkPath p = .ok ()

/-- The builder accepts a link target. -/
def TarBuilder.AcceptsLink (tar : TarBuilder) (p : Path) : Prop := tar.checkLink p = .ok ()

/-- The spellings of a path: `p`, `./p` and `/p`. -/
def spellings (ps : Path) : List Path := [ps, .curDir :: ps, .rootDir :: ps]

/-- A path that is not filtered, and not refused. -/
def Placed (config : TarImportConfig) (ps : Path) : Prop :=
  ∃ q, normalizeValidatePath (.curDir :: ps) config = .ok (.normal q)

/-- **The spelling of an entry matters** in five cases. -/
inductive Sensitive (tar : TarBuilder) (config : TarImportConfig) (e : LayerEntry) : Prop where
  /-- A modified object of the repository: as `./p` it is not recognized. -/
  | object (hrepo : inRepo e.parts = true) (hmod : 0 < e.header.mtime)
      (hty : e.header.entryType = .regular)
  /-- A modified hard link to an object of the repository: the target is not recognized as `/p`
      or `./p`. -/
  | link {t : Path} (hty : e.header.entryType = .link) (hmod : 0 < e.header.mtime)
      (ht : e.headerLink.parts = some t) (hrepo : inRepo t = true)
  /-- A modified hard link without a target in its header: this is an error, but below the
      repository it is not looked at. -/
  | untargeted (hty : e.header.entryType = .link) (hmod : 0 < e.header.mtime)
      (ht : e.headerLink.parts = none) (hrepo : inRepo e.parts = true)
  /-- The root: `./` stays a path, and of `/` nothing is left. -/
  | root (hroot : e.parts = []) (htar : ¬ (tar.Accepts [] ↔ tar.Accepts [.curDir]))
  /-- A hard link whose target is acceptable only in some spellings. -/
  | target {t p p' : Path} (hty : e.header.entryType = .link) (ht : e.link.parts = some t)
      (hplaced : Placed config e.parts) (hp : p ∈ spellings t) (hp' : p' ∈ spellings t)
      (htar : ¬ (tar.AcceptsLink (remapEtcPath p) ↔ tar.AcceptsLink (remapEtcPath p')))

-- ── Components ────────────────────────────────────────────────────────────────

theorem dropLead_plain {rest : Path} (h : Plain rest) : dropLead rest = rest := by
  cases rest with
  | nil => rfl
  | cons c rest =>
      rcases h c (List.mem_cons_self ..) with rfl | ⟨s, rfl⟩
      · rfl
      · rfl

/-- Without its lead a path is plain, and it is one of the spellings of that. -/
theorem Tidy.spelled {p : Path} (h : Tidy p) : Plain (dropLead p) ∧ p ∈ spellings (dropLead p) := by
  obtain ⟨lead, rest, rfl, rfl | rfl | rfl, hrest⟩ := h
  · rw [List.nil_append, dropLead_plain hrest]
    exact ⟨hrest, by simp [spellings]⟩
  · exact ⟨hrest, by simp [spellings, dropLead]⟩
  · exact ⟨hrest, by simp [spellings, dropLead]⟩

theorem LayerEntry.plain_parts (e : LayerEntry) : Plain e.parts := (tidy_parse _).spelled.1

theorem stripPrefix_plain {rest : Path} (h : Plain rest) : stripPrefix [.rootDir] rest = none := by
  cases rest with
  | nil => rfl
  | cons c rest =>
      rcases h c (List.mem_cons_self ..) with rfl | ⟨s, rfl⟩
      · rfl
      · rfl

/-- The path of an entry as it is used: at most a leading `.` is left. -/
theorem LayerEntry.rel_spelled (e : LayerEntry) : e.rel = e.parts ∨ e.rel = .curDir :: e.parts := by
  have hmem := (tidy_parse (e.path.getD "")).spelled.2
  have hplain := e.plain_parts
  rw [LayerEntry.parts] at hplain
  rw [LayerEntry.rel, LayerEntry.parts]
  generalize Path.parse (e.path.getD "") = p at *
  generalize dropLead p = ps at *
  simp only [spellings, List.mem_cons, List.not_mem_nil, or_false] at hmem
  rcases hmem with rfl | rfl | rfl
  · exact .inl (by rw [relative, stripPrefix_plain hplain]; rfl)
  · exact .inr rfl
  · exact .inl rfl

/-- A path of the repository has no lead. -/
theorem dropLead_of_inRepo {p : Path} (h : inRepo p = true) : dropLead p = p := by
  cases p with
  | nil => rfl
  | cons c rest =>
      cases c with
      | rootDir => exact absurd h (by simp [inRepo, stripPrefix, repoPrefix])
      | curDir => exact absurd h (by simp [inRepo, stripPrefix, repoPrefix])
      | parentDir => rfl
      | normal s => rfl

/-- An entry that is recognized to be below the repository has no lead. -/
theorem LayerEntry.rel_of_inRepo (e : LayerEntry) (h : inRepo e.rel = true) : e.rel = e.parts := by
  rcases e.rel_spelled with heq | heq
  · exact heq
  · rw [heq] at h
    exact absurd h (by simp [inRepo, stripPrefix, repoPrefix])

/-- The lead stays in front of a path in `etc`. -/
theorem remapEtcPath_lead {c : Component} (hc : c = .curDir ∨ c = .rootDir) {ps : Path}
    (h : Plain ps) : remapEtcPath (c :: ps) = c :: remapEtcPath ps := by
  cases ps with
  | nil =>
      rcases hc with rfl | rfl
      · rfl
      · rfl
  | cons d rest =>
      rcases h d (List.mem_cons_self ..) with rfl | ⟨s, rfl⟩
      · rcases hc with rfl | rfl
        · rfl
        · rfl
      · by_cases hs : s = "etc"
        · subst hs
          rcases hc with rfl | rfl
          · rfl
          · rfl
        · rcases hc with rfl | rfl
          · simp [remapEtcPath, hs]
          · simp [remapEtcPath, hs]

theorem plain_remapEtcPath {ps : Path} (h : Plain ps) : Plain (remapEtcPath ps) := by
  by_cases hetc : ps.head? = some (.normal "etc")
  · obtain ⟨rest, rfl⟩ := List.head?_eq_some_iff.mp hetc
    intro c hc
    rcases List.mem_cons.mp hc with rfl | hc
    · exact .inr ⟨_, rfl⟩
    · exact h c hc
  · have hsame : remapEtcPath ps = ps := by
      cases ps with
      | nil => rfl
      | cons c rest =>
          rcases h c (List.mem_cons_self ..) with rfl | ⟨s, rfl⟩
          · rfl
          · have hs : s ≠ "etc" := fun heq => hetc (by rw [heq]; rfl)
            simp [remapEtcPath, hs]
    rw [hsame]
    exact h

/-- All spellings of a target are spellings of one when it is remapped. -/
theorem dropLead_remapEtcPath {ps p : Path} (h : Plain ps) (hp : p ∈ spellings ps) :
    dropLead (remapEtcPath p) = remapEtcPath ps := by
  simp only [spellings, List.mem_cons, List.not_mem_nil, or_false] at hp
  rcases hp with rfl | rfl | rfl
  · exact dropLead_plain (plain_remapEtcPath h)
  · rw [remapEtcPath_lead (.inl rfl) h]
    rfl
  · rw [remapEtcPath_lead (.inr rfl) h]
    rfl

/-- Two results that meet the specification for the same names are the same, or two errors. -/
theorem NormalizeSpec.unique {config : TarImportConfig} {ps : Path}
    {r r' : Result NormalizedPathResult} (hps : Plain ps) (hne : ps ≠ [])
    (h : NormalizeSpec config ps r) (h' : NormalizeSpec config ps r') :
    (∃ n, r = .ok n ∧ r' = .ok n) ∨ (Refused r ∧ Refused r') := by
  obtain ⟨c, rest, rfl⟩ := List.exists_cons_of_ne_nil hne
  have htail : Plain rest := fun d hd => hps d (List.mem_cons_of_mem _ hd)
  rcases hps c (List.mem_cons_self ..) with rfl | ⟨n, rfl⟩
  · exact .inr ⟨h.uplink rest rfl, h'.uplink rest rfl⟩
  by_cases hexcluded : n ∈ excludedToplevelPaths
  · cases rest with
    | nil =>
        exact .inl ⟨_, h.excludedItself n hexcluded rfl, h'.excludedItself n hexcluded rfl⟩
    | cons d rest =>
        rcases htail d (List.mem_cons_self ..) with rfl | ⟨m, rfl⟩
        · exact .inr ⟨h.excludedUplink n rest hexcluded rfl, h'.excludedUplink n rest hexcluded rfl⟩
        · exact .inl ⟨_, h.excludedBelow n m rest hexcluded rfl,
            h'.excludedBelow n m rest hexcluded rfl⟩
  by_cases hkept : n ∈ placedToplevel ∨ config.allowNonusr = true
  · by_cases hup : .parentDir ∈ rest
    · exact .inr ⟨h.keptUplink n rest hexcluded hkept rfl hup,
        h'.keptUplink n rest hexcluded hkept rfl hup⟩
    · exact .inl ⟨_, h.kept n rest hexcluded hkept rfl hup, h'.kept n rest hexcluded hkept rfl hup⟩
  · rw [not_or, Bool.not_eq_true] at hkept
    exact .inl ⟨_, h.nonusr n rest hexcluded hkept.1 hkept.2 rfl,
      h'.nonusr n rest hexcluded hkept.1 hkept.2 rfl⟩

/-- A leading `.` makes no difference to `normalize_validate_path`, but for the root. -/
theorem normalize_spelled (config : TarImportConfig) {ps p p' : Path} (hps : Plain ps)
    (hp : p = ps ∨ p = .curDir :: ps) (hp' : p' = ps ∨ p' = .curDir :: ps) :
    (ps ≠ [] ∧ ∃ n, normalizeValidatePath p config = .ok n ∧
      normalizeValidatePath p' config = .ok n) ∨
    (ps = [] ∧ normalizeValidatePath p config = .ok (.normal p) ∧
      normalizeValidatePath p' config = .ok (.normal p')) ∨
    (Refused (normalizeValidatePath p config) ∧ Refused (normalizeValidatePath p' config)) := by
  have hspec : ∀ q, (q = ps ∨ q = .curDir :: ps) →
      NormalizeSpec config ps (normalizeValidatePath q config) := by
    intro q hq
    rcases hq with rfl | rfl
    · have h := @normalizeValidatePath_tidy q config ⟨[], q, rfl, .inl rfl, hps⟩
      rwa [names_plain hps] at h
    · have h := @normalizeValidatePath_tidy (.curDir :: ps) config
        ⟨[.curDir], ps, rfl, .inr (.inl rfl), hps⟩
      rwa [show names (.curDir :: ps) = ps from names_lead (.inr (.inl rfl)) hps] at h
  by_cases hne : ps = []
  · have hroot : ∀ q, (q = ps ∨ q = .curDir :: ps) →
        normalizeValidatePath q config = .ok (.normal q) := by
      subst hne
      rintro q (rfl | rfl)
      · rfl
      · rfl
    exact .inr (.inl ⟨hne, hroot p hp, hroot p' hp'⟩)
  · rcases (hspec p hp).unique hps hne (hspec p' hp') with h | h
    · exact .inl ⟨hne, h⟩
    · exact .inr (.inr h)

theorem mem_entriesOf {src : List (Except String LayerEntry)} {e : LayerEntry} :
    e ∈ entriesOf src ↔ .ok e ∈ src := by
  rw [entriesOf, List.mem_filterMap]
  constructor
  · rintro ⟨ent, hent, h⟩
    cases ent with
    | error msg => exact absurd h (by simp)
    | ok e' =>
        obtain rfl := Option.some.inj h
        exact hent
  · intro h
    exact ⟨.ok e, h, rfl⟩

-- ── Where the spelling does not matter ────────────────────────────────────────

/-- States with the same entries and the same counts. -/
def SameState (w w' : FilterState) : Prop :=
  List.Forall₂ FilteredEntry.Same w.out w'.out ∧ w.filtered = w'.filtered

section Alike

variable {tar : TarBuilder} {config : TarImportConfig} {e e' : LayerEntry}

theorem liftR_alike {α : Type} {S : α → α → Prop} {r r' : Result α}
    (h : (∃ a b, r = .ok a ∧ r' = .ok b ∧ S a b) ∨ ∃ x y, r = .error x ∧ r' = .error y) :
    Alike SameState S (liftR r : FilterM α) (liftR r') := by
  intro w w' hw
  rcases h with ⟨a, b, rfl, rfl, hab⟩ | ⟨x, y, rfl, rfl⟩
  · exact .inl ⟨a, w, b, w', rfl, rfl, hab, hw⟩
  · exact .inr ⟨x, w, y, w', rfl, rfl⟩

/-- Two checks with the same result. -/
theorem check_alike {r r' : Result Unit} (h : r = .ok () ↔ r' = .ok ()) :
    Alike SameState (fun _ _ => True) (liftR r : FilterM Unit) (liftR r') := by
  refine liftR_alike ?_
  cases r with
  | ok u => exact .inl ⟨u, (), rfl, h.mp rfl, trivial⟩
  | error x =>
      cases r' with
      | ok u => exact absurd (h.mpr rfl) (by simp)
      | error y => exact .inr ⟨x, y, rfl, rfl⟩

theorem emit_alike {o o' : FilteredEntry} (h : o.Same o') :
    Alike SameState (fun _ _ => True) (modify (·.emit o) : FilterM Unit) (modify (·.emit o')) := by
  refine Alike.update (fun w w' hw => ⟨?_, hw.2⟩)
  exact List.rel_append hw.1 (.cons h .nil)

theorem appendData_alike {o o' : FilteredEntry} (h : o.Same o')
    (hpath : tar.Accepts o.path ↔ tar.Accepts o'.path) :
    Alike SameState (fun _ _ => True) (appendData tar o) (appendData tar o') := by
  rw [appendData, appendData]
  exact (check_alike hpath).bind (fun _ _ _ => emit_alike h)

theorem appendLink_alike {o o' : FilteredEntry} {t t' : Path} (h : o.Same o')
    (hpath : tar.Accepts o.path ↔ tar.Accepts o'.path)
    (hlead : dropLead t = dropLead t') (hlink : tar.AcceptsLink t ↔ tar.AcceptsLink t') :
    Alike SameState (fun _ _ => True) (appendLink tar o t) (appendLink tar o' t') := by
  rw [appendLink, appendLink]
  refine (check_alike hpath).bind (fun _ _ _ => ?_)
  refine (check_alike hlink).bind (fun _ _ _ => ?_)
  exact emit_alike ⟨h.path, h.header, congrArg some hlead, h.pax, h.data⟩

theorem liftR_same {α : Type} (r : Result α) :
    Alike SameState (fun a b => a = b) (liftR r : FilterM α) (liftR r) := by
  refine liftR_alike ?_
  cases r with
  | ok a => exact .inl ⟨a, a, rfl, rfl, rfl⟩
  | error x => exact .inr ⟨x, x, rfl, rfl⟩

/-- Records that are respelled are read, or not, as the others are. -/
theorem mapM_records {f : Except String PaxExtension → Result PaxExtension}
    (hok : ∀ a, f (.ok a) = .ok a) (herror : ∀ msg, f (.error msg) = .error (.err msg))
    {l l' : List (Except String PaxExtension)} (h : List.Forall₂ RecordRespelled l l') :
    (∃ a b, l.mapM f = .ok a ∧ l'.mapM f = .ok b ∧
      List.Forall₂ PaxExtension.Respelled a b) ∨
    ∃ x y, l.mapM f = .error x ∧ l'.mapM f = .error y := by
  induction h with
  | nil => exact .inl ⟨[], [], rfl, rfl, .nil⟩
  | cons hab _ ih =>
      rw [List.mapM_cons, List.mapM_cons]
      cases hab with
      | error msg =>
          rw [herror]
          exact .inr ⟨_, _, rfl, rfl⟩
      | @ok a b hab =>
          rw [hok, hok, bind_ok_eq, bind_ok_eq]
          rcases ih with ⟨as, bs, has, hbs, hall⟩ | ⟨x, y, hx, hy⟩
          · rw [has, hbs]
            exact .inl ⟨a :: as, b :: bs, rfl, rfl, .cons hab hall⟩
          · rw [hx, hy]
            exact .inr ⟨x, y, rfl, rfl⟩

/-- The extension records are read alike. -/
theorem extensions_alike (h : e.Respelled e') :
    Alike SameState (List.Forall₂ PaxExtension.Respelled) (liftR e.extensions : FilterM _)
      (liftR e'.extensions) :=
  liftR_alike (mapM_records (fun _ => rfl) (fun _ => rfl) h.pax)

/-- The targets of link names that are respelled are spellings of one path. -/
theorem linkTarget_alike (msg : String) {l l' : LinkName} (h : l.Respelled l') :
    Alike SameState (fun t t' => ∃ ps, l.parts = some ps ∧ Plain ps ∧ t ∈ spellings ps ∧
      t' ∈ spellings ps) (liftR (l.target msg) : FilterM _) (liftR (l'.target msg)) := by
  refine liftR_alike ?_
  have hspelled : ∀ s t : String, SameText s t →
      ∃ ps, some (dropLead (Path.parse s)) = some ps ∧ Plain ps ∧ Path.parse s ∈ spellings ps ∧
        Path.parse t ∈ spellings ps := by
    intro s t hst
    refine ⟨_, rfl, (tidy_parse s).spelled.1, (tidy_parse s).spelled.2, ?_⟩
    rw [hst]
    exact (tidy_parse t).spelled.2
  cases h with
  | same =>
      cases l with
      | missing => exact .inr ⟨_, _, rfl, rfl⟩
      | notUtf8 => exact .inr ⟨_, _, rfl, rfl⟩
      | utf8 s => exact .inl ⟨_, _, rfl, rfl, hspelled s s rfl⟩
  | @utf8 s t h => exact .inl ⟨_, _, rfl, rfl, hspelled s t h⟩

/-- **Copies of two spellings of an entry** are the same, if the builder accepts both paths or
    none, and all spellings of a target or none. -/
theorem copyEntry_alike (hr : e.Respelled e') {q q' : Path} (hq : dropLead q = dropLead q')
    (hpath : tar.Accepts q ↔ tar.Accepts q')
    (htarget : e.header.entryType = .link → ∀ ps, e.link.parts = some ps →
      ∀ p ∈ spellings ps, ∀ p' ∈ spellings ps,
        (tar.AcceptsLink (remapEtcPath p) ↔ tar.AcceptsLink (remapEtcPath p'))) :
    Alike SameState (fun _ _ => True) (copyEntry tar e (some q)) (copyEntry tar e' (some q')) := by
  rw [copyEntry, copyEntry]
  have hpure : Alike SameState (fun a b => a = q ∧ b = q') (pure q : FilterM Path) (pure q') :=
    Alike.pure ⟨rfl, rfl⟩
  refine hpure.bind ?_
  rintro _ _ ⟨rfl, rfl⟩
  refine (extensions_alike hr).bind (fun pax pax' hpax => ?_)
  rw [hr.header]
  cases hty : e.header.entryType with
  | symlink =>
      obtain ⟨_, hlink⟩ := hr.hard (by rw [hty]; simp)
      dsimp only
      rw [hlink]
      refine (liftR_same _).bind ?_
      rintro t _ rfl
      exact appendLink_alike ⟨hq, rfl, rfl, hpax, rfl⟩ hpath rfl Iff.rfl
  | link =>
      dsimp only
      refine (linkTarget_alike "Invalid link" hr.link).bind ?_
      rintro t t' ⟨ps, hps, hplain, ht, ht'⟩
      refine appendLink_alike ⟨hq, rfl, rfl, hpax, rfl⟩ hpath ?_ (htarget hty ps hps t ht t' ht')
      rw [dropLead_remapEtcPath hplain ht, dropLead_remapEtcPath hplain ht']
  | regular => exact appendData_alike ⟨hq, rfl, rfl, hpax, hr.data.symm⟩ hpath
  | directory => exact appendData_alike ⟨hq, rfl, rfl, hpax, hr.data.symm⟩ hpath
  | other flag => exact appendData_alike ⟨hq, rfl, rfl, hpax, hr.data.symm⟩ hpath

/-- The parts of an entry survive respelling. -/
theorem LayerEntry.Respelled.parts (hr : e.Respelled e') : e'.parts = e.parts := by
  have hpath := hr.path
  rw [LayerEntry.parts, LayerEntry.parts]
  cases hp : e.path with
  | none =>
      rw [hp] at hpath
      cases hpath' : e'.path with
      | none => rfl
      | some t =>
          rw [hpath'] at hpath
          cases hpath
  | some s =>
      rw [hp] at hpath
      cases hpath' : e'.path with
      | none =>
          rw [hpath'] at hpath
          cases hpath
      | some t =>
          rw [hpath'] at hpath
          cases hpath with
          | some h => exact h.symm

theorem LinkName.Respelled.parts {l l' : LinkName} (h : l.Respelled l') : l'.parts = l.parts := by
  cases h with
  | same => rfl
  | utf8 h => exact congrArg some (Eq.symm h)

/-- **Another spelling of an entry is as sensitive.** -/
theorem Sensitive.respelled (hr : e.Respelled e') (h : Sensitive tar config e') :
    Sensitive tar config e := by
  cases h with
  | object hrepo hmod hty =>
      rw [hr.parts] at hrepo
      rw [hr.header] at hmod hty
      exact .object hrepo hmod hty
  | link hty hmod ht hrepo =>
      rw [hr.header] at hmod hty
      rw [hr.headerLink.parts] at ht
      exact .link hty hmod ht hrepo
  | untargeted hty hmod ht hrepo =>
      rw [hr.parts] at hrepo
      rw [hr.header] at hmod hty
      rw [hr.headerLink.parts] at ht
      exact .untargeted hty hmod ht hrepo
  | root hroot htar =>
      rw [hr.parts] at hroot
      exact .root hroot htar
  | target hty ht hplaced hp hp' htar =>
      rw [hr.header] at hty
      rw [hr.link.parts] at ht
      rw [hr.parts] at hplaced
      exact .target hty ht hplaced hp hp' htar

/-- The path is copied in whatever spelling. -/
theorem placed_of_rel {q : Path} (h : normalizeValidatePath e.rel config = .ok (.normal q)) :
    Placed config e.parts := by
  rcases normalize_spelled config e.plain_parts e.rel_spelled (.inr rfl) with
    ⟨_, n, hn, hn'⟩ | ⟨_, _, hn'⟩ | ⟨⟨msg, hmsg⟩, _⟩
  · obtain rfl := Except.ok.inj (hn.symm.trans h)
    exact ⟨q, hn'⟩
  · exact ⟨_, hn'⟩
  · rw [hmsg] at h
    exact absurd h (by simp)

/-- Results of `normalize_validate_path` for two spellings. -/
inductive SamePlace (tar : TarBuilder) : NormalizedPathResult → NormalizedPathResult → Prop where
  | filtered (name : String) : SamePlace tar (.filtered name) (.filtered name)
  | normal {q q' : Path} (hlead : dropLead q = dropLead q')
      (htar : tar.Accepts q ↔ tar.Accepts q') : SamePlace tar (.normal q) (.normal q')

theorem SamePlace.refl (r : NormalizedPathResult) : SamePlace tar r r := by
  cases r with
  | filtered name => exact .filtered name
  | normal q => exact .normal rfl Iff.rfl

/-- Both spellings of a path that is not sensitive are placed alike, or refused. -/
theorem normalize_alike (hr : e.Respelled e') (h : ¬ Sensitive tar config e) :
    Alike SameState
      (fun r r' => SamePlace tar r r' ∧ normalizeValidatePath e.rel config = .ok r)
      (liftR (normalizeValidatePath e.rel config) : FilterM _)
      (liftR (normalizeValidatePath e'.rel config)) := by
  have hrel := e.rel_spelled
  have hrel' := e'.rel_spelled
  rw [hr.parts] at hrel'
  refine liftR_alike ?_
  rcases normalize_spelled config e.plain_parts hrel hrel' with
    ⟨_, n, hn, hn'⟩ | ⟨hroot, hn, hn'⟩ | ⟨⟨msg, hn⟩, msg', hn'⟩
  · exact .inl ⟨n, n, hn, hn', .refl n, hn⟩
  · have hiff : tar.Accepts [] ↔ tar.Accepts [.curDir] := by
      by_contra htar
      exact h (.root hroot htar)
    have hspelled : ∀ q, (q = e.parts ∨ q = .curDir :: e.parts) →
        dropLead q = [] ∧ (tar.Accepts q ↔ tar.Accepts []) := by
      rw [hroot]
      rintro q (rfl | rfl)
      · exact ⟨rfl, Iff.rfl⟩
      · exact ⟨rfl, hiff.symm⟩
    obtain ⟨hlead, htar⟩ := hspelled _ hrel
    obtain ⟨hlead', htar'⟩ := hspelled _ hrel'
    exact .inl ⟨_, _, hn, hn', .normal (hlead.trans hlead'.symm) (htar.trans htar'.symm), hn⟩
  · exact .inr ⟨_, _, hn, hn'⟩

/-- An entry that takes the ordinary way through `normalize_validate_path`. -/
theorem filterPath_alike (hr : e.Respelled e') (h : ¬ Sensitive tar config e) :
    Alike SameState (fun _ _ => True) (filterPath tar config e.rel e)
      (filterPath tar config e'.rel e') := by
  rw [filterPath, filterPath]
  refine (normalize_alike hr h).bind ?_
  rintro r r' ⟨hsame, hr₁⟩
  cases hsame with
  | filtered name =>
      refine Alike.update (fun w w' hw => ⟨hw.1, ?_⟩)
      rw [FilterState.count, FilterState.count, hw.2]
  | normal hlead htar =>
      refine copyEntry_alike hr hlead htar (fun hty ps hps p hp p' hp' => ?_)
      by_contra hlink
      exact h (.target hty hps (placed_of_rel hr₁) hp hp' hlink)

/-- A modified hard link without a target in its header. -/
def LayerEntry.Broken (e : LayerEntry) : Prop :=
  e.header.entryType = .link ∧ 0 < e.header.mtime ∧ e.headerLink.parts = none

/-- The slash would be taken from the path, which has none. -/
theorem lookupTarget_rel (e : LayerEntry) (t : Path) : lookupTarget e.rel t = t := by
  rw [lookupTarget]
  rcases e.rel_spelled with h | h
  · rw [h, stripPrefix_plain e.plain_parts]
    rfl
  · rw [h]
    rfl

/-- A round on an entry whose path is UTF-8. -/
theorem filterTarEntry_utf8 {s : String} (hpath : e.path = some s) (w : FilterState) :
    filterTarEntry tar config (.ok e) w =
      (if inRepo e.rel = true then
        if 0 < e.header.mtime ∧ e.header.entryType = .regular then stash e.rel e
        else filterPath tar config e.rel e
      else if e.header.entryType = .link ∧ 0 < e.header.mtime then do
        let target ← liftR (e.headerLink.target "Invalid empty hardlink")
        if inRepo target = true then relink tar e.rel target e
        else filterPath tar config e.rel e
      else filterPath tar config e.rel e) w := by
  have hutf8 : e.utf8Path = .ok (Path.parse s) := by rw [LayerEntry.utf8Path, hpath]
  rw [filterTarEntry, bind_of_ok (pure_run e w)]
  dsimp only
  rw [hutf8, bind_of_ok (liftR_ok _ w), rel_of_utf8Path hutf8]
  simp only [lookupTarget_rel]

/-- Without a target in the header of a modified hard link, a round fails. -/
theorem round_broken {s : String} (hpath : e.path = some s) (hrepo : ¬ inRepo e.rel = true)
    (hb : e.Broken) (w : FilterState) :
    ∃ x w', filterTarEntry tar config (.ok e) w = .error x w' := by
  rw [filterTarEntry_utf8 hpath, if_neg hrepo, if_pos ⟨hb.1, hb.2.1⟩]
  cases hlink : e.headerLink with
  | missing => exact ⟨_, _, rfl⟩
  | notUtf8 => exact ⟨_, _, rfl⟩
  | utf8 text =>
      have hparts := hb.2.2
      rw [hlink] at hparts
      exact absurd hparts (by simp [LinkName.parts])

/-- An entry that is neither kept for hard links nor one of these takes the ordinary way. -/
theorem round_ordinary {s : String} (hpath : e.path = some s) (hs : ¬ e.Stashed)
    (ht : e.repoTarget = none) (hb : inRepo e.rel = true ∨ ¬ e.Broken) (w : FilterState) :
    filterTarEntry tar config (.ok e) w = filterPath tar config e.rel e w := by
  rw [filterTarEntry_utf8 hpath]
  by_cases hin : inRepo e.rel = true
  · rw [if_pos hin, if_neg (fun hmod => hs ⟨hin, hmod⟩)]
  have hunbroken := hb.resolve_left hin
  rw [if_neg hin]
  by_cases hlink : e.header.entryType = .link ∧ 0 < e.header.mtime
  · rw [if_pos hlink]
    cases hname : e.headerLink with
    | missing => exact absurd ⟨hlink.1, hlink.2, by rw [hname]; rfl⟩ hunbroken
    | notUtf8 => exact absurd ⟨hlink.1, hlink.2, by rw [hname]; rfl⟩ hunbroken
    | utf8 text =>
        have htarget : e.headerLink.target "Invalid empty hardlink" = .ok (Path.parse text) := by
          rw [hname]
          rfl
        have hrepo := repoTarget_of_link (by simpa using hin) hlink htarget
        rw [ht, lookupTarget_rel] at hrepo
        have hout : ¬ inRepo (Path.parse text) = true := by
          intro h
          rw [if_pos h] at hrepo
          exact absurd hrepo (by simp)
        rw [LinkName.target, bind_of_ok (liftR_ok _ w), if_neg hout]
  · rw [if_neg hlink]

/-- The object that a hard link is for is the one that its header names. -/
theorem repoTarget_some {t : Path} (ht : e.repoTarget = some t) :
    e.header.entryType = .link ∧ 0 < e.header.mtime ∧
      (∃ text, e.headerLink = .utf8 text ∧ Path.parse text = t) ∧ inRepo t = true := by
  rw [LayerEntry.repoTarget] at ht
  by_cases hlink : inRepo e.rel = false ∧ e.header.entryType = .link ∧ 0 < e.header.mtime
  · rw [if_pos hlink] at ht
    cases hname : e.headerLink with
    | missing =>
        rw [hname] at ht
        exact absurd ht (by simp)
    | notUtf8 =>
        rw [hname] at ht
        exact absurd ht (by simp)
    | utf8 text =>
        rw [hname] at ht
        dsimp only at ht
        rw [lookupTarget_rel] at ht
        by_cases hin : inRepo (Path.parse text) = true
        · rw [if_pos hin] at ht
          obtain rfl := Option.some.inj ht
          exact ⟨hlink.2.1, hlink.2.2, ⟨text, rfl, rfl⟩, hin⟩
        · rw [if_neg hin] at ht
          exact absurd ht (by simp)
  · rw [if_neg hlink] at ht
    exact absurd ht (by simp)

/-- An entry that is not sensitive takes the ordinary way, or it fails. -/
theorem ordinary_of_quiet (h : ¬ Sensitive tar config e) :
    ¬ e.Stashed ∧ e.repoTarget = none ∧ (inRepo e.rel = true → ¬ e.Broken) := by
  refine ⟨?_, ?_, ?_⟩
  · rintro ⟨hin, hmod, hty⟩
    rw [e.rel_of_inRepo hin] at hin
    exact h (.object hin hmod hty)
  · cases ht : e.repoTarget with
    | none => rfl
    | some t =>
        obtain ⟨hty, hmod, ⟨text, htext, rfl⟩, hin⟩ := repoTarget_some ht
        have hparts : e.headerLink.parts = some (Path.parse text) := by
          rw [htext, LinkName.parts, dropLead_of_inRepo hin]
        exact absurd (.link hty hmod hparts hin) h
  · intro hin hb
    rw [e.rel_of_inRepo hin] at hin
    exact h (.untargeted hb.1 hb.2.1 hb.2.2 hin)

/-- A round on an entry whose path is not UTF-8 fails. -/
theorem round_notUtf8 (hpath : e.path = none) (w : FilterState) :
    ∃ x w', filterTarEntry tar config (.ok e) w = .error x w' := by
  have hutf8 : e.utf8Path = .error (.err "provided path is not valid UTF-8") := by
    rw [LayerEntry.utf8Path, hpath]
  rw [filterTarEntry, bind_of_ok (pure_run e w)]
  dsimp only
  rw [hutf8]
  exact ⟨_, _, rfl⟩

/-- **A round on an entry that is not sensitive** does the same for every spelling. -/
theorem round_alike (hr : e.Respelled e') (h : ¬ Sensitive tar config e) :
    Alike SameState (fun _ _ => True) (filterTarEntry tar config (.ok e))
      (filterTarEntry tar config (.ok e')) := by
  have h' : ¬ Sensitive tar config e' := fun hs => h (hs.respelled hr)
  have hbroken : e'.Broken ↔ e.Broken := by
    rw [LayerEntry.Broken, LayerEntry.Broken, hr.header, hr.headerLink.parts]
  intro w w' hw
  have hrel := hr.path
  cases hpath : e.path with
  | none =>
      rw [hpath] at hrel
      cases hpath' : e'.path with
      | none =>
          obtain ⟨x, v, hx⟩ := @round_notUtf8 tar config _ hpath w
          obtain ⟨y, v', hy⟩ := @round_notUtf8 tar config _ hpath' w'
          exact .inr ⟨x, v, y, v', hx, hy⟩
      | some t =>
          rw [hpath'] at hrel
          cases hrel
  | some s =>
      rw [hpath] at hrel
      cases hpath' : e'.path with
      | none =>
          rw [hpath'] at hrel
          cases hrel
      | some t =>
          obtain ⟨hs, ht, hin⟩ := ordinary_of_quiet h
          obtain ⟨hs', ht', hin'⟩ := ordinary_of_quiet h'
          by_cases hb : e.Broken
          · obtain ⟨x, v, hx⟩ := round_broken hpath (fun h => hin h hb) hb w
            obtain ⟨y, v', hy⟩ := round_broken hpath' (fun h => hin' h (hbroken.mpr hb))
              (hbroken.mpr hb) w'
            exact .inr ⟨x, v, y, v', hx, hy⟩
          · rw [round_ordinary hpath hs ht (.inr hb),
              round_ordinary hpath' hs' ht' (.inr (fun hb' => hb (hbroken.mp hb')))]
            exact filterPath_alike hr h w w' hw

/-- The filter ends alike on archives that are spelled differently. -/
theorem filterTar_alike {src src' : List (Except String LayerEntry)}
    (hsrc : List.Forall₂ Respelled src src')
    (h : ∀ e ∈ entriesOf src, ¬ Sensitive tar config e) :
    SameOutcome (filterTar tar config src) (filterTar tar config src') := by
  have hloop : Alike SameState (fun _ _ => True) (forM src (filterTarEntry tar config))
      (forM src' (filterTarEntry tar config)) := by
    refine Alike.loop hsrc (fun ent hent ent' hr => ?_)
    cases hr with
    | error msg => exact Alike.throw _ _
    | @entry e e' hr => exact round_alike hr (h e (mem_entriesOf.mpr hent))
  rw [filterTar, filterTar]
  rcases hloop {} {} ⟨.nil, rfl⟩ with ⟨_, w, _, w', hrun, hrun', _, hout, hcounts⟩ |
    ⟨x, w, y, w', hrun, hrun'⟩
  · rw [hrun, hrun']
    refine ⟨iff_of_true ⟨_, rfl⟩ ⟨_, rfl⟩, fun counts counts' hc hc' => ⟨?_, hout⟩⟩
    rw [← Except.ok.inj hc, ← Except.ok.inj hc', hcounts]
  · rw [hrun, hrun']
    refine ⟨iff_of_false ?_ ?_, fun counts counts' hc _ => ?_⟩
    · rintro ⟨counts, hc⟩
      exact absurd hc (by simp)
    · rintro ⟨counts, hc⟩
      exact absurd hc (by simp)
    · exact absurd hc (by simp)

end Alike

-- ── Where it does ─────────────────────────────────────────────────────────────

/-- The pieces of a text that are not skipped. -/
def pieces (text : String) : Path := (splitChar '/' text.toList).filterMap Path.componentOf

theorem parse_eq (text : String) :
    Path.parse text = Path.leading text.toList (splitChar '/' text.toList) ++ pieces text := rfl

/-- The text `/p` is rooted. -/
theorem parse_slash (text : String) : Path.parse ("/" ++ text) = .rootDir :: pieces text := by
  have hlist : ("/" ++ text).toList = '/' :: text.toList := by
    rw [String.toList_append]
    rfl
  rw [parse_eq, pieces, hlist]
  rfl

/-- The text `./p` has a leading dot. -/
theorem parse_dotSlash (text : String) : Path.parse ("./" ++ text) = .curDir :: pieces text := by
  have hlist : ("./" ++ text).toList = ['.'] ++ '/' :: text.toList := by
    rw [String.toList_append]
    rfl
  have hsplit : splitChar '/' (['.'] ++ '/' :: text.toList) = ['.'] :: splitChar '/' text.toList :=
    splitChar_append (by decide) _
  rw [parse_eq, pieces, hlist, hsplit]
  rfl

/-- The pieces are the path without its lead. -/
theorem pieces_eq (text : String) : pieces text = dropLead (Path.parse text) := by
  have hplain : Plain (pieces text) := by
    have h := (tidy_parse ("/" ++ text)).spelled.1
    rwa [parse_slash] at h
  rw [parse_eq, Path.leading]
  by_cases hroot : text.toList.head? = some '/'
  · rw [if_pos hroot]
    rfl
  rw [if_neg hroot]
  by_cases hdot : (splitChar '/' text.toList).head? = some ['.']
  · rw [if_pos hdot]
    rfl
  · rw [if_neg hdot, List.nil_append, dropLead_plain hplain]

/-- Each spelling of a path has a text. -/
theorem exists_text (text : String) {p : Path} (hp : p ∈ spellings (dropLead (Path.parse text))) :
    ∃ t, Path.parse t = p ∧ SameText text t := by
  have hplain := (tidy_parse text).spelled.1
  have hsame : ∀ t, dropLead (Path.parse t) = dropLead (Path.parse text) → SameText text t :=
    fun t h => h.symm
  have hdrop : ∀ t c, Path.parse t = c :: dropLead (Path.parse text) → (c = .curDir ∨ c = .rootDir) →
      SameText text t := by
    rintro t c ht (rfl | rfl)
    · exact hsame t (by rw [ht]; rfl)
    · exact hsame t (by rw [ht]; rfl)
  simp only [spellings, List.mem_cons, List.not_mem_nil, or_false] at hp
  rcases hp with rfl | rfl | rfl
  · have htext : ∃ t, Path.parse t = dropLead (Path.parse text) := by
      by_cases hne : dropLead (Path.parse text) = []
      · exact ⟨"", hne.symm⟩
      · refine ⟨_, Path.parse_render_parts hne (fun c hc => ?_)⟩
        rcases hplain c hc with rfl | ⟨s, rfl⟩
        · exact .inl rfl
        · have hmem : .normal s ∈ pieces text := by rwa [pieces_eq]
          exact .inr ⟨s, rfl, Path.isFileName_of_parse (List.mem_append_right _ hmem)⟩
    obtain ⟨t, ht⟩ := htext
    exact ⟨t, ht, hsame t (by rw [ht, dropLead_plain hplain])⟩
  · have ht : Path.parse ("./" ++ text) = .curDir :: dropLead (Path.parse text) := by
      rw [parse_dotSlash, pieces_eq]
    exact ⟨_, ht, hdrop _ _ ht (.inl rfl)⟩
  · have ht : Path.parse ("/" ++ text) = .rootDir :: dropLead (Path.parse text) := by
      rw [parse_slash, pieces_eq]
    exact ⟨_, ht, hdrop _ _ ht (.inr rfl)⟩

-- ── Entries that leave a trace ────────────────────────────────────────────────

/-- How many paths have been filtered. -/
def countSum (m : Std.ExtTreeMap String Nat) : Nat := (m.toList.map (·.2)).sum

theorem countSum_insert {m : Std.ExtTreeMap String Nat} {name : String} (h : name ∉ m) (n : Nat) :
    countSum (m.insert name n) = countSum m + n := by
  rw [countSum, countSum, ((Std.ExtTreeMap.toList_insert_perm h n).map _).sum_nat, List.map_cons,
    List.sum_cons, Nat.add_comm]

theorem countSum_erase {m : Std.ExtTreeMap String Nat} {name : String} {n : Nat}
    (h : m[name]? = some n) : countSum m = countSum (m.erase name) + n := by
  rw [countSum, countSum, ((Std.ExtTreeMap.toList_erase_perm h).map _).sum_nat, List.map_cons,
    List.sum_cons, Nat.add_comm]

/-- The entries that were written, or counted. -/
def FilterState.traces (w : FilterState) : Nat := w.out.length + countSum w.filtered

/-- No hard link has anything to refer to. -/
def FilterState.Idle (w : FilterState) : Prop :=
  (∀ t, w.changedSysrootObjects t = none) ∧ ∀ t, w.newSysrootLinkTargets t = none

section Trace

variable {tar : TarBuilder} {config : TarImportConfig} {e : LayerEntry} {w w' : FilterState}

theorem traces_emit (w : FilterState) (o : FilteredEntry) : (w.emit o).traces = w.traces + 1 := by
  show (w.out ++ [o]).length + countSum w.filtered = _
  rw [FilterState.traces, List.length_append, List.length_singleton]
  omega

theorem traces_count (w : FilterState) (name : String) : (w.count name).traces = w.traces + 1 := by
  show w.out.length + countSum (w.filtered.insert name ((w.filtered[name]?).getD 0 + 1)) = _
  rw [FilterState.traces]
  cases h : w.filtered[name]? with
  | none =>
      have hnew : name ∉ w.filtered := by
        rw [Std.ExtTreeMap.mem_iff_lookup, h]
        simp
      rw [countSum_insert hnew, Option.getD_none]
      omega
  | some n =>
      rw [Std.ExtTreeMap.insert_eq_insert_erase, countSum_insert (Std.ExtTreeMap.not_mem_erase _ _),
        countSum_erase h, Option.getD_some]
      omega

/-- **An entry that takes the ordinary way** leaves a trace, and nothing for hard links. -/
theorem Fate.ordinary (h : Fate config e w w') (hs : ¬ e.Stashed) (ht : e.repoTarget = none) :
    w'.traces = w.traces + 1 ∧ (w.Idle → w'.Idle) := by
  cases h with
  | stashed h => exact absurd h hs
  | moved h _ => exact absurd (h.symm.trans ht) (by simp)
  | relinked h _ _ => exact absurd (h.symm.trans ht) (by simp)
  | unhandled h _ _ => exact absurd (h.symm.trans ht) (by simp)
  | dropped _ _ _ => exact ⟨traces_count _ _, fun hw => hw⟩
  | copied _ _ => exact ⟨traces_emit _ _, fun hw => hw⟩

/-- An object that is kept for hard links leaves none. -/
theorem Fate.of_stashed (h : Fate config e w w') (hs : e.Stashed) : w'.traces = w.traces := by
  cases h with
  | stashed h => rfl
  | moved h _ => exact absurd hs (not_stashed_of_repoTarget h)
  | relinked h _ _ => exact absurd hs (not_stashed_of_repoTarget h)
  | unhandled h _ _ => rfl
  | dropped h _ _ => exact absurd hs h
  | copied h _ => exact absurd hs h.1

/-- Neither does a hard link to an object that was not seen. -/
theorem Fate.of_idle {t : Path} (h : Fate config e w w') (ht : e.repoTarget = some t)
    (hw : w.Idle) : w'.traces = w.traces := by
  cases h with
  | stashed h => exact absurd h (not_stashed_of_repoTarget ht)
  | moved _ hc =>
      rw [hw.1] at hc
      exact absurd hc (by simp)
  | relinked _ _ hn =>
      rw [hw.2] at hn
      exact absurd hn (by simp)
  | unhandled _ _ _ => rfl
  | dropped _ h _ => exact absurd (h.symm.trans ht) (by simp)
  | copied h _ => exact absurd (h.2.1.symm.trans ht) (by simp)

/-- A run over ordinary entries: each leaves a trace. -/
theorem run_ordinary {src : List (Except String LayerEntry)} {u : Unit}
    (hsrc : ∀ e ∈ entriesOf src, ¬ e.Stashed ∧ e.repoTarget = none)
    (h : forM src (filterTarEntry tar config) w = .ok u w') :
    w'.traces = w.traces + src.length ∧ (w.Idle → w'.Idle) := by
  induction src generalizing w with
  | nil =>
      cases h
      exact ⟨rfl, fun hw => hw⟩
  | cons ent src ih =>
      rw [List.forM_cons] at h
      obtain ⟨_, w₁, hround, hrest⟩ := bind_ok h
      obtain ⟨e, rfl, hfate⟩ := filterTarEntry_read hround
      obtain ⟨hs, ht⟩ := hsrc e (mem_entriesOf.mpr (List.mem_cons_self ..))
      obtain ⟨htrace, hidle⟩ := hfate.ordinary hs ht
      obtain ⟨hrun, hidle'⟩ := ih
        (fun a ha => hsrc a (mem_entriesOf.mpr (List.mem_cons_of_mem _ (mem_entriesOf.mp ha)))) hrest
      refine ⟨?_, fun hw => hidle' (hidle hw)⟩
      rw [hrun, htrace, List.length_cons]
      omega

end Trace

-- ── Other spellings ───────────────────────────────────────────────────────────

/-- A link name with a leading dot. -/
def LinkName.dotted : LinkName → LinkName
  | .utf8 text => .utf8 ("./" ++ text)
  | l => l

theorem LinkName.respelled_dotted (l : LinkName) : l.Respelled l.dotted := by
  cases l with
  | missing => exact .same _
  | notUtf8 => exact .same _
  | utf8 text =>
      refine .utf8 ?_
      rw [SameText, parse_dotSlash, pieces_eq]
      rfl

/-- An entry with another path, and for a hard link with other link names. -/
def LayerEntry.spell (e : LayerEntry) (lead : String) (headerLink link : LinkName) : LayerEntry :=
  if e.header.entryType = .link then
    { e with path := e.path.map (lead ++ ·), headerLink := headerLink, link := link }
  else { e with path := e.path.map (lead ++ ·) }

/-- An entry with a leading dot wherever there can be one. -/
def LayerEntry.dotted (e : LayerEntry) : LayerEntry := e.spell "./" e.headerLink.dotted e.link

section Spell

variable {e : LayerEntry} {lead : String} {headerLink link : LinkName}

@[simp] theorem spell_path : (e.spell lead headerLink link).path = e.path.map (lead ++ ·) := by
  rw [LayerEntry.spell]
  split
  · rfl
  · rfl

@[simp] theorem spell_header : (e.spell lead headerLink link).header = e.header := by
  rw [LayerEntry.spell]
  split
  · rfl
  · rfl

theorem spell_of_link (h : e.header.entryType = .link) :
    (e.spell lead headerLink link).headerLink = headerLink ∧
      (e.spell lead headerLink link).link = link := by
  rw [LayerEntry.spell, if_pos h]
  exact ⟨rfl, rfl⟩

theorem respelled_spell (hlead : lead = "./" ∨ lead = "/") (hheader : e.headerLink.Respelled headerLink)
    (hlink : e.link.Respelled link) : e.Respelled (e.spell lead headerLink link) := by
  have hpath : Option.Rel SameText e.path (e.path.map (lead ++ ·)) := by
    cases e.path with
    | none => exact .none
    | some text =>
        refine .some ?_
        rcases hlead with rfl | rfl
        · rw [SameText, parse_dotSlash, pieces_eq]
          rfl
        · rw [SameText, parse_slash, pieces_eq]
          rfl
  have hpax : List.Forall₂ RecordRespelled (e.pax.getD []) (e.pax.getD []) := by
    refine List.forall₂_same.mpr (fun r _ => ?_)
    cases r with
    | ok a => exact .ok ⟨rfl, .inl rfl⟩
    | error msg => exact .error msg
  rw [LayerEntry.spell]
  by_cases hty : e.header.entryType = .link
  · rw [if_pos hty]
    exact ⟨hpath, rfl, hheader, hlink, fun h => absurd hty h, hpax, rfl⟩
  · rw [if_neg hty]
    exact ⟨hpath, rfl, .same _, .same _, fun _ => ⟨rfl, rfl⟩, hpax, rfl⟩

/-- With a leading dot nothing is recognized as an object of the repository. -/
theorem spell_dot : inRepo (e.spell "./" headerLink link).rel = false := by
  rw [LayerEntry.rel, spell_path]
  cases e.path with
  | none => rfl
  | some text =>
      rw [Option.map_some, Option.getD_some, parse_dotSlash]
      rfl

theorem spell_dot_rel {text : String} (h : e.path = some text) :
    (e.spell "./" headerLink link).rel = .curDir :: e.parts := by
  rw [LayerEntry.rel, LayerEntry.parts, spell_path, h, Option.map_some, Option.getD_some,
    Option.getD_some, parse_dotSlash, pieces_eq]
  rfl

/-- Without the slash an entry has its parts for its path. -/
theorem spell_slash : (e.spell "/" headerLink link).rel = e.parts := by
  rw [LayerEntry.rel, LayerEntry.parts, spell_path]
  cases e.path with
  | none => rfl
  | some text =>
      rw [Option.map_some, Option.getD_some, parse_slash, pieces_eq]
      rfl

/-- Nor is a target with a leading dot. -/
theorem spell_target : (e.spell lead e.headerLink.dotted link).repoTarget = none := by
  cases h : (e.spell lead e.headerLink.dotted link).repoTarget with
  | none => rfl
  | some t =>
      obtain ⟨hty, _, ⟨text, htext, rfl⟩, hin⟩ := repoTarget_some h
      rw [spell_header] at hty
      rw [(spell_of_link hty).1] at htext
      cases hname : e.headerLink with
      | missing =>
          rw [hname] at htext
          exact absurd htext (by simp [LinkName.dotted])
      | notUtf8 =>
          rw [hname] at htext
          exact absurd htext (by simp [LinkName.dotted])
      | utf8 s =>
          rw [hname] at htext
          obtain rfl := LinkName.utf8.inj htext
          rw [parse_dotSlash] at hin
          exact absurd hin (by simp [inRepo, stripPrefix, repoPrefix])

theorem dotted_ordinary : ¬ e.dotted.Stashed ∧ e.dotted.repoTarget = none := by
  refine ⟨fun hs => ?_, spell_target⟩
  have hin := hs.1
  rw [LayerEntry.dotted, spell_dot] at hin
  exact absurd hin (by simp)

end Spell

section Blind

variable {tar : TarBuilder} {config : TarImportConfig} {src : List (Except String LayerEntry)}

/-- An archive with a leading dot wherever there can be one. -/
def dottedArchive (src : List (Except String LayerEntry)) : List (Except String LayerEntry) :=
  src.map fun ent => ent.map LayerEntry.dotted

theorem respelled_dotted (src : List (Except String LayerEntry)) :
    List.Forall₂ Respelled src (dottedArchive src) := by
  rw [dottedArchive, List.forall₂_map_right_iff]
  refine List.forall₂_same.mpr (fun ent _ => ?_)
  cases ent with
  | error msg => exact .error msg
  | ok e => exact .entry (respelled_spell (.inl rfl) (LinkName.respelled_dotted _) (.same _))

theorem ordinary_dotted (src : List (Except String LayerEntry)) :
    ∀ e ∈ entriesOf (dottedArchive src), ¬ e.Stashed ∧ e.repoTarget = none := by
  intro e he
  obtain ⟨ent, hent, hmap⟩ := List.mem_map.mp (mem_entriesOf.mp he)
  cases ent with
  | error msg => exact absurd hmap (by simp [Except.map])
  | ok e' =>
      obtain rfl := Except.ok.inj hmap
      exact dotted_ordinary

/-- What a run that is accepted ends in. -/
theorem filterTar_accepted {counts : Std.ExtTreeMap String Nat}
    (h : (filterTar tar config src).2 = .ok counts) :
    ∃ w, forM src (filterTarEntry tar config) {} = .ok () w ∧
      (filterTar tar config src).1 = w.out ∧ w.filtered = counts := by
  rw [filterTar] at h
  cases hrun : forM src (filterTarEntry tar config) {} with
  | ok u w =>
      rw [hrun] at h
      refine ⟨w, rfl, ?_, Except.ok.inj h⟩
      rw [filterTar, hrun]
  | error x w =>
      rw [hrun] at h
      exact absurd h (by simp)

/-- If one spelling of an archive is accepted and its spelling does not matter, all of them are,
    and they leave the same traces. -/
theorem SpellingBlind.traces (h : SpellingBlind tar config src)
    (haccepted : ∃ src', List.Forall₂ Respelled src src' ∧
      ∃ counts, (filterTar tar config src').2 = .ok counts) :
    ∃ n, ∀ src', List.Forall₂ Respelled src src' →
      ∃ w, forM src' (filterTarEntry tar config) {} = .ok () w ∧ w.traces = n := by
  obtain ⟨src₀, hsrc₀, hok₀⟩ := haccepted
  obtain ⟨counts, hcounts⟩ := (h src₀ hsrc₀).succeeds.mpr hok₀
  refine ⟨(filterTar tar config src).1.length + countSum counts, fun src' hsrc' => ?_⟩
  obtain ⟨counts', hcounts'⟩ := (h src' hsrc').succeeds.mp ⟨counts, hcounts⟩
  obtain ⟨rfl, hout⟩ := (h src' hsrc').same _ _ hcounts hcounts'
  obtain ⟨w, hrun, hw, rfl⟩ := filterTar_accepted hcounts'
  refine ⟨w, hrun, ?_⟩
  rw [FilterState.traces, hout.length_eq, hw]

/-- **Any spelling of an entry leaves a trace** then, also where no hard link has anything to
    refer to. -/
theorem SpellingBlind.round (h : SpellingBlind tar config src)
    (haccepted : ∃ src', List.Forall₂ Respelled src src' ∧
      ∃ counts, (filterTar tar config src').2 = .ok counts) {e v : LayerEntry}
    (he : e ∈ entriesOf src) (hv : e.Respelled v) :
    ∃ w w', w.Idle ∧ filterTarEntry tar config (.ok v) w = .ok () w' ∧ w'.traces = w.traces + 1 := by
  obtain ⟨pre, post, hsplit⟩ := List.append_of_mem (mem_entriesOf.mp he)
  obtain ⟨n, hall⟩ := h.traces haccepted
  -- all entries with a leading dot, and the same but for this one
  obtain ⟨w₀, hrun₀, htraces₀⟩ := hall _ (respelled_dotted src)
  have hmixed : List.Forall₂ Respelled src (dottedArchive pre ++ .ok v :: dottedArchive post) := by
    rw [hsplit]
    exact List.rel_append (respelled_dotted pre) (.cons (.entry hv) (respelled_dotted post))
  obtain ⟨w, hrun, htraces⟩ := hall _ hmixed
  obtain ⟨hlength, _⟩ := run_ordinary (ordinary_dotted src) hrun₀
  rw [forM_append] at hrun
  obtain ⟨_, w₁, hpre, hrest⟩ := bind_ok hrun
  rw [List.forM_cons] at hrest
  obtain ⟨_, w₂, hround, hpost⟩ := bind_ok hrest
  obtain ⟨hpretraces, hidle⟩ := run_ordinary (ordinary_dotted pre) hpre
  obtain ⟨hposttraces, _⟩ := run_ordinary (ordinary_dotted post) hpost
  refine ⟨w₁, w₂, hidle ⟨fun _ => rfl, fun _ => rfl⟩, hround, ?_⟩
  have hlen : (dottedArchive src).length = (dottedArchive pre).length + 1 + (dottedArchive post).length := by
    rw [dottedArchive, dottedArchive, dottedArchive, List.length_map, List.length_map,
      List.length_map, hsplit, List.length_append, List.length_cons]
    omega
  omega

theorem appendData_accepts {o : FilteredEntry} {w w' : FilterState} {u : Unit}
    (h : appendData tar o w = .ok u w') : tar.Accepts o.path := by
  rw [appendData] at h
  obtain ⟨_, _, hcheck, _⟩ := bind_ok h
  exact (liftR_eq_ok hcheck).1

theorem appendLink_accepts {o : FilteredEntry} {t : Path} {w w' : FilterState} {u : Unit}
    (h : appendLink tar o t w = .ok u w') : tar.Accepts o.path ∧ tar.AcceptsLink t := by
  rw [appendLink] at h
  obtain ⟨_, _, hpath, hrest⟩ := bind_ok h
  obtain ⟨_, _, hlink, _⟩ := bind_ok hrest
  exact ⟨(liftR_eq_ok hpath).1, (liftR_eq_ok hlink).1⟩

/-- The checks that a copied entry has passed. -/
theorem copyEntry_accepts {e : LayerEntry} {q : Path} {w w' : FilterState} {u : Unit}
    (h : copyEntry tar e (some q) w = .ok u w') :
    tar.Accepts q ∧ (e.header.entryType = .link → ∀ text, e.link = .utf8 text →
      tar.AcceptsLink (remapEtcPath (Path.parse text))) := by
  rw [copyEntry] at h
  obtain ⟨_, w₁, hpath, h₁⟩ := bind_ok h
  cases hpath
  obtain ⟨pax, w₂, _, h₂⟩ := bind_ok h₁
  cases hty : e.header.entryType with
  | symlink =>
      rw [hty] at h₂
      obtain ⟨target, w₃, _, h₃⟩ := bind_ok h₂
      exact ⟨(appendLink_accepts h₃).1, fun hlink => absurd hlink (by simp)⟩
  | link =>
      rw [hty] at h₂
      obtain ⟨target, w₃, htarget, h₃⟩ := bind_ok h₂
      obtain ⟨hname, _⟩ := liftR_eq_ok htarget
      refine ⟨(appendLink_accepts h₃).1, fun _ text htext => ?_⟩
      rw [htext] at hname
      rw [Except.ok.inj hname]
      exact (appendLink_accepts h₃).2
  | regular =>
      rw [hty] at h₂
      exact ⟨appendData_accepts h₂, fun hlink => absurd hlink (by simp)⟩
  | directory =>
      rw [hty] at h₂
      exact ⟨appendData_accepts h₂, fun hlink => absurd hlink (by simp)⟩
  | other flag =>
      rw [hty] at h₂
      exact ⟨appendData_accepts h₂, fun hlink => absurd hlink (by simp)⟩

/-- An entry of a round that succeeds has a path. -/
theorem utf8_of_round {e : LayerEntry} {w w' : FilterState} {u : Unit}
    (h : filterTarEntry tar config (.ok e) w = .ok u w') : ∃ text, e.path = some text := by
  cases hpath : e.path with
  | none =>
      obtain ⟨x, v, hx⟩ := @round_notUtf8 tar config e hpath w
      rw [hx] at h
      exact absurd h (by simp)
  | some text => exact ⟨text, rfl⟩

/-- The checks that an ordinary entry has passed, if it is copied. -/
theorem round_accepts {e : LayerEntry} {q : Path} {w w' : FilterState} {u : Unit}
    (hs : ¬ e.Stashed) (ht : e.repoTarget = none)
    (hq : normalizeValidatePath e.rel config = .ok (.normal q))
    (h : filterTarEntry tar config (.ok e) w = .ok u w') :
    tar.Accepts q ∧ (e.header.entryType = .link → ∀ text, e.link = .utf8 text →
      tar.AcceptsLink (remapEtcPath (Path.parse text))) := by
  obtain ⟨text, hpath⟩ := utf8_of_round h
  have hb : inRepo e.rel = true ∨ ¬ e.Broken := by
    by_contra hnot
    rw [not_or, not_not] at hnot
    obtain ⟨x, v, hx⟩ := @round_broken tar config e text hpath hnot.1 hnot.2 w
    rw [hx] at h
    exact absurd h (by simp)
  rw [round_ordinary hpath hs ht hb, filterPath, hq, bind_of_ok (liftR_ok _ w)] at h
  exact copyEntry_accepts h

/-- **If the spelling of an archive does not matter, no entry is sensitive**, unless every
    spelling is refused. -/
theorem SpellingBlind.quiet (h : SpellingBlind tar config src)
    (haccepted : ∃ src', List.Forall₂ Respelled src src' ∧
      ∃ counts, (filterTar tar config src').2 = .ok counts) {e : LayerEntry}
    (he : e ∈ entriesOf src) : ¬ Sensitive tar config e := by
  have hdotslash : ("./" : String) = "./" ∨ ("./" : String) = "/" := .inl rfl
  have hslash : ("/" : String) = "./" ∨ ("/" : String) = "/" := .inr rfl
  intro hs
  cases hs with
  | object hrepo hmod hty =>
      -- as `/p` it is kept for hard links
      obtain ⟨w, w', _, hrun, htraces⟩ := h.round haccepted he
        (respelled_spell hslash (.same _) (.same _))
      have hstashed : (e.spell "/" e.headerLink e.link).Stashed := by
        refine ⟨?_, ?_, ?_⟩
        · rw [spell_slash]
          exact hrepo
        · rw [spell_header]
          exact hmod
        · rw [spell_header]
          exact hty
      have hsame := (filterTarEntry_fate hrun).of_stashed hstashed
      omega
  | @link t hty hmod ht hrepo =>
      -- with the target as `p` it is for an object that was not seen
      obtain ⟨text, hname, rfl⟩ := LinkName.parts_some ht
      obtain ⟨plain, hplain, hsame⟩ := exists_text text (List.mem_cons_self ..)
      have hrespelled : e.headerLink.Respelled (.utf8 plain) := by
        rw [hname]
        exact .utf8 hsame
      obtain ⟨w, w', hidle, hrun, htraces⟩ := h.round haccepted he
        (respelled_spell hdotslash hrespelled (.same _))
      have htarget : (e.spell "./" (.utf8 plain) e.link).repoTarget
          = some (dropLead (Path.parse text)) := by
        have hlink : (e.spell "./" (.utf8 plain) e.link).headerLink.target
            "Invalid empty hardlink" = .ok (dropLead (Path.parse text)) := by
          rw [(spell_of_link hty).1, ← hplain]
          rfl
        rw [repoTarget_of_link spell_dot (by rw [spell_header]; exact ⟨hty, hmod⟩) hlink,
          lookupTarget_rel, if_pos hrepo]
      have hkept := (filterTarEntry_fate hrun).of_idle htarget hidle
      omega
  | untargeted hty hmod ht hrepo =>
      -- as `./p` it is refused
      obtain ⟨w, w', _, hrun, _⟩ := h.round haccepted he
        (respelled_spell hdotslash (.same _) (.same _))
      have hbroken : (e.spell "./" e.headerLink e.link).Broken := by
        rw [LayerEntry.Broken, spell_header, (spell_of_link hty).1]
        exact ⟨hty, hmod, ht⟩
      have hout : ¬ inRepo (e.spell "./" e.headerLink e.link).rel = true := by
        rw [spell_dot]
        simp
      obtain ⟨text, hpath⟩ := utf8_of_round hrun
      obtain ⟨x, v, hx⟩ := @round_broken tar config _ _ hpath hout hbroken w
      rw [hx] at hrun
      exact absurd hrun (by simp)
  | root hroot htar =>
      -- `./` and `/` are both accepted
      obtain ⟨w, w', _, hrun, _⟩ := h.round haccepted he
        (respelled_spell hslash e.headerLink.respelled_dotted (.same _))
      have hrel : (e.spell "/" e.headerLink.dotted e.link).rel = [] := spell_slash.trans hroot
      have hstashed : ¬ (e.spell "/" e.headerLink.dotted e.link).Stashed := by
        intro hs
        have hin := hs.1
        rw [hrel] at hin
        exact absurd hin (by decide)
      have hslashed := (round_accepts hstashed spell_target (by rw [hrel]; rfl) hrun).1
      obtain ⟨v, v', _, hrun', _⟩ := h.round haccepted he
        (respelled_spell hdotslash e.headerLink.respelled_dotted (.same _))
      obtain ⟨text, hpath⟩ := utf8_of_round hrun'
      have hrel' : e.dotted.rel = [.curDir] := by
        rw [spell_path, Option.map_eq_some_iff] at hpath
        obtain ⟨s, hs, _⟩ := hpath
        rw [LayerEntry.dotted, spell_dot_rel hs, hroot]
      have hdotted := (round_accepts dotted_ordinary.1 dotted_ordinary.2 (by rw [hrel']; rfl)
        hrun').1
      exact htar (iff_of_true hslashed hdotted)
  | @target t p p' hty ht hplaced hp hp' htar =>
      -- all spellings of the target are accepted
      obtain ⟨q, hq⟩ := hplaced
      obtain ⟨text, hname, rfl⟩ := LinkName.parts_some ht
      have hall : ∀ r ∈ spellings (dropLead (Path.parse text)),
          tar.AcceptsLink (remapEtcPath r) := by
        intro r hr
        obtain ⟨text', rfl, hsame⟩ := exists_text text hr
        have hlink : e.link.Respelled (.utf8 text') := by
          rw [hname]
          exact .utf8 hsame
        obtain ⟨w, w', _, hrun, _⟩ := h.round haccepted he
          (respelled_spell hdotslash e.headerLink.respelled_dotted hlink)
        obtain ⟨s, hpath⟩ := utf8_of_round hrun
        rw [spell_path, Option.map_eq_some_iff] at hpath
        obtain ⟨s', hs', _⟩ := hpath
        have hstashed : ¬ (e.spell "./" e.headerLink.dotted (.utf8 text')).Stashed := by
          intro hs
          have hin := hs.1
          rw [spell_dot] at hin
          exact absurd hin (by simp)
        refine (round_accepts hstashed spell_target (by rw [spell_dot_rel hs']; exact hq)
          hrun).2 (by rw [spell_header]; exact hty) text' ?_
        exact (spell_of_link hty).2
      exact htar (iff_of_true (hall p hp) (hall p' hp'))

/-- **Filtering does not depend on how an archive is spelled**, if no entry is sensitive; and
    if some spelling of the archive is accepted, only then. -/
theorem filterTar_blind_iff (tar : TarBuilder) (config : TarImportConfig)
    (src : List (Except String LayerEntry)) :
    ((∀ e ∈ entriesOf src, ¬ Sensitive tar config e) → SpellingBlind tar config src) ∧
    ((∃ src', List.Forall₂ Respelled src src' ∧
      ∃ counts, (filterTar tar config src').2 = .ok counts) →
      (SpellingBlind tar config src ↔ ∀ e ∈ entriesOf src, ¬ Sensitive tar config e)) :=
  ⟨fun h _ hsrc => filterTar_alike hsrc h,
    fun haccepted => ⟨fun h _ he => h.quiet haccepted he, fun h _ hsrc => filterTar_alike hsrc h⟩⟩

end Blind

-- ── Two archives ──────────────────────────────────────────────────────────────

/-- Neither a file nor a hard link to it is sensitive, outside of the repository and below
    a directory. -/
theorem etcLink_quiet :
    ∀ e ∈ entriesOf [.ok (layerFile "etc/foo"), .ok (layerLink "etc/bar" "etc/foo")],
      ¬ Sensitive sampleBuilder {} e := by
  have hparts : (layerLink "etc/bar" "etc/foo").link.parts
      = some [.normal "etc", .normal "foo"] := by decide +kernel
  intro e he hs
  have hunmodified : e.header.mtime = 0 := by
    rcases List.mem_cons.mp he with rfl | he
    · rfl
    · rw [List.mem_singleton.mp he]
      rfl
  cases hs with
  | object _ hmod _ => omega
  | link _ hmod _ _ => omega
  | untargeted _ hmod _ _ => omega
  | root hroot _ =>
      rcases List.mem_cons.mp he with rfl | he
      · exact absurd hroot (by decide +kernel)
      · rw [List.mem_singleton.mp he] at hroot
        exact absurd hroot (by decide +kernel)
  | @target t p p' hty ht _ hp hp' htar =>
      rcases List.mem_cons.mp he with rfl | he
      · exact absurd hty (by decide)
      · rw [List.mem_singleton.mp he, hparts] at ht
        obtain rfl := Option.some.inj ht
        have haccepts : ∀ r ∈ spellings [.normal "etc", .normal "foo"],
            sampleBuilder.checkLink (remapEtcPath r) = .ok () := by decide
        exact htar (iff_of_true (haccepts p hp) (haccepts p' hp'))

/-- However they are spelled, the file and the link are written below `usr`. -/
theorem etcLink_blind :
    SpellingBlind sampleBuilder {}
      [.ok (layerFile "etc/foo"), .ok (layerLink "etc/bar" "etc/foo")] :=
  (filterTar_blind_iff sampleBuilder {} _).1 etcLink_quiet

theorem ok_of_isOk {α : Type} {r : Result α} (h : r.isOk = true) : ∃ a, r = .ok a := by
  cases r with
  | ok a => exact ⟨a, rfl⟩
  | error x => exact absurd h (by simp [Except.isOk, Except.toBool])

/-- The hard link to the modified object, with an absolute target. -/
def absoluteLink : LayerEntry :=
  { modifiedLink "usr/bin/bash" with
    headerLink := .utf8 ("/" ++ modifiedObjectPath)
    link := .utf8 ("/" ++ modifiedObjectPath) }

/-- **A modified object with a hard link to it depends on the spelling**: if the target is
    spelled as `/p` the link stays a link, and the data of the object is lost. -/
theorem modifiedLink_not_blind :
    ¬ SpellingBlind sampleBuilder {} [.ok modifiedObject, .ok (modifiedLink "usr/bin/bash")] := by
  have hsame : SameText modifiedObjectPath ("/" ++ modifiedObjectPath) := by
    rw [SameText, parse_slash, pieces_eq]
    rfl
  have hobject : modifiedObject.Respelled modifiedObject :=
    ⟨.some rfl, rfl, .same _, .same _, fun _ => ⟨rfl, rfl⟩, .nil, rfl⟩
  have hlink : (modifiedLink "usr/bin/bash").Respelled absoluteLink :=
    ⟨.some rfl, rfl, .utf8 hsame, .utf8 hsame, fun h => absurd rfl h, .nil, rfl⟩
  have hrelative : ((filterTar sampleBuilder {} [.ok modifiedObject,
      .ok (modifiedLink "usr/bin/bash")]).1).map (·.header.entryType) = [.regular] := by
    decide +kernel
  have habsolute : ((filterTar sampleBuilder {} [.ok modifiedObject,
      .ok absoluteLink]).1).map (·.header.entryType) = [.link] := by
    decide +kernel
  intro h
  have houtcome := h [.ok modifiedObject, .ok absoluteLink]
    (.cons (.entry hobject) (.cons (.entry hlink) .nil))
  have hok : (filterTar sampleBuilder {} [.ok modifiedObject,
      .ok (modifiedLink "usr/bin/bash")]).2.isOk = true := by decide +kernel
  obtain ⟨counts, hcounts⟩ := ok_of_isOk hok
  obtain ⟨counts', hcounts'⟩ := houtcome.succeeds.mp ⟨counts, hcounts⟩
  obtain ⟨_, hout⟩ := houtcome.same _ _ hcounts hcounts'
  have htypes : List.Forall₂ (fun a b => a = b) [EntryType.regular] [.link] := by
    rw [← hrelative, ← habsolute, List.forall₂_map_left_iff, List.forall₂_map_right_iff]
    exact hout.imp (fun o o' ho => congrArg Header.entryType ho.header)
  cases htypes with
  | cons heq _ => exact absurd heq (by decide)

end OstreeExt.Tar
