import OstreeExt.Tar.Confine

/-!
# The hard links of a filtered stream

A hard link needs the file it refers to in front of it.  `filter_tar` moves paths with
`normalize_validate_path`, but targets with `remap_etc_path` alone, and it leaves out entries
that others refer to.  So the links of the filtered stream are closed exactly when for each
link that is copied some entry before it is written where its target is looked for
(`filterTar_closed_iff`).
-/

namespace OstreeExt.Tar

open OstreeExt Exec

/-- The target of a link of the filtered stream, where an extension record overrides the
    header. -/
def FilteredEntry.readLink (o : FilteredEntry) : Option Path :=
  match pathRecord "linkpath" o.pax with
  | some t => some t
  | none => o.link

/-- The target of the copy of a hard link. -/
def LayerEntry.linkTarget (e : LayerEntry) : Option Path :=
  match e.link with
  | .utf8 text => some ((e.paxRecord "linkpath").getD (remapEtcPath (Path.parse text)))
  | _ => none

/-- Every hard link of a layer refers to an earlier entry that is not a directory. -/
def LayerClosed (es : List LayerEntry) : Prop :=
  ∀ pre e post, es = pre ++ e :: post → e.header.entryType = .link →
    ∃ text, e.link = .utf8 text ∧ ∃ e' ∈ pre, e'.header.entryType ≠ .directory ∧
      dropLead e'.rel = dropLead (Path.parse text)

/-- Every hard link of a filtered stream refers to an earlier entry. -/
def Closed (out : List FilteredEntry) : Prop :=
  ∀ pre o post, out = pre ++ o :: post → o.header.entryType = .link →
    ∃ t, o.readLink = some t ∧ ∃ o' ∈ pre, dropLead o'.readPath = dropLead t

/-- Some entry is written where the target of the copy of a hard link is looked for. -/
def TargetWritten (config : TarImportConfig) (pre : List LayerEntry) (e : LayerEntry) : Prop :=
  ∀ n t, e.CopiedTo config n → e.header.entryType = .link → e.linkTarget = some t →
    ∃ q, Written config pre q ∧ dropLead q = dropLead t

/-- The targets of all hard links that are copied are there. -/
def TargetsWritten (config : TarImportConfig) (es : List LayerEntry) : Prop :=
  ∀ pre e post, es = pre ++ e :: post → TargetWritten config pre e

theorem closed_nil : Closed [] := by
  intro pre o post h
  exact absurd h (by simp)

theorem closed_snoc {out : List FilteredEntry} {o : FilteredEntry} :
    Closed (out ++ [o]) ↔ Closed out ∧ (o.header.entryType = .link →
      ∃ t, o.readLink = some t ∧ ∃ o' ∈ out, dropLead o'.readPath = dropLead t) := by
  constructor
  · intro h
    refine ⟨?_, h out o [] rfl⟩
    rintro pre o' post rfl hty
    exact h pre o' (post ++ [o]) (by simp) hty
  · rintro ⟨h, hlast⟩ pre o' post hsplit hty
    rcases snoc_split hsplit with ⟨rfl, rfl, rfl⟩ | ⟨post', rfl, rfl⟩
    · exact hlast hty
    · exact h pre o' post' rfl hty

section Run

variable {config : TarImportConfig} {es : List LayerEntry} {e : LayerEntry} {w w' : FilterState}

theorem targetsWritten_snoc : TargetsWritten config (es ++ [e]) ↔
    TargetsWritten config es ∧ TargetWritten config es e := by
  constructor
  · intro h
    refine ⟨?_, h es e [] rfl⟩
    rintro pre e' post rfl
    exact h pre e' (post ++ [e]) (by simp)
  · rintro ⟨h, hlast⟩ pre e' post hsplit
    rcases snoc_split hsplit with ⟨rfl, rfl, rfl⟩ | ⟨post', rfl, rfl⟩
    · exact hlast
    · exact h pre e' post' rfl

/-- The target of the copy of a hard link is the one that is written. -/
theorem copyOf_link {q : Path} {o : FilteredEntry} (h : copyOf e q = .ok o)
    (hty : e.header.entryType = .link) : ∃ t, e.linkTarget = some t ∧ o.readLink = some t := by
  obtain ⟨_, _, hrecord⟩ := copyOf_fields h
  rw [copyOf] at h
  obtain ⟨pax, hpax, h⟩ := result_bind_eq_ok.mp h
  rw [hty] at h
  obtain ⟨target, htarget, h⟩ := result_bind_eq_ok.mp h
  cases h
  cases hlink : e.link with
  | missing =>
      rw [hlink] at htarget
      cases htarget
  | notUtf8 =>
      rw [hlink] at htarget
      cases htarget
  | utf8 text =>
      rw [hlink] at htarget
      obtain rfl := Except.ok.inj htarget
      refine ⟨_, by rw [LayerEntry.linkTarget, hlink], ?_⟩
      rw [FilteredEntry.readLink, hrecord]
      cases e.paxRecord "linkpath" with
      | none => rfl
      | some t => rfl

/-- An entry that is not copied asks for nothing. -/
theorem targetWritten_of_not_copied (h : ∀ n, ¬ e.CopiedTo config n) : TargetWritten config es e :=
  fun n _ hn => absurd hn (h n)

/-- **One round of the loop** keeps the links closed exactly when the target of a copied link
    is there. -/
theorem Filtered.closed_step (h : Filtered config es w) (hfate : Fate config e w w') :
    Closed w'.out ↔ Closed w.out ∧ TargetWritten config es e := by
  have hnot : ∀ {t : Path}, e.repoTarget = some t → ∀ n, ¬ e.CopiedTo config n :=
    fun ht n hn => nomatch hn.2.1.symm.trans ht
  cases hfate with
  | stashed hs =>
      exact (and_iff_left (targetWritten_of_not_copied fun n hn => hn.1 hs)).symm
  | @moved t header data ht hc =>
      rw [and_iff_left (targetWritten_of_not_copied (hnot ht))]
      refine closed_snoc.trans (and_iff_left fun hty => ?_)
      exact nomatch hty.symm.trans (h.regular t header data hc)
  | @relinked t realTarget ht hc hn =>
      rw [and_iff_left (targetWritten_of_not_copied (hnot ht))]
      refine closed_snoc.trans (and_iff_left fun _ => ?_)
      obtain ⟨o', ho', hread⟩ := h.targets t realTarget hn
      exact ⟨realTarget, rfl, o', ho', by rw [hread]⟩
  | unhandled ht hc hn => exact (and_iff_left (targetWritten_of_not_copied (hnot ht))).symm
  | dropped hs ht hn =>
      refine (and_iff_left (targetWritten_of_not_copied fun n hcopied => ?_)).symm
      exact nomatch hn.symm.trans hcopied.2.2
  | copied hcopied ho =>
      obtain ⟨_, hheader, _⟩ := copyOf_fields ho
      refine closed_snoc.trans (and_congr_right fun _ => ?_)
      rw [hheader]
      constructor
      · intro hclosed n t _ hty ht
        obtain ⟨t', hread, o', ho', heq⟩ := hclosed hty
        obtain ⟨t'', ht'', hread'⟩ := copyOf_link ho hty
        obtain rfl := Option.some.inj (ht.symm.trans ht'')
        obtain rfl := Option.some.inj (hread.symm.trans hread')
        exact ⟨o'.readPath, (h.paths _).mp ⟨o', ho', rfl⟩, heq⟩
      · intro hwritten hty
        obtain ⟨t, ht, hread⟩ := copyOf_link ho hty
        obtain ⟨q, hq, heq⟩ := hwritten _ t hcopied hty ht
        obtain ⟨o', ho', rfl⟩ := (h.paths q).mpr hq
        exact ⟨t, hread, o', ho', heq⟩

/-- **`filter_tar` keeps hard links closed** exactly when for each one that is copied an entry
    before it is written at its target; it does so then also when it fails half-way. -/
theorem filterTar_closed_iff (tar : TarBuilder) (config : TarImportConfig)
    (src : List (Except String LayerEntry)) :
    (∀ counts, (filterTar tar config src).2 = .ok counts →
      (Closed (filterTar tar config src).1 ↔ TargetsWritten config (entriesOf src))) ∧
    (TargetsWritten config (entriesOf src) → Closed (filterTar tar config src).1) := by
  obtain ⟨pre, post, w, hsrc, ⟨_, hw⟩, hout, hok⟩ := @filterTar_run tar config src
    (fun es w => Filtered config es w ∧ (Closed w.out ↔ TargetsWritten config es))
    ⟨filtered_init config, iff_of_true closed_nil (fun pre e post h => absurd h (by simp))⟩
    (fun es e w w' ⟨h, hiff⟩ hfate =>
      ⟨h.step hfate, by rw [h.closed_step hfate, hiff, targetsWritten_snoc]⟩)
  constructor
  · intro counts hcounts
    have hall : entriesOf src = pre := by rw [hsrc, hok counts hcounts, List.append_nil]
    rw [← hout, hw, hall]
  · intro htargets
    rw [← hout, hw]
    rintro a e b rfl
    exact htargets a e (b ++ post) (by rw [hsrc]; simp)

end Run

-- ── Links in `etc` and in `var` ───────────────────────────────────────────────

/-- A file. -/
def layerFile (path : String) : LayerEntry where
  path := some path
  header := { entryType := .regular, uid := 0, gid := 0, mode := 0o644, size := 3 }
  data := [104, 105, 10]

/-- A hard link. -/
def layerLink (path target : String) : LayerEntry where
  path := some path
  header := { entryType := .link, uid := 0, gid := 0, mode := 0o644, size := 0 }
  headerLink := .utf8 target
  link := .utf8 target

/-- A list of a file and a hard link has one hard link. -/
theorem linkedFile_split {file link e : LayerEntry} {pre post : List LayerEntry}
    (hfile : file.header.entryType = .regular) (hsplit : [file, link] = pre ++ e :: post)
    (hty : e.header.entryType = .link) : pre = [file] ∧ e = link := by
  cases pre with
  | nil =>
      obtain ⟨rfl, _⟩ := List.cons.inj hsplit
      exact nomatch hfile.symm.trans hty
  | cons e₀ pre =>
      obtain ⟨rfl, hrest⟩ := List.cons.inj hsplit
      cases pre with
      | nil =>
          obtain ⟨rfl, _⟩ := List.cons.inj hrest
          exact ⟨rfl, rfl⟩
      | cons e₁ pre => exact absurd (List.cons.inj hrest).2 (by simp)

theorem etcLink_written : TargetsWritten {} [layerFile "etc/foo", layerLink "etc/bar" "etc/foo"] := by
  intro pre e post hsplit n t _ hty ht
  obtain ⟨rfl, rfl⟩ := linkedFile_split rfl hsplit hty
  have hcopied : (layerFile "etc/foo").CopiedTo {}
      [.curDir, .normal "usr", .normal "etc", .normal "foo"] :=
    ⟨(fun hs => nomatch hs.2.1), by decide +kernel, by decide +kernel⟩
  have htarget : (layerLink "etc/bar" "etc/foo").linkTarget
      = some [.normal "usr", .normal "etc", .normal "foo"] := by decide +kernel
  refine ⟨_, ⟨[], _, [], rfl, .inl ⟨_, hcopied, rfl⟩⟩, ?_⟩
  rw [← Option.some.inj (htarget.symm.trans ht)]
  rfl

/-- Links in `etc` are closed: the target goes where the file goes. -/
theorem etcLink_closed :
    TargetsWritten {} [layerFile "etc/foo", layerLink "etc/bar" "etc/foo"] ∧
    Closed (filterTar sampleBuilder {} [.ok (layerFile "etc/foo"),
      .ok (layerLink "etc/bar" "etc/foo")]).1 :=
  ⟨etcLink_written, (filterTar_closed_iff sampleBuilder {} _).2 etcLink_written⟩

/-- **Links in `var` are not closed** when it is moved: the target stays behind. -/
theorem varLink_not_closed :
    LayerClosed [layerFile "var/foo", layerLink "var/bar" "var/foo"] ∧
    ¬ Closed (filterTar sampleBuilder { remapFactoryVar := true } [.ok (layerFile "var/foo"),
      .ok (layerLink "var/bar" "var/foo")]).1 := by
  have hout : ((filterTar sampleBuilder { remapFactoryVar := true } [.ok (layerFile "var/foo"),
      .ok (layerLink "var/bar" "var/foo")]).1).map
        (fun o => (o.header.entryType, o.readPath, o.readLink)) =
      [(.regular, [.curDir, .normal "usr", .normal "share", .normal "factory", .normal "var",
          .normal "foo"], none),
        (.link, [.curDir, .normal "usr", .normal "share", .normal "factory", .normal "var",
          .normal "bar"], some [.normal "var", .normal "foo"])] := by
    decide +kernel
  constructor
  · intro pre e post hsplit hty
    obtain ⟨rfl, rfl⟩ := linkedFile_split rfl hsplit hty
    exact ⟨_, rfl, _, List.mem_singleton_self _, nofun, by decide +kernel⟩
  · intro h
    obtain ⟨o₁, rest, hsplit, h₁, hrest⟩ := List.map_eq_cons_iff.mp hout
    obtain ⟨o₂, rest, rfl, h₂, _⟩ := List.map_eq_cons_iff.mp hrest
    obtain ⟨hty, hread⟩ := Prod.mk.inj h₂
    obtain ⟨t, ht, o', ho', heq⟩ := h [o₁] o₂ rest hsplit hty
    rw [List.mem_singleton.mp ho', (Prod.mk.inj (Prod.mk.inj h₁).2).1] at heq
    rw [← Option.some.inj ((Prod.mk.inj hread).2.symm.trans ht)] at heq
    exact absurd heq (by decide)

end OstreeExt.Tar
