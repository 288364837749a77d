import OstreeExt.Tar.Replay

/-!
# Importing again

A stream that was imported once can be imported into every repository that has the objects the
first import left behind: it succeeds with the same result and adds no object, although it
takes the early exit for content objects that are there already (`import_again`).  The result
of an object set is a function of the set of content objects that the stream names
(`importObjects_result`).
-/

namespace OstreeExt.Tar

open OstreeExt Exec Std

-- ── A replayed repository ──────────────────────────────────────────────────────

/-- The second run's repository, `r'`, while the first run is at `r`: it still is `T`, except
    for detached metadata that both runs have written. -/
structure Replayed (T r r' : Repo) : Prop where
  objects : r'.toObjects = T.toObjects
  refs : r'.refs = T.refs
  commitmetas : ∀ k : Checksum, r'.commitmetas[k]? = T.commitmetas[k]? ∨
    ∃ d, r'.commitmetas[k]? = some d ∧ r.commitmetas[k]? = some d

theorem Replayed.refl (T r : Repo) : Replayed T r T := ⟨rfl, rfl, fun _ => .inl rfl⟩

/-- No object is there that was not there before: the objects and the refs are the same, and so
    is the detached metadata if it was what the first import wrote. -/
structure AddsNothing (first T T' : Repo) : Prop where
  objects : T'.toObjects = T.toObjects
  refs : T'.refs = T.refs
  commitmetas : (∀ (k : Checksum) d, first.commitmetas[k]? = some d → T.commitmetas[k]? = some d) →
    T'.commitmetas = T.commitmetas

theorem Replayed.addsNothing {T r r' : Repo} (h : Replayed T r r') : AddsNothing r T r' where
  objects := h.objects
  refs := h.refs
  commitmetas := by
    intro hmetas
    apply ExtTreeMap.ext_getElem?
    intro k
    rcases h.commitmetas k with heq | ⟨d, hd, hfirst⟩
    · exact heq
    · rw [hd, hmetas k d hfirst]

/-- Storing an object that the second repository has already. -/
theorem insertIfNew_covered {α : Type} {m t : ExtTreeMap Checksum α} {c : Checksum} {v : α}
    (h : ∀ (k : Checksum) w, (m.insertIfNew c v)[k]? = some w → t[k]? = some w) : c ∈ t := by
  rw [ExtTreeMap.mem_iff_lookup]
  have hmem : c ∈ m.insertIfNew c v := ExtTreeMap.mem_insertIfNew_iff.mpr (.inr rfl)
  obtain ⟨w, hw⟩ := ExtTreeMap.mem_iff_lookup.mp hmem
  exact ⟨w, h c w hw⟩

section Writes

variable {lib : Libostree} {T r r' : Repo}

theorem Replayed.dirtree (h : Replayed T r r') {ev : RepoEvent} {c : Checksum} {d : DirTree}
    (hg : (Repo.record ev { r with dirtrees := r.dirtrees.insertIfNew c d }).toObjects.Keeps
      T.toObjects) :
    Replayed T (Repo.record ev { r with dirtrees := r.dirtrees.insertIfNew c d })
      (Repo.record ev { r' with dirtrees := r'.dirtrees.insertIfNew c d }) where
  objects := by
    have hc : c ∈ r'.toObjects.dirtrees := by
      rw [h.objects]
      exact insertIfNew_covered hg.dirtrees
    show { r'.toObjects with dirtrees := r'.toObjects.dirtrees.insertIfNew c d } = T.toObjects
    rw [ExtTreeMap.insertIfNew_of_mem hc]
    exact h.objects
  refs := h.refs
  commitmetas := h.commitmetas

theorem Replayed.dirmeta (h : Replayed T r r') {ev : RepoEvent} {c : Checksum} {m : DirMeta}
    (hg : (Repo.record ev { r with dirmetas := r.dirmetas.insertIfNew c m }).toObjects.Keeps
      T.toObjects) :
    Replayed T (Repo.record ev { r with dirmetas := r.dirmetas.insertIfNew c m })
      (Repo.record ev { r' with dirmetas := r'.dirmetas.insertIfNew c m }) where
  objects := by
    have hc : c ∈ r'.toObjects.dirmetas := by
      rw [h.objects]
      exact insertIfNew_covered hg.dirmetas
    show { r'.toObjects with dirmetas := r'.toObjects.dirmetas.insertIfNew c m } = T.toObjects
    rw [ExtTreeMap.insertIfNew_of_mem hc]
    exact h.objects
  refs := h.refs
  commitmetas := h.commitmetas

theorem Replayed.file (h : Replayed T r r') {ev : RepoEvent} {c : Checksum} {o : FileObject}
    (hg : (Repo.record ev { r with files := r.files.insertIfNew c o }).toObjects.Keeps
      T.toObjects) :
    Replayed T (Repo.record ev { r with files := r.files.insertIfNew c o })
      (Repo.record ev { r' with files := r'.files.insertIfNew c o }) where
  objects := by
    have hc : c ∈ r'.toObjects.files := by
      rw [h.objects]
      exact insertIfNew_covered hg.files
    show { r'.toObjects with files := r'.toObjects.files.insertIfNew c o } = T.toObjects
    rw [ExtTreeMap.insertIfNew_of_mem hc]
    exact h.objects
  refs := h.refs
  commitmetas := h.commitmetas

theorem Replayed.commit (h : Replayed T r r') {ev : RepoEvent} {c : Checksum} {commit : Commit}
    (hg : (Repo.record ev { r with commits := r.commits.insertIfNew c commit }).toObjects.Keeps
      T.toObjects) :
    Replayed T (Repo.record ev { r with commits := r.commits.insertIfNew c commit })
      (Repo.record ev { r' with commits := r'.commits.insertIfNew c commit }) where
  objects := by
    have hc : c ∈ r'.toObjects.commits := by
      rw [h.objects]
      exact insertIfNew_covered hg.commits
    show { r'.toObjects with commits := r'.toObjects.commits.insertIfNew c commit } = T.toObjects
    rw [ExtTreeMap.insertIfNew_of_mem hc]
    exact h.objects
  refs := h.refs
  commitmetas := h.commitmetas

/-- Detached metadata is written in both runs. -/
theorem Replayed.commitmeta (h : Replayed T r r') {ev : RepoEvent} {c : Checksum} {d : Dict} :
    Replayed T (Repo.record ev { r with commitmetas := r.commitmetas.insert c d })
      (Repo.record ev { r' with commitmetas := r'.commitmetas.insert c d }) where
  objects := h.objects
  refs := h.refs
  commitmetas := by
    intro k
    show (r'.commitmetas.insert c d)[k]? = _ ∨ ∃ d', (r'.commitmetas.insert c d)[k]? = _ ∧
      (r.commitmetas.insert c d)[k]? = _
    rw [ExtTreeMap.lookup_insert, ExtTreeMap.lookup_insert]
    by_cases hk : c = k
    · rw [if_pos hk, if_pos hk]
      exact .inr ⟨d, rfl, rfl⟩
    · rw [if_neg hk, if_neg hk]
      exact h.commitmetas k

/-- A repository that has all the objects takes every write again. -/
theorem matchesWrites_replayed (lib : Libostree) (T : Repo) :
    MatchesWrites lib (fun r => r.toObjects.Keeps T.toObjects) (Replayed T) where
  back _ _ h hg := h.keeps.trans hg
  dirtree c d := by
    intro r r' a s h hrun hg
    obtain ⟨hsum, rfl, rfl⟩ := Repo.writeDirtree_ok hrun
    exact ⟨_, Repo.writeDirtree_run hsum r', h.dirtree hg⟩
  dirmeta c m := by
    intro r r' a s h hrun hg
    obtain ⟨hsum, rfl, rfl⟩ := Repo.writeDirmeta_ok hrun
    exact ⟨_, Repo.writeDirmeta_run hsum r', h.dirmeta hg⟩
  file c o := by
    intro r r' a s h hrun hg
    obtain ⟨hsum, rfl, rfl⟩ := Repo.writeFile_ok hrun
    exact ⟨_, Repo.writeFile_run hsum r', h.file hg⟩
  has r r' c h hg hc := by
    rw [h.objects]
    obtain ⟨o, ho⟩ := ExtTreeMap.mem_iff_lookup.mp hc
    exact ExtTreeMap.mem_iff_lookup.mpr ⟨o, hg.files c o ho⟩
  skip r r' s c o h _ hrun _ := by
    obtain ⟨_, _, rfl⟩ := Repo.writeFile_ok hrun
    exact ⟨h.objects, h.refs, h.commitmetas⟩

end Writes

-- ── A commit, again ───────────────────────────────────────────────────────────

section Commit

variable {lib : Libostree} {T : Repo} {c : Checksum}

/-- The goal of the first run: the second repository has its objects. -/
def HasObjects (T r : Repo) : Prop := r.toObjects.Keeps T.toObjects

theorem follows_writePartialCommit (commit : Commit) :
    Follows (Within (HasObjects T)) (Alike (Replayed T)) (writePartialCommit lib c commit)
      (writePartialCommit lib c commit) := by
  intro imp imp' u out hst hrun hg
  by_cases hsum : lib.commitChecksum commit = c
  · rw [writePartialCommit_run hsum] at hrun
    cases hrun
    refine ⟨_, writePartialCommit_run hsum imp', ?_, hst.xattrs, hst.nextXattrs, hst.data⟩
    have hmarked : Replayed T
        (Repo.record (.markedPartial c true)
          { imp.repo with partialCommits := insert c imp.repo.partialCommits })
        (Repo.record (.markedPartial c true)
          { imp'.repo with partialCommits := insert c imp'.repo.partialCommits }) :=
      ⟨hst.repo.objects, hst.repo.refs, hst.repo.commitmetas⟩
    exact hmarked.commit hg
  · obtain ⟨stop, hstop⟩ := writePartialCommit_refused hsum imp
    rw [hstop] at hrun
    cases hrun

theorem follows_writeCommitDetachedMetadata (d : Dict) :
    Follows (Within (HasObjects T)) (Alike (Replayed T))
      (onRepo (Repo.writeCommitDetachedMetadata c d))
      (onRepo (Repo.writeCommitDetachedMetadata c d)) := by
  apply follows_onRepo
  intro r r' u s h hrun _
  cases hrun
  exact ⟨_, rfl, h.commitmeta⟩

/-- No object goes away. -/
def Grows (imp imp' : Importer) : Prop := imp.repo.toObjects.Keeps imp'.repo.toObjects

theorem Grows.trans (a b c : Importer) (h : Grows a b) (h' : Grows b c) : Grows a c :=
  Objects.Keeps.trans h h'

theorem grows_of_harmless {α : Type} {x : ImportM α} (h : Steps HarmlessStep x) : Steps Grows x :=
  fun imp => (h imp).keeps

theorem back_of_grows {α : Type} {x : ImportM α} (h : Steps Grows x) :
    Steps (fun imp imp' => Within (HasObjects T) imp' → Within (HasObjects T) imp) x :=
  fun imp hg => Objects.Keeps.trans (h imp) hg

/-- The object after the commit, read: metadata is written for the commit, any other object is
    imported. -/
theorem importNextRead_grows (e : Entry) (path : Path) (p : Checksum × ObjectType) : Steps Grows
    (if p.2 = .commitMeta then do
        let d ← liftR (entryToVariant lib.dict e p.1)
        onRepo (Repo.writeCommitDetachedMetadata c d)
      else importObject lib e path : ImportM Unit) := by
  split
  · intro imp
    cases entryToVariant lib.dict e p.1 with
    | ok d => exact Objects.Keeps.refl _
    | error stop => exact Objects.Keeps.refl _
  · exact grows_of_harmless (importObject_harmless path)

theorem importNextObject_eq (e : Entry) (path : Path) : importNextObject lib c e path = (do
    let p ← liftR (parseMetadataEntry path)
    if p.2 = .commitMeta then
      let d ← liftR (entryToVariant lib.dict e p.1)
      onRepo (Repo.writeCommitDetachedMetadata c d)
    else importObject lib e path : ImportM Unit) := by
  rw [importNextObject]
  congr 1
  funext p
  obtain ⟨x, ty⟩ := p
  cases ty <;> rfl

theorem importNextObject_grows (e : Entry) (path : Path) :
    Steps Grows (importNextObject lib c e path) := by
  rw [importNextObject_eq]
  exact Steps.bind Grows.trans (grows_of_harmless (liftR_harmless _))
    (fun p => importNextRead_grows e path p)

theorem follows_importNextObject (e : Entry) (path : Path) :
    Follows (Within (HasObjects T)) (Alike (Replayed T)) (importNextObject lib c e path)
      (importNextObject lib c e path) := by
  rw [importNextObject_eq]
  refine Follows.bind (follows_liftR _)
    (fun p => back_of_grows (importNextRead_grows e path p)) (fun p => ?_)
  split
  · exact Follows.bind (follows_liftR _) (fun _ => back_of_grows (fun imp => Objects.Keeps.refl _))
      (fun d => follows_writeCommitDetachedMetadata d)
  · exact follows_importObject (matchesWrites_replayed lib T) path

/-- What a successful `import_commit` has read at the head of the stream. -/
theorem importCommit_ok_head {s : Stream} {imp out : Importer} {u : Unit}
    (h : importCommit lib s imp = .ok u out) :
    ∃ commitEnt commitPath nextEnt nextPath rest next checksum commit,
      filterEntries s = .ok (commitEnt, commitPath) :: .ok (nextEnt, nextPath) :: rest ∧
      parseMetadataEntry commitPath = .ok (checksum, .commit) ∧
      commitEnt.header.entryType = .regular ∧
      entryToVariant lib.commit commitEnt checksum = .ok commit ∧
      parseMetadataEntry nextPath = .ok next := by
  obtain ⟨_, i, hfresh, h₁⟩ := bind_ok h
  obtain ⟨⟨⟨commitEnt, commitPath⟩, ents⟩, hents, h₂⟩ := liftR_bind_ok h₁
  dsimp only at h₂
  split at h₂
  · cases h₂
  next hty =>
  obtain ⟨⟨checksum, ty⟩, hparse, h₃⟩ := liftR_bind_ok h₂
  dsimp only at h₃
  split at h₃
  · cases h₃
  next hobj =>
  rw [ne_eq, not_not] at hty hobj
  subst hobj
  obtain ⟨commit, hcommit, h₄⟩ := liftR_bind_ok h₃
  obtain ⟨⟨⟨nextEnt, nextPath⟩, rest⟩, hnext, h₅⟩ := liftR_bind_ok h₄
  obtain ⟨next, hparse', _⟩ := liftR_bind_ok h₅
  refine ⟨commitEnt, commitPath, nextEnt, nextPath, rest, next, checksum, commit, ?_, hparse, hty,
    hcommit, hparse'⟩
  rw [nextEntry_ok hents, nextEntry_ok hnext]

/-- The commit that was imported is recorded. -/
abbrev setData (checksum : Checksum) : ImportM PUnit :=
  modify fun imp => { imp with data := .commit (some checksum) }

theorem setData_harmless (checksum : Checksum) : Steps HarmlessStep (setData checksum) :=
  fun imp => Harmless.refl imp.repo

theorem follows_setData (checksum : Checksum) :
    Follows (Within (HasObjects T)) (Alike (Replayed T)) (setData checksum) (setData checksum) := by
  apply Follows.update
  intro imp imp' h
  exact ⟨h.repo, h.xattrs, h.nextXattrs, rfl⟩

/-- `finish_import_commit` reads off the imported commit. -/
theorem finishImportCommit_ok_iff {imp out : Importer} :
    finishImportCommit imp = .ok c out ↔ imp.data = .commit (some c) ∧ out = imp := by
  obtain ⟨repo, remote, xattrs, nextXattrs, data⟩ := imp
  constructor
  · intro h
    cases data with
    | commit o =>
        cases o with
        | none => cases h
        | some x =>
            cases h
            exact ⟨rfl, rfl⟩
    | objectSet objset => cases h
  · rintro ⟨hdata, rfl⟩
    cases hdata
    rfl

/-- A commit imports again. -/
theorem importCommit_replayed {s : Stream} {R : Repo} {out : Importer} {u : Unit}
    (h : importCommit lib s (.newForCommit none R) = .ok u out) (hT : HasObjects T out.repo) :
    ∃ out', importCommit lib s (.newForCommit none T) = .ok u out' ∧
      Alike (Replayed T) out out' := by
  obtain ⟨commitEnt, commitPath, nextEnt, nextPath, rest, next, checksum, commit, hents, hparse,
    hty, hcommit, hnext⟩ := importCommit_ok_head h
  have hw := matchesWrites_replayed lib T
  rw [importCommit_eq_head hents hnext hparse hty hcommit] at h ⊢
  have hstart : Alike (Replayed T) (.newForCommit none R) (.newForCommit none T) :=
    ⟨Replayed.refl T R, rfl, rfl, rfl⟩
  have hhead : Follows (Within (HasObjects T)) (Alike (Replayed T))
      (importUnverified lib checksum commit nextEnt nextPath)
      (importUnverified lib checksum commit nextEnt nextPath) := by
    refine Follows.bind (follows_writePartialCommit commit) (fun _ => ?_)
      (fun _ => follows_importNextObject nextEnt nextPath)
    exact back_of_grows (importNextObject_grows nextEnt nextPath)
  have hrest : Follows (Within (HasObjects T)) (Alike (Replayed T))
      (setData checksum >>= fun _ => importObjectsImpl lib rest)
      (setData checksum >>= fun _ => importObjectsImpl lib rest) :=
    follows_bind hw (follows_setData checksum) (fun _ => importObjectsImpl_harmless rest)
      (fun _ => follows_importObjectsImpl hw rest)
  have hall := Follows.bind hhead (fun _ => back_of_grows (grows_of_harmless
    (Steps.bind HarmlessStep.trans (setData_harmless checksum)
      (fun _ => importObjectsImpl_harmless rest)))) (fun _ => hrest)
  have hnone := fun repo => bind_congr_start
    (@importHead_none lib checksum commit nextEnt nextPath next repo)
    (fun _ => setData checksum >>= fun _ => importObjectsImpl lib rest)
  obtain ⟨out', hrun, halike⟩ := hall _ _ u out hstart ((hnone R).symm.trans h) hT
  exact ⟨out', (hnone T).trans hrun, halike⟩

end Commit

-- ── An object set, again ──────────────────────────────────────────────────────

section ObjectSet

variable {lib : Libostree} {T : Repo}

theorem follows_importObjects (s : Stream) :
    Follows (Within (HasObjects T)) (Alike (Replayed T)) (importObjects lib s) (importObjects lib s) :=
  follows_importObjectsImpl (matchesWrites_replayed lib T) (filterEntries s)

/-- The objects of the synthetic commit are written again. -/
theorem Replayed.objectSet {r r' : Repo} (h : Replayed T r r') (objset : ExtTreeSet Checksum)
    (hg : HasObjects T (objectSetRepo lib objset r)) :
    Replayed T (objectSetRepo lib objset r) (objectSetRepo lib objset r') := by
  -- each of the three writes keeps what is there, so the goal holds after each of them
  have hg₂ := (Objects.Keeps.insert_commit _ _ _).trans hg
  have hg₁ := (Objects.Keeps.insert_dirtree _ _ _).trans hg₂
  exact ((h.dirmeta hg₁).dirtree hg₂).commit hg

/-- The object set of a successful import, and its result. -/
theorem importObjectSet_ok {s : Stream} {R R₁ : Repo} {c : Checksum}
    (h : withImporter Importer.newForObjectSet (do
      importObjects lib s
      finishImportObjectSet lib) R = .ok c R₁) :
    ∃ imp objset, importObjects lib s (.newForObjectSet R) = .ok ⟨⟩ imp ∧
      imp.data = .objectSet objset ∧ c = lib.commitChecksum (objectSetCommit lib objset) ∧
      R₁ = objectSetRepo lib objset imp.repo := by
  obtain ⟨out, hrun, rfl⟩ := withImporter_eq_ok h
  obtain ⟨_, imp, himport, hfinish⟩ := bind_ok hrun
  cases hdata : imp.data with
  | commit o =>
      rw [finishImportObjectSet, bind_of_ok (get_run imp), hdata] at hfinish
      cases hfinish
  | objectSet objset =>
      rw [finishImportObjectSet_run hdata] at hfinish
      cases hfinish
      exact ⟨imp, objset, himport, hdata, rfl, rfl⟩

/-- An object set imports again. -/
theorem importObjectSet_replayed {s : Stream} {R R₁ : Repo} {c : Checksum}
    (h : withImporter Importer.newForObjectSet (do
      importObjects lib s
      finishImportObjectSet lib) R = .ok c R₁) (hT : HasObjects T R₁) :
    ∃ T', withImporter Importer.newForObjectSet (do
      importObjects lib s
      finishImportObjectSet lib) T = .ok c T' ∧ Replayed T R₁ T' := by
  obtain ⟨imp, objset, himport, hdata, rfl, rfl⟩ := importObjectSet_ok h
  have hstart : Alike (Replayed T) (.newForObjectSet R) (.newForObjectSet T) :=
    ⟨Replayed.refl T R, rfl, rfl, rfl⟩
  have hT₂ := (Objects.Keeps.insert_commit _ _ _).trans hT
  have hT₁ := (Objects.Keeps.insert_dirtree _ _ _).trans hT₂
  have hT₀ : HasObjects T imp.repo := (Objects.Keeps.insert_dirmeta _ _ _).trans hT₁
  obtain ⟨imp', himport', halike⟩ := follows_importObjects s _ _ ⟨⟩ imp hstart himport hT₀
  refine ⟨objectSetRepo lib objset imp'.repo, ?_, halike.repo.objectSet objset hT⟩
  exact withImporter_ok ((bind_of_ok (f := fun _ => finishImportObjectSet lib) himport').trans
    (finishImportObjectSet_run (halike.data.trans hdata)))

-- ── The result of an object set ───────────────────────────────────────────────

/-- The checksums of the content objects among some offered objects. -/
def filesOffered (xs : List (Checksum × String × Entry)) : List Checksum :=
  xs.filterMap fun x => if x.2.1 = "file" then some x.1 else none

/-- The checksums of the `.file` entries of a stream. -/
def fileChecksums (s : Stream) : List Checksum :=
  filesOffered ((filterEntries s).flatMap offerItem)

theorem filesOffered_append (xs ys : List (Checksum × String × Entry)) :
    filesOffered (xs ++ ys) = filesOffered xs ++ filesOffered ys :=
  List.filterMap_append

/-- The object set of an importer, `S` at first, has some more content objects in it. -/
def Tracked (S : ExtTreeSet Checksum) (cs : List Checksum) (imp : Importer) : Prop :=
  ∃ S', imp.data = .objectSet S' ∧ ∀ c, c ∈ S' ↔ c ∈ S ∨ c ∈ cs

theorem Tracked.none {S : ExtTreeSet Checksum} {imp : Importer} (h : imp.data = .objectSet S) :
    Tracked S [] imp :=
  ⟨S, h, by simp⟩

variable {e : Entry} {c : Checksum} {imp imp' : Importer} {u : Unit} {S : ExtTreeSet Checksum}

theorem trackImported_tracks (hdata : imp.data = .objectSet S)
    (h : trackImported c imp = .ok u imp') : Tracked S [c] imp' := by
  rw [trackImported, bind_of_ok (get_run imp), hdata] at h
  dsimp only at h
  rw [bind_of_ok (modify_run _ _)] at h
  split at h
  · cases h
  · cases h
    refine ⟨S.insert c, rfl, fun x => ?_⟩
    rw [ExtTreeSet.mem_insert, LawfulEqCmp.compare_eq_iff_eq, List.mem_singleton]
    exact or_comm.trans (or_congr_right eq_comm)

/-- **One object in object set mode.** -/
theorem importObjectAs_tracks {sfx : String} (hdata : imp.data = .objectSet S)
    (h : importObjectAs lib e c sfx imp = .ok u imp') :
    Tracked S (filesOffered [(c, sfx, e)]) imp' := by
  have hother : sfx ≠ "file" → filesOffered [(c, sfx, e)] = [] := fun hne => by
    simp [filesOffered, hne]
  rw [importObjectAs] at h
  split at h
  · cases h
  split at h
  · next hsfx =>
      obtain ⟨_, s, hc, htrack⟩ := bind_ok h
      have hfile : filesOffered [(c, sfx, e)] = [c] := by simp [filesOffered, hsfx]
      rw [hfile]
      exact trackImported_tracks ((importContentObject_adds hc).2.trans hdata) htrack
  next hsfx =>
  rw [hother hsfx]
  split at h
  · exact Tracked.none ((KeepsRepo.of_ok processFileXattrs_keepsRepo h).2.trans hdata)
  split at h
  · exact Tracked.none ((KeepsRepo.of_ok processFileXattrsLink_keepsRepo h).2.trans hdata)
  split at h
  · exact Tracked.none ((KeepsRepo.of_ok processXattrRef_keepsRepo h).2.trans hdata)
  -- metadata objects are refused
  obtain ⟨ty, _, h₁⟩ := liftR_bind_ok h
  rw [bind_of_ok (get_run imp), hdata] at h₁
  cases h₁

theorem importObject_tracks {p : Path} (hdata : imp.data = .objectSet S)
    (h : importObject lib e p imp = .ok u imp') : Tracked S (filesOffered (offer e p)) imp' := by
  obtain ⟨⟨parentname, name, sfx⟩, hpath, h₁⟩ := liftR_bind_ok h
  obtain ⟨x, hsum, h₂⟩ := liftR_bind_ok h₁
  have hoffer : offer e p = [(x, sfx, e)] := by
    simp only [offer, objectOfPath, hpath, hsum]
    rfl
  rw [hoffer]
  exact importObjectAs_tracks hdata h₂

theorem importEntry_tracks {item : Except String (Entry × Path)} (hdata : imp.data = .objectSet S)
    (h : importEntry lib item imp = .ok u imp') :
    Tracked S (filesOffered (offerItem item)) imp' := by
  cases item with
  | error m => cases h
  | ok ep =>
      obtain ⟨e, p⟩ := ep
      simp only [importEntry] at h
      simp only [offerItem]
      cases hp : stripPrefix [Component.normal "objects"] p with
      | some q =>
          rw [hp] at h
          exact importObject_tracks hdata h
      | none =>
          rw [hp] at h
          dsimp only at h
          split at h
          · exact Tracked.none ((KeepsRepo.of_ok processSplitXattrsContent_keepsRepo h).2.trans hdata)
          · cases h
            exact Tracked.none hdata

/-- **The whole loop** tracks exactly the content objects that the entries name. -/
theorem importObjectsImpl_tracks {ents : List (Except String (Entry × Path))}
    (hdata : imp.data = .objectSet S) (h : importObjectsImpl lib ents imp = .ok u imp') :
    Tracked S (filesOffered (ents.flatMap offerItem)) imp' := by
  rw [importObjectsImpl] at h
  induction ents generalizing imp S with
  | nil =>
      cases h
      exact Tracked.none hdata
  | cons item ents ih =>
      rw [List.forM_cons] at h
      obtain ⟨_, s, hitem, h₁⟩ := bind_ok h
      obtain ⟨S₁, hs, hmem⟩ := importEntry_tracks hdata hitem
      obtain ⟨S₂, hout, hmem'⟩ := ih hs h₁
      refine ⟨S₂, hout, fun x => ?_⟩
      rw [hmem', hmem, List.flatMap_cons, filesOffered_append, List.mem_append, or_assoc]

/-- **The result of an object set is a function of the content objects it names.** -/
theorem importObjects_result {s : Stream} {R R₁ : Repo}
    (h : withImporter Importer.newForObjectSet (do
      importObjects lib s
      finishImportObjectSet lib) R = .ok c R₁) :
    c = lib.commitChecksum (objectSetCommit lib (ExtTreeSet.ofList (fileChecksums s))) := by
  obtain ⟨imp, objset, himport, hdata, rfl, rfl⟩ := importObjectSet_ok h
  obtain ⟨S, hS, hmem⟩ := importObjectsImpl_tracks (S := ∅) rfl himport
  obtain rfl : objset = S := ImporterMode.objectSet.inj (hdata.symm.trans hS)
  congr 2
  apply ExtTreeSet.ext_mem
  intro x
  rw [hmem, ExtTreeSet.mem_ofList]
  simp [fileChecksums]

end ObjectSet

/-- **Importing again** succeeds with the same result and adds nothing, in every repository
    `T` that has the objects which the first import left: for a commit without a remote and
    for an object set.  Two imports of object sets whose streams name the same content objects
    have the same result. -/
theorem import_again (lib : Libostree) (s : Stream) (R R₁ : Repo) (c : Checksum) :
    (withImporter (Importer.newForCommit none) (do
        importCommit lib s
        finishImportCommit) R = .ok c R₁ →
      ∀ T : Repo, R₁.toObjects.Keeps T.toObjects → ∃ T',
        withImporter (Importer.newForCommit none) (do
          importCommit lib s
          finishImportCommit) T = .ok c T' ∧ AddsNothing R₁ T T') ∧
    (withImporter Importer.newForObjectSet (do
        importObjects lib s
        finishImportObjectSet lib) R = .ok c R₁ →
      (∀ T : Repo, R₁.toObjects.Keeps T.toObjects → ∃ T',
        withImporter Importer.newForObjectSet (do
          importObjects lib s
          finishImportObjectSet lib) T = .ok c T' ∧ AddsNothing R₁ T T') ∧
      ∀ (s' : Stream) (R' R₁' : Repo) (c' : Checksum),
        withImporter Importer.newForObjectSet (do
          importObjects lib s'
          finishImportObjectSet lib) R' = .ok c' R₁' →
        (∀ x, x ∈ fileChecksums s' ↔ x ∈ fileChecksums s) → c' = c) := by
  refine ⟨fun h T hT => ?_, fun h => ⟨fun T hT => ?_, fun s' R' R₁' c' h' hsame => ?_⟩⟩
  · obtain ⟨out, hrun, rfl⟩ := withImporter_eq_ok h
    obtain ⟨_, imp, himport, hfinish⟩ := bind_ok hrun
    obtain ⟨hdata, rfl⟩ := finishImportCommit_ok_iff.mp hfinish
    obtain ⟨imp', himport', halike⟩ := importCommit_replayed himport hT
    refine ⟨imp'.repo, withImporter_ok ((bind_of_ok himport').trans ?_), halike.repo.addsNothing⟩
    exact finishImportCommit_ok_iff.mpr ⟨halike.data.trans hdata, rfl⟩
  · obtain ⟨T', hrun, hreplayed⟩ := importObjectSet_replayed h hT
    exact ⟨T', hrun, hreplayed.addsNothing⟩
  · rw [importObjects_result h, importObjects_result h']
    congr 2
    apply ExtTreeSet.ext_mem
    intro x
    rw [ExtTreeSet.mem_ofList, ExtTreeSet.mem_ofList]
    simpa using hsame x

/-- The signed commit, imported twice. -/
theorem signedStream_again : ∃ R₁ T',
    withImporter (Importer.newForCommit none) (do
      importCommit signedTables.lib (signedStream sampleCommitSum)
      finishImportCommit) {} = .ok sampleCommitSum R₁ ∧
    withImporter (Importer.newForCommit none) (do
      importCommit signedTables.lib (signedStream sampleCommitSum)
      finishImportCommit) R₁ = .ok sampleCommitSum T' ∧ AddsNothing R₁ R₁ T' := by
  obtain ⟨imp, himport, hdata⟩ := signedStream_imported isSha256_sampleCommitSum
  have hfirst : withImporter (Importer.newForCommit none) (do
      importCommit signedTables.lib (signedStream sampleCommitSum)
      finishImportCommit) {} = .ok sampleCommitSum imp.repo :=
    withImporter_ok ((bind_of_ok himport).trans (finishImportCommit_ok_iff.mpr ⟨hdata, rfl⟩))
  obtain ⟨T', hagain, hnothing⟩ := (import_again signedTables.lib (signedStream sampleCommitSum)
    {} imp.repo sampleCommitSum).1 hfirst imp.repo (Objects.Keeps.refl _)
  exact ⟨imp.repo, T', hfirst, hagain, hnothing⟩

end OstreeExt.Tar
