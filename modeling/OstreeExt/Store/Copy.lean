import OstreeExt.Store.Catalog
import OstreeExt.Store.Export
import OstreeExt.Store.Import
import OstreeExt.Tar.Distinct

/-!
# Copying an image

`copy` of `container/store.rs` pulls the layers of a stored image and its merge commit from one
repository into another one, and writes the ref of the image there when all of them have arrived.
**`copy_exact`**: the repository that is copied to stays whole, done or stopped, and its catalog
changes at one reference, where it is in the end as in the catalog of the source.
-/

namespace OstreeExt.Store

open OstreeExt Tar Exec Std

-- ── Pulling ───────────────────────────────────────────────────────────────────

/-- What a pull of one ref brings that is done: the commit with all that it reaches, no commits but
    those of the source, and the ref, unless it is the checksum of the commit. -/
structure Pulled (src : Repo) (ref : String) (r r' : Repo) (c : Checksum) : Prop where
  resolves : src.requireRev ref = .ok c
  keeps : r.toObjects.Keeps r'.toObjects
  commits : ∀ (x : Checksum) v, r'.commits[x]? = some v →
    r.commits[x]? = some v ∨ src.commits[x]? = some v
  complete : ∃ commit, r'.commits[c]? = some commit ∧ r'.Complete commit
  refs : r'.refs = if IsSha256 ref then r.refs else r.refs.insert ref c

/-- `ostree_repo_pull_with_options`, of one ref of a local repository and with the flag for mirrors.
    What a pull has stored by the time it fails stays, and the refs are not written. -/
structure LocalPull where
  run : Repo → String → RepoM Unit
  done : ∀ src ref r u r', run src ref r = .ok u r' → ∃ c, Pulled src ref r r' c
  failed : ∀ src ref r e r', run src ref r = .error e r' →
    r.toObjects.Keeps r'.toObjects ∧ r'.refs = r.refs

section Definitions

variable (pull : LocalPull)

/-- One round of the loop of `copy`. -/
def pullRef (src : Repo) (ostreeRef : Result String) : RepoM Unit := do
  let ostreeRef ← liftR ostreeRef
  pull.run src ostreeRef

/-- `copy` -/
def copy (src : Repo) (srcImgref destImgref : ImageReference) : RepoM Unit := do
  let srcOstreeRef ← liftR (refForImage srcImgref)
  let srcCommit ← liftR (src.requireRev srcOstreeRef)
  let manifest ← liftR (manifestForImage src srcImgref)
  let layerRefs := manifest.layers.map refForLayer ++ [.ok srcCommit]
  layerRefs.forM (pullRef pull src)
  let destOstreeRef ← liftR (refForImage destImgref)
  Repo.setRef destOstreeRef (some srcCommit)

end Definitions

-- ── The loop ──────────────────────────────────────────────────────────────────

/-- What the rounds over some refs have brought. -/
structure Arrived (src : Repo) (pulled : List (Result String)) (r s : Repo) : Prop where
  fetches : Fetches IsBlobRef r s
  commits : ∀ (x : Checksum) v, s.commits[x]? = some v →
    r.commits[x]? = some v ∨ src.commits[x]? = some v
  brought : ∀ a ∈ pulled, ∃ ref c commit, a = .ok ref ∧ src.requireRev ref = .ok c ∧
    s.commits[c]? = some commit ∧ s.Complete commit ∧ (¬ IsSha256 ref → s.refs[ref]? = some c)

section Loop

variable {pull : LocalPull} {src r s s' : Repo} {pulled : List (Result String)} {a : Result String}

theorem Arrived.start (src r : Repo) : Arrived src [] r r where
  fetches := Fetches.refl r
  commits _ _ h := .inl h
  brought _ h := absurd h (by simp)

/-- One round. -/
theorem Arrived.round (h : Arrived src pulled r s)
    (ha : ∀ ref, a = .ok ref → IsSha256 ref ∨ IsBlobRef ref)
    (hrun : pullRef pull src a s = .ok ⟨⟩ s') : Arrived src (pulled ++ [a]) r s' := by
  obtain ⟨ref, t, hlift, hpull⟩ := bind_ok hrun
  obtain ⟨rfl, rfl⟩ := liftR_eq_ok hlift
  obtain ⟨c, hpulled⟩ := pull.done _ _ _ _ _ hpull
  have hlookup : ∀ other, t.refs[other]? = s'.refs[other]? ∨
      other = ref ∧ ¬ IsSha256 ref ∧ s'.refs[other]? = some c := by
    intro other
    rw [hpulled.refs]
    by_cases hsha : IsSha256 ref
    · rw [if_pos hsha]
      exact .inl rfl
    · rw [if_neg hsha, ExtTreeMap.lookup_insert]
      by_cases heq : ref = other
      · exact .inr ⟨heq.symm, hsha, if_pos heq⟩
      · exact .inl (if_neg heq).symm
  constructor
  · refine h.fetches.trans ⟨hpulled.keeps, fun other => ?_⟩
    rcases hlookup other with heq | ⟨rfl, hsha, hc⟩
    · exact .inl heq.symm
    · exact .inr ⟨(ha other rfl).resolve_left hsha, ExtTreeMap.mem_iff_lookup.mpr ⟨c, hc⟩⟩
  · intro x v hv
    rcases hpulled.commits x v hv with hbefore | hsrc
    · exact h.commits x v hbefore
    · exact .inr hsrc
  · intro a ha
    rcases List.mem_append.mp ha with hbefore | hlast
    · obtain ⟨other, c', commit, rfl, hrev, hcommit, hcomplete, href⟩ := h.brought a hbefore
      refine ⟨other, c', commit, rfl, hrev, hpulled.keeps.commits c' commit hcommit,
        hcomplete.mono hpulled.keeps, fun hsha => ?_⟩
      rcases hlookup other with heq | ⟨rfl, -, hc⟩
      · exact heq.symm.trans (href hsha)
      · -- the ref was pulled before, and is the same one in the source
        obtain rfl : c' = c := Except.ok.inj (hrev.symm.trans hpulled.resolves)
        exact hc
    · obtain ⟨commit, hcommit, hcomplete⟩ := hpulled.complete
      refine ⟨ref, c, commit, List.mem_singleton.mp hlast, hpulled.resolves, hcommit, hcomplete,
        fun hsha => ?_⟩
      rw [hpulled.refs, if_neg hsha, ExtTreeMap.lookup_insert, if_pos rfl]

/-- A round that fails. -/
theorem pullRef_failed {e : Stop} (hrun : pullRef pull src a s = .error e s') :
    Fetches IsBlobRef s s' := by
  rcases bind_error hrun with hlift | ⟨ref, t, hlift, hpull⟩
  · cases a with
    | ok ref => cases hlift
    | error e' =>
        cases hlift
        exact Fetches.refl s
  · obtain ⟨-, rfl⟩ := liftR_eq_ok hlift
    obtain ⟨hkeeps, hrefs⟩ := pull.failed _ _ _ _ _ hpull
    exact .of_sameRefs hkeeps hrefs

/-- **The loop** has pulled everything, or has written refs of layers only. -/
theorem pullRefs_cases {refs : List (Result String)}
    (hrefs : ∀ a ∈ refs, ∀ ref, a = .ok ref → IsSha256 ref ∨ IsBlobRef ref) (r : Repo) :
    (∃ s, refs.forM (pullRef pull src) r = .ok ⟨⟩ s ∧ Arrived src refs r s) ∨
    ∃ e s, refs.forM (pullRef pull src) r = .error e s ∧ Fetches IsBlobRef r s := by
  have hround : ∀ pre a post t t', refs = pre ++ a :: post → Arrived src pre r t →
      pullRef pull src a t = .ok ⟨⟩ t' → Arrived src (pre ++ [a]) r t' := by
    intro pre a post t t' hl ht hrun
    refine ht.round (hrefs a ?_) hrun
    rw [hl]
    exact List.mem_append_right _ (List.mem_cons_self ..)
  rcases forM_reaches (fun pre s => Arrived src pre r s) (Arrived.start src r) hround with
    hdone | ⟨pre, a, post, t, e, s, -, ht, hfail, hrun⟩
  · exact .inl hdone
  · exact .inr ⟨e, s, hrun, ht.fetches.trans (pullRef_failed hfail)⟩

end Loop

-- ── The image ─────────────────────────────────────────────────────────────────

/-- The ref of an image whose layers are there is written. -/
theorem Whole.setImage {s : Repo} (h : Whole s) {j : ImageReference} {ref : String}
    (href : refForImage j = .ok ref) {c : Checksum} {m : ImageManifest}
    (hm : manifestOfCommit s c = .ok m) (hstored : LayersStored m.layers s) :
    Whole (finalState (Repo.setRef ref (some c) s)) := by
  have hlookup : ∀ other, (s.refs.insert ref c)[other]? = s.refs[other]? ∨
      other = ref ∧ (s.refs.insert ref c)[other]? = some c := by
    intro other
    rw [ExtTreeMap.lookup_insert]
    by_cases heq : ref = other
    · exact .inr ⟨heq.symm, if_pos heq⟩
    · exact .inl (if_neg heq)
  have hmono : ∀ {layers : List Descriptor}, LayersStored layers s →
      LayersStored layers (finalState (Repo.setRef ref (some c) s)) :=
    fun hlayers => hlayers.mono (fun _ _ _ _ hin => ExtTreeMap.mem_insert.mpr (.inr hin))
  constructor
  · intro other hin hunder
    obtain ⟨c', hc'⟩ := ExtTreeMap.mem_iff_lookup.mp hin
    rcases hlookup other with heq | ⟨rfl, -⟩
    · exact h.blobs other (ExtTreeMap.mem_iff_lookup.mpr ⟨c', heq.symm.trans hc'⟩) hunder
    · exact absurd (hunder.symm.trans (not_layer_of_image (refUnder_of_escape href))) (by simp)
  · intro other hin hunder
    obtain ⟨c', hc'⟩ := ExtTreeMap.mem_iff_lookup.mp hin
    rcases hlookup other with heq | ⟨rfl, -⟩
    · exact h.images other (ExtTreeMap.mem_iff_lookup.mpr ⟨c', heq.symm.trans hc'⟩) hunder
    · exact ⟨j, href⟩
  · intro other c' hc' hunder
    rcases hlookup other with heq | ⟨rfl, hc⟩
    · obtain ⟨m', hm', hlayers⟩ := h.complete other c' (heq.symm.trans hc') hunder
      exact ⟨m', hm', hmono hlayers⟩
    · obtain rfl : c' = c := Option.some.inj (hc'.symm.trans hc)
      exact ⟨m, hm, hmono hstored⟩

/-- What a copy has brought when it is done. -/
structure Copied (src : Repo) (i j : ImageReference) (r r' : Repo) : Prop where
  keeps : r.toObjects.Keeps r'.toObjects
  catalog : catalog r' = Function.update (catalog r) j (catalog src i)
  commit : ∃ ref destRef c commit, refForImage i = .ok ref ∧ refForImage j = .ok destRef ∧
    src.refs[ref]? = some c ∧ r'.refs[destRef]? = some c ∧ src.commits[c]? = some commit ∧
    r'.commits[c]? = some commit ∧ r'.Complete commit
  layers : ∃ m, manifestForImage src i = .ok m ∧ ∀ l ∈ m.layers, ∃ ref c commit,
    refForLayer l = .ok ref ∧ src.refs[ref]? = some c ∧ r'.refs[ref]? = some c ∧
    r'.commits[c]? = some commit ∧ r'.Complete commit

/-- No other commit is stored where the one of the image goes. -/
def CopyFits (src : Repo) (i : ImageReference) (r : Repo) : Prop :=
  ∀ ref c b, refForImage i = .ok ref → src.refs[ref]? = some c → r.commits[c]? = some b →
    src.commits[c]? = some b

/-- The refs of a repository name commits by their checksums. -/
def RefsAreChecksums (r : Repo) : Prop :=
  ∀ (ref : String) c, r.refs[ref]? = some c → IsSha256 c

section Copy

variable {pull : LocalPull} {src r : Repo} {i j : ImageReference}

/-- What the source says when the loop begins. -/
structure CopySource (src : Repo) (i : ImageReference) (ref : String) (c : Checksum)
    (commit : Commit) (m : ImageManifest) : Prop where
  named : refForImage i = .ok ref
  listed : src.refs[ref]? = some c
  stored : src.commits[c]? = some commit
  manifest : manifestOfCommit src c = .ok m

theorem CopySource.manifestForImage {ref : String} {c : Checksum} {commit : Commit}
    {m : ImageManifest} (h : CopySource src i ref c commit m) :
    manifestForImage src i = .ok m := by
  rw [Store.manifestForImage, h.named, bind_ok_eq, requireRev_of_escape h.named, h.listed,
    okOr_some, bind_ok_eq]
  exact h.manifest

/-- The refs that are pulled are those of the layers, and the merge commit. -/
theorem CopySource.pulls {ref : String} {c : Checksum} {commit : Commit} {m : ImageManifest}
    (h : CopySource src i ref c commit m) (hsums : RefsAreChecksums src) :
    ∀ a ∈ m.layers.map refForLayer ++ [.ok c], ∀ ref, a = .ok ref → IsSha256 ref ∨ IsBlobRef ref := by
  rintro a ha other rfl
  rcases List.mem_append.mp ha with hlayer | hlast
  · obtain ⟨l, -, hl⟩ := List.mem_map.mp hlayer
    exact .inr ⟨_, hl⟩
  · obtain rfl : other = c := Except.ok.inj (List.mem_singleton.mp hlast)
    exact .inl (hsums ref other h.listed)

/-- The loop and what comes after it. -/
def copyTo (pull : LocalPull) (src : Repo) (layers : List Descriptor) (c : Checksum)
    (j : ImageReference) : RepoM Unit := do
  (layers.map refForLayer ++ [Except.ok c]).forM (pullRef pull src)
  let destOstreeRef ← liftR (refForImage j)
  Repo.setRef destOstreeRef (some c)

theorem CopySource.copy_eq {ref : String} {c : Checksum} {commit : Commit} {m : ImageManifest}
    (h : CopySource src i ref c commit m) (pull : LocalPull) (j : ImageReference) (r : Repo) :
    copy pull src i j r = copyTo pull src m.layers c j r := by
  have hrev : src.requireRev ref = .ok c := by
    rw [requireRev_of_escape h.named, h.listed, okOr_some]
  rw [copy, h.named, bind_of_ok (liftR_ok _ _), hrev, bind_of_ok (liftR_ok _ _),
    h.manifestForImage, bind_of_ok (liftR_ok _ _)]
  rfl

/-- The image is readable in the source, or nothing happens. -/
theorem copy_starts (pull : LocalPull) (src : Repo) (i j : ImageReference) (r : Repo) :
    (∃ ref c commit m, CopySource src i ref c commit m ∧
      copy pull src i j r = copyTo pull src m.layers c j r) ∨
    ∃ e, copy pull src i j r = .error e r := by
  cases href : refForImage i with
  | error e => exact .inr ⟨e, by rw [copy, href]; rfl⟩
  | ok ref =>
      have hrev := requireRev_of_escape href src
      cases hc : src.refs[ref]? with
      | none =>
          rw [hc] at hrev
          exact .inr ⟨_, by rw [copy, href, bind_of_ok (liftR_ok _ _), hrev]; rfl⟩
      | some c =>
          rw [hc, okOr_some] at hrev
          have hread : manifestForImage src i = manifestOfCommit src c := by
            rw [manifestForImage, href, bind_ok_eq, hrev, bind_ok_eq]
          cases hm : manifestOfCommit src c with
          | error e =>
              refine .inr ⟨e, ?_⟩
              rw [copy, href, bind_of_ok (liftR_ok _ _), hrev, bind_of_ok (liftR_ok _ _), hread, hm]
              rfl
          | ok m =>
              obtain ⟨commit, hload, -⟩ := result_bind_eq_ok.mp hm
              have hsource : CopySource src i ref c commit m :=
                ⟨href, hc, okOr_eq_ok.mp hload, hm⟩
              exact .inl ⟨ref, c, commit, m, hsource, hsource.copy_eq pull j r⟩

/-- The merge commit has arrived as it is in the source. -/
theorem Arrived.mergeCommit {ref : String} {c : Checksum} {commit : Commit} {m : ImageManifest}
    {s : Repo} (hsource : CopySource src i ref c commit m) (hsums : RefsAreChecksums src)
    (hfits : CopyFits src i r) (h : Arrived src (m.layers.map refForLayer ++ [.ok c]) r s) :
    s.commits[c]? = some commit ∧ s.Complete commit := by
  obtain ⟨other, c', b, hother, hrev, hb, hcomplete, -⟩ :=
    h.brought (.ok c) (List.mem_append_right _ (List.mem_singleton.mpr rfl))
  obtain rfl : c = other := Except.ok.inj hother
  obtain rfl : c = c' := by
    rw [Repo.requireRev, if_pos (hsums ref c hsource.listed)] at hrev
    exact Except.ok.inj hrev
  have hsrc : src.commits[c]? = some b := (h.commits c b hb).elim
    (hfits ref c b hsource.named hsource.listed) (fun hsrc => hsrc)
  obtain rfl : b = commit := Option.some.inj (hsrc.symm.trans hsource.stored)
  exact ⟨hb, hcomplete⟩

/-- The layers have arrived under the refs that they have in the source. -/
theorem Arrived.layers {c : Checksum} {layers : List Descriptor} {s : Repo}
    (h : Arrived src (layers.map refForLayer ++ [.ok c]) r s) :
    ∀ l ∈ layers, ∃ ref c commit, refForLayer l = .ok ref ∧ src.refs[ref]? = some c ∧
      s.refs[ref]? = some c ∧ s.commits[c]? = some commit ∧ s.Complete commit := by
  intro l hl
  obtain ⟨ref, c', commit, href, hrev, hcommit, hcomplete, hin⟩ :=
    h.brought (refForLayer l) (List.mem_append_left _ (List.mem_map_of_mem hl))
  have hnot := not_isSha256_of_escape href
  rw [requireRev_of_escape href] at hrev
  exact ⟨ref, c', commit, href, okOr_eq_ok.mp hrev, hin hnot, hcommit, hcomplete⟩

/-- The ref of the image is written. -/
theorem Arrived.publishes {ref destRef : String} {c : Checksum} {commit : Commit}
    {m : ImageManifest} {s : Repo} (hsource : CopySource src i ref c commit m) (hs : Whole s)
    (hsums : RefsAreChecksums src) (hfits : CopyFits src i r)
    (h : Arrived src (m.layers.map refForLayer ++ [.ok c]) r s)
    (hdest : refForImage j = .ok destRef) :
    catalog { s with refs := s.refs.insert destRef c } =
      Function.update (catalog s) j (catalog src i) := by
  have hcommit := (h.mergeCommit hsource hsums hfits).1
  have hkept : ∀ other, Repo.refUnder imagePrefix other = true → other ≠ destRef →
      (s.refs.insert destRef c)[other]? = s.refs[other]? :=
    fun other _ hne => by rw [ExtTreeMap.lookup_insert, if_neg (fun heq => hne heq.symm)]
  refine (@Whole.catalog_update s { s with refs := s.refs.insert destRef c } j destRef hs
    (Objects.Keeps.refl _) hdest hkept).trans ?_
  show Function.update (catalog s) j ((s.refs.insert destRef c)[destRef]?.bind _) = _
  rw [ExtTreeMap.lookup_insert, if_pos rfl, catalog_of_ref hsource.named, hsource.listed]
  show Function.update (catalog s) j (entryAt _ c) = Function.update (catalog s) j (entryAt src c)
  congr 1
  exact entryAt_of_commits (hcommit.trans hsource.stored.symm)

/-- **A copy**, done or stopped, leaves a whole repository whole, and changes its catalog at one
    reference, if at all.  There it has the image of the source when it is done, with its layers and
    all objects. -/
theorem copy_exact (pull : LocalPull) (h : Whole r) (hsums : RefsAreChecksums src)
    (hfits : CopyFits src i r) :
    Whole (finalState (copy pull src i j r)) ∧
    (catalog (finalState (copy pull src i j r)) = catalog r ∨
      catalog (finalState (copy pull src i j r)) = Function.update (catalog r) j (catalog src i)) ∧
    ∀ u r', copy pull src i j r = .ok u r' → Copied src i j r r' := by
  rcases copy_starts pull src i j r with ⟨ref, c, commit, m, hsource, hrun⟩ | ⟨e, hrun⟩
  · rw [hrun, copyTo]
    rcases @pullRefs_cases pull src _ (hsource.pulls hsums) r with ⟨s, hloop, harrived⟩ | ⟨e, s, hloop, hfetch⟩
    · have hs := h.of_fetches harrived.fetches
      have hsame := h.catalog_fetched harrived.fetches
      rw [bind_of_ok hloop]
      cases hdest : refForImage j with
      | error e => exact ⟨hs, .inl hsame, fun _ _ hok => by cases hok⟩
      | ok destRef =>
          rw [bind_of_ok (liftR_ok _ _)]
          obtain ⟨hcommit, hcomplete⟩ := harrived.mergeCommit hsource hsums hfits
          have hmanifest : manifestOfCommit s c = .ok m := by
            have hm := hsource.manifest
            rw [manifestOfCommit, Repo.loadCommit, hsource.stored] at hm
            rw [manifestOfCommit, Repo.loadCommit, hcommit]
            exact hm
          have hlayers := harrived.layers
          have hstored : LayersStored m.layers s := by
            intro l hl
            obtain ⟨blob, c', -, hblob, -, hin, -⟩ := hlayers l hl
            exact ⟨blob, hblob, ExtTreeMap.mem_iff_lookup.mpr ⟨c', hin⟩⟩
          have hwhole := hs.setImage hdest hmanifest hstored
          have hcatalog := harrived.publishes hsource hs hsums hfits hdest
          rw [hsame] at hcatalog
          refine ⟨hwhole, .inr hcatalog, fun u r' hok => ?_⟩
          cases hok
          refine ⟨harrived.fetches.keeps, hcatalog, ⟨ref, destRef, c, commit, hsource.named, hdest,
            hsource.listed, ?_, hsource.stored, hcommit, hcomplete⟩, m, hsource.manifestForImage, ?_⟩
          · show (s.refs.insert destRef c)[destRef]? = _
            rw [ExtTreeMap.lookup_insert, if_pos rfl]
          · intro l hl
            obtain ⟨blob, c', b, hblob, hsrc, hin, hstored⟩ := hlayers l hl
            refine ⟨blob, c', b, hblob, hsrc, ?_, hstored⟩
            have hne : destRef ≠ blob := fun heq => absurd
              ((refUnder_of_escape hblob).symm.trans
                (not_layer_of_image (heq ▸ refUnder_of_escape hdest))) (by simp)
            show (s.refs.insert destRef c)[blob]? = _
            rw [ExtTreeMap.lookup_insert, if_neg hne]
            exact hin
    · rw [bind_of_error hloop]
      exact ⟨h.of_fetches hfetch, .inl (h.catalog_fetched hfetch), fun _ _ hok => by cases hok⟩
  · rw [hrun]
    exact ⟨h, .inl rfl, fun _ _ hok => by cases hok⟩

end Copy

-- ── A small copy ──────────────────────────────────────────────────────────────

section Sample

open Classical in
/-- What a pull makes of a repository, if the commits of the source reach all trees and files. -/
noncomputable def pullWhole (src : Repo) (ref : String) (r : Repo) : Result Repo := do
  let c ← src.requireRev ref
  let commit ← src.loadCommit c
  let r' : Repo := { r with
    commits := r.commits.insert c commit, dirtrees := src.dirtrees
    dirmetas := src.dirmetas, files := src.files
    refs := if IsSha256 ref then r.refs else r.refs.insert ref c }
  if r.toObjects.Keeps r'.toObjects ∧ r'.Complete commit then .ok r'
  else .error (.err "missing object")

theorem pullWhole_pulled {src r r' : Repo} {ref : String} (h : pullWhole src ref r = .ok r') :
    ∃ c, Pulled src ref r r' c := by
  obtain ⟨c, hrev, h⟩ := result_bind_eq_ok.mp h
  obtain ⟨commit, hload, h⟩ := result_bind_eq_ok.mp h
  dsimp only at h
  split at h
  · rename_i hcheck
    cases h
    refine ⟨c, hrev, hcheck.1, fun x v hv => ?_, ⟨commit, ?_, hcheck.2⟩, rfl⟩
    · rw [ExtTreeMap.lookup_insert] at hv
      by_cases hx : c = x
      · subst hx
        rw [if_pos rfl] at hv
        exact .inr ((okOr_eq_ok.mp hload).trans hv)
      · rw [if_neg hx] at hv
        exact .inl hv
    · show (r.commits.insert c commit)[c]? = _
      rw [ExtTreeMap.lookup_insert, if_pos rfl]
  · cases h

noncomputable def LocalPull.whole : LocalPull where
  run src ref := do
    set (← liftR (pullWhole src ref (← get)))
  done := by
    intro src ref r u r' hrun
    rw [bind_of_ok (get_run r)] at hrun
    obtain ⟨r₁, t, hlift, hset⟩ := bind_ok hrun
    obtain ⟨hpull, rfl⟩ := liftR_eq_ok hlift
    cases hset
    exact pullWhole_pulled hpull
  failed := by
    intro src ref r e r' hrun
    rw [bind_of_ok (get_run r)] at hrun
    cases hpull : pullWhole src ref r with
    | ok r₁ =>
        rw [hpull] at hrun
        cases hrun
    | error e' =>
        rw [hpull] at hrun
        cases hrun
        exact ⟨Objects.Keeps.refl _, rfl⟩

/-- The sample image with what it needs, and no more. -/
def sourceRepo : Repo where
  commits := ((∅ : ExtTreeMap Checksum Commit).insert sampleCommitSum sampleCommit).insert
    chunkCommitSum storedMergeCommit
  dirtrees := ((∅ : ExtTreeMap Checksum DirTree).insert emptyTreeSum emptyTree).insert
    sampleTreeSum sampleTree
  dirmetas := sampleRepo.dirmetas
  files := sampleRepo.files
  refs := ((∅ : ExtTreeMap String Checksum).insert sampleLayerRef sampleCommitSum).insert
    sampleImageRef chunkCommitSum

theorem sourceRepo_complete {commit : Commit} (hdirmeta : commit.dirmeta = sampleMetaSum)
    (hcontents : commit.contents = sampleTreeSum) {o : Objects}
    (htrees : o.dirtrees = sourceRepo.dirtrees) (hmetas : o.dirmetas = sourceRepo.dirmetas)
    (hfiles : o.files = sourceRepo.files) : o.Complete commit := by
  have hmeta : sampleMetaSum ∈ o.dirmetas := by
    rw [hmetas]
    exact ExtTreeMap.mem_iff_lookup.mpr ⟨_, lookup_sampleMeta⟩
  have htree : o.dirtrees[sampleTreeSum]? = some sampleTree := by
    rw [htrees, sourceRepo, ExtTreeMap.lookup_insert, if_pos rfl]
  have hempty : o.dirtrees[emptyTreeSum]? = some emptyTree := by
    rw [htrees, sourceRepo, ExtTreeMap.lookup_insert, if_neg (by decide), ExtTreeMap.lookup_insert,
      if_pos rfl]
  have hsound : SoundTree o 2 sampleTreeSum := by
    refine SoundTree.node htree (by rw [UniqueNames]; decide) (fun f hf => ?_) (fun s hs => ?_)
    · rw [hfiles]
      rcases List.mem_cons.mp hf with rfl | hf
      · exact ExtTreeMap.mem_iff_lookup.mpr ⟨_, lookup_sampleLink⟩
      · rw [List.mem_singleton.mp hf]
        exact ExtTreeMap.mem_iff_lookup.mpr ⟨_, lookup_sampleMotd⟩
    · rw [List.mem_singleton.mp hs]
      refine ⟨hmeta, SoundTree.node hempty (by rw [UniqueNames]; decide) (fun f hf => ?_)
        (fun s hs => ?_)⟩
      · exact absurd hf (by simp [emptyTree])
      · exact absurd hs (by simp [emptyTree])
  exact complete_of_soundTree (hdirmeta ▸ hmeta) (hcontents ▸ hsound)

theorem pullRef_whole {src r : Repo} {ref : String} {c : Checksum} {commit : Commit}
    (hrev : src.requireRev ref = .ok c) (hcommit : src.commits[c]? = some commit)
    (hnew : r.commits[c]? = none)
    (hkeeps : r.toObjects.Keeps { src.toObjects with commits := r.commits })
    (hcomplete : ∀ commits, Objects.Complete { src.toObjects with commits } commit) :
    pullRef .whole src (.ok ref) r = .ok ⟨⟩ { r with
      commits := r.commits.insert c commit, dirtrees := src.dirtrees
      dirmetas := src.dirmetas, files := src.files
      refs := if IsSha256 ref then r.refs else r.refs.insert ref c } := by
  have hpull : pullWhole src ref r = .ok { r with
      commits := r.commits.insert c commit, dirtrees := src.dirtrees
      dirmetas := src.dirmetas, files := src.files
      refs := if IsSha256 ref then r.refs else r.refs.insert ref c } := by
    rw [pullWhole, hrev, bind_ok_eq, Repo.loadCommit, hcommit, okOr_some, bind_ok_eq]
    refine if_pos ⟨⟨fun x v hv => ?_, hkeeps.dirtrees, hkeeps.dirmetas, hkeeps.files⟩, hcomplete _⟩
    rw [ExtTreeMap.lookup_insert, if_neg]
    · exact hv
    · rintro rfl
      exact absurd (hnew.symm.trans hv) (by simp)
  rw [pullRef, bind_of_ok (liftR_ok _ _)]
  show (do set (← liftR (pullWhole src ref (← get))) : RepoM Unit) r = _
  rw [bind_of_ok (get_run r), hpull]
  rfl

theorem sourceRepo_mergeCommit : sourceRepo.commits[chunkCommitSum]? = some storedMergeCommit := by
  rw [sourceRepo, ExtTreeMap.lookup_insert, if_pos rfl]

theorem sourceRepo_baseCommit : sourceRepo.commits[sampleCommitSum]? = some sampleCommit := by
  rw [sourceRepo, ExtTreeMap.lookup_insert, if_neg (by decide), ExtTreeMap.lookup_insert, if_pos rfl]

theorem sourceRepo_lookup {ref : String} {c : Checksum} (h : sourceRepo.refs[ref]? = some c) :
    ref = sampleImageRef ∧ c = chunkCommitSum ∨ ref = sampleLayerRef ∧ c = sampleCommitSum := by
  rw [sourceRepo, ExtTreeMap.lookup_insert] at h
  by_cases himage : sampleImageRef = ref
  · rw [if_pos himage] at h
    exact .inl ⟨himage.symm, (Option.some.inj h).symm⟩
  rw [if_neg himage, ExtTreeMap.lookup_insert] at h
  by_cases hlayer : sampleLayerRef = ref
  · rw [if_pos hlayer] at h
    exact .inr ⟨hlayer.symm, (Option.some.inj h).symm⟩
  · rw [if_neg hlayer, ExtTreeMap.lookup_empty] at h
    exact absurd h (by simp)

theorem sourceRepo_sums : RefsAreChecksums sourceRepo := by
  intro ref c h
  rcases sourceRepo_lookup h with ⟨-, rfl⟩ | ⟨-, rfl⟩
  · decide +kernel
  · exact isSha256_sampleCommitSum

theorem sourceRepo_source :
    CopySource sourceRepo sampleImage sampleImageRef chunkCommitSum storedMergeCommit sampleManifest where
  named := refForImage_sample
  listed := by rw [sourceRepo, ExtTreeMap.lookup_insert, if_pos rfl]
  stored := sourceRepo_mergeCommit
  manifest := by
    rw [manifestOfCommit, Repo.loadCommit, sourceRepo_mergeCommit]
    decide +kernel

/-- When the layer has been pulled. -/
def pulledRepo : Repo :=
  { sourceRepo with
    commits := (∅ : ExtTreeMap Checksum Commit).insert sampleCommitSum sampleCommit
    refs := (∅ : ExtTreeMap String Checksum).insert sampleLayerRef sampleCommitSum }

/-- At the end. -/
def copiedRepo : Repo :=
  { pulledRepo with
    commits := pulledRepo.commits.insert chunkCommitSum storedMergeCommit
    refs := pulledRepo.refs.insert otherImageRef chunkCommitSum }

theorem copy_run : copy .whole sourceRepo sampleImage otherImage {} = .ok ⟨⟩ copiedRepo := by
  have hlayer : sourceRepo.requireRev sampleLayerRef = .ok sampleCommitSum := by
    rw [requireRev_of_escape escape_sampleLayerRef, sourceRepo, ExtTreeMap.lookup_insert,
      if_neg (by decide), ExtTreeMap.lookup_insert, if_pos rfl, okOr_some]
  have hsha : IsSha256 chunkCommitSum := sourceRepo_sums sampleImageRef _ sourceRepo_source.listed
  have hcomplete : ∀ commits, Objects.Complete { sourceRepo.toObjects with commits } sampleCommit :=
    fun _ => sourceRepo_complete rfl rfl rfl rfl rfl
  have hfirst : pullRef .whole sourceRepo (.ok sampleLayerRef) {} = .ok ⟨⟩ pulledRepo := by
    rw [pullRef_whole hlayer sourceRepo_baseCommit (ExtTreeMap.lookup_empty _) ?_ hcomplete,
      if_neg (not_isSha256_of_escape escape_sampleLayerRef)]
    · rfl
    · constructor <;> intro x v hv <;>
        exact absurd (hv.symm.trans (ExtTreeMap.lookup_empty _)) (by simp)
  have hsecond : pullRef .whole sourceRepo (.ok chunkCommitSum) pulledRepo = .ok ⟨⟩ { pulledRepo with
      commits := pulledRepo.commits.insert chunkCommitSum storedMergeCommit } := by
    have hnew : pulledRepo.commits[chunkCommitSum]? = none := by
      rw [pulledRepo, ExtTreeMap.lookup_insert, if_neg (by decide)]
      exact ExtTreeMap.lookup_empty _
    rw [@pullRef_whole sourceRepo pulledRepo chunkCommitSum chunkCommitSum storedMergeCommit
      (if_pos hsha) sourceRepo_mergeCommit hnew (Objects.Keeps.refl _)
      (fun _ => sourceRepo_complete rfl rfl rfl rfl rfl), if_pos hsha]
    rfl
  have hloop : forM [refForLayer sampleLayer, .ok chunkCommitSum] (pullRef .whole sourceRepo) {} =
      .ok ⟨⟩ { pulledRepo with
        commits := pulledRepo.commits.insert chunkCommitSum storedMergeCommit } := by
    rw [List.forM_cons, show refForLayer sampleLayer = .ok sampleLayerRef from refForLayer_sample,
      bind_of_ok hfirst, List.forM_cons, bind_of_ok hsecond]
    rfl
  rw [sourceRepo_source.copy_eq, copyTo]
  refine (bind_of_ok hloop).trans ?_
  rw [refForImage_other]
  rfl

/-- **The sample image is copied** into an empty repository, under another name. -/
theorem copy_sample :
    Whole copiedRepo ∧ Copied sourceRepo sampleImage otherImage {} copiedRepo := by
  have hfits : CopyFits sourceRepo sampleImage {} := by
    intro ref c b _ _ hb
    exact absurd (hb.symm.trans (ExtTreeMap.lookup_empty _)) (by simp)
  obtain ⟨hwhole, -, hdone⟩ := @copy_exact sourceRepo {} sampleImage otherImage .whole whole_empty
    sourceRepo_sums hfits
  rw [copy_run, finalState_ok] at hwhole
  exact ⟨hwhole, hdone _ _ copy_run⟩

end Sample

end OstreeExt.Store
