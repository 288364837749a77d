import OstreeExt.Lib.Refinement
import OstreeExt.Sysroot.Model

/-!
# What the commands of a system root are for

The users of a system root see its images and which of them are deployed: a `View`.  Each command
is specified on views, where there are no layers, refs and objects.  A command that fails has done
a part of its work, or nothing.

**`machine_refines`**: in a system root with a whole repository, every run of commands, done or
failed, between steps of other tools, keeps it whole, and is a run of the specification.
-/

namespace OstreeExt.Sysroot

open OstreeExt Exec Std Store

/-- The images of a repository. -/
abbrev Images := ImageReference → Option CatalogEntry

/-- What users see. -/
structure View where
  images : Images
  deployed : ImageReference → Prop

def view (s : Sysroot) : View where
  images := catalog s.repo
  deployed := Deployed s.deployments

-- ── The specification ─────────────────────────────────────────────────────────

/-- The image is what the registry serves. -/
def Offers (registry : Registry) (imgref : OstreeImageReference) (e : CatalogEntry) : Prop :=
  ∃ proxy, registry imgref.imgref.display = .ok proxy ∧
    proxy.fetchManifest = .ok (e.manifestDigest, e.manifest) ∧ proxy.fetchConfig = .ok e.configuration

/-- The image has the manifest digest or the image ID that the registry serves. -/
def UpToDate (registry : Registry) (imgref : OstreeImageReference) (e : CatalogEntry) : Prop :=
  ∃ proxy manifestDigest manifest, registry imgref.imgref.display = .ok proxy ∧
    proxy.fetchManifest = .ok (manifestDigest, manifest) ∧
    (e.manifestDigest = manifestDigest ∨ e.manifest.config.digest = manifest.config.digest)

/-- What is served is stored under a reference. -/
def Publishes (registry : Registry) (imgref : OstreeImageReference) (target : ImageReference)
    (k k' : Images) : Prop :=
  ∃ e, Offers registry imgref e ∧ k' = Function.update k target (some e)

/-- A deployment with this origin is one of an image. -/
def ReadsBack (target : OstreeImageReference) (i : ImageReference) : Prop :=
  ∃ o, OstreeImageReference.tryFrom target.display = .ok o ∧ o.imgref = i

/-- What a deployment may do.  A new one is of the target, which is stored then, unless no image
    reference is written or the image itself was found. -/
def Deploys (registry : Registry) (imgref : OstreeImageReference) (options : DeployOpts)
    (v v' : View) : Prop :=
  (v'.images = v.images ∨ options.noImgref = false ∧
    Publishes registry imgref (options.target imgref).imgref v.images v'.images) ∧
  ∀ i, v'.deployed i → v.deployed i ∨ ReadsBack (options.target imgref) i ∧
    (options.noImgref = true ∨ v'.images (options.target imgref).imgref ≠ none ∨
      v.images imgref.imgref ≠ none)

/-- What a command may do before it fails. -/
def Command.May : Command → View → View → Prop
  | .pull registry imgref _ check, v, v' => v'.deployed = v.deployed ∧
      (v'.images = v.images ∨
        check = none ∧ Publishes registry imgref imgref.imgref v.images v'.images)
  | .unencapsulate _ _ _, v, v' => v' = v
  | .remove imgrefs _, v, v' => v'.deployed = v.deployed ∧
      ∀ i, v'.images i = v.images i ∨ i ∈ imgrefs ∧ v'.images i = none
  | .pruneLayers, v, v' => v' = v
  | .pruneImages _ _, v, v' => v'.deployed = v.deployed ∧ Sheds v.deployed v.images v'.images
  | .copy srcRepo imgref, v, v' => v'.deployed = v.deployed ∧ (v'.images = v.images ∨
      v'.images = Function.update v.images imgref.imgref (catalog srcRepo imgref.imgref))
  | .deploy registry args, v, v' => v' = v ∨
      ∃ imgref, args.imageRef = .ok imgref ∧ Deploys registry imgref args.options v v'

/-- What a command has done when it is done. -/
def Command.Does : Command → View → View → Prop
  | .pull registry imgref quiet check, v, v' =>
      Command.May (.pull registry imgref quiet check) v v' ∧ (check = none →
        Publishes registry imgref imgref.imgref v.images v'.images ∨
        v' = v ∧ ∃ e, v.images imgref.imgref = some e ∧ UpToDate registry imgref e)
  | .remove imgrefs _, v, v' => v'.deployed = v.deployed ∧
      v'.images = fun i => if i ∈ imgrefs then none else v.images i
  | .copy srcRepo imgref, v, v' => v'.deployed = v.deployed ∧
      v'.images = Function.update v.images imgref.imgref (catalog srcRepo imgref.imgref)
  | cmd, v, v' => cmd.May v v'

/-- A step of a system root. -/
inductive Event where
  | done (cmd : Command)
  | failed (cmd : Command)
  /-- Other tools write and remove deployments, and know nothing of images. -/
  | other

/-- The specification of a system root. -/
def Specifies : Event → View → View → Prop
  | .done cmd, v, v' => cmd.Does v v'
  | .failed cmd, v, v' => cmd.May v v'
  | .other, v, v' => v'.images = v.images ∧ ∀ i, v'.deployed i → v.deployed i

-- ── The system ────────────────────────────────────────────────────────────────

/-- What a command relies on.  A checksum names one commit; a ref that is written by name is none
    of the store. -/
def Command.Admissible (m : Machine) : Command → Sysroot → Prop
  | .pull registry imgref quiet _, s => ∀ imp prep r,
      ImageImporter.new registry m.ostreeV20243 imgref = .ok imp →
      imp.prepare m.host s.repo = .ok (.ready prep) r →
      (pullImporter m imp quiet).NoCollision m.host m.lib prep r
  | .unencapsulate _ _ writeRef, _ => ∀ ref, writeRef = some ref →
      Repo.refUnder imagePrefix ref = false ∧ Repo.refUnder layerPrefix ref = false
  | .copy srcRepo imgref, s => RefsAreChecksums srcRepo ∧ CopyFits srcRepo imgref.imgref s.repo
  | .deploy registry args, s => ∀ imgref imp prep r, args.imageRef = .ok imgref →
      ImageImporter.new registry m.ostreeV20243 imgref = .ok imp →
      (deployImporter imp args.options).prepare m.host s.repo = .ok (.ready prep) r →
      (deployImporter imp args.options).NoCollision m.host m.lib prep r
  | _, _ => True

/-- The steps of the system. -/
inductive Step (m : Machine) : Event → Sysroot → Sysroot → Prop where
  | done {cmd : Command} {s s' : Sysroot} (admissible : cmd.Admissible m s) (u : Unit)
      (run : cmd.run m s = .ok u s') : Step m (.done cmd) s s'
  | failed {cmd : Command} {s s' : Sysroot} (admissible : cmd.Admissible m s) (e : Stop)
      (run : cmd.run m s = .error e s') : Step m (.failed cmd) s s'
  | other {s s' : Sysroot}
      (settles : Settles (fun d => deploymentOriginContainer d = .ok none) s s') :
      Step m .other s s'

-- ── Commands on the repository ────────────────────────────────────────────────

section Repository

variable {m : Machine} {r r' : Repo}

theorem new_eq_ok {registry : Registry} {v : Bool} {imgref : OstreeImageReference}
    {imp : ImageImporter} (h : ImageImporter.new registry v imgref = .ok imp) :
    registry imgref.imgref.display = .ok imp.proxy ∧ imp.imgref = imgref ∧ imp.noImgref = false ∧
      imp.targetImgref = none := by
  obtain ⟨proxy, hproxy, h⟩ := result_bind_eq_ok.mp h
  cases h
  exact ⟨hproxy, rfl, rfl, rfl⟩

theorem prepare_whole (h : Whole r) (host : Host) (imp : ImageImporter) :
    Whole (finalState (imp.prepare host r)) ∧
    catalog (finalState (imp.prepare host r)) = catalog r :=
  ⟨h.of_same (prepare_same host imp r), catalog_same (prepare_same host imp r)⟩

/-- What is prepared is what the registry serves. -/
theorem prepare_offers {registry : Registry} {imgref : OstreeImageReference} {imp : ImageImporter}
    (hproxy : registry imgref.imgref.display = .ok imp.proxy) {prep : PreparedImport}
    (hprep : imp.prepare m.host r = .ok (.ready prep) r') (c : Checksum) :
    Offers registry imgref (prep.entry c) :=
  ⟨imp.proxy, hproxy, (prepare_eq_ready hprep).served, (prepare_eq_ready hprep).config⟩

/-- What is found is up to date. -/
theorem prepare_upToDate {registry : Registry} {imgref : OstreeImageReference} {imp : ImageImporter}
    (hproxy : registry imgref.imgref.display = .ok imp.proxy) (himgref : imp.imgref = imgref)
    {state : LayeredImageState} (hprep : imp.prepare m.host r = .ok (.alreadyPresent state) r') :
    r' = r ∧ catalog r imgref.imgref = some state.entry ∧ UpToDate registry imgref state.entry := by
  obtain ⟨hfinds, rfl⟩ := prepare_eq_present.mp hprep
  obtain ⟨digest, manifest, hserved, hsame⟩ := hfinds.served
  subst himgref
  exact ⟨rfl, tryQueryImage_catalog hfinds.stored, imp.proxy, digest, manifest, hproxy, hserved, hsame⟩

/-- **An import of what was prepared.** -/
theorem import_whole (h : Whole r) {imp imp' : ImageImporter} {prep : PreparedImport}
    (hprep : imp.prepare m.host r = .ok (.ready prep) r')
    (hno : imp'.NoCollision m.host m.lib prep r') :
    Whole (finalState (imp'.importImage m.host m.lib prep r')) ∧
    imp'.Publishes prep (catalog r) (catalog (finalState (imp'.importImage m.host m.lib prep r'))) ∧
    ∀ state r'', imp'.importImage m.host m.lib prep r' = .ok state r'' →
      state.entry = prep.entry state.mergeCommit ∧
      catalog r'' = if imp'.noImgref then catalog r else
        Function.update (catalog r) imp'.target (some state.entry) := by
  obtain ⟨hwhole, hsame⟩ := prepare_whole h m.host imp
  rw [hprep, finalState_ok] at hwhole hsame
  obtain ⟨hregular, hheld⟩ := prepare_held hprep
  rw [← hsame]
  exact hwhole.importImage hregular hheld hno

theorem finalState_liftR {σ α : Type} (x : Result α) (s : σ) :
    finalState ((liftR x : EStateM Stop σ α) s) = s := by
  cases x <;> rfl

/-- **`container_store`**, done or failed. -/
theorem containerStore_may (h : Whole r) {registry : Registry} {imgref : OstreeImageReference}
    {quiet : Bool} {check : Option String} (hadm : ∀ imp prep r',
      ImageImporter.new registry m.ostreeV20243 imgref = .ok imp →
      imp.prepare m.host r = .ok (.ready prep) r' →
      (pullImporter m imp quiet).NoCollision m.host m.lib prep r') :
    Whole (finalState (containerStore m registry imgref quiet check r)) ∧
    (catalog (finalState (containerStore m registry imgref quiet check r)) = catalog r ∨
      check = none ∧ Publishes registry imgref imgref.imgref (catalog r)
        (catalog (finalState (containerStore m registry imgref quiet check r)))) := by
  let P : Repo → Prop := fun s => Whole s ∧ (catalog s = catalog r ∨
    check = none ∧ Publishes registry imgref imgref.imgref (catalog r) (catalog s))
  have hstart : P r := ⟨h, .inl rfl⟩
  show P (finalState _)
  refine finalState_bind (by rw [finalState_liftR]; exact hstart) (fun imp r₀ hlift => ?_)
  obtain ⟨hnew, rfl⟩ := liftR_eq_ok hlift
  obtain ⟨hproxy, himgref, hno, htarget⟩ := new_eq_ok hnew
  obtain ⟨hwhole, hsame⟩ := prepare_whole h m.host imp
  refine finalState_bind ⟨hwhole, .inl hsame⟩ (fun res s hprep => ?_)
  rw [hprep, finalState_ok] at hwhole hsame
  have hs : P s := ⟨hwhole, .inl hsame⟩
  cases res with
  | alreadyPresent state => exact hs
  | ready prep =>
      cases hcheck : check with
      | some path =>
          show P (finalState (liftR _ s))
          rw [finalState_liftR]
          exact hs
      | none =>
          obtain ⟨himported, hpublishes, -⟩ := import_whole h hprep (hadm imp prep s hnew hprep)
          have hend : P (finalState ((pullImporter m imp quiet).importImage m.host m.lib prep s)) := by
            refine ⟨himported, ?_⟩
            rcases hpublishes with heq | ⟨-, c, heq⟩
            · exact .inl heq
            · have htarget : (pullImporter m imp quiet).target = imgref.imgref := by
                show (imp.targetImgref.getD imp.imgref).imgref = _
                rw [htarget, himgref]
                rfl
              rw [htarget] at heq
              exact .inr ⟨hcheck, _, prepare_offers hproxy hprep c, heq⟩
          refine finalState_bind hend (fun state t himport => ?_)
          rw [himport, finalState_ok] at hend
          rw [bind_of_ok (get_run t)]
          exact finalState_bind (by rw [finalState_liftR]; exact hend)
            (fun _ _ hwarn => (liftR_eq_ok hwarn).2 ▸ hend)

/-- **`container_store`** that is done, and not for a check. -/
theorem containerStore_done (h : Whole r) {registry : Registry} {imgref : OstreeImageReference}
    {quiet : Bool} (hadm : ∀ imp prep r',
      ImageImporter.new registry m.ostreeV20243 imgref = .ok imp →
      imp.prepare m.host r = .ok (.ready prep) r' →
      (pullImporter m imp quiet).NoCollision m.host m.lib prep r') {u : Unit}
    (hrun : containerStore m registry imgref quiet none r = .ok u r') :
    Publishes registry imgref imgref.imgref (catalog r) (catalog r') ∨
    r' = r ∧ ∃ e, catalog r imgref.imgref = some e ∧ UpToDate registry imgref e := by
  obtain ⟨imp, r₀, hlift, h₁⟩ := bind_ok hrun
  obtain ⟨hnew, rfl⟩ := liftR_eq_ok hlift
  obtain ⟨hproxy, himgref, hno, htarget⟩ := new_eq_ok hnew
  obtain ⟨res, s, hprep, h₂⟩ := bind_ok h₁
  cases res with
  | alreadyPresent state =>
      obtain ⟨rfl, hstored, hcurrent⟩ := prepare_upToDate hproxy himgref hprep
      cases h₂
      exact .inr ⟨rfl, state.entry, hstored, hcurrent⟩
  | ready prep =>
      obtain ⟨state, t, himport, h₃⟩ := bind_ok h₂
      obtain ⟨-, -, hdone⟩ := import_whole h hprep (hadm imp prep s hnew hprep)
      obtain ⟨hentry, hcatalog⟩ := hdone state t himport
      rw [bind_of_ok (get_run t)] at h₃
      obtain ⟨warning, t', hwarn, h₄⟩ := bind_ok h₃
      obtain ⟨-, rfl⟩ := liftR_eq_ok hwarn
      cases h₄
      have hflag : (pullImporter m imp quiet).noImgref = false := hno
      have htarget : (pullImporter m imp quiet).target = imgref.imgref := by
        show (imp.targetImgref.getD imp.imgref).imgref = _
        rw [htarget, himgref]
        rfl
      rw [hflag, if_neg (by simp), htarget] at hcatalog
      refine .inl ⟨state.entry, ?_, hcatalog⟩
      rw [hentry]
      exact prepare_offers hproxy hprep _

/-- A ref that is none of the store. -/
theorem setRef_whole (h : Whole r) {ref : String} {c : Checksum}
    (himage : Repo.refUnder imagePrefix ref = false) (hlayer : Repo.refUnder layerPrefix ref = false) :
    Whole (finalState (Repo.setRef ref (some c) r)) ∧
    catalog (finalState (Repo.setRef ref (some c) r)) = catalog r := by
  have hlookup : ∀ pfx other, Repo.refUnder pfx ref = false → Repo.refUnder pfx other = true →
      (finalState (Repo.setRef ref (some c) r)).refs[other]? = r.refs[other]? := by
    intro pfx other hnot hunder
    show (r.refs.insert ref c)[other]? = _
    rw [ExtTreeMap.lookup_insert, if_neg]
    rintro rfl
    exact absurd (hnot.symm.trans hunder) (by simp)
  have hkeeps : r.toObjects.Keeps (finalState (Repo.setRef ref (some c) r)).toObjects :=
    Objects.Keeps.refl _
  refine ⟨h.of_images hkeeps ?_ ?_ ?_, h.catalog_kept hkeeps (fun other => hlookup _ other himage)⟩
  · intro other hin hunder
    obtain ⟨c', hc'⟩ := ExtTreeMap.mem_iff_lookup.mp hin
    exact h.blobs other
      (ExtTreeMap.mem_iff_lookup.mpr ⟨c', (hlookup _ other hlayer hunder).symm.trans hc'⟩) hunder
  · intro other c' hunder hc'
    exact (hlookup _ other himage hunder).symm.trans hc'
  · intro _ _ l _ other hother hin
    obtain ⟨c', hc'⟩ := ExtTreeMap.mem_iff_lookup.mp hin
    exact ExtTreeMap.mem_iff_lookup.mpr
      ⟨c', (hlookup _ other hlayer (refUnder_of_escape hother)).trans hc'⟩

/-- `unencapsulate` writes no ref. -/
theorem unencapsulate_whole (h : Whole r) (host : Host) (lib : Libostree) (imp : ImageImporter) :
    Whole (finalState (imp.unencapsulate host lib r)) ∧
    catalog (finalState (imp.unencapsulate host lib r)) = catalog r := by
  let R : Repo → Repo → Prop := fun s s' => Whole s → Whole s' ∧ catalog s' = catalog s
  have hrefl : ∀ s, R s s := fun s hs => ⟨hs, rfl⟩
  have htrans : ∀ a b c, R a b → R b c → R a c := by
    intro a b c hab hbc ha
    obtain ⟨hb, hsame⟩ := hab ha
    obtain ⟨hc, hsame'⟩ := hbc hb
    exact ⟨hc, hsame'.trans hsame⟩
  suffices hsteps : Steps R (imp.unencapsulate host lib) from hsteps r h
  refine Steps.bind htrans (fun s hs => prepare_whole hs host imp) (fun res => ?_)
  cases res with
  | alreadyPresent state => exact Steps.throw hrefl _
  | ready prep =>
      dsimp only
      split
      · exact Steps.throw hrefl _
      have hbase : Steps (Fetches fun _ => False) (imp.unencapsulateBase host lib prep false) := by
        refine steps_unencapsulateBase Fetches.refl Fetches.trans_step (fun desLayers layer _ => ?_)
          (fun desLayers => ?_)
        · exact (fetches_frame _).fetchChunkLayer false (fun h => absurd h (by simp))
        · exact (fetches_frame _).fetchCommitLayer (fun _ _ => trivial) _ false
            (fun h => absurd h (by simp))
      have hfetched : Steps R (imp.unencapsulateBase host lib prep false) := by
        intro s hs
        have hblobs := (hbase s).mono (fun ref hfalse => (hfalse.elim : IsBlobRef ref))
        exact ⟨hs.of_fetches hblobs, hs.catalog_fetched hblobs⟩
      refine Steps.bind htrans hfetched (fun _ => ?_)
      refine Steps.bind htrans (steps_liftR hrefl _) (fun _ => ?_)
      exact Steps.bind htrans (steps_liftR hrefl _) (fun _ => Steps.pure hrefl _)

/-- **`container_import`** changes no image. -/
theorem containerImport_may (h : Whole r) {registry : Registry} {imgref : OstreeImageReference}
    {writeRef : Option String} (hadm : ∀ ref, writeRef = some ref →
      Repo.refUnder imagePrefix ref = false ∧ Repo.refUnder layerPrefix ref = false) :
    Whole (finalState (containerImport m registry imgref writeRef r)) ∧
    catalog (finalState (containerImport m registry imgref writeRef r)) = catalog r := by
  let P : Repo → Prop := fun s => Whole s ∧ catalog s = catalog r
  show P (finalState _)
  refine finalState_bind (by rw [finalState_liftR]; exact ⟨h, rfl⟩) (fun imp r₀ hlift => ?_)
  obtain ⟨-, rfl⟩ := liftR_eq_ok hlift
  have hfetch : P (finalState (imp.unencapsulate m.host m.lib r₀)) :=
    unencapsulate_whole h m.host m.lib imp
  refine finalState_bind hfetch (fun imported s hdone => ?_)
  rw [hdone, finalState_ok] at hfetch
  cases writeRef with
  | none => exact hfetch
  | some ref =>
      obtain ⟨himage, hlayer⟩ := hadm ref rfl
      obtain ⟨hwhole, hsame⟩ := @setRef_whole s hfetch.1 ref imported.ostreeCommit himage hlayer
      exact ⟨hwhole, hsame.trans hfetch.2⟩

/-- **The loop of `remove_images`**, done or failed. -/
theorem removeEach_may (imgs missing : List ImageReference) (h : Whole r) :
    Whole (finalState (removeEach imgs missing r)) ∧
    (∀ i, catalog (finalState (removeEach imgs missing r)) i = catalog r i ∨
      i ∈ imgs ∧ catalog (finalState (removeEach imgs missing r)) i = none) ∧
    ∀ missing' r', removeEach imgs missing r = .ok missing' r' →
      catalog r' = fun i => if i ∈ imgs then none else catalog r i := by
  induction imgs generalizing missing r with
  | nil =>
      refine ⟨h, fun i => .inl rfl, fun missing' r' hrun => ?_⟩
      cases hrun
      funext i
      rw [if_neg (by simp)]
  | cons img imgs ih =>
      have hwhole := h.removeImage img
      have hremoved := h.catalog_removeImage img
      have hone : ∀ i, catalog (finalState (removeImage img r)) i = catalog r i ∨
          i = img ∧ catalog (finalState (removeImage img r)) i = none := by
        intro i
        rw [hremoved]
        by_cases hi : i = img
        · rw [hi]
          exact .inr ⟨rfl, Function.update_self ..⟩
        · exact .inl (Function.update_of_ne hi ..)
      rw [removeEach]
      cases hrun : removeImage img r with
      | error e s =>
          rw [hrun, finalState_error] at hwhole hone
          rw [bind_of_error hrun]
          refine ⟨hwhole, fun i => ?_, fun _ _ hok => by cases hok⟩
          rcases hone i with heq | ⟨rfl, hnone⟩
          · exact .inl heq
          · exact .inr ⟨List.mem_cons_self .., hnone⟩
      | ok found s =>
          rw [hrun, finalState_ok] at hwhole hone hremoved
          rw [bind_of_ok hrun]
          obtain ⟨hend, hsome, hdone⟩ := ih (if found then missing else missing ++ [img]) hwhole
          refine ⟨hend, fun i => ?_, fun missing' r' hok => ?_⟩
          · rcases hsome i with heq | ⟨hin, hnone⟩
            · rcases hone i with heq' | ⟨hi, hnone⟩
              · exact .inl (heq.trans heq')
              · exact .inr ⟨hi ▸ List.mem_cons_self .., heq.trans hnone⟩
            · exact .inr ⟨List.mem_cons_of_mem _ hin, hnone⟩
          · rw [hdone missing' r' hok, hremoved]
            funext i
            by_cases hin : i ∈ imgs
            · rw [if_pos hin, if_pos (List.mem_cons_of_mem _ hin)]
            · rw [if_neg hin]
              by_cases hi : i = img
              · rw [hi, Function.update_self, if_pos (List.mem_cons_self ..)]
              · rw [Function.update_of_ne hi, if_neg (by simp [hi, hin])]

/-- What is not found is an error at the end. -/
theorem removeImages_final (imgs : List ImageReference) (r : Repo) :
    finalState (removeImages imgs r) = finalState (removeEach imgs [] r) := by
  rw [removeImages]
  cases hrun : removeEach imgs [] r with
  | error e s => rw [bind_of_error hrun, finalState_error, finalState_error]
  | ok missing s =>
      rw [bind_of_ok hrun, finalState_ok]
      by_cases hmissing : missing ≠ []
      · rw [if_pos hmissing]
        rfl
      · rw [if_neg hmissing]
        rfl

/-- The end of `container image remove`. -/
theorem collect_whole (h : Whole r) (hash : HashOrder) (skipGc : Bool) :
    Whole (finalState ((if skipGc then pure () else do
      let _ ← gcImageLayers hash
      pure () : RepoM Unit) r)) ∧
    catalog (finalState ((if skipGc then pure () else do
      let _ ← gcImageLayers hash
      pure () : RepoM Unit) r)) = catalog r := by
  cases skipGc with
  | true => exact ⟨h, rfl⟩
  | false =>
      rw [if_neg (by simp), finalState_bind_pure]
      exact h.collects hash

/-- **`container image remove`**, done or failed. -/
theorem containerRemove_may (h : Whole r) (imgrefs : List ImageReference) (skipGc : Bool) :
    Whole (finalState (containerRemove m imgrefs skipGc r)) ∧
    (∀ i, catalog (finalState (containerRemove m imgrefs skipGc r)) i = catalog r i ∨
      i ∈ imgrefs ∧ catalog (finalState (containerRemove m imgrefs skipGc r)) i = none) := by
  obtain ⟨hwhole, hsome, -⟩ := removeEach_may imgrefs [] h
  let P : Repo → Prop := fun s => Whole s ∧
    ∀ i, catalog s i = catalog r i ∨ i ∈ imgrefs ∧ catalog s i = none
  have hremoved : P (finalState (removeImages imgrefs r)) := by
    rw [removeImages_final]
    exact ⟨hwhole, hsome⟩
  show P (finalState _)
  refine finalState_bind hremoved (fun u s hrun => ?_)
  rw [hrun, finalState_ok] at hremoved
  obtain ⟨hend, hsame⟩ := collect_whole hremoved.1 m.host.hash skipGc
  refine ⟨hend, fun i => ?_⟩
  rw [hsame]
  exact hremoved.2 i

/-- When it is done, all of them are gone. -/
theorem containerRemove_done (h : Whole r) {imgrefs : List ImageReference} {skipGc : Bool} {u : Unit}
    (hrun : containerRemove m imgrefs skipGc r = .ok u r') :
    catalog r' = fun i => if i ∈ imgrefs then none else catalog r i := by
  obtain ⟨hwhole, -, hdone⟩ := removeEach_may imgrefs [] h
  obtain ⟨⟨⟩, s, hremove, hcollect⟩ := bind_ok hrun
  obtain ⟨missing, t, heach, hcheck⟩ := bind_ok hremove
  have ht : t = s := by
    by_cases hmissing : missing ≠ []
    · rw [if_pos hmissing] at hcheck
      cases hcheck
    · rw [if_neg hmissing] at hcheck
      cases hcheck
      rfl
  subst ht
  rw [heach, finalState_ok] at hwhole
  obtain ⟨-, hsame⟩ := collect_whole hwhole m.host.hash skipGc
  rw [hcollect, finalState_ok] at hsame
  rw [hsame]
  exact hdone missing t heach

/-- **The image that `deploy` needs**, done or failed. -/
theorem deployPull_may (h : Whole r) {registry : Registry} {imgref : OstreeImageReference}
    {options : DeployOpts} (hadm : ∀ imp prep r',
      ImageImporter.new registry m.ostreeV20243 imgref = .ok imp →
      (deployImporter imp options).prepare m.host r = .ok (.ready prep) r' →
      (deployImporter imp options).NoCollision m.host m.lib prep r') :
    Whole (finalState (deployPull m registry imgref options r)) ∧
    (catalog (finalState (deployPull m registry imgref options r)) = catalog r ∨
      options.noImgref = false ∧ Publishes registry imgref (options.target imgref).imgref (catalog r)
        (catalog (finalState (deployPull m registry imgref options r)))) ∧
    ∀ state r', deployPull m registry imgref options r = .ok state r' → options.noImgref = true ∨
      catalog r' (options.target imgref).imgref ≠ none ∨ catalog r imgref.imgref ≠ none := by
  rw [deployPull]
  cases hnew : ImageImporter.new registry m.ostreeV20243 imgref with
  | error e => exact ⟨h, .inl rfl, fun _ _ hok => by cases hok⟩
  | ok imp =>
      obtain ⟨hopen, himgref, -, -⟩ := new_eq_ok hnew
      have hproxy : registry imgref.imgref.display = .ok (deployImporter imp options).proxy := hopen
      have hsource : (deployImporter imp options).imgref = imgref := himgref
      obtain ⟨hwhole, hsame⟩ := prepare_whole h m.host (deployImporter imp options)
      have htarget : (deployImporter imp options).target = (options.target imgref).imgref := by
        show (options.targetImgref.getD imp.imgref).imgref = _
        rw [himgref]
        rfl
      have hno := hadm imp
      have hflag : (deployImporter imp options).noImgref = options.noImgref := rfl
      rw [bind_of_ok (liftR_ok _ _)]
      generalize deployImporter imp options = imp' at *
      cases hprep : imp'.prepare m.host r with
      | error e s =>
          rw [hprep, finalState_error] at hwhole hsame
          rw [bind_of_error hprep]
          exact ⟨hwhole, .inl hsame, fun _ _ hok => by cases hok⟩
      | ok res s =>
          rw [bind_of_ok hprep]
          cases res with
          | alreadyPresent state =>
              obtain ⟨rfl, hstored, -⟩ := prepare_upToDate hproxy hsource hprep
              refine ⟨h, .inl rfl, fun _ _ _ => .inr (.inr ?_)⟩
              rw [hstored]
              simp
          | ready prep =>
              obtain ⟨himported, hpublishes, hdone⟩ := import_whole h hprep (hno prep s hnew hprep)
              refine ⟨himported, ?_, fun state r' hrun => ?_⟩
              · rcases hpublishes with heq | ⟨hno, c, heq⟩
                · exact .inl heq
                · rw [htarget] at heq
                  exact .inr ⟨hflag.symm.trans hno, _, prepare_offers hproxy hprep c, heq⟩
              · obtain ⟨-, hcatalog⟩ := hdone state r' hrun
                rw [hflag] at hcatalog
                cases hno : options.noImgref with
                | true => exact .inl rfl
                | false =>
                    rw [hno, if_neg (by simp), htarget] at hcatalog
                    refine .inr (.inl ?_)
                    rw [hcatalog, Function.update_self]
                    simp

end Repository

-- ── Deployments ───────────────────────────────────────────────────────────────

section Deployments

variable {m : Machine} {s s' s'' : Sysroot} {new new' : Deployment → Prop}

theorem Settles.refl (s : Sysroot) : Settles new s s where
  deployments _ h := .inl h
  refs _ _ := rfl
  commits _ _ _ _ := rfl

theorem Settles.trans (h : Settles new s s') (h' : Settles new s' s'') : Settles new s s'' where
  deployments d hd := (h'.deployments d hd).elim (h.deployments d) .inr
  refs ref href := (h'.refs ref href).trans (h.refs ref href)
  commits ref c href hc :=
    (h'.commits ref c href ((h.refs ref href).trans hc)).trans (h.commits ref c href hc)

theorem Settles.mono (h : Settles new s s') (himp : ∀ d, new d → new' d) : Settles new' s s' where
  deployments d hd := (h.deployments d hd).imp_right (himp d)
  refs := h.refs
  commits := h.commits

/-- The refs of layers and of images are none of deployments. -/
theorem not_isDeploymentRef {ref : String} (h : Repo.refUnder imagePrefix ref = true ∨
    Repo.refUnder layerPrefix ref = true) : ¬ IsDeploymentRef ref := by
  rintro ⟨pfx, hpfx, hunder⟩
  have hmem : pfx ∈ deploymentPrefixes :=
    List.mem_append_left _ (List.mem_append_left _ hpfx)
  obtain ⟨himage, hlayer⟩ := deployment_disjoint hmem hunder
  rcases h with h | h
  · exact absurd (h.symm.trans himage) (by simp)
  · exact absurd (h.symm.trans hlayer) (by simp)

/-- **What libostree does with deployments** changes no image. -/
theorem Settles.whole (h : Settles new s s') (hs : Whole s.repo) :
    Whole s'.repo ∧ catalog s'.repo = catalog s.repo := by
  have hlookup : ∀ ref, Repo.refUnder imagePrefix ref = true ∨ Repo.refUnder layerPrefix ref = true →
      s'.repo.refs[ref]? = s.repo.refs[ref]? := fun ref hunder => h.refs ref (not_isDeploymentRef hunder)
  have hmem : ∀ ref, Repo.refUnder imagePrefix ref = true ∨ Repo.refUnder layerPrefix ref = true →
      (ref ∈ s'.repo.refs ↔ ref ∈ s.repo.refs) := by
    intro ref hunder
    rw [ExtTreeMap.mem_iff_lookup, ExtTreeMap.mem_iff_lookup, hlookup ref hunder]
  constructor
  · constructor
    · intro ref hin hunder
      exact hs.blobs ref ((hmem ref (.inr hunder)).mp hin) hunder
    · intro ref hin hunder
      exact hs.images ref ((hmem ref (.inl hunder)).mp hin) hunder
    · intro ref c hc hunder
      have hbefore := (hlookup ref (.inl hunder)).symm.trans hc
      obtain ⟨m, hm, hstored⟩ := hs.complete ref c hbefore hunder
      refine ⟨m, ?_, hstored.mono (fun _ _ ref href hin => ?_)⟩
      · rw [manifestOfCommit, Repo.loadCommit,
          h.commits ref c (not_isDeploymentRef (.inl hunder)) hbefore]
        exact hm
      · exact (hmem ref (.inr (refUnder_of_escape href))).mpr hin
  · refine catalog_ext (fun i ref href => ?_) (fun _ _ hnone => catalog_none hnone)
    have hsame := hlookup ref (.inl (refUnder_of_escape href))
    exact catalog_congr href hsame
      (fun c hc => h.commits ref c (not_isDeploymentRef (.inl (refUnder_of_escape href))) hc)

/-- What is deployed then. -/
theorem Settles.deployed (h : Settles new s s') {i : ImageReference}
    (hi : Deployed s'.deployments i) : Deployed s.deployments i ∨
      ∃ d o, new d ∧ deploymentOriginContainer d = .ok (some o) ∧ o.imgref = i := by
  obtain ⟨d, hd, o, ho, hi⟩ := hi
  rcases h.deployments d hd with hold | hnew
  · exact .inl ⟨d, hold, o, ho, hi⟩
  · exact .inr ⟨d, o, hnew, ho, hi⟩

/-- The origin that `deploy` writes. -/
theorem readsBack_of_origin {target o : OstreeImageReference} {d : Deployment}
    (hd : d.origin = some (originOf target.display))
    (ho : deploymentOriginContainer d = .ok (some o)) : ReadsBack target o.imgref := by
  obtain ⟨origin⟩ := d
  obtain rfl : origin = some (originOf target.display) := hd
  have hread : (OstreeImageReference.tryFrom target.display).map some = .ok (some o) := ho
  cases hparse : OstreeImageReference.tryFrom target.display with
  | error e =>
      rw [hparse] at hread
      cases hread
  | ok o' =>
      rw [hparse] at hread
      cases hread
      exact ⟨o, hparse, rfl⟩

/-- The deployments of which the origin is that of the target. -/
def OfTarget (target : OstreeImageReference) (d : Deployment) : Prop :=
  d.origin = some (originOf target.display)

/-- **The deployment**, done or failed. -/
theorem deployWrite_settles (m : Machine) (stateroot : String) (imgref : OstreeImageReference)
    (options : DeployOpts) (state : LayeredImageState) (s : Sysroot) :
    Settles (OfTarget (options.target imgref)) s
      (finalState (deployWrite m stateroot imgref options state s)) := by
  rw [deployWrite, bind_of_ok (get_run s)]
  split
  · rw [finalState_bind_pure]
    exact m.writer.stageTree_settles ..
  · have hdeploy : Settles (OfTarget (options.target imgref)) s (finalState (m.writer.deployTree
        stateroot state.mergeCommit (originOf (options.target imgref).display) options.kargs s)) :=
      (m.writer.deployTree_settles ..).mono (fun _ hfalse => hfalse.elim)
    refine finalState_bind hdeploy (fun d s₁ hrun => ?_)
    rw [hrun, finalState_ok] at hdeploy
    have horigin := m.writer.deployTree_origin _ _ _ _ _ _ _ hrun
    have hwrite := hdeploy.trans ((m.writer.simpleWriteDeployment_settles stateroot d options.noClean
      s₁).mono (fun d' heq => (show OfTarget (options.target imgref) d' from heq ▸ horigin)))
    refine finalState_bind hwrite (fun u s₂ hrun => ?_)
    rw [hrun, finalState_ok] at hwrite
    split
    · exact hwrite
    · rw [finalState_bind_pure]
      exact hwrite.trans ((m.writer.cleanup_settles s₂).mono (fun _ hfalse => hfalse.elim))

theorem finalState_inRepo {α : Type} (x : RepoM α) (s : Sysroot) :
    finalState (inRepo x s) = { s with repo := finalState (x s.repo) } := by
  rw [inRepo]
  cases x s.repo <;> rfl

theorem inRepo_eq_ok {α : Type} {x : RepoM α} {a : α} :
    inRepo x s = .ok a s' ↔ ∃ r, x s.repo = .ok a r ∧ s' = { s with repo := r } := by
  rw [inRepo]
  cases hx : x s.repo with
  | ok b r =>
      constructor
      · intro h
        cases h
        exact ⟨r, rfl, rfl⟩
      · rintro ⟨r', hr, rfl⟩
        cases hr
        rfl
  | error e r =>
      constructor
      · intro h
        cases h
      · rintro ⟨r', hr, -⟩
        cases hr

/-- **`deploy`**, done or failed. -/
theorem deploy_may (h : Whole s.repo) {stateroot : String} {registry : Registry}
    {imgref : OstreeImageReference} {options : DeployOpts} (hadm : ∀ imp prep r,
      ImageImporter.new registry m.ostreeV20243 imgref = .ok imp →
      (deployImporter imp options).prepare m.host s.repo = .ok (.ready prep) r →
      (deployImporter imp options).NoCollision m.host m.lib prep r) :
    Whole (finalState (deploy m stateroot registry imgref options s)).repo ∧
    Deploys registry imgref options (view s)
      (view (finalState (deploy m stateroot registry imgref options s))) := by
  obtain ⟨hwhole, himages, hdone⟩ := deployPull_may h hadm
  let P : Sysroot → Prop := fun s' => Whole s'.repo ∧ Deploys registry imgref options (view s) (view s')
  have hpull : P (finalState (inRepo (deployPull m registry imgref options) s)) := by
    rw [finalState_inRepo]
    exact ⟨hwhole, himages, fun i hi => .inl hi⟩
  show P (finalState _)
  refine finalState_bind hpull (fun state s₁ hlift => ?_)
  obtain ⟨r, hrun, rfl⟩ := inRepo_eq_ok.mp hlift
  rw [hrun, finalState_ok] at hwhole himages
  have hsettles := deployWrite_settles m stateroot imgref options state { s with repo := r }
  obtain ⟨hend, hsame⟩ := hsettles.whole hwhole
  refine ⟨hend, ?_, fun i hi => ?_⟩
  · show catalog _ = _ ∨ _ ∧ Publishes _ _ _ _ (catalog _)
    rw [hsame]
    exact himages
  · rcases hsettles.deployed hi with hold | ⟨d, o, hd, ho, rfl⟩
    · exact .inl hold
    · refine .inr ⟨readsBack_of_origin hd ho, ?_⟩
      show _ ∨ catalog _ _ ≠ none ∨ _
      rw [hsame]
      exact hdone state r hrun

end Deployments

-- ── Commands ──────────────────────────────────────────────────────────────────

section Commands

variable {m : Machine} {s s' : Sysroot} {cmd : Command}

/-- **`container image deploy`**, done or failed. -/
theorem containerDeploy_may (h : Whole s.repo) {registry : Registry} {args : DeployArgs}
    (hadm : (Command.deploy registry args).Admissible m s) :
    Whole (finalState (containerDeploy m registry args s)).repo ∧
    (Command.deploy registry args).May (view s)
      (view (finalState (containerDeploy m registry args s))) := by
  rw [containerDeploy, bind_of_ok (get_run s)]
  cases himgref : args.imageRef with
  | error e => exact ⟨h, .inl rfl⟩
  | ok imgref =>
      rw [bind_of_ok (liftR_ok _ _)]
      obtain ⟨hwhole, hdeploys⟩ := @deploy_may m s h (args.stateroot.getD
        (s.booted.getD staterootDefault)) registry imgref args.options
        (fun imp prep r hnew hprep => hadm imgref imp prep r himgref hnew hprep)
      rw [finalState_bind_reads]
      · exact ⟨hwhole, .inr ⟨imgref, himgref, hdeploys⟩⟩
      · intro state t
        rw [bind_of_ok (get_run t), finalState_bind_reads, finalState_liftR]
        intro _ t
        cases args.writeCommitidTo with
        | none => rfl
        | some path => exact finalState_liftR _ _

/-- **`container image prune-images`**, done or failed. -/
theorem containerPruneImages_may (h : Whole s.repo) (andLayers full : Bool) :
    Whole (finalState (containerPruneImages m andLayers full s)).repo ∧
    (Command.pruneImages andLayers full).May (view s)
      (view (finalState (containerPruneImages m andLayers full s))) := by
  rw [containerPruneImages, bind_of_ok (get_run s)]
  cases full with
  | true =>
      obtain ⟨hwhole, hsheds⟩ := h.prune m.host.hash m.objects s.deployments
      rw [if_pos rfl, finalState_bind_pure, finalState_inRepo]
      exact ⟨hwhole, rfl, hsheds⟩
  | false =>
      obtain ⟨hwhole, hsheds⟩ := h.removeUndeployedImages m.host.hash s.deployments
      rw [if_neg (by simp)]
      let P : Sysroot → Prop := fun s' => Whole s'.repo ∧
        (Command.pruneImages andLayers false).May (view s) (view s')
      have hremoved : P (finalState (inRepo (removeUndeployedImages m.host.hash s.deployments) s)) := by
        rw [finalState_inRepo]
        exact ⟨hwhole, rfl, hsheds⟩
      show P (finalState _)
      refine finalState_bind hremoved (fun removed t hrun => ?_)
      rw [hrun, finalState_ok] at hremoved
      split
      · obtain ⟨hend, hsame⟩ := hremoved.1.collects m.host.hash
        rw [finalState_bind_pure, finalState_inRepo]
        refine ⟨hend, hremoved.2.1, ?_⟩
        show Sheds _ _ (catalog _)
        rw [hsame]
        exact hremoved.2.2
      · exact hremoved

/-- **Every command, done or failed**, keeps a whole repository whole, and does what it may do. -/
theorem Command.run_may (h : Whole s.repo) (hadm : cmd.Admissible m s) :
    Whole (finalState (cmd.run m s)).repo ∧ cmd.May (view s) (view (finalState (cmd.run m s))) := by
  cases cmd with
  | pull registry imgref quiet check =>
      obtain ⟨hwhole, himages⟩ := @containerStore_may m s.repo h registry imgref quiet check hadm
      rw [Command.run, finalState_inRepo]
      exact ⟨hwhole, rfl, himages⟩
  | unencapsulate registry imgref writeRef =>
      obtain ⟨hwhole, hsame⟩ := @containerImport_may m s.repo h registry imgref writeRef hadm
      rw [Command.run, finalState_inRepo]
      exact ⟨hwhole, congrArg (fun k => View.mk k (view s).deployed) hsame⟩
  | remove imgrefs skipGc =>
      obtain ⟨hwhole, hsome⟩ := @containerRemove_may m s.repo h imgrefs skipGc
      rw [Command.run, finalState_inRepo]
      exact ⟨hwhole, rfl, hsome⟩
  | pruneLayers =>
      obtain ⟨hwhole, hsame⟩ := h.collects m.host.hash
      rw [Command.run, finalState_inRepo, finalState_bind_pure]
      exact ⟨hwhole, congrArg (fun k => View.mk k (view s).deployed) hsame⟩
  | pruneImages andLayers full => exact containerPruneImages_may h andLayers full
  | copy srcRepo imgref =>
      obtain ⟨hwhole, himages, -⟩ := @copy_exact srcRepo s.repo imgref.imgref imgref.imgref m.pull h
        hadm.1 hadm.2
      rw [Command.run, finalState_inRepo]
      exact ⟨hwhole, rfl, himages⟩
  | deploy registry args => exact containerDeploy_may h hadm

/-- **A command that is done** has done what it is for. -/
theorem Command.run_does (h : Whole s.repo) (hadm : cmd.Admissible m s) {u : Unit}
    (hrun : cmd.run m s = .ok u s') : cmd.Does (view s) (view s') := by
  have hmay := (cmd.run_may h hadm).2
  rw [hrun, finalState_ok] at hmay
  cases cmd with
  | pull registry imgref quiet check =>
      refine ⟨hmay, ?_⟩
      rintro rfl
      obtain ⟨r, hrepo, rfl⟩ := inRepo_eq_ok.mp hrun
      rcases containerStore_done h hadm hrepo with hnew | ⟨rfl, hfound⟩
      · exact .inl hnew
      · exact .inr ⟨rfl, hfound⟩
  | remove imgrefs skipGc =>
      obtain ⟨r, hrepo, rfl⟩ := inRepo_eq_ok.mp hrun
      exact ⟨rfl, containerRemove_done h hrepo⟩
  | copy srcRepo imgref =>
      obtain ⟨r, hrepo, rfl⟩ := inRepo_eq_ok.mp hrun
      obtain ⟨-, -, hdone⟩ := @copy_exact srcRepo s.repo imgref.imgref imgref.imgref m.pull h
        hadm.1 hadm.2
      exact ⟨rfl, (hdone u r hrepo).catalog⟩
  | unencapsulate registry imgref writeRef => exact hmay
  | pruneLayers => exact hmay
  | pruneImages andLayers full => exact hmay
  | deploy registry args => exact hmay

/-- **One step** is a step of the specification. -/
theorem Step.refines {e : Event} (h : Whole s.repo) (hstep : Step m e s s') :
    Whole s'.repo ∧ Specifies e (view s) (view s') := by
  cases hstep with
  | done hadm u hrun =>
      have hwhole := (Command.run_may h hadm).1
      rw [hrun, finalState_ok] at hwhole
      exact ⟨hwhole, Command.run_does h hadm hrun⟩
  | failed hadm err hrun =>
      obtain ⟨hwhole, hmay⟩ := Command.run_may h hadm
      rw [hrun, finalState_error] at hwhole hmay
      exact ⟨hwhole, hmay⟩
  | other hsettles =>
      obtain ⟨hwhole, hsame⟩ := hsettles.whole h
      refine ⟨hwhole, hsame, fun i hi => ?_⟩
      rcases hsettles.deployed hi with hold | ⟨d, o, hd, ho, -⟩
      · exact hold
      · exact absurd (hd.symm.trans ho) (by simp)

/-- **A run of commands**, done or failed, and of other tools: the repository stays whole, and the
    users see a run of the specification. -/
theorem machine_refines {es : List Event} (h : Whole s.repo)
    (hrun : Refinement.Run (Step m) es s s') :
    Whole s'.repo ∧ Refinement.Run Specifies es (view s) (view s') :=
  hrun.refines (I := fun s => Whole s.repo) (fun _ _ _ h hstep => hstep.refines h) h

end Commands

-- ── A small system root ───────────────────────────────────────────────────────

section Sample

/-- The ref of the first deployment. -/
def deploymentRef : String := "ostree/0/1/0"

theorem isDeploymentRef_deploymentRef : IsDeploymentRef deploymentRef :=
  ⟨"ostree/0", by decide, by decide⟩

/-- The ref of a deployment is written. -/
def setDeploymentRef (c : Checksum) (s : Sysroot) : Sysroot :=
  { s with repo := { s.repo with refs := s.repo.refs.insert deploymentRef c } }

theorem setDeploymentRef_settles {new : Deployment → Prop} (c : Checksum) (s : Sysroot) :
    Settles new s (setDeploymentRef c s) where
  deployments _ h := .inl h
  refs ref href := by
    show (s.repo.refs.insert deploymentRef c)[ref]? = _
    rw [ExtTreeMap.lookup_insert, if_neg]
    rintro rfl
    exact href isDeploymentRef_deploymentRef
  commits _ _ _ _ := rfl

def addDeployment (d : Deployment) (s : Sysroot) : Sysroot :=
  { s with deployments := d :: s.deployments }

theorem addDeployment_settles {new : Deployment → Prop} {d : Deployment} (hd : new d) (s : Sysroot) :
    Settles new s (addDeployment d s) where
  deployments d' h := by
    rcases List.mem_cons.mp h with rfl | hold
    · exact .inr hd
    · exact .inl hold
  refs _ _ := rfl
  commits _ _ _ _ := rfl

/-- A system root that has no deployment yet, and nothing to clean up. -/
def SysrootWriter.first : SysrootWriter where
  deployTree _ c origin _ := do
    modify (setDeploymentRef c)
    pure { origin := some origin }
  stageTree _ c origin _ := do
    modify (setDeploymentRef c)
    modify (addDeployment { origin := some origin })
    pure { origin := some origin }
  simpleWriteDeployment _ d _ := modify (addDeployment d)
  cleanup := pure ()
  deployTree_settles _ c _ _ s := setDeploymentRef_settles c s
  deployTree_origin := by
    intro stateroot c origin kargs s d s' hrun
    cases hrun
    rfl
  stageTree_settles _ c origin _ s :=
    (setDeploymentRef_settles c s).trans (@addDeployment_settles (fun d => d.origin = some origin)
      { origin := some origin } rfl (setDeploymentRef c s))
  simpleWriteDeployment_settles _ d _ s := @addDeployment_settles (fun d' => d' = d) d rfl s
  cleanup_settles s := Settles.refl s

noncomputable def sampleMachine : Machine where
  host := sampleHost
  lib := sampleTables.lib
  ostreeV20243 := false
  objects := .idle
  pull := .whole
  writer := .first
  printer _ := .ok ()
  countOrder l := l
  writeManifest _ _ := .ok ()
  writeCommitid _ _ := .ok ()

/-- A registry that serves the sample image, under any name. -/
def sampleRegistry : Registry := fun _ => .ok (sampleProxy sampleManifestDigest sampleManifest)

def sampleImgref : OstreeImageReference :=
  { sigverify := .containerPolicyAllowInsecure, imgref := sampleImage }

/-- `container image pull` of the sample image. -/
def samplePull : Command := .pull sampleRegistry sampleImgref true none

def sampleArgs : DeployArgs := { imgref := some "ostree-unverified-registry:quay.io/os" }

/-- `container image deploy` of the sample image. -/
def sampleDeploy : Command := .deploy sampleRegistry sampleArgs

theorem imageRef_sampleArgs : sampleArgs.imageRef = .ok sampleImgref := by decide +kernel

theorem new_sample : ImageImporter.new sampleRegistry sampleMachine.ostreeV20243 sampleImgref
    = .ok (sampleImporter false) := rfl

/-- No commit is stored under the checksum of the merge commit. -/
theorem noCollision_sample {r : Repo} (hnone : r.commits[sampleCommitSum]? = none)
    (hmerge : r.commits[emptySha256]? = none) :
    (sampleImporter false).NoCollision sampleHost sampleTables.lib samplePrep r := by
  intro m s c r' root objects b hfetch hmerges hb
  obtain ⟨s', hfetch', -, hcommits, -⟩ := sample_fetchLayers false hnone
  cases hfetch'.symm.trans hfetch
  have hmanifest : (mergeCommit sampleInput root).metadata[metaManifest]?
      = some (.manifest sampleManifest) := (lookup_mergeMetadata samplePrep ∅).2.1
  rw [hmerges.result, commitChecksum_of_manifest hmanifest, hcommits,
    ExtTreeMap.lookup_insertIfNew, if_neg (by decide), hmerge] at hb
  cases hb

theorem samplePull_admissible : samplePull.Admissible sampleMachine {} := by
  intro imp prep r hnew hprep
  cases new_sample.symm.trans hnew
  have hready := sample_prepare (r := {}) false (ExtTreeMap.lookup_empty _) (ExtTreeMap.lookup_empty _)
  cases hready.symm.trans hprep
  exact noCollision_sample (ExtTreeMap.lookup_empty _) (ExtTreeMap.lookup_empty _)

/-- Nothing was filtered from the sample image. -/
theorem sample_unwarned {r : Repo} (href : r.refs[sampleImageRef]? = some emptySha256)
    (hcommit : r.loadCommit emptySha256 = .ok sampleMerge) :
    imageFilteredContentWarning sampleMachine.countOrder r sampleImage = .ok none := by
  have hname : refForImage sampleImage = .ok sampleImageRef := refForImage_sample
  have hfiltered : lookupFiltered sampleMerge.metadata = .ok (some ∅) := by
    have hlookup : sampleMerge.metadata[metaFiltered]? = some (.filtered ∅) := by
      show (mergeMetadata samplePrep ∅)[metaFiltered]? = _
      rw [mergeMetadata, ExtTreeMap.lookup_insert, if_pos rfl]
    rw [lookupFiltered, hlookup]
  rw [imageFilteredContentWarning, hname, bind_ok_eq, requireRev_of_escape escape_sampleImageRef, href,
    okOr_some, bind_ok_eq, hcommit, bind_ok_eq, hfiltered, bind_ok_eq]
  rfl

/-- The image is pulled. -/
theorem samplePull_done : ∃ r, SampleStored r ∧ r.commitmetas = ∅ ∧
    samplePull.run sampleMachine {} = .ok () { repo := r } := by
  obtain ⟨r, hprepare, -, himport, hstored, hmetas⟩ := sample_imported
  have hwarn := sample_unwarned (hstored.lookup.mpr (.inl ⟨rfl, rfl⟩)) hstored.mergeCommit
  have himport : (pullImporter sampleMachine (sampleImporter false) true).importImage sampleHost
      sampleTables.lib samplePrep {} = .ok (sampleState none) r := himport
  have hrun : containerStore sampleMachine sampleRegistry sampleImgref true none {} = .ok () r := by
    rw [containerStore, new_sample, bind_of_ok (liftR_ok _ _),
      bind_of_ok (show (sampleImporter false).prepare sampleMachine.host {} = _ from hprepare)]
    refine (bind_of_ok himport).trans ?_
    rw [bind_of_ok (get_run r), show imageFilteredContentWarning _ r sampleImgref.imgref = _ from hwarn]
    rfl
  exact ⟨r, hstored, hmetas, inRepo_eq_ok.mpr ⟨r, hrun, rfl⟩⟩

/-- The system root after it was deployed, too. -/
def deployedRoot (target : OstreeImageReference) (r : Repo) : Sysroot :=
  addDeployment { origin := some (originOf target.display) }
    (setDeploymentRef emptySha256 { repo := r })

/-- The image that was pulled is found. -/
theorem finds_sample {r : Repo} (h : SampleStored r) (hmetas : r.commitmetas = ∅)
    (options : DeployOpts) : (deployImporter (sampleImporter false) options).Finds sampleMachine.host r
      (sampleState none) := by
  have hupdate : cachedUpdateOf r emptySha256 = .ok none := by
    have hcm : r.commitmetas[emptySha256]? = none := by
      rw [hmetas]
      exact ExtTreeMap.lookup_empty _
    rw [cachedUpdateOf, hcm]
  have hfinds := h.finds hupdate true
  exact ⟨rfl, hfinds.stored, hfinds.served⟩

theorem deploy_sample {r : Repo} (h : SampleStored r) (hmetas : r.commitmetas = ∅)
    (options : DeployOpts) :
    deploy sampleMachine staterootDefault sampleRegistry sampleImgref options { repo := r }
      = .ok (sampleState none) (deployedRoot (options.target sampleImgref) r) := by
  have hprepare := prepare_of_finds (finds_sample h hmetas options)
  have hpull : deployPull sampleMachine sampleRegistry sampleImgref options r
      = .ok (sampleState none) r := by
    rw [deployPull, new_sample, bind_of_ok (liftR_ok _ _)]
    exact bind_of_ok hprepare
  rw [deploy]
  refine (bind_of_ok (inRepo_eq_ok.mpr ⟨r, hpull, rfl⟩)).trans ?_
  obtain ⟨kargs, targetImgref, noImgref, noClean⟩ := options
  cases noClean <;> rfl

theorem sampleDeploy_done {r : Repo} (h : SampleStored r) (hmetas : r.commitmetas = ∅) :
    sampleDeploy.run sampleMachine { repo := r } = .ok () (deployedRoot sampleImgref r) := by
  have href : (deployedRoot sampleImgref r).repo.refs[sampleImageRef]? = some emptySha256 := by
    show (r.refs.insert deploymentRef emptySha256)[sampleImageRef]? = _
    rw [ExtTreeMap.lookup_insert, if_neg (by decide +kernel)]
    exact h.lookup.mpr (.inl ⟨rfl, rfl⟩)
  have hwarn := sample_unwarned href h.mergeCommit
  show containerDeploy sampleMachine sampleRegistry sampleArgs _ = _
  rw [containerDeploy, bind_of_ok (get_run _), imageRef_sampleArgs, bind_of_ok (liftR_ok _ _)]
  refine (bind_of_ok (deploy_sample h hmetas sampleArgs.options)).trans ?_
  rw [bind_of_ok (get_run _)]
  have hread : (liftR (imageFilteredContentWarning sampleMachine.countOrder (deployedRoot sampleImgref r).repo
      (sampleArgs.targetImgref.getD sampleImgref).imgref) : SysrootM (Option String)) (deployedRoot sampleImgref r)
        = .ok none (deployedRoot sampleImgref r) := by
    show (liftR (imageFilteredContentWarning sampleMachine.countOrder (deployedRoot sampleImgref r).repo sampleImage)
      : SysrootM (Option String)) (deployedRoot sampleImgref r) = _
    rw [hwarn, liftR_ok]
  exact bind_of_ok hread

theorem sampleDeploy_admissible {r : Repo} (h : SampleStored r) (hmetas : r.commitmetas = ∅) :
    sampleDeploy.Admissible sampleMachine { repo := r } := by
  intro imgref imp prep r' himgref hnew hprep
  cases imageRef_sampleArgs.symm.trans himgref
  cases new_sample.symm.trans hnew
  cases (prepare_of_finds (finds_sample h hmetas sampleArgs.options)).symm.trans hprep

/-- The steps of the run. -/
theorem sample_steps : ∃ r, SampleStored r ∧ Refinement.Run (Step sampleMachine)
    [.done samplePull, .done sampleDeploy, .other] {} (deployedRoot sampleImgref r) := by
  obtain ⟨r, hstored, hmetas, hpull⟩ := samplePull_done
  refine ⟨r, hstored, .next (.done samplePull_admissible () hpull)
    (.next (.done (sampleDeploy_admissible hstored hmetas) () (sampleDeploy_done hstored hmetas))
      (.next (.other (Settles.refl _)) (.done _)))⟩

theorem deployed_sample (r : Repo) : Deployed (deployedRoot sampleImgref r).deployments sampleImage :=
  ⟨_, List.mem_cons_self .., sampleImgref, by decide +kernel, rfl⟩

/-- **The sample image is pulled and deployed**, in an empty system root. -/
theorem machine_refines_sample : ∃ s, Whole s.repo ∧ Deployed s.deployments sampleImage ∧
    Refinement.Run Specifies [.done samplePull, .done sampleDeploy, .other] (view {}) (view s) := by
  obtain ⟨r, -, hrun⟩ := sample_steps
  obtain ⟨hwhole, hspec⟩ := machine_refines whole_empty hrun
  exact ⟨deployedRoot sampleImgref r, hwhole, deployed_sample r, hspec⟩

end Sample

end OstreeExt.Sysroot
