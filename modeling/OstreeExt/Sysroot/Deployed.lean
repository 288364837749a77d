import OstreeExt.Sysroot.Refines

/-!
# Deployed images

An image that is deployed is to stay in the repository: it is what the next update is compared
with, and its layers are what need not be fetched again.  Nothing that the commands do takes care of
that as a whole: a deployed image can be removed by name, and `deploy` does not write the reference
of its target where it is told so, or where it finds the image under its own reference.

**`deployed_stored`**: in every run of commands that avoid this, each deployed image is stored with
all its layers, whatever else is pulled, removed, pruned, copied or deployed, and whatever fails.
-/

namespace OstreeExt.Sysroot

open OstreeExt Exec Std Store Refescape

-- ── Careful commands ──────────────────────────────────────────────────────────

/-- The deployed images are stored. -/
def Kept (v : View) : Prop := ∀ i, v.deployed i → v.images i ≠ none

/-- The reference has a name, and its remote has no colon. -/
def Plain (target : OstreeImageReference) : Prop :=
  target.imgref.name ≠ "" ∧ ∀ remote, target.sigverify = .ostreeRemote remote → ':' ∉ remote.toList

/-- No deployed image is removed, or replaced by nothing.  What is deployed is stored under the
    reference in its origin. -/
def Command.Careful : Command → View → Prop
  | .remove imgrefs _, v => ∀ i ∈ imgrefs, ¬ v.deployed i
  | .copy srcRepo imgref, v => v.deployed imgref.imgref → catalog srcRepo imgref.imgref ≠ none
  | .deploy _ args, v => args.noImgref = false ∧ ∀ imgref, args.imageRef = .ok imgref →
      Plain (args.options.target imgref) ∧ (args.targetImgref = none ∨
        v.images imgref.imgref = none ∨ v.images (args.options.target imgref).imgref ≠ none)
  | _, _ => True

def Event.Careful : Event → View → Prop
  | .done cmd, v => cmd.Careful v
  | .failed cmd, v => cmd.Careful v
  | .other, _ => True

-- ── The specification ─────────────────────────────────────────────────────────

section Specification

variable {v v' : View} {cmd : Command}

theorem readsBack_plain {target : OstreeImageReference} (h : Plain target) {i : ImageReference}
    (hi : ReadsBack target i) : i = target.imgref := by
  obtain ⟨o, ho, rfl⟩ := hi
  rw [OstreeImageReference.tryFrom_display h.1 h.2] at ho
  rw [Except.ok.inj ho]

/-- Where an image is stored, the others stay. -/
theorem update_ne_none {k k' : Images} {j : ImageReference} {o : Option CatalogEntry} (ho : o ≠ none)
    (hk : k' = Function.update k j o) {i : ImageReference} (hi : k i ≠ none) : k' i ≠ none := by
  rw [hk]
  by_cases hij : i = j
  · rw [hij, Function.update_self]
    exact ho
  · rw [Function.update_of_ne hij]
    exact hi

theorem Publishes.ne_none {registry : Registry} {imgref : OstreeImageReference}
    {target : ImageReference} {k k' : Images} (h : Publishes registry imgref target k k')
    {i : ImageReference} (hi : k i ≠ none) : k' i ≠ none := by
  obtain ⟨e, -, hk⟩ := h
  exact update_ne_none (by simp) hk hi

/-- A deployment of a careful command. -/
theorem Deploys.keeps {registry : Registry} {imgref : OstreeImageReference} {options : DeployOpts}
    (h : Deploys registry imgref options v v') (hv : Kept v) (hno : options.noImgref = false)
    (hplain : Plain (options.target imgref)) (hstored : options.targetImgref = none ∨
      v.images imgref.imgref = none ∨ v.images (options.target imgref).imgref ≠ none) : Kept v' := by
  obtain ⟨himages, hdeployed⟩ := h
  have hgrows : ∀ i, v.images i ≠ none → v'.images i ≠ none := by
    intro i hi
    rcases himages with heq | ⟨-, hpublishes⟩
    · rw [heq]
      exact hi
    · exact hpublishes.ne_none hi
  intro i hi
  rcases hdeployed i hi with hold | ⟨hback, hwhere⟩
  · exact hgrows i (hv i hold)
  obtain rfl := readsBack_plain hplain hback
  rcases hwhere with hflag | hthere | hfound
  · exact absurd (hno.symm.trans hflag) (by simp)
  · exact hthere
  · -- the image was found under its own reference, which then has to be that of the target
    rcases hstored with hsame | hnone | hthere
    · have htarget : options.target imgref = imgref := by rw [DeployOpts.target, hsame]; rfl
      rw [htarget]
      exact hgrows _ hfound
    · exact absurd hnone hfound
    · exact hgrows _ hthere

/-- **What a careful command may do** keeps the deployed images. -/
theorem Command.May.keeps (h : cmd.May v v') (hcareful : cmd.Careful v) (hv : Kept v) : Kept v' := by
  cases cmd with
  | pull registry imgref quiet check =>
      obtain ⟨hdeployed, himages⟩ := h
      intro i hi
      rw [hdeployed] at hi
      rcases himages with heq | ⟨-, hpublishes⟩
      · rw [heq]
        exact hv i hi
      · exact hpublishes.ne_none (hv i hi)
  | unencapsulate registry imgref writeRef =>
      obtain rfl : v' = v := h
      exact hv
  | remove imgrefs skipGc =>
      obtain ⟨hdeployed, himages⟩ := h
      intro i hi
      rw [hdeployed] at hi
      rcases himages i with heq | ⟨hin, -⟩
      · rw [heq]
        exact hv i hi
      · exact absurd hi (hcareful i hin)
  | pruneLayers =>
      obtain rfl : v' = v := h
      exact hv
  | pruneImages andLayers full =>
      obtain ⟨hdeployed, hsheds⟩ := h
      intro i hi
      rw [hdeployed] at hi
      rcases hsheds i with heq | ⟨-, hnot⟩
      · rw [heq]
        exact hv i hi
      · exact absurd hi hnot
  | copy srcRepo imgref =>
      obtain ⟨hdeployed, himages⟩ := h
      intro i hi
      rw [hdeployed] at hi
      rcases himages with heq | heq
      · rw [heq]
        exact hv i hi
      · by_cases hij : i = imgref.imgref
        · subst hij
          rw [heq, Function.update_self]
          exact hcareful hi
        · rw [heq, Function.update_of_ne hij]
          exact hv i hi
  | deploy registry args =>
      obtain ⟨hno, hcareful⟩ := hcareful
      rcases h with rfl | ⟨imgref, himgref, hdeploys⟩
      · exact hv
      · obtain ⟨hplain, hstored⟩ := hcareful imgref himgref
        exact hdeploys.keeps hv hno hplain hstored

/-- What a command has done is something that it may do. -/
theorem Command.Does.may (h : cmd.Does v v') : cmd.May v v' := by
  cases cmd with
  | pull registry imgref quiet check => exact h.1
  | remove imgrefs skipGc =>
      obtain ⟨hdeployed, himages⟩ := h
      refine ⟨hdeployed, fun i => ?_⟩
      rw [himages]
      by_cases hin : i ∈ imgrefs
      · exact .inr ⟨hin, if_pos hin⟩
      · exact .inl (if_neg hin)
  | copy srcRepo imgref => exact ⟨h.1, .inr h.2⟩
  | unencapsulate registry imgref writeRef => exact h
  | pruneLayers => exact h
  | pruneImages andLayers full => exact h
  | deploy registry args => exact h

theorem Specifies.keeps {e : Event} (h : Specifies e v v') (hcareful : e.Careful v) (hv : Kept v) :
    Kept v' := by
  cases e with
  | done cmd => exact (Command.Does.may h).keeps hcareful hv
  | failed cmd => exact Command.May.keeps h hcareful hv
  | other =>
      obtain ⟨himages, hdeployed⟩ := h
      intro i hi
      rw [himages]
      exact hv i (hdeployed i hi)

end Specification

-- ── The system ────────────────────────────────────────────────────────────────

section System

variable {m : Machine} {s s' : Sysroot}

/-- A step of a careful command, or of other tools. -/
def CarefulStep (m : Machine) (e : Event) (s s' : Sysroot) : Prop :=
  Step m e s s' ∧ e.Careful (view s)

/-- **Every deployed image is stored with all its layers**, after each run of careful commands. -/
theorem deployed_stored {es : List Event} (h : Whole s.repo) (hkept : Kept (view s))
    (hrun : Refinement.Run (CarefulStep m) es s s') {i : ImageReference}
    (hi : Deployed s'.deployments i) : ∃ ref e, refForImage i = .ok ref ∧
      s'.repo.refs[ref]? = some e.mergeCommit ∧ entryAt s'.repo e.mergeCommit = some e ∧
      LayersStored e.manifest.layers s'.repo := by
  have hend : Whole s'.repo ∧ Kept (view s') := by
    refine hrun.keeps (I := fun s => Whole s.repo ∧ Kept (view s)) (fun e t t' ht hstep => ?_)
      ⟨h, hkept⟩
    obtain ⟨hwhole, hspec⟩ := hstep.1.refines ht.1
    exact ⟨hwhole, hspec.keeps hstep.2 ht.2⟩
  obtain ⟨hwhole, hkept⟩ := hend
  obtain ⟨e, he⟩ := Option.ne_none_iff_exists'.mp (hkept i hi)
  obtain ⟨ref, href, hc, hentry⟩ := catalog_eq_some.mp he
  obtain ⟨manifest, hm, hstored⟩ := hwhole.complete ref _ hc (refUnder_of_escape href)
  obtain rfl : e.manifest = manifest := Except.ok.inj ((entryAt_manifest hentry).symm.trans hm)
  exact ⟨ref, e, href, hc, hentry, hstored⟩

/-- The image that is pulled and deployed is stored, whatever other tools do. -/
theorem deployed_stored_sample : ∃ s : Sysroot, Deployed s.deployments sampleImage ∧
    ∃ ref e, refForImage sampleImage = .ok ref ∧ s.repo.refs[ref]? = some e.mergeCommit ∧
      entryAt s.repo e.mergeCommit = some e ∧ LayersStored e.manifest.layers s.repo := by
  obtain ⟨r, hstored, hmetas, hpull⟩ := samplePull_done
  have hcareful : sampleDeploy.Careful (view { repo := r }) := by
    refine ⟨rfl, fun imgref himgref => ?_⟩
    cases imageRef_sampleArgs.symm.trans himgref
    refine ⟨⟨by decide, fun remote hremote => ?_⟩, .inl rfl⟩
    cases hremote
  have hrun : Refinement.Run (CarefulStep sampleMachine) [.done samplePull, .done sampleDeploy, .other]
      {} (deployedRoot sampleImgref r) :=
    .next ⟨.done samplePull_admissible () hpull, trivial⟩ (.next ⟨.done (sampleDeploy_admissible hstored
      hmetas) () (sampleDeploy_done hstored hmetas), hcareful⟩
      (.next ⟨.other (Settles.refl _), trivial⟩ (.done _)))
  have hempty : Kept (view {}) := by
    rintro i ⟨d, hd, -⟩
    exact absurd hd (by simp)
  have hi := deployed_sample r
  exact ⟨_, hi, deployed_stored whole_empty hempty hrun hi⟩

end System

-- ── Deployments that are not stored ───────────────────────────────────────────

section Unwritten

variable {m : Machine} {s s' : Sysroot} {r r' : Repo} {registry : Registry}
  {imgref : OstreeImageReference}

/-- `deploy` writes no reference: it is told so, or finds the image under its own one. -/
def Unwritten (m : Machine) (registry : Registry) (imgref : OstreeImageReference)
    (options : DeployOpts) (r : Repo) : Prop :=
  options.noImgref = true ∨ ∀ imp, ImageImporter.new registry m.ostreeV20243 imgref = .ok imp →
    ∃ state, (deployImporter imp options).Finds m.host r state

/-- Then no ref of an image is written. -/
theorem deployPull_unwritten {options : DeployOpts} (h : Unwritten m registry imgref options r)
    {state : LayeredImageState} (hrun : deployPull m registry imgref options r = .ok state r')
    {ref : String} (hunder : Repo.refUnder imagePrefix ref = true) :
    r'.refs[ref]? = r.refs[ref]? := by
  obtain ⟨imp, r₀, hlift, h₁⟩ := bind_ok hrun
  obtain ⟨hnew, rfl⟩ := liftR_eq_ok hlift
  obtain ⟨res, t, hprep, h₂⟩ := bind_ok h₁
  have hsame := (prepare_same m.host (deployImporter imp options) r₀).refs
  rw [hprep, finalState_ok] at hsame
  rw [← hsame]
  cases res with
  | alreadyPresent state' =>
      cases h₂
      rfl
  | ready prep =>
      have hno : (deployImporter imp options).noImgref = true := by
        rcases h with hno | hfinds
        · exact hno
        · obtain ⟨state', hfound⟩ := hfinds imp hnew
          exact absurd ((prepare_of_finds hfound).symm.trans hprep) (by simp)
      obtain ⟨c, r₁, hmerged, hfinish⟩ := bind_ok h₂
      obtain ⟨input, t', root, objects, hm⟩ := importMerged_ok hmerged
      have hunlinks := @finishImport_unlinks m.host (deployImporter imp options) c r₁
      rw [hfinish, finalState_ok] at hunlinks
      have hbefore := hm.image_refs ⟨_, _, _, _, hprep⟩ hunder
      rw [if_neg (fun hwrites => absurd (hno.symm.trans hwrites.1) (by simp))] at hbefore
      rw [← hbefore]
      refine (hunlinks.refs ref).resolve_right (fun hgone => ?_)
      exact absurd ((refUnder_disjoint (List.mem_cons_self ..) hunder).symm.trans hgone.1) (by simp)

/-- **A deployment that is done, and reported as an error**: where `deploy` writes no reference, the
    warning at the end of `container image deploy` is looked for under that of the target. -/
theorem containerDeploy_unwritten {args : DeployArgs} (himgref : args.imageRef = .ok imgref)
    (h : Unwritten m registry imgref args.options s.repo) {state : LayeredImageState}
    (hdeploy : deploy m (args.stateroot.getD (s.booted.getD staterootDefault)) registry imgref
      args.options s = .ok state s') {ref : String}
    (href : refForImage (args.options.target imgref).imgref = .ok ref) (hnone : ref ∉ s.repo.refs) :
    containerDeploy m registry args s = .error (.err ("Refspec '" ++ ref ++ "' not found")) s' := by
  have hunder : Repo.refUnder imagePrefix ref = true := refUnder_of_escape href
  have hafter : s'.repo.refs[ref]? = none := by
    obtain ⟨state', s₁, hpull, hwrite⟩ := bind_ok hdeploy
    obtain ⟨r₁, hrepo, rfl⟩ := inRepo_eq_ok.mp hpull
    have hsettles := deployWrite_settles m (args.stateroot.getD (s.booted.getD staterootDefault))
      imgref args.options state' { s with repo := r₁ }
    rw [hwrite, finalState_ok] at hsettles
    rw [hsettles.refs ref (not_isDeploymentRef (.inl hunder))]
    show r₁.refs[ref]? = none
    rw [deployPull_unwritten h hrepo hunder]
    exact ExtTreeMap.getElem?_eq_none hnone
  have hwarn : imageFilteredContentWarning m.countOrder s'.repo (args.targetImgref.getD imgref).imgref
      = .error (.err ("Refspec '" ++ ref ++ "' not found")) := by
    rw [imageFilteredContentWarning, show refForImage (args.targetImgref.getD imgref).imgref = .ok ref
      from href, bind_ok_eq, requireRev_of_escape href, hafter]
    rfl
  rw [containerDeploy, bind_of_ok (get_run s), himgref, bind_of_ok (liftR_ok _ _), bind_of_ok hdeploy,
    bind_of_ok (get_run s'), hwarn]
  rfl

/-- The sample image is deployed for another one, which is not stored. -/
def otherImgref : OstreeImageReference :=
  { sigverify := .containerPolicyAllowInsecure, imgref := otherImage }

def otherArgs : DeployArgs := { sampleArgs with targetImgref := some otherImgref }

theorem containerDeploy_unwritten_sample : ∃ (s : Sysroot) (s' : Sysroot),
    containerDeploy sampleMachine sampleRegistry otherArgs s
      = .error (.err ("Refspec '" ++ otherImageRef ++ "' not found")) s' ∧
    Deployed s'.deployments otherImage := by
  obtain ⟨r, hstored, hmetas, -⟩ := samplePull_done
  have hfound : Unwritten sampleMachine sampleRegistry sampleImgref otherArgs.options r := by
    refine .inr (fun imp hnew => ?_)
    cases new_sample.symm.trans hnew
    exact ⟨_, finds_sample hstored hmetas otherArgs.options⟩
  have hnone : otherImageRef ∉ r.refs := by
    intro hin
    obtain ⟨c, hc⟩ := ExtTreeMap.mem_iff_lookup.mp hin
    rcases hstored.lookup.mp hc with ⟨heq, -⟩ | ⟨heq, -⟩
    · exact absurd heq (by decide +kernel)
    · exact absurd heq (by decide +kernel)
  have hrun := @containerDeploy_unwritten sampleMachine { repo := r } _ sampleRegistry sampleImgref
    otherArgs (by decide +kernel) hfound _ (deploy_sample hstored hmetas otherArgs.options)
    otherImageRef refForImage_other hnone
  exact ⟨_, _, hrun, _, List.mem_cons_self .., otherImgref, by decide +kernel,
    rfl⟩

end Unwritten

end OstreeExt.Sysroot
