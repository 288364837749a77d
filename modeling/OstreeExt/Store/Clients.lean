import OstreeExt.Lib.Interleave
import OstreeExt.Store.Whole

/-!
# Clients that share a repository

Nothing locks a repository: a client can collect garbage while another one is in the middle of an
import.  A client does as a whole what `prepare` reads, each transaction of an import, the
collection, and the removal of an image; between two of them the other clients get their turn.

An image whose import has written its ref is to have the refs of all its layers.  The refs of the
layers are written long before the one of the image, and until then nothing refers to them:
`clients_complete` says what a collection has to leave alone in the meantime, and
`collected_under_way` shows an image that has lost a layer.
-/

namespace OstreeExt.Store

open OstreeExt Tar Exec Std Refescape

-- ── Programs of clients ───────────────────────────────────────────────────────

/-- An import under way: its machine, its importer and what was prepared. -/
structure Session where
  host : Host
  imp : ImageImporter
  prep : PreparedImport

/-- What a client does as a whole. -/
inductive Act where
  | prepare (host : Host) (imp : ImageImporter)
  | fetchChunkLayer (w : Session) (desLayers : Option (List ConvertedLayerInfo))
      (layer : ManifestLayerState)
  | fetchCommitLayer (w : Session) (desLayers : Option (List ConvertedLayerInfo))
      (layer : ManifestLayerState)
  | readRepo (w : Session)
  | importLayer (w : Session) (manifest : ImageManifest)
      (desLayers : Option (List ConvertedLayerInfo)) (base : Checksum) (rootIsTransient : Bool)
      (acc : List Checksum × MetaFilteredData) (layer : ManifestLayerState)
  | mergeLayers (w : Session) (m : MergeInput)
  | gcImageLayers (hash : HashOrder)
  | queryImageCommit (commit : Checksum)
  | removeImage (img : ImageReference)

/-- What it returns. -/
@[reducible] def Act.Res : Act → Type
  | .prepare _ _ => PrepareResult
  | .fetchChunkLayer _ _ _ => ManifestLayerState
  | .fetchCommitLayer _ _ _ => ManifestLayerState
  | .readRepo _ => Repo
  | .importLayer _ _ _ _ _ _ _ => List Checksum × MetaFilteredData
  | .mergeLayers _ _ => Checksum
  | .gcImageLayers _ => Nat
  | .queryImageCommit _ => LayeredImageState
  | .removeImage _ => Bool

/-- What it does. -/
def Act.exec (lib : Libostree) : ∀ act : Act, RepoM act.Res
  | .prepare host imp => imp.prepare host
  | .fetchChunkLayer w desLayers layer =>
      w.imp.fetchChunkLayer w.host lib w.prep.manifest desLayers true layer
  | .fetchCommitLayer w desLayers layer =>
      w.imp.fetchCommitLayer w.host lib w.prep.manifest desLayers (remoteOf w.imp.imgref.sigverify)
        true layer
  | .readRepo _ => get
  | .importLayer w manifest desLayers base rootIsTransient acc layer =>
      w.imp.importLayer w.host lib manifest desLayers base rootIsTransient acc layer
  | .mergeLayers w m => w.imp.mergeLayers w.host lib m
  | .gcImageLayers hash => Store.gcImageLayers hash
  | .queryImageCommit commit => do liftR (Store.queryImageCommit (← get) commit)
  | .removeImage img => Store.removeImage img

/-- The import whose layers are needed until its last transaction is done. -/
def Act.underWay : Act → Option Session
  | .fetchChunkLayer w _ _ | .fetchCommitLayer w _ _ | .readRepo w | .importLayer w _ _ _ _ _ _
  | .mergeLayers w _ => some w
  | .prepare _ _ | .gcImageLayers _ | .queryImageCommit _ | .removeImage _ => none

/-- Programs of clients. -/
abbrev ClientProg := Prog Act.Res Stop

/-- One act. -/
def atomically (act : Act) : ClientProg act.Res := Prog.perform act

/-- `unencapsulate_base`, which writes refs here. -/
def Session.unencapsulateBase (w : Session) : ClientProg PreparedImport := do
  Prog.ofExcept (w.imp.checkSigverify w.host false)
  let desLayers ← Prog.ofExcept (w.imp.proxy.getLayerInfo false)
  let ostreeLayers ←
    w.prep.ostreeLayers.mapM fun layer => atomically (.fetchChunkLayer w desLayers layer)
  let ostreeCommitLayer ←
    atomically (.fetchCommitLayer w desLayers w.prep.ostreeCommitLayer)
  pure { w.prep with ostreeLayers, ostreeCommitLayer }

/-- `import` in front of its last transaction. -/
def Session.fetchLayers (w : Session) : ClientProg MergeInput := do
  let prep ← w.unencapsulateBase
  let desLayers ← Prog.ofExcept (w.imp.proxy.getLayerInfo true)
  let baseCommit ← Prog.ofExcept (unwrapCommit prep.ostreeCommitLayer)
  let repo ← atomically (.readRepo w)
  let base ← Prog.ofExcept (repo.loadCommit baseCommit)
  let repo ← atomically (.readRepo w)
  let rootIsTransient ← Prog.ofExcept (w.host.overlayfsRootEnabled repo.toObjects base)
  let ostreeRef ← Prog.ofExcept (refForImage (w.imp.targetImgref.getD w.imp.imgref).imgref)
  let (layerCommits, filtered) ← prep.layers.foldlM
    (fun acc layer =>
      atomically (.importLayer w prep.manifest desLayers baseCommit rootIsTransient acc layer))
    ([], ∅)
  Prog.ofExcept w.imp.proxy.closeImage
  Prog.ofExcept w.imp.proxy.finalize
  let repo ← atomically (.readRepo w)
  let timestamp := (timestampOfManifestOrConfig w.host prep.manifest prep.config).getD
    (w.host.clock repo.trace)
  pure {
    ostreeRef, metadata := mergeMetadata prep filtered, timestamp, baseCommit, layerCommits
    haveDerivedLayers := ¬ prep.layers.isEmpty }

/-- The end of `import`, after its last transaction. -/
def Session.finishImport (w : Session) (mergedCommit : Checksum) :
    ClientProg LayeredImageState := do
  if w.imp.disableGc then pure ()
  else
    let _ ← atomically (.gcImageLayers w.host.hash)
  atomically (.queryImageCommit mergedCommit)

/-- `import` -/
def Session.importImage (w : Session) : ClientProg LayeredImageState := do
  let m ← w.fetchLayers
  let mergedCommit ← atomically (.mergeLayers w m)
  w.finishImport mergedCommit

/-- `container_store`: prepare, and import what is not present.  Flags of the importer may be set
    in between. -/
def pull (host : Host) (imp imp' : ImageImporter) : ClientProg Unit := do
  match ← atomically (.prepare host imp) with
  | .alreadyPresent _ => pure ()
  | .ready prep => do
      let _ ← Session.importImage { host, imp := imp', prep }
      pure ()

/-- What a client can set out to do. -/
inductive IsOperation : ClientProg Unit → Prop
  | pull (host : Host) (imp imp' : ImageImporter) : IsOperation (pull host imp imp')
  | gcImageLayers (hash : HashOrder) :
      IsOperation (atomically (.gcImageLayers hash) >>= fun _ => pure ())
  | removeImage (img : ImageReference) :
      IsOperation (atomically (.removeImage img) >>= fun _ => pure ())

-- ── Nothing in between ────────────────────────────────────────────────────────

section Alone

variable {lib : Libostree}

theorem run_ofExcept {α : Type} (x : Result α) :
    (Prog.ofExcept x : ClientProg α).run (Act.exec lib) = liftR x := by
  cases x <;> rfl

theorem run_atomically (act : Act) : (atomically act).run (Act.exec lib) = act.exec lib :=
  Prog.run_perform _ act

theorem Session.run_unencapsulateBase (w : Session) : w.unencapsulateBase.run (Act.exec lib)
    = w.imp.unencapsulateBase w.host lib w.prep true := by
  refine Prog.run_bind_eq _ (run_ofExcept _) (fun _ => ?_)
  refine Prog.run_bind_eq _ (run_ofExcept _) (fun desLayers => ?_)
  refine Prog.run_bind_eq _ ?_ (fun chunks => ?_)
  · rw [Prog.run_mapM]
    exact congrArg (List.mapM · _) (funext fun layer => run_atomically _)
  exact Prog.run_bind_eq _ (run_atomically _) (fun commitLayer => rfl)

theorem Session.run_fetchLayers (w : Session) : w.fetchLayers.run (Act.exec lib)
    = w.imp.fetchLayers w.host lib w.prep := by
  refine Prog.run_bind_eq _ w.run_unencapsulateBase (fun prep => ?_)
  refine Prog.run_bind_eq _ (run_ofExcept _) (fun desLayers => ?_)
  refine Prog.run_bind_eq _ (run_ofExcept _) (fun baseCommit => ?_)
  refine Prog.run_bind_eq _ (run_atomically _) (fun repo => ?_)
  refine Prog.run_bind_eq _ (run_ofExcept _) (fun base => ?_)
  refine Prog.run_bind_eq _ (run_atomically _) (fun repo => ?_)
  refine Prog.run_bind_eq _ (run_ofExcept _) (fun transient => ?_)
  refine Prog.run_bind_eq _ (run_ofExcept _) (fun ostreeRef => ?_)
  refine Prog.run_bind_eq _ ?_ (fun acc => ?_)
  · rw [Prog.run_foldlM]
    exact congrArg (fun f => List.foldlM f _ _)
      (funext fun acc => funext fun layer => run_atomically _)
  refine Prog.run_bind_eq _ (run_ofExcept _) (fun _ => ?_)
  refine Prog.run_bind_eq _ (run_ofExcept _) (fun _ => ?_)
  exact Prog.run_bind_eq _ (run_atomically _) (fun repo => rfl)

theorem Session.run_finishImport (w : Session) (c : Checksum) :
    (w.finishImport c).run (Act.exec lib) = w.imp.finishImport w.host c := by
  rw [Session.finishImport, ImageImporter.finishImport]
  cases w.imp.disableGc with
  | true => exact run_atomically _
  | false => exact Prog.run_bind_eq _ (run_atomically _) (fun _ => run_atomically _)

/-- **A client that is alone** does what `import` does. -/
theorem Session.run_importImage (w : Session) :
    w.importImage.run (Act.exec lib) = w.imp.importImage w.host lib w.prep := by
  rw [ImageImporter.importImage, ImageImporter.importMerged, bind_assoc]
  refine Prog.run_bind_eq _ w.run_fetchLayers (fun m => ?_)
  exact Prog.run_bind_eq _ (run_atomically _) w.run_finishImport

end Alone

-- ── Acts side by side ─────────────────────────────────────────────────────────

/-- No other commit is stored under the checksum of one that is written. -/
def Act.NoCollision (lib : Libostree) : Act → Repo → Prop
  | .mergeLayers w m, r => ∀ c r' root objects b, Merges w.host lib w.imp m r c r' root objects →
      r.commits[c]? = some b → b = mergeCommit m root
  | _, _ => True

/-- A collection leaves alone an import that is in front of an act: the layers of its manifest that
    have a ref are layers of a stored image or of a deployment. -/
def Act.LeavesAlone : Act → Act → Repo → Prop
  | .gcImageLayers _, other, r => ∀ w, other.underWay = some w →
      ∀ l ∈ w.prep.manifest.layers, ∀ ref, refForLayer l = .ok ref → ref ∈ r.refs →
        Referenced r l.digest
  | _, _, _ => True

/-- What an import that is in front of an act relies on: the layers of its manifest that have a ref
    keep one. -/
def Act.Relies (act : Act) (r r' : Repo) : Prop :=
  ∀ w, act.underWay = some w → ∀ l ∈ w.prep.manifest.layers, ∀ ref, refForLayer l = .ok ref →
    ref ∈ r.refs → ref ∈ r'.refs

section Acts

variable {lib : Libostree} {r : Repo}

theorem query_same (commit : Checksum) (r : Repo) :
    finalState ((Act.queryImageCommit commit).exec lib r) = r := by
  show finalState ((do liftR (queryImageCommit (← get) commit) : RepoM LayeredImageState) r) = r
  rw [bind_of_ok (get_run r)]
  cases queryImageCommit r commit <;> rfl

/-- The last transaction of an import, as far as refs go. -/
theorem mergeLayers_mem {host : Host} {imp : ImageImporter} {m : MergeInput} {ref : String}
    (hin : ref ∈ r.refs) : ref ∈ (finalState (imp.mergeLayers host lib m r)).refs := by
  rcases @mergeLayers_cases host lib imp m r with ⟨c, r', root, objects, hrun, hmerges⟩ |
    ⟨e, r', hrun, -, hrefs, -⟩
  · rw [hrun]
    exact hmerges.mem hin
  · rw [hrun, finalState_error, hrefs]
    exact hin

/-- Only a collection takes the ref of a layer away. -/
theorem Act.exec_keeps_layer {act : Act} (hgc : ∀ hash, act ≠ .gcImageLayers hash) {ref : String}
    (hblob : IsBlobRef ref) (hin : ref ∈ r.refs) : ref ∈ (finalState (act.exec lib r)).refs := by
  have hgrows := fetches_frame (fun _ => True)
  cases act with
  | prepare host imp =>
      show ref ∈ (finalState (imp.prepare host r)).refs
      rw [(prepare_same host imp r).refs]
      exact hin
  | fetchChunkLayer w desLayers layer => exact (hgrows.fetchChunkLayer true (fun _ => trivial) r).mem hin
  | fetchCommitLayer w desLayers layer =>
      exact (hgrows.fetchCommitLayer (fun _ _ => trivial) _ true (fun _ => trivial) r).mem hin
  | readRepo w => exact hin
  | importLayer w manifest desLayers base rootIsTransient acc layer =>
      exact (hgrows.importLayer acc trivial r).mem hin
  | mergeLayers w m => exact mergeLayers_mem hin
  | gcImageLayers hash => exact absurd rfl (hgc hash)
  | queryImageCommit commit =>
      rw [query_same]
      exact hin
  | removeImage img => exact removeImage_layers img hblob hin

/-- **What the others do** keeps what an import relies on. -/
theorem Act.exec_relies {act other : Act} (h : Whole r) (halone : act.LeavesAlone other r) :
    other.Relies r (finalState (act.exec lib r)) := by
  intro w hw l hl ref href hin
  by_cases hgc : ∃ hash, act = .gcImageLayers hash
  · obtain ⟨hash, rfl⟩ := hgc
    exact h.collected hash href hin (halone w hw l hl ref href hin)
  · exact Act.exec_keeps_layer (fun hash heq => hgc ⟨hash, heq⟩) ⟨_, href⟩ hin

end Acts

-- ── The outline of an import ──────────────────────────────────────────────────

/-- The layers of a prepared import are those of its manifest, under their refs. -/
structure PreparedImport.Regular (prep : PreparedImport) : Prop where
  named : ∀ layer ∈ prep.allLayers, refForLayer layer.layer = .ok layer.ostreeRef
  listed : ∀ layer ∈ prep.allLayers, layer.layer ∈ prep.manifest.layers
  covers : ∀ l ∈ prep.manifest.layers, ∃ layer ∈ prep.allLayers, layer.layer = l

/-- The layers that were found or fetched have refs. -/
def PreparedImport.Held (prep : PreparedImport) (fetched : List ManifestLayerState) (r : Repo) :
    Prop :=
  ∀ layer ∈ prep.allLayers, layer.commit.isSome = true ∨ layer ∈ fetched →
    layer.ostreeRef ∈ r.refs

theorem PreparedImport.LaidOut.regular {prep : PreparedImport} {repo : Repo}
    {commitLayer : Descriptor} {componentLayers remainingLayers : List Descriptor}
    (h : prep.LaidOut repo commitLayer componentLayers remainingLayers) : prep.Regular where
  named layer hlayer := (queryLayer_eq_ok (h.queried hlayer)).2.1
  covers l hl := h.covers hl
  listed layer hlayer := by
    obtain ⟨pre, target, id, hlayout, hchunks⟩ := layout_of_parse h.layout
    rw [PreparedImport.allLayers, List.cons_append, List.mem_cons, List.mem_append] at hlayer
    rcases hlayer with rfl | hchunk | hderived
    · rw [(queryLayer_eq_ok h.commitLayer).1]
      exact List.mem_of_mem_head? hlayout.head
    · obtain ⟨l, hl, hquery⟩ := (mem_mapM h.ostreeLayers layer).mp hchunk
      rw [(queryLayer_eq_ok hquery).1, hlayout.layers]
      rw [hchunks, List.mem_filter, List.mem_append, List.mem_singleton] at hl
      rcases hl.1 with hpre | rfl
      · exact List.mem_append_left _ hpre
      · exact List.mem_append_right _ (List.mem_cons_self ..)
    · obtain ⟨l, hl, hquery⟩ := (mem_mapM h.layers layer).mp hderived
      rw [(queryLayer_eq_ok hquery).1, hlayout.layers]
      exact List.mem_append_right _ (List.mem_cons_of_mem _ hl)

/-- What `prepare` found is there. -/
theorem prepare_held {host : Host} {imp : ImageImporter} {r r' : Repo} {prep : PreparedImport}
    (h : imp.prepare host r = .ok (.ready prep) r') : prep.Regular ∧ prep.Held [] r' := by
  obtain ⟨_, _, _, hlaid⟩ := (prepare_eq_ready h).created.laidOut
  refine ⟨hlaid.regular, fun layer hlayer hthere => ?_⟩
  obtain ⟨c, hc⟩ := Option.isSome_iff_exists.mp (hthere.resolve_right (by simp))
  obtain ⟨-, -, hquery⟩ := queryLayer_eq_ok (hlaid.queried hlayer)
  exact ExtTreeMap.mem_iff_lookup.mpr ⟨c, hquery.symm.trans hc⟩

section Outline

variable {lib : Libostree} {w : Session}

/-- Outlines of programs of clients. -/
abbrev ClientOutline (lib : Libostree) {α : Type} (P : Repo → Prop) (p : ClientProg α)
    (Q : α → Repo → Prop) : Prop :=
  Outline (Act.exec lib) Whole (Act.NoCollision lib) Act.Relies P p Q

theorem held_stable (hregular : w.prep.Regular) {act : Act} (hact : act.underWay = some w)
    {fetched : List ManifestLayerState} {r r' : Repo} (h : w.prep.Held fetched r)
    (hrelies : act.Relies r r') : w.prep.Held fetched r' := by
  intro layer hlayer hthere
  exact hrelies w hact layer.layer (hregular.listed layer hlayer) _ (hregular.named layer hlayer)
    (h layer hlayer hthere)

/-- Reading changes nothing. -/
theorem outline_readRepo (hregular : w.prep.Regular) (fetched : List ManifestLayerState) :
    ClientOutline lib (w.prep.Held fetched) (atomically (.readRepo w))
      (fun _ => w.prep.Held fetched) := by
  refine Outline.perform (fun _ _ => held_stable hregular rfl) (fun _ h _ _ => h) ?_
  intro r _ r' _ hheld _ hrun
  cases hrun
  exact hheld

/-- A transaction that stores one layer. -/
theorem outline_fetch (hregular : w.prep.Regular) (act : Act) (hact : act.underWay = some w)
    {layer : ManifestLayerState} (hlayer : layer ∈ w.prep.allLayers)
    (hfetches : Steps (Fetches IsBlobRef) (act.exec lib))
    (hstores : ∀ r b r', act.exec lib r = .ok b r' → LayerStored layer r')
    (fetched : List ManifestLayerState) :
    ClientOutline lib (w.prep.Held fetched) (atomically act)
      (fun _ => w.prep.Held (fetched ++ [layer])) := by
  refine Outline.perform (fun _ _ => held_stable hregular hact)
    (fun r h _ _ => h.of_fetches (hfetches r)) ?_
  intro r b r' _ hheld _ hrun other hother hthere
  have hgrows := hfetches r
  rw [hrun] at hgrows
  have hbefore : other.commit.isSome = true ∨ other ∈ fetched → other.ostreeRef ∈ r'.refs :=
    fun h => hgrows.mem (hheld other hother h)
  rw [List.mem_append, List.mem_singleton] at hthere
  rcases hthere with hsome | hfetched | rfl
  · exact hbefore (.inl hsome)
  · exact hbefore (.inr hfetched)
  · rcases hstores r b r' hrun with hsome | hin
    · exact hbefore (.inl hsome)
    · exact hin

theorem outline_unencapsulateBase (hregular : w.prep.Regular) :
    ClientOutline lib (w.prep.Held []) w.unencapsulateBase (fun prep r =>
      (∃ chunks commitLayer, prep = { w.prep with
        ostreeLayers := chunks, ostreeCommitLayer := commitLayer }) ∧
      w.prep.Held (w.prep.ostreeLayers ++ [w.prep.ostreeCommitLayer]) r) := by
  have hblob : ∀ layer ∈ w.prep.allLayers, IsBlobRef layer.ostreeRef :=
    fun layer hlayer => ⟨_, hregular.named layer hlayer⟩
  refine (Outline.ofExcept _).bind (fun _ => Outline.of_fact (fun _ => ?_))
  refine (Outline.ofExcept _).bind (fun desLayers => Outline.of_fact (fun _ => ?_))
  have hround : ∀ pre layer post, w.prep.ostreeLayers = pre ++ layer :: post →
      ClientOutline lib (w.prep.Held pre) (atomically (.fetchChunkLayer w desLayers layer))
        (fun _ => w.prep.Held (pre ++ [layer])) := by
    intro pre layer post hl
    have hchunk : layer ∈ w.prep.ostreeLayers := by
      rw [hl]
      exact List.mem_append_right _ (List.mem_cons_self ..)
    have hlayer : layer ∈ w.prep.allLayers :=
      List.mem_append_left _ (List.mem_cons_of_mem _ hchunk)
    refine outline_fetch hregular (.fetchChunkLayer w desLayers layer) rfl hlayer ?_
      (fun _ _ _ hrun => fetchChunkLayer_ok hrun) pre
    exact (fetches_frame IsBlobRef).fetchChunkLayer true (fun _ => hblob layer hlayer)
  refine (Outline.mapM w.prep.Held hround).bind (fun chunks => ?_)
  have hcommit : w.prep.ostreeCommitLayer ∈ w.prep.allLayers := List.mem_cons_self ..
  refine (outline_fetch hregular (.fetchCommitLayer w desLayers w.prep.ostreeCommitLayer) rfl hcommit
    ?_ (fun _ _ _ hrun => fetchCommitLayer_ok hrun) w.prep.ostreeLayers).bind (fun commitLayer => ?_)
  · exact (fetches_frame IsBlobRef).fetchCommitLayer (fun _ _ => trivial) _ true
      (fun _ => hblob _ hcommit)
  · exact Outline.pure (fun _ _ hheld => ⟨⟨chunks, commitLayer, rfl⟩, hheld⟩)

/-- What the last transaction is given. -/
structure Session.Merging (w : Session) (m : MergeInput) : Prop where
  metadata : ∃ filtered, m.metadata = mergeMetadata w.prep filtered
  target : refForImage (w.imp.targetImgref.getD w.imp.imgref).imgref = .ok m.ostreeRef

theorem outline_fetchLayers (hregular : w.prep.Regular) :
    ClientOutline lib (w.prep.Held []) w.fetchLayers (fun m r =>
      w.Merging m ∧ w.prep.Held w.prep.allLayers r) := by
  refine (outline_unencapsulateBase hregular).bind (fun prep => Outline.of_fact ?_)
  rintro ⟨chunks, commitLayer, rfl⟩
  refine (Outline.ofExcept _).bind (fun desLayers => Outline.of_fact (fun _ => ?_))
  refine (Outline.ofExcept _).bind (fun baseCommit => Outline.of_fact (fun _ => ?_))
  refine (outline_readRepo hregular _).bind (fun repo => ?_)
  refine (Outline.ofExcept _).bind (fun base => Outline.of_fact (fun _ => ?_))
  refine (outline_readRepo hregular _).bind (fun repo => ?_)
  refine (Outline.ofExcept _).bind (fun transient => Outline.of_fact (fun _ => ?_))
  refine (Outline.ofExcept _).bind (fun ostreeRef => Outline.of_fact (fun htarget => ?_))
  let J : List ManifestLayerState → Repo → Prop := fun pre =>
    w.prep.Held (w.prep.ostreeLayers ++ [w.prep.ostreeCommitLayer] ++ pre)
  have hround : ∀ pre layer post (acc : List Checksum × MetaFilteredData),
      w.prep.layers = pre ++ layer :: post → ClientOutline lib (J pre)
        (atomically (.importLayer w w.prep.manifest desLayers baseCommit transient acc layer))
        (fun _ => J (pre ++ [layer])) := by
    intro pre layer post acc hl
    have hlayer : layer ∈ w.prep.allLayers := by
      refine List.mem_append_right _ ?_
      rw [hl]
      exact List.mem_append_right _ (List.mem_cons_self ..)
    show ClientOutline lib _ _ (fun _ =>
      w.prep.Held (w.prep.ostreeLayers ++ [w.prep.ostreeCommitLayer] ++ (pre ++ [layer])))
    rw [← List.append_assoc]
    refine outline_fetch hregular (.importLayer w _ desLayers baseCommit transient acc layer) rfl
      hlayer ?_ (fun _ _ _ hrun => importLayer_ok hrun) _
    exact (fetches_frame IsBlobRef).importLayer acc ⟨_, hregular.named layer hlayer⟩
  refine ((Outline.foldlM J hround ([], ∅)).conseq ?_).bind (fun acc => ?_)
  · intro r _ hheld
    show w.prep.Held (w.prep.ostreeLayers ++ [w.prep.ostreeCommitLayer] ++ []) r
    rw [List.append_nil]
    exact hheld
  refine (Outline.ofExcept _).bind (fun _ => Outline.of_fact (fun _ => ?_))
  refine (Outline.ofExcept _).bind (fun _ => Outline.of_fact (fun _ => ?_))
  refine (outline_readRepo hregular _).bind (fun repo => ?_)
  refine Outline.pure (fun r _ hheld => ⟨⟨⟨acc.2, rfl⟩, htarget⟩, ?_⟩)
  -- the layers that were fetched are all layers, in another order
  intro layer hlayer hthere
  refine hheld layer hlayer (.inr ?_)
  simp only [PreparedImport.allLayers, List.cons_append, List.mem_cons, List.mem_append,
    List.not_mem_nil, or_false] at hlayer ⊢
  tauto

theorem outline_mergeLayers (hregular : w.prep.Regular) {m : MergeInput} (hm : w.Merging m) :
    ClientOutline lib (w.prep.Held w.prep.allLayers) (atomically (.mergeLayers w m))
      (fun _ _ => True) := by
  refine Outline.perform (fun _ _ => held_stable hregular rfl) ?_ (fun _ _ _ _ _ _ _ => trivial)
  intro r hwhole hheld hno
  show Whole (finalState (w.imp.mergeLayers w.host lib m r))
  rcases @mergeLayers_cases w.host lib w.imp m r with ⟨c, r', root, objects, hrun, hmerges⟩ |
    ⟨e, r', hrun, hobjects, hrefs, -⟩
  · rw [hrun]
    obtain ⟨filtered, hmeta⟩ := hm.metadata
    refine hwhole.merged hmerges (fun b => hno c r' root objects b hmerges) hmeta hm.target ?_
    intro l hl
    obtain ⟨layer, hlayer, rfl⟩ := hregular.covers l hl
    exact ⟨_, hregular.named layer hlayer, hheld layer hlayer (.inr hlayer)⟩
  · rw [hrun]
    exact hwhole.of_same ⟨hobjects, hrefs⟩

/-- An act of a client that relies on nothing. -/
theorem outline_free {act : Act}
    (hkeeps : ∀ r, Whole r → Whole (finalState (act.exec lib r))) :
    ClientOutline lib (fun _ => True) (atomically act) (fun _ _ => True) := by
  exact Outline.perform (fun _ _ _ _ => trivial) (fun r h _ _ => hkeeps r h)
    (fun _ _ _ _ _ _ _ => trivial)

theorem outline_gcImageLayers (hash : HashOrder) :
    ClientOutline lib (fun _ => True) (atomically (.gcImageLayers hash)) (fun _ _ => True) :=
  outline_free (fun _ h => h.gcImageLayers hash)

theorem outline_queryImageCommit (c : Checksum) :
    ClientOutline lib (fun _ => True) (atomically (.queryImageCommit c)) (fun _ _ => True) := by
  refine outline_free (fun r h => ?_)
  rw [query_same]
  exact h

theorem outline_finishImport (c : Checksum) :
    ClientOutline lib (fun _ => True) (w.finishImport c) (fun _ _ => True) := by
  rw [Session.finishImport]
  cases w.imp.disableGc with
  | true => exact outline_queryImageCommit c
  | false => exact (outline_gcImageLayers _).bind (fun _ => outline_queryImageCommit c)

/-- **An import**, from where it was prepared. -/
theorem outline_importImage (hregular : w.prep.Regular) :
    ClientOutline lib (w.prep.Held []) w.importImage (fun _ _ => True) := by
  refine (outline_fetchLayers hregular).bind (fun m => Outline.of_fact (fun hm => ?_))
  exact (outline_mergeLayers hregular hm).bind (fun c => outline_finishImport c)

theorem outline_pull (host : Host) (imp imp' : ImageImporter) :
    ClientOutline lib (fun _ => True) (pull host imp imp') (fun _ _ => True) := by
  let Q : PrepareResult → Repo → Prop := fun res r =>
    ∀ prep, res = .ready prep → prep.Regular ∧ prep.Held [] r
  have hprepare : ClientOutline lib (fun _ => True) (atomically (.prepare host imp)) Q := by
    refine Outline.perform (fun _ _ _ _ => trivial)
      (fun r h _ _ => h.of_same (prepare_same host imp r)) ?_
    rintro r res r' _ _ _ hrun prep rfl
    exact prepare_held hrun
  refine hprepare.bind (fun res => ?_)
  cases res with
  | alreadyPresent state => exact Outline.pure (fun _ _ _ => trivial)
  | ready prep =>
      have himport : ClientOutline lib (fun r => prep.Regular ∧ prep.Held [] r)
          (Session.importImage { host, imp := imp', prep }) (fun _ _ => True) :=
        Outline.of_fact (fun hregular =>
          @outline_importImage lib { host, imp := imp', prep } hregular)
      refine (himport.conseq (fun r _ hQ => hQ prep rfl)).bind (fun _ => ?_)
      exact Outline.pure (fun _ _ _ => trivial)

theorem outline_operation {p : ClientProg Unit} (h : IsOperation p) :
    ClientOutline lib (fun _ => True) p (fun _ _ => True) := by
  cases h with
  | pull host imp imp' => exact outline_pull host imp imp'
  | gcImageLayers hash =>
      exact (outline_gcImageLayers hash).bind (fun _ => Outline.pure (fun _ _ _ => trivial))
  | removeImage img =>
      refine (outline_free (fun r h => ?_)).bind (fun _ => Outline.pure (fun _ _ _ => trivial))
      exact h.removeImage img

end Outline

-- ── Any number of clients ─────────────────────────────────────────────────────

/-- Clients that share a repository. -/
abbrev Clients (ι : Type) := Pool ι Act.Res Stop Repo Unit

/-- Runs in which no checksums collide, and each act is allowed beside what the others are in front
    of. -/
abbrev Clients.Run {ι : Type} [DecidableEq ι] (lib : Libostree)
    (allowed : Act → Act → Repo → Prop) : Clients ι → Clients ι → Prop :=
  Pool.Run (Act.exec lib) IsOperation (Act.NoCollision lib) allowed

/-- **Images stay complete** in every run in which each collection leaves the imports alone that are
    under way. -/
theorem clients_complete {ι : Type} [DecidableEq ι] {lib : Libostree} {start reached : Clients ι}
    (hstart : Whole start.state) (hidle : ∀ i, (start.programs i).Idle)
    (hrun : Clients.Run lib Act.LeavesAlone start reached) : ImagesComplete reached.state := by
  have hwhole : Whole reached.state := by
    refine Pool.keeps (fun p hp => outline_operation hp) ?_ (fun act r => ?_) hrun hstart hidle
    · exact fun act other r h _ halone => Act.exec_relies h halone
    · exact fun _ _ _ _ _ _ hin => hin
  exact hwhole.complete

-- ── Two clients ───────────────────────────────────────────────────────────────

/-- The first client, and the other one. -/
def two (r : Repo) (p q : ClientProg Unit) : Clients Bool :=
  { state := r, programs := fun first => bif first then p else q }

section Two

variable {lib : Libostree} {allowed : Act → Act → Repo → Prop} {start : Clients Bool}
  {r r' : Repo} {p q : ClientProg Unit} {act : Act} {next : act.Res → ClientProg Unit} {b : act.Res}

theorem advance_first (p' : ClientProg Unit) : (two r p q).advance true r' p' = two r' p' q := by
  rw [Pool.advance, two, two]
  refine congrArg (Pool.mk r') (funext fun first => ?_)
  cases first <;> rfl

theorem advance_other (q' : ClientProg Unit) : (two r p q).advance false r' q' = two r' p q' := by
  rw [Pool.advance, two, two]
  refine congrArg (Pool.mk r') (funext fun first => ?_)
  cases first <;> rfl

/-- The first client does its next act while the other one has nothing to do. -/
theorem run_first (h : Clients.Run lib allowed start (two r p q)) (hp : p = .act act next)
    (hno : act.NoCollision lib r) (hidle : q.Idle) (hrun : act.exec lib r = .ok b r') :
    Clients.Run lib allowed start (two r' (next b) q) := by
  have hstep := @Pool.Step.act _ _ _ _ _ _ _ (Act.exec lib) IsOperation (Act.NoCollision lib)
    allowed (two r p q) true act next b r' hp hno ?_ hrun
  · rw [advance_first] at hstep
    exact h.tail hstep
  · intro j hj k' hk'
    cases j with
    | true => exact absurd rfl hj
    | false => exact absurd (hk'.symm.trans hidle.nextAct) (by simp)

/-- The other client does its next act. -/
theorem run_other (h : Clients.Run lib allowed start (two r p q)) (hq : q = .act act next)
    (hno : act.NoCollision lib r) (hallowed : ∀ other, p.nextAct = some other → allowed act other r)
    (hrun : act.exec lib r = .ok b r') :
    Clients.Run lib allowed start (two r' p (next b)) := by
  have hstep := @Pool.Step.act _ _ _ _ _ _ _ (Act.exec lib) IsOperation (Act.NoCollision lib)
    allowed (two r p q) false act next b r' hq hno ?_ hrun
  · rw [advance_other] at hstep
    exact h.tail hstep
  · intro j hj k' hk'
    cases j with
    | true => exact hallowed k' hk'
    | false => exact absurd rfl hj

theorem first_act {f : act.Res → ClientProg Unit}
    (h : Clients.Run lib allowed start (two r (atomically act >>= f) q))
    (hno : act.NoCollision lib r) (hidle : q.Idle) (hrun : act.exec lib r = .ok b r') :
    Clients.Run lib allowed start (two r' (f b) q) := run_first h rfl hno hidle hrun

/-- What a program computes takes no step. -/
theorem first_except {α : Type} {x : Result α} {a : α} {f : α → ClientProg Unit}
    (h : Clients.Run lib allowed start (two r (Prog.ofExcept x >>= f) q)) (hx : x = .ok a) :
    Clients.Run lib allowed start (two r (f a) q) := by
  subst hx
  exact h

theorem start_first (h : Clients.Run lib allowed start (two r p q)) (hidle : p.Idle)
    {p' : ClientProg Unit} (hnew : IsOperation p') :
    Clients.Run lib allowed start (two r p' q) := by
  have hstep := @Pool.Step.start _ _ _ _ _ _ _ (Act.exec lib) IsOperation (Act.NoCollision lib)
    allowed (two r p q) true p' hidle hnew
  rw [advance_first] at hstep
  exact h.tail hstep

theorem start_other (h : Clients.Run lib allowed start (two r p q)) (hidle : q.Idle)
    {q' : ClientProg Unit} (hnew : IsOperation q') :
    Clients.Run lib allowed start (two r p q') := by
  have hstep := @Pool.Step.start _ _ _ _ _ _ _ (Act.exec lib) IsOperation (Act.NoCollision lib)
    allowed (two r p q) false q' hidle hnew
  rw [advance_other] at hstep
  exact h.tail hstep

end Two

/-- A second layer, with a chunk that is empty. -/
def secondLayer : Descriptor :=
  { mediaType := .imageLayerGzip, digest := "sha256:" ++ sampleTreeSum, size := 2048 }

def secondLayerRef : String := "ostree/container/blob/sha256_3A_" ++ sampleTreeSum

/-- An image of the commit layer and that chunk layer. -/
def chunkedManifest : ImageManifest := { sampleManifest with layers := [sampleLayer, secondLayer] }

def chunkedConfig : ImageConfiguration :=
  { storedConfig with diffIds := ["sha256:" ++ sampleMetaSum, "sha256:" ++ sampleTreeSum] }

/-- A machine on which the blob of the chunk layer is the empty archive. -/
def chunkedHost : Host := { sampleHost with
  objects := fun _ blob => if blob = [] then sampleBlob else [] }

/-- An importer of the image, which leaves the collection of garbage to others. -/
def chunkedImporter : ImageImporter where
  proxy := {
    fetchManifest := .ok (sampleManifestDigest, chunkedManifest)
    fetchConfig := .ok chunkedConfig
    getLayerInfo := fun _ => .ok none
    getBlob := fun digest _ => .ok (if digest = sampleLayer.digest then [] else [0], .ok ()) }
  imgref := { sigverify := .containerPolicyAllowInsecure, imgref := sampleImage }
  disableGc := true

def chunkState : ManifestLayerState :=
  { layer := secondLayer, ostreeRef := secondLayerRef, commit := none }

def commitState : ManifestLayerState :=
  { layer := sampleLayer, ostreeRef := sampleLayerRef, commit := none }

/-- What `prepare` returns where there is nothing. -/
def chunkedPrep : PreparedImport where
  manifestDigest := sampleManifestDigest
  manifest := chunkedManifest
  config := chunkedConfig
  previousState := none
  previousManifestDigest := none
  previousImageid := none
  ostreeLayers := [chunkState]
  ostreeCommitLayer := commitState
  layers := []

def chunkedSession : Session :=
  { host := chunkedHost, imp := chunkedImporter, prep := chunkedPrep }

theorem escape_secondLayerRef :
    prefixEscapeForRef layerPrefix secondLayer.digest = .ok secondLayerRef :=
  refForBlobDigest_sampleTree

theorem parseManifestLayout_chunked :
    parseManifestLayout chunkedManifest chunkedConfig = .ok (sampleLayer, [secondLayer], []) := by
  have hne : secondLayer ≠ sampleLayer := by
    intro heq
    have hsize : (2048 : Nat) = 1024 := congrArg Descriptor.size heq
    exact absurd hsize (by decide)
  have hlayout : Layout chunkedManifest chunkedConfig sampleLayer [sampleLayer] secondLayer []
      ("sha256:" ++ sampleTreeSum) := by
    refine ⟨rfl, rfl, ?_, by decide +kernel, by simpa using hne, by simp⟩
    show ((∅ : StrMap).insert diffidLabel ("sha256:" ++ sampleTreeSum))[diffidLabel]? = _
    rw [ExtTreeMap.lookup_insert, if_pos rfl]
  rw [hlayout.parse]
  simp [hne]

theorem chunked_prepare :
    chunkedImporter.prepare chunkedHost {} = .ok (.ready chunkedPrep) {} := by
  have hempty : ∀ ref : String, ({} : Repo).refs[ref]? = none := fun _ => ExtTreeMap.lookup_empty _
  have hquery : tryQueryImage {} sampleImage = .ok none := by
    have href : refForImage sampleImage = .ok sampleImageRef := refForImage_sample
    rw [tryQueryImage, href, bind_ok_eq, resolveRev_of_escape escape_sampleImageRef, hempty]
  have hcommit : queryLayer {} sampleLayer = .ok commitState := by
    have href : refForLayer sampleLayer = .ok sampleLayerRef := refForLayer_sample
    rw [queryLayer, href, bind_ok_eq, resolveRev_of_escape escape_sampleLayerRef, hempty]
    rfl
  have hchunk : queryLayer {} secondLayer = .ok chunkState := by
    have href : refForLayer secondLayer = .ok secondLayerRef := escape_secondLayerRef
    rw [queryLayer, href, bind_ok_eq, resolveRev_of_escape escape_secondLayerRef, hempty]
    rfl
  have hchunks : [secondLayer].mapM (queryLayer {}) = .ok [chunkState] := by
    rw [List.mapM_cons, hchunk, bind_ok_eq]
    rfl
  have hcreate : chunkedImporter.createPreparedImport chunkedHost {} sampleManifestDigest
      chunkedManifest chunkedConfig none none = .ok chunkedPrep := by
    rw [ImageImporter.createPreparedImport, if_neg (by simp [chunkedImporter]), bind_ok_eq,
      parseManifestLayout_chunked, bind_ok_eq]
    dsimp only
    rw [hcommit, bind_ok_eq, hchunks]
    rfl
  exact prepare_of_absent rfl rfl hquery rfl hcreate

/-- What is left of the import when the chunk layer is there. -/
def chunkedRest : ClientProg Unit := do
  let commitLayer ← atomically (.fetchCommitLayer chunkedSession none commitState)
  let baseCommit ← Prog.ofExcept (unwrapCommit commitLayer)
  let repo ← atomically (.readRepo chunkedSession)
  let base ← Prog.ofExcept (repo.loadCommit baseCommit)
  let repo ← atomically (.readRepo chunkedSession)
  let _ ← Prog.ofExcept (sampleHost.overlayfsRootEnabled repo.toObjects base)
  let ostreeRef ← Prog.ofExcept (refForImage sampleImage)
  let _ ← atomically (.readRepo chunkedSession)
  let c ← atomically (.mergeLayers chunkedSession {
    ostreeRef, metadata := mergeMetadata chunkedPrep ∅, timestamp := 0, baseCommit
    layerCommits := [], haveDerivedLayers := false })
  let _ ← atomically (.queryImageCommit c)
  pure ()

theorem chunked_program : (chunkedSession.importImage >>= fun _ => pure ())
    = (atomically (.fetchChunkLayer chunkedSession none chunkState) >>= fun _ => chunkedRest) := by
  have hchunks : chunkedSession.prep.ostreeLayers = [chunkState] := rfl
  simp only [Session.importImage, Session.fetchLayers, Session.unencapsulateBase, bind_assoc,
    hchunks, List.mapM_cons, List.mapM_nil, pure_bind]
  rfl

theorem fetchLayer_chunked : fetchLayer chunkedImporter.proxy chunkedManifest sampleLayer none
      .registry = .ok ([], .ok (), .imageLayerGzip) ∧
    fetchLayer chunkedImporter.proxy chunkedManifest secondLayer none .registry
      = .ok ([0], .ok (), .imageLayerGzip) := by
  constructor
  · have hindex : chunkedManifest.layers.findIdx? (· = sampleLayer) = some 0 := by
      rw [chunkedManifest, List.findIdx?_cons, if_pos (by simp)]
    rw [fetchLayer, hindex]
    rfl
  · have hindex : chunkedManifest.layers.findIdx? (· = secondLayer) = some 1 := by
      decide +kernel
    rw [fetchLayer, hindex]
    rfl

/-- The empty chunk is fetched into the empty repository. -/
theorem chunk_fetched : ∃ chunk r₁,
    (Act.fetchChunkLayer chunkedSession none chunkState).exec sampleTables.lib {} = .ok chunk r₁ ∧
    r₁.refs = (∅ : ExtTreeMap String Checksum).insert secondLayerRef emptyChunkCommitSum ∧
    r₁.commits = (∅ : ExtTreeMap Checksum Commit).insertIfNew emptyChunkCommitSum emptyChunkCommit ∧
    r₁.commitmetas = ∅ := by
  have hcommit : objectSetCommit sampleTables.lib ∅ = emptyChunkCommit := by
    have htree : objectSetTree ∅ = emptyTree := by decide +kernel
    have hmeta : sampleTables.lib.dirmetaChecksum defaultDirmeta = sampleMetaSum :=
      dirmetaChecksum_sampleMeta
    rw [objectSetCommit, htree, dirtreeChecksum_emptyTree, hmeta]
    rfl
  have hbody : withImporter Importer.newForObjectSet (do
      importObjects sampleTables.lib []
      finishImportObjectSet sampleTables.lib) {}
        = .ok (sampleTables.lib.commitChecksum (objectSetCommit sampleTables.lib ∅))
          (objectSetRepo sampleTables.lib ∅ {}) :=
    withImporter_ok (finishImportObjectSet_run rfl)
  have himport : importChunkLayer sampleTables.lib true secondLayerRef [] {}
      = .ok (some (sampleTables.lib.commitChecksum (objectSetCommit sampleTables.lib ∅)))
        { objectSetRepo sampleTables.lib ∅ {} with
          refs := (∅ : ExtTreeMap String Checksum).insert secondLayerRef
            (sampleTables.lib.commitChecksum (objectSetCommit sampleTables.lib ∅)) } := by
    refine autoTransaction_ok ?_
    rw [if_pos rfl, bind_of_ok hbody]
    rfl
  refine ⟨_, _, fetchChunkLayer_run rfl rfl fetchLayer_chunked.2 rfl himport, ?_, ?_, rfl⟩
  · rw [hcommit, commitChecksum_emptyChunkCommit]
  · show (∅ : ExtTreeMap Checksum Commit).insertIfNew
      (sampleTables.lib.commitChecksum (objectSetCommit sampleTables.lib ∅))
      (objectSetCommit sampleTables.lib ∅) = _
    rw [hcommit, commitChecksum_emptyChunkCommit]

section Chunked

variable {allowed : Act → Act → Repo → Prop} {start : Clients Bool} {r : Repo} {q : ClientProg Unit}

/-- The import goes on to its end, whatever refs there are. -/
theorem chunked_finish
    (h : Clients.Run sampleTables.lib allowed start (two r chunkedRest q)) (hidle : q.Idle)
    (hcommits : r.commits
      = (∅ : ExtTreeMap Checksum Commit).insertIfNew emptyChunkCommitSum emptyChunkCommit)
    (hmetas : r.commitmetas = ∅) :
    ∃ r', Clients.Run sampleTables.lib allowed start (two r' (pure ()) q) ∧
      r'.refs = (r.refs.insert sampleLayerRef sampleCommitSum).insert sampleImageRef emptySha256 ∧
      manifestOfCommit r' emptySha256 = .ok chunkedManifest := by
  obtain ⟨r₁, himport, hrefs₁, hcommits₁, hmetas₁⟩ := sampleLayer_imported r
  have hfetch : (Act.fetchCommitLayer chunkedSession none commitState).exec sampleTables.lib r
      = .ok { commitState with commit := some sampleCommitSum } r₁ :=
    fetchCommitLayer_run rfl rfl fetchLayer_chunked.1 rfl himport
  have hload : r₁.loadCommit sampleCommitSum = .ok sampleCommit := by
    rw [Repo.loadCommit, hcommits₁, hcommits, ExtTreeMap.lookup_insertIfNew,
      ExtTreeMap.lookup_insertIfNew, ExtTreeMap.lookup_empty, if_neg (by decide), if_pos rfl]
    rfl
  let m : MergeInput := {
    ostreeRef := sampleImageRef, metadata := mergeMetadata chunkedPrep ∅, timestamp := 0
    baseCommit := sampleCommitSum, layerCommits := [], haveDerivedLayers := false }
  have hsum : sampleTables.lib.commitChecksum (mergeCommit m (rootOf sampleCommit))
      = emptySha256 := commitChecksum_of_manifest (lookup_mergeMetadata chunkedPrep ∅).2.1
  -- no commit is stored under that checksum
  have hnew : r₁.commits[emptySha256]? = none := by
    rw [hcommits₁, hcommits, ExtTreeMap.lookup_insertIfNew, ExtTreeMap.lookup_insertIfNew,
      ExtTreeMap.lookup_empty, if_neg (by decide), if_neg (by decide)]
    rfl
  have hmerge := @mergeLayers_run chunkedHost sampleTables.lib chunkedImporter m r₁ sampleCommit []
    (rootOf sampleCommit) r₁.toObjects hload rfl rfl
  rw [hsum] at hmerge
  have hno : (Act.mergeLayers chunkedSession m).NoCollision sampleTables.lib r₁ := by
    intro c r' root objects b hmerges hb
    have hmanifest : (mergeCommit m root).metadata[metaManifest]? = some (.manifest chunkedManifest) :=
      (lookup_mergeMetadata chunkedPrep ∅).2.1
    rw [hmerges.result, commitChecksum_of_manifest hmanifest, hnew] at hb
    cases hb
  obtain ⟨r₂, hr₂⟩ : ∃ r₂, r₂ = chunkedImporter.mergedRepo sampleTables.lib m (rootOf sampleCommit)
    r₁.toObjects r₁ := ⟨_, rfl⟩
  rw [← hr₂] at hmerge
  have hrefs₂ : r₂.refs = r₁.refs.insert sampleImageRef emptySha256 := by
    rw [hr₂, ImageImporter.mergedRepo, hsum]
    rfl
  have hstored : r₂.loadCommit emptySha256 = .ok (mergeCommit m (rootOf sampleCommit)) := by
    rw [hr₂, ImageImporter.mergedRepo, hsum, Repo.loadCommit]
    show okOr _ (r₁.commits.insertIfNew emptySha256 _)[emptySha256]? = _
    rw [ExtTreeMap.lookup_insertIfNew, hnew, if_pos rfl]
    rfl
  have hquery : ∃ state, queryImageCommit r₂ emptySha256 = .ok state := by
    have hupdate : cachedUpdateOf r₂ emptySha256 = .ok none := by
      have hnone : r₂.commitmetas[emptySha256]? = none := by
        rw [hr₂]
        show r₁.commitmetas[emptySha256]? = none
        rw [hmetas₁, hmetas]
        exact ExtTreeMap.lookup_empty _
      rw [cachedUpdateOf, hnone]
    let state : LayeredImageState := {
      baseCommit := sampleCommitSum, mergeCommit := emptySha256
      manifestDigest := sampleManifestDigest, manifest := chunkedManifest
      configuration := chunkedConfig, cachedUpdate := none }
    refine ⟨state, queryImageCommit_iff.mpr ⟨mergeCommit m (rootOf sampleCommit), sampleLayer,
      sampleLayerRef, rfl, hstored, manifestData_mergeMetadata chunkedPrep ∅,
      imageConfig_mergeMetadata chunkedPrep ∅, rfl, refForLayer_sample, ?_, hupdate⟩⟩
    rw [hrefs₂, hrefs₁, ExtTreeMap.lookup_insert, if_neg (by decide +kernel),
      ExtTreeMap.lookup_insert, if_pos rfl]
  obtain ⟨state, hstate⟩ := hquery
  have hqueried : (Act.queryImageCommit emptySha256).exec sampleTables.lib r₂ = .ok state r₂ := by
    show (do liftR (queryImageCommit (← get) emptySha256) : RepoM LayeredImageState) r₂ = _
    rw [bind_of_ok (get_run r₂), hstate]
    rfl
  have h₁ := first_except (first_act h trivial hidle hfetch) rfl
  have h₂ := first_except (first_act h₁ trivial hidle rfl) hload
  have h₃ := first_except (first_act h₂ trivial hidle rfl) rfl
  have h₄ := first_except h₃ refForImage_sample
  have h₅ := first_act h₄ trivial hidle rfl
  have h₆ := first_act h₅ hno hidle hmerge
  have h₇ := first_act h₆ trivial hidle hqueried
  refine ⟨r₂, h₇, by rw [hrefs₂, hrefs₁], ?_⟩
  rw [manifestOfCommit, hstored, bind_ok_eq]
  show (do
    let data ← manifestDataFromCommitmeta (mergeMetadata chunkedPrep ∅)
    .ok data.1) = _
  rw [manifestData_mergeMetadata]
  rfl

/-- Two clients of an empty repository. -/
def twoIdle : Clients Bool := two {} (pure ()) (pure ())

/-- The first one prepares the image. -/
theorem chunked_prepared : Clients.Run sampleTables.lib allowed twoIdle
    (two {} (atomically (.fetchChunkLayer chunkedSession none chunkState) >>= fun _ => chunkedRest)
      (pure ())) := by
  have h₁ := @start_first sampleTables.lib allowed twoIdle {} (pure ()) (pure ())
    Relation.ReflTransGen.refl trivial _
    (IsOperation.pull chunkedHost chunkedImporter chunkedImporter)
  have h₂ := first_act h₁ trivial trivial chunked_prepare
  rw [← chunked_program]
  exact h₂

/-- The other one collects garbage, if that is allowed. -/
theorem other_collects {p : ClientProg Unit} {hash : HashOrder} {n : Nat} {r' : Repo}
    (h : Clients.Run sampleTables.lib allowed twoIdle (two r p (pure ())))
    (hallowed : ∀ act, p.nextAct = some act → allowed (.gcImageLayers hash) act r)
    (hrun : gcImageLayers hash r = .ok n r') :
    Clients.Run sampleTables.lib allowed twoIdle (two r' p (pure ())) :=
  run_other (start_other h trivial (IsOperation.gcImageLayers hash)) rfl trivial hallowed hrun

/-- Where the ref of the chunk layer is the only one, nothing stops a collection, and it takes
    that ref away. -/
theorem chunk_collected
    (hrefs : r.refs = (∅ : ExtTreeMap String Checksum).insert secondLayerRef emptyChunkCommitSum)
    (hcommits : r.commits
      = (∅ : ExtTreeMap Checksum Commit).insertIfNew emptyChunkCommitSum emptyChunkCommit) :
    ∃ n r', gcImageLayers .sorted r = .ok n r' ∧ r'.refs[secondLayerRef]? = none := by
  have hlayer : Repo.refUnder layerPrefix secondLayerRef = true :=
    refUnder_of_escape escape_secondLayerRef
  have honly : ∀ {ref : String} {c : Checksum}, r.refs[ref]? = some c → ref = secondLayerRef := by
    intro ref c hc
    rw [hrefs, ExtTreeMap.lookup_insert] at hc
    by_contra hne
    rw [if_neg (Ne.symm hne), ExtTreeMap.lookup_empty] at hc
    exact absurd hc (by simp)
  have hnone : ∀ {pfx ref : String} {c : Checksum}, pfx ∈ imagePrefix :: deploymentPrefixes →
      r.refs[ref]? = some c → Repo.refUnder pfx ref ≠ true := by
    intro pfx ref c hpfx hc hunder
    rw [honly hc] at hunder
    exact absurd (hlayer.symm.trans (refUnder_disjoint hpfx hunder)) (by simp)
  have hready : GcReady r := by
    constructor
    · intro ref hin hunder
      obtain ⟨c, hc⟩ := ExtTreeMap.mem_iff_lookup.mp hin
      exact ⟨_, honly hc ▸ escape_secondLayerRef⟩
    · intro ref hin hunder
      obtain ⟨c, hc⟩ := ExtTreeMap.mem_iff_lookup.mp hin
      exact absurd hunder (hnone (List.mem_cons_self ..) hc)
    · intro ref c hc hunder
      exact absurd hunder (hnone (List.mem_cons_self ..) hc)
    · intro c commit hc hmeta
      rw [hcommits, ExtTreeMap.lookup_insertIfNew, ExtTreeMap.lookup_empty, Option.none_or] at hc
      split at hc
      · obtain rfl := Option.some.inj hc
        exact absurd hmeta (by decide)
      · exact absurd hc (by simp)
    · intro pfx hpfx ref c hc hunder
      exact absurd hunder (hnone (List.mem_cons_of_mem _ hpfx) hc)
  obtain ⟨gone, hrun, -, -, hblob⟩ := gcImageLayers_live hready .sorted
  refine ⟨_, _, hrun, ?_⟩
  cases hkept : (r.refs.eraseAll gone)[secondLayerRef]? with
  | none => rfl
  | some c =>
      obtain ⟨-, d, -, m, ⟨ref, c', hc', hunder, -⟩ | ⟨pfx, hpfx, ref, c', -, hc', hunder, -⟩, -⟩ :=
        (hblob secondLayerRef c hlayer).mp hkept
      · exact absurd hunder (hnone (List.mem_cons_self ..) hc')
      · exact absurd hunder (hnone (List.mem_cons_of_mem _ hpfx) hc')

end Chunked

/-- **A layer is collected under way**: the first client has fetched a layer, the other one collects
    garbage, and the first one goes on and succeeds, with an image that has lost that layer. -/
theorem collected_under_way : ∃ r,
    Clients.Run sampleTables.lib (fun _ _ _ => True) twoIdle (two r (pure ()) (pure ())) ∧
    ¬ ImagesComplete r := by
  obtain ⟨chunk, r₁, hfetch, hrefs₁, hcommits₁, hmetas₁⟩ := chunk_fetched
  have hfetched : Clients.Run sampleTables.lib (fun _ _ _ => True) twoIdle
      (two r₁ chunkedRest (pure ())) := first_act chunked_prepared trivial trivial hfetch
  obtain ⟨n, r₂, hgc, hgone⟩ := chunk_collected hrefs₁ hcommits₁
  have hunlinks := gcImageLayers_unlinks .sorted r₁
  rw [hgc, finalState_ok] at hunlinks
  have hcommits₂ : r₂.commits
      = (∅ : ExtTreeMap Checksum Commit).insertIfNew emptyChunkCommitSum emptyChunkCommit := by
    rw [hunlinks.objects, hcommits₁]
  obtain ⟨r₃, hrun, hrefs₃, hmanifest⟩ := chunked_finish
    (other_collects hfetched (fun _ _ => trivial) hgc) trivial hcommits₂
    (hunlinks.commitmetas.trans hmetas₁)
  refine ⟨r₃, hrun, fun hcomplete => ?_⟩
  have himage : r₃.refs[sampleImageRef]? = some emptySha256 := by
    rw [hrefs₃, ExtTreeMap.lookup_insert, if_pos rfl]
  obtain ⟨m, hm, hstored⟩ :=
    hcomplete _ _ himage (refUnder_of_escape escape_sampleImageRef)
  obtain rfl : chunkedManifest = m := Except.ok.inj (hmanifest.symm.trans hm)
  obtain ⟨ref, href, hin⟩ := hstored secondLayer (by simp [chunkedManifest])
  obtain rfl : secondLayerRef = ref := Except.ok.inj (escape_secondLayerRef.symm.trans href)
  obtain ⟨c, hc⟩ := ExtTreeMap.mem_iff_lookup.mp hin
  rw [hrefs₃, ExtTreeMap.lookup_insert, if_neg (by decide +kernel), ExtTreeMap.lookup_insert,
    if_neg (by decide +kernel), hgone] at hc
  cases hc

/-- So images do not stay complete in every run. -/
theorem clients_not_complete : ¬ ∀ (ι : Type) [DecidableEq ι] (lib : Libostree)
    (start reached : Clients ι), Whole start.state → (∀ i, (start.programs i).Idle) →
    Clients.Run lib (fun _ _ _ => True) start reached → ImagesComplete reached.state := by
  intro h
  obtain ⟨r, hrun, hnot⟩ := collected_under_way
  refine hnot (h Bool sampleTables.lib _ _ whole_empty (fun i => ?_) hrun)
  cases i <;> trivial

/-- A collection before the first layer is fetched has nothing to take, and the image is
    complete. -/
theorem chunked_complete : ∃ r,
    Clients.Run sampleTables.lib Act.LeavesAlone twoIdle (two r (pure ()) (pure ())) ∧
    r.refs[sampleImageRef]? = some emptySha256 ∧ ImagesComplete r := by
  have hready : GcReady {} := by
    constructor
    · exact fun ref hin _ => absurd hin ExtTreeMap.not_mem_empty
    · exact fun ref hin _ => absurd hin ExtTreeMap.not_mem_empty
    · exact fun ref c hc _ => absurd (hc.symm.trans (ExtTreeMap.lookup_empty _)) (by simp)
    · exact fun c commit hc _ => absurd (hc.symm.trans (ExtTreeMap.lookup_empty _)) (by simp)
    · exact fun _ _ ref c hc _ => absurd (hc.symm.trans (ExtTreeMap.lookup_empty _)) (by simp)
  have hgc : gcImageLayers .sorted {} = .ok 0 {} :=
    gcImageLayers_nothing hready .sorted (fun ref hin _ => absurd hin ExtTreeMap.not_mem_empty)
  have hcollected := @other_collects Act.LeavesAlone {} _ _ 0 {} chunked_prepared
    (fun act _ w _ l _ ref _ hin => absurd hin ExtTreeMap.not_mem_empty) hgc
  obtain ⟨chunk, r₁, hfetch, hrefs₁, hcommits₁, hmetas₁⟩ := chunk_fetched
  have hfetched : Clients.Run sampleTables.lib Act.LeavesAlone twoIdle
      (two r₁ chunkedRest (pure ())) := first_act hcollected trivial trivial hfetch
  obtain ⟨r₂, hrun, hrefs₂, -⟩ := chunked_finish hfetched trivial hcommits₁ hmetas₁
  have himage : r₂.refs[sampleImageRef]? = some emptySha256 := by
    rw [hrefs₂, ExtTreeMap.lookup_insert, if_pos rfl]
  refine ⟨r₂, hrun, himage, clients_complete whole_empty (fun i => ?_) hrun⟩
  cases i <;> trivial

end OstreeExt.Store
