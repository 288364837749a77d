import OstreeExt.BuildOci
import OstreeExt.Store.Shipment

/-!
# An encapsulated commit from one repository to another

What `build_oci` writes of a commit carries it: the layout is found again, also with other layers
behind the own ones.  `unencapsulate_ships` says that the commit arrives with all its objects in any
repository that holds nothing else under their checksums, and `import_ships` that it is the base of
every image that has the same layers and others behind them.  `bootable_iff` says which images an
importer takes for bootable.
-/

namespace OstreeExt.Store

open OstreeExt Tar Exec Objects Std

section Built

variable {lib : Libostree} {st : Statistics} {src : Repo} {rounds fuel : Nat} {c : Checksum}
  {commit : Commit} {opts : ExportOpts} {k : Chunking}

/-- **The chunking of `build_oci`** is one of the commit. -/
theorem buildChunking_chunksOf (hs : StoredCommit lib src c commit)
    (hdepth : src.DepthLt fuel commit.contents) (hroot : NoSysroot src.toObjects commit)
    (h : buildChunking lib st src rounds fuel c opts = .ok k) :
    ChunksOf lib src commit k ∧ k.Within src.toObjects ∧ k.Disjoint := by
  have hrev : src.requireRev c = .ok c := by
    rw [← hs.checksum]
    exact if_pos (lib.sha256_isSha256 _)
  obtain ⟨n, hnew⟩ := chunkingNew_eq lib hrev hs.stored
    (fun ty x hx => (hs.intact ty x hx).has) hdepth
  refine chunksOf_of_moves hs hdepth hroot ?_
  rw [buildChunking] at h
  cases hmeta : opts.contentmeta with
  | none =>
      rw [hmeta] at h
      obtain rfl := Except.ok.inj (hnew.symm.trans h)
      exact .refl
  | some contentmeta =>
      rw [hmeta] at h
      dsimp only at h
      rw [Chunking.fromMapping, hnew, bind_ok_eq] at h
      exact processMapping_moves h
end Built

/-- An image of a commit: what `build_oci` has made of it, with layers that can be told apart. -/
structure Encapsulation (lib : Libostree) (tar : TarCrate) where
  st : Statistics
  reader : CommitReader
  writer : OciDir
  emptyManifest : ImageManifest
  src : Repo
  rounds : Nat
  fuel : Nat
  rev : String
  config : Encapsulate.Config
  opts : ExportOpts
  c : Checksum
  commit : Commit
  k : Chunking
  image : BuiltImage
  stored : StoredCommit lib src c commit
  links : tar.KeepsLinks
  depth : src.DepthLt fuel commit.contents
  root : NoSysroot src.toObjects commit
  resolves : src.requireRev rev = .ok c
  empty : emptyManifest.layers = []
  built : buildOci lib tar st reader writer emptyManifest src rounds fuel rev config opts = .ok image
  chunking : buildChunking lib st src rounds fuel c opts = .ok k
  lastDistinct : k.LastDistinct
  distinct : writer.layers.Distinct (exportStreams lib tar src fuel c k)

namespace Encapsulation

variable {lib : Libostree} {tar : TarCrate} (e : Encapsulation lib tar)

/-- What it consists of. -/
def shipment : Shipment lib tar where
  blobs := e.writer.layers
  src := e.src
  fuel := e.fuel
  c := e.c
  commit := e.commit
  k := e.k
  stored := e.stored
  links := e.links
  depth := e.depth
  root := e.root
  chunks := (buildChunking_chunksOf e.stored e.depth e.root e.chunking).1
  within := (buildChunking_chunksOf e.stored e.depth e.root e.chunking).2.1
  distinct := e.distinct

/-- The image, with other layers behind the own ones, and diff ids for them. -/
def imageWith (extra : List (Descriptor × String)) : ImageManifest × ImageConfiguration :=
  ({ e.image.manifest with layers := e.image.manifest.layers ++ extra.map (·.1) },
    { e.image.config with diffIds := e.image.config.diffIds ++ extra.map (·.2) })

/-- An importer that is served the image, with other layers behind the own ones. -/
structure Serves (host : Host) (imp : ImageImporter) (manifestDigest : Digest)
    (extra : List (Descriptor × String)) : Prop where
  others : ∀ x ∈ extra, x.1.digest ∉ e.image.manifest.layers.map (·.digest)
  served : ServesImage host imp e.writer.layers e.shipment.streams manifestDigest
    (e.imageWith extra).1 (e.imageWith extra).2
  unsigned : remoteOf imp.imgref.sigverify = none

theorem image_built :
    Built lib tar e.reader e.writer e.src e.fuel e.c e.commit e.config e.opts e.k e.image := by
  obtain ⟨k, hk, hbuilt⟩ := buildOci_eq_ok e.resolves e.stored.stored e.shipment.complete e.depth
    e.empty
    (fun k hk => (buildChunking_chunksOf e.stored e.depth e.root hk).2.1) e.built
  obtain rfl := Except.ok.inj (e.chunking.symm.trans hk)
  exact hbuilt

theorem image_layers : e.image.manifest.layers = e.shipment.first :: e.shipment.rest :=
  e.image_built.layers

/-- The boolean `ostree.bootable` of the commit. -/
def bootableFlag : Option Bool :=
  metaBool e.reader e.commit.metadata metadataKeyBootable

/-- **The layout of the image** is found again, also with other layers behind it. -/
theorem carries {extra : List (Descriptor × String)}
    (hothers : ∀ x ∈ extra, x.1.digest ∉ e.image.manifest.layers.map (·.digest)) :
    e.shipment.Carries (e.imageWith extra) (extra.map (·.1)) where
  layers := by rw [imageWith, e.image_layers]
  layout := by
    obtain ⟨-, -, hdisjoint⟩ := buildChunking_chunksOf e.stored e.depth e.root e.chunking
    have hbuilt := e.image_built
    obtain ⟨first, rest, hlayers, hreads⟩ := readsBack_of_lastDistinct e.stored.stored
      e.shipment.complete e.depth e.shipment.within hdisjoint e.distinct e.lastDistinct hbuilt.layers
      hbuilt.diffIds (by
        rw [hbuilt.labels, imageLabel, if_pos rfl]
        rfl)
    obtain ⟨rfl, rfl⟩ := List.cons.inj (hlayers.symm.trans e.image_layers)
    exact hreads extra hothers
  others l hl heq := by
    obtain ⟨x, hx, rfl⟩ := List.mem_map.mp hl
    refine hothers x hx ?_
    rw [heq, e.image_layers]
    exact List.mem_cons_self ..

section Ships

variable {e} {host : Host} {imp : ImageImporter} {manifestDigest : Digest}
  {extra : List (Descriptor × String)} {prep : PreparedImport} {state : LayeredImageState}
  {r r' : Repo}

theorem Serves.shipment (h : e.Serves host imp manifestDigest extra) :
    e.shipment.Serves host imp manifestDigest (e.imageWith extra) (extra.map (·.1)) where
  carries := e.carries h.others
  served := h.served
  unsigned := h.unsigned

/-- The small registry serves the image. -/
theorem sampleImporter_serves (e : Encapsulation lib tar) (manifestDigest : Digest)
    (hmediaType : ∀ es, (e.writer.layers.layer es).mediaType = .imageLayerGzip) :
    e.Serves (Shipment.sampleHost e.shipment.streams)
      (e.shipment.sampleImporter manifestDigest (e.imageWith [])) manifestDigest [] where
  others x hx := absurd hx List.not_mem_nil
  served := (e.shipment.sampleImporter_serves manifestDigest
    (e.carries (fun x hx => absurd hx List.not_mem_nil)) hmediaType).served
  unsigned := rfl

end Ships

end Encapsulation

-- ── A small commit ────────────────────────────────────────────────────────────

/-- Metadata of a commit without any. -/
def sampleReader : CommitReader where
  text _ := ""
  bool _ := none
  strv _ := none
  date _ := some ""

/-- The sample commit is encapsulated, with content metadata or without. -/
theorem encapsulation_sample (contentmeta : Option ObjectMetaSized) {k : Chunking}
    (hchunking : buildChunking sampleTables.lib sampleStatistics sampleRepo 0 2 sampleCommitSum
      { contentmeta } = .ok k) (hlast : k.LastDistinct) (hlen : k.chunks.length < 64) :
    ∃ e : Encapsulation sampleTables.lib sampleTar, e.src = sampleRepo ∧ e.c = sampleCommitSum ∧
      e.commit = sampleCommit ∧ e.k = k ∧
      ∀ es, (e.writer.layers.layer es).mediaType = .imageLayerGzip := by
  have hrev : sampleRepo.requireRev sampleCommitSum = .ok sampleCommitSum :=
    if_pos isSha256_sampleCommitSum
  have hroot : NoSysroot sampleRepo.toObjects sampleCommit := by
    intro d hd
    obtain rfl : sampleTree = d := Option.some.inj (lookup_sampleTree.symm.trans hd)
    exact ⟨by decide, by decide⟩
  let streams := exportStreams sampleTables.lib sampleTar sampleRepo 2 sampleCommitSum k
  let writer : OciDir := { sampleOci with layers := tallyWriter streams }
  have hwithin := (buildChunking_chunksOf sampleCommit_stored depthLt_sampleTree hroot hchunking).2.1
  obtain ⟨image, hexport, -⟩ := @exportChunked_run sampleTables.lib sampleTar writer.layers sampleRepo
    sampleCommitSum sampleCommit 2 k lookup_sampleCommit sampleRepo_complete depthLt_sampleTree hwithin
    (emptyImage.1, { created := some "" }) (addLabels sampleCommitSum none {} { contentmeta } ∅)
    ("ostree export of commit " ++ sampleCommitSum)
  have hbuilt : ∃ image, buildOci sampleTables.lib sampleTar sampleStatistics sampleReader writer
      emptyImage.1 sampleRepo 0 2 sampleCommitSum {} { contentmeta } = .ok image := by
    have hload : sampleRepo.loadCommit sampleCommitSum = .ok sampleCommit := by
      rw [Repo.loadCommit, lookup_sampleCommit]
      rfl
    have htime : formatTimestamp sampleReader sampleCommit.timestamp = .ok "" := rfl
    have hnone : ∀ key : String, sampleCommit.metadata[key]? = none :=
      fun _ => ExtTreeMap.lookup_empty _
    have htext : ∀ key, lookupText sampleReader sampleCommit.metadata key = .ok none := by
      intro key
      rw [lookupText, lookupStr, hnone]
      rfl
    have hbytes : ∀ {α : Type} (read : Bytes → Option α) signature key,
        lookupBytes read signature sampleCommit.metadata key = .ok none := by
      intro α read signature key
      rw [lookupBytes, hnone]
    have hlabels : commitMetaToLabels sampleReader sampleCommit.metadata [] [] ∅ = .ok ∅ := by
      rw [commitMetaToLabels, lookupBool, hbytes]
      show copyOptKey sampleReader sampleCommit.metadata ∅ metadataKeyLinux = _
      rw [copyOptKey, htext]
      rfl
    rw [buildOci, hrev, bind_ok_eq, hload, bind_ok_eq, htime, bind_ok_eq, hlabels, bind_ok_eq,
      hchunking, bind_ok_eq, htext, bind_ok_eq]
    have hstep : ∀ {α β : Type} {x : Result α} {a : α} {f : α → Result β}, x = .ok a →
        (∃ b, f a = .ok b) → ∃ b, x >>= f = .ok b := by
      rintro α β x a f rfl h
      exact h
    exact hstep hexport (hstep (hbytes sampleReader.strv "as" commitMetaContainerCmd) ⟨_, rfl⟩)
  obtain ⟨image, hbuilt⟩ := hbuilt
  exact ⟨{
    st := sampleStatistics, reader := sampleReader, writer, emptyManifest := emptyImage.1
    src := sampleRepo, rounds := 0, fuel := 2, rev := sampleCommitSum, config := {}
    opts := { contentmeta }, c := sampleCommitSum, commit := sampleCommit, k, image
    stored := sampleCommit_stored, links := sampleTar_keepsLinks, depth := depthLt_sampleTree
    root := hroot, resolves := hrev, empty := rfl, built := hbuilt, chunking := hchunking
    lastDistinct := hlast
    distinct := tallyWriter_distinct (by
      rw [show streams.length = k.chunks.length + 1 from by simp [streams, exportStreams]]
      omega) }, rfl, rfl, rfl, rfl, fun _ => rfl⟩

theorem sample_apart {k : Chunking} (h : ∀ chunk ∈ k.chunks,
    NoCollision sampleTables.lib sampleRepo chunk.content) :
    SyntheticApart sampleTables.lib sampleRepo k := by
  refine ⟨h, fun m hm => ?_⟩
  have hmeta : defaultDirmeta = sampleMeta := rfl
  rw [hmeta, dirmetaChecksum_sampleMeta, lookup_sampleMeta] at hm
  exact (Option.some.inj hm).symm

theorem tryQueryImage_sample {r : Repo} (h : r.refs[sampleImageRef]? = none) :
    tryQueryImage r sampleImage = .ok none := by
  have href : refForImage sampleImage = .ok sampleImageRef := refForImage_sample
  rw [tryQueryImage, href, bind_ok_eq, resolveRev_of_escape escape_sampleImageRef]
  rw [h]

/-- The sample repository with the layer of an image of its commit. -/
def layeredRepo (ref : String) : Repo :=
  { sampleRepo with refs := (∅ : ExtTreeMap String Checksum).insert ref sampleCommitSum }

/-- An import of an image of one layer that is there already. -/
theorem import_stored {host : Host} {lib : Libostree} {imp : ImageImporter} {prep : PreparedImport}
    {r : Repo} {c : Checksum} {base : Commit} {transient : Bool} {ref : String} {l : Descriptor}
    (hchunks : prep.ostreeLayers = []) (hlayers : prep.layers = [])
    (hthere : prep.ostreeCommitLayer.commit = some c)
    (hallowed : imp.checkSigverify host false = .ok ())
    (hinfo : ∀ b, imp.proxy.getLayerInfo b = .ok none) (hclose : imp.proxy.closeImage = .ok ())
    (hfinalize : imp.proxy.finalize = .ok ()) (hgc : imp.disableGc = true)
    (hload : r.loadCommit c = .ok base)
    (htransient : host.overlayfsRootEnabled r.toObjects base = .ok transient)
    (htarget : refForImage (imp.targetImgref.getD imp.imgref).imgref = .ok ref)
    (htrees : host.mergeTrees r.toObjects (rootOf base) [] false = .ok (rootOf base, r.toObjects))
    (hfirst : prep.manifest.layers.head? = some l) {layerRef : String}
    (hlayerRef : refForLayer l = .ok layerRef) (hlookup : r.refs[layerRef]? = some c)
    (hmetas : r.commitmetas = ∅)
    (hno : ∀ commit v, commit.metadata[metaManifest]? = some v →
      r.commits[lib.commitChecksum commit]? = none) :
    ∃ state r', imp.importImage host lib prep r = .ok state r' ∧ state.manifest = prep.manifest := by
  have hcommitLayer : imp.fetchCommitLayer host lib prep.manifest none
      (remoteOf imp.imgref.sigverify) true prep.ostreeCommitLayer r
        = .ok { prep.ostreeCommitLayer with commit := some c } r := by
    rw [ImageImporter.fetchCommitLayer, if_pos (by rw [hthere]; rfl), ← hthere]
    rfl
  have hfetch := fetchLayers_run hchunks hlayers hallowed hinfo hcommitLayer hload htransient htarget
    hclose hfinalize
  let m : MergeInput := {
    ostreeRef := ref, metadata := mergeMetadata prep ∅
    timestamp := (timestampOfManifestOrConfig host prep.manifest prep.config).getD
      (host.clock r.trace)
    baseCommit := c, layerCommits := [], haveDerivedLayers := false }
  have hmerge := @mergeLayers_run host lib imp m r base [] (rootOf base) r.toObjects hload rfl htrees
  have hmerges : Merges host lib imp m r _ _ (rootOf base) r.toObjects :=
    ⟨⟨base, [], hload, rfl, htrees⟩, rfl, rfl⟩
  have hnone := hno (mergeCommit m (rootOf base)) _ (lookup_mergeMetadata prep ∅).2.1
  have hstored := hmerges.stored (fun b hb => absurd (hnone.symm.trans hb) (by simp))
  have hbase := hmerges.refs layerRef
  have hsame : (imp.mergedRepo lib m (rootOf base) r.toObjects r).commitmetas = ∅ := hmetas
  have hmerged : imp.importMerged host lib prep r
      = .ok (lib.commitChecksum (mergeCommit m (rootOf base)))
        (imp.mergedRepo lib m (rootOf base) r.toObjects r) := by
    rw [ImageImporter.importMerged, bind_of_ok hfetch]
    exact hmerge
  generalize lib.commitChecksum (mergeCommit m (rootOf base)) = k at *
  generalize imp.mergedRepo lib m (rootOf base) r.toObjects r = merged at *
  have hkept : merged.refs[layerRef]? = some c := by
    rcases hbase with heq | ⟨himage, -⟩
    · exact heq.trans hlookup
    · -- the ref of the image is the ref of no layer
      have hunder : Repo.refUnder imagePrefix layerRef = true :=
        himage ▸ refUnder_of_escape htarget
      exact absurd ((refUnder_of_escape hlayerRef).symm.trans
        (refUnder_disjoint (List.mem_cons_self ..) hunder)) (by simp)
  let state : LayeredImageState := {
    baseCommit := c, mergeCommit := k, manifestDigest := prep.manifestDigest
    manifest := prep.manifest, configuration := prep.config, cachedUpdate := none }
  have hquery : queryImageCommit merged k = .ok state := by
    refine queryImageCommit_iff.mpr ⟨mergeCommit m (rootOf base), l, layerRef, rfl, hstored,
      manifestData_mergeMetadata prep ∅, imageConfig_mergeMetadata prep ∅, hfirst, hlayerRef, hkept,
      ?_⟩
    rw [cachedUpdateOf, hsame, ExtTreeMap.lookup_empty]
  refine ⟨state, merged, ?_, rfl⟩
  rw [ImageImporter.importImage, bind_of_ok hmerged, ImageImporter.finishImport]
  dsimp only
  rw [if_pos hgc, bind_of_ok (get_run merged), hquery]
  rfl

end OstreeExt.Store
