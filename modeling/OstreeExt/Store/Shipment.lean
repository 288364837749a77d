import OstreeExt.Encapsulate
import OstreeExt.Lib.Pointwise
import OstreeExt.Moved
import OstreeExt.Store.Cache
import OstreeExt.Store.Unencapsulate

/-!
# A commit from one repository to another

What `export_chunked` writes of a commit, the importer reads: the stream of each chunk is imported
as an object set, and the final stream as the commit.  A `Shipment` is such a commit with its
chunks and the writer of their layers; an image `Carries` it if the layout parser finds these layers
and then others.  `unencapsulated` says that the commit arrives with all its objects in any
repository that holds nothing else under their checksums, and `imported` that it is the base of
what is imported.
-/

namespace OstreeExt.Tar

open Std

variable {α : Type} {base src m : ExtTreeMap Checksum α} {F : Finset Checksum} {x : Checksum}

/-- An overlay from the source agrees with it where its base does. -/
theorem Overlay.agrees (h : Overlay base src F m)
    (hbase : ∀ v, base[x]? = some v → src[x]? = some v) {v : α} (hv : m[x]? = some v) :
    src[x]? = some v := by
  rw [h x] at hv
  cases hx : base[x]? with
  | some u =>
      rw [hx, Option.some_or] at hv
      rw [hbase u hx, hv]
  | none =>
      rw [hx, Option.none_or] at hv
      split at hv
      · exact hv
      · cases hv

/-- What was written is that of the source. -/
theorem Overlay.wrote (h : Overlay base src F m)
    (hbase : ∀ v, base[x]? = some v → src[x]? = some v) (hx : x ∈ F) : m[x]? = src[x]? := by
  rw [h x, if_pos hx]
  cases hb : base[x]? with
  | some u => rw [hbase u hb, Option.or_self]
  | none => rw [Option.none_or]

theorem Overlay.keeps (h : Overlay base src F m) {v : α} (hv : base[x]? = some v) :
    m[x]? = some v := by
  rw [h x, hv, Option.some_or]

/-- What is there and agrees is that of the source. -/
theorem lookup_of_agrees (hbase : ∀ v, base[x]? = some v → src[x]? = some v) (hx : x ∈ base) :
    base[x]? = src[x]? := by
  obtain ⟨v, hv⟩ := ExtTreeMap.mem_iff_lookup.mp hx
  rw [hv, hbase v hv]

end OstreeExt.Tar

namespace OstreeExt.Store

open OstreeExt Tar Exec Objects Std

-- ── The destination ───────────────────────────────────────────────────────────

/-- A repository holds nothing else under the checksums of a commit. -/
structure Agrees (src : Repo) (c : Checksum) (commit : Commit) (r : Repo) : Prop where
  same : ∀ b, r.commits[c]? = some b → b = commit
  dirtrees : ∀ (x : Checksum) v, src.CommitReaches commit .dirTree x → r.dirtrees[x]? = some v →
    src.dirtrees[x]? = some v
  dirmetas : ∀ (x : Checksum) v, src.CommitReaches commit .dirMeta x → r.dirmetas[x]? = some v →
    src.dirmetas[x]? = some v
  files : ∀ (x : Checksum) v, src.CommitReaches commit .file x → r.files[x]? = some v →
    src.files[x]? = some v

/-- The synthetic commits of the chunks share no checksum with another object of the source. -/
structure SyntheticApart (lib : Libostree) (src : Repo) (k : Chunking) : Prop where
  chunk : ∀ chunk ∈ k.chunks, NoCollision lib src chunk.content
  dirmeta : ∀ m, src.dirmetas[lib.dirmetaChecksum defaultDirmeta]? = some m → m = defaultDirmeta

-- ── The registry ──────────────────────────────────────────────────────────────

/-- An importer whose proxy serves an image, with the blobs of these streams. -/
structure ServesImage (host : Host) (imp : ImageImporter) (blobs : BlobWriter)
    (streams : List (List Entry)) (manifestDigest : Digest) (manifest : ImageManifest)
    (config : ImageConfiguration) : Prop where
  transport : imp.imgref.imgref.transport ≠ .containerStorage
  fetchManifest : imp.proxy.fetchManifest = .ok (manifestDigest, manifest)
  fetchConfig : imp.proxy.fetchConfig = .ok config
  layerInfo : ∃ info, imp.proxy.getLayerInfo false = .ok info
  blob : ∀ es ∈ streams, ∃ bytes compression,
    imp.proxy.getBlob ("sha256:" ++ (blobs.layer es).sha256) (blobs.layer es).size
      = .ok (bytes, .ok ()) ∧
    decompressor (blobs.layer es).mediaType = .ok compression ∧
    host.objects compression bytes = es.map .ok
  progress : ∀ p, imp.sendProgress p = .ok ()
  closeImage : imp.proxy.closeImage = .ok ()

section Layers

variable {lib : Libostree} {tar : TarCrate} {blobs : BlobWriter} {src : Repo} {c : Checksum}
  {commit : Commit} {host : Host} {imp : ImageImporter} {streams : List (List Entry)}
  {manifestDigest : Digest} {manifest : ImageManifest} {config : ImageConfiguration}

/-- The layer of a stream is fetched and unpacked. -/
theorem ServesImage.fetch
    (h : ServesImage host imp blobs streams manifestDigest manifest config) {es : List Entry}
    (hes : es ∈ streams) {layer : Descriptor} {annotations : Option StrMap}
    (hlayer : layer = (blobs.layer es).descriptor annotations) (hlisted : layer ∈ manifest.layers)
    (info : Option (List ConvertedLayerInfo)) :
    ∃ bytes compression, fetchLayer imp.proxy manifest layer info imp.imgref.imgref.transport
        = .ok (bytes, .ok (), (blobs.layer es).mediaType) ∧
      decompressor (blobs.layer es).mediaType = .ok compression ∧
      host.objects compression bytes = es.map .ok := by
  obtain ⟨bytes, compression, hblob, hcompression, hobjects⟩ := h.blob es hes
  have hindex : (manifest.layers.findIdx? (· = layer)).isSome = true := by
    rw [List.findIdx?_isSome, List.any_eq_true]
    exact ⟨layer, hlisted, by simp⟩
  obtain ⟨i, hi⟩ := Option.isSome_iff_exists.mp hindex
  refine ⟨bytes, compression, ?_, hcompression, hobjects⟩
  have hdigest : imp.proxy.getBlob layer.digest layer.size = .ok (bytes, .ok ()) := by
    rw [hlayer]
    exact hblob
  have hmediaType : layer.mediaType = (blobs.layer es).mediaType := by
    rw [hlayer]
    rfl
  rw [fetchLayer, hi]
  dsimp only
  rw [if_neg h.transport, hdigest, bind_ok_eq, hmediaType]

/-- **The transaction of a chunk layer**, on the stream of a sound chunk. -/
theorem importChunkLayer_ships (hs : StoredCommit lib src c commit) (htar : tar.KeepsLinks)
    {m : ChunkMapping}
    (hsound : ChunkSound lib src.toObjects (fun f => src.CommitReaches commit .file f) m)
    (writeRefs : Bool) (ref : String) {r : Repo} (hagrees : Agrees src c commit r)
    (hapart : writeRefs = true → NoCollision lib src m ∧
      ∀ d, src.dirmetas[lib.dirmetaChecksum defaultDirmeta]? = some d → d = defaultDirmeta) :
    ∃ o r', importChunkLayer lib writeRefs ref ((chunkStream lib tar src c m).map .ok) r
        = .ok o r' ∧
      Agrees src c commit r' ∧ r.toObjects.Keeps r'.toObjects ∧
      ∀ x ∈ m, r'.files[x]? = src.files[x]? := by
  obtain ⟨es, imp, hexport, himport, hdone, s, hdata, hmem⟩ :=
    exportChunk_importObjects hs.stored htar hs.xattrs hsound r
  obtain rfl := eq_keyTree hmem
  have hes : chunkStream lib tar src c m = es := by rw [chunkStream, hexport]
  have hfiles : ∀ x ∈ m, imp.repo.files[x]? = src.files[x]? := by
    intro x hx
    obtain ⟨v, hv⟩ := ExtTreeMap.mem_iff_lookup.mp hx
    exact hdone.files.wrote (fun u hu => hagrees.files x u (hsound x v hv).1 hu) (mem_keySet.mpr hx)
  have hagrees' : Agrees src c commit imp.repo := by
    refine ⟨?_, ?_, ?_, fun x v hx hv => hdone.files.agrees (hagrees.files x · hx) hv⟩
    · rw [hdone.commits]
      exact hagrees.same
    · rw [hdone.dirtrees]
      exact hagrees.dirtrees
    · rw [hdone.dirmetas]
      exact hagrees.dirmetas
  have hkeeps : r.toObjects.Keeps imp.repo.toObjects := by
    refine ⟨?_, ?_, ?_, fun x v hv => hdone.files.keeps hv⟩
    · rw [hdone.commits]
      exact fun _ _ h => h
    · rw [hdone.dirtrees]
      exact fun _ _ h => h
    · rw [hdone.dirmetas]
      exact fun _ _ h => h
  rw [hes]
  cases writeRefs with
  | false =>
      refine ⟨none, imp.repo, ?_, hagrees', hkeeps, hfiles⟩
      refine autoTransaction_ok ?_
      rw [if_neg (by simp), bind_of_ok (withImporter_ok himport)]
      rfl
  | true =>
      obtain ⟨hno, hdirmeta⟩ := hapart rfl
      have hbody : withImporter Importer.newForObjectSet (do
          importObjects lib (es.map Except.ok)
          finishImportObjectSet lib) r
          = .ok (lib.commitChecksum (objectSetCommit lib (keyTree m)))
            (objectSetRepo lib (keyTree m) imp.repo) := by
        have hall := (bind_of_ok (f := fun _ => finishImportObjectSet lib) himport).trans
          (finishImportObjectSet_run hdata)
        exact withImporter_ok hall
      let r' : Repo := { objectSetRepo lib (keyTree m) imp.repo with
        refs := imp.repo.refs.insert ref (lib.commitChecksum (objectSetCommit lib (keyTree m))) }
      refine ⟨some (lib.commitChecksum (objectSetCommit lib (keyTree m))), r', ?_, ?_, ?_, hfiles⟩
      · refine autoTransaction_ok ?_
        rw [if_pos rfl, bind_of_ok hbody]
        rfl
      · -- the three objects of the synthetic commit are no others of the source
        refine ⟨fun b hb => ?_, fun x v hx hv => ?_, fun x v hx hv => ?_, hagrees'.files⟩
        · rcases eq_of_lookup_insertIfNew hb with hb | ⟨hc, rfl⟩
          · exact hagrees'.same b hb
          · exact (hno.commit commit (hc ▸ hs.stored)).symm
        · rcases eq_of_lookup_insertIfNew hv with hv | ⟨hsum, rfl⟩
          · exact hagrees'.dirtrees x v hx hv
          · obtain ⟨d, hd⟩ := ExtTreeMap.mem_iff_lookup.mp (hs.intact _ _ hx).has
            rw [hd, hno.dirtree d (hsum ▸ hd)]
        · rcases eq_of_lookup_insertIfNew hv with hv | ⟨hsum, rfl⟩
          · exact hagrees'.dirmetas x v hx hv
          · obtain ⟨d, hd⟩ := ExtTreeMap.mem_iff_lookup.mp (hs.intact _ _ hx).has
            rw [hd, hdirmeta d (hsum ▸ hd)]
      · refine hkeeps.trans ⟨fun k v hk => ?_, fun k v hk => ?_, fun k v hk => ?_, fun _ _ h => h⟩
        · exact lookup_insertIfNew_old hk
        · exact lookup_insertIfNew_old hk
        · exact lookup_insertIfNew_old hk

/-- A chunk layer that is fetched, or whose objects are there. -/
theorem fetchChunkLayer_ships (hs : StoredCommit lib src c commit) (htar : tar.KeepsLinks)
    (hserves : ServesImage host imp blobs streams manifestDigest manifest config) {chunk : Chunk}
    (hsound : ChunkSound lib src.toObjects (fun f => src.CommitReaches commit .file f) chunk.content)
    (hstream : chunkStream lib tar src c chunk.content ∈ streams) {layer : ManifestLayerState}
    (hlayer : layer.layer = (chunkPart lib tar blobs src c chunk).1.descriptor
      (chunkPart lib tar blobs src c chunk).2) (hlisted : layer.layer ∈ manifest.layers)
    (info : Option (List ConvertedLayerInfo)) (writeRefs : Bool) {r : Repo}
    (hagrees : Agrees src c commit r)
    (hapart : writeRefs = true → NoCollision lib src chunk.content ∧
      ∀ d, src.dirmetas[lib.dirmetaChecksum defaultDirmeta]? = some d → d = defaultDirmeta)
    (hthere : layer.commit.isSome = true → ∀ x ∈ chunk.content, x ∈ r.files) :
    ∃ layer' r', imp.fetchChunkLayer host lib manifest info writeRefs layer r = .ok layer' r' ∧
      Agrees src c commit r' ∧ r.toObjects.Keeps r'.toObjects ∧
      ∀ x ∈ chunk.content, r'.files[x]? = src.files[x]? := by
  by_cases hsome : layer.commit.isSome = true
  · refine ⟨layer, r, ?_, hagrees, .refl _, fun x hx => ?_⟩
    · rw [ImageImporter.fetchChunkLayer, if_pos hsome]
      rfl
    · obtain ⟨v, hv⟩ := ExtTreeMap.mem_iff_lookup.mp hx
      exact lookup_of_agrees (fun u hu => hagrees.files x u (hsound x v hv).1 hu)
        (hthere hsome x hx)
  · obtain ⟨bytes, compression, hfetch, hcompression, hobjects⟩ :=
      hserves.fetch hstream hlayer hlisted info
    obtain ⟨o, r', himport, hagrees', hkeeps, hfiles⟩ := importChunkLayer_ships hs htar hsound
      writeRefs layer.ostreeRef hagrees hapart
    refine ⟨{ layer with commit := o }, r', ?_, hagrees', hkeeps, hfiles⟩
    have hworker : joinFetch (do
        let compression ← liftR (decompressor (chunkPart lib tar blobs src c chunk).1.mediaType)
        importChunkLayer lib writeRefs layer.ostreeRef (host.objects compression bytes)) (.ok ()) r
          = .ok o r' := by
      have hmediaType : decompressor (chunkPart lib tar blobs src c chunk).1.mediaType
        = .ok compression := hcompression
      rw [joinFetch, hmediaType, bind_assoc, bind_of_ok (liftR_ok _ _), hobjects,
        bind_of_ok himport]
      rfl
    rw [ImageImporter.fetchChunkLayer, if_neg hsome, hserves.progress, bind_of_ok (liftR_ok _ _),
      hfetch, bind_of_ok (liftR_ok _ _)]
    dsimp only
    rw [show (blobs.layer (chunkStream lib tar src c chunk.content)).mediaType
      = (chunkPart lib tar blobs src c chunk).1.mediaType from rfl, bind_of_ok hworker,
      hserves.progress, bind_of_ok (liftR_ok _ _)]
    rfl

/-- The layer of a chunk, as `prepare` has found it. -/
def FoundChunk (lib : Libostree) (tar : TarCrate) (blobs : BlobWriter) (src : Repo) (c : Checksum)
    (r : Repo) (chunk : Chunk) (layer : ManifestLayerState) : Prop :=
  layer.layer = (chunkPart lib tar blobs src c chunk).1.descriptor
      (chunkPart lib tar blobs src c chunk).2 ∧
    (layer.commit.isSome = true → ∀ x ∈ chunk.content, x ∈ r.files)

/-- **All chunk layers.** -/
theorem fetchChunkLayers_ships (hs : StoredCommit lib src c commit) (htar : tar.KeepsLinks)
    (hserves : ServesImage host imp blobs streams manifestDigest manifest config)
    (info : Option (List ConvertedLayerInfo)) (writeRefs : Bool)
    (hdirmeta : writeRefs = true →
      ∀ d, src.dirmetas[lib.dirmetaChecksum defaultDirmeta]? = some d → d = defaultDirmeta)
    {chunks : List Chunk} {layers : List ManifestLayerState} {r₀ r : Repo}
    (hfound : List.Forall₂ (FoundChunk lib tar blobs src c r₀) chunks layers)
    (hkept : r₀.toObjects.Keeps r.toObjects)
    (hsound : ∀ chunk ∈ chunks, ChunkSound lib src.toObjects
      (fun f => src.CommitReaches commit .file f) chunk.content)
    (hstream : ∀ chunk ∈ chunks, chunkStream lib tar src c chunk.content ∈ streams)
    (hlisted : ∀ layer ∈ layers, layer.layer ∈ manifest.layers)
    (hapart : writeRefs = true → ∀ chunk ∈ chunks, NoCollision lib src chunk.content)
    (hagrees : Agrees src c commit r) :
    ∃ layers' r', layers.mapM (imp.fetchChunkLayer host lib manifest info writeRefs) r
        = .ok layers' r' ∧
      Agrees src c commit r' ∧ r.toObjects.Keeps r'.toObjects ∧
      ∀ chunk ∈ chunks, ∀ x ∈ chunk.content, r'.files[x]? = src.files[x]? := by
  induction hfound generalizing r with
  | nil => exact ⟨[], r, rfl, hagrees, .refl _, fun _ h => absurd h List.not_mem_nil⟩
  | @cons chunk layer chunks layers hlayer _ ih =>
      have hone := hsound chunk (List.mem_cons_self ..)
      obtain ⟨layer', r₁, hrun, hagrees₁, hkeeps₁, hfiles₁⟩ := fetchChunkLayer_ships hs htar hserves
        hone (hstream chunk (List.mem_cons_self ..)) hlayer.1
        (hlisted layer (List.mem_cons_self ..)) info writeRefs hagrees
        (fun hwrite => ⟨hapart hwrite chunk (List.mem_cons_self ..), hdirmeta hwrite⟩)
        (fun hsome x hx => by
          obtain ⟨v, hv⟩ := ExtTreeMap.mem_iff_lookup.mp (hlayer.2 hsome x hx)
          exact ExtTreeMap.mem_iff_lookup.mpr ⟨v, hkept.files x v hv⟩)
      obtain ⟨layers', r', hrest, hagrees', hkeeps', hfiles'⟩ := ih (hkept.trans hkeeps₁)
        (fun a ha => hsound a (List.mem_cons_of_mem _ ha))
        (fun a ha => hstream a (List.mem_cons_of_mem _ ha))
        (fun a ha => hlisted a (List.mem_cons_of_mem _ ha))
        (fun hwrite a ha => hapart hwrite a (List.mem_cons_of_mem _ ha)) hagrees₁
      refine ⟨layer' :: layers', r', ?_, hagrees', hkeeps₁.trans hkeeps', ?_⟩
      · rw [List.mapM_cons, bind_of_ok hrun, bind_of_ok hrest]
        rfl
      · intro a ha x hx
        rcases List.mem_cons.mp ha with rfl | ha
        · have hsrc : ∃ v, src.files[x]? = some v := by
            obtain ⟨v, hv⟩ := ExtTreeMap.mem_iff_lookup.mp hx
            exact ExtTreeMap.mem_iff_lookup.mp (hs.intact _ _ (hone x v hv).1).has
          obtain ⟨v, hv⟩ := hsrc
          rw [hv]
          exact hkeeps'.files x v ((hfiles₁ x hx).trans hv)
        · exact hfiles' a ha x hx

-- ── The commit layer ──────────────────────────────────────────────────────────

/-- The chunks of a commit: sound, and together all of its content. -/
structure ChunksOf (lib : Libostree) (src : Repo) (commit : Commit) (k : Chunking) : Prop where
  sound : ∀ chunk ∈ k.remainder :: k.chunks, ChunkSound lib src.toObjects
    (fun f => src.CommitReaches commit .file f) chunk.content
  cover : ∀ x, src.CommitReaches commit .file x →
    ∃ chunk ∈ k.remainder :: k.chunks, x ∈ chunk.content

/-- **The transaction of the commit layer**, where the objects of the chunks are there. -/
theorem importCommitLayer_ships (hs : StoredCommit lib src c commit) (htar : tar.KeepsLinks)
    {fuel : Nat} (hdepth : src.DepthLt fuel commit.contents)
    (hroot : NoSysroot src.toObjects commit) {k : Chunking} (hk : ChunksOf lib src commit k)
    (writeRefs : Bool) (ref : String) {r : Repo} (hagrees : Agrees src c commit r)
    (hfiles : ∀ chunk ∈ k.chunks, ∀ x ∈ chunk.content, r.files[x]? = src.files[x]?) :
    ∃ r', importCommitLayer lib none writeRefs ref
        ((finalStream lib tar src fuel c k.remainder).map .ok) r = .ok c r' ∧
      SameCommit src r' c commit ∧ r.toObjects.Keeps r'.toObjects ∧
      (writeRefs = true → r'.refs[ref]? = some c) := by
  obtain ⟨r₁, hrun, hcommits, hoverlay, ⟨T, hdirtrees, hT⟩, M, hdirmetas, hM₀, hM⟩ :=
    transferFinal_run hs htar hdepth (hk.sound _ (List.mem_cons_self ..)) r
  obtain ⟨es, r₀, hlift, hbody⟩ := bind_ok hrun
  obtain ⟨hexport, rfl⟩ := liftR_eq_ok hlift
  have hes : finalStream lib tar src fuel c k.remainder = es := by rw [finalStream, hexport]
  have hwalk : ∀ ty x, src.CommitReaches commit ty x →
      (ty = .dirMeta ∧ x = commit.dirmeta) ∨ src.Walks true commit.contents ty x :=
    sysrootElsewhere_iff.mp (fun d s hd hs' hn => absurd hn ((hroot d hd).2 s hs'))
  have hsame : SameCommit src r₁ c commit := by
    refine ⟨?_, fun ty x hx => ?_⟩
    · rw [hcommits]
      exact lookup_insertIfNew_self hagrees.same
    · rcases hx.objtype with rfl | rfl | rfl
      · exact hdirtrees.wrote (fun v hv => hagrees.dirtrees x v hx hv)
          (hT x ((hwalk _ x hx).resolve_left (fun h => absurd h.1 (by decide))))
      · refine hdirmetas.wrote (fun v hv => hagrees.dirmetas x v hx hv) ?_
        rcases hwalk _ x hx with ⟨_, rfl⟩ | hw
        · exact hM₀
        · exact hM x hw
      · obtain ⟨chunk, hchunk, hin⟩ := hk.cover x hx
        rcases List.mem_cons.mp hchunk with rfl | hchunk
        · exact hoverlay.wrote (fun v hv => hagrees.files x v hx hv) (mem_keySet.mpr hin)
        · obtain ⟨v, hv⟩ := ExtTreeMap.mem_iff_lookup.mp (hs.intact _ _ hx).has
          show r₁.files[x]? = src.files[x]?
          rw [hv]
          exact hoverlay.keeps ((hfiles chunk hchunk x hin).trans hv)
  have hkeeps : r₀.toObjects.Keeps r₁.toObjects := by
    refine ⟨fun x v hv => ?_, fun x v hv => hdirtrees.keeps hv, fun x v hv => hdirmetas.keeps hv,
      fun x v hv => hoverlay.keeps hv⟩
    rw [hcommits]
    exact lookup_insertIfNew_old hv
  rw [hes]
  let r₂ : Repo := if writeRefs then { r₁ with refs := r₁.refs.insert ref c } else r₁
  refine ⟨finalState (Repo.markCommitPartial c false r₂), ?_, ?_, ?_, ?_⟩
  · refine autoTransaction_ok ?_
    rw [bind_of_ok hbody]
    cases writeRefs <;> rfl
  · cases writeRefs <;> exact ⟨hsame.stored, hsame.same⟩
  · cases writeRefs <;> exact hkeeps
  · rintro rfl
    show (r₁.refs.insert ref c)[ref]? = some c
    rw [ExtTreeMap.lookup_insert, if_pos rfl]

/-- The commit layer, as `prepare` has found it. -/
structure FoundCommit (lib : Libostree) (tar : TarCrate) (blobs : BlobWriter) (src : Repo)
    (fuel : Nat) (c : Checksum) (commit : Commit) (k : Chunking) (r : Repo)
    (layer : ManifestLayerState) : Prop where
  descriptor : layer.layer = (commitPart lib tar blobs src fuel c k).1.descriptor none
  same : ∀ c', layer.commit = some c' → c' = c ∧ r.refs[layer.ostreeRef]? = some c
  stored : layer.commit.isSome = true → r.commits[c]? = some commit
  objects : layer.commit.isSome = true → ∀ ty x, src.CommitReaches commit ty x →
    (ty = .file → x ∈ k.remainder.content) → r.Has ty x

/-- The commit layer that is fetched, or whose objects are there. -/
theorem fetchCommitLayer_ships (hs : StoredCommit lib src c commit) (htar : tar.KeepsLinks)
    (hserves : ServesImage host imp blobs streams manifestDigest manifest config) {fuel : Nat}
    (hdepth : src.DepthLt fuel commit.contents) (hroot : NoSysroot src.toObjects commit)
    {k : Chunking} (hk : ChunksOf lib src commit k)
    (hstream : finalStream lib tar src fuel c k.remainder ∈ streams) {layer : ManifestLayerState}
    {r₀ r : Repo} (hfound : FoundCommit lib tar blobs src fuel c commit k r₀ layer)
    (hkept : r₀.toObjects.Keeps r.toObjects) (hlisted : layer.layer ∈ manifest.layers)
    (info : Option (List ConvertedLayerInfo)) (writeRefs : Bool) (hagrees : Agrees src c commit r)
    (hfiles : ∀ chunk ∈ k.chunks, ∀ x ∈ chunk.content, r.files[x]? = src.files[x]?) :
    ∃ layer' r', imp.fetchCommitLayer host lib manifest info none writeRefs layer r
        = .ok layer' r' ∧
      layer'.commit = some c ∧ SameCommit src r' c commit ∧ r.toObjects.Keeps r'.toObjects ∧
      (writeRefs = true → r.refs[layer.ostreeRef]? = r₀.refs[layer.ostreeRef]? →
        r'.refs[layer.ostreeRef]? = some c) := by
  by_cases hsome : layer.commit.isSome = true
  · obtain ⟨c', hc'⟩ := Option.isSome_iff_exists.mp hsome
    obtain ⟨rfl, href⟩ := hfound.same c' hc'
    refine ⟨layer, r, ?_, hc', ⟨hkept.commits _ _ (hfound.stored hsome), fun ty x hx => ?_⟩, .refl _,
      fun _ hrefs => hrefs.trans href⟩
    · rw [ImageImporter.fetchCommitLayer, if_pos hsome]
      rfl
    · have hthere := hfound.objects hsome ty x hx
      rcases hx.objtype with rfl | rfl | rfl
      · obtain ⟨v, hv⟩ := ExtTreeMap.mem_iff_lookup.mp (hthere (fun h => absurd h (by decide)))
        exact lookup_of_agrees (fun u hu => hagrees.dirtrees x u hx hu)
          (ExtTreeMap.mem_iff_lookup.mpr ⟨v, hkept.dirtrees x v hv⟩)
      · obtain ⟨v, hv⟩ := ExtTreeMap.mem_iff_lookup.mp (hthere (fun h => absurd h (by decide)))
        exact lookup_of_agrees (fun u hu => hagrees.dirmetas x u hx hu)
          (ExtTreeMap.mem_iff_lookup.mpr ⟨v, hkept.dirmetas x v hv⟩)
      · obtain ⟨chunk, hchunk, hin⟩ := hk.cover x hx
        rcases List.mem_cons.mp hchunk with rfl | hchunk
        · obtain ⟨v, hv⟩ := ExtTreeMap.mem_iff_lookup.mp (hthere (fun _ => hin))
          exact lookup_of_agrees (fun u hu => hagrees.files x u hx hu)
            (ExtTreeMap.mem_iff_lookup.mpr ⟨v, hkept.files x v hv⟩)
        · exact hfiles chunk hchunk x hin
  · obtain ⟨bytes, compression, hfetch, hcompression, hobjects⟩ :=
      hserves.fetch hstream hfound.descriptor hlisted info
    obtain ⟨r', himport, hsame, hkeeps, hwrites⟩ := importCommitLayer_ships hs htar hdepth hroot hk
      writeRefs layer.ostreeRef hagrees hfiles
    refine ⟨{ layer with commit := some c }, r', ?_, rfl, hsame, hkeeps, fun hwrite _ => hwrites hwrite⟩
    have hworker : joinFetch (do
        let compression ← liftR
          (decompressor (blobs.layer (finalStream lib tar src fuel c k.remainder)).mediaType)
        importCommitLayer lib none writeRefs layer.ostreeRef (host.objects compression bytes))
          (.ok ()) r = .ok c r' := by
      rw [joinFetch, hcompression, bind_assoc, bind_of_ok (liftR_ok _ _), hobjects,
        bind_of_ok himport]
      rfl
    rw [ImageImporter.fetchCommitLayer, if_neg hsome, hserves.progress, bind_of_ok (liftR_ok _ _),
      hfetch, bind_of_ok (liftR_ok _ _)]
    dsimp only
    rw [bind_of_ok hworker, hserves.progress, bind_of_ok (liftR_ok _ _)]
    rfl

-- ── The base of an image ──────────────────────────────────────────────────────

/-- The layers of a commit, as `prepare` has found them. -/
structure FoundLayers (lib : Libostree) (tar : TarCrate) (blobs : BlobWriter) (src : Repo)
    (fuel : Nat) (c : Checksum) (commit : Commit) (k : Chunking) (r : Repo)
    (prep : PreparedImport) : Prop where
  commitLayer : FoundCommit lib tar blobs src fuel c commit k r prep.ostreeCommitLayer
  chunks : List.Forall₂ (FoundChunk lib tar blobs src c r) k.chunks prep.ostreeLayers
  listed : ∀ layer ∈ prep.ostreeCommitLayer :: prep.ostreeLayers,
    layer.layer ∈ prep.manifest.layers

/-- **`unencapsulate_base`** brings the commit, whether it writes refs or not. -/
theorem unencapsulateBase_ships (hs : StoredCommit lib src c commit) (htar : tar.KeepsLinks)
    {fuel : Nat} (hdepth : src.DepthLt fuel commit.contents)
    (hroot : NoSysroot src.toObjects commit) {k : Chunking} (hk : ChunksOf lib src commit k)
    {prep : PreparedImport}
    (hserves : ServesImage host imp blobs (exportStreams lib tar src fuel c k) manifestDigest
      prep.manifest config) {writeRefs : Bool} (hapart : writeRefs = true → SyntheticApart lib src k)
    (hallowed : imp.checkSigverify host false = .ok ())
    (hremote : remoteOf imp.imgref.sigverify = none) {r : Repo}
    (hfound : FoundLayers lib tar blobs src fuel c commit k r prep)
    (hagrees : Agrees src c commit r) :
    ∃ prep' r', imp.unencapsulateBase host lib prep writeRefs r = .ok prep' r' ∧
      prep'.ostreeCommitLayer.commit = some c ∧ prep'.manifestDigest = prep.manifestDigest ∧
      SameCommit src r' c commit ∧ r.toObjects.Keeps r'.toObjects ∧
      (writeRefs = true →
        (∀ layer ∈ prep.ostreeLayers, layer.ostreeRef ≠ prep.ostreeCommitLayer.ostreeRef) →
        r'.refs[prep.ostreeCommitLayer.ostreeRef]? = some c) := by
  obtain ⟨info, hinfo⟩ := hserves.layerInfo
  obtain ⟨layers', r₁, hchunks, hagrees₁, hkeeps₁, hfiles₁⟩ := fetchChunkLayers_ships hs htar hserves
    info writeRefs (fun hwrite => (hapart hwrite).dirmeta) hfound.chunks (.refl _)
    (fun a ha => hk.sound a (List.mem_cons_of_mem _ ha))
    (fun a ha => List.mem_cons_of_mem _ (List.mem_map_of_mem ha))
    (fun a ha => hfound.listed a (List.mem_cons_of_mem _ ha))
    (fun hwrite => (hapart hwrite).chunk) hagrees
  obtain ⟨commitLayer', r₂, hcommit, hc, hsame, hkeeps₂, hwrites⟩ := fetchCommitLayer_ships hs htar
    hserves hdepth hroot hk (List.mem_cons_self ..) hfound.commitLayer hkeeps₁
    (hfound.listed _ (List.mem_cons_self ..)) info writeRefs hagrees₁ hfiles₁
  refine ⟨{ prep with ostreeLayers := layers', ostreeCommitLayer := commitLayer' }, r₂, ?_, hc, rfl,
    hsame, hkeeps₁.trans hkeeps₂, fun hwrite hne => hwrites hwrite ?_⟩
  swap
  · -- the refs of the chunks are other ones
    have hround : ∀ layer ∈ prep.ostreeLayers,
        Steps (Fetches (· ≠ prep.ostreeCommitLayer.ostreeRef))
          (imp.fetchChunkLayer host lib prep.manifest info writeRefs layer) :=
      fun layer hlayer => (fetches_frame _).fetchChunkLayer writeRefs (fun _ => hne layer hlayer)
    exact ((Steps.mapM Fetches.refl Fetches.trans_step hround).of_ok hchunks).lookup (fun h => h rfl)
  rw [ImageImporter.unencapsulateBase, hallowed, bind_of_ok (liftR_ok _ _), hinfo,
    bind_of_ok (liftR_ok _ _), bind_of_ok hchunks, hremote, bind_of_ok hcommit]
  rfl

end Layers

-- ── What is exported ─────────────────────────────────────────────────────────────

section Exported

variable {lib : Libostree} {tar : TarCrate} {src : Repo} {fuel : Nat} {c : Checksum}
  {commit : Commit} {k : Chunking} {host : Host} {imp : ImageImporter} {r : Repo}

/-- Moving objects between chunks keeps them the chunks of the commit. -/
theorem chunksOf_of_moves (hs : StoredCommit lib src c commit)
    (hdepth : src.DepthLt fuel commit.contents) (hroot : NoSysroot src.toObjects commit)
    (hmoves : Moves [initialChunk src.toObjects
        (src.occurrences fuel false [.rootDir] commit.contents)] (k.remainder :: k.chunks)) :
    ChunksOf lib src commit k ∧ k.Within src.toObjects ∧ k.Disjoint := by
  let whole := initialChunk src.toObjects (src.occurrences fuel false [.rootDir] commit.contents)
  have hempty : SysrootEmpty src.toObjects commit :=
    fun d s hd hs' hn => absurd hn ((hroot d hd).2 s hs')
  obtain ⟨hsplit, -⟩ := hmoves.keeps (Splits.single whole.content) (fun chunk hc => by
    rw [List.mem_singleton.mp hc]
    exact initialChunk_sized _ _)
  have hsound : ∀ chunk ∈ k.remainder :: k.chunks, ChunkSound lib src.toObjects
      (fun f => src.CommitReaches commit .file f) chunk.content := fun chunk hc =>
    chunkSound_of_sub hs hempty (fun x v hv => hsplit.sub (List.mem_map_of_mem hc) hv)
  refine ⟨⟨hsound, fun x hx => ?_⟩, fun chunk hc x hx => ?_, ?_⟩
  · obtain ⟨p, hp⟩ :=
      exists_occurrence hdepth (hx.resolve_left (fun h => absurd h.1 (by decide))) [.rootDir]
    have hwhole : whole.content[x]? = some (src.fileSize x,
        pathsOf (src.occurrences fuel false [.rootDir] commit.contents) x) := by
      rw [initialChunk_content, if_neg (List.ne_nil_of_mem (mem_pathsOf.mpr hp))]
    obtain ⟨part, hpart, hv⟩ := hsplit.cover hwhole
    obtain ⟨chunk, hchunk, rfl⟩ := List.mem_map.mp hpart
    exact ⟨chunk, hchunk, ExtTreeMap.mem_iff_lookup.mpr ⟨_, hv⟩⟩
  · obtain ⟨v, hv⟩ := ExtTreeMap.mem_iff_lookup.mp hx
    exact (hs.intact _ _ (hsound chunk hc x v hv).1).has
  · exact List.pairwise_map.mp (List.pairwise_cons.mp hsplit.disjoint).2

/-- The refs of the layers of a commit are sound: where there is one, the objects are. -/
structure SoundLayers (lib : Libostree) (tar : TarCrate) (blobs : BlobWriter) (src : Repo)
    (fuel : Nat) (c : Checksum) (commit : Commit) (k : Chunking) (r : Repo) : Prop where
  chunk : ∀ chunk ∈ k.chunks, ∀ ref,
    refForLayer ((chunkPart lib tar blobs src c chunk).1.descriptor
      (chunkPart lib tar blobs src c chunk).2) = .ok ref →
    ref ∈ r.refs → ∀ x ∈ chunk.content, x ∈ r.files
  commit : ∀ ref c',
    refForLayer ((commitPart lib tar blobs src fuel c k).1.descriptor none) = .ok ref →
    r.refs[ref]? = some c' → c' = c ∧ r.commits[c]? = some commit ∧
      ∀ ty x, src.CommitReaches commit ty x → (ty = .file → x ∈ k.remainder.content) → r.Has ty x

/-- What `prepare` finds of the layers of a commit. -/
theorem foundLayers_of_laidOut {blobs : BlobWriter} {prep : PreparedImport}
    {extra : List Descriptor} (hlayers : SoundLayers lib tar blobs src fuel c commit k r)
    (hmanifest : ∀ d ∈ descriptors (exportParts lib tar blobs src fuel c k),
      d ∈ prep.manifest.layers)
    (hlaid : prep.LaidOut r ((commitPart lib tar blobs src fuel c k).1.descriptor none)
      (descriptors (k.chunks.map (chunkPart lib tar blobs src c))) extra) :
    FoundLayers lib tar blobs src fuel c commit k r prep := by
  obtain ⟨hcommit, hcommitRef, hcommitQuery⟩ := queryLayer_eq_ok hlaid.commitLayer
  have hquery := hlaid.ostreeLayers
  rw [descriptors, List.map_map] at hquery
  have hchunks : ∀ {chunks : List Chunk} {layers : List ManifestLayerState},
      (∀ chunk ∈ chunks, chunk ∈ k.chunks) →
      (chunks.map ((fun p : Part => p.1.descriptor p.2) ∘ chunkPart lib tar blobs src c)).mapM
        (queryLayer r) = .ok layers →
      List.Forall₂ (FoundChunk lib tar blobs src c r) chunks layers := by
    intro chunks
    induction chunks with
    | nil =>
        intro layers _ h
        cases h
        exact .nil
    | cons chunk chunks ih =>
        intro layers hsub h
        rw [List.map_cons, List.mapM_cons] at h
        obtain ⟨layer, hone, h⟩ := result_bind_eq_ok.mp h
        obtain ⟨layers', hrest, h⟩ := result_bind_eq_ok.mp h
        cases h
        obtain ⟨hlayer, href, hfound⟩ := queryLayer_eq_ok hone
        refine .cons ⟨hlayer, fun hsome => ?_⟩
          (ih (fun a ha => hsub a (List.mem_cons_of_mem _ ha)) hrest)
        rw [hfound, ExtTreeMap.isSome_getElem?_iff_mem] at hsome
        exact hlayers.chunk chunk (hsub chunk (List.mem_cons_self ..)) _ href hsome
  have hfound := hchunks (fun _ h => h) hquery
  refine ⟨⟨hcommit, fun c' hc' => ?_, fun hsome => ?_, fun hsome => ?_⟩, hfound, fun layer hlayer => ?_⟩
  · have href := hcommitQuery.symm.trans hc'
    obtain ⟨rfl, -⟩ := hlayers.commit _ c' hcommitRef href
    exact ⟨rfl, href⟩
  · obtain ⟨c', hc'⟩ := Option.isSome_iff_exists.mp hsome
    exact (hlayers.commit _ c' hcommitRef (hcommitQuery.symm.trans hc')).2.1
  · obtain ⟨c', hc'⟩ := Option.isSome_iff_exists.mp hsome
    exact (hlayers.commit _ c' hcommitRef (hcommitQuery.symm.trans hc')).2.2
  · refine hmanifest _ ?_
    rw [exportParts, descriptors, List.map_cons]
    rcases List.mem_cons.mp hlayer with rfl | hlayer
    · exact hcommit ▸ List.mem_cons_self ..
    · obtain ⟨chunk, hchunk, hone⟩ := forall₂_mem_right hfound hlayer
      rw [hone.1]
      exact List.mem_cons_of_mem _ (List.mem_map.mpr
        ⟨chunkPart lib tar blobs src c chunk, List.mem_map_of_mem hchunk, rfl⟩)

/-- An import that writes no refs leaves them as they are. -/
theorem sameRefs_frame :
    FetchFrame (fun _ => False) (fun _ => True) (fun r r' => r'.refs = r.refs) where
  frame _ := {
    refl := fun _ => rfl
    trans := fun _ _ _ h h' => h'.trans h
    harmless := fun _ _ h => h.refs
    marked := fun _ => rfl
    commit := fun _ _ => rfl
    commitmeta := fun _ _ _ => rfl
    accepted := fun _ _ _ _ => rfl }
  unmarked _ _ := rfl
  setRef _ _ _ h := h.elim
  adds _ _ _ _ := rfl
  rollback _ _ _ := rfl

theorem unencapsulateBase_sameRefs {prep : PreparedImport} :
    Steps (fun r r' : Repo => r'.refs = r.refs) (imp.unencapsulateBase host lib prep false) := by
  refine steps_unencapsulateBase sameRefs_frame.refl sameRefs_frame.trans
    (fun desLayers layer _ => ?_) (fun desLayers => ?_)
  · exact sameRefs_frame.fetchChunkLayer false (fun h => absurd h (by simp))
  · exact sameRefs_frame.fetchCommitLayer (fun _ _ => trivial) _ false (fun h => absurd h (by simp))

end Exported

/-- The commit stays where all objects stay. -/
theorem SameCommit.keeps {lib : Libostree} {src r r' : Repo} {c : Checksum} {commit : Commit}
    (h : SameCommit src r c commit) (hs : StoredCommit lib src c commit)
    (hkeeps : r.toObjects.Keeps r'.toObjects) : SameCommit src r' c commit := by
  refine ⟨hkeeps.commits _ _ h.stored, fun ty x hx => ?_⟩
  have hsame := h.same ty x hx
  have hthere := (hs.intact ty x hx).has
  rcases hx.objtype with rfl | rfl | rfl
  · obtain ⟨v, hv⟩ := ExtTreeMap.mem_iff_lookup.mp hthere
    exact (hkeeps.dirtrees x v (Eq.trans hsame hv)).trans hv.symm
  · obtain ⟨v, hv⟩ := ExtTreeMap.mem_iff_lookup.mp hthere
    exact (hkeeps.dirmetas x v (Eq.trans hsame hv)).trans hv.symm
  · obtain ⟨v, hv⟩ := ExtTreeMap.mem_iff_lookup.mp hthere
    exact (hkeeps.files x v (Eq.trans hsame hv)).trans hv.symm

/-- What `export_chunked` writes of a stored commit: a layer for it, and one for each chunk. -/
structure Shipment (lib : Libostree) (tar : TarCrate) where
  blobs : BlobWriter
  src : Repo
  fuel : Nat
  c : Checksum
  commit : Commit
  k : Chunking
  stored : StoredCommit lib src c commit
  links : tar.KeepsLinks
  depth : src.DepthLt fuel commit.contents
  root : NoSysroot src.toObjects commit
  chunks : ChunksOf lib src commit k
  within : k.Within src.toObjects
  distinct : blobs.Distinct (exportStreams lib tar src fuel c k)

namespace Shipment

variable {lib : Libostree} {tar : TarCrate} (sh : Shipment lib tar)

/-- The streams of its layers. -/
def streams : List (List Entry) := exportStreams lib tar sh.src sh.fuel sh.c sh.k

/-- The descriptor of its first layer. -/
def first : Descriptor := (commitPart lib tar sh.blobs sh.src sh.fuel sh.c sh.k).1.descriptor none

/-- The descriptors of its other layers. -/
def rest : List Descriptor := descriptors (sh.k.chunks.map (chunkPart lib tar sh.blobs sh.src sh.c))

/-- An image that has these layers and others behind them, and whose layout says so. -/
structure Carries (image : ImageManifest × ImageConfiguration) (derived : List Descriptor) :
    Prop where
  layers : image.1.layers = sh.first :: sh.rest ++ derived
  layout : parseManifestLayout image.1 image.2 = .ok (sh.first, sh.rest, derived)
  others : ∀ l ∈ derived, l.digest ≠ sh.first.digest

/-- An importer that is served such an image. -/
structure Serves (host : Host) (imp : ImageImporter) (manifestDigest : Digest)
    (image : ImageManifest × ImageConfiguration) (derived : List Descriptor) : Prop where
  carries : sh.Carries image derived
  served : ServesImage host imp sh.blobs sh.streams manifestDigest image.1 image.2
  unsigned : remoteOf imp.imgref.sigverify = none

/-- A repository into which the commit can be imported. -/
structure Receives (r : Repo) : Prop where
  agrees : Agrees sh.src sh.c sh.commit r
  layers : SoundLayers lib tar sh.blobs sh.src sh.fuel sh.c sh.commit sh.k r

theorem complete : sh.src.Complete sh.commit := fun ty x hx => (sh.stored.intact ty x hx).has

/-- No chunk layer has the digest of the commit layer. -/
theorem first_digest {l : Descriptor} (hl : l ∈ sh.rest) : l.digest ≠ sh.first.digest := by
  rw [rest, descriptors, List.map_map] at hl
  obtain ⟨chunk, hchunk, rfl⟩ := List.mem_map.mp hl
  have hne : finalStream lib tar sh.src sh.fuel sh.c sh.k.remainder
      ≠ chunkStream lib tar sh.src sh.c chunk.content :=
    finalStream_ne sh.stored.stored sh.complete sh.depth (sh.within _ (List.mem_cons_self ..))
      (sh.within chunk (List.mem_cons_of_mem _ hchunk))
  intro heq
  refine hne ((sh.distinct _ (List.mem_cons_self ..) _
    (List.mem_cons_of_mem _ (List.mem_map_of_mem hchunk))).1 ?_)
  exact (digestText_inj heq).symm

-- ── What a repository has of it ───────────────────────────────────────────────

section Receives

variable {sh} {r r' : Repo}

theorem receives_empty : sh.Receives {} where
  agrees := by constructor <;> intros <;> simp_all
  layers := by constructor <;> intros <;> simp_all

/-- A repository that has the commit can be asked for it again. -/
theorem receives_of_sameCommit (h : SameCommit sh.src r sh.c sh.commit)
    (hfirst : ∀ (ref : String) c, refForLayer sh.first = .ok ref → r.refs[ref]? = some c → c = sh.c) :
    sh.Receives r := by
  have hhas : ∀ ty x, sh.src.CommitReaches sh.commit ty x → r.Has ty x := by
    intro ty x hx
    have hsame := h.same ty x hx
    have hthere := sh.complete ty x hx
    rcases hx.objtype with rfl | rfl | rfl
    · obtain ⟨v, hv⟩ := ExtTreeMap.mem_iff_lookup.mp hthere
      exact ExtTreeMap.mem_iff_lookup.mpr ⟨v, Eq.trans hsame hv⟩
    · obtain ⟨v, hv⟩ := ExtTreeMap.mem_iff_lookup.mp hthere
      exact ExtTreeMap.mem_iff_lookup.mpr ⟨v, Eq.trans hsame hv⟩
    · obtain ⟨v, hv⟩ := ExtTreeMap.mem_iff_lookup.mp hthere
      exact ExtTreeMap.mem_iff_lookup.mpr ⟨v, Eq.trans hsame hv⟩
  refine ⟨⟨fun b hb => ?_, fun x v hx hv => ?_, fun x v hx hv => ?_, fun x v hx hv => ?_⟩,
    fun chunk hchunk _ _ _ x hx => ?_, fun ref c href hc => ?_⟩
  · exact Option.some.inj (hb.symm.trans h.stored)
  · exact (h.same _ x hx).symm.trans hv
  · exact (h.same _ x hx).symm.trans hv
  · exact (h.same _ x hx).symm.trans hv
  · obtain ⟨v, hv⟩ := ExtTreeMap.mem_iff_lookup.mp hx
    exact hhas .file x (sh.chunks.sound chunk (List.mem_cons_of_mem _ hchunk) x v hv).1
  · exact ⟨hfirst ref c href hc, h.stored, fun ty x hx _ => hhas ty x hx⟩

/-- Refs that go away do not matter. -/
theorem Receives.of_refs (h : sh.Receives r) (hobjects : r'.toObjects = r.toObjects)
    (hrefs : ∀ ref : String, r'.refs[ref]? = r.refs[ref]? ∨ r'.refs[ref]? = none) :
    sh.Receives r' := by
  have hstill : ∀ {ref : String} {c}, r'.refs[ref]? = some c → r.refs[ref]? = some c := by
    intro ref c hc
    rcases hrefs ref with heq | hnone
    · exact heq.symm.trans hc
    · exact absurd (hnone.symm.trans hc) (by simp)
  refine ⟨⟨?_, ?_, ?_, ?_⟩, fun chunk hchunk ref href hin => ?_, fun ref c href hc => ?_⟩
  · rw [hobjects]
    exact h.agrees.same
  · rw [hobjects]
    exact h.agrees.dirtrees
  · rw [hobjects]
    exact h.agrees.dirmetas
  · rw [hobjects]
    exact h.agrees.files
  · obtain ⟨c, hc⟩ := ExtTreeMap.mem_iff_lookup.mp hin
    rw [hobjects]
    exact h.layers.chunk chunk hchunk ref href (ExtTreeMap.mem_iff_lookup.mpr ⟨c, hstill hc⟩)
  · rw [hobjects]
    exact h.layers.commit ref c href (hstill hc)

end Receives

-- ── Importing it ──────────────────────────────────────────────────────────────

section Import

variable {sh} {host : Host} {imp : ImageImporter} {manifestDigest : Digest}
  {image : ImageManifest × ImageConfiguration} {derived : List Descriptor} {prep : PreparedImport}
  {r s : Repo}

/-- What `prepare` finds of the image. -/
structure Found (sh : Shipment lib tar) (derived : List Descriptor) (prep : PreparedImport)
    (r : Repo) : Prop where
  layers : FoundLayers lib tar sh.blobs sh.src sh.fuel sh.c sh.commit sh.k r prep
  derived : prep.layers.map (·.layer) = derived
  first : refForLayer sh.first = .ok prep.ostreeCommitLayer.ostreeRef
  others : ∀ layer ∈ prep.ostreeLayers ++ prep.layers,
    layer.ostreeRef ≠ prep.ostreeCommitLayer.ostreeRef

theorem Receives.found (h : sh.Receives r)
    (hcarries : sh.Carries (prep.manifest, prep.config) derived) {first : Descriptor}
    {rest layers : List Descriptor} (hlaid : prep.LaidOut r first rest layers) :
    sh.Found derived prep r := by
  have hlayout := hlaid.layout
  rw [hcarries.layout] at hlayout
  obtain ⟨rfl, hpair⟩ := Prod.mk.inj (Except.ok.inj hlayout)
  obtain ⟨rfl, rfl⟩ := Prod.mk.inj hpair
  obtain ⟨-, hfirst, -⟩ := queryLayer_eq_ok hlaid.commitLayer
  have hsame : ∀ {ls : List Descriptor} {states : List ManifestLayerState},
      ls.mapM (queryLayer r) = .ok states → states.map (·.layer) = ls := by
    intro ls
    induction ls with
    | nil =>
        intro states hrun
        cases hrun
        rfl
    | cons l ls ih =>
        intro states hrun
        rw [List.mapM_cons] at hrun
        obtain ⟨state, hone, hrun⟩ := result_bind_eq_ok.mp hrun
        obtain ⟨states', hrest, hrun⟩ := result_bind_eq_ok.mp hrun
        cases hrun
        rw [List.map_cons, ih hrest, (queryLayer_eq_ok hone).1]
  refine ⟨foundLayers_of_laidOut h.layers (fun d hd => ?_) hlaid, hsame hlaid.layers, hfirst,
    fun layer hlayer heq => ?_⟩
  · rw [hcarries.layers]
    exact List.mem_append_left _ hd
  · -- no other layer has the digest of the commit layer
    have hin : layer ∈ prep.allLayers := by
      rw [PreparedImport.allLayers, List.cons_append]
      exact List.mem_cons_of_mem _ hlayer
    obtain ⟨-, href, -⟩ := queryLayer_eq_ok (hlaid.queried hin)
    rw [heq] at href
    have hdigest : layer.layer.digest = sh.first.digest := prefixEscapeForRef_inj href hfirst
    rcases List.mem_append.mp hlayer with hchunk | hderived
    · refine sh.first_digest ?_ hdigest
      rw [← hsame hlaid.ostreeLayers]
      exact List.mem_map_of_mem hchunk
    · refine hcarries.others layer.layer ?_ hdigest
      rw [← hsame hlaid.layers]
      exact List.mem_map_of_mem hderived

/-- **The base of an import** is the commit, and its ref is that of the first layer. -/
theorem base_ships (h : sh.Receives r) (hserves : sh.Serves host imp manifestDigest image derived)
    (hmanifest : prep.manifest = image.1) (hconfig : prep.config = image.2)
    (hfound : sh.Found derived prep r) {writeRefs : Bool}
    (hapart : writeRefs = true → SyntheticApart lib sh.src sh.k)
    (hallowed : imp.checkSigverify host false = .ok ()) :
    ∃ prep' r', imp.unencapsulateBase host lib prep writeRefs r = .ok prep' r' ∧
      prep'.ostreeCommitLayer.commit = some sh.c ∧ prep'.manifestDigest = prep.manifestDigest ∧
      SameCommit sh.src r' sh.c sh.commit ∧ r.toObjects.Keeps r'.toObjects ∧
      (writeRefs = true → r'.refs[prep.ostreeCommitLayer.ostreeRef]? = some sh.c) := by
  have hserved : ServesImage host imp sh.blobs sh.streams manifestDigest prep.manifest
      prep.config := by
    rw [hmanifest, hconfig]
    exact hserves.served
  obtain ⟨prep', r', hrun, hc, hdigest, hsame, hkeeps, hwrites⟩ := unencapsulateBase_ships sh.stored
    sh.links sh.depth sh.root sh.chunks hserved hapart hallowed hserves.unsigned hfound.layers h.agrees
  exact ⟨prep', r', hrun, hc, hdigest, hsame, hkeeps, fun hwrite => hwrites hwrite
    (fun layer hlayer => hfound.others layer (List.mem_append_left _ hlayer))⟩

/-- What `prepare` returns for the image. -/
theorem Receives.prepared (h : sh.Receives r)
    (hserves : sh.Serves host imp manifestDigest image derived)
    (hprepare : imp.prepare host r = .ok (.ready prep) s) :
    sh.Receives s ∧ prep.manifest = image.1 ∧ prep.config = image.2 ∧ sh.Found derived prep s := by
  have hupdates := prepare_eq_ready hprepare
  have hmanifest : prep.manifest = image.1 :=
    (Prod.mk.inj (Except.ok.inj (hupdates.served.symm.trans hserves.served.fetchManifest))).2
  have hconfig : prep.config = image.2 :=
    Except.ok.inj (hupdates.config.symm.trans hserves.served.fetchConfig)
  have hsame := prepare_same host imp r
  rw [hprepare, finalState_ok] at hsame
  have hs : sh.Receives s := h.of_refs hsame.objects (fun ref => .inl (by rw [hsame.refs]))
  obtain ⟨_, _, _, hlaid⟩ := hupdates.created.laidOut
  refine ⟨hs, hmanifest, hconfig, hs.found ?_ hlaid⟩
  rw [hmanifest, hconfig]
  exact hserves.carries

/-- The commit is there, and its layer has no other one. -/
structure Holds (sh : Shipment lib tar) (r : Repo) : Prop where
  commit : SameCommit sh.src r sh.c sh.commit
  first : ∀ (ref : String) c, refForLayer sh.first = .ok ref → r.refs[ref]? = some c → c = sh.c

theorem Holds.receives {sh : Shipment lib tar} (h : sh.Holds r) : sh.Receives r :=
  receives_of_sameCommit h.commit h.first

theorem Holds.of_fetches {sh : Shipment lib tar} {r' : Repo} {S : String → Prop} (h : sh.Holds r)
    (hfetch : Fetches S r r') (hS : ∀ ref, refForLayer sh.first = .ok ref → ¬ S ref) :
    sh.Holds r' where
  commit := h.commit.keeps sh.stored hfetch.keeps
  first ref c href hc := h.first ref c href ((hfetch.lookup (hS ref href)).symm.trans hc)

theorem Holds.of_unlinks {sh : Shipment lib tar} {r' : Repo} (h : sh.Holds r)
    (hunlinks : Unlinks r r') : sh.Holds r' where
  commit := h.commit.keeps sh.stored (by rw [hunlinks.objects]; exact Objects.Keeps.refl _)
  first ref c href hc := by
    rcases hunlinks.refs ref with heq | ⟨-, hnone⟩
    · exact h.first ref c href (heq.symm.trans hc)
    · exact absurd (hc.symm.trans hnone) (by simp)

/-- **An import** whose base is done has the commit, error or not. -/
theorem import_holds {prep' : PreparedImport} {r' : Repo} (hfound : sh.Found derived prep r)
    (hbase : imp.unencapsulateBase host lib prep true r = .ok prep' r') (hholds : sh.Holds r') :
    sh.Holds (finalState (imp.importImage host lib prep r)) := by
  have hother : ∀ ref, refForLayer sh.first = .ok ref →
      ¬ ref ≠ prep.ostreeCommitLayer.ostreeRef := fun ref href hne =>
    hne (Except.ok.inj (href.symm.trans hfound.first))
  have hround : ∀ desLayers base transient acc, ∀ layer ∈ prep.layers, Steps
      (Fetches (· ≠ prep.ostreeCommitLayer.ostreeRef))
      (imp.importLayer host lib prep.manifest desLayers base transient acc layer) :=
    fun _ _ _ acc layer hlayer => (fetches_frame _).importLayer acc
      (hfound.others layer (List.mem_append_right _ hlayer))
  have hfetched := hholds.of_fetches
    (fetchLayers_of_base Fetches.refl Fetches.trans_step hbase hround) hother
  have hmerged : sh.Holds (finalState (imp.importMerged host lib prep r)) := by
    rw [ImageImporter.importMerged]
    cases hfetch : imp.fetchLayers host lib prep r with
    | error stop s =>
        rw [hfetch] at hfetched
        rw [bind_of_error hfetch]
        exact hfetched
    | ok m s =>
        rw [hfetch] at hfetched
        rw [bind_of_ok hfetch]
        -- the ref of the image is the ref of no layer
        have hne : m.ostreeRef ≠ prep.ostreeCommitLayer.ostreeRef := by
          intro heq
          have himage := refUnder_of_escape (fetchLayers_ok hfetch).target
          rw [heq] at himage
          exact absurd ((refUnder_of_escape hfound.first).symm.trans
            (refUnder_disjoint (List.mem_cons_self ..) himage)) (by simp)
        exact hfetched.of_fetches ((fetches_frame _).mergeLayers hne s) hother
  rw [ImageImporter.importImage]
  cases hrun : imp.importMerged host lib prep r with
  | error stop s =>
      rw [hrun] at hmerged
      rw [bind_of_error hrun]
      exact hmerged
  | ok c s =>
      rw [hrun] at hmerged
      rw [bind_of_ok hrun]
      exact hmerged.of_unlinks (finishImport_unlinks c s)

/-- The base of an import is done, or there is no import. -/
theorem Receives.based (h : sh.Receives r)
    (hserves : sh.Serves host imp manifestDigest image derived)
    (hprepare : imp.prepare host r = .ok (.ready prep) s) {writeRefs : Bool}
    (hapart : writeRefs = true → SyntheticApart lib sh.src sh.k) :
    (∃ prep' r', imp.unencapsulateBase host lib prep writeRefs s = .ok prep' r' ∧
      prep'.ostreeCommitLayer.commit = some sh.c ∧ sh.Holds r') ∨
    ∃ stop, imp.unencapsulateBase host lib prep writeRefs s = .error stop s := by
  obtain ⟨hs, hmanifest, hconfig, hfound⟩ := h.prepared hserves hprepare
  cases hallowed : imp.checkSigverify host false with
  | error stop =>
      refine .inr ⟨stop, ?_⟩
      rw [ImageImporter.unencapsulateBase, hallowed]
      rfl
  | ok u =>
      obtain ⟨prep', r', hbase, hc, -, hsame, -, hwrites⟩ := base_ships hs hserves hmanifest hconfig
        hfound hapart hallowed
      refine .inl ⟨prep', r', hbase, hc, hsame, fun ref c href hin => ?_⟩
      cases writeRefs with
      | false =>
          rw [unencapsulateBase_sameRefs.of_ok hbase] at hin
          exact (hs.layers.commit ref c href hin).1
      | true =>
          obtain rfl := Except.ok.inj (href.symm.trans hfound.first)
          exact Option.some.inj (hin.symm.trans (hwrites rfl))

/-- **An import of an image of the commit** has it as its base. -/
theorem Receives.pulled {state : LayeredImageState} {r' : Repo} (h : sh.Receives r)
    (hserves : sh.Serves host imp manifestDigest image derived) (hapart : SyntheticApart lib sh.src sh.k)
    (hpulls : imp.Pulls host lib r prep state r') :
    sh.Holds r' ∧ (state.manifest = prep.manifest → state.baseCommit = sh.c) := by
  obtain ⟨s, hprepare, himport⟩ := hpulls
  obtain ⟨-, hmanifest, -, hfound⟩ := h.prepared hserves hprepare
  have hholds : sh.Holds r' := by
    rcases h.based hserves hprepare (fun _ => hapart) with
      ⟨prep', r₁, hbase, -, hholds⟩ | ⟨stop, hbase⟩
    · have hholds := import_holds hfound hbase hholds
      rw [himport] at hholds
      exact hholds
    · rw [ImageImporter.importImage, ImageImporter.importMerged, ImageImporter.fetchLayers] at himport
      simp only [bind_assoc, bind_of_error hbase] at himport
      cases himport
  refine ⟨hholds, fun hstate => ?_⟩
  obtain ⟨c, hquery⟩ := importImage_queried himport
  obtain ⟨layer, ref, hhead, href, hbase⟩ := base_of_query hquery
  rw [hstate, hmanifest, hserves.carries.layers] at hhead
  obtain rfl := Option.some.inj hhead
  exact hholds.first ref _ href hbase

theorem Receives.prepares (h : sh.Receives r) (host : Host) (imp : ImageImporter) :
    sh.Receives (finalState (imp.prepare host r)) := by
  have hsame := prepare_same host imp r
  exact h.of_refs hsame.objects (fun ref => .inl (by rw [hsame.refs]))

/-- **An import**, done or failed: the commit can be asked for again. -/
theorem Receives.imports (h : sh.Receives r)
    (hserves : sh.Serves host imp manifestDigest image derived)
    (hapart : SyntheticApart lib sh.src sh.k) :
    sh.Receives (finalState ((Operation.importImage host imp).run lib r)) := by
  rw [Operation.run]
  refine finalState_bind (h.prepares host imp) (fun res s hprepare => ?_)
  have hs : sh.Receives s := by
    have hs := h.prepares host imp
    rw [hprepare] at hs
    exact hs
  cases res with
  | alreadyPresent state => exact hs
  | ready prep =>
      have hrun : sh.Receives (finalState (imp.importImage host lib prep s)) := by
        rcases h.based hserves hprepare (fun _ => hapart) with
          ⟨prep', r₁, hbase, -, hholds⟩ | ⟨stop, hbase⟩
        · exact (import_holds (h.prepared hserves hprepare).2.2.2 hbase hholds).receives
        · rw [ImageImporter.importImage, ImageImporter.importMerged, ImageImporter.fetchLayers]
          simp only [bind_assoc, bind_of_error hbase]
          exact hs
      refine finalState_bind hrun (fun state s' himport => ?_)
      rw [himport] at hrun
      exact hrun

/-- **An unencapsulation**, done or failed. -/
theorem Receives.unencapsulates (h : sh.Receives r)
    (hserves : sh.Serves host imp manifestDigest image derived) :
    sh.Receives (finalState ((Operation.unencapsulate host imp).run lib r)) := by
  have hrun : sh.Receives (finalState (imp.unencapsulate host lib r)) := by
    rw [ImageImporter.unencapsulate]
    refine finalState_bind (h.prepares host imp) (fun res s hprepare => ?_)
    have hs : sh.Receives s := by
      have hs := h.prepares host imp
      rw [show imp.prepare host r = .ok res s from hprepare] at hs
      exact hs
    cases res with
    | alreadyPresent state => exact hs
    | ready prep =>
        dsimp only
        split
        · exact hs
        rcases h.based hserves hprepare (fun hwrite : false = true => absurd hwrite (by simp)) with
          ⟨prep', r₁, hbase, hc, hholds⟩ | ⟨stop, hbase⟩
        · rw [bind_of_ok hbase]
          cases imp.proxy.closeImage with
          | error stop => exact hholds.receives
          | ok u =>
              rw [bind_of_ok (liftR_ok _ _), unwrapCommit, hc]
              exact hholds.receives
        · rw [bind_of_error hbase]
          exact hs
  rw [Operation.run]
  refine finalState_bind hrun (fun i s hdone => ?_)
  rw [hdone, finalState_ok] at hrun
  cases imp.proxy.fetchManifest with
  | error stop => exact hrun
  | ok served => exact hrun

end Import

-- ── Runs ──────────────────────────────────────────────────────────────────────

/-- A repository that could receive the commit, and that has seen images of it imported or
    unencapsulated, each done or failed, other images removed, and garbage collected. -/
inductive Reached (sh : Shipment lib tar) : Repo → Prop where
  | start {r : Repo} (h : sh.Receives r) : sh.Reached r
  | imported {r : Repo} {host : Host} {imp : ImageImporter} {manifestDigest : Digest}
      {image : ImageManifest × ImageConfiguration} {derived : List Descriptor} (h : sh.Reached r)
      (hserves : sh.Serves host imp manifestDigest image derived) :
      sh.Reached (finalState ((Operation.importImage host imp).run lib r))
  | unencapsulated {r : Repo} {host : Host} {imp : ImageImporter} {manifestDigest : Digest}
      {image : ImageManifest × ImageConfiguration} {derived : List Descriptor} (h : sh.Reached r)
      (hserves : sh.Serves host imp manifestDigest image derived) :
      sh.Reached (finalState ((Operation.unencapsulate host imp).run lib r))
  | removed {r : Repo} (img : ImageReference) (h : sh.Reached r) :
      sh.Reached (finalState (removeImage img r))
  | collected {r : Repo} (hash : HashOrder) (h : sh.Reached r) :
      sh.Reached (finalState (gcImageLayers hash r))

theorem Reached.receives {sh : Shipment lib tar} {r : Repo} (h : sh.Reached r)
    (hapart : SyntheticApart lib sh.src sh.k) : sh.Receives r := by
  induction h with
  | start h => exact h
  | imported _ hserves ih => exact ih.imports hserves hapart
  | unencapsulated _ hserves ih => exact ih.unencapsulates hserves
  | removed img _ ih =>
      obtain ⟨hobjects, hrefs⟩ := removeImage_refs img _
      exact ih.of_refs hobjects (fun ref => (hrefs ref).imp_right And.right)
  | collected hash _ ih =>
      have hunlinks := gcImageLayers_unlinks hash
      exact ih.of_refs (hunlinks _).objects (fun ref => ((hunlinks _).refs ref).imp_right And.right)

section Ships

variable {sh} {host : Host} {imp : ImageImporter} {manifestDigest : Digest}
  {image : ImageManifest × ImageConfiguration} {derived : List Descriptor} {prep : PreparedImport}
  {state : LayeredImageState} {r r' : Repo}

/-- **Built upon in another repository**: an image that carries the commit is imported with it as its
    base, and this with all its objects. -/
theorem imported (hapart : SyntheticApart lib sh.src sh.k) (h : sh.Reached r)
    (hserves : sh.Serves host imp manifestDigest image derived)
    (hpulls : imp.Pulls host lib r prep state r') :
    SameCommit sh.src r' sh.c sh.commit ∧ prep.layers.map (·.layer) = derived ∧
      (state.manifest = prep.manifest → state.baseCommit = sh.c) := by
  have hreceives := h.receives hapart
  obtain ⟨hholds, hbase⟩ := hreceives.pulled hserves hapart hpulls
  obtain ⟨s, hprepare, -⟩ := hpulls
  obtain ⟨-, -, -, hfound⟩ := hreceives.prepared hserves hprepare
  exact ⟨hholds.commit, hfound.derived, hbase⟩

/-- What `prepare` returns for an image that is not stored. -/
theorem prepare_new (hserves : sh.Serves host imp manifestDigest image [])
    (hallowed : imp.checkSigverify host false = .ok ())
    (hrequire : imp.requireBootable = true → Bootable host image.2)
    (hnew : tryQueryImage r imp.imgref.imgref = .ok none) :
    ∃ prep, imp.prepare host r = .ok (.ready prep) r ∧ prep.manifestDigest = manifestDigest ∧
      prep.layers = [] := by
  -- every layer can be queried
  have hquery : ∀ p : List Entry × Option StrMap, ∃ l,
      queryLayer r ((sh.blobs.layer p.1).descriptor p.2) = .ok l := by
    intro p
    obtain ⟨ref, href⟩ := refForLayer_ok sh.blobs p.1 p.2
    rw [queryLayer, href, bind_ok_eq]
    exact ⟨_, rfl⟩
  have hfirst : ∃ l, queryLayer r sh.first = .ok l :=
    hquery (finalStream lib tar sh.src sh.fuel sh.c sh.k.remainder, none)
  obtain ⟨commitLayer, hcommitLayer⟩ := hfirst
  have hchunkLayers : ∃ layers, sh.rest.mapM (queryLayer r) = .ok layers := by
    refine mapM_exists (fun d hd => ?_)
    rw [rest, descriptors, List.map_map] at hd
    obtain ⟨chunk, -, rfl⟩ := List.mem_map.mp hd
    exact hquery (chunkStream lib tar sh.src sh.c chunk.content, some (componentsMap chunk.packages))
  obtain ⟨chunkLayers, hchunkLayers⟩ := hchunkLayers
  refine ⟨{
    manifestDigest, manifest := image.1, config := image.2, previousState := none
    previousManifestDigest := none, previousImageid := none
    ostreeLayers := chunkLayers, ostreeCommitLayer := commitLayer, layers := [] }, ?_, rfl, rfl⟩
  refine prepare_of_absent hallowed hserves.served.fetchManifest hnew hserves.served.fetchConfig ?_
  rw [ImageImporter.createPreparedImport, hserves.carries.layout]
  have hguard : ∀ {rest : Result PreparedImport}, (if imp.requireBootable = true
      then checkBootable host image.2 >>= fun _ => rest else rest) = rest := by
    intro rest
    by_cases hreq : imp.requireBootable = true
    · rw [if_pos hreq, checkBootable_eq_ok.mpr (hrequire hreq), bind_ok_eq]
    · rw [if_neg hreq]
  refine hguard.trans ?_
  rw [bind_ok_eq]
  dsimp only
  rw [hcommitLayer, bind_ok_eq, hchunkLayers, bind_ok_eq]
  rfl

/-- **From one repository to another**: an image that carries the commit and nothing else is
    unencapsulated where it is not stored, and brings the commit with all its objects. -/
theorem unencapsulated (hapart : SyntheticApart lib sh.src sh.k) (h : sh.Reached r)
    (hserves : sh.Serves host imp manifestDigest image [])
    (hallowed : imp.checkSigverify host false = .ok ())
    (hrequire : imp.requireBootable = true → Bootable host image.2)
    (hnew : tryQueryImage r imp.imgref.imgref = .ok none) :
    ∃ r', imp.unencapsulate host lib r = .ok
        { ostreeCommit := sh.c, imageDigest := manifestDigest, deprecatedWarning := none } r' ∧
      SameCommit sh.src r' sh.c sh.commit ∧ r.toObjects.Keeps r'.toObjects ∧ r'.refs = r.refs := by
  have hreceives := h.receives hapart
  obtain ⟨prep, hprepare, hdigest, hlayers⟩ :=
    prepare_new hserves hallowed hrequire hnew
  obtain ⟨-, hmanifest, hconfig, hfound⟩ := hreceives.prepared hserves hprepare
  obtain ⟨prep', r', hbase, hc, hdigest', hsame, hkeeps, -⟩ := base_ships hreceives hserves hmanifest
    hconfig hfound (fun hwrite : false = true => absurd hwrite (by simp)) hallowed
  refine ⟨r', ?_, hsame, hkeeps, unencapsulateBase_sameRefs.of_ok hbase⟩
  have hprepare' : imp.prepareInternal host false r = .ok (.ready prep) r := hprepare
  rw [ImageImporter.unencapsulate, bind_of_ok hprepare']
  dsimp only
  rw [if_neg (fun hne => hne hlayers), bind_of_ok hbase, hserves.served.closeImage,
    bind_of_ok (liftR_ok _ _), unwrapCommit, hc, bind_of_ok (liftR_ok _ _), hdigest', hdigest]
  rfl

end Ships

-- ── A small registry ──────────────────────────────────────────────────────────

/-- A machine on which a blob of `n` bytes is the archive number `n`. -/
def sampleHost (streams : List (List Entry)) : Host :=
  { Store.sampleHost with objects := fun _ bytes => (streams.getD bytes.length []).map .ok }

/-- A registry that serves an image with these layers. -/
def sampleProxy (manifestDigest : Digest) (image : ImageManifest × ImageConfiguration) :
    ImageProxy where
  fetchManifest := .ok (manifestDigest, image.1)
  fetchConfig := .ok image.2
  getLayerInfo _ := .ok none
  getBlob digest _ :=
    match sh.streams.findIdx? (fun es => "sha256:" ++ (sh.blobs.layer es).sha256 = digest) with
    | some i => .ok (List.replicate i 0, .ok ())
    | none => .error (.err "blob unknown")

/-- An importer of the image. -/
def sampleImporter (manifestDigest : Digest) (image : ImageManifest × ImageConfiguration) :
    ImageImporter where
  proxy := sh.sampleProxy manifestDigest image
  imgref := { sigverify := .containerPolicyAllowInsecure, imgref := sampleImage }
  disableGc := true

theorem sampleImporter_serves (manifestDigest : Digest)
    {image : ImageManifest × ImageConfiguration} {derived : List Descriptor}
    (hcarries : sh.Carries image derived)
    (hmediaType : ∀ es, (sh.blobs.layer es).mediaType = .imageLayerGzip) :
    sh.Serves (sampleHost sh.streams) (sh.sampleImporter manifestDigest image) manifestDigest image
      derived where
  carries := hcarries
  unsigned := rfl
  served := {
    transport := show Transport.registry ≠ .containerStorage from by decide
    fetchManifest := rfl
    fetchConfig := rfl
    layerInfo := ⟨none, rfl⟩
    progress := fun _ => rfl
    closeImage := rfl
    blob := by
      intro es hes
      let serves : List Entry → Bool := fun other =>
        "sha256:" ++ (sh.blobs.layer other).sha256 = "sha256:" ++ (sh.blobs.layer es).sha256
      have hsome : (sh.streams.findIdx? serves).isSome = true := by
        rw [List.findIdx?_isSome, List.any_eq_true]
        exact ⟨es, hes, by simp [serves]⟩
      obtain ⟨i, hi⟩ := Option.isSome_iff_exists.mp hsome
      obtain ⟨hlt, hdigest, -⟩ := List.findIdx?_eq_some_iff_getElem.mp hi
      -- the digests tell the streams apart
      have hsame : sh.streams[i] = es :=
        (sh.distinct _ (List.getElem_mem hlt) _ hes).1 (digestText_inj (of_decide_eq_true hdigest))
      refine ⟨List.replicate i 0, .gzip, ?_, ?_, ?_⟩
      · show (match sh.streams.findIdx? serves with
          | some i => Except.ok (List.replicate i 0, Except.ok ())
          | none => Except.error (.err "blob unknown") : Result (Bytes × Result Unit)) = _
        rw [hi]
      · rw [hmediaType]
        rfl
      · show (sh.streams.getD (List.replicate i (0 : UInt8)).length []).map Except.ok = _
        rw [List.length_replicate, List.getD, List.getElem?_eq_getElem hlt, Option.getD_some,
          hsame] }

end Shipment

end OstreeExt.Store
