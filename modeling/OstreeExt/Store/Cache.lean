import OstreeExt.Lib.Pointwise
import OstreeExt.Store.Prune
import OstreeExt.Store.Trust
import OstreeExt.Store.Whole

/-!
# The layer cache

The commit of a layer is stored under the digest of its blob, and a later import takes whatever is
there.  But what a blob becomes depends on more than the blob: a commit layer is stored as itself,
a chunk layer as an object set, and a derived layer as the filtered archive, labeled with the policy
of its base commit.

Where every import uses a blob for the same thing, the tree of an image is a function of the image,
`World.imageRoot`: it does not depend on what the repository has seen (`import_root`).  What was
filtered is another matter, since only the layers that are fetched are counted
(`import_transparent`).
-/

namespace OstreeExt.Store

open OstreeExt Tar Exec Std

-- ── The image as a function ───────────────────────────────────────────────────

/-- What blobs hold, what commits and checkouts make of trees, and the root file systems of
    commits: the same for every import. -/
structure World where
  tar : TarBuilder
  /-- The archive of an ostree layer. -/
  objects : Digest → Stream
  /-- The archive of a derived layer. -/
  entries : Digest → List (Except String LayerEntry)
  commitTar : Root → List FilteredEntry → Root
  mergeTrees : Root → List Root → Bool → Root
  overlayfsRootEnabled : Commit → Bool

/-- What the layers of a blob are, in all images. -/
inductive Use where
  | commit
  | chunk
  /-- A derived layer: the blob of its base commit, and if `/var` is retained. -/
  | derived (base : Digest) (ostreeV20243 : Bool)

section World

variable (w : World)

/-- The filter of a derived layer over a base commit. -/
def World.layerConfig (base : Commit) (ostreeV20243 : Bool) : TarImportConfig :=
  { allowNonusr := w.overlayfsRootEnabled base, remapFactoryVar := ¬ ostreeV20243 }

/-- The filtered archive of a derived layer. -/
def World.layerTar (base : Commit) (ostreeV20243 : Bool) (d : Digest) :
    List FilteredEntry × Result (ExtTreeMap String Nat) :=
  filterTar w.tar (w.layerConfig base ostreeV20243) (w.entries d)

/-- The tree of a derived layer. -/
def World.layerRoot (base : Commit) (ostreeV20243 : Bool) (d : Digest) : Root :=
  w.commitTar (rootOf base) (w.layerTar base ostreeV20243 d).1

/-- What the filter of a derived layer counts. -/
def World.layerFiltered (base : Commit) (ostreeV20243 : Bool) (d : Digest) :
    ExtTreeMap String Nat :=
  match (w.layerTar base ostreeV20243 d).2 with
  | .ok filtered => filtered
  | .error _ => ∅

/-- The tree of an image with these derived layers. -/
def World.imageRoot (base : Commit) (ostreeV20243 : Bool) (layers : List Digest) : Root :=
  w.mergeTrees (rootOf base) (layers.map (w.layerRoot base ostreeV20243)) (¬ layers.isEmpty)

/-- Count what the filter of a layer leaves out, if the layer is not there. -/
def World.addFiltered (base : Commit) (ostreeV20243 : Bool) (acc : MetaFilteredData)
    (layer : ManifestLayerState) : MetaFilteredData :=
  if layer.commit.isSome then acc
  else
    let filtered := w.layerFiltered base ostreeV20243 layer.layer.digest
    if filtered.isEmpty then acc else acc.insert layer.layer.digest filtered

/-- What the filters of the layers count that are not there. -/
def World.imageFiltered (base : Commit) (ostreeV20243 : Bool) (layers : List ManifestLayerState) :
    MetaFilteredData :=
  layers.foldl (w.addFiltered base ostreeV20243) ∅

end World

/-- A machine of this world. -/
structure Host.In (host : Host) (w : World) : Prop where
  tar : host.tar = w.tar
  commitTar : ∀ o base es p, host.commitTar o base es = .ok p → p.1 = w.commitTar base es
  mergeTrees : ∀ o base layers derived p, host.mergeTrees o base layers derived = .ok p →
    p.1 = w.mergeTrees base layers derived
  overlayfsRootEnabled : ∀ o commit b, host.overlayfsRootEnabled o commit = .ok b →
    b = w.overlayfsRootEnabled commit

/-- What the proxy delivers for a layer, if its driver does not fail, is what the blob holds. -/
def ImageImporter.Delivers (imp : ImageImporter) (host : Host) (w : World)
    (manifest : ImageManifest) : Prop :=
  ∀ (layer : Descriptor) second layerInfo blob mediaType compression,
    imp.proxy.getLayerInfo second = .ok layerInfo →
    fetchLayer imp.proxy manifest layer layerInfo imp.imgref.imgref.transport
      = .ok (blob, .ok (), mediaType) →
    decompressor mediaType = .ok compression →
    host.objects compression blob = w.objects layer.digest ∧
      host.entries compression blob = w.entries layer.digest

/-- The layers of an import are used as planned. -/
structure PreparedImport.Abides (prep : PreparedImport) (plan : Digest → Use)
    (ostreeV20243 : Bool) : Prop where
  commitLayer : plan prep.ostreeCommitLayer.layer.digest = .commit
  ostreeLayers : ∀ layer ∈ prep.ostreeLayers, plan layer.layer.digest = .chunk
  layers : ∀ layer ∈ prep.layers,
    plan layer.layer.digest = .derived prep.ostreeCommitLayer.layer.digest ostreeV20243

/-- The commit of a derived layer. -/
def layerCommit (timestamp : Nat) (root : Root) : Commit where
  metadata := (∅ : Dict).insert importerVersionKey (.str importerVersion)
  timestamp := timestamp
  contents := root.contents
  dirmeta := root.dirmeta

/-- The commits that an import writes for its image: the base commit, those of the derived layers,
    and the merge commit. -/
inductive World.Writes (w : World) (lib : Libostree) (host : Host) (imp : ImageImporter)
    (prep : PreparedImport) (c : Checksum) (base : Commit) (trace : List RepoEvent) :
    Checksum → Commit → Prop where
  | base : w.Writes lib host imp prep c base trace c base
  | layer {layer : ManifestLayerState} {commit : Commit} (hlayer : layer ∈ prep.layers)
      (h : commit = layerCommit (host.clock trace)
        (w.layerRoot base imp.ostreeV20243 layer.layer.digest)) :
      w.Writes lib host imp prep c base trace (lib.commitChecksum commit) commit
  | merge {m : MergeInput} {commit : Commit}
      (hmeta : m.metadata = mergeMetadata prep
        (w.imageFiltered base imp.ostreeV20243 prep.layers))
      (htime : m.timestamp = (timestampOfManifestOrConfig host prep.manifest prep.config).getD
        (host.clock trace))
      (h : commit = mergeCommit m (w.imageRoot base imp.ostreeV20243
        (prep.layers.map (·.layer.digest)))) :
      w.Writes lib host imp prep c base trace (lib.commitChecksum commit) commit

/-- No commit is stored under the checksum of a different one that the import writes. -/
def World.NoClash (w : World) (lib : Libostree) (host : Host) (imp : ImageImporter)
    (prep : PreparedImport) (r : Repo) : Prop :=
  ∀ c base, streamCommit lib (w.objects prep.ostreeCommitLayer.layer.digest) = some (c, base) →
    ∀ trace, trace <+: r.trace → ∀ k commit b, w.Writes lib host imp prep c base trace k commit →
      r.commits[k]? = some b → b = commit

-- ── What is stored for a blob ─────────────────────────────────────────────────

/-- The commit is what the blob becomes in this use.  An object set is not looked at. -/
def World.Genuine (w : World) (lib : Libostree) (d : Digest) (c : Checksum) (o : Objects) :
    Use → Prop
  | .commit => ∃ base, streamCommit lib (w.objects d) = some (c, base) ∧
      o.commits[c]? = some base
  | .chunk => True
  | .derived blob ostreeV20243 => ∃ k base commit,
      streamCommit lib (w.objects blob) = some (k, base) ∧ o.commits[c]? = some commit ∧
      rootOf commit = w.layerRoot base ostreeV20243 d

/-- Every blob that has a ref is stored as planned. -/
def World.Cached (w : World) (lib : Libostree) (plan : Digest → Use) (r : Repo) : Prop :=
  ∀ d ref c, refForBlobDigest d = .ok ref → r.refs[ref]? = some c →
    w.Genuine lib d c r.toObjects (plan d)

section Cached

variable {w : World} {lib : Libostree} {plan : Digest → Use} {r r' : Repo}

theorem World.Genuine.mono {d : Digest} {c : Checksum} {o o' : Objects} {use : Use}
    (h : w.Genuine lib d c o use) (hkeeps : o.Keeps o') : w.Genuine lib d c o' use := by
  cases use with
  | commit =>
      obtain ⟨base, hstream, hcommit⟩ := h
      exact ⟨base, hstream, hkeeps.commits _ _ hcommit⟩
  | chunk => trivial
  | derived blob ostreeV20243 =>
      obtain ⟨k, base, commit, hstream, hcommit, hroot⟩ := h
      exact ⟨k, base, commit, hstream, hkeeps.commits _ _ hcommit, hroot⟩

/-- Nothing is stored in the empty repository. -/
theorem World.Cached.empty : w.Cached lib plan {} := by
  intro d ref c _ hc
  exact absurd ((ExtTreeMap.lookup_empty ref).symm.trans hc) (by simp)

/-- A change that writes no ref of a blob. -/
theorem World.Cached.of_refs (h : w.Cached lib plan r) (hkeeps : r.toObjects.Keeps r'.toObjects)
    (hrefs : ∀ d (ref : String) c, refForBlobDigest d = .ok ref → r'.refs[ref]? = some c →
      r.refs[ref]? = some c) : w.Cached lib plan r' := by
  intro d ref c href hc
  exact (h d ref c href (hrefs d ref c href hc)).mono hkeeps

/-- A blob that is fetched. -/
theorem World.Cached.fetched (h : w.Cached lib plan r) {d : Digest} {ref : String}
    (href : refForBlobDigest d = .ok ref) (hfetch : Fetches (· = ref) r r')
    (hnew : ∀ c, r'.refs[ref]? = some c → w.Genuine lib d c r'.toObjects (plan d)) :
    w.Cached lib plan r' := by
  intro d' ref' c href' hc
  by_cases heq : ref' = ref
  · subst heq
    obtain rfl : d' = d := prefixEscapeForRef_inj href' href
    exact hnew c hc
  · exact (h d' ref' c href' ((hfetch.lookup heq).symm.trans hc)).mono hfetch.keeps

theorem World.Cached.unlinks (h : w.Cached lib plan r) (hunlinks : Unlinks r r') :
    w.Cached lib plan r' := by
  refine h.of_refs ?_ (fun d ref c _ hc => ?_)
  · rw [hunlinks.objects]
    exact Objects.Keeps.refl _
  · rcases hunlinks.refs ref with heq | ⟨-, hnone⟩
    · exact heq.symm.trans hc
    · exact absurd (hc.symm.trans hnone) (by simp)

end Cached

-- ── Growing repositories ──────────────────────────────────────────────────────

/-- No object and no history is lost. -/
structure Accrues (r r' : Repo) : Prop where
  keeps : r.toObjects.Keeps r'.toObjects
  history : r.trace <+: r'.trace

section Accrues

theorem Accrues.refl (r : Repo) : Accrues r r := ⟨Objects.Keeps.refl _, List.prefix_refl _⟩

theorem Accrues.trans (a b c : Repo) (h : Accrues a b) (h' : Accrues b c) : Accrues a c :=
  ⟨h.keeps.trans h'.keeps, h.history.trans h'.history⟩

/-- An import extends the repository. -/
theorem accrues_frame (S : String → Prop) : FetchFrame S (fun _ => True) Accrues where
  frame _ := {
    refl := Accrues.refl
    trans := Accrues.trans
    harmless := by
      intro r r' h
      obtain ⟨events, htrace, -⟩ := h.trace
      exact ⟨h.keeps, htrace ▸ List.prefix_append _ _⟩
    marked := fun _ => ⟨Objects.Keeps.refl _, List.prefix_append _ _⟩
    commit := fun _ _ => ⟨Objects.Keeps.insert_commit _ _ _, List.prefix_append _ _⟩
    commitmeta := fun _ _ _ => ⟨Objects.Keeps.refl _, List.prefix_append _ _⟩
    accepted := fun _ _ _ _ => ⟨Objects.Keeps.refl _, List.prefix_append _ _⟩ }
  unmarked _ _ := ⟨Objects.Keeps.refl _, List.prefix_append _ _⟩
  setRef _ _ _ _ := ⟨Objects.Keeps.refl _, List.prefix_refl _⟩
  adds _ _ h _ := ⟨h, List.prefix_refl _⟩
  rollback _ _ h := ⟨Objects.Keeps.refl _, h.history⟩

theorem importLayer_accrues {host : Host} {lib : Libostree} {imp : ImageImporter}
    {manifest : ImageManifest} {desLayers : Option (List ConvertedLayerInfo)} {base : Checksum}
    {rootIsTransient : Bool} (acc : List Checksum × MetaFilteredData) (layer : ManifestLayerState) :
    Steps Accrues (imp.importLayer host lib manifest desLayers base rootIsTransient acc layer) :=
  (accrues_frame (fun _ => True)).importLayer acc trivial

theorem fetchChunkLayer_accrues {host : Host} {lib : Libostree} {imp : ImageImporter}
    {manifest : ImageManifest} {desLayers : Option (List ConvertedLayerInfo)}
    (layer : ManifestLayerState) :
    Steps Accrues (imp.fetchChunkLayer host lib manifest desLayers true layer) :=
  (accrues_frame (fun _ => True)).fetchChunkLayer true (fun _ => trivial)

/-- A clash does not go away. -/
theorem World.NoClash.before {w : World} {lib : Libostree} {host : Host} {imp : ImageImporter}
    {prep : PreparedImport} {r r' : Repo} (h : w.NoClash lib host imp prep r')
    (haccrues : Accrues r r') : w.NoClash lib host imp prep r := by
  intro c base hstream trace htrace k commit b hwrites hb
  exact h c base hstream trace (htrace.trans haccrues.history) k commit b hwrites
    (haccrues.keeps.commits _ _ hb)

end Accrues

-- ── One round ─────────────────────────────────────────────────────────────────

/-- Worker and driver are both done. -/
theorem joinFetch_done {α : Type} {worker : RepoM α} {driver : Result Unit} {r r' : Repo} {a : α}
    (h : joinFetch worker driver r = .ok a r') : worker r = .ok a r' ∧ driver = .ok () := by
  obtain ⟨a', r₁, hworker, h₁⟩ := bind_ok h
  obtain ⟨_, r₂, hdriver, h₂⟩ := bind_ok h₁
  obtain ⟨hok, rfl⟩ := liftR_eq_ok hdriver
  cases h₂
  exact ⟨hworker, hok⟩

/-- A commit layer that is imported: its commit is stored, unless another one was. -/
theorem importCommitLayer_stores {lib : Libostree} {remote : Option String} {ref : String}
    {blob : Stream} {c : Checksum} {r r' : Repo}
    (h : importCommitLayer lib remote true ref blob r = .ok c r') :
    ∃ base, streamCommit lib blob = some (c, base) ∧ ∃ b, r'.commits[c]? = some b := by
  have h := of_autoTransaction h
  obtain ⟨c', r₁, hbody, h₁⟩ := bind_ok h
  obtain ⟨imp, hrun, -⟩ := withImporter_eq_ok hbody
  obtain ⟨_, imp', himport, -⟩ := bind_ok hrun
  obtain ⟨k, base, _, hstream, -, -, -⟩ := importCommit_adds himport
  obtain ⟨rfl, hstaged⟩ := importTarBody_ok hstream hbody
  dsimp only at h₁
  rw [if_pos rfl] at h₁
  obtain ⟨_, r₂, hset, h₂⟩ := bind_ok h₁
  obtain ⟨_, r₃, hmark, h₃⟩ := bind_ok h₂
  cases hset
  cases hmark
  cases h₃
  have hin : c ∈ r₁.commits := by
    rw [hstaged.commits]
    exact ExtTreeMap.mem_insertIfNew_self
  exact ⟨base, hstream, ExtTreeMap.mem_iff_lookup.mp hin⟩

/-- What the child process of `write_tar` has written. -/
theorem ostreeCommit_writes {host : Host} {lib : Libostree} {base : Root} {ref : String}
    {out : List FilteredEntry} {r r' : Repo} {c : Checksum}
    (h : ostreeCommit host lib base ref out r = .ok c r') :
    ∃ p, host.commitTar r.toObjects base out = .ok p ∧
      c = lib.commitChecksum (layerCommit (host.clock r.trace) p.1) ∧ r.trace <+: r'.trace ∧
      r'.refs[ref]? = some c ∧ ∃ b, r'.commits[c]? = some b := by
  have h := of_autoTransaction h
  obtain ⟨repo, r₁, hget, h₁⟩ := bind_ok h
  cases hget
  obtain ⟨p, r₂, htar, h₂⟩ := bind_ok h₁
  obtain ⟨hp, rfl⟩ := liftR_eq_ok htar
  obtain ⟨_, r₃, hmodify, h₃⟩ := bind_ok h₂
  cases hmodify
  obtain ⟨c', r₄, hwrite, h₄⟩ := bind_ok h₃
  cases hwrite
  obtain ⟨_, r₅, hset, h₅⟩ := bind_ok h₄
  cases hset
  cases h₅
  refine ⟨p, hp, rfl, List.prefix_append _ _, ?_, ?_⟩
  · show (ExtTreeMap.insert _ ref _)[ref]? = _
    rw [ExtTreeMap.lookup_insert, if_pos rfl]
  · exact ExtTreeMap.mem_iff_lookup.mp ExtTreeMap.mem_insertIfNew_self

/-- What `write_tar` has done when it succeeds. -/
theorem writeTar_writes {host : Host} {lib : Libostree} {config : TarImportConfig} {base : Checksum}
    {mediaType : MediaType} {blob : Bytes} {ref : String} {r r' : Repo} {res : WriteTarResult}
    (h : writeTar host lib config base mediaType blob ref r = .ok res r') :
    ∃ baseCommit compression, r.loadCommit base = .ok baseCommit ∧
      decompressor mediaType = .ok compression ∧
      (filterTar host.tar config (host.entries compression blob)).2 = .ok res.filtered ∧
      ostreeCommit host lib (rootOf baseCommit) ref
        (filterTar host.tar config (host.entries compression blob)).1 r = .ok res.commit r' := by
  obtain ⟨repo, r₁, hget, h₁⟩ := bind_ok h
  cases hget
  obtain ⟨baseCommit, r₂, hload, h₂⟩ := bind_ok h₁
  obtain ⟨hload, rfl⟩ := liftR_eq_ok hload
  have hfailed : ∀ {out : List FilteredEntry} {e : Stop}, ¬ (if host.outruns out then do
        let _ ← ostreeCommit host lib (rootOf baseCommit) ref out
        throw e
      else throw e : RepoM WriteTarResult) r₂ = .ok res r' := by
    intro out e hrun
    split at hrun
    · obtain ⟨_, _, -, hthrow⟩ := bind_ok hrun
      cases hthrow
    · cases hrun
  cases hcompression : decompressor mediaType with
  | error e =>
      rw [hcompression] at h₂
      exact absurd h₂ hfailed
  | ok compression =>
      rw [hcompression] at h₂
      dsimp only at h₂
      cases hout : (filterTar host.tar config (host.entries compression blob)).2 with
      | error e =>
          rw [hout] at h₂
          exact absurd h₂ hfailed
      | ok filtered =>
          rw [hout] at h₂
          obtain ⟨commit, r₃, hcommit, h₃⟩ := bind_ok h₂
          cases h₃
          exact ⟨baseCommit, compression, hload, rfl, hout, hcommit⟩

section Rounds

variable {w : World} {lib : Libostree} {plan : Digest → Use} {host : Host} {imp : ImageImporter}
  {manifest : ImageManifest} {desLayers : Option (List ConvertedLayerInfo)}
  {layer : ManifestLayerState} {r r' : Repo}

theorem fetchChunkLayer_cached {layer' : ManifestLayerState} (hcached : w.Cached lib plan r)
    (href : refForLayer layer.layer = .ok layer.ostreeRef)
    (huse : plan layer.layer.digest = .chunk)
    (h : imp.fetchChunkLayer host lib manifest desLayers true layer r = .ok layer' r') :
    w.Cached lib plan r' := by
  have hfetch : Steps (Fetches (· = layer.ostreeRef))
      (imp.fetchChunkLayer host lib manifest desLayers true layer) :=
    (fetches_frame _).fetchChunkLayer true (fun _ => rfl)
  refine hcached.fetched href (hfetch.of_ok h) (fun c _ => ?_)
  rw [huse]
  trivial

/-- **The commit layer**, fetched or not, is the commit in its blob. -/
theorem fetchCommitLayer_cached {second : Bool} {remote : Option String}
    {layer' : ManifestLayerState} (hcached : w.Cached lib plan r)
    (hdelivers : imp.Delivers host w manifest)
    (hinfo : imp.proxy.getLayerInfo second = .ok desLayers)
    (href : refForLayer layer.layer = .ok layer.ostreeRef)
    (huse : plan layer.layer.digest = .commit)
    (hthere : ∀ c, layer.commit = some c → w.Genuine lib layer.layer.digest c r.toObjects .commit)
    (hno : ∀ c base b, streamCommit lib (w.objects layer.layer.digest) = some (c, base) →
      r'.commits[c]? = some b → b = base)
    (h : imp.fetchCommitLayer host lib manifest desLayers remote true layer r = .ok layer' r') :
    w.Cached lib plan r' ∧ ∃ c, layer'.commit = some c ∧
      w.Genuine lib layer.layer.digest c r'.toObjects .commit := by
  have hfetch : Fetches (· = layer.ostreeRef) r r' := by
    have hframe : Steps (Fetches (· = layer.ostreeRef))
        (imp.fetchCommitLayer host lib manifest desLayers remote true layer) :=
      (fetches_frame _).fetchCommitLayer (fun _ _ => trivial) remote true (fun _ => rfl)
    exact hframe.of_ok h
  rw [ImageImporter.fetchCommitLayer] at h
  split at h
  · next hsome =>
      cases h
      obtain ⟨c, hc⟩ := Option.isSome_iff_exists.mp hsome
      exact ⟨hcached, c, hc, hthere c hc⟩
  obtain ⟨_, r₁, hsent, h₁⟩ := bind_ok h
  obtain ⟨-, rfl⟩ := liftR_eq_ok hsent
  obtain ⟨⟨blob, driver, mediaType⟩, r₂, hget, h₂⟩ := bind_ok h₁
  obtain ⟨hblob, rfl⟩ := liftR_eq_ok hget
  obtain ⟨c, r₃, hjoin, h₃⟩ := bind_ok h₂
  obtain ⟨hworker, rfl⟩ := joinFetch_done hjoin
  obtain ⟨compression, r₄, hdecompress, himport⟩ := bind_ok hworker
  obtain ⟨hcompression, rfl⟩ := liftR_eq_ok hdecompress
  obtain ⟨_, r₅, hsent, h₄⟩ := bind_ok h₃
  obtain ⟨-, rfl⟩ := liftR_eq_ok hsent
  cases h₄
  rw [(hdelivers _ _ _ _ _ _ hinfo hblob hcompression).1] at himport
  obtain ⟨base, hstream, b, hb⟩ := importCommitLayer_stores himport
  obtain rfl := hno c base b hstream hb
  have hgenuine : w.Genuine lib layer.layer.digest c r'.toObjects .commit := ⟨b, hstream, hb⟩
  refine ⟨hcached.fetched href hfetch (fun c' hc' => ?_), c, rfl, hgenuine⟩
  obtain rfl : c = c' := Option.some.inj ((importCommitLayer_sets himport).symm.trans hc')
  rw [huse]
  exact hgenuine

/-- **A derived layer**, fetched or not, has the tree that its blob has over its base. -/
theorem importLayer_cached {second : Bool} {blobOfBase : Digest} {k : Checksum} {base : Commit}
    {acc acc' : List Checksum × MetaFilteredData} (hhost : host.In w)
    (hcached : w.Cached lib plan r) (hdelivers : imp.Delivers host w manifest)
    (hinfo : imp.proxy.getLayerInfo second = .ok desLayers)
    (href : refForLayer layer.layer = .ok layer.ostreeRef)
    (huse : plan layer.layer.digest = .derived blobOfBase imp.ostreeV20243)
    (hstream : streamCommit lib (w.objects blobOfBase) = some (k, base))
    (hbase : r.commits[k]? = some base)
    (hthere : ∀ c, layer.commit = some c →
      w.Genuine lib layer.layer.digest c r.toObjects (.derived blobOfBase imp.ostreeV20243))
    (hno : ∀ trace, trace <+: r'.trace → ∀ commit b,
      commit = layerCommit (host.clock trace)
        (w.layerRoot base imp.ostreeV20243 layer.layer.digest) →
      r'.commits[lib.commitChecksum commit]? = some b → b = commit)
    (h : imp.importLayer host lib manifest desLayers k (w.overlayfsRootEnabled base) acc layer r
      = .ok acc' r') :
    w.Cached lib plan r' ∧ ∃ c, acc' = (acc.1 ++ [c], w.addFiltered base imp.ostreeV20243 acc.2 layer) ∧
      w.Genuine lib layer.layer.digest c r'.toObjects (.derived blobOfBase imp.ostreeV20243) := by
  have hfetch : Fetches (· = layer.ostreeRef) r r' := by
    have hframe : Steps (Fetches (· = layer.ostreeRef)) (imp.importLayer host lib manifest desLayers
        k (w.overlayfsRootEnabled base) acc layer) := (fetches_frame _).importLayer acc rfl
    exact hframe.of_ok h
  cases hcommit : layer.commit with
  | some c =>
      rw [ImageImporter.importLayer, hcommit] at h
      cases h
      refine ⟨hcached, c, ?_, hthere c hcommit⟩
      rw [World.addFiltered, hcommit, Option.isSome_some, if_pos rfl]
  | none =>
      rw [ImageImporter.importLayer, hcommit] at h
      obtain ⟨_, r₁, hsent, h₁⟩ := bind_ok h
      obtain ⟨-, rfl⟩ := liftR_eq_ok hsent
      obtain ⟨⟨blob, driver, mediaType⟩, r₂, hget, h₂⟩ := bind_ok h₁
      obtain ⟨hblob, rfl⟩ := liftR_eq_ok hget
      obtain ⟨res, r₃, hjoin, h₃⟩ := bind_ok h₂
      obtain ⟨hworker, rfl⟩ := joinFetch_done hjoin
      obtain ⟨_, r₄, hsent, h₄⟩ := bind_ok h₃
      obtain ⟨-, rfl⟩ := liftR_eq_ok hsent
      cases h₄
      obtain ⟨baseCommit, compression, hload, hcompression, hfiltered, hwrite⟩ :=
        writeTar_writes hworker
      rw [(hdelivers _ _ _ _ _ _ hinfo hblob hcompression).2, hhost.tar] at hfiltered hwrite
      obtain rfl : base = baseCommit := by
        rw [Repo.loadCommit, hbase] at hload
        exact Except.ok.inj hload
      obtain ⟨p, hp, hsum, htrace, hset, b, hb⟩ := ostreeCommit_writes hwrite
      have hroot : p.1 = w.layerRoot base imp.ostreeV20243 layer.layer.digest :=
        hhost.commitTar _ _ _ p hp
      rw [hroot] at hsum
      rw [hsum] at hb
      have hwritten := hno _ htrace _ b rfl hb
      have hgenuine : w.Genuine lib layer.layer.digest res.commit r'.toObjects
          (.derived blobOfBase imp.ostreeV20243) := by
        refine ⟨k, base, b, hstream, hsum ▸ hb, ?_⟩
        rw [hwritten]
        rfl
      refine ⟨hcached.fetched href hfetch (fun c' hc' => ?_), res.commit, ?_, hgenuine⟩
      · obtain rfl : res.commit = c' := Option.some.inj (hset.symm.trans hc')
        rw [huse]
        exact hgenuine
      · have hlayer : w.layerFiltered base imp.ostreeV20243 layer.layer.digest = res.filtered := by
          rw [World.layerFiltered, World.layerTar, World.layerConfig, hfiltered]
        rw [World.addFiltered, hcommit, hlayer]
        rfl

end Rounds

-- ── One import ────────────────────────────────────────────────────────────────

/-- The layers that were found are stored as planned. -/
def World.Found (w : World) (lib : Libostree) (plan : Digest → Use) (prep : PreparedImport)
    (r : Repo) : Prop :=
  ∀ layer ∈ prep.allLayers, ∀ c, layer.commit = some c →
    w.Genuine lib layer.layer.digest c r.toObjects (plan layer.layer.digest)

/-- What the last transaction of an import is given. -/
structure World.Fetched (w : World) (lib : Libostree) (host : Host) (imp : ImageImporter)
    (prep : PreparedImport) (base : Commit) (m : MergeInput) (s : Repo) : Prop where
  stream : streamCommit lib (w.objects prep.ostreeCommitLayer.layer.digest)
    = some (m.baseCommit, base)
  baseCommit : s.commits[m.baseCommit]? = some base
  layerCommits : List.Forall₂ (fun layer c => ∃ commit, s.commits[c]? = some commit ∧
    rootOf commit = w.layerRoot base imp.ostreeV20243 layer.layer.digest) prep.layers m.layerCommits
  metadata : m.metadata = mergeMetadata prep (w.imageFiltered base imp.ostreeV20243 prep.layers)
  timestamp : ∃ trace, trace <+: s.trace ∧ m.timestamp
    = (timestampOfManifestOrConfig host prep.manifest prep.config).getD (host.clock trace)
  haveDerivedLayers : m.haveDerivedLayers = decide (¬ prep.layers.isEmpty)

section Import

variable {w : World} {lib : Libostree} {plan : Digest → Use} {host : Host} {imp : ImageImporter}
  {prep : PreparedImport} {r r' : Repo}

theorem World.Found.mono (h : w.Found lib plan prep r) (hkeeps : r.toObjects.Keeps r'.toObjects) :
    w.Found lib plan prep r' :=
  fun layer hlayer c hc => (h layer hlayer c hc).mono hkeeps

theorem unencapsulateBase_cached {prep' : PreparedImport} (hcached : w.Cached lib plan r)
    (hfound : w.Found lib plan prep r)
    (hnamed : ∀ layer ∈ prep.allLayers, refForLayer layer.layer = .ok layer.ostreeRef)
    (habides : prep.Abides plan imp.ostreeV20243) (hdelivers : imp.Delivers host w prep.manifest)
    (hno : w.NoClash lib host imp prep r')
    (h : imp.unencapsulateBase host lib prep true r = .ok prep' r') :
    w.Cached lib plan r' ∧ ∃ c, prep'.ostreeCommitLayer.commit = some c ∧
      w.Genuine lib prep.ostreeCommitLayer.layer.digest c r'.toObjects .commit := by
  obtain ⟨_, r₁, hallowed, h₁⟩ := bind_ok h
  obtain ⟨-, rfl⟩ := liftR_eq_ok hallowed
  obtain ⟨desLayers, r₂, hget, h₂⟩ := bind_ok h₁
  obtain ⟨hinfo, rfl⟩ := liftR_eq_ok hget
  obtain ⟨chunks, r₃, hchunks, h₃⟩ := bind_ok h₂
  obtain ⟨commitLayer, r₄, hcommit, h₄⟩ := bind_ok h₃
  cases h₄
  have hround : ∀ layer ∈ prep.ostreeLayers, layer ∈ prep.allLayers :=
    fun layer hlayer => List.mem_append_left _ (List.mem_cons_of_mem _ hlayer)
  have hframe : ∀ layer ∈ prep.ostreeLayers, ∀ s layer' s',
      imp.fetchChunkLayer host lib prep.manifest desLayers true layer s = .ok layer' s' →
      Accrues s s' ∧ (w.Cached lib plan s → w.Cached lib plan s') := by
    intro layer hlayer s layer' s' hrun
    exact ⟨(fetchChunkLayer_accrues layer).of_ok hrun, fun hs => fetchChunkLayer_cached hs (hnamed layer (hround layer hlayer))
      (habides.ostreeLayers layer hlayer) hrun⟩
  obtain ⟨haccrues, hcached₃⟩ := mapM_ok_steps
    (R := fun s s' => Accrues s s' ∧ (w.Cached lib plan s → w.Cached lib plan s'))
    (fun s => ⟨Accrues.refl s, fun h => h⟩)
    (fun a b c h h' => ⟨h.1.trans _ _ _ h'.1, fun hs => h'.2 (h.2 hs)⟩) hframe hchunks
  have hthere := hfound.mono haccrues.keeps prep.ostreeCommitLayer (List.mem_cons_self ..)
  rw [habides.commitLayer] at hthere
  refine fetchCommitLayer_cached (hcached₃ hcached) hdelivers hinfo
    (hnamed _ (List.mem_cons_self ..)) habides.commitLayer hthere ?_ hcommit
  intro c base b hstream hb
  exact hno c base hstream [] List.nil_prefix c base b .base hb

/-- The loop of `import` over the derived layers. -/
theorem importLayers_cached {second : Bool} {desLayers : Option (List ConvertedLayerInfo)}
    {k : Checksum} {base : Commit} {acc : List Checksum × MetaFilteredData} (hhost : host.In w)
    (hcached : w.Cached lib plan r) (hfound : w.Found lib plan prep r)
    (hnamed : ∀ layer ∈ prep.allLayers, refForLayer layer.layer = .ok layer.ostreeRef)
    (habides : prep.Abides plan imp.ostreeV20243) (hdelivers : imp.Delivers host w prep.manifest)
    (hinfo : imp.proxy.getLayerInfo second = .ok desLayers)
    (hstream : streamCommit lib (w.objects prep.ostreeCommitLayer.layer.digest) = some (k, base))
    (hbase : r.commits[k]? = some base) (hno : w.NoClash lib host imp prep r')
    (h : prep.layers.foldlM (imp.importLayer host lib prep.manifest desLayers k
      (w.overlayfsRootEnabled base)) ([], ∅) r = .ok acc r') :
    Accrues r r' ∧ w.Cached lib plan r' ∧
      acc.2 = w.imageFiltered base imp.ostreeV20243 prep.layers ∧
      List.Forall₂ (fun layer c => w.Genuine lib layer.layer.digest c r'.toObjects
        (.derived prep.ostreeCommitLayer.layer.digest imp.ostreeV20243)) prep.layers acc.1 := by
  have hround : ∀ acc, ∀ layer ∈ prep.layers, ∀ s acc' s',
      imp.importLayer host lib prep.manifest desLayers k (w.overlayfsRootEnabled base) acc layer s
        = .ok acc' s' → Accrues s s' := by
    intro acc layer _ s acc' s' hrun
    exact (importLayer_accrues acc layer).of_ok hrun
  refine foldlM_ok_invariant (Q := w.NoClash lib host imp prep) (I := fun pre acc s =>
      Accrues r s ∧ w.Cached lib plan s ∧
      acc.2 = pre.foldl (w.addFiltered base imp.ostreeV20243) ∅ ∧
      List.Forall₂ (fun layer c => w.Genuine lib layer.layer.digest c s.toObjects
        (.derived prep.ostreeCommitLayer.layer.digest imp.ostreeV20243)) pre acc.1)
    Accrues.refl Accrues.trans hround (fun _ _ haccrues hno => hno.before haccrues) ?_
    ⟨Accrues.refl r, hcached, rfl, .nil⟩ h hno
  intro pre layer hlayer acc s acc' s' hI hrun hno
  obtain ⟨haccrues, hcached, hcounts, hall⟩ := hI
  have hin : layer ∈ prep.allLayers := List.mem_append_right _ hlayer
  have hstep := hround acc layer hlayer s acc' s' hrun
  have hthere := hfound.mono haccrues.keeps layer hin
  rw [habides.layers layer hlayer] at hthere
  obtain ⟨hcached', c, rfl, hgenuine⟩ := importLayer_cached hhost hcached hdelivers hinfo
    (hnamed layer hin) (habides.layers layer hlayer) hstream
    (haccrues.keeps.commits _ _ hbase) hthere (fun trace htrace commit b hcommit hb =>
      hno k base hstream trace htrace _ commit b (.layer hlayer hcommit) hb) hrun
  refine ⟨haccrues.trans _ _ _ hstep, hcached', ?_, ?_⟩
  · rw [List.foldl_append, hcounts]
    rfl
  · exact List.rel_append (hall.imp (fun _ _ h => h.mono hstep.keeps)) (.cons hgenuine .nil)

/-- **Up to its last transaction**, an import that abides by the plan keeps to it, and gives the
    merge what the image says. -/
theorem fetchLayers_cached {m : MergeInput} (hhost : host.In w) (hcached : w.Cached lib plan r)
    (hfound : w.Found lib plan prep r)
    (hnamed : ∀ layer ∈ prep.allLayers, refForLayer layer.layer = .ok layer.ostreeRef)
    (habides : prep.Abides plan imp.ostreeV20243) (hdelivers : imp.Delivers host w prep.manifest)
    (hno : w.NoClash lib host imp prep r') (h : imp.fetchLayers host lib prep r = .ok m r') :
    w.Cached lib plan r' ∧ ∃ base, w.Fetched lib host imp prep base m r' := by
  obtain ⟨prep', r₁, hbase, h₁⟩ := bind_ok h
  have hshape := unencapsulateBase_ok hbase
  obtain ⟨desLayers, r₂, hget, h₂⟩ := bind_ok h₁
  obtain ⟨hinfo, rfl⟩ := liftR_eq_ok hget
  obtain ⟨baseCommit, r₃, hunwrap, h₃⟩ := bind_ok h₂
  obtain ⟨hcommit, rfl⟩ := liftR_eq_ok hunwrap
  obtain ⟨repo, r₄, hget, h₄⟩ := bind_ok h₃
  cases hget
  obtain ⟨loaded, r₅, hload, h₅⟩ := bind_ok h₄
  obtain ⟨hload, rfl⟩ := liftR_eq_ok hload
  obtain ⟨repo, r₆, hget, h₆⟩ := bind_ok h₅
  cases hget
  obtain ⟨transient, r₇, htransient, h₇⟩ := bind_ok h₆
  obtain ⟨htransient, rfl⟩ := liftR_eq_ok htransient
  obtain ⟨ostreeRef, r₈, htarget, h₈⟩ := bind_ok h₇
  obtain ⟨-, rfl⟩ := liftR_eq_ok htarget
  obtain ⟨acc, r₉, hlayers, h₉⟩ := bind_ok h₈
  obtain ⟨_, r₁₀, hclose, h₁₀⟩ := bind_ok h₉
  obtain ⟨-, rfl⟩ := liftR_eq_ok hclose
  obtain ⟨_, r₁₁, hfinal, h₁₁⟩ := bind_ok h₁₀
  obtain ⟨-, rfl⟩ := liftR_eq_ok hfinal
  obtain ⟨repo, r₁₂, hget, h₁₂⟩ := bind_ok h₁₁
  cases hget
  cases h₁₂
  obtain ⟨chunks, commitLayer, rfl⟩ := hshape
  have haccrues := (Steps.foldlM Accrues.refl Accrues.trans
    (fun acc layer _ => importLayer_accrues acc layer) ([], ∅)).of_ok hlayers
  obtain ⟨hcached₁, k, hk, hgenuine⟩ := unencapsulateBase_cached hcached hfound hnamed habides
    hdelivers (hno.before haccrues) hbase
  obtain rfl : k = baseCommit := Option.some.inj (hk.symm.trans (unwrapCommit_eq_ok hcommit))
  obtain ⟨base, hstream, hcommit₁⟩ := hgenuine
  obtain rfl : base = loaded := by
    rw [Repo.loadCommit, hcommit₁] at hload
    exact Except.ok.inj hload
  rw [hhost.overlayfsRootEnabled _ _ _ htransient] at hlayers
  have hgrown : Steps Accrues (imp.unencapsulateBase host lib prep true) :=
    (accrues_frame prep.IsLayerRef).unencapsulateBase (fun _ _ => trivial) true
  have hfound₁ := hfound.mono (hgrown.of_ok hbase).keeps
  obtain ⟨-, hcached', hcounts, hall⟩ := importLayers_cached hhost hcached₁ hfound₁ hnamed habides
    hdelivers hinfo hstream hcommit₁ hno hlayers
  refine ⟨hcached', base, hstream, haccrues.keeps.commits _ _ hcommit₁, ?_, ?_,
    ⟨_, List.prefix_refl _, rfl⟩, rfl⟩
  · refine hall.imp (fun layer c hlayer => ?_)
    obtain ⟨k', base', commit, hstream', hcommit', hroot⟩ := hlayer
    obtain ⟨rfl, rfl⟩ := Prod.mk.inj (Option.some.inj (hstream.symm.trans hstream'))
    exact ⟨commit, hcommit', hroot⟩
  · rw [← hcounts]
    rfl

/-- The trees that the last transaction checks out. -/
theorem roots_of_loads {layers : List ManifestLayerState} {commits : List Checksum}
    {loaded : List Commit} {root : ManifestLayerState → Root}
    (hall : List.Forall₂ (fun layer c => ∃ commit, r.commits[c]? = some commit ∧
      rootOf commit = root layer) layers commits)
    (h : commits.mapM r.loadCommit = .ok loaded) : loaded.map rootOf = layers.map root := by
  induction hall generalizing loaded with
  | nil =>
      cases h
      rfl
  | cons hlayer _ ih =>
      obtain ⟨commit, hcommit, hroot⟩ := hlayer
      rw [List.mapM_cons, Repo.loadCommit, hcommit, okOr_some, bind_ok_eq] at h
      obtain ⟨loaded', hrest, h⟩ := result_bind_eq_ok.mp h
      cases h
      rw [List.map_cons, List.map_cons, hroot, ih hrest]

/-- **The last transaction** of an import that abides by the plan writes the tree of the image. -/
theorem World.Fetched.merged {base : Commit} {m : MergeInput} {s : Repo} {c : Checksum} {root : Root}
    {objects : Objects} (h : w.Fetched lib host imp prep base m s) (hhost : host.In w)
    (hmerges : Merges host lib imp m s c r' root objects) :
    root = w.imageRoot base imp.ostreeV20243 (prep.layers.map (·.layer.digest)) := by
  obtain ⟨base', layers, hbase, hlayers, htrees⟩ := hmerges.loads
  obtain rfl : base = base' := by
    rw [Repo.loadCommit, h.baseCommit] at hbase
    exact Except.ok.inj hbase
  have hroot := hhost.mergeTrees _ _ _ _ _ htrees
  dsimp only at hroot
  rw [hroot, World.imageRoot, roots_of_loads h.layerCommits hlayers, h.haveDerivedLayers,
    List.map_map, List.isEmpty_map]
  rfl

/-- What an import has stored. -/
structure World.Imported (w : World) (lib : Libostree) (imp : ImageImporter) (prep : PreparedImport)
    (state : LayeredImageState) (r' : Repo) (c : Checksum) (base merged : Commit) : Prop where
  stream : streamCommit lib (w.objects prep.ostreeCommitLayer.layer.digest) = some (c, base)
  stored : r'.loadCommit state.mergeCommit = .ok merged
  root : rootOf merged = w.imageRoot base imp.ostreeV20243 (prep.layers.map (·.layer.digest))
  filtered : merged.metadata[metaFiltered]?
    = some (.filtered (w.imageFiltered base imp.ostreeV20243 prep.layers))

theorem importMerged_cached {c : Checksum} (hhost : host.In w) (hcached : w.Cached lib plan r)
    (hfound : w.Found lib plan prep r)
    (hnamed : ∀ layer ∈ prep.allLayers, refForLayer layer.layer = .ok layer.ostreeRef)
    (habides : prep.Abides plan imp.ostreeV20243) (hdelivers : imp.Delivers host w prep.manifest)
    (hno : w.NoClash lib host imp prep r') (h : imp.importMerged host lib prep r = .ok c r') :
    w.Cached lib plan r' ∧ ∃ k base merged,
      streamCommit lib (w.objects prep.ostreeCommitLayer.layer.digest) = some (k, base) ∧
      r'.loadCommit c = .ok merged ∧
      rootOf merged = w.imageRoot base imp.ostreeV20243 (prep.layers.map (·.layer.digest)) ∧
      merged.metadata[metaFiltered]?
        = some (.filtered (w.imageFiltered base imp.ostreeV20243 prep.layers)) := by
  obtain ⟨m, s, hfetch, hmerge⟩ := bind_ok h
  rcases @mergeLayers_cases host lib imp m s with
    ⟨c', r'', root, objects, hrun, hmerges⟩ | ⟨e, r'', hrun, -⟩
  · cases hmerge.symm.trans hrun
    have haccrues : Accrues s r' := by
      refine ⟨hmerges.keeps, ?_⟩
      rw [hmerges.repo]
      exact List.prefix_append _ _
    obtain ⟨hcached', base, hfetched⟩ := fetchLayers_cached hhost hcached hfound hnamed habides
      hdelivers (hno.before haccrues) hfetch
    have hroot := hfetched.merged hhost hmerges
    obtain ⟨trace, htrace, htime⟩ := hfetched.timestamp
    have hstored := hmerges.stored (fun b hb => by
      refine hno _ base hfetched.stream trace (htrace.trans haccrues.history) _ _ b
        (.merge hfetched.metadata htime (by rw [← hroot])) ?_
      rw [← hmerges.result]
      exact haccrues.keeps.commits _ _ hb)
    refine ⟨hcached'.of_refs hmerges.keeps (fun d ref k href hk => ?_), m.baseCommit, base, _,
      hfetched.stream, hstored, hroot, ?_⟩
    · rcases hmerges.refs ref with heq | ⟨rfl, -⟩
      · exact heq.symm.trans hk
      · have himage := refUnder_of_escape (fetchLayers_ok hfetch).target
        exact absurd ((refUnder_of_escape href).symm.trans
          (refUnder_disjoint (List.mem_cons_self ..) himage)) (by simp)
    · show m.metadata[metaFiltered]? = _
      rw [hfetched.metadata, mergeMetadata, ExtTreeMap.lookup_insert, if_pos rfl]
  · cases hmerge.symm.trans hrun

/-- The state that an import returns is that of its merge commit. -/
theorem finishImport_queried {c : Checksum} {state : LayeredImageState}
    (h : imp.finishImport host c r = .ok state r') : queryImageCommit r' c = .ok state := by
  have hquery : ∀ {s : Repo}, (do liftR (queryImageCommit (← get) c) : RepoM LayeredImageState) s
      = .ok state r' → queryImageCommit r' c = .ok state := by
    intro s hrun
    rw [bind_of_ok (get_run s)] at hrun
    obtain ⟨hstate, rfl⟩ := liftR_eq_ok hrun
    exact hstate
  rw [ImageImporter.finishImport] at h
  dsimp only at h
  split at h
  · exact hquery h
  · obtain ⟨n, s, -, hrest⟩ := bind_ok h
    exact hquery hrest

/-- The end of an import adds nothing and records nothing. -/
theorem finishImport_accrues (lib : Libostree) (c : Checksum) :
    Steps Accrues (imp.finishImport host c) := by
  intro r
  have htrusts : Steps (Trusts lib "" "") (imp.finishImport host c) := finishImport_trusts c
  refine ⟨?_, (htrusts r).history⟩
  rw [(finishImport_unlinks c r).objects]
  exact Objects.Keeps.refl _

/-- **One import** that abides by the plan keeps to it, and stores the image as it is. -/
theorem importImage_cached {state : LayeredImageState} (hhost : host.In w)
    (hcached : w.Cached lib plan r) (hfound : w.Found lib plan prep r)
    (hnamed : ∀ layer ∈ prep.allLayers, refForLayer layer.layer = .ok layer.ostreeRef)
    (habides : prep.Abides plan imp.ostreeV20243) (hdelivers : imp.Delivers host w prep.manifest)
    (hno : w.NoClash lib host imp prep r')
    (h : imp.importImage host lib prep r = .ok state r') :
    w.Cached lib plan r' ∧ ∃ k base merged, w.Imported lib imp prep state r' k base merged := by
  obtain ⟨c, r₁, hmerged, hfinish⟩ := bind_ok h
  have hunlinks := (finishImport_unlinks c).of_ok hfinish
  have haccrues := (finishImport_accrues lib c).of_ok hfinish
  obtain ⟨hcached₁, k, base, merged, hstream, hstored, hroot, hfiltered⟩ := importMerged_cached hhost
    hcached hfound hnamed habides hdelivers (hno.before haccrues) hmerged
  have hstate : state.mergeCommit = c := by
    obtain ⟨_, _, _, hquery⟩ := queryImageCommit_iff.mp (finishImport_queried hfinish)
    exact hquery.mergeCommit
  refine ⟨hcached₁.unlinks hunlinks, k, base, merged, hstream, ?_, hroot, hfiltered⟩
  rw [hstate, Repo.loadCommit, hunlinks.objects]
  exact hstored

end Import

-- ── Histories ─────────────────────────────────────────────────────────────────

/-- `prepare` finds an image to fetch, and `import` fetches it. -/
def ImageImporter.Pulls (imp : ImageImporter) (host : Host) (lib : Libostree) (r : Repo)
    (prep : PreparedImport) (state : LayeredImageState) (r' : Repo) : Prop :=
  ∃ s, imp.prepare host r = .ok (.ready prep) s ∧ imp.importImage host lib prep s = .ok state r'

/-- The import takes place in this world, and by the plan. -/
structure World.Follows (w : World) (lib : Libostree) (plan : Digest → Use) (host : Host)
    (imp : ImageImporter) (prep : PreparedImport) (r' : Repo) : Prop where
  inWorld : host.In w
  delivers : imp.Delivers host w prep.manifest
  abides : prep.Abides plan imp.ostreeV20243
  noClash : w.NoClash lib host imp prep r'

/-- A repository that has seen imports by the plan, removals of images, and collections of
    garbage. -/
inductive World.History (w : World) (lib : Libostree) (plan : Digest → Use) : Repo → Prop where
  | empty : w.History lib plan {}
  | imported {host : Host} {imp : ImageImporter} {prep : PreparedImport}
      {state : LayeredImageState} {r r' : Repo} (h : w.History lib plan r)
      (hpulls : imp.Pulls host lib r prep state r')
      (hfollows : w.Follows lib plan host imp prep r') : w.History lib plan r'
  | removed {r : Repo} (img : ImageReference) (h : w.History lib plan r) :
      w.History lib plan (finalState (removeImage img r))
  | collected {r : Repo} (hash : HashOrder) (h : w.History lib plan r) :
      w.History lib plan (finalState (gcImageLayers hash r))

section History

variable {w : World} {lib : Libostree} {plan : Digest → Use} {host : Host} {imp : ImageImporter}
  {prep : PreparedImport} {state : LayeredImageState} {r r' : Repo}

/-- What `prepare` finds is stored as planned. -/
theorem World.Cached.prepared {s : Repo} (h : w.Cached lib plan r)
    (hprepare : imp.prepare host r = .ok (.ready prep) s) :
    w.Cached lib plan s ∧ w.Found lib plan prep s ∧
      ∀ layer ∈ prep.allLayers, refForLayer layer.layer = .ok layer.ostreeRef ∧
        layer.commit = r.refs[layer.ostreeRef]? := by
  have hsame := prepare_same host imp r
  rw [hprepare] at hsame
  obtain ⟨_, _, _, hlaid⟩ := (prepare_eq_ready hprepare).created.laidOut
  have hcached : w.Cached lib plan s := by
    refine h.of_refs ?_ (fun d ref c _ hc => hsame.refs ▸ hc)
    rw [← finalState_ok (ε := Stop) (PrepareResult.ready prep) s, hsame.objects]
    exact Objects.Keeps.refl _
  refine ⟨hcached, fun layer hlayer c hc => ?_, fun layer hlayer => ?_⟩
  · obtain ⟨-, href, hquery⟩ := queryLayer_eq_ok (hlaid.queried hlayer)
    exact hcached _ _ c href (hquery.symm.trans hc)
  · obtain ⟨-, href, hquery⟩ := queryLayer_eq_ok (hlaid.queried hlayer)
    exact ⟨href, hquery.trans (by rw [← hsame.refs]; rfl)⟩

/-- **One more import** by the plan. -/
theorem World.Cached.pulled (h : w.Cached lib plan r) (hpulls : imp.Pulls host lib r prep state r')
    (hfollows : w.Follows lib plan host imp prep r') :
    w.Cached lib plan r' ∧ ∃ k base merged, w.Imported lib imp prep state r' k base merged := by
  obtain ⟨s, hprepare, himport⟩ := hpulls
  obtain ⟨hcached, hfound, hlayers⟩ := h.prepared hprepare
  exact importImage_cached hfollows.inWorld hcached hfound (fun layer hlayer => (hlayers layer hlayer).1)
    hfollows.abides hfollows.delivers hfollows.noClash himport

/-- **Every blob that is stored** after such a history is stored as planned. -/
theorem World.History.cached (h : w.History lib plan r) : w.Cached lib plan r := by
  induction h with
  | empty => exact .empty
  | imported _ hpulls hfollows ih => exact (ih.pulled hpulls hfollows).1
  | removed img _ ih =>
      obtain ⟨hobjects, hrefs⟩ := removeImage_refs img _
      refine ih.of_refs (hobjects ▸ Objects.Keeps.refl _) (fun d ref c _ hc => ?_)
      rcases hrefs ref with heq | ⟨-, hnone⟩
      · exact heq.symm.trans hc
      · exact absurd (hc.symm.trans hnone) (by simp)
  | collected hash _ ih => exact ih.unlinks (gcImageLayers_unlinks hash _)

/-- **What an import stores is a function of the image**, whatever the repository has seen. -/
theorem import_root (h : w.History lib plan r) (hpulls : imp.Pulls host lib r prep state r')
    (hfollows : w.Follows lib plan host imp prep r') :
    ∃ k base merged, w.Imported lib imp prep state r' k base merged :=
  (h.cached.pulled hpulls hfollows).2

end History

-- ── Two histories ─────────────────────────────────────────────────────────────

section Filtered

variable {w : World} {base : Commit} {v : Bool}

/-- The counts of an image hold the non-empty counts of the layers that are not there. -/
theorem lookup_imageFiltered {layers : List ManifestLayerState} {d : Digest}
    {filtered : ExtTreeMap String Nat} :
    (w.imageFiltered base v layers)[d]? = some filtered ↔
      filtered = w.layerFiltered base v d ∧ filtered.isEmpty = false ∧
        ∃ layer ∈ layers, layer.layer.digest = d ∧ layer.commit = none := by
  induction layers using List.reverseRecOn with
  | nil =>
      rw [World.imageFiltered, List.foldl_nil, ExtTreeMap.lookup_empty]
      simp
  | append_singleton layers layer ih =>
      have hmem : (∃ l ∈ layers ++ [layer], l.layer.digest = d ∧ l.commit = none) ↔
          (∃ l ∈ layers, l.layer.digest = d ∧ l.commit = none) ∨
            layer.layer.digest = d ∧ layer.commit = none := by
        simp only [List.mem_append, List.mem_singleton, or_and_right, exists_or, exists_eq_left]
      rw [World.imageFiltered] at ih
      rw [hmem, World.imageFiltered, List.foldl_append, List.foldl_cons, List.foldl_nil,
        World.addFiltered]
      cases hcommit : layer.commit with
      | some c =>
          rw [Option.isSome_some, if_pos rfl, ih]
          simp
      | none =>
          rw [Option.isSome_none, if_neg (by simp)]
          dsimp only
          cases hempty : (w.layerFiltered base v layer.layer.digest).isEmpty with
          | true =>
              rw [if_pos rfl, ih]
              constructor
              · rintro ⟨heq, hfiltered, hlayer⟩
                exact ⟨heq, hfiltered, .inl hlayer⟩
              · rintro ⟨heq, hfiltered, hlayer | ⟨rfl, -⟩⟩
                · exact ⟨heq, hfiltered, hlayer⟩
                · rw [heq, hempty] at hfiltered
                  exact absurd hfiltered (by simp)
          | false =>
              rw [if_neg (by simp), ExtTreeMap.lookup_insert]
              by_cases hd : layer.layer.digest = d
              · subst hd
                rw [if_pos rfl, Option.some.injEq]
                constructor
                · rintro rfl
                  exact ⟨rfl, hempty, .inr ⟨rfl, rfl⟩⟩
                · exact fun h => h.1.symm
              · rw [if_neg hd, ih]
                simp [hd]

end Filtered

section Transparent

variable {w : World} {lib : Libostree} {plan : Digest → Use} {host₁ host₂ : Host}
  {imp : ImageImporter} {prep₁ prep₂ : PreparedImport} {state₁ state₂ : LayeredImageState}
  {r₁ r₂ s₁ s₂ r₁' r₂' : Repo}

/-- Two preparations of one image find the same layers, each with what its repository has. -/
structure SameLayer (r₁ r₂ : Repo) (a b : ManifestLayerState) : Prop where
  layer : a.layer = b.layer
  ostreeRef : a.ostreeRef = b.ostreeRef
  named : refForLayer a.layer = .ok a.ostreeRef
  left : a.commit = r₁.refs[a.ostreeRef]?
  right : b.commit = r₂.refs[b.ostreeRef]?

theorem queryLayer_same {l : Descriptor} {a b : ManifestLayerState}
    (ha : queryLayer r₁ l = .ok a) (hb : queryLayer r₂ l = .ok b) : SameLayer r₁ r₂ a b := by
  obtain ⟨hla, hra, hca⟩ := queryLayer_eq_ok ha
  obtain ⟨hlb, hrb, hcb⟩ := queryLayer_eq_ok hb
  exact ⟨hla.trans hlb.symm, Except.ok.inj (hra.symm.trans hrb), hla ▸ hra, hca, hcb⟩

theorem queryLayers_same {layers : List Descriptor} {as bs : List ManifestLayerState}
    (ha : layers.mapM (queryLayer r₁) = .ok as) (hb : layers.mapM (queryLayer r₂) = .ok bs) :
    List.Forall₂ (SameLayer r₁ r₂) as bs := by
  induction layers generalizing as bs with
  | nil =>
      cases ha
      cases hb
      exact .nil
  | cons l layers ih =>
      rw [List.mapM_cons] at ha hb
      obtain ⟨a, hone, ha⟩ := result_bind_eq_ok.mp ha
      obtain ⟨as', hrest, ha⟩ := result_bind_eq_ok.mp ha
      obtain ⟨b, hone', hb⟩ := result_bind_eq_ok.mp hb
      obtain ⟨bs', hrest', hb⟩ := result_bind_eq_ok.mp hb
      cases ha
      cases hb
      exact .cons (queryLayer_same hone hone') (ih hrest hrest')

theorem prepare_sameLayers (h₁ : imp.prepare host₁ r₁ = .ok (.ready prep₁) s₁)
    (h₂ : imp.prepare host₂ r₂ = .ok (.ready prep₂) s₂) :
    prep₁.ostreeCommitLayer.layer = prep₂.ostreeCommitLayer.layer ∧
      List.Forall₂ (SameLayer r₁ r₂) prep₁.layers prep₂.layers := by
  have hup₁ := prepare_eq_ready h₁
  have hup₂ := prepare_eq_ready h₂
  have hrefs₁ := (prepare_same host₁ imp r₁).refs
  have hrefs₂ := (prepare_same host₂ imp r₂).refs
  rw [h₁, finalState_ok] at hrefs₁
  rw [h₂, finalState_ok] at hrefs₂
  obtain ⟨_, _, _, hlaid₁⟩ := hup₁.created.laidOut
  obtain ⟨_, _, _, hlaid₂⟩ := hup₂.created.laidOut
  obtain ⟨-, hmanifest⟩ := Prod.mk.inj (Except.ok.inj (hup₁.served.symm.trans hup₂.served))
  have hconfig := Except.ok.inj (hup₁.config.symm.trans hup₂.config)
  have hlayout := hlaid₁.layout
  rw [hmanifest, hconfig, hlaid₂.layout] at hlayout
  obtain ⟨rfl, hrest⟩ := Prod.mk.inj (Except.ok.inj hlayout)
  obtain ⟨rfl, rfl⟩ := Prod.mk.inj hrest
  refine ⟨(queryLayer_same hlaid₁.commitLayer hlaid₂.commitLayer).layer, ?_⟩
  refine (queryLayers_same hlaid₁.layers hlaid₂.layers).imp (fun a b hab => ?_)
  exact ⟨hab.layer, hab.ostreeRef, hab.named, hrefs₁ ▸ hab.left, hrefs₂ ▸ hab.right⟩

/-- The counts of two imports are the same if the layers with filtered content were either there
    for both of them, or for neither. -/
theorem imageFiltered_eq_iff {base : Commit} {v : Bool}
    (h : List.Forall₂ (SameLayer r₁ r₂) prep₁.layers prep₂.layers) :
    w.imageFiltered base v prep₁.layers = w.imageFiltered base v prep₂.layers ↔
      ∀ layer ∈ prep₁.layers, (w.layerFiltered base v layer.layer.digest).isEmpty = false →
        (layer.ostreeRef ∈ r₁.refs ↔ layer.ostreeRef ∈ r₂.refs) := by
  -- in terms of the layers of the first import
  have hnone : ∀ {r : Repo} {ref : String} {o : Option Checksum}, o = r.refs[ref]? →
      (o = none ↔ ref ∉ r.refs) := by
    rintro r ref _ rfl
    rw [ExtTreeMap.mem_iff_lookup]
    cases r.refs[ref]? <;> simp
  have hleft : ∀ d, (∃ layer ∈ prep₁.layers, layer.layer.digest = d ∧ layer.commit = none) ↔
      ∃ layer ∈ prep₁.layers, layer.layer.digest = d ∧ layer.ostreeRef ∉ r₁.refs := by
    intro d
    refine exists_congr (fun a => and_congr_right (fun ha => and_congr_right (fun _ => ?_)))
    obtain ⟨b, -, hab⟩ := forall₂_mem_left h ha
    exact hnone hab.left
  have hright : ∀ d, (∃ layer ∈ prep₂.layers, layer.layer.digest = d ∧ layer.commit = none) ↔
      ∃ layer ∈ prep₁.layers, layer.layer.digest = d ∧ layer.ostreeRef ∉ r₂.refs := by
    intro d
    constructor
    · rintro ⟨b, hb, hd, hcommit⟩
      obtain ⟨a, ha, hab⟩ := forall₂_mem_right h hb
      exact ⟨a, ha, by rw [hab.layer, hd], hab.ostreeRef ▸ (hnone hab.right).mp hcommit⟩
    · rintro ⟨a, ha, hd, href⟩
      obtain ⟨b, hb, hab⟩ := forall₂_mem_left h ha
      exact ⟨b, hb, by rw [← hab.layer, hd], (hnone hab.right).mpr (hab.ostreeRef ▸ href)⟩
  -- layers with one digest have one ref
  have hsame : ∀ a ∈ prep₁.layers, ∀ b ∈ prep₁.layers, a.layer.digest = b.layer.digest →
      a.ostreeRef = b.ostreeRef := by
    intro a ha b hb hd
    obtain ⟨_, -, hab⟩ := forall₂_mem_left h ha
    obtain ⟨_, -, hab'⟩ := forall₂_mem_left h hb
    have hnamed := hab.named
    rw [refForLayer, hd] at hnamed
    exact Except.ok.inj (hnamed.symm.trans hab'.named)
  constructor
  · intro heq a ha hfiltered
    have hd := fun f => @lookup_imageFiltered w base v prep₁.layers a.layer.digest f
    have hd' := fun f => @lookup_imageFiltered w base v prep₂.layers a.layer.digest f
    rw [heq] at hd
    have hiff := ((hd _).symm.trans (hd' (w.layerFiltered base v a.layer.digest)))
    simp only [hfiltered, true_and, hleft, hright] at hiff
    refine not_iff_not.mp ⟨fun hnot => ?_, fun hnot => ?_⟩
    · obtain ⟨b, hb, hdigest, href⟩ := hiff.mp ⟨a, ha, rfl, hnot⟩
      rw [hsame a ha b hb hdigest.symm]
      exact href
    · obtain ⟨b, hb, hdigest, href⟩ := hiff.mpr ⟨a, ha, rfl, hnot⟩
      rw [hsame a ha b hb hdigest.symm]
      exact href
  · intro hall
    refine ExtTreeMap.ext_getElem? (fun {d} => Option.ext (fun f => ?_))
    rw [lookup_imageFiltered, lookup_imageFiltered, hleft, hright]
    refine and_congr_right (fun heq => and_congr_right (fun hfiltered => ?_))
    refine exists_congr (fun a => and_congr_right (fun ha => and_congr_right (fun hd => ?_)))
    rw [heq, ← hd] at hfiltered
    exact not_congr (hall a ha hfiltered)

end Transparent

/-- The world of the sample image: each archive is that of the sample commit. -/
def sampleWorld : World where
  tar := sampleBuilder
  objects _ := sampleBlob
  entries _ := []
  commitTar base _ := base
  mergeTrees base _ _ := base
  overlayfsRootEnabled _ := false

theorem sampleHost_in : sampleHost.In sampleWorld where
  tar := rfl
  commitTar := by
    rintro o base es p h
    cases h
    rfl
  mergeTrees := by
    rintro o base layers derived p h
    cases h
    rfl
  overlayfsRootEnabled := by
    rintro o commit b h
    cases h
    rfl

theorem streamCommit_sampleBlob :
    streamCommit sampleTables.lib sampleBlob = some (sampleCommitSum, sampleCommit) := by
  obtain ⟨r₁, himport, -, hcommits, -⟩ := sampleLayer_imported {}
  obtain ⟨base, hstream, -⟩ := importCommitLayer_stores himport
  obtain ⟨w, hcommit, -, -, hwritten, -⟩ := sampleBlob_imported {}
  obtain ⟨c, commit, r₂, hstream', -, hadds, hadds'⟩ := importCommit_adds hcommit
  rw [hstream] at hstream'
  obtain ⟨rfl, rfl⟩ := Prod.mk.inj (Option.some.inj hstream')
  have hlookup : w.repo.commits[sampleCommitSum]? = some base := by
    rw [hadds'.commits, hadds.commits, ExtTreeMap.lookup_insertIfNew, if_pos rfl,
      ExtTreeMap.lookup_empty]
    rfl
  rw [hwritten, ExtTreeMap.lookup_insertIfNew, if_pos rfl, ExtTreeMap.lookup_empty] at hlookup
  rw [hstream, ← Option.some.inj hlookup]

/-- The sample image without its derived layers, whatever was found of it. -/
structure SamplePrep (prep : PreparedImport) : Prop where
  manifestDigest : prep.manifestDigest = sampleManifestDigest
  manifest : prep.manifest = sampleManifest
  config : prep.config = storedConfig
  commitLayer : prep.ostreeCommitLayer.layer = sampleLayer
  ostreeLayers : prep.ostreeLayers = []
  layers : prep.layers = []

theorem SampleStored.follows {prep : PreparedImport} {r : Repo} (hprep : SamplePrep prep)
    (hstored : SampleStored r) : sampleWorld.Follows sampleTables.lib (fun _ => .commit) sampleHost
      (sampleImporter false) prep r where
  inWorld := sampleHost_in
  delivers _ _ _ _ _ _ _ _ _ := ⟨rfl, rfl⟩
  abides := by
    refine ⟨rfl, fun layer hlayer => ?_, fun layer hlayer => ?_⟩
    · rw [hprep.ostreeLayers] at hlayer
      exact absurd hlayer List.not_mem_nil
    · rw [hprep.layers] at hlayer
      exact absurd hlayer List.not_mem_nil
  noClash := by
    intro c base hstream trace _ k commit b hwrites hb
    obtain ⟨rfl, rfl⟩ := Prod.mk.inj (Option.some.inj (streamCommit_sampleBlob.symm.trans hstream))
    cases hwrites with
    | base =>
        rw [hstored.commits, ExtTreeMap.lookup_insertIfNew, ExtTreeMap.lookup_insertIfNew,
          ExtTreeMap.lookup_empty, if_pos rfl] at hb
        exact (Option.some.inj hb).symm
    | layer hlayer _ =>
        rw [hprep.layers] at hlayer
        exact absurd hlayer List.not_mem_nil
    | @merge m _ hmeta htime h =>
        have hmetadata : m.metadata = sampleMerge.metadata := by
          rw [hmeta, hprep.layers, mergeMetadata, hprep.manifestDigest, hprep.manifest, hprep.config]
          rfl
        have htimestamp : m.timestamp = 0 := by
          rw [htime, timestampOfManifestOrConfig]
          cases _ : ((prep.manifest.annotations.bind
            (·["org.opencontainers.image.created"]?)).or prep.config.created) <;> rfl
        have hmerge : commit = sampleMerge := by
          rw [h, Store.mergeCommit, hmetadata, htimestamp]
          rfl
        rw [hmerge, commitChecksum_sampleMerge] at hb
        have hloaded := hstored.mergeCommit
        rw [Repo.loadCommit, hb] at hloaded
        rw [hmerge]
        exact Except.ok.inj hloaded

/-- What `prepare` returns where the image is not there, but its layer is. -/
def sampleCachedPrep : PreparedImport :=
  { samplePrep with ostreeCommitLayer :=
      { layer := sampleLayer, ostreeRef := sampleLayerRef, commit := some sampleCommitSum } }

/-- The image was removed, and its layer left behind. -/
structure SampleRemoved (r : Repo) : Prop where
  refs : r.refs = (∅ : ExtTreeMap String Checksum).insert sampleLayerRef sampleCommitSum
  commits : r.commits = ((∅ : ExtTreeMap Checksum Commit).insertIfNew sampleCommitSum
    sampleCommit).insertIfNew emptySha256 sampleMerge
  commitmetas : r.commitmetas = ∅

section SampleRemoved

variable {r : Repo}

theorem SampleStored.removed (h : SampleStored r) (hmetas : r.commitmetas = ∅) :
    SampleRemoved (finalState (removeImage sampleImage r)) := by
  have hin : sampleImageRef ∈ r.refs := by
    rw [ExtTreeMap.mem_iff_lookup]
    exact ⟨_, h.lookup.mpr (.inl ⟨rfl, rfl⟩)⟩
  have himageRef : refForImage sampleImage = .ok sampleImageRef := refForImage_sample
  rw [removeImage_run himageRef hin, finalState_ok]
  refine ⟨ExtTreeMap.ext_getElem? (fun {ref} => ?_), h.commits, hmetas⟩
  have hne : sampleImageRef ≠ sampleLayerRef := by decide +kernel
  rw [ExtTreeMap.lookup_erase, h.refs, ExtTreeMap.lookup_insert, ExtTreeMap.lookup_insert,
    ExtTreeMap.lookup_empty]
  by_cases himage : sampleImageRef = ref
  · subst himage
    simp [hne.symm]
  · simp [himage]

theorem SampleRemoved.lookup (h : SampleRemoved r) :
    r.refs[sampleImageRef]? = none ∧ r.refs[sampleLayerRef]? = some sampleCommitSum := by
  rw [h.refs, ExtTreeMap.lookup_insert, ExtTreeMap.lookup_insert, ExtTreeMap.lookup_empty,
    if_neg (by decide +kernel), if_pos rfl]
  exact ⟨rfl, rfl⟩

theorem SampleRemoved.prepare (h : SampleRemoved r) :
    (sampleImporter false).prepare sampleHost r = .ok (.ready sampleCachedPrep) r := by
  obtain ⟨himage, hlayer⟩ := h.lookup
  have hquery : tryQueryImage r sampleImage = .ok none := by
    have href : refForImage sampleImage = .ok sampleImageRef := refForImage_sample
    rw [tryQueryImage, href, bind_ok_eq, resolveRev_of_escape escape_sampleImageRef, himage]
  have hcommit : queryLayer r sampleLayer = .ok sampleCachedPrep.ostreeCommitLayer := by
    have href : refForLayer sampleLayer = .ok sampleLayerRef := refForLayer_sample
    rw [queryLayer, href, bind_ok_eq, resolveRev_of_escape escape_sampleLayerRef, hlayer]
    rfl
  refine prepare_of_absent rfl rfl hquery rfl ?_
  rw [ImageImporter.createPreparedImport, if_neg (by simp [sampleImporter]), bind_ok_eq,
    parseManifestLayout_stored, bind_ok_eq]
  dsimp only
  rw [hcommit, bind_ok_eq]
  rfl

/-- The layer is not fetched, and the image is what it was. -/
theorem SampleRemoved.imported (h : SampleRemoved r) : ∃ r',
    (sampleImporter false).importImage sampleHost sampleTables.lib sampleCachedPrep r
      = .ok (sampleState none) r' ∧ SampleStored r' := by
  have hload : r.loadCommit sampleCommitSum = .ok sampleCommit := by
    rw [Repo.loadCommit, h.commits, ExtTreeMap.lookup_insertIfNew, ExtTreeMap.lookup_insertIfNew,
      ExtTreeMap.lookup_empty, if_pos rfl]
    rfl
  have hthere : (sampleImporter false).fetchCommitLayer sampleHost sampleTables.lib
      sampleCachedPrep.manifest none none true sampleCachedPrep.ostreeCommitLayer r
      = .ok { sampleCachedPrep.ostreeCommitLayer with commit := some sampleCommitSum } r := rfl
  have hfetch : (sampleImporter false).fetchLayers sampleHost sampleTables.lib sampleCachedPrep r
      = .ok sampleInput r :=
    fetchLayers_run rfl rfl rfl (fun _ => rfl) hthere hload rfl refForImage_sample rfl rfl
  have htrees : sampleHost.mergeTrees r.toObjects (rootOf sampleCommit)
      (([] : List Commit).map rootOf) sampleInput.haveDerivedLayers
        = .ok (rootOf sampleCommit, r.toObjects) := rfl
  have hmerge := @mergeLayers_run sampleHost sampleTables.lib (sampleImporter false)
    sampleInput r sampleCommit [] (rootOf sampleCommit) r.toObjects hload rfl htrees
  have hcommit : Store.mergeCommit sampleInput (rootOf sampleCommit) = sampleMerge := rfl
  rw [hcommit, commitChecksum_sampleMerge] at hmerge
  have hstored : SampleStored ((sampleImporter false).mergedRepo sampleTables.lib sampleInput
      (rootOf sampleCommit) r.toObjects r) := by
    rw [ImageImporter.mergedRepo, hcommit, commitChecksum_sampleMerge]
    constructor
    · show r.refs.insert sampleImageRef emptySha256 = _
      rw [h.refs]
    · show r.commits.insertIfNew emptySha256 sampleMerge = _
      rw [h.commits]
      refine ExtTreeMap.ext_getElem? (fun {c} => ?_)
      rw [ExtTreeMap.lookup_insertIfNew, ExtTreeMap.lookup_insertIfNew]
      rw [Option.or_assoc, Option.or_self]
  refine ⟨_, ?_, hstored⟩
  have hupdate : cachedUpdateOf ((sampleImporter false).mergedRepo sampleTables.lib sampleInput
      (rootOf sampleCommit) r.toObjects r) emptySha256 = .ok none := by
    have hcm : r.commitmetas[emptySha256]? = none := by
      rw [h.commitmetas]
      exact ExtTreeMap.lookup_empty _
    show cachedUpdateOf r emptySha256 = _
    rw [cachedUpdateOf, hcm]
  rw [ImageImporter.importImage, ImageImporter.importMerged, bind_assoc, bind_of_ok hfetch,
    bind_of_ok hmerge, ImageImporter.finishImport]
  show (do
    let _ ← gcImageLayers sampleHost.hash
    liftR (queryImageCommit (← get) emptySha256) : RepoM LayeredImageState) _ = _
  rw [bind_of_ok (hstored.collected _), bind_of_ok (get_run _), hstored.query hupdate]
  rfl

end SampleRemoved

end OstreeExt.Store
