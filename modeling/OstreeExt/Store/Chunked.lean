import OstreeExt.Encapsulate
import OstreeExt.Store.Layer
import OstreeExt.Tar.Complete

/-!
# The chunks of a stored image

A stored chunk layer is a commit whose files are named by their own checksums;
`chunking_from_layer_committed` reads the names and moves the objects out of a fresh
chunking.  `chunks_survive` says that this gives back the chunks that were exported.
-/

namespace OstreeExt.Store

open OstreeExt Tar Exec Objects

/-- `read_commit`: the root directory of a commit. -/
def readCommit (repo : Repo) (rev : String) : Result DirTree := do
  let rev ← repo.requireRev rev
  let commit ← repo.loadCommit rev
  let root ← repo.loadDirtree commit.contents
  let _ ← repo.loadDirmeta commit.dirmeta
  .ok root

/-- `enumerate_children`: the names of a directory; the info of each child is loaded. -/
def enumerateChildren (repo : Repo) (root : DirTree) : Result (List String) := do
  let files ← root.files.mapM fun f => (repo.loadFile f.2).map fun _ => f.1
  let dirs ← root.dirs.mapM fun s => (repo.loadDirmeta s.2.2).map fun _ => s.1
  .ok (files ++ dirs)

/-- `ostree::validate_checksum_string` -/
def validateChecksumString (name : String) : Result Unit :=
  if IsSha256 name then .ok () else .error (.err ("Invalid rev '" ++ name ++ "'"))

/-- `chunking_from_layer_committed` -/
def chunkingFromLayerCommitted (repo : Repo) (chunking : Chunking) (l : Descriptor) :
    Result Chunking := do
  let layerRef ← refForLayer l
  let root ← readCommit repo layerRef
  let names ← enumerateChildren repo root
  let _ ← names.mapM validateChecksumString
  let (remainder, chunk) := chunking.remainder.moveObjs {} names
  .ok { chunking with remainder, chunks := chunking.chunks ++ [chunk] }

section Definitions

variable (lib : Libostree) (tar : TarCrate) (blobs : BlobWriter) (src : Repo)

/-- A chunk is exported to a layer, and the layer is imported as an object set. -/
def storeChunk (c : Checksum) (chunk : Chunk) : RepoM Descriptor := do
  let es ← liftR (exportChunk lib tar src c chunk.content)
  let layer := (blobs.layer es).descriptor none
  let targetRef ← liftR (refForLayer layer)
  let _ ← importChunkLayer lib true targetRef (es.map Except.ok)
  pure layer

/-- All chunks in order. -/
def storeChunks (c : Checksum) (chunks : List Chunk) : RepoM (List Descriptor) :=
  chunks.mapM (storeChunk lib tar blobs src c)

end Definitions

-- ── Names and digests ─────────────────────────────────────────────────────────

/-- A digest of this form has a ref. -/
theorem refForLayer_ok (blobs : BlobWriter) (es : List Entry) (annotations : Option StrMap) :
    ∃ r, refForLayer ((blobs.layer es).descriptor annotations) = .ok r := by
  refine prefixEscapeForRef_ok _ ?_ ?_
  · intro h
    have hlen := congrArg (fun s : String => s.toList.length) h
    simp [Layer.descriptor] at hlen
  · intro h
    have hmem : '\x00' ∈ "sha256:".toList ++ (blobs.layer es).sha256.toList := by
      rw [← String.toList_append]
      exact h
    rcases List.mem_append.mp hmem with hmem | hmem
    · exact absurd hmem (by decide)
    · exact absurd ((blobs.sha256_isSha256 es).2 _ hmem) (by decide)

/-- Equal refs come from equal digests. -/
theorem sha256_eq_of_refForLayer {blobs : BlobWriter} {es es' : List Entry}
    {a a' : Option StrMap} {r : String}
    (h : refForLayer ((blobs.layer es).descriptor a) = .ok r)
    (h' : refForLayer ((blobs.layer es').descriptor a') = .ok r) :
    (blobs.layer es).sha256 = (blobs.layer es').sha256 := by
  have hd : "sha256:" ++ (blobs.layer es).sha256 = "sha256:" ++ (blobs.layer es').sha256 :=
    prefixEscapeForRef_inj h h'
  have hl := congrArg String.toList hd
  rw [String.toList_append, String.toList_append] at hl
  exact String.toList_inj.mp (List.append_cancel_left hl)

/-- The object set of a chunk. -/
def keyTree (m : ChunkMapping) : Std.ExtTreeSet Checksum := .ofList (m.toList.map (·.1))

theorem mem_keyTree {m : ChunkMapping} {x : Checksum} : x ∈ keyTree m ↔ x ∈ m := by
  rw [← mem_keySet, keySet, List.mem_toFinset, keyTree, Std.ExtTreeSet.mem_ofList]
  simp

theorem eq_keyTree {m : ChunkMapping} {s : Std.ExtTreeSet Checksum} (h : ∀ x, x ∈ s ↔ x ∈ m) :
    s = keyTree m := by
  apply Std.ExtTreeSet.ext_mem
  intro x
  rw [h, mem_keyTree]

-- ── What storing a chunk leaves behind ────────────────────────────────────────

/-- The synthetic commit of a chunk is stored under a ref. -/
structure HoldsChunk (lib : Libostree) (r : Repo) (ref : String) (m : ChunkMapping) : Prop where
  ref : r.refs[ref]? = some (lib.commitChecksum (objectSetCommit lib (keyTree m)))
  commit : r.commits[lib.commitChecksum (objectSetCommit lib (keyTree m))]?
    = some (objectSetCommit lib (keyTree m))
  dirtree : r.dirtrees[lib.dirtreeChecksum (objectSetTree (keyTree m))]?
    = some (objectSetTree (keyTree m))
  dirmeta : lib.dirmetaChecksum defaultDirmeta ∈ r.dirmetas

/-- Nothing else is stored under the checksums of a chunk's synthetic commit. -/
structure NoCollision (lib : Libostree) (r : Repo) (m : ChunkMapping) : Prop where
  commit : ∀ k, r.commits[lib.commitChecksum (objectSetCommit lib (keyTree m))]? = some k →
    k = objectSetCommit lib (keyTree m)
  dirtree : ∀ d, r.dirtrees[lib.dirtreeChecksum (objectSetTree (keyTree m))]? = some d →
    d = objectSetTree (keyTree m)

/-- The checksums tell the synthetic commits of two chunks apart. -/
def SumsDistinct (lib : Libostree) (m m' : ChunkMapping) : Prop :=
  (lib.commitChecksum (objectSetCommit lib (keyTree m))
      = lib.commitChecksum (objectSetCommit lib (keyTree m')) →
    objectSetCommit lib (keyTree m) = objectSetCommit lib (keyTree m')) ∧
  (lib.dirtreeChecksum (objectSetTree (keyTree m))
      = lib.dirtreeChecksum (objectSetTree (keyTree m')) →
    objectSetTree (keyTree m) = objectSetTree (keyTree m'))

/-- The effect of storing a chunk on refs and metadata objects. -/
structure StoresChunk (lib : Libostree) (ref : String) (m : ChunkMapping) (r r' : Repo) : Prop where
  refs : r'.refs = r.refs.insert ref (lib.commitChecksum (objectSetCommit lib (keyTree m)))
  commits : r'.commits = r.commits.insertIfNew
    (lib.commitChecksum (objectSetCommit lib (keyTree m))) (objectSetCommit lib (keyTree m))
  dirtrees : r'.dirtrees = r.dirtrees.insertIfNew
    (lib.dirtreeChecksum (objectSetTree (keyTree m))) (objectSetTree (keyTree m))
  dirmetas : r'.dirmetas = r.dirmetas.insertIfNew (lib.dirmetaChecksum defaultDirmeta)
    defaultDirmeta
  files : ∀ (k : Checksum) v, r.files[k]? = some v → r'.files[k]? = some v

/-- A value stored with `insertIfNew` is there, unless another one was before. -/
theorem lookup_insertIfNew_self {α : Type} {m : Std.ExtTreeMap Checksum α} {k : Checksum} {a : α}
    (h : ∀ b, m[k]? = some b → b = a) : (m.insertIfNew k a)[k]? = some a := by
  rw [Std.ExtTreeMap.lookup_insertIfNew, if_pos rfl]
  cases hm : m[k]? with
  | none => rfl
  | some b => rw [h b hm]; rfl

theorem lookup_insertIfNew_old {α : Type} {m : Std.ExtTreeMap Checksum α} {k x : Checksum} {a b : α}
    (h : m[x]? = some b) : (m.insertIfNew k a)[x]? = some b := by
  rw [Std.ExtTreeMap.lookup_insertIfNew, h]
  rfl

theorem eq_of_lookup_insertIfNew {α : Type} {m : Std.ExtTreeMap Checksum α} {k x : Checksum}
    {a b : α} (h : (m.insertIfNew k a)[x]? = some b) : m[x]? = some b ∨ (k = x ∧ b = a) := by
  rw [Std.ExtTreeMap.lookup_insertIfNew] at h
  cases hm : m[x]? with
  | some c => rw [hm] at h; exact .inl h
  | none =>
      rw [hm, Option.none_or] at h
      by_cases hk : k = x
      · rw [if_pos hk] at h
        exact .inr ⟨hk, (Option.some.inj h).symm⟩
      · rw [if_neg hk] at h
        exact absurd h (by simp)

section Stores

variable {lib : Libostree} {ref ref' : String} {m b : ChunkMapping} {r r' : Repo}

theorem StoresChunk.holds (h : StoresChunk lib ref m r r') (hno : NoCollision lib r m) :
    HoldsChunk lib r' ref m where
  ref := by rw [h.refs, Std.ExtTreeMap.lookup_insert, if_pos rfl]
  commit := by rw [h.commits]; exact lookup_insertIfNew_self hno.commit
  dirtree := by rw [h.dirtrees]; exact lookup_insertIfNew_self hno.dirtree
  dirmeta := by rw [h.dirmetas]; exact Std.ExtTreeMap.mem_insertIfNew_iff.mpr (.inr rfl)

/-- Storing a chunk loses no object. -/
theorem StoresChunk.keepsObjects (h : StoresChunk lib ref m r r') :
    r.toObjects.Keeps r'.toObjects where
  commits k v hk := by rw [h.commits]; exact lookup_insertIfNew_old hk
  dirtrees k v hk := by rw [h.dirtrees]; exact lookup_insertIfNew_old hk
  dirmetas k v hk := by rw [h.dirmetas]; exact lookup_insertIfNew_old hk
  files := h.files

theorem StoresChunk.noCollision (h : StoresChunk lib ref m r r') (hno : NoCollision lib r b)
    (hd : SumsDistinct lib m b) : NoCollision lib r' b where
  commit := by
    intro k hk
    rw [h.commits] at hk
    rcases eq_of_lookup_insertIfNew hk with hk | ⟨heq, rfl⟩
    · exact hno.commit k hk
    · exact hd.1 heq
  dirtree := by
    intro d hk
    rw [h.dirtrees] at hk
    rcases eq_of_lookup_insertIfNew hk with hk | ⟨heq, rfl⟩
    · exact hno.dirtree d hk
    · exact hd.2 heq

/-- A chunk that was stored before stays, also where two chunks share a ref. -/
theorem StoresChunk.keeps (h : StoresChunk lib ref m r r') (hb : HoldsChunk lib r ref' b)
    (heq : ref = ref' → keyTree m = keyTree b) : HoldsChunk lib r' ref' b where
  ref := by
    rw [h.refs, Std.ExtTreeMap.lookup_insert]
    by_cases hr : ref = ref'
    · rw [if_pos hr, heq hr]
    · rw [if_neg hr]
      exact hb.ref
  commit := by rw [h.commits]; exact lookup_insertIfNew_old hb.commit
  dirtree := by rw [h.dirtrees]; exact lookup_insertIfNew_old hb.dirtree
  dirmeta := by rw [h.dirmetas]; exact Std.ExtTreeMap.mem_insertIfNew_iff.mpr (.inl hb.dirmeta)

end Stores

section Store

variable {lib : Libostree} {tar : TarCrate} {blobs : BlobWriter} {src : Repo} {c : Checksum}
  {commit : Commit}

/-- The layer that a chunk is exported to. -/
def chunkLayer (lib : Libostree) (tar : TarCrate) (blobs : BlobWriter) (src : Repo) (c : Checksum)
    (m : ChunkMapping) : Descriptor :=
  (blobs.layer (chunkStream lib tar src c m)).descriptor none

/-- One chunk is stored. -/
theorem storeChunk_run (hs : StoredCommit lib src c commit) (htar : tar.KeepsLinks) {chunk : Chunk}
    (hsound : ChunkSound lib src.toObjects (fun f => src.CommitReaches commit .file f) chunk.content)
    {ref : String} (href : refForLayer (chunkLayer lib tar blobs src c chunk.content) = .ok ref)
    (r : Repo) :
    ∃ r', storeChunk lib tar blobs src c chunk r
        = .ok (chunkLayer lib tar blobs src c chunk.content) r' ∧
      StoresChunk lib ref chunk.content r r' := by
  obtain ⟨es, imp, hexport, himport, hdone, s, hdata, hmem⟩ :=
    exportChunk_importObjects hs.stored htar hs.xattrs hsound r
  obtain rfl := eq_keyTree hmem
  have hes : chunkStream lib tar src c chunk.content = es := by rw [chunkStream, hexport]
  have hlayer : chunkLayer lib tar blobs src c chunk.content
      = (blobs.layer es).descriptor none := by rw [chunkLayer, hes]
  have hbody : withImporter Importer.newForObjectSet (do
      importObjects lib (es.map Except.ok)
      finishImportObjectSet lib) r
      = .ok (lib.commitChecksum (objectSetCommit lib (keyTree chunk.content)))
        (objectSetRepo lib (keyTree chunk.content) imp.repo) := by
    have hall := (bind_of_ok (f := fun _ => finishImportObjectSet lib) himport).trans
      (finishImportObjectSet_run hdata)
    exact withImporter_ok hall
  let r' : Repo := { objectSetRepo lib (keyTree chunk.content) imp.repo with
    refs := imp.repo.refs.insert ref
      (lib.commitChecksum (objectSetCommit lib (keyTree chunk.content))) }
  have hstore : importChunkLayer lib true ref (es.map Except.ok) r
      = .ok (some (lib.commitChecksum (objectSetCommit lib (keyTree chunk.content)))) r' := by
    refine autoTransaction_ok ?_
    rw [if_pos rfl, bind_of_ok hbody]
    rfl
  refine ⟨r', ?_, ?_⟩
  · rw [storeChunk, hexport, bind_of_ok (liftR_ok _ _)]
    rw [hlayer] at href ⊢
    rw [href, bind_of_ok (liftR_ok _ _), bind_of_ok hstore]
    rfl
  · refine ⟨?_, ?_, ?_, ?_, ?_⟩
    · rw [← hdone.refs]
    · rw [← hdone.commits]; rfl
    · rw [← hdone.dirtrees]; rfl
    · rw [← hdone.dirmetas]; rfl
    · intro k v hk
      show imp.repo.files[k]? = some v
      rw [hdone.files k, hk]
      rfl

/-- **All chunks are stored.**  The hypotheses exclude collisions of the hash functions on
    the data at hand. -/
theorem storeChunks_run (hs : StoredCommit lib src c commit) (htar : tar.KeepsLinks)
    {all : List Chunk} (hsound : ∀ a ∈ all, ChunkSound lib src.toObjects
      (fun f => src.CommitReaches commit .file f) a.content)
    (hdigest : ∀ a ∈ all, ∀ b ∈ all,
      (blobs.layer (chunkStream lib tar src c a.content)).sha256
        = (blobs.layer (chunkStream lib tar src c b.content)).sha256 →
      keyTree a.content = keyTree b.content)
    (hsums : ∀ a ∈ all, ∀ b ∈ all, SumsDistinct lib a.content b.content)
    {chunks : List Chunk} (hsub : ∀ a ∈ chunks, a ∈ all) {r : Repo}
    (hno : ∀ b ∈ all, NoCollision lib r b.content) :
    ∃ r', storeChunks lib tar blobs src c chunks r
        = .ok (chunks.map fun a => chunkLayer lib tar blobs src c a.content) r' ∧
      (∀ a ∈ chunks, ∀ ref, refForLayer (chunkLayer lib tar blobs src c a.content) = .ok ref →
        HoldsChunk lib r' ref a.content) ∧ r.toObjects.Keeps r'.toObjects ∧
      ∀ b ∈ all, ∀ ref, refForLayer (chunkLayer lib tar blobs src c b.content) = .ok ref →
        HoldsChunk lib r ref b.content → HoldsChunk lib r' ref b.content := by
  induction chunks generalizing r with
  | nil => exact ⟨r, rfl, fun a ha => absurd ha (by simp), .refl _, fun _ _ _ _ h => h⟩
  | cons a chunks ih =>
      have ha := hsub a (List.mem_cons_self ..)
      obtain ⟨ref, href⟩ := refForLayer_ok blobs (chunkStream lib tar src c a.content) none
      obtain ⟨r₁, hrun, hstores⟩ := storeChunk_run hs htar (hsound a ha) href r
      obtain ⟨r', hrest, hnew, hobjects, hold⟩ := ih (fun b hb => hsub b (List.mem_cons_of_mem _ hb))
        (fun b hb => hstores.noCollision (hno b hb) (hsums a ha b hb))
      have hkeeps : ∀ b ∈ all, ∀ ref', refForLayer (chunkLayer lib tar blobs src c b.content)
          = .ok ref' → HoldsChunk lib r ref' b.content → HoldsChunk lib r₁ ref' b.content := by
        intro b hb ref' href' hholds
        refine hstores.keeps hholds (fun heq => ?_)
        subst heq
        exact hdigest a ha b hb (sha256_eq_of_refForLayer href href')
      refine ⟨r', ?_, ?_, hstores.keepsObjects.trans hobjects, ?_⟩
      · rw [storeChunks, List.mapM_cons, bind_of_ok hrun]
        rw [storeChunks] at hrest
        rw [bind_of_ok hrest]
        rfl
      · intro b hb ref' href'
        rcases List.mem_cons.mp hb with rfl | hb
        · obtain rfl : ref = ref' := Except.ok.inj (href.symm.trans href')
          exact hold b ha ref href (hstores.holds (hno b ha))
        · exact hnew b hb ref' href'
      · intro b hb ref' href' hholds
        exact hold b hb ref' href' (hkeeps b hb ref' href' hholds)

end Store

-- ── Reading the chunks back ───────────────────────────────────────────────────

/-- A repository that still has what another one has. -/
structure Extends (r r' : Repo) : Prop where
  objects : r.toObjects.Keeps r'.toObjects
  blobRefs : ∀ (k : String) v, Repo.refUnder layerPrefix k = true → r.refs[k]? = some v →
    r'.refs[k]? = some v

theorem HoldsChunk.extends {lib : Libostree} {r r' : Repo} {m : ChunkMapping} {l : Descriptor}
    {ref : String} (href : refForLayer l = .ok ref) (h : HoldsChunk lib r ref m)
    (hext : Extends r r') : HoldsChunk lib r' ref m where
  ref := hext.blobRefs _ _ (refUnder_of_escape href) h.ref
  commit := hext.objects.commits _ _ h.commit
  dirtree := hext.objects.dirtrees _ _ h.dirtree
  dirmeta := by
    obtain ⟨v, hv⟩ := Std.ExtTreeMap.mem_iff_lookup.mp h.dirmeta
    exact Std.ExtTreeMap.mem_iff_lookup.mpr ⟨v, hext.objects.dirmetas _ v hv⟩

section Rebuild

variable {lib : Libostree} {repo : Repo} {m : ChunkMapping} {l : Descriptor} {ref : String}

/-- One layer: its objects are moved out of the remainder. -/
theorem chunkingFromLayerCommitted_run (href : refForLayer l = .ok ref)
    (h : HoldsChunk lib repo ref m) (hfiles : ∀ x ∈ m, x ∈ repo.files) (hsha : ∀ x ∈ m, IsSha256 x)
    (k : Chunking) :
    chunkingFromLayerCommitted repo k l = .ok { k with
      remainder := (k.remainder.moveObjs {} (keyTree m).toList).1
      chunks := k.chunks ++ [(k.remainder.moveObjs {} (keyTree m).toList).2] } := by
  have hnames : ∀ x ∈ (keyTree m).toList, x ∈ m := fun x hx =>
    mem_keyTree.mp (Std.ExtTreeSet.mem_toList.mp hx)
  have hroot : readCommit repo ref = .ok (objectSetTree (keyTree m)) := by
    obtain ⟨d, hd⟩ := Std.ExtTreeMap.mem_iff_lookup.mp h.dirmeta
    rw [readCommit, requireRev_of_escape href, h.ref, okOr_some, bind_ok_eq, Repo.loadCommit,
      h.commit, okOr_some, bind_ok_eq, objectSetCommit, Repo.loadDirtree, h.dirtree, okOr_some,
      bind_ok_eq, Repo.loadDirmeta, hd]
    rfl
  have hchildren : enumerateChildren repo (objectSetTree (keyTree m)) = .ok (keyTree m).toList := by
    have hload : ∀ f ∈ (objectSetTree (keyTree m)).files,
        ((repo.loadFile f.2).map fun _ => f.1) = .ok f.1 := by
      intro f hf
      obtain ⟨x, hx, rfl⟩ := List.mem_map.mp hf
      obtain ⟨o, ho⟩ := Std.ExtTreeMap.mem_iff_lookup.mp (hfiles x (hnames x hx))
      rw [Repo.loadFile, ho]
      rfl
    rw [enumerateChildren, mapM_ok hload, bind_ok_eq]
    show Except.ok (List.map (·.1) ((keyTree m).toList.map fun c => (c, c)) ++ []) = _
    rw [List.append_nil, List.map_map]
    exact congrArg Except.ok (List.map_id _)
  have hvalid : (keyTree m).toList.mapM validateChecksumString
      = .ok ((keyTree m).toList.map fun _ => ()) :=
    mapM_ok (fun x hx => if_pos (hsha x (hnames x hx)))
  rw [chunkingFromLayerCommitted, href, bind_ok_eq, hroot, bind_ok_eq, hchildren, bind_ok_eq,
    hvalid]
  rfl

/-- Moving the objects of a part out of the whole gives the part, and leaves the others. -/
theorem moveObjs_part {a : Chunk} {R : ChunkMapping} {rest : List ChunkMapping}
    (h : Splits a.content (R :: m :: rest)) :
    (a.moveObjs {} (keyTree m).toList).2.content = m ∧
      Splits (a.moveObjs {} (keyTree m).toList).1.content (R :: rest) := by
  have hmem : ∀ k, k ∈ (keyTree m).toList ↔ k ∈ m := fun k => by
    rw [Std.ExtTreeSet.mem_toList, mem_keyTree]
  constructor
  · apply Std.ExtTreeMap.ext_getElem?
    intro k
    rw [(moveObjs_content a {} _ k).2]
    have hempty : ({} : Chunk).content[k]? = none := Std.ExtTreeMap.lookup_empty k
    cases hk : m[k]? with
    | none =>
        have hnot : k ∉ (keyTree m).toList := by
          rw [hmem, Std.ExtTreeMap.mem_iff_lookup, hk]
          exact nofun
        rw [if_neg hnot, hempty]
    | some v =>
        have hin : k ∈ (keyTree m).toList := (hmem k).mpr (Std.ExtTreeMap.mem_iff_lookup.mpr ⟨v, hk⟩)
        rw [if_pos hin, h.sub (by simp) hk]
        rfl
  · intro k
    rw [(moveObjs_content a {} _ k).1]
    have hall := h k
    cases hk : m[k]? with
    | none =>
        have hnot : k ∉ (keyTree m).toList := by
          rw [hmem, Std.ExtTreeMap.mem_iff_lookup, hk]
          exact nofun
        rw [if_neg hnot, ← hall]
        simp only [List.filterMap_cons, hk]
    | some v =>
        have hin : k ∈ (keyTree m).toList := (hmem k).mpr (Std.ExtTreeMap.mem_iff_lookup.mpr ⟨v, hk⟩)
        rw [if_pos hin]
        -- the whole has the key once, and it is in this part
        rw [h.sub (by simp) hk] at hall
        cases hR : R[k]? with
        | some u => simp [hk, hR] at hall
        | none =>
            simp only [List.filterMap_cons, hk, hR] at hall ⊢
            exact (List.cons.inj hall).2

/-- **Rebuilding**: the layers in order give back the parts in order. -/
theorem rebuild_run {R : ChunkMapping} {ms : List ChunkMapping} {layer : ChunkMapping → Descriptor}
    (hlayers : ∀ m ∈ ms, ∃ ref, refForLayer (layer m) = .ok ref ∧ HoldsChunk lib repo ref m)
    (hfiles : ∀ m ∈ ms, ∀ x ∈ m, x ∈ repo.files) (hsha : ∀ m ∈ ms, ∀ x ∈ m, IsSha256 x)
    {k : Chunking} (hsplit : Splits k.remainder.content (R :: ms)) :
    ∃ k', (ms.map layer).foldlM (chunkingFromLayerCommitted repo) k = .ok k' ∧
      contents k'.chunks = contents k.chunks ++ ms ∧ k'.remainder.content = R ∧
      Moves (k.remainder :: k.chunks) (k'.remainder :: k'.chunks) := by
  induction ms generalizing k with
  | nil =>
      refine ⟨k, rfl, by simp, ?_, .refl⟩
      apply Std.ExtTreeMap.ext_getElem?
      intro x
      have hx := hsplit x
      rw [List.filterMap_cons] at hx
      cases hR : R[x]? with
      | none =>
          rw [hR] at hx
          cases hk : k.remainder.content[x]? with
          | none => rfl
          | some v => rw [hk] at hx; exact absurd hx (by simp)
      | some u =>
          rw [hR] at hx
          cases hk : k.remainder.content[x]? with
          | none => rw [hk] at hx; exact absurd hx (by simp)
          | some v =>
              rw [hk] at hx
              exact congrArg some (List.cons.inj hx).1.symm
  | cons m ms ih =>
      obtain ⟨ref, href, hholds⟩ := hlayers m (List.mem_cons_self ..)
      have hrun := chunkingFromLayerCommitted_run href hholds (hfiles m (List.mem_cons_self ..))
        (hsha m (List.mem_cons_self ..)) k
      obtain ⟨hpart, hrest⟩ := moveObjs_part hsplit
      obtain ⟨k', hfold, hcontents, hR, hmoves⟩ :=
        @ih (fun m' h => hlayers m' (List.mem_cons_of_mem _ h))
          (fun m' h => hfiles m' (List.mem_cons_of_mem _ h))
          (fun m' h => hsha m' (List.mem_cons_of_mem _ h)) { k with
            remainder := (k.remainder.moveObjs {} (keyTree m).toList).1
            chunks := k.chunks ++ [(k.remainder.moveObjs {} (keyTree m).toList).2] } hrest
      refine ⟨k', ?_, ?_, hR, ?_⟩
      · rw [List.map_cons, List.foldlM_cons, hrun, bind_ok_eq]
        exact hfold
      · rw [hcontents, contents, contents, List.map_append, List.map_singleton, hpart,
          List.append_assoc, List.singleton_append]
      · exact (moves_moveObjs _ _ _ _ (.push "" [] .refl)).trans hmoves

end Rebuild

section Main

variable {lib : Libostree} {tar : TarCrate} {blobs : BlobWriter} {src : Repo} {c : Checksum}
  {commit : Commit}

/-- The stream of a chunk determines its objects. -/
theorem keyTree_of_chunkStream (hs : StoredCommit lib src c commit) (htar : tar.KeepsLinks)
    {m m' : ChunkMapping}
    (hm : ChunkSound lib src.toObjects (fun f => src.CommitReaches commit .file f) m)
    (hm' : ChunkSound lib src.toObjects (fun f => src.CommitReaches commit .file f) m')
    (heq : chunkStream lib tar src c m = chunkStream lib tar src c m') : keyTree m = keyTree m' := by
  obtain ⟨es, imp, hexport, himport, _, s, hdata, hmem⟩ :=
    exportChunk_importObjects hs.stored htar hs.xattrs hm {}
  obtain ⟨es', imp', hexport', himport', _, s', hdata', hmem'⟩ :=
    exportChunk_importObjects hs.stored htar hs.xattrs hm' {}
  obtain rfl : es = es' := by
    rw [chunkStream, chunkStream, hexport, hexport'] at heq
    exact heq
  -- the importer is a function of the stream
  obtain ⟨_, rfl⟩ := EStateM.Result.ok.inj (himport.symm.trans himport')
  have hset : s = s' := by
    have hsame := hdata.symm.trans hdata'
    injection hsame
  rw [← eq_keyTree hmem, ← eq_keyTree hmem', hset]

/-- The commit and everything it reaches is the same in another repository. -/
structure SameCommit (src repo : Repo) (c : Checksum) (commit : Commit) : Prop where
  stored : repo.commits[c]? = some commit
  same : ∀ ty x, src.CommitReaches commit ty x → SameObject src.toObjects repo.toObjects ty x

/-- A repository that keeps all objects has the same commit. -/
theorem SameCommit.of_keeps {lib : Libostree} {src repo : Repo} {c : Checksum} {commit : Commit}
    (hs : StoredCommit lib src c commit) (h : src.toObjects.Keeps repo.toObjects) :
    SameCommit src repo c commit where
  stored := h.commits c commit hs.stored
  same ty x hx := by
    have hhas := (hs.intact ty x hx).has
    rcases hx.objtype with rfl | rfl | rfl
    · obtain ⟨v, hv⟩ := Std.ExtTreeMap.mem_iff_lookup.mp hhas
      exact (h.dirtrees x v hv).trans hv.symm
    · obtain ⟨v, hv⟩ := Std.ExtTreeMap.mem_iff_lookup.mp hhas
      exact (h.dirmetas x v hv).trans hv.symm
    · obtain ⟨v, hv⟩ := Std.ExtTreeMap.mem_iff_lookup.mp hhas
      exact (h.files x v hv).trans hv.symm

/-- A chunk with a right size is determined by its content and its labels. -/
theorem chunk_ext {a b : Chunk} (hname : a.name = b.name) (hcontent : a.content = b.content)
    (ha : a.Sized) (hb : b.Sized) (hpackages : a.packages = b.packages) : a = b := by
  have hsize : a.size = b.size := by rw [ha, hb, hcontent]
  cases a
  cases b
  simp_all

/-- Equal contents have equal sizes. -/
theorem map_content_size {l l' : List Chunk} (hl : ∀ a ∈ l, a.Sized) (hl' : ∀ a ∈ l', a.Sized)
    (h : contents l = contents l') :
    l.map (fun a => (a.content, a.size)) = l'.map (fun a => (a.content, a.size)) := by
  have hmap : ∀ k : List Chunk, (∀ a ∈ k, a.Sized) →
      k.map (fun a => (a.content, a.size)) = (contents k).map fun m => (m, contentSize m) := by
    intro k hk
    rw [contents, List.map_map]
    refine List.map_congr_left (fun a ha => ?_)
    show (a.content, a.size) = (a.content, contentSize a.content)
    rw [hk a ha]
  rw [hmap l hl, hmap l' hl', h]

/-- A fresh chunking of the same commit is the same. -/
theorem chunkingNew_same (hs : StoredCommit lib src c commit) {repo : Repo}
    (hsame : SameCommit src repo c commit) {fuel : Nat} (hdepth : src.DepthLt fuel commit.contents)
    {rev : String} (hrev : repo.requireRev rev = .ok c) :
    ∃ n, Chunking.new lib repo fuel rev = .ok
      { metadataSize := n
        remainder := initialChunk src.toObjects
          (src.occurrences fuel false [.rootDir] commit.contents) } := by
  have hdirtrees : ∀ t, src.Reaches commit.contents .dirTree t →
      repo.dirtrees[t]? = src.dirtrees[t]? := fun t ht => hsame.same .dirTree t (.inr ht)
  have hcomplete : repo.Complete commit :=
    complete_of_sameObject (fun ty x hx => (hs.intact ty x hx).has) hsame.same
  have hdepth' : repo.DepthLt fuel commit.contents := hdepth.transfer hdirtrees
  obtain ⟨n, hnew⟩ := chunkingNew_eq lib hrev hsame.stored hcomplete hdepth'
  refine ⟨n, ?_⟩
  have hocc : repo.occurrences fuel false [.rootDir] commit.contents
      = src.occurrences fuel false [.rootDir] commit.contents := occurrences_congr hdirtrees
  have hchunk : initialChunk repo.toObjects (src.occurrences fuel false [.rootDir] commit.contents)
      = initialChunk src.toObjects (src.occurrences fuel false [.rootDir] commit.contents) := by
    refine initialChunk_congr _ (fun p hp => ?_)
    have hfile : repo.files[p.2]? = src.files[p.2]? :=
      hsame.same .file p.2 (.inr (reaches_of_mem_occurrences hp))
    rw [fileSize, fileSize, hfile]
  rw [hnew, hocc, hchunk]

/-- **The chunk structure survives storage.** -/
theorem chunks_survive (hs : StoredCommit lib src c commit) (htar : tar.KeepsLinks) {fuel : Nat}
    (hdepth : src.DepthLt fuel commit.contents) (hroot : SysrootEmpty src.toObjects commit)
    {rev : String} (hrev : src.requireRev rev = .ok c) {k₀ k : Chunking}
    (hnew : Chunking.new lib src fuel rev = .ok k₀) {st : Statistics} {rounds : Nat}
    {contentmeta : ObjectMetaSized} {maxLayers : Option Nat} {prior : Option ImageManifest}
    (hk : k₀.processMapping st rounds contentmeta maxLayers prior = .ok k) {dst : Repo}
    (hdigest : ∀ a ∈ k.chunks, ∀ b ∈ k.chunks,
      (blobs.layer (chunkStream lib tar src c a.content)).sha256
        = (blobs.layer (chunkStream lib tar src c b.content)).sha256 →
      chunkStream lib tar src c a.content = chunkStream lib tar src c b.content)
    (hsums : ∀ a ∈ k.chunks, ∀ b ∈ k.chunks, SumsDistinct lib a.content b.content)
    (hno : ∀ b ∈ k.chunks, NoCollision lib dst b.content) :
    ∃ layers dst', storeChunks lib tar blobs src c k.chunks dst = .ok layers dst' ∧
      dst.toObjects.Keeps dst'.toObjects ∧ ∀ repo rev', Extends dst' repo → SameCommit src repo c commit →
        repo.requireRev rev' = .ok c →
        ∃ k₁ k₂, Chunking.new lib repo fuel rev' = .ok k₁ ∧
          layers.foldlM (chunkingFromLayerCommitted repo) k₁ = .ok k₂ ∧
          k₂.chunks.map (fun chunk => (chunk.content, chunk.size))
            = k.chunks.map (fun chunk => (chunk.content, chunk.size)) ∧
          k₂.remainder = k.remainder := by
  obtain ⟨n, hnew'⟩ := chunkingNew_eq lib hrev hs.stored
    (fun ty x hx => (hs.intact ty x hx).has) hdepth
  obtain rfl := Except.ok.inj (hnew.symm.trans hnew')
  have hmoves := processMapping_moves hk
  let whole := initialChunk src.toObjects (src.occurrences fuel false [.rootDir] commit.contents)
  have hstart : Splits whole.content (contents [whole]) := Splits.single _
  have hsized₀ : ∀ chunk ∈ [whole], chunk.Sized := fun chunk hc => by
    rw [List.mem_singleton.mp hc]
    exact initialChunk_sized _ _
  obtain ⟨hsplit, hsized⟩ := hmoves.keeps hstart hsized₀
  have hsound : ∀ chunk ∈ k.chunks, ChunkSound lib src.toObjects
      (fun f => src.CommitReaches commit .file f) chunk.content := fun chunk hc =>
    chunkSound_of_sub hs hroot (fun x v hv =>
      hsplit.sub (List.mem_map_of_mem (List.mem_cons_of_mem _ hc)) hv)
  obtain ⟨dst', hstore, hholds, hkeeps, _⟩ := storeChunks_run hs htar hsound
    (fun a ha b hb h => keyTree_of_chunkStream hs htar (hsound a ha) (hsound b hb)
      (hdigest a ha b hb h)) hsums (fun a ha => ha) hno
  refine ⟨_, dst', hstore, hkeeps, ?_⟩
  intro repo rev' hext hsame hrev'
  obtain ⟨n', hfresh⟩ := chunkingNew_same hs hsame hdepth hrev'
  have hreach : ∀ m ∈ contents k.chunks, ∀ x ∈ m, src.CommitReaches commit .file x := by
    intro m hm x hx
    obtain ⟨chunk, hchunk, rfl⟩ := List.mem_map.mp hm
    obtain ⟨v, hv⟩ := Std.ExtTreeMap.mem_iff_lookup.mp hx
    exact (hsound chunk hchunk x v hv).1
  have hfiles : ∀ m ∈ contents k.chunks, ∀ x ∈ m, x ∈ repo.files := by
    intro m hm x hx
    have hsrc := (hs.intact _ _ (hreach m hm x hx)).has
    have heq : repo.files[x]? = src.files[x]? := hsame.same .file x (hreach m hm x hx)
    rw [Std.ExtTreeMap.mem_iff_lookup, heq]
    exact Std.ExtTreeMap.mem_iff_lookup.mp hsrc
  have hsha : ∀ m ∈ contents k.chunks, ∀ x ∈ m, IsSha256 x := by
    intro m hm x hx
    obtain ⟨f, hf⟩ := hs.intact _ _ (hreach m hm x hx)
    rw [← hf.2.1]
    exact lib.fileChecksum_isSha256 f
  have hlayers : ∀ m ∈ contents k.chunks, ∃ ref,
      refForLayer (chunkLayer lib tar blobs src c m) = .ok ref ∧ HoldsChunk lib repo ref m := by
    intro m hm
    obtain ⟨chunk, hchunk, rfl⟩ := List.mem_map.mp hm
    obtain ⟨ref, href⟩ := refForLayer_ok blobs (chunkStream lib tar src c chunk.content) none
    exact ⟨ref, href, (hholds chunk hchunk ref href).extends href hext⟩
  obtain ⟨k₂, hfold, hcontents, hR, hmoves₂⟩ := @rebuild_run lib repo k.remainder.content
    (contents k.chunks) (chunkLayer lib tar blobs src c) hlayers hfiles hsha
    { metadataSize := n', remainder := whole } hsplit
  obtain ⟨_, hsized₂⟩ := hmoves₂.keeps hstart hsized₀
  refine ⟨_, k₂, hfresh, ?_, ?_, ?_⟩
  · rw [← hfold, contents, List.map_map]
    rfl
  · refine map_content_size (fun chunk hc => hsized₂ chunk (List.mem_cons_of_mem _ hc))
      (fun chunk hc => hsized chunk (List.mem_cons_of_mem _ hc)) ?_
    rw [hcontents]
    rfl
  · obtain ⟨r, _, heq, hname, hpackages⟩ := hmoves.label
    obtain ⟨r₂, _, heq₂, hname₂, hpackages₂⟩ := hmoves₂.label
    obtain ⟨rfl, _⟩ := List.cons.inj heq
    obtain ⟨rfl, _⟩ := List.cons.inj heq₂
    exact chunk_ext (hname₂.trans hname.symm) hR
      (hsized₂ _ (List.mem_cons_self ..)) (hsized _ (List.mem_cons_self ..))
      (hpackages₂.trans hpackages.symm)

end Main

/-- The objects of the chunk. -/
theorem keyTree_sampleMoved :
    keyTree sampleMoved.2.content = .ofList [sampleLinkSum, sampleMotdSum] := by
  apply Std.ExtTreeSet.ext_mem
  intro x
  rw [mem_keyTree, Std.ExtTreeSet.mem_ofList, mem_sampleMoved, List.contains_iff_mem]

theorem objectSetTree_sampleMoved : objectSetTree (keyTree sampleMoved.2.content) = chunkTree := by
  rw [keyTree_sampleMoved]
  decide +kernel

theorem objectSetTree_empty : objectSetTree (keyTree ∅) = emptyTree := by
  decide +kernel

theorem objectSetCommit_sampleMoved :
    objectSetCommit sampleTables.lib (keyTree sampleMoved.2.content) = chunkCommit := by
  have hmeta : sampleTables.lib.dirmetaChecksum defaultDirmeta = sampleMetaSum :=
    dirmetaChecksum_sampleMeta
  rw [objectSetCommit, objectSetTree_sampleMoved, dirtreeChecksum_chunkTree, hmeta]
  rfl

theorem objectSetCommit_empty :
    objectSetCommit sampleTables.lib (keyTree ∅) = emptyChunkCommit := by
  have hmeta : sampleTables.lib.dirmetaChecksum defaultDirmeta = sampleMetaSum :=
    dirmetaChecksum_sampleMeta
  rw [objectSetCommit, objectSetTree_empty, dirtreeChecksum_emptyTree, hmeta]
  rfl

/-- The checksums of the two chunks differ. -/
theorem sumsDistinct_sample {n : Nat} {a b : Chunk} (ha : a ∈ (sampleChunking n).chunks)
    (hb : b ∈ (sampleChunking n).chunks) : SumsDistinct sampleTables.lib a.content b.content := by
  have hne : chunkCommitSum ≠ emptyChunkCommitSum := by decide
  have hne' : chunkTreeSum ≠ emptyTreeSum := by decide
  have hab : SumsDistinct sampleTables.lib sampleMoved.2.content ∅ := by
    rw [SumsDistinct, objectSetCommit_sampleMoved, objectSetCommit_empty,
      objectSetTree_sampleMoved, objectSetTree_empty, commitChecksum_chunkCommit,
      commitChecksum_emptyChunkCommit, dirtreeChecksum_chunkTree, dirtreeChecksum_emptyTree]
    exact ⟨fun h => absurd h hne, fun h => absurd h hne'⟩
  simp only [sampleChunking, List.mem_cons, List.not_mem_nil, or_false] at ha hb
  rcases ha with ha | ha
  · rcases hb with hb | hb
    · rw [ha, hb]
      exact ⟨fun _ => rfl, fun _ => rfl⟩
    · rw [ha, hb]
      exact hab
  · rcases hb with hb | hb
    · rw [ha, hb]
      exact ⟨fun h => (hab.1 h.symm).symm, fun h => (hab.2 h.symm).symm⟩
    · rw [ha, hb]
      exact ⟨fun _ => rfl, fun _ => rfl⟩

/-- The repository of the sample commit holds no chunk yet. -/
theorem noCollision_sample {n : Nat} {b : Chunk} (hb : b ∈ (sampleChunking n).chunks) :
    NoCollision sampleTables.lib sampleRepo b.content := by
  simp only [sampleChunking, List.mem_cons, List.not_mem_nil, or_false] at hb
  rcases hb with hb | hb <;> rw [hb]
  · constructor
    · rw [objectSetCommit_sampleMoved, commitChecksum_chunkCommit]
      have hnone : sampleRepo.commits[chunkCommitSum]? = none := by decide +kernel
      intro k hk
      exact absurd (hnone.symm.trans hk) (by simp)
    · rw [objectSetTree_sampleMoved, dirtreeChecksum_chunkTree]
      have hnone : sampleRepo.dirtrees[chunkTreeSum]? = none := by decide +kernel
      intro d hd
      exact absurd (hnone.symm.trans hd) (by simp)
  · constructor
    · rw [objectSetCommit_empty, commitChecksum_emptyChunkCommit]
      have hnone : sampleRepo.commits[emptyChunkCommitSum]? = none := by decide +kernel
      intro k hk
      exact absurd (hnone.symm.trans hk) (by simp)
    · rw [objectSetTree_empty, dirtreeChecksum_emptyTree]
      intro d hd
      exact (Option.some.inj (lookup_emptyTree.symm.trans hd)).symm

/-- The chunks of the sample commit are stored beside it and read back. -/
theorem sampleCommit_chunks_survive : ∃ (n : Nat) (k : Chunking) (blobs : BlobWriter)
    (layers : List Descriptor) (dst : Repo) (k₁ k₂ : Chunking),
    Chunking.new sampleTables.lib sampleRepo 2 sampleCommitSum
      = .ok { metadataSize := n, remainder := sampleWhole } ∧
    Chunking.processMapping sampleStatistics 0 { metadataSize := n, remainder := sampleWhole }
      sampleContentmeta none none = .ok k ∧
    k.chunks.length = 2 ∧
    storeChunks sampleTables.lib sampleTar blobs sampleRepo sampleCommitSum k.chunks sampleRepo
      = .ok layers dst ∧
    Chunking.new sampleTables.lib dst 2 sampleCommitSum = .ok k₁ ∧
    layers.foldlM (chunkingFromLayerCommitted dst) k₁ = .ok k₂ ∧
    k₂.chunks.map (fun chunk => (chunk.content, chunk.size))
      = k.chunks.map (fun chunk => (chunk.content, chunk.size)) ∧
    k₂.remainder = k.remainder := by
  have hrev : ∀ repo : Repo, repo.requireRev sampleCommitSum = .ok sampleCommitSum :=
    fun repo => if_pos isSha256_sampleCommitSum
  obtain ⟨n, hnew⟩ := chunkingNew_eq sampleTables.lib (hrev sampleRepo) sampleCommit_stored.stored
    (fun ty x hx => (sampleCommit_stored.intact ty x hx).has) depthLt_sampleTree
  have hroot : SysrootEmpty sampleRepo.toObjects sampleCommit := by
    intro d s hd hs hname
    obtain rfl : sampleTree = d := Option.some.inj (lookup_sampleTree.symm.trans hd)
    simp only [sampleTree, List.mem_singleton] at hs
    subst hs
    exact absurd hname (by decide)
  let stream := chunkStream sampleTables.lib sampleTar sampleRepo sampleCommitSum
  let known := (sampleChunking n).chunks.map fun chunk => stream chunk.content
  have hknown : ∀ a ∈ (sampleChunking n).chunks, stream a.content ∈ known :=
    fun a ha => List.mem_map_of_mem ha
  have hdigest : ∀ a ∈ (sampleChunking n).chunks, ∀ b ∈ (sampleChunking n).chunks,
      ((tallyWriter known).layer (stream a.content)).sha256
        = ((tallyWriter known).layer (stream b.content)).sha256 →
      stream a.content = stream b.content := fun a ha b hb h =>
    (tallyWriter_distinct (Nat.le_of_ble_eq_true rfl) _ (hknown a ha) _ (hknown b hb)).1 h
  obtain ⟨layers, dst, hstore, hkeeps, hread⟩ := chunks_survive sampleCommit_stored
    sampleTar_keepsLinks depthLt_sampleTree hroot (hrev sampleRepo) hnew (processMapping_sample n)
    hdigest
    (fun a ha b hb => sumsDistinct_sample ha hb) (fun b hb => noCollision_sample hb)
  obtain ⟨k₁, k₂, hfresh, hfold, hchunks, hrest⟩ := hread dst sampleCommitSum
    ⟨.refl _, fun _ _ _ h => h⟩ (.of_keeps sampleCommit_stored hkeeps) (hrev dst)
  exact ⟨n, _, _, layers, dst, k₁, k₂, hnew, processMapping_sample n, rfl, hstore, hfresh, hfold,
    hchunks, hrest⟩

end OstreeExt.Store
