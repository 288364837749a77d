import OstreeExt.RefPath
import OstreeExt.Store.Unencapsulate

/-!
# Names of stored images

An image is stored under the ref that `ref_for_image` gives, and `list_images` gives its name back.
**`image_names_identify`** says that this name is that of the image, in every repository that a run
of calls leaves behind, and that looking up and removing an image by it addresses the ref that was
listed.  Refs are paths: **`image_refs_below_iff`** says when the ref of one image lies below that
of another one, so that the two cannot be stored side by side.
-/

namespace OstreeExt.Store

open OstreeExt Tar Exec Std Refescape

-- ── The refs that are written ─────────────────────────────────────────────────

/-- The ref of a layer, or of an image. -/
def StoreRef (ref : String) : Prop :=
  (∃ l, refForLayer l = .ok ref) ∨ ∃ i, refForImage i = .ok ref

/-- Refs of layers and images may be written, and refs may go away. -/
def WritesStoreRefs (r r' : Repo) : Prop := ∀ ref ∈ r'.refs, ref ∈ r.refs ∨ StoreRef ref

section Writes

variable {lib : Libostree} {host : Host} {imp : ImageImporter} {prep : PreparedImport}

theorem WritesStoreRefs.refl (r : Repo) : WritesStoreRefs r r := fun _ h => .inl h

theorem WritesStoreRefs.trans (a b c : Repo) (h : WritesStoreRefs a b) (h' : WritesStoreRefs b c) :
    WritesStoreRefs a c := by
  intro ref href
  rcases h' ref href with href | href
  · exact h ref href
  · exact .inr href

theorem WritesStoreRefs.of_refs {r r' : Repo} (h : r'.refs = r.refs) : WritesStoreRefs r r' :=
  fun _ href => .inl (h ▸ href)

theorem Fetches.writesStoreRefs {S : String → Prop} {r r' : Repo} (h : Fetches S r r')
    (hS : ∀ ref, S ref → StoreRef ref) : WritesStoreRefs r r' := by
  intro ref href
  rcases h.refs ref with heq | ⟨hnew, -⟩
  · obtain ⟨c, hc⟩ := ExtTreeMap.mem_iff_lookup.mp href
    exact .inl (ExtTreeMap.mem_iff_lookup.mpr ⟨c, heq.symm.trans hc⟩)
  · exact .inr (hS ref hnew)

theorem Unlinks.writesStoreRefs {r r' : Repo} (h : Unlinks r r') : WritesStoreRefs r r' := by
  intro ref href
  obtain ⟨c, hc⟩ := ExtTreeMap.mem_iff_lookup.mp href
  rcases h.refs ref with heq | ⟨-, hgone⟩
  · exact .inl (ExtTreeMap.mem_iff_lookup.mpr ⟨c, heq.symm.trans hc⟩)
  · exact absurd (hgone.symm.trans hc) (by simp)

/-- The layers of a prepared import have refs of layers. -/
theorem PreparedImport.LaidOut.storeRef {repo : Repo} {commitLayer : Descriptor}
    {componentLayers remainingLayers : List Descriptor}
    (h : prep.LaidOut repo commitLayer componentLayers remainingLayers) {ref : String}
    (href : prep.IsLayerRef ref) : StoreRef ref := by
  obtain ⟨layer, hlayer, rfl⟩ := href
  exact .inl ⟨layer.layer, (queryLayer_eq_ok (h.queried hlayer)).2.1⟩

/-- **An import** writes refs of layers, and the ref of its image. -/
theorem importImage_writesStoreRefs (hprep : ∀ ref, prep.IsLayerRef ref → StoreRef ref) :
    Steps WritesStoreRefs (imp.importImage host lib prep) := by
  intro r
  have hfetch : Steps (Fetches prep.IsLayerRef) (imp.fetchLayers host lib prep) :=
    (fetches_frame _).fetchLayers (fun _ _ => trivial)
  have hfetch := hfetch r
  have hmerged : WritesStoreRefs r (finalState (imp.importMerged host lib prep r)) := by
    rw [ImageImporter.importMerged]
    cases hrun : imp.fetchLayers host lib prep r with
    | error e s =>
        rw [hrun] at hfetch
        rw [bind_of_error hrun]
        exact hfetch.writesStoreRefs hprep
    | ok m s =>
        rw [hrun] at hfetch
        rw [bind_of_ok hrun]
        have hmerge : Steps (Fetches fun ref => ref = m.ostreeRef) (imp.mergeLayers host lib m) :=
          (fetches_frame _).mergeLayers rfl
        refine WritesStoreRefs.trans _ _ _ (hfetch.writesStoreRefs hprep)
          ((hmerge s).writesStoreRefs ?_)
        rintro _ rfl
        exact .inr ⟨_, (fetchLayers_ok hrun).target⟩
  rw [ImageImporter.importImage]
  cases hrun : imp.importMerged host lib prep r with
  | error e s =>
      rw [hrun] at hmerged
      rw [bind_of_error hrun]
      exact hmerged
  | ok c s =>
      rw [hrun] at hmerged
      rw [bind_of_ok hrun]
      exact WritesStoreRefs.trans _ _ _ hmerged (finishImport_unlinks c s).writesStoreRefs

/-- `unencapsulate` writes no ref. -/
theorem unencapsulate_writesStoreRefs : Steps WritesStoreRefs (imp.unencapsulate host lib) := by
  refine Steps.bind WritesStoreRefs.trans (fun r => ?_) (fun res => ?_)
  · exact WritesStoreRefs.of_refs (prepare_same host imp r).refs
  cases res with
  | alreadyPresent state => exact Steps.throw WritesStoreRefs.refl _
  | ready prep =>
      dsimp only
      split
      · exact Steps.throw WritesStoreRefs.refl _
      refine Steps.bind WritesStoreRefs.trans (fun r => ?_) (fun prep' => ?_)
      · have hbase : Steps (Fetches fun _ => False)
            (imp.unencapsulateBase host lib prep false) := by
          refine steps_unencapsulateBase Fetches.refl Fetches.trans_step
            (fun desLayers layer _ => ?_) (fun desLayers => ?_)
          · exact (fetches_frame _).fetchChunkLayer false (fun h => absurd h (by simp))
          · exact (fetches_frame _).fetchCommitLayer (fun _ _ => trivial) _ false
              (fun h => absurd h (by simp))
        exact (hbase r).writesStoreRefs (fun _ h => absurd h id)
      refine Steps.bind WritesStoreRefs.trans (steps_liftR WritesStoreRefs.refl _) (fun _ => ?_)
      exact Steps.bind WritesStoreRefs.trans (steps_liftR WritesStoreRefs.refl _)
        (fun _ => Steps.pure WritesStoreRefs.refl _)

theorem removeImage_writesStoreRefs (img : ImageReference) :
    Steps WritesStoreRefs (removeImage img) := by
  refine Steps.bind WritesStoreRefs.trans (steps_liftR WritesStoreRefs.refl _) (fun ref => ?_)
  refine Steps.bind WritesStoreRefs.trans (fun r => WritesStoreRefs.refl r) (fun repo => ?_)
  have herase : Steps WritesStoreRefs (Repo.setRef ref none) := by
    intro r ref' href
    refine .inl ?_
    have hin : ref' ∈ r.refs.erase ref := href
    exact ExtTreeMap.mem_of_mem_erase hin
  dsimp only
  split
  · exact Steps.bind WritesStoreRefs.trans herase (fun _ => Steps.pure WritesStoreRefs.refl _)
  · exact Steps.pure WritesStoreRefs.refl _

/-- **Every call** writes refs of layers and images only. -/
theorem StoreCall.writesStoreRefs (call : StoreCall) (r : Repo) :
    WritesStoreRefs r (call.exec lib r) := by
  cases call with
  | operation op =>
      cases op with
      | importImage host imp =>
          show WritesStoreRefs r (finalState ((Operation.importImage host imp).run lib r))
          rw [Operation.run]
          have hsame := WritesStoreRefs.of_refs (prepare_same host imp r).refs
          cases hprepare : imp.prepare host r with
          | error e s =>
              rw [hprepare] at hsame
              rw [bind_of_error hprepare]
              exact hsame
          | ok res s =>
              rw [hprepare] at hsame
              rw [bind_of_ok hprepare]
              refine WritesStoreRefs.trans _ _ _ hsame ?_
              cases res with
              | alreadyPresent state => exact WritesStoreRefs.refl s
              | ready prep =>
                  obtain ⟨_, _, _, hlaid⟩ := (prepare_eq_ready hprepare).created.laidOut
                  exact Steps.bind WritesStoreRefs.trans
                    (importImage_writesStoreRefs fun _ => hlaid.storeRef)
                    (fun _ => Steps.pure WritesStoreRefs.refl _) s
      | unencapsulate host imp =>
          refine Steps.bind WritesStoreRefs.trans unencapsulate_writesStoreRefs (fun _ => ?_) r
          exact Steps.bind WritesStoreRefs.trans (steps_liftR WritesStoreRefs.refl _)
            (fun _ => Steps.pure WritesStoreRefs.refl _)
  | removeImage img => exact removeImage_writesStoreRefs img r
  | gcImageLayers hash => exact (gcImageLayers_unlinks hash r).writesStoreRefs

end Writes

-- ── The refs of images ────────────────────────────────────────────────────────

/-- The refs under the prefix for images are those of images. -/
def ImageRefs (r : Repo) : Prop :=
  ∀ ref ∈ r.refs, Repo.refUnder imagePrefix ref = true → ∃ i, refForImage i = .ok ref

theorem not_imageRef_of_layer {l : Descriptor} {ref : String} (h : refForLayer l = .ok ref) :
    ¬ Repo.refUnder imagePrefix ref = true := by
  intro himage
  have hlayer : Repo.refUnder layerPrefix ref = true := refUnder_of_escape h
  rcases refUnder_comparable himage hlayer with h | h
  · exact absurd h (by decide)
  · exact absurd h (by decide)

theorem ImageRefs.step {r r' : Repo} (h : ImageRefs r) (hwrites : WritesStoreRefs r r') :
    ImageRefs r' := by
  intro ref href hunder
  rcases hwrites ref href with hold | ⟨l, hl⟩ | himage
  · exact h ref hold hunder
  · exact absurd hunder (not_imageRef_of_layer hl)
  · exact himage

/-- **A run keeps this.** -/
theorem ImageRefs.execAll {lib : Libostree} {r : Repo} (h : ImageRefs r) (calls : List StoreCall) :
    ImageRefs (StoreCall.execAll lib calls r) := by
  induction calls generalizing r with
  | nil => exact h
  | cons call calls ih => exact ih (h.step (call.writesStoreRefs r))

-- ── From the name to the ref ──────────────────────────────────────────────────

/-- The calls that are given an image reference act on the ref. -/
structure Addresses (r : Repo) (i : ImageReference) (ref : String) (c : Checksum) : Prop where
  name : refForImage i = .ok ref
  found : queryImage r i = (queryImageCommit r c).map some
  manifest : manifestForImage r i = manifestOfCommit r c
  removed : removeImage i r = .ok true { r with refs := r.refs.erase ref }

theorem addresses_of_ref {r : Repo} {i : ImageReference} {ref : String} {c : Checksum}
    (href : refForImage i = .ok ref) (hc : r.refs[ref]? = some c) : Addresses r i ref c where
  name := href
  found := by
    rw [queryImage, href, bind_ok_eq, resolveRev_of_escape href, hc]
  manifest := by
    rw [manifestForImage, href, bind_ok_eq, requireRev_of_escape href, hc]
    rfl
  removed := by
    have hin : ref ∈ r.refs := ExtTreeMap.mem_iff_lookup.mpr ⟨c, hc⟩
    have hfound : (r.resolveRev ref).isSome = true := by
      rw [resolveRev_of_escape href, hc]
      rfl
    rw [removeImage, href, bind_of_ok (liftR_ok _ _), bind_of_ok (get_run r), hfound]
    rfl

/-- What `list_images` returns, and what it is good for. -/
structure ListsImages (hash : HashOrder) (r : Repo) : Prop where
  /-- The names of the images whose refs are there. -/
  listed : ∃ names, listImages hash r = .ok names ∧
    ∀ name, name ∈ names ↔ ∃ i ref, refForImage i = .ok ref ∧ ref ∈ r.refs ∧ name = i.display
  /-- A reference that is parsed from a name addresses the ref that was listed. -/
  addressed : ∀ names, listImages hash r = .ok names → ∀ name ∈ names, ∀ i,
    ImageReference.tryFrom name = .ok i → ∃ ref c, r.refs[ref]? = some c ∧
      unprefixUnescapeRef imagePrefix ref = .ok name ∧ Addresses r i ref c

/-- The name that is read from the ref of an image. -/
theorem unescape_refForImage {i : ImageReference} {ref : String} (h : refForImage i = .ok ref) :
    unprefixUnescapeRef imagePrefix ref = .ok i.display :=
  unprefixUnescapeRef_prefixEscapeForRef h

theorem ImageRefs.listsImages {r : Repo} (h : ImageRefs r) (hash : HashOrder) :
    ListsImages hash r := by
  have hlisted : ∀ {p : String × Checksum}, p ∈ hash.order (r.listRefsExt imagePrefix) →
      r.refs[p.1]? = some p.2 ∧ ∃ i, refForImage i = .ok p.1 := by
    intro p hp
    obtain ⟨hc, hunder⟩ := mem_listRefsExt.mp (hash.mem_order.mp hp)
    exact ⟨hc, h p.1 (ExtTreeMap.mem_iff_lookup.mpr ⟨p.2, hc⟩) hunder⟩
  have hall : ∃ names, listImages hash r = .ok names := by
    refine mapM_exists (fun p hp => ?_)
    obtain ⟨-, i, hi⟩ := hlisted hp
    exact ⟨i.display, unescape_refForImage hi⟩
  refine ⟨?_, ?_⟩
  · obtain ⟨names, hnames⟩ := hall
    refine ⟨names, hnames, fun name => (mem_mapM hnames name).trans ?_⟩
    constructor
    · rintro ⟨p, hp, hname⟩
      obtain ⟨hc, i, hi⟩ := hlisted hp
      have hsame := Except.ok.inj (hname.symm.trans (unescape_refForImage hi))
      exact ⟨i, p.1, hi, ExtTreeMap.mem_iff_lookup.mpr ⟨p.2, hc⟩, hsame⟩
    · rintro ⟨i, ref, hi, href, rfl⟩
      obtain ⟨c, hc⟩ := ExtTreeMap.mem_iff_lookup.mp href
      exact ⟨(ref, c), hash.mem_order.mpr (mem_listRefsExt.mpr ⟨hc, refUnder_of_escape hi⟩),
        unescape_refForImage hi⟩
  · intro names hnames name hname i hparse
    obtain ⟨p, hp, hunescape⟩ := (mem_mapM hnames name).mp hname
    obtain ⟨hc, j, hj⟩ := hlisted hp
    obtain rfl := Except.ok.inj (hunescape.symm.trans (unescape_refForImage hj))
    obtain rfl := ImageReference.tryFrom_display_eq hparse
    exact ⟨p.1, p.2, hc, hunescape, addresses_of_ref hj hc⟩

/-- An image with a name without NUL characters has a ref, and comes back from it. -/
theorem refForImage_parsesBack {i : ImageReference} (hname : i.name ≠ "")
    (hnul : '\x00' ∉ i.name.toList) : ∃ ref name, refForImage i = .ok ref ∧
      unprefixUnescapeRef imagePrefix ref = .ok name ∧ ImageReference.tryFrom name = .ok i := by
  have hne : i.display ≠ "" := by
    intro hempty
    have hlist := congrArg String.toList hempty
    rw [ImageReference.display, String.toList_append, i.transport.display_toList] at hlist
    exact absurd hlist (by simp)
  have hchars : '\x00' ∉ i.display.toList := by
    have htransport : '\x00' ∉ i.transport.display.toList := by
      cases i.transport <;> decide
    rw [ImageReference.display, String.toList_append, List.mem_append]
    exact fun h => h.elim htransport hnul
  obtain ⟨ref, href⟩ := prefixEscapeForRef_ok imagePrefix hne hchars
  exact ⟨ref, i.display, href, unescape_refForImage href, ImageReference.tryFrom_display i hname⟩

/-- **Stored image names identify images.**  The name that is read from the ref of an image is
    parsed to the image; so no two images have one ref; and in every repository that a run of calls
    leaves behind the listed names are those of the stored images, and looking up or removing an
    image by one of them addresses the ref that was listed. -/
theorem image_names_identify :
    (∀ i : ImageReference, i.name ≠ "" → '\x00' ∉ i.name.toList → ∃ ref name,
      refForImage i = .ok ref ∧ unprefixUnescapeRef imagePrefix ref = .ok name ∧
        ImageReference.tryFrom name = .ok i) ∧
    (∀ i j ref, refForImage i = .ok ref → refForImage j = .ok ref → i = j) ∧
    ∀ (lib : Libostree) (r : Repo) (calls : List StoreCall) (hash : HashOrder), ImageRefs r →
      ListsImages hash (StoreCall.execAll lib calls r) :=
  ⟨fun _ hname hnul => refForImage_parsesBack hname hnul, fun _ _ _ => refForImage_inj,
    fun _ _ calls hash h => (h.execAll calls).listsImages hash⟩

/-- In an empty repository there is nothing to name. -/
theorem empty_listsImages : (∃ ref name, refForImage sampleImage = .ok ref ∧
      unprefixUnescapeRef imagePrefix ref = .ok name ∧
        ImageReference.tryFrom name = .ok sampleImage) ∧
    ListsImages .sorted (StoreCall.execAll sampleTables.lib
      [.operation (.importImage sampleHost (sampleImporter false))] {}) :=
  ⟨image_names_identify.1 sampleImage (by decide) (by decide),
    image_names_identify.2.2 sampleTables.lib {} _ .sorted fun ref href =>
      absurd href ExtTreeMap.not_mem_empty⟩

-- ── The ref of one image below that of another one ────────────────────────────

/-- The ref of the first image is a proper prefix of that of the second one, by components. -/
def RefBelow (upper lower : String) : Prop :=
  splitChar '/' upper.toList <+: splitChar '/' lower.toList ∧
    splitChar '/' upper.toList ≠ splitChar '/' lower.toList

/-- The name goes on where the other one ends, with a slash behind an ASCII letter or digit. -/
def NameBelow (upper lower : String) : Prop :=
  ∃ rest, lower.toList = upper.toList ++ '/' :: rest ∧ rest ≠ [] ∧
    ∃ c, upper.toList.getLast? = some c ∧ c.isAlphanum = true

/-- The same of the displayed references is that of their names, with one transport. -/
theorem displayBelow_iff {a b : ImageReference} (ha : a.name ≠ "") :
    NameBelow a.display b.display ↔ a.transport = b.transport ∧ NameBelow a.name b.name := by
  have hne : a.name.toList ≠ [] := fun h => ha (String.toList_inj.mp (by rw [h]; rfl))
  have hlast : a.display.toList.getLast? = a.name.toList.getLast? := by
    rw [ImageReference.display, String.toList_append, List.getLast?_append_of_ne_nil _ hne]
  have hdisplay : ∀ i : ImageReference,
      i.display.toList = i.transport.display.toList ++ i.name.toList := by
    intro i
    rw [ImageReference.display, String.toList_append]
  constructor
  · rintro ⟨rest, heq, hrest, c, hc, halnum⟩
    -- the colon of the transport is in both
    have hsplit := b.display_splitOnce
    rw [heq, hdisplay a, a.transport.display_toList, List.append_assoc, List.append_assoc,
      List.cons_append, splitOnce_append a.transport.colon_not_mem] at hsplit
    injection hsplit with hsplit
    have htransport := Transport.of_displayParts (Prod.mk.inj hsplit).1
    refine ⟨htransport, rest, ?_, hrest, c, hlast ▸ hc, halnum⟩
    rw [hdisplay a, hdisplay b, htransport, List.append_assoc] at heq
    exact List.append_cancel_left heq
  · rintro ⟨htransport, rest, heq, hrest, c, hc, halnum⟩
    refine ⟨rest, ?_, hrest, c, hlast.trans hc, halnum⟩
    rw [hdisplay a, hdisplay b, htransport, heq, List.append_assoc]

/-- **When two images cannot be stored side by side**: the ref of one is below that of another one
    if and only if they have one transport and the name of the one goes on where that of the other
    one ends, with a slash behind an ASCII letter or digit. -/
theorem image_refs_below_iff {a b : ImageReference} (ha : a.name ≠ "") {upper lower : String}
    (hupper : refForImage a = .ok upper) (hlower : refForImage b = .ok lower) :
    RefBelow upper lower ↔ a.transport = b.transport ∧ NameBelow a.name b.name :=
  (prefixEscapeForRef_below_iff hupper hlower).trans (displayBelow_iff ha)

/-- A repository of images, and one inside of it. -/
def outerImage : ImageReference := { transport := .registry, name := "quay.io/os" }

def innerImage : ImageReference := { transport := .registry, name := "quay.io/os/base" }

theorem refForImage_outer : refForImage outerImage
    = .ok "ostree/container/image/docker_3A__2F__2F_quay_2E_io/os" := by decide +kernel

theorem refForImage_inner : refForImage innerImage
    = .ok "ostree/container/image/docker_3A__2F__2F_quay_2E_io/os/base" := by decide +kernel

theorem outer_inner_below : RefBelow "ostree/container/image/docker_3A__2F__2F_quay_2E_io/os"
      "ostree/container/image/docker_3A__2F__2F_quay_2E_io/os/base" ↔
    outerImage.transport = innerImage.transport ∧ NameBelow outerImage.name innerImage.name :=
  image_refs_below_iff (by decide) refForImage_outer refForImage_inner

/-- **`quay.io/os` and `quay.io/os/base`**: the ref of the one is a proper prefix of that of the
    other one. -/
theorem inner_below_outer : ∃ upper lower, refForImage outerImage = .ok upper ∧
    refForImage innerImage = .ok lower ∧ outerImage ≠ innerImage ∧ RefBelow upper lower := by
  refine ⟨_, _, refForImage_outer, refForImage_inner, by decide, ?_⟩
  exact splitChar_properPrefix.mpr ⟨"base".toList, by decide⟩

end OstreeExt.Store
