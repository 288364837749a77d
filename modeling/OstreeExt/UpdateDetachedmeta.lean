import OstreeExt.Store.Layout

/-!
# Replacing the detached metadata of an image

`container/update_detachedmeta.rs`: the commit layer of an image is written again with other
detached metadata, and the new layer takes the place of the old one in the manifest and in
the diff ids.  The label with the diff id of the last ostree layer follows only when the
image has a single layer; `updateDetachedMetadata_iff` says what comes of that.
-/

namespace OstreeExt

open Store

/-- `update_detached_metadata`, between the two copies of the image.  `regenerate` writes the
    tar stream of the commit layer again. -/
def updateDetachedMetadata (regenerate : Descriptor → Result Layer)
    (writeConfig : ImageConfiguration → Descriptor) (manifest : ImageManifest)
    (config : ImageConfiguration) : Result (ImageManifest × ImageConfiguration) := do
  let ctrcfg ← okOr "Image is missing container configuration" config.config
  let (commitLayer, _, _) ← parseManifestLayout manifest config
  match manifest.layers.findIdx? (· = commitLayer) with
  | none => .error (.panic "called `Option::unwrap()` on a `None` value")
  | some commitLayerIdx => do
      let outLayer ← regenerate commitLayer
      let outLayerDescriptor := { outLayer with mediaType := .imageLayerGzip }.descriptor none
      if commitLayerIdx < config.diffIds.length then
        let manifest := { manifest with
          layers := manifest.layers.set commitLayerIdx outLayerDescriptor }
        let labels := ctrcfg.labels.getD ∅
        -- "Nothing to do except in the special case where there's somehow only one chunked layer"
        let labels := if manifest.layers.length = 1 then labels.insert diffidLabel outLayer.diffId
          else labels
        let config := { config with
          diffIds := config.diffIds.set commitLayerIdx outLayer.diffId
          config := some { ctrcfg with labels := some labels } }
        .ok ({ manifest with config := writeConfig config }, config)
      else .error (.panic "index out of bounds")

section Update

variable {regenerate : Descriptor → Result Layer} {writeConfig : ImageConfiguration → Descriptor}
  {manifest : ImageManifest} {config : ImageConfiguration} {first : Descriptor}
  {chunks derived : List Descriptor} {layer : Layer}

/-- The labels after the update of an image with this many layers. -/
def updatedLabels (labels : StrMap) (layer : Layer) (n : Nat) : StrMap :=
  if n = 1 then labels.insert diffidLabel layer.diffId else labels

/-- The image after the update: the first layer and the first diff id are new. -/
def updatedImage (manifest : ImageManifest) (config : ImageConfiguration) (labels : StrMap)
    (layer : Layer) : ImageManifest × ImageConfiguration :=
  ({ manifest with
      layers := manifest.layers.set 0 ({ layer with mediaType := .imageLayerGzip }.descriptor none) },
   { config with
      diffIds := config.diffIds.set 0 layer.diffId
      config := config.config.map fun c => { c with
        labels := some (updatedLabels labels layer manifest.layers.length) } })

/-- **What the update does** to an image whose layout parses: the commit layer is the first
    one. -/
theorem updateDetachedMetadata_run
    (hparse : parseManifestLayout manifest config = .ok (first, chunks, derived))
    (hregen : regenerate first = .ok layer) :
    ∃ labels, labelsOf config = some labels ∧
      updateDetachedMetadata regenerate writeConfig manifest config
        = .ok ({ (updatedImage manifest config labels layer).1 with
            config := writeConfig (updatedImage manifest config labels layer).2 },
          (updatedImage manifest config labels layer).2) := by
  obtain ⟨pre, target, id, hlayout, _⟩ := layout_of_parse hparse
  obtain ⟨labels, hlabels, _⟩ := Option.bind_eq_some_iff.mp hlayout.label
  obtain ⟨ctrcfg, hctr, hctrlabels⟩ := Option.bind_eq_some_iff.mp hlabels
  obtain ⟨rest, hlayers⟩ := List.head?_eq_some_iff.mp hlayout.head
  have hfirst : manifest.layers.findIdx? (· = first) = some 0 := by
    rw [hlayers, List.findIdx?_cons, if_pos (decide_eq_true rfl)]
  have hpos : 0 < config.diffIds.length := by
    obtain ⟨before, behind, heq, _⟩ := findIdx_iff.mp hlayout.index
    rw [heq]
    simp
  refine ⟨labels, hlabels, ?_⟩
  rw [updateDetachedMetadata, hctr, okOr_some, bind_ok_eq, hparse, bind_ok_eq]
  dsimp only
  rw [hfirst]
  dsimp only
  rw [hregen, bind_ok_eq, if_pos hpos, hctrlabels]
  simp only [updatedImage, updatedLabels, hctr, Option.map_some, Option.getD_some,
    List.length_set]

-- ── Reading the result ────────────────────────────────────────────────────────

/-- The descriptor of the regenerated layer. -/
def newDescriptor (layer : Layer) : Descriptor :=
  { layer with mediaType := .imageLayerGzip }.descriptor none

/-- The new layer is not one of the image. -/
structure Fresh (manifest : ImageManifest) (config : ImageConfiguration) (layer : Layer) :
    Prop where
  digest : "sha256:" ++ layer.sha256 ∉ manifest.layers.map (·.digest)
  diffId : layer.diffId ∉ config.diffIds

theorem Fresh.ne (h : Fresh manifest config layer) {d : Descriptor} (hd : d ∈ manifest.layers) :
    d ≠ newDescriptor layer := by
  rintro rfl
  exact h.digest (List.mem_map_of_mem hd)

/-- Where the label names a later layer, the layout is read as before, with the new layer in
    the place of the first one. -/
theorem updatedImage_chunked {labels : StrMap} {pre : List Descriptor} {target : Descriptor}
    {id : String} (hlabels : labelsOf config = some labels) (hfresh : Fresh manifest config layer)
    (h : Layout manifest config first (first :: pre) target derived id) :
    parseManifestLayout (updatedImage manifest config labels layer).1
      (updatedImage manifest config labels layer).2
      = .ok (newDescriptor layer, pre ++ [target], derived) := by
  obtain ⟨ctrcfg, hctr, hctrlabels⟩ := Option.bind_eq_some_iff.mp hlabels
  have hold : ∀ d ∈ pre ++ [target], d ≠ newDescriptor layer := by
    intro d hd
    refine hfresh.ne ?_
    rw [h.layers]
    rcases List.mem_append.mp hd with hd | hd
    · simp [hd]
    · simp [List.mem_singleton.mp hd]
  have hlayers : manifest.layers.set 0 (newDescriptor layer)
      = (newDescriptor layer :: pre) ++ target :: derived := by
    rw [h.layers]
    rfl
  have hlen : manifest.layers.length ≠ 1 := by
    rw [h.layers]
    simp
  have hlayout : Layout (updatedImage manifest config labels layer).1
      (updatedImage manifest config labels layer).2 (newDescriptor layer)
      (newDescriptor layer :: pre) target derived id := {
    layers := hlayers
    head := by
      show (manifest.layers.set 0 (newDescriptor layer)).head? = _
      rw [hlayers]
      rfl
    label := by
      have hlabel := h.label
      rw [hlabels, Option.bind_some] at hlabel
      simp only [labelsOf, updatedImage, updatedLabels, hctr, Option.map_some, Option.bind_some,
        if_neg hlen]
      exact hlabel
    index := by
      -- the diff id is not the first one, so it is found where it was
      obtain ⟨before, behind, heq, hnot, hpos⟩ := findIdx_iff.mp h.index
      cases before with
      | nil => exact absurd hpos (by simp)
      | cons b before =>
          refine findIdx_iff.mpr ⟨layer.diffId :: before, behind, ?_, ?_, hpos⟩
          · show config.diffIds.set 0 layer.diffId = _
            rw [heq]
            rfl
          · intro hmem
            rcases List.mem_cons.mp hmem with rfl | hmem
            · exact hfresh.diffId (by rw [heq]; simp)
            · exact hnot (List.mem_cons_of_mem _ hmem)
    before := by
      intro hmem
      rcases List.mem_cons.mp hmem with heq | hmem
      · exact hold target (by simp) heq
      · exact h.before (List.mem_cons_of_mem _ hmem)
    behind := h.behind }
  rw [hlayout.parse, List.cons_append, List.filter_cons_of_neg (by simp)]
  rw [List.filter_eq_self.mpr (fun d hd => decide_eq_true (hold d hd))]

/-- An image with a single layer has the new label. -/
theorem updatedImage_single {labels : StrMap} {id : String} (hlabels : labelsOf config = some labels)
    (h : Layout manifest config first [] first [] id) :
    parseManifestLayout (updatedImage manifest config labels layer).1
      (updatedImage manifest config labels layer).2 = .ok (newDescriptor layer, [], []) := by
  obtain ⟨ctrcfg, hctr, _⟩ := Option.bind_eq_some_iff.mp hlabels
  have hlayers : manifest.layers = [first] := h.layers
  have hlayout : Layout (updatedImage manifest config labels layer).1
      (updatedImage manifest config labels layer).2 (newDescriptor layer) [] (newDescriptor layer)
      [] layer.diffId := {
    layers := by
      show manifest.layers.set 0 (newDescriptor layer) = _
      rw [hlayers]
      rfl
    head := by
      show (manifest.layers.set 0 (newDescriptor layer)).head? = _
      rw [hlayers]
      rfl
    label := by
      have hlen : manifest.layers.length = 1 := by rw [hlayers]; rfl
      simp only [labelsOf, updatedImage, updatedLabels, hctr, Option.map_some, Option.bind_some,
        if_pos hlen]
      rw [Std.ExtTreeMap.lookup_insert, if_pos rfl]
    index := by
      obtain ⟨before, behind, heq, _, hpos⟩ := findIdx_iff.mp h.index
      obtain rfl := List.length_eq_zero_iff.mp hpos
      refine findIdx_iff.mpr ⟨[], behind, ?_, by simp, rfl⟩
      show config.diffIds.set 0 layer.diffId = _
      rw [heq]
      rfl
    before := by simp
    behind := by simp }
  rw [hlayout.parse]
  simp

/-- Where the label names the first of several layers, it is lost: what is read has fewer
    derived layers. -/
theorem updatedImage_derived {labels : StrMap} {id : String} (hlabels : labelsOf config = some labels)
    (hfresh : Fresh manifest config layer) (hne : derived ≠ [])
    (h : Layout manifest config first [] first derived id) (d : Descriptor)
    (chunks' : List Descriptor) :
    parseManifestLayout (updatedImage manifest config labels layer).1
      (updatedImage manifest config labels layer).2 ≠ .ok (d, chunks', derived) := by
  intro hparse
  obtain ⟨ctrcfg, hctr, hctrlabels⟩ := Option.bind_eq_some_iff.mp hlabels
  obtain ⟨pre, target, id', hlayout, _⟩ := layout_of_parse hparse
  have hlen : manifest.layers.length ≠ 1 := by
    rw [h.layers]
    simpa using hne
  have hid : id' = id := by
    have hlabel := hlayout.label
    simp only [labelsOf, updatedImage, updatedLabels, hctr, Option.map_some, Option.bind_some,
      if_neg hlen] at hlabel
    have hold := h.label
    rw [hlabels, Option.bind_some] at hold
    exact Option.some.inj (hlabel.symm.trans hold)
  -- the boundary has to be the first layer again
  have hpre : pre = [] := by
    have hl := congrArg List.length hlayout.layers
    have hl' := congrArg List.length h.layers
    simp only [updatedImage, List.length_set, List.length_append, List.length_cons] at hl
    simp only [List.nil_append, List.length_cons] at hl'
    exact List.length_eq_zero_iff.mp (by omega)
  obtain ⟨before, behind, heq, _, hpos⟩ := findIdx_iff.mp hlayout.index
  rw [hpre] at hpos
  obtain rfl := List.length_eq_zero_iff.mp hpos
  obtain ⟨before, behind', heq', _, hpos'⟩ := findIdx_iff.mp h.index
  obtain rfl := List.length_eq_zero_iff.mp hpos'
  have hset : config.diffIds.set 0 layer.diffId = [] ++ id' :: behind := heq
  rw [heq', hid] at hset
  have hsame : layer.diffId = id := (List.cons.inj hset).1
  exact hfresh.diffId (by rw [heq', hsame]; simp)

/-- **When the update keeps an image importable**: the label must name a chunk layer or the
    only layer, and no other layer of the commit may be the commit layer again. -/
theorem updateDetachedMetadata_iff
    (hparse : parseManifestLayout manifest config = .ok (first, chunks, derived))
    (hregen : regenerate first = .ok layer) (hfresh : Fresh manifest config layer) :
    ∃ manifest' config',
      updateDetachedMetadata regenerate writeConfig manifest config = .ok (manifest', config') ∧
      config'.diffIds.length = config.diffIds.length ∧
      (∀ i, i ≠ 0 → config'.diffIds[i]? = config.diffIds[i]?) ∧
      ((∃ first', manifest'.layers.head? = some first' ∧
          parseManifestLayout manifest' config' = .ok (first', chunks, derived)) ↔
        (chunks ≠ [] ∨ derived = []) ∧
          chunks.length + derived.length + 1 = manifest.layers.length) := by
  obtain ⟨labels, hlabels, hrun⟩ := @updateDetachedMetadata_run regenerate writeConfig manifest
    config first chunks derived layer hparse hregen
  obtain ⟨pre, target, id, hlayout, hchunks⟩ := layout_of_parse hparse
  refine ⟨_, _, hrun, List.length_set .., ?_, ?_⟩
  · intro i hi
    exact List.getElem?_set_ne (Ne.symm hi)
  have hlen := congrArg List.length hlayout.layers
  have hhead := hlayout.head
  rw [hlayout.layers] at hhead
  cases pre with
  | nil =>
      obtain rfl : target = first := Option.some.inj hhead
      have hnone : chunks = [] := by
        rw [hchunks]
        simp
      subst hnone
      by_cases hderived : derived = []
      · subst hderived
        refine iff_of_true ⟨newDescriptor layer, ?_, updatedImage_single hlabels hlayout⟩
          ⟨.inr rfl, by rw [hlen]; rfl⟩
        show (manifest.layers.set 0 (newDescriptor layer)).head? = _
        rw [hlayout.layers]
        rfl
      · refine iff_of_false ?_ (fun h => h.1.elim (fun h => h rfl) hderived)
        rintro ⟨first', _, h⟩
        exact updatedImage_derived hlabels hfresh hderived hlayout first' [] h
  | cons b pre =>
      obtain rfl : b = first := Option.some.inj hhead
      have hne : target ≠ b := fun h => hlayout.before (h ▸ List.mem_cons_self ..)
      rw [List.cons_append, List.filter_cons_of_neg (by simp)] at hchunks
      have hnew : parseManifestLayout (updatedImage manifest config labels layer).1
          (updatedImage manifest config labels layer).2
          = .ok (newDescriptor layer, pre ++ [target], derived) :=
        updatedImage_chunked hlabels hfresh hlayout
      have hsome : chunks ≠ [] := by
        rw [hchunks]
        exact List.ne_nil_of_mem (List.mem_filter.mpr ⟨by simp, decide_eq_true hne⟩)
      simp only [List.length_append, List.length_cons] at hlen
      constructor
      · rintro ⟨first', _, h⟩
        have hsame := (Prod.mk.inj (Prod.mk.inj (Except.ok.inj (hnew.symm.trans h))).2).1
        refine ⟨.inl hsome, ?_⟩
        rw [← hsame, hlen, List.length_append, List.length_singleton]
        omega
      · rintro ⟨_, hcount⟩
        have hall : (pre ++ [target]).filter (· ≠ b) = pre ++ [target] := by
          refine List.filter_eq_self.mpr (List.length_filter_eq_length_iff.mp ?_)
          rw [← hchunks, List.length_append, List.length_singleton]
          omega
        refine ⟨newDescriptor layer, ?_, ?_⟩
        · show (manifest.layers.set 0 (newDescriptor layer)).head? = _
          rw [hlayout.layers]
          rfl
        · rw [hchunks, hall]
          exact hnew

end Update

-- ── Two images ────────────────────────────────────────────────────────────────

/-- An image with three layers. -/
def layeredManifest : ImageManifest where
  config := { mediaType := .imageConfig, digest := "sha256:c", size := 1 }
  layers := [{ mediaType := .imageLayerGzip, digest := "sha256:0", size := 1 },
    { mediaType := .imageLayerGzip, digest := "sha256:1", size := 1 },
    { mediaType := .imageLayerGzip, digest := "sha256:2", size := 1 }]

/-- The label names this diff id. -/
def layeredConfig (id : String) : ImageConfiguration where
  config := some { labels := some ((∅ : StrMap).insert diffidLabel id) }
  diffIds := ["sha256:a", "sha256:b", "sha256:d"]

/-- The layer that is written again. -/
def regeneratedLayer : Layer :=
  { sha256 := "3", size := 1, uncompressedSha256 := "e", mediaType := .imageLayer }

theorem fresh_regeneratedLayer (id : String) :
    Fresh layeredManifest (layeredConfig id) regeneratedLayer := by
  constructor
  · decide +kernel
  · show regeneratedLayer.diffId ∉ (layeredConfig "").diffIds
    decide +kernel

/-- With one chunk layer and one derived layer the image stays importable. -/
theorem updateDetachedMetadata_chunked : ∃ manifest config,
    updateDetachedMetadata (fun _ => .ok regeneratedLayer) (fun _ => layeredManifest.config)
      layeredManifest (layeredConfig "sha256:b") = .ok (manifest, config) ∧
    ∃ first, manifest.layers.head? = some first ∧ parseManifestLayout manifest config = .ok (first,
      [{ mediaType := .imageLayerGzip, digest := "sha256:1", size := 1 }],
      [{ mediaType := .imageLayerGzip, digest := "sha256:2", size := 1 }]) := by
  have hparse : parseManifestLayout layeredManifest (layeredConfig "sha256:b") = .ok (
      { mediaType := .imageLayerGzip, digest := "sha256:0", size := 1 },
      [{ mediaType := .imageLayerGzip, digest := "sha256:1", size := 1 }],
      [{ mediaType := .imageLayerGzip, digest := "sha256:2", size := 1 }]) := by decide +kernel
  obtain ⟨manifest, config, hrun, _, _, hiff⟩ := @updateDetachedMetadata_iff
    (fun _ => .ok regeneratedLayer) (fun _ => layeredManifest.config) _ _ _ _ _ _ hparse rfl
    (fresh_regeneratedLayer _)
  exact ⟨manifest, config, hrun, hiff.mpr ⟨.inl (by simp), rfl⟩⟩

/-- Without chunk layers the label still names the diff id of the old commit layer. -/
theorem updateDetachedMetadata_derived :
    (∃ first derived, parseManifestLayout layeredManifest (layeredConfig "sha256:a")
      = .ok (first, [], derived) ∧ derived.length = 2) ∧
    Fresh layeredManifest (layeredConfig "sha256:a") regeneratedLayer ∧
    ∃ manifest config,
      updateDetachedMetadata (fun _ => .ok regeneratedLayer) (fun _ => layeredManifest.config)
        layeredManifest (layeredConfig "sha256:a") = .ok (manifest, config) ∧
      parseManifestLayout manifest config
        = .error (.err "Missing ostree.final-diffid sha256:a") := by
  refine ⟨⟨{ mediaType := .imageLayerGzip, digest := "sha256:0", size := 1 },
    layeredManifest.layers.drop 1, by decide +kernel, rfl⟩, fresh_regeneratedLayer _, ?_⟩
  exact ⟨_, _, rfl, by decide +kernel⟩

end OstreeExt
