import OstreeExt.Chunking

/-!
# Packing components into chunks

`chunking.rs`, its second half: components (packages) are sorted into bins, and each bin
becomes a chunk.  Size and frequency limits are computed in floating point; they are
parameters here (`Statistics`), the algorithm around them is not.
-/

namespace OstreeExt

open Std

/-- `ObjectSourceMetaSized`: a component with the fields of its `ObjectSourceMeta`. -/
structure ObjectSourceMetaSized where
  identifier : String
  name : String
  srcid : String := ""
  changeTimeOffset : Nat := 0
  changeFrequency : Nat
  size : Nat
  deriving DecidableEq

/-- `ObjectMetaSized`: the mapping from content objects to component identifiers, in
    insertion order, and the components sorted by descending size. -/
structure ObjectMetaSized where
  map : List (Checksum × String)
  sizes : List ObjectSourceMetaSized

/-- What the floating-point statistics decide: comparisons with limits computed from the
    sizes and frequencies of the components, and the number of high-size bins. -/
structure Statistics where
  /-- `size >= size_high_limit`, with the sizes the limit is computed from. -/
  highSize : List Nat → Nat → Bool
  /-- `size <= size_low_limit` -/
  lowSize : List Nat → Nat → Bool
  /-- `size >= med_size_high_limit` -/
  medHighSize : List Nat → Nat → Bool
  /-- `size <= med_size_low_limit` -/
  medLowSize : List Nat → Nat → Bool
  /-- `freq >= med_freq_high_limit` -/
  medHighFreq : List Nat → Nat → Bool
  /-- `freq <= med_freq_low_limit` -/
  medLowFreq : List Nat → Nat → Bool
  /-- `(HIGH_SIZE_CUTOFF * n as f32).floor() as usize` -/
  highSizeCutoff : Nat → Nat

/-- `MAX_CHUNKS` -/
def maxChunks : Nat := 64

/-- `MIN_CHUNKED_LAYERS` -/
def minChunkedLayers : Nat := 4

/-- `LOW_PARTITION` -/
def lowPartition : String := "2ls"

/-- `HIGH_PARTITION` -/
def highPartition : String := "1hs"

/-- `CONTENT_ANNOTATION` -/
def contentAnnotationKey : String := "ostree.components"

/-- `COMPONENT_SEPARATOR` -/
def componentSeparator : Char := ','

/-- `u32::MAX` -/
def u32Max : Nat := 2 ^ 32 - 1

/-- A bin of components. -/
abbrev Bin := List ObjectSourceMetaSized

/-- `partitions.entry(k).and_modify(|bin| bin.push(pkg)).or_insert_with(|| vec![pkg])` -/
def pushPartition (partitions : ExtTreeMap String Bin) (key : String)
    (pkg : ObjectSourceMetaSized) : ExtTreeMap String Bin :=
  partitions.insert key (partitions.getD key [] ++ [pkg])

section Partitions

variable (st : Statistics)

/-- The name of the medium-size partition that a component goes to. -/
def medBucket (sizes freqs : List Nat) (pkg : ObjectSourceMetaSized) : String :=
  let sizeName :=
    if st.medHighSize sizes pkg.size then "hs"
    else if st.medLowSize sizes pkg.size then "ls"
    else "ms"
  let freqName :=
    if st.medHighFreq freqs pkg.changeFrequency then "3hf"
    else if st.medLowFreq freqs pkg.changeFrequency then "5lf"
    else "4mf"
  freqName ++ "_" ++ sizeName

/-- `get_partitions_with_threshold`.  The statistics of an empty list are `None`. -/
def getPartitionsWithThreshold (components : Bin) (limitHsBins : Nat) :
    Option (ExtTreeMap String Bin) :=
  let sizes := components.map (·.size)
  if sizes.isEmpty then none
  else
    let highSize := components.filter (fun p => st.highSize sizes p.size)
    let rest := components.filter (fun p => ¬ st.highSize sizes p.size)
    let lowSize := rest.filter (fun p => st.lowSize sizes p.size)
    let medSize := rest.filter (fun p => ¬ st.lowSize sizes p.size)
    let partitions := lowSize.foldl (fun ps p => pushPartition ps lowPartition p) ∅
    let partitions := partitions.insert highPartition (highSize.take limitHsBins)
    -- ascending sorted by frequency; the sort is stable
    let remainingPkgs := (highSize.drop limitHsBins ++ medSize).mergeSort
      (fun a b => a.changeFrequency ≤ b.changeFrequency)
    if remainingPkgs.isEmpty then none
    else
      let medSizes := remainingPkgs.map (·.size)
      let medFreqs := remainingPkgs.map (·.changeFrequency)
      some (remainingPkgs.foldl
        (fun ps p => pushPartition ps (medBucket st medSizes medFreqs p) p) partitions)

end Partitions

/-- The text between separators, as `str::split` gives it. -/
def splitComponents (annotationText : String) : List String :=
  (splitChar componentSeparator annotationText.toList).map String.ofList

/-- The components of one layer of a prior build. -/
def priorLayerComponents (layer : Descriptor) : Result (List String) := do
  let annotationText ← okOr ("Missing " ++ contentAnnotationKey ++ " on prior build")
    (layer.annotations.bind (·[contentAnnotationKey]?))
  .ok (splitComponents annotationText)

/-- Apply `f` to the last element. -/
def modifyLast {α : Type} (f : α → α) : List α → List α
  | [] => []
  | [a] => [f a]
  | a :: b :: l => a :: modifyLast f (b :: l)

/-- The components of a bin; `name_to_component[&pkg]` panics on a name that is missing. -/
def binComponents (components : Bin) (bin : List String) : Result Bin :=
  (bin.filter (· ≠ "")).mapM fun pkg =>
    match components.find? (·.name = pkg) with
    | some c => .ok c
    | none => .error (.panic "no entry found for key")

/-- `basic_packing_with_prior_build` -/
def basicPackingWithPriorBuild (components : Bin) (binSize : Nat)
    (priorBuild : ImageManifest) : Result (List Bin) := do
  let currBuild ← (priorBuild.layers.drop 1).mapM priorLayerComponents
  let prevPkgs := (ExtTreeSet.ofList currBuild.flatten : ExtTreeSet String).erase ""
  let currPkgs : ExtTreeSet String := .ofList (components.map (·.name))
  if currBuild.isEmpty then .error (.panic "No empty last bin for added packages")
  else
    let added := currPkgs.toList.filter (fun n => n ∉ prevPkgs)
    let currBuild := modifyLast (fun b => b.filter (· ≠ "") ++ added) currBuild
    let removed (n : String) : Bool := n ∈ prevPkgs ∧ n ∉ currPkgs
    let currBuild := currBuild.map (fun b => b.filter (fun n => ¬ removed n))
    let modifiedBuild ← currBuild.mapM (binComponents components)
    if (modifiedBuild.map List.length).sum ≠ components.length then
      .error (.panic "assertion `left == right` failed")
    else if binSize < modifiedBuild.length then
      .error (.panic "assertion failed: modified_build.len() <= bin_size.get() as usize")
    else .ok modifiedBuild

/-- Split into bins of at most `n` elements, `bin` being the one under construction. -/
def chunksOf (n : Nat) : List ObjectSourceMetaSized → Bin → List Bin
  | [], bin => if bin.isEmpty then [] else [bin]
  | p :: ps, bin =>
      if bin.length < n then chunksOf n ps (bin ++ [p])
      else bin :: chunksOf n ps [p]

/-- The bins of one partition. -/
def partitionBins (pkgPerBinMs : Nat) (partition : String) (pkgs : Bin) : List Bin :=
  if partition = highPartition then pkgs.map (fun p => [p])
  else if partition = lowPartition then [pkgs]
  else chunksOf pkgPerBinMs pkgs []

/-- Merge bin `i` with the one before it.  The merged bin is inserted at `i`, after both
    were removed. -/
def mergeBins (r : List Bin) (i : Nat) : Result (List Bin) :=
  match r[i - 1]?, r[i]? with
  | some prev, some curr =>
      let r' := (r.eraseIdx i).eraseIdx (i - 1)
      if i ≤ r'.length then .ok (r'.insertIdx i (prev ++ curr))
      else .error (.panic "insertion index should be <= len")
  | _, _ => .error (.panic "index out of bounds")

/-- The inner loop over the indices to merge at. -/
def mergeRound (target : Nat) : List Nat → List Bin → Result (List Bin)
  | [], r => .ok r
  | i :: is, r =>
      if r.length ≤ target then .ok r
      else do
        let r ← mergeBins r i
        mergeRound target is r

/-- `(start..end).step_by(2).rev()` -/
def stepIndices (start stop : Nat) : List Nat :=
  ((List.range ((stop - start + 1) / 2)).map (fun k => start + 2 * k)).reverse

/-- The loop that merges medium-size bins until the number of bins fits; `fuel` bounds the
    number of rounds. -/
def foldBins (start target : Nat) : Nat → List Bin → Result (List Bin)
  | 0, r => if r.length ≤ target then .ok r else .error .fuel
  | fuel + 1, r =>
      if r.length ≤ target then .ok r
      else do
        let r ← mergeRound target (stepIndices start (r.length - 1)) r
        foldBins start target fuel r

/-- Subtraction of unsigned integers, which panics below zero. -/
def checkedSub (a b : Nat) : Result Nat :=
  if b ≤ a then .ok (a - b) else .error (.panic "attempt to subtract with overflow")

/-- The bins for the components that are not of maximal frequency. -/
def packSized (st : Statistics) (fuel : Nat) (components : Bin) (nMaxFreq binSize : Nat) :
    Result (List Bin) := do
  let limitMaxFrequencyBins := min nMaxFreq 1
  let lowAndOtherBinLimit := 1 + 1 + limitMaxFrequencyBins
  let rest ← checkedSub binSize lowAndOtherBinLimit
  let limitHsBins := st.highSizeCutoff rest
  let limitMsBins ← checkedSub binSize (limitHsBins + lowAndOtherBinLimit)
  match getPartitionsWithThreshold st components limitHsBins with
  | none => .error (.panic "Partitioning components into sets")
  | some partitions =>
      let lowSizedComponentCount := (partitions.getD lowPartition []).length
      let n ← checkedSub components.length limitHsBins
      let n ← checkedSub n lowSizedComponentCount
      if limitMsBins = 0 then
        .error (.err ("number of bins should be >= " ++ toString minChunkedLayers))
      else
        let pkgPerBinMs := n / limitMsBins
        let r := partitions.toList.flatMap (fun p => partitionBins pkgPerBinMs p.1 p.2)
        foldBins (1 + limitHsBins) (binSize - 1 - limitMaxFrequencyBins) fuel r

/-- `basic_packing` -/
def basicPacking (st : Statistics) (fuel : Nat) (components : Bin) (binSize : Nat)
    (priorBuildMetadata : Option ImageManifest) : Result (List Bin) :=
  if binSize < minChunkedLayers then
    .error (.err "Condition failed: `bin_size.get() >= MIN_CHUNKED_LAYERS`")
  else
    match priorBuildMetadata with
    | some priorBuild => basicPackingWithPriorBuild components binSize priorBuild
    | none =>
        if components.length < binSize then
          .ok (components.map (fun p => [p]) ++ if 0 < components.length then [[]] else [])
        else do
          let sized := components.filter (·.changeFrequency ≠ u32Max)
          let maxFreq := components.filter (·.changeFrequency = u32Max)
          let r ← if sized.isEmpty then .ok [] else packSized st fuel sized maxFreq.length binSize
          let r := r ++ (if maxFreq.isEmpty then [] else [maxFreq]) ++ [[]]
          if (r.map List.length).sum ≠ components.length then
            .error (.panic "assertion `left == right` failed")
          else if binSize < r.length then
            .error (.panic "assertion failed: r.len() <= bin_size.get() as usize")
          else .ok r

/-- The name of the chunk for a bin. -/
def binName : Bin → String
  | [] => "Reserved for new packages"
  | first :: rest =>
      if rest.length < 5 then rest.foldl (fun acc v => acc ++ " and " ++ v.identifier) first.identifier
      else toString (rest.length + 1) ++ " components"

/-- `rmap.get(&id)`: the objects of a component, in the order of the mapping. -/
def objectsOfComponent (contentmeta : ObjectMetaSized) (identifier : String) : Result (List Checksum) :=
  let objs := (contentmeta.map.filter (·.2 = identifier)).map (·.1)
  if objs.isEmpty then .error (.panic "called `Option::unwrap()` on a `None` value") else .ok objs

/-- Move the objects of a bin out of the remainder into a new chunk. -/
def packBin (contentmeta : ObjectMetaSized) (chunking : Chunking) (bin : Bin) : Result Chunking := do
  let objs ← bin.mapM (fun c => objectsOfComponent contentmeta c.identifier)
  let chunk : Chunk := { name := binName bin, packages := bin.map (·.name) }
  let (remainder, chunk) := chunking.remainder.moveObjs chunk objs.flatten
  .ok { chunking with remainder, chunks := chunking.chunks ++ [chunk] }

/-- `Chunking::process_mapping` -/
def Chunking.processMapping (st : Statistics) (fuel : Nat) (chunking : Chunking)
    (contentmeta : ObjectMetaSized) (maxLayers : Option Nat)
    (priorBuildMetadata : Option ImageManifest) : Result Chunking :=
  let max := maxLayers.getD maxChunks
  if chunking.processedMapping then
    .error (.panic "assertion failed: !self.processed_mapping")
  else
    let chunking := { chunking with max, processedMapping := true }
    if max - chunking.chunks.length = 0 then .ok chunking
    else do
      let packing ← basicPacking st fuel contentmeta.sizes max priorBuildMetadata
      let chunking := { chunking with
        nProvidedComponents := contentmeta.sizes.length
        nSizedComponents := (contentmeta.sizes.filter (0 < ·.size)).length }
      let chunking ← packing.foldlM (packBin contentmeta) chunking
      if chunking.remainder.content.size ≠ 0 then
        .error (.panic "assertion `left == right` failed")
      else .ok chunking

/-- One bin, when its components have objects. -/
theorem packBin_ok {contentmeta : ObjectMetaSized} {bin : Bin} {objs : List (List Checksum)}
    (h : bin.mapM (fun c => objectsOfComponent contentmeta c.identifier) = .ok objs)
    (k : Chunking) {moved : Chunk × Chunk}
    (hmoved : k.remainder.moveObjs { name := binName bin, packages := bin.map (·.name) } objs.flatten
      = moved) :
    packBin contentmeta k bin = .ok { k with
      remainder := moved.1
      chunks := k.chunks ++ [moved.2] } := by
  rw [packBin, h, ← hmoved]
  rfl

/-- The steps of `process_mapping` when all of them succeed. -/
theorem processMapping_ok {st : Statistics} {fuel : Nat} {k k' : Chunking}
    {contentmeta : ObjectMetaSized} {maxLayers : Option Nat} {prior : Option ImageManifest}
    {packing : List Bin} (hfresh : k.processedMapping = false)
    (hmax : maxLayers.getD maxChunks - k.chunks.length ≠ 0)
    (hpack : basicPacking st fuel contentmeta.sizes (maxLayers.getD maxChunks) prior = .ok packing)
    (hfold : packing.foldlM (packBin contentmeta) { k with
      max := maxLayers.getD maxChunks
      processedMapping := true
      nProvidedComponents := contentmeta.sizes.length
      nSizedComponents := (contentmeta.sizes.filter (0 < ·.size)).length } = .ok k')
    (hrest : k'.remainder.content.size = 0) :
    k.processMapping st fuel contentmeta maxLayers prior = .ok k' := by
  simp only [Chunking.processMapping, hfresh, hmax, hpack, bind_ok_eq, if_false,
    Bool.false_eq_true]
  rw [hfold, bind_ok_eq, if_neg (fun h => h hrest)]

/-- What a run of `process_mapping` did, if there was room for chunks. -/
theorem processMapping_inv {st : Statistics} {fuel : Nat} {k k' : Chunking}
    {contentmeta : ObjectMetaSized} {maxLayers : Option Nat} {prior : Option ImageManifest}
    (hmax : maxLayers.getD maxChunks - k.chunks.length ≠ 0)
    (h : k.processMapping st fuel contentmeta maxLayers prior = .ok k') :
    k.processedMapping = false ∧ k'.remainder.content.size = 0 ∧ ∃ packing,
      basicPacking st fuel contentmeta.sizes (maxLayers.getD maxChunks) prior = .ok packing ∧
      packing.foldlM (packBin contentmeta) { k with
        max := maxLayers.getD maxChunks
        processedMapping := true
        nProvidedComponents := contentmeta.sizes.length
        nSizedComponents := (contentmeta.sizes.filter (0 < ·.size)).length } = .ok k' := by
  rw [Chunking.processMapping] at h
  dsimp only at h
  cases hfresh : k.processedMapping with
  | true =>
      rw [hfresh, if_pos rfl] at h
      exact absurd h (by simp)
  | false =>
      rw [hfresh, if_neg (by simp), if_neg hmax] at h
      obtain ⟨packing, hpack, h⟩ := result_bind_eq_ok.mp h
      obtain ⟨k₁, hfold, h⟩ := result_bind_eq_ok.mp h
      by_cases hrest : k₁.remainder.content.size = 0
      · rw [if_neg (fun hne => hne hrest)] at h
        obtain rfl := Except.ok.inj h
        exact ⟨rfl, hrest, packing, hpack, hfold⟩
      · rw [if_pos hrest] at h
        exact absurd h (by simp)

end OstreeExt
