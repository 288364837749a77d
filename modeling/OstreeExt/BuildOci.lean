import OstreeExt.RawMeta
import OstreeExt.Store.Export
import OstreeExt.Store.Importer

/-!
# Building an image

`build_oci` of `container/encapsulate.rs`: the labels of an image come from the metadata of its
commit, from the caller, and from the export of the layers, in this order, and a later one wins.
They are set over those of the caller's container configuration.
`commitMetaToLabels_eq_ok` says which value each label of the first two sources has, and
`buildOci_eq_ok` what a build that is done has come through.
-/

namespace OstreeExt

open Std Store Tar Exec Objects

-- ── What is outside ───────────────────────────────────────────────────────────

/-- The values of commit metadata as `glib` reads them, and dates as `chrono` writes them. -/
structure CommitReader where
  /-- The text of a value of the string type. -/
  text : Value → String
  /-- A value of the boolean type. -/
  bool : Bytes → Option Bool
  /-- A value of the type of string arrays. -/
  strv : Bytes → Option (List String)
  /-- `DateTime::from_timestamp` and `format`, for the years that there are. -/
  date : Nat → Option String

section Reader

variable (reader : CommitReader)

/-- `lookup::<String>` -/
def lookupText (commitMeta : Dict) (key : String) : Result (Option String) := do
  let v ← lookupStr commitMeta key
  .ok (v.map reader.text)

/-- `VariantDict::lookup` of a type that is read from the bytes of a value. -/
def lookupBytes {α : Type} (read : Bytes → Option α) (signature : String) (commitMeta : Dict)
    (key : String) : Result (Option α) :=
  let mismatch : Result (Option α) := .error (.err ("Type mismatch: Expected '" ++ signature ++ "'"))
  match commitMeta[key]? with
  | none => .ok none
  | some (.other b) =>
      match read b with
      | some a => .ok (some a)
      | none => mismatch
  | some _ => mismatch

/-- `lookup::<bool>` -/
def lookupBool (commitMeta : Dict) (key : String) : Result (Option Bool) :=
  lookupBytes reader.bool "b" commitMeta key

/-- `lookup::<Vec<String>>` -/
def lookupStrv (commitMeta : Dict) (key : String) : Result (Option (List String)) :=
  lookupBytes reader.strv "as" commitMeta key

-- ── Labels ────────────────────────────────────────────────────────────────────

/-- `LEGACY_VERSION_LABEL` -/
def legacyVersionLabel : String := "version"

/-- `ANNOTATION_VERSION` -/
def annotationVersion : String := "org.opencontainers.image.version"

/-- `OSTREE_COMMIT_LABEL` -/
def ostreeCommitLabel : String := "ostree.commit"

/-- `METADATA_KEY_LINUX` -/
def metadataKeyLinux : String := "ostree.linux"

/-- `COMMIT_META_CONTAINER_CMD` -/
def commitMetaContainerCmd : String := "ostree.container-cmd"

/-- One of the keys that have to be there. -/
def copyKey (commitMeta : Dict) (labels : StrMap) (k : String) : Result StrMap := do
  let v ← lookupText reader commitMeta k
  let v ← okOr ("Could not find commit metadata key: " ++ k) v
  .ok (labels.insert k v)

/-- One of the keys that may be there. -/
def copyOptKey (commitMeta : Dict) (labels : StrMap) (k : String) : Result StrMap := do
  match ← lookupText reader commitMeta k with
  | some v => .ok (labels.insert k v)
  | none => .ok labels

/-- `commit_meta_to_labels` -/
def commitMetaToLabels (commitMeta : Dict) (keys optKeys : List String) (labels : StrMap) :
    Result StrMap := do
  let labels ← keys.foldlM (copyKey reader commitMeta) labels
  let labels ← optKeys.foldlM (copyOptKey reader commitMeta) labels
  -- bootable is an odd one out in being a boolean
  let labels := match ← lookupBool reader commitMeta metadataKeyBootable with
    | some v => (labels.insert metadataKeyBootable (toString v)).insert bootcLabel "1"
    | none => labels
  copyOptKey reader commitMeta labels metadataKeyLinux

end Reader

-- ── The image ─────────────────────────────────────────────────────────────────

/-- `encapsulate::Config` -/
structure Encapsulate.Config where
  labels : Option StrMap := none
  cmd : Option (List String) := none

/-- `ExportOpts`, as far as `build_oci` reads it.  The command of the container configuration
    stands beside it. -/
structure ExportOpts where
  copyMetaKeys : List String := []
  copyMetaOptKeys : List String := []
  maxLayers : Option Nat := none
  legacyVersionLabel : Bool := false
  containerConfig : Option OstreeExt.Config := none
  containerCmd : Option (List String) := none
  priorBuild : Option ImageManifest := none
  contentmeta : Option ObjectMetaSized := none
  created : Option String := none

/-- What `build_oci` writes beside the layers. -/
structure BuiltImage where
  manifest : ImageManifest
  config : ImageConfiguration
  cmd : Option (List String)

section Build

variable (lib : Libostree) (tar : TarCrate) (st : Statistics) (reader : CommitReader)
  (writer : OciDir) (emptyManifest : ImageManifest) (repo : Repo) (rounds fuel : Nat)

/-- The chunking of `build_oci`: without content metadata a single chunk. -/
def buildChunking (commit : Checksum) (opts : ExportOpts) : Result Chunking :=
  match opts.contentmeta with
  | some contentmeta =>
      Chunking.fromMapping lib st repo rounds fuel commit contentmeta opts.maxLayers opts.priorBuild
  | none => Chunking.new lib repo fuel commit

/-- The labels of the version, of the commit and of the caller. -/
def addLabels (commit : Checksum) (version : Option String) (config : Encapsulate.Config)
    (opts : ExportOpts) (labels : StrMap) : StrMap :=
  let labels := match version with
    | some version =>
        (if opts.legacyVersionLabel then labels.insert legacyVersionLabel version
          else labels).insert annotationVersion version
    | none => labels
  let labels := labels.insert ostreeCommitLabel commit
  (config.labels.getD ∅).toList.foldl (fun m p => m.insert p.1 p.2) labels

/-- The timestamp of a commit as text. -/
def formatTimestamp (timestamp : Nat) : Result String :=
  if 2 ^ 63 ≤ timestamp then
    .error (.panic "called `Result::unwrap()` on an `Err` value: TryFromIntError(())")
  else match reader.date timestamp with
    | some date => .ok date
    | none => .error (.panic "called `Option::unwrap()` on a `None` value")

/-- `build_oci` -/
def buildOci (rev : String) (config : Encapsulate.Config) (opts : ExportOpts) :
    Result BuiltImage := do
  let commit ← repo.requireRev rev
  let commitV ← repo.loadCommit commit
  let commitTimestamp ← formatTimestamp reader commitV.timestamp
  let imgcfg : ImageConfiguration := { created := some (opts.created.getD commitTimestamp) }
  let labels ←
    commitMetaToLabels reader commitV.metadata opts.copyMetaKeys opts.copyMetaOptKeys ∅
  let chunking ← buildChunking lib st repo rounds fuel commit opts
  let version ← lookupText reader commitV.metadata "version"
  let labels := addLabels commit version config opts labels
  let description := if commitV.subject.isEmpty then "ostree export of commit " ++ commit
    else commitV.subject
  let (image, labels) ← exportChunked lib tar writer.layers repo fuel commit
    (emptyManifest, imgcfg) labels chunking description
  let cmd ← lookupStrv reader commitV.metadata commitMetaContainerCmd
  let imgcfg := setLabels (opts.containerConfig.getD {}) labels image.2
  .ok {
    manifest := { image.1 with config := writer.writeConfig imgcfg, annotations := some labels }
    config := imgcfg
    cmd := (config.cmd.or cmd).or opts.containerCmd }

end Build

-- ── What the labels are ───────────────────────────────────────────────────────

/-- A map laid over another one. -/
theorem lookup_foldl_insert_toList (m base : StrMap) (key : String) :
    (m.toList.foldl (fun m p => m.insert p.1 p.2) base)[key]? = m[key]?.or base[key]? := by
  cases hkey : m[key]? with
  | some v =>
      exact lookup_foldl_insert (ExtTreeMap.nodup_keys_toList m) (ExtTreeMap.mem_toList_iff.mpr hkey) base
  | none =>
      have hnew : ∀ p ∈ m.toList, p.1 ≠ key := by
        rintro ⟨k, v⟩ hp rfl
        exact absurd (hkey.symm.trans (ExtTreeMap.mem_toList_iff.mp hp)) (by simp)
      rw [Option.none_or]
      generalize m.toList = l at hnew
      induction l generalizing base with
      | nil => rfl
      | cons p l ih =>
          rw [List.foldl_cons, ih _ (fun q hq => hnew q (List.mem_cons_of_mem _ hq)),
            ExtTreeMap.lookup_insert, if_neg (hnew p (List.mem_cons_self ..))]

section Labels

variable {reader : CommitReader} {commitMeta : Dict}

/-- The boolean under a key. -/
def metaBool (reader : CommitReader) (commitMeta : Dict) (key : String) : Option Bool :=
  commitMeta[key]?.bind fun
    | .other b => reader.bool b
    | _ => none

/-- What the metadata of a commit say about a label: the keys that are copied, and whether the
    commit is bootable. -/
def metaLabel (reader : CommitReader) (commitMeta : Dict) (copied : List String) (key : String) :
    Option String :=
  let bootable := metaBool reader commitMeta metadataKeyBootable
  if key = bootcLabel ∧ bootable.isSome then some "1"
  else if key = metadataKeyBootable ∧ bootable.isSome then bootable.map toString
  else if key ∈ copied then commitMeta[key]?.map reader.text
  else none

theorem lookupText_eq_ok {key : String} {v : Option String}
    (h : lookupText reader commitMeta key = .ok v) : v = commitMeta[key]?.map reader.text := by
  rw [lookupText, lookupStr] at h
  cases hv : commitMeta[key]? with
  | none =>
      rw [hv] at h
      exact (Except.ok.inj h).symm
  | some value =>
      rw [hv] at h
      dsimp only at h
      split at h
      · exact (Except.ok.inj h).symm
      · cases h

/-- A key that was copied. -/
theorem copyOptKey_eq_ok {labels labels' : StrMap} {k : String}
    (h : copyOptKey reader commitMeta labels k = .ok labels') (key : String) :
    labels'[key]? = if key = k then (commitMeta[key]?.map reader.text).or labels[key]?
      else labels[key]? := by
  obtain ⟨v, hv, h⟩ := result_bind_eq_ok.mp h
  obtain rfl := lookupText_eq_ok hv
  by_cases hkey : key = k
  · subst hkey
    rw [if_pos rfl]
    cases htext : commitMeta[key]?.map reader.text with
    | none =>
        rw [htext] at h
        cases h
        rfl
    | some text =>
        rw [htext] at h
        cases h
        rw [ExtTreeMap.lookup_insert, if_pos rfl]
        rfl
  · rw [if_neg hkey]
    cases htext : commitMeta[k]?.map reader.text with
    | none =>
        rw [htext] at h
        cases h
        rfl
    | some text =>
        rw [htext] at h
        cases h
        rw [ExtTreeMap.lookup_insert, if_neg (Ne.symm hkey)]

theorem copyKey_eq_ok {labels labels' : StrMap} {k : String}
    (h : copyKey reader commitMeta labels k = .ok labels') :
    copyOptKey reader commitMeta labels k = .ok labels' := by
  obtain ⟨v, hv, h⟩ := result_bind_eq_ok.mp h
  obtain ⟨text, htext, h⟩ := result_bind_eq_ok.mp h
  rw [okOr_eq_ok] at htext
  subst htext
  rw [copyOptKey, hv, bind_ok_eq]
  exact h

/-- Keys that were copied, one after the other. -/
theorem copyOptKeys_eq_ok {keys : List String} {labels labels' : StrMap}
    (h : keys.foldlM (copyOptKey reader commitMeta) labels = .ok labels') (key : String) :
    labels'[key]? = if key ∈ keys then (commitMeta[key]?.map reader.text).or labels[key]?
      else labels[key]? := by
  induction keys generalizing labels with
  | nil =>
      cases h
      rw [if_neg List.not_mem_nil]
  | cons k keys ih =>
      rw [List.foldlM_cons] at h
      obtain ⟨labels₁, hone, hrest⟩ := result_bind_eq_ok.mp h
      rw [ih hrest, copyOptKey_eq_ok hone]
      by_cases hk : key = k
      · rw [if_pos hk, if_pos (List.mem_cons.mpr (.inl hk))]
        split
        · rw [← Option.or_assoc, Option.or_self]
        · rfl
      · rw [if_neg hk]
        simp only [List.mem_cons, hk, false_or]

theorem copyKeys_eq_ok {keys : List String} {labels labels' : StrMap}
    (h : keys.foldlM (copyKey reader commitMeta) labels = .ok labels') :
    keys.foldlM (copyOptKey reader commitMeta) labels = .ok labels' := by
  induction keys generalizing labels with
  | nil => exact h
  | cons k keys ih =>
      rw [List.foldlM_cons] at h ⊢
      obtain ⟨labels₁, hone, hrest⟩ := result_bind_eq_ok.mp h
      rw [copyKey_eq_ok hone, bind_ok_eq]
      exact ih hrest

/-- The boolean of a bootable commit. -/
theorem lookupBool_eq_ok {key : String} {v : Option Bool}
    (h : lookupBool reader commitMeta key = .ok v) :
    v = metaBool reader commitMeta key := by
  rw [lookupBool, lookupBytes] at h
  rw [metaBool]
  cases hv : commitMeta[key]? with
  | none =>
      rw [hv] at h
      exact (Except.ok.inj h).symm
  | some value =>
      rw [hv] at h
      cases value with
      | other b =>
          dsimp only at h
          show v = reader.bool b
          cases hb : reader.bool b with
          | none =>
              rw [hb] at h
              cases h
          | some a =>
              rw [hb] at h
              exact (Except.ok.inj h).symm
      | str s => cases h
      | digest d => cases h
      | manifest m => cases h
      | config c => cases h
      | filtered f => cases h

/-- **`commit_meta_to_labels`** -/
theorem commitMetaToLabels_eq_ok {keys optKeys : List String} {labels : StrMap}
    (h : commitMetaToLabels reader commitMeta keys optKeys ∅ = .ok labels) (key : String) :
    labels[key]? = metaLabel reader commitMeta (keys ++ optKeys ++ [metadataKeyLinux]) key := by
  obtain ⟨labels₁, hkeys, h₁⟩ := result_bind_eq_ok.mp h
  obtain ⟨labels₂, hoptKeys, h₂⟩ := result_bind_eq_ok.mp h₁
  obtain ⟨bootable, hbootable, h₃⟩ := result_bind_eq_ok.mp h₂
  have hbool := lookupBool_eq_ok hbootable
  have hcopied : ∀ key : String, labels₂[key]? = if key ∈ keys ++ optKeys
      then commitMeta[key]?.map reader.text else none := by
    intro key
    rw [copyOptKeys_eq_ok hoptKeys, copyOptKeys_eq_ok (copyKeys_eq_ok hkeys),
      ExtTreeMap.lookup_empty, Option.or_none]
    by_cases hopt : key ∈ optKeys
    · rw [if_pos hopt, if_pos (List.mem_append_right _ hopt)]
      split
      · rw [Option.or_self]
      · rw [Option.or_none]
    · rw [if_neg hopt]
      simp only [List.mem_append, hopt, or_false]
  have hlinux : ∀ labels₃ : StrMap,
      copyOptKey reader commitMeta labels₃ metadataKeyLinux = .ok labels →
      labels[key]? = if key = metadataKeyLinux then (commitMeta[key]?.map reader.text).or labels₃[key]?
        else labels₃[key]? := fun labels₃ hrun => copyOptKey_eq_ok hrun key
  -- the keys that are copied
  have hlast : ∀ o : Option String, o = (if key ∈ keys ++ optKeys
        then commitMeta[key]?.map reader.text else none) →
      (if key = metadataKeyLinux then (commitMeta[key]?.map reader.text).or o else o)
        = if key ∈ keys ++ optKeys ++ [metadataKeyLinux] then commitMeta[key]?.map reader.text
          else none := by
    rintro o rfl
    by_cases hkey : key = metadataKeyLinux
    · rw [if_pos hkey, if_pos (List.mem_append_right _ (List.mem_singleton.mpr hkey))]
      split
      · rw [Option.or_self]
      · rw [Option.or_none]
    · rw [if_neg hkey]
      simp only [List.mem_append, List.mem_singleton, hkey, or_false]
  cases bootable with
  | none =>
      rw [metaLabel, ← hbool, if_neg (by simp), if_neg (by simp), hlinux _ h₃]
      exact hlast _ (hcopied key)
  | some v =>
      have hne : bootcLabel ≠ metadataKeyLinux := by decide
      have hne' : metadataKeyBootable ≠ metadataKeyLinux := by decide
      rw [metaLabel, ← hbool, hlinux _ h₃]
      rw [ExtTreeMap.lookup_insert, ExtTreeMap.lookup_insert]
      by_cases hbootc : key = bootcLabel
      · rw [if_neg (fun heq => hne (hbootc.symm.trans heq)), if_pos hbootc.symm,
          if_pos ⟨hbootc, rfl⟩]
      · rw [if_neg (Ne.symm hbootc)]
        by_cases hboot : key = metadataKeyBootable
        · rw [if_neg (fun heq => hne' (hboot.symm.trans heq)), if_pos hboot.symm,
            if_neg (fun hand => hbootc hand.1), if_pos ⟨hboot, rfl⟩]
          rfl
        · have hnot : ¬ (key = bootcLabel ∧ (some v).isSome = true) := fun hand => hbootc hand.1
          have hnot' : ¬ (key = metadataKeyBootable ∧ (some v).isSome = true) :=
            fun hand => hboot hand.1
          rw [if_neg (Ne.symm hboot), if_neg hnot, if_neg hnot']
          exact hlast _ (hcopied key)

/-- The labels that are not those of the metadata. -/
def ownLabel (commit : Checksum) (version : Option String) (opts : ExportOpts) (key : String) :
    Option String :=
  if key = ostreeCommitLabel then some commit
  else if key = annotationVersion ∧ version.isSome then version
  else if key = legacyVersionLabel ∧ opts.legacyVersionLabel = true then version
  else none

theorem lookup_addLabels (commit : Checksum) (version : Option String)
    (config : Encapsulate.Config) (opts : ExportOpts) (labels : StrMap) (key : String) :
    (addLabels commit version config opts labels)[key]?
      = ((config.labels.bind (·[key]?)).or (ownLabel commit version opts key)).or labels[key]? := by
  have hconfig : (config.labels.getD ∅)[key]? = config.labels.bind (·[key]?) := by
    cases config.labels with
    | none => exact ExtTreeMap.lookup_empty _
    | some labels => rfl
  have hne : annotationVersion ≠ legacyVersionLabel := by decide
  unfold addLabels
  rw [lookup_foldl_insert_toList, hconfig, Option.or_assoc]
  congr 1
  rw [ExtTreeMap.lookup_insert, ownLabel]
  by_cases hcommit : key = ostreeCommitLabel
  · rw [if_pos hcommit, if_pos hcommit.symm]
    rfl
  rw [if_neg hcommit, if_neg (Ne.symm hcommit)]
  cases version with
  | none =>
      rw [Option.isSome_none, if_neg (by simp), ite_self]
      rfl
  | some v =>
      dsimp only
      rw [ExtTreeMap.lookup_insert, Option.isSome_some]
      by_cases hversion : key = annotationVersion
      · rw [if_pos hversion.symm, if_pos ⟨hversion, rfl⟩]
        rfl
      have hnot : ¬ (key = annotationVersion ∧ true = true) := fun hand => hversion hand.1
      rw [if_neg (Ne.symm hversion), if_neg hnot]
      cases opts.legacyVersionLabel with
      | false =>
          rw [if_neg (by simp), if_neg (by simp)]
          rfl
      | true =>
          rw [if_pos rfl, ExtTreeMap.lookup_insert]
          by_cases hlegacy : key = legacyVersionLabel
          · rw [if_pos hlegacy.symm, if_pos ⟨hlegacy, rfl⟩]
            rfl
          · have hnot' : ¬ (key = legacyVersionLabel ∧ true = true) := fun hand => hlegacy hand.1
            rw [if_neg (Ne.symm hlegacy), if_neg hnot']
            rfl

end Labels

-- ── What is built ─────────────────────────────────────────────────────────────

section Built

variable {lib : Libostree} {tar : TarCrate} {st : Statistics} {reader : CommitReader}
  {writer : OciDir} {emptyManifest : ImageManifest} {src : Repo} {rounds fuel : Nat} {rev : String}
  {c : Checksum} {commit : Commit} {config : Encapsulate.Config} {opts : ExportOpts}
  {image : BuiltImage}

/-- The label `key` of an image of the commit. -/
def imageLabel (reader : CommitReader) (c : Checksum) (commit : Commit)
    (config : Encapsulate.Config) (opts : ExportOpts) (diffId key : String) : Option String :=
  if key = diffidLabel then some diffId
  else ((config.labels.bind (·[key]?)).or
    (ownLabel c (commit.metadata["version"]?.map reader.text) opts key)).or
      (metaLabel reader commit.metadata
        (opts.copyMetaKeys ++ opts.copyMetaOptKeys ++ [metadataKeyLinux]) key)

/-- What an image of the commit consists of. -/
structure Built (lib : Libostree) (tar : TarCrate) (reader : CommitReader) (writer : OciDir)
    (src : Repo) (fuel : Nat) (c : Checksum) (commit : Commit) (config : Encapsulate.Config)
    (opts : ExportOpts) (k : Chunking) (image : BuiltImage) : Prop where
  layers : image.manifest.layers = descriptors (exportParts lib tar writer.layers src fuel c k)
  diffIds : image.config.diffIds = diffIdsOf (exportParts lib tar writer.layers src fuel c k)
  history : image.config.history.length = image.manifest.layers.length
  configDescriptor : image.manifest.config = writer.writeConfig image.config
  annotations : ∃ labels, image.manifest.annotations = some labels ∧ ∀ key : String,
    labels[key]? = imageLabel reader c commit config opts
      (lastPart lib tar writer.layers src fuel c k).1.diffId key
  labels : ∀ key : String, (labelsOf image.config).bind (·[key]?)
    = (imageLabel reader c commit config opts
        (lastPart lib tar writer.layers src fuel c k).1.diffId key).or
      ((opts.containerConfig.bind (·.labels)).bind (·[key]?))

theorem buildOci_eq_ok (hrev : src.requireRev rev = .ok c) (hcommit : src.commits[c]? = some commit)
    (hcomplete : src.Complete commit) (hdepth : src.DepthLt fuel commit.contents)
    (hempty : emptyManifest.layers = [])
    (hwithin : ∀ k, buildChunking lib st src rounds fuel c opts = .ok k → k.Within src.toObjects)
    (h : buildOci lib tar st reader writer emptyManifest src rounds fuel rev config opts
      = .ok image) :
    ∃ k, buildChunking lib st src rounds fuel c opts = .ok k ∧
      Built lib tar reader writer src fuel c commit config opts k image := by
  rw [buildOci, hrev, bind_ok_eq, Repo.loadCommit, hcommit, okOr_some, bind_ok_eq] at h
  obtain ⟨created, -, h₁⟩ := result_bind_eq_ok.mp h
  obtain ⟨labels, hlabels, h₂⟩ := result_bind_eq_ok.mp h₁
  obtain ⟨k, hk, h₃⟩ := result_bind_eq_ok.mp h₂
  obtain ⟨version, hversion, h₄⟩ := result_bind_eq_ok.mp h₃
  obtain ⟨⟨built, labels'⟩, hexport, h₅⟩ := result_bind_eq_ok.mp h₄
  obtain ⟨cmd, -, h₆⟩ := result_bind_eq_ok.mp h₅
  cases h₆
  obtain ⟨built', hrun, hlayers, hids, hhistory, hconfig⟩ := exportChunked_run hcommit hcomplete hdepth
    (hwithin k hk) _ _ _
  obtain ⟨rfl, rfl⟩ := Prod.mk.inj (Except.ok.inj (hexport.symm.trans hrun))
  have hlookup : ∀ key : String, ((addLabels c version config opts labels).insert diffidLabel
      (lastPart lib tar writer.layers src fuel c k).1.diffId)[key]?
        = imageLabel reader c commit config opts
          (lastPart lib tar writer.layers src fuel c k).1.diffId key := by
    intro key
    rw [ExtTreeMap.lookup_insert, imageLabel]
    by_cases hkey : key = diffidLabel
    · rw [if_pos hkey, if_pos hkey.symm]
    · rw [if_neg hkey, if_neg (Ne.symm hkey), lookup_addLabels, lookupText_eq_ok hversion,
        commitMetaToLabels_eq_ok hlabels]
  refine ⟨k, hk, ?_, ?_, ?_, rfl, ⟨_, rfl, hlookup⟩, ?_⟩
  · rw [hlayers, hempty]
    rfl
  · show built.2.diffIds = _
    rw [hids]
    rfl
  · show built.2.history.length = built.1.layers.length
    rw [hhistory, hlayers, hempty]
    simp [descriptors]
  · intro key
    show (List.foldl _ _ _ : StrMap)[key]? = _
    rw [lookup_foldl_insert_toList, hlookup]
    congr 1
    cases opts.containerConfig with
    | none => exact ExtTreeMap.lookup_empty _
    | some ctrcfg =>
        show (ctrcfg.labels.getD ∅)[key]? = _
        cases hctr : ctrcfg.labels with
        | none =>
            simp only [Option.bind_some, hctr, Option.bind_none]
            exact ExtTreeMap.lookup_empty _
        | some labels =>
            simp only [Option.bind_some, hctr]
            rfl

end Built

end OstreeExt
