import OstreeExt.Tree
import OstreeExt.Lib.Pointwise

/-!
# IMA signatures

`ima_sign` gives every regular file of a commit the attribute `security.ima`, with a signature
that `evmctl` makes, writes each directory anew with the new names of its files, and the commit
over the new root.  A table remembers what a signed object was rewritten to; of an object that is
left as it is nothing is remembered.

`evmctl` is a parameter, and may answer differently each time it is run; so is the form of the
attribute list in a content object.
-/

namespace OstreeExt

open Std (ExtTreeMap)
open Exec

-- ── Extended attributes ──

/-- `IMA_XATTR` -/
def imaXattr : Bytes := "security.ima".toList.map (·.toNat.toUInt8)

/-- `xattrs_to_map` on the entries of the variant: of two entries with one key the later one
    counts. -/
def xattrsToMap (v : List (Bytes × Bytes)) : ExtTreeMap Bytes Bytes :=
  v.foldl (fun map e => map.insert e.1 e.2) ∅

/-- `ImaOpts` -/
structure ImaOpts where
  algorithm : String
  key : String
  overwrite : Bool

/-- What stays the same while a commit is rewritten: the options, and the answers of
    `evmctl ima_sign --xattr-user` by the number of the call, the key, the digest algorithm and
    the bytes to sign.  `variant` is `a(ayay)`. -/
structure CommitRewriter (lib : Libostree) (variant : Codec (List (Bytes × Bytes))) where
  ima : ImaOpts
  evmctl : Nat → String → String → Bytes → Result Bytes

/-- What changes: the repository, how often `evmctl` has been run, and the table from the
    checksums of content objects to those of the signed ones. -/
structure Rewriting where
  repo : Repo
  calls : Nat := 0
  rewrittenFiles : ExtTreeMap Checksum Checksum := ∅

abbrev RewriteM := EStateM Stop Rewriting

/-- A call of the repository. -/
def Rewriting.onRepo {α : Type} (x : RepoM α) : RewriteM α := fun s =>
  match x s.repo with
  | .ok a r => .ok a { s with repo := r }
  | .error e r => .error e { s with repo := r }

namespace CommitRewriter

variable {lib : Libostree} {variant : Codec (List (Bytes × Bytes))} (w : CommitRewriter lib variant)

/-- `CommitRewriter::ima_sign`: the attribute, under the key that it gets in the object. -/
def imaSign (instream : Bytes) : RewriteM (List (Bytes × Bytes)) := do
  let s ← get
  set { s with calls := s.calls + 1 }
  let v ← liftR (w.evmctl s.calls w.ima.key w.ima.algorithm instream)
  pure [(imaXattr, v)]

/-- `CommitRewriter::map_file` -/
def mapFile (checksum : Checksum) : RewriteM (Option Checksum) := do
  let s ← get
  let object ← liftR (s.repo.loadFile checksum)
  match object with
  -- a symbolic link has no input stream
  | .symlink .. => pure none
  | .regular uid gid mode xattrs content =>
      let map := xattrsToMap (variant.ofBytes xattrs)
      let existingSig := map[imaXattr]?
      let map := map.erase imaXattr
      if existingSig.isSome ∧ w.ima.overwrite = false then pure none
      else
        let signed ← w.imaSign content
        let map := signed.foldl (fun map e => map.insert e.1 e.2) map
        -- the input stream is loaded again
        let s ← get
        let object ← liftR (s.repo.loadFile checksum)
        match object with
        | .symlink .. => throw (.panic "called `Option::unwrap()` on a `None` value")
        | .regular _ _ _ _ instream =>
            let newChecksum ← Rewriting.onRepo (Repo.writeFile lib none
              (.regular uid gid mode (variant.toBytes map.toList) instream))
            pure (some newChecksum)

/-- One entry of the files of a dirtree, in `map_dirtree`. -/
def mapEntry (file : String × Checksum) : RewriteM (String × Checksum) := do
  let s ← get
  match s.rewrittenFiles[file.2]? with
  | some mapped => pure (file.1, mapped)
  | none =>
      let mapped ← w.mapFile file.2
      match mapped with
      | some mapped => do
          modify fun s => { s with rewrittenFiles := s.rewrittenFiles.insert file.2 mapped }
          pure (file.1, mapped)
      | none => pure file

/-- `CommitRewriter::map_dirtree`, over at most `fuel` levels of directories. -/
def mapDirtree : Nat → Checksum → RewriteM Checksum
  | 0, _ => throw .fuel
  | fuel + 1, checksum => do
      let s ← get
      let src ← liftR (s.repo.loadDirtree checksum)
      let newFiles ← src.files.mapM w.mapEntry
      let newDirs ← src.dirs.mapM fun item => do
        let mapped ← mapDirtree fuel item.2.1
        pure (item.1, mapped, item.2.2)
      Rewriting.onRepo (Repo.writeDirtree lib none { files := newFiles, dirs := newDirs })

/-- `CommitRewriter::map_commit` -/
def mapCommit (fuel : Nat) (rev : String) : RewriteM Checksum := do
  let s ← get
  let checksum ← liftR (s.repo.requireRev rev)
  let commit ← liftR (s.repo.loadCommit checksum)
  let newDt ← w.mapDirtree fuel commit.contents
  Rewriting.onRepo (Repo.writeCommit lib none { commit with contents := newDt })

end CommitRewriter

/-- `ima_sign` -/
def imaSign {lib : Libostree} {variant : Codec (List (Bytes × Bytes))}
    (w : CommitRewriter lib variant) (fuel : Nat) (repo : Repo) (ostreeRef : String) :
    EStateM.Result Stop Rewriting Checksum :=
  w.mapCommit fuel ostreeRef { repo := repo }

-- ── The attribute lists ──

theorem xattrsToMap_append (v : List (Bytes × Bytes)) (e : Bytes × Bytes) :
    xattrsToMap (v ++ [e]) = (xattrsToMap v).insert e.1 e.2 := by
  rw [xattrsToMap, List.foldl_append]
  rfl

/-- With distinct keys every entry counts. -/
theorem lookup_xattrsToMap {v : List (Bytes × Bytes)} (hnodup : (v.map (·.1)).Nodup)
    {k x : Bytes} : (xattrsToMap v)[k]? = some x ↔ (k, x) ∈ v := by
  induction v using List.reverseRecOn with
  | nil =>
      rw [xattrsToMap, List.foldl_nil, ExtTreeMap.lookup_empty]
      exact ⟨fun h => absurd h (by simp), fun h => absurd h List.not_mem_nil⟩
  | append_singleton v e ih =>
      rw [List.map_append, List.nodup_append] at hnodup
      obtain ⟨hv, -, hdisjoint⟩ := hnodup
      rw [xattrsToMap_append, ExtTreeMap.lookup_insert, List.mem_append, List.mem_singleton]
      by_cases hk : e.1 = k
      · rw [if_pos hk]
        have hnot : ∀ x, (k, x) ∉ v := by
          intro x hx
          exact hdisjoint _ (List.mem_map_of_mem hx) e.1 (List.mem_singleton.mpr rfl) hk.symm
        constructor
        · intro h
          exact .inr (Prod.ext hk.symm (Option.some.inj h).symm)
        · rintro (h | h)
          · exact absurd h (hnot x)
          · rw [← h]
      · rw [if_neg hk, ih hv]
        constructor
        · exact .inl
        · rintro (h | h)
          · exact h
          · exact absurd (congrArg Prod.fst h).symm hk

/-- A map is read back from its entries. -/
theorem xattrsToMap_toList (map : ExtTreeMap Bytes Bytes) : xattrsToMap map.toList = map := by
  apply ExtTreeMap.ext_getElem?
  intro k
  apply Option.ext
  intro x
  rw [lookup_xattrsToMap (ExtTreeMap.nodup_keys_toList map), ExtTreeMap.mem_toList_iff]

-- ── One object ──

section Object

variable {lib : Libostree} {variant : Codec (List (Bytes × Bytes))}

/-- The attributes of a content object. -/
def attributes (variant : Codec (List (Bytes × Bytes))) (o : FileObject) : ExtTreeMap Bytes Bytes :=
  xattrsToMap (variant.ofBytes o.xattrs)

/-- An object that is left as it is: a symbolic link, or a file with a signature that is not to
    be replaced. -/
def LeftAlone (variant : Codec (List (Bytes × Bytes))) (overwrite : Bool) : FileObject → Prop
  | .symlink .. => True
  | .regular uid gid mode xattrs content =>
      (attributes variant (.regular uid gid mode xattrs content))[imaXattr]?.isSome ∧ overwrite = false

/-- What is signed of a file. -/
def FileObject.instream : FileObject → Bytes
  | .symlink .. => []
  | .regular _ _ _ _ content => content

/-- The object with a signature. -/
def signedObject (variant : Codec (List (Bytes × Bytes))) (sig : Bytes) : FileObject → FileObject
  | .symlink uid gid xattrs target => .symlink uid gid xattrs target
  | .regular uid gid mode xattrs content =>
      .regular uid gid mode (variant.toBytes (((attributes variant
        (.regular uid gid mode xattrs content)).erase imaXattr).insert imaXattr sig).toList) content

/-- The state after one run of `evmctl`, with the object stored that came out of it. -/
def Rewriting.stored (lib : Libostree) (o : FileObject) (s : Rewriting) : Rewriting :=
  { s with
    repo := Repo.record (.wrote .file (lib.fileChecksum o))
      { s.repo with files := s.repo.files.insertIfNew (lib.fileChecksum o) o }
    calls := s.calls + 1 }

namespace CommitRewriter

variable {w : CommitRewriter lib variant} {s s' : Rewriting} {c : Checksum} {o : FileObject}

theorem loadFile_of_lookup {r : Repo} (ho : r.files[c]? = some o) : r.loadFile c = .ok o := by
  rw [Repo.loadFile, ho, okOr_some]

theorem mapFile_of_leftAlone (ho : s.repo.files[c]? = some o)
    (h : LeftAlone variant w.ima.overwrite o) : w.mapFile c s = .ok none s := by
  rw [mapFile, bind_of_ok (get_run s), loadFile_of_lookup ho, bind_of_ok (liftR_ok _ _)]
  cases o with
  | symlink uid gid xattrs target => rfl
  | regular uid gid mode xattrs content =>
      have hkeep : (xattrsToMap (variant.ofBytes xattrs))[imaXattr]?.isSome = true
          ∧ w.ima.overwrite = false := h
      dsimp only
      rw [if_pos hkeep]
      rfl

/-- Any other object is signed first. -/
theorem mapFile_eq_sign (ho : s.repo.files[c]? = some o)
    (h : ¬ LeftAlone variant w.ima.overwrite o) :
    ∃ k : List (Bytes × Bytes) → RewriteM (Option Checksum),
      w.mapFile c s = (w.imaSign o.instream >>= k) s ∧
      ∀ sig, k [(imaXattr, sig)] { s with calls := s.calls + 1 }
        = .ok (some (lib.fileChecksum (signedObject variant sig o)))
            (s.stored lib (signedObject variant sig o)) := by
  rw [mapFile, bind_of_ok (get_run s), loadFile_of_lookup ho, bind_of_ok (liftR_ok _ _)]
  cases o with
  | symlink uid gid xattrs target => exact absurd trivial h
  | regular uid gid mode xattrs content =>
      have hsigns : ¬ ((xattrsToMap (variant.ofBytes xattrs))[imaXattr]?.isSome = true
          ∧ w.ima.overwrite = false) := h
      dsimp only
      rw [if_neg hsigns]
      refine ⟨_, rfl, ?_⟩
      intro sig
      show ((get >>= _ : RewriteM (Option Checksum)) _) = _
      rw [bind_of_ok (get_run _)]
      show ((liftR (s.repo.loadFile c) >>= _ : RewriteM (Option Checksum)) _) = _
      rw [loadFile_of_lookup ho, bind_of_ok (liftR_ok _ _)]
      rfl

theorem imaSign_run (instream : Bytes) (s : Rewriting) :
    w.imaSign instream s = (liftR (w.evmctl s.calls w.ima.key w.ima.algorithm instream) >>=
      fun v => pure [(imaXattr, v)] : RewriteM _) { s with calls := s.calls + 1 } := rfl

theorem mapFile_signs (ho : s.repo.files[c]? = some o)
    (h : ¬ LeftAlone variant w.ima.overwrite o) {sig : Bytes}
    (hsig : w.evmctl s.calls w.ima.key w.ima.algorithm o.instream = .ok sig) :
    w.mapFile c s = .ok (some (lib.fileChecksum (signedObject variant sig o)))
      (s.stored lib (signedObject variant sig o)) := by
  obtain ⟨k, hrun, hk⟩ := mapFile_eq_sign ho h
  have hsign : w.imaSign o.instream s = .ok [(imaXattr, sig)] { s with calls := s.calls + 1 } := by
    rw [imaSign_run, hsig, bind_of_ok (liftR_ok _ _)]
    rfl
  rw [hrun, bind_of_ok hsign, hk]

theorem mapFile_refused (ho : s.repo.files[c]? = some o)
    (h : ¬ LeftAlone variant w.ima.overwrite o) {e : Stop}
    (hsig : w.evmctl s.calls w.ima.key w.ima.algorithm o.instream = .error e) :
    w.mapFile c s = .error e { s with calls := s.calls + 1 } := by
  obtain ⟨k, hrun, _⟩ := mapFile_eq_sign ho h
  have hsign : w.imaSign o.instream s = .error e { s with calls := s.calls + 1 } := by
    rw [imaSign_run, hsig, bind_of_error (liftR_error _ _)]
  rw [hrun, bind_of_error hsign]

/-- **What a successful run of `map_file` does.** -/
theorem mapFile_ok {r : Option Checksum} (h : w.mapFile c s = .ok r s') :
    ∃ o, s.repo.files[c]? = some o ∧
      ((LeftAlone variant w.ima.overwrite o ∧ r = none ∧ s' = s) ∨
        (¬ LeftAlone variant w.ima.overwrite o ∧ ∃ sig,
          r = some (lib.fileChecksum (signedObject variant sig o)) ∧
          s' = s.stored lib (signedObject variant sig o))) := by
  have hrun := h
  rw [mapFile, bind_of_ok (get_run s)] at hrun
  obtain ⟨o, s₁, hload, -⟩ := bind_ok hrun
  have ho := okOr_eq_ok.mp (liftR_eq_ok hload).1
  refine ⟨o, ho, ?_⟩
  by_cases hleft : LeftAlone variant w.ima.overwrite o
  · rw [mapFile_of_leftAlone ho hleft] at h
    injection h with hr hs
    exact .inl ⟨hleft, hr.symm, hs.symm⟩
  · cases hsig : w.evmctl s.calls w.ima.key w.ima.algorithm o.instream with
    | ok sig =>
        rw [mapFile_signs ho hleft hsig] at h
        injection h with hr hs
        exact .inr ⟨hleft, sig, hr.symm, hs.symm⟩
    | error e =>
        rw [mapFile_refused ho hleft hsig] at h
        exact absurd h (by simp)

end CommitRewriter

end Object

end OstreeExt
