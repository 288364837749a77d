import OstreeExt.Tar.Again

/-!
# What an import leaves alone

Everything that `import_commit` does to a repository is done by few primitive writes, all of
them for one commit: a mark, the commit object, its detached metadata, an accepted signature,
and the writes of later entries.  A relation that these keep is kept by the whole import, error
or not (`ImportFrame.importTarBody`).
-/

namespace OstreeExt.Tar

open OstreeExt Exec

/-- A relation between repositories that every write of an import of the commit `c` keeps, if
    its detached metadata is one of `D`. -/
structure ImportFrame (c : Checksum) (D : Dict → Prop) (R : Repo → Repo → Prop) : Prop where
  refl : ∀ r, R r r
  trans : ∀ a b c, R a b → R b c → R a c
  harmless : ∀ r r', Harmless r r' → R r r'
  marked : ∀ r, R r (Repo.record (.markedPartial c true)
    { r with partialCommits := insert c r.partialCommits })
  commit : ∀ r v, R r (Repo.record (.wrote .commit c)
    { r with commits := r.commits.insertIfNew c v })
  commitmeta : ∀ r d, D d → R r (Repo.record (.wrote .commitMeta c)
    { r with commitmetas := r.commitmetas.insert c d })
  accepted : ∀ r remote x y, R r (Repo.record (.accepted remote x y) r)

/-- The relation, seen from the importer. -/
def OnRepo (R : Repo → Repo → Prop) (imp imp' : Importer) : Prop := R imp.repo imp'.repo

theorem steps_onRepo {R : Repo → Repo → Prop} {α : Type} {x : RepoM α} (h : Steps R x) :
    Steps (OnRepo R) (onRepo x) := by
  intro imp
  have hx := h imp.repo
  rw [onRepo]
  cases hrun : x imp.repo with
  | ok a r => rw [hrun] at hx; exact hx
  | error e r => rw [hrun] at hx; exact hx

section Frame

variable {lib : Libostree} {c : Checksum} {D : Dict → Prop} {R : Repo → Repo → Prop}
  (hR : ImportFrame c D R)

include hR

theorem ImportFrame.refl_step (imp : Importer) : OnRepo R imp imp := hR.refl _

theorem ImportFrame.trans_step (i j k : Importer) (h : OnRepo R i j) (h' : OnRepo R j k) :
    OnRepo R i k := hR.trans _ _ _ h h'

theorem ImportFrame.of_harmless {α : Type} {x : ImportM α} (h : Steps HarmlessStep x) :
    Steps (OnRepo R) x :=
  fun imp => hR.harmless _ _ (h imp)

theorem ImportFrame.writeCommit (commit : Commit) :
    Steps R (Repo.writeCommit lib (some c) commit) := by
  by_cases hsum : lib.commitChecksum commit = c
  · intro r
    rw [Repo.writeCommit_run hsum]
    exact hR.commit r commit
  · intro r
    rw [Repo.writeCommit, Repo.checkExpected, if_neg (fun heq => hsum heq.symm)]
    exact hR.refl r

theorem ImportFrame.writePartialCommit (commit : Commit) :
    Steps (OnRepo R) (writePartialCommit lib c commit) := by
  refine Steps.bind hR.trans_step (steps_onRepo hR.marked) (fun _ => ?_)
  refine Steps.bind hR.trans_step (steps_onRepo (hR.writeCommit commit)) (fun _ => ?_)
  exact hR.of_harmless (assertEq_harmless _ _)

theorem ImportFrame.writeCommitDetachedMetadata {d : Dict} (hd : D d) :
    Steps (OnRepo R) (Tar.onRepo (Repo.writeCommitDetachedMetadata c d)) :=
  steps_onRepo (fun r => hR.commitmeta r d hd)

/-- Detached metadata that is read from an entry and then used. -/
theorem ImportFrame.readMeta {e : Entry} (hD : D (lib.dict.ofBytes e.data)) (desc : String)
    {f : Dict → ImportM Unit} (hf : ∀ d, D d → Steps (OnRepo R) (f d)) :
    Steps (OnRepo R) (liftR (entryToVariant lib.dict e desc) >>= f) := by
  intro imp
  rcases liftR_bind_run (entryToVariant lib.dict e desc) f imp with
    ⟨stop, hstop⟩ | ⟨d, hd, hrun⟩
  · rw [hstop]
    exact hR.refl _
  · rw [hrun]
    exact hf d (entryToVariant_eq_ok hd ▸ hD) imp

theorem ImportFrame.importNextObject {e : Entry} (hD : D (lib.dict.ofBytes e.data)) (p : Path) :
    Steps (OnRepo R) (importNextObject lib c e p) := by
  rw [importNextObject_eq]
  refine Steps.bind hR.trans_step (hR.of_harmless (liftR_harmless _)) (fun x => ?_)
  split
  · exact hR.readMeta hD _ (fun d hd => hR.writeCommitDetachedMetadata hd)
  · exact hR.of_harmless (importObject_harmless p)

theorem ImportFrame.importVerified {e : Entry} (hD : D (lib.dict.ofBytes e.data))
    (remote : String) (commit : Commit) (next : Checksum) (ty : ObjectType) :
    Steps (OnRepo R) (importVerified lib remote c commit e next ty) := by
  rw [Tar.importVerified]
  split
  · exact Steps.throw hR.refl_step _
  split
  · exact Steps.throw hR.refl_step _
  refine hR.readMeta hD _ (fun d hd => ?_)
  have hverify : Steps R (Repo.signatureVerifyCommitData lib remote (lib.commit.toBytes commit)
      (lib.dict.toBytes d)) := by
    rw [Repo.signatureVerifyCommitData]
    split
    · exact fun r => hR.accepted r _ _ _
    · exact Steps.throw hR.refl _
  refine Steps.bind hR.trans_step (steps_onRepo hverify) (fun _ => ?_)
  exact Steps.bind hR.trans_step (hR.writePartialCommit commit)
    (fun _ => hR.writeCommitDetachedMetadata hd)

/-- Both ways to handle the commit and the entry after it. -/
theorem ImportFrame.importHead {e : Entry} (hD : D (lib.dict.ofBytes e.data)) (commit : Commit)
    (p : Path) (next : Checksum × ObjectType) : Steps (OnRepo R) (importHead lib c commit e p next) := by
  refine Steps.bind hR.trans_step (fun imp => hR.refl_step imp) (fun imp => ?_)
  cases imp.remote with
  | some remote => exact hR.importVerified hD remote commit next.1 next.2
  | none =>
      exact Steps.bind hR.trans_step (hR.writePartialCommit commit)
        (fun _ => hR.importNextObject hD p)

end Frame

section Body

variable {lib : Libostree} {D : Dict → Prop} {R : Repo → Repo → Prop}

/-- The detached metadata that the second entry of a stream is read as. -/
def streamDict (lib : Libostree) (s : Stream) : Option Dict :=
  match filterEntries s with
  | _ :: .ok (e, _) :: _ => some (lib.dict.ofBytes e.data)
  | _ => none

/-- The commit that a stream names is the one at its head. -/
theorem streamCommit_of_head {s : Stream} {c : Checksum} {commit : Commit} {ty : ObjectType}
    {commitEnt nextEnt : Entry} {commitPath nextPath : Path}
    {rest : List (Except String (Entry × Path))}
    (hents : filterEntries s = .ok (commitEnt, commitPath) :: .ok (nextEnt, nextPath) :: rest)
    (hparse : parseMetadataEntry commitPath = .ok (c, ty))
    (hcommit : entryToVariant lib.commit commitEnt c = .ok commit) :
    streamCommit lib s = some (c, commit) := by
  simp only [streamCommit, hents, hparse, entryToVariant_eq_ok hcommit]

/-- A stream without a commit to name is not imported. -/
theorem ImportFrame.importCommit {s : Stream} (hrefl : ∀ r, R r r)
    (hR : ∀ c commit, streamCommit lib s = some (c, commit) → ImportFrame c D R)
    (hD : ∀ d, streamDict lib s = some d → D d)
    (remote : Option String) (r : Repo) : OnRepo R (.newForCommit remote r)
      (finalState (importCommit lib s (.newForCommit remote r))) := by
  rcases @importCommit_head_cases lib s with ⟨stop, hstop⟩ | ⟨commitEnt, commitPath, nextEnt,
    nextPath, rest, next, c, commit, hents, hnext, hparse, hcommit, hrun⟩
  · rw [hstop]
    exact hrefl r
  · have hframe := hR c commit (streamCommit_of_head hents hparse hcommit)
    have hmeta : D (lib.dict.ofBytes nextEnt.data) := hD _ (by simp only [streamDict, hents])
    rw [hrun]
    refine Steps.bind hframe.trans_step (hframe.importHead hmeta commit nextPath next)
      (fun _ => ?_) _
    refine Steps.bind hframe.trans_step (hframe.of_harmless (setData_harmless c)) (fun _ => ?_)
    exact hframe.of_harmless (importObjectsImpl_harmless rest)

theorem finalState_withImporter {α : Type} (mk : Repo → Importer) (x : ImportM α) (r : Repo) :
    finalState (withImporter mk x r) = (finalState (x (mk r))).repo := by
  rw [withImporter]
  cases x (mk r) <;> rfl

/-- `finish_import_commit` only reads. -/
theorem finishImportCommit_harmless : Steps HarmlessStep finishImportCommit := by
  intro imp
  obtain ⟨repo, remote, xattrs, nextXattrs, data⟩ := imp
  cases data with
  | commit o => cases o <;> exact Harmless.refl repo
  | objectSet objset => exact Harmless.refl repo

/-- The transaction of `import_tar`. -/
def importTarBody (lib : Libostree) (src : Stream) (remote : Option String) : RepoM Checksum :=
  withImporter (Importer.newForCommit remote) do
    importCommit lib src
    finishImportCommit

theorem importTar_eq (lib : Libostree) (src : Stream) (remote : Option String) :
    importTar lib src remote = (do
      let checksum ← Repo.autoTransaction (importTarBody lib src remote)
      Repo.markCommitPartial checksum false
      pure checksum) := rfl

/-- **The frame rule**: what every write keeps is kept by an import, error or not. -/
theorem ImportFrame.importTarBody {s : Stream} (hrefl : ∀ r, R r r)
    (hR : ∀ c commit, streamCommit lib s = some (c, commit) → ImportFrame c D R)
    (hD : ∀ d, streamDict lib s = some d → D d) (remote : Option String) : Steps R (importTarBody lib s remote) := by
  intro r
  rw [Tar.importTarBody, finalState_withImporter]
  have himport := ImportFrame.importCommit hrefl hR hD remote r
  cases hrun : Tar.importCommit lib s (.newForCommit remote r) with
  | error stop imp =>
      rw [hrun] at himport
      rw [bind_of_error hrun]
      exact himport
  | ok u imp =>
      rw [hrun] at himport
      rw [bind_of_ok hrun]
      obtain ⟨c, commit, r₁, hstream, -, -, -⟩ := importCommit_adds hrun
      have hframe := hR c commit hstream
      exact hframe.trans _ _ _ himport (hframe.harmless _ _ (finishImportCommit_harmless imp))

end Body

end OstreeExt.Tar
