import OstreeExt.Store.Layout
import OstreeExt.Tar.Import

/-!
# Storing one layer

The transactions of `unencapsulate_base`: a chunk layer is imported as an object set and
kept as a synthetic commit under the layer's ref, the commit layer is imported as a commit
and kept as itself.
-/

namespace OstreeExt.Store

open OstreeExt Tar Exec

section Layers

variable (lib : Libostree)

/-- The transaction for a chunk layer. -/
def importChunkLayer (writeRefs : Bool) (targetRef : String) (blob : Stream) :
    RepoM (Option Checksum) :=
  Repo.autoTransaction do
    if writeRefs then
      let commit ← withImporter Importer.newForObjectSet do
        importObjects lib blob
        finishImportObjectSet lib
      Repo.setRef targetRef (some commit)
      pure (some commit)
    else
      withImporter Importer.newForObjectSet (importObjects lib blob)
      pure none

/-- The transaction for the commit layer. -/
def importCommitLayer (remote : Option String) (writeRefs : Bool) (targetRef : String)
    (blob : Stream) : RepoM Checksum :=
  Repo.autoTransaction do
    let commit ← withImporter (Importer.newForCommit remote) do
      importCommit lib blob
      finishImportCommit
    if writeRefs then Repo.setRef targetRef (some commit) else pure ()
    Repo.markCommitPartial commit false
    pure commit

end Layers

theorem autoTransaction_ok {α : Type} {body : RepoM α} {r r' : Repo} {a : α}
    (h : body r = .ok a r') : Repo.autoTransaction body r = .ok a r' := by
  rw [Repo.autoTransaction, h]

end OstreeExt.Store
