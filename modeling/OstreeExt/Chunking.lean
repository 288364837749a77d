import OstreeExt.Path
import OstreeExt.Repo

/-!
# Chunks

`chunking.rs`, its first half: a commit is walked once, and every content object is put
with its size and its paths into a single chunk, from which objects are then moved into
others.
-/

namespace OstreeExt

open Std

/-- `ChunkMapping`: from a checksum to its size and file names. -/
abbrev ChunkMapping := ExtTreeMap Checksum (Nat × List Path)

/-- `Chunk` -/
structure Chunk where
  name : String := ""
  content : ChunkMapping := ∅
  size : Nat := 0
  packages : List String := []
  deriving DecidableEq

/-- `Chunking` -/
structure Chunking where
  metadataSize : Nat := 0
  remainder : Chunk := {}
  chunks : List Chunk := []
  max : Nat := 0
  processedMapping : Bool := false
  nProvidedComponents : Nat := 0
  nSizedComponents : Nat := 0

/-- The size that `query_file` reports: symbolic links have none. -/
def FileObject.size : FileObject → Nat
  | .regular _ _ _ _ content => content.length
  | .symlink .. => 0

/-- `Generation`, without the path, which is an argument of the recursion here: the code
    pushes a component before each subdirectory and pops it after. -/
structure Generation where
  metadataSize : Nat := 0
  dirtreeFound : Finset Checksum := ∅
  dirmetaFound : Finset Checksum := ∅

/-- Programs over the two arguments that the recursion updates. -/
abbrev GenM := EStateM Stop (Generation × Chunk)

/-- The update of a chunk for one file: the first path of an object counts its size. -/
def Chunk.addFile (chunk : Chunk) (checksum : Checksum) (size : Nat) (fpath : Path) : Chunk :=
  let entry := chunk.content.getD checksum (0, [])
  { chunk with
    content := chunk.content.insert checksum (size, entry.2 ++ [fpath])
    size := if entry.2.isEmpty then chunk.size + size else chunk.size }

section Generate

variable (lib : Libostree) (repo : Repo)

/-- `push_dirmeta` -/
def pushDirmeta (checksum : Checksum) : GenM Unit := do
  -- the test is against the dirtrees found, as in the source
  if checksum ∈ (← get).1.dirtreeFound then pure ()
  else
    modify fun (gen, chunk) =>
      ({ gen with dirmetaFound := insert checksum gen.dirmetaFound }, chunk)
    let child ← liftR (repo.loadDirmeta checksum)
    modify fun (gen, chunk) =>
      ({ gen with metadataSize := gen.metadataSize + (lib.dirmeta.toBytes child).length }, chunk)

/-- `push_dirtree` -/
def pushDirtree (checksum : Checksum) : GenM DirTree := do
  let child ← liftR (repo.loadDirtree checksum)
  modify fun (gen, chunk) =>
    (if checksum ∉ gen.dirtreeFound then
      { gen with metadataSize := gen.metadataSize + (lib.dirtree.toBytes child).length }
    else { gen with dirtreeFound := insert checksum gen.dirtreeFound }, chunk)
  pure child

/-- One file of a directory. -/
def generateFile (path : Path) (file : String × Checksum) : GenM Unit := do
  let o ← liftR (repo.loadFile file.2)
  modify fun (gen, chunk) => (gen, chunk.addFile file.2 o.size (path.join file.1))

/-- `generate_chunking_recurse`; `fuel` bounds the depth of the tree. -/
def generateChunkingRecurse : Nat → Path → DirTree → GenM Unit
  | 0, _, _ => throw .fuel
  | fuel + 1, path, dt => do
      forM dt.files (generateFile repo path)
      forM dt.dirs fun item => do
        let dirtree ← pushDirtree lib repo item.2.1
        generateChunkingRecurse fuel (path.join item.1) dirtree
        pushDirmeta lib repo item.2.2

/-- The walk that `Chunking::new` makes from the root of a commit. -/
def generateChunking (fuel : Nat) (commit : Commit) : GenM Unit := do
  let contents ← liftR (repo.loadDirtree commit.contents)
  let _ ← pushDirtree lib repo commit.contents
  pushDirmeta lib repo commit.dirmeta
  generateChunkingRecurse lib repo fuel [.rootDir] contents

/-- `Chunking::new`: an initial single chunk. -/
def Chunking.new (fuel : Nat) (rev : String) : Result Chunking := do
  let rev ← repo.requireRev rev
  let commit ← repo.loadCommit rev
  match generateChunking lib repo fuel commit ({}, {}) with
  | .ok _ (gen, chunk) => .ok { metadataSize := gen.metadataSize, remainder := chunk }
  | .error e _ => .error e

end Generate

/-- `Chunk::move_obj`: source and destination afterwards.  An object that the source does
    not hold is ignored. -/
def Chunk.moveObj (src dest : Chunk) (checksum : Checksum) : Chunk × Chunk :=
  match src.content[checksum]? with
  | some (size, paths) =>
      ({ src with content := src.content.erase checksum, size := src.size - size },
       { dest with content := dest.content.insert checksum (size, paths),
                   size := dest.size + size })
  | none => (src, dest)

/-- A sequence of `move_obj` calls between the same two chunks. -/
def Chunk.moveObjs (src dest : Chunk) (checksums : List Checksum) : Chunk × Chunk :=
  checksums.foldl (fun p c => p.1.moveObj p.2 c) (src, dest)

end OstreeExt
