import OstreeExt.ImageReference
import Std.Data.ExtTreeMap

/-!
# OCI manifests and configurations

The parts of `oci_spec::image` that the code reads or writes, and `push_layer` of the
`ocidir` crate.  A digest is kept as its text, `sha256:` and 64 hex digits.
-/

namespace OstreeExt

open Std

/-- `HashMap<String, String>`: labels and annotations. -/
abbrev StrMap := ExtTreeMap String String

/-- `oci_image::Digest`, by its text. -/
abbrev Digest := String

/-- The media types the code distinguishes. -/
inductive MediaType where
  | imageLayer
  | imageLayerGzip
  | imageLayerZstd
  | imageConfig
  | other (t : String)
  deriving DecidableEq

/-- A content descriptor.  `PartialEq` on descriptors compares every field, so all of
    them are kept. -/
structure Descriptor where
  mediaType : MediaType
  digest : Digest
  size : Nat
  urls : Option (List String) := none
  annotations : Option StrMap := none
  platform : Option String := none
  artifactType : Option String := none
  data : Option String := none
  deriving DecidableEq

/-- An image manifest. -/
structure ImageManifest where
  config : Descriptor
  layers : List Descriptor
  annotations : Option StrMap := none
  deriving DecidableEq

/-- One history entry of an image configuration. -/
structure History where
  created : Option String := none
  createdBy : Option String := none
  comment : Option String := none
  deriving DecidableEq

/-- The `config` object of an image configuration. -/
structure Config where
  labels : Option StrMap := none
  deriving DecidableEq

/-- An image configuration. -/
structure ImageConfiguration where
  created : Option String := none
  architecture : String := "amd64"
  config : Option Config := none
  diffIds : List String := []
  history : List History := []
  deriving DecidableEq

/-- `labels_of`. -/
def labelsOf (config : ImageConfiguration) : Option StrMap :=
  config.config.bind (·.labels)

/-- A layer written to an OCI directory (`ocidir::Layer`): the compressed blob, and the
    digest of the uncompressed tar stream. -/
structure Layer where
  sha256 : String
  size : Nat
  uncompressedSha256 : String
  mediaType : MediaType
  deriving DecidableEq

/-- The descriptor `push_layer` builds for a layer. -/
def Layer.descriptor (l : Layer) (annotations : Option StrMap) : Descriptor where
  mediaType := l.mediaType
  digest := "sha256:" ++ l.sha256
  size := l.size
  annotations := annotations

/-- The diff id of a layer as it stands in `rootfs.diff_ids`. -/
def Layer.diffId (l : Layer) : String := "sha256:" ++ l.uncompressedSha256

/-- `OciDir::push_layer`: one descriptor, one diff id and one history entry more. -/
def pushLayer (image : ImageManifest × ImageConfiguration) (layer : Layer)
    (description : String) (annotations : Option StrMap) :
    ImageManifest × ImageConfiguration :=
  ({ image.1 with layers := image.1.layers ++ [layer.descriptor annotations] },
   { image.2 with
      diffIds := image.2.diffIds ++ [layer.diffId]
      history := image.2.history ++ [{ createdBy := some description }] })

end OstreeExt
