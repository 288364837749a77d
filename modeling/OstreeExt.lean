import OstreeExt.Lib.Exec
import OstreeExt.Lib.Fails
import OstreeExt.Lib.FileTree
import OstreeExt.Lib.Removal
import OstreeExt.Lib.Relay
import OstreeExt.Lib.Alike
import OstreeExt.Lib.Interleave
import OstreeExt.Lib.Maps
import OstreeExt.Lib.Sums
import OstreeExt.Lib.Pointwise
import OstreeExt.Lib.Refinement
import OstreeExt.Prelude
import OstreeExt.Returns
import OstreeExt.Refescape
import OstreeExt.ImageReference
import OstreeExt.ImageOrigin
import OstreeExt.Oci
import OstreeExt.Progress
import OstreeExt.ManifestDiff
import OstreeExt.Path
import OstreeExt.RefPath
import OstreeExt.Repo
import OstreeExt.Table
import OstreeExt.Tree
import OstreeExt.Chunking
import OstreeExt.Packing
import OstreeExt.Statistics
import OstreeExt.Bins
import OstreeExt.Quota
import OstreeExt.Merge
import OstreeExt.HighBins
import OstreeExt.Conserve
import OstreeExt.Tar.Entry
import OstreeExt.Tar.ObjectNames
import OstreeExt.Tar.Import
import OstreeExt.Tar.Export
import OstreeExt.Tar.Reader
import OstreeExt.Tar.Mirror
import OstreeExt.Tar.LinkTarget
import OstreeExt.Tar.Walk
import OstreeExt.Tar.RoundTrip
import OstreeExt.Tar.Lossless
import OstreeExt.Tar.Complete
import OstreeExt.Tar.Verified
import OstreeExt.Tar.Replay
import OstreeExt.Tar.Again
import OstreeExt.Tar.Pairing
import OstreeExt.Tar.Frame
import OstreeExt.Tar.Chunks
import OstreeExt.Tar.Streams
import OstreeExt.Tar.Listing
import OstreeExt.Tar.Output
import OstreeExt.Tar.Distinct
import OstreeExt.Tar.Ordered
import OstreeExt.Tar.Truncated
import OstreeExt.Tar.SingleChunk
import OstreeExt.Tar.Write
import OstreeExt.Tar.Reinject
import OstreeExt.Tar.Confine
import OstreeExt.Tar.Hardlinks
import OstreeExt.Tar.Normalize
import OstreeExt.Tar.Spelling
import OstreeExt.Store.Refs
import OstreeExt.Store.Layout
import OstreeExt.UpdateDetachedmeta
import OstreeExt.Store.Query
import OstreeExt.Store.Gc
import OstreeExt.Store.Prune
import OstreeExt.Store.Layer
import OstreeExt.Store.Crash
import OstreeExt.Store.Importer
import OstreeExt.Store.Prepare
import OstreeExt.Encapsulate
import OstreeExt.RawMeta
import OstreeExt.Rebuild
import OstreeExt.PriorBuild
import OstreeExt.Store.Chunked
import OstreeExt.Moved
import OstreeExt.MetadataSize
import OstreeExt.Store.Export
import OstreeExt.Store.Derived
import OstreeExt.Store.Import
import OstreeExt.Store.Runs
import OstreeExt.Store.Whole
import OstreeExt.Store.Clients
import OstreeExt.Store.Trust
import OstreeExt.Store.Cache
import OstreeExt.Store.Unencapsulate
import OstreeExt.Store.Catalog
import OstreeExt.Store.Copy
import OstreeExt.Sysroot.Model
import OstreeExt.Sysroot.Refines
import OstreeExt.Sysroot.Deployed
import OstreeExt.BuildOci
import OstreeExt.Store.Shipment
import OstreeExt.Store.Shipped
import OstreeExt.Store.ImageNames
import OstreeExt.RepoFile
import OstreeExt.Store.Compare
import OstreeExt.Diff.Walk
import OstreeExt.Diff.Exact
import OstreeExt.Diff.Total
import OstreeExt.Repair
import OstreeExt.Ima.Model
import OstreeExt.Ima.Signed
import OstreeExt.Ima.Preserves
import OstreeExt.Cleanup.Model
import OstreeExt.Cleanup.Sweep
import OstreeExt.Cleanup.Exact
import OstreeExt.Cleanup.Mounts
