import CodebaseMem.Core.Bytes
import CodebaseMem.Core.Capacity
import CodebaseMem.Core.Compaction
import CodebaseMem.Core.ConcurrentInterner
import CodebaseMem.Core.Exec
import CodebaseMem.Core.FrozenInterner
import CodebaseMem.Core.Interner
import CodebaseMem.Core.LangSpec
import CodebaseMem.Core.Paths
import CodebaseMem.Core.RuleLookup
import CodebaseMem.Core.Specs
import CodebaseMem.Core.Tiling
import CodebaseMem.Core.Types
import CodebaseMem.Discover.Discovery
import CodebaseMem.Graph.Adjacency
import CodebaseMem.Graph.BareNames
import CodebaseMem.Graph.CodeGraph
import CodebaseMem.Graph.ConcurrentBuild
import CodebaseMem.Graph.ConcurrentSaves
import CodebaseMem.Graph.Csr
import CodebaseMem.Graph.Damage
import CodebaseMem.Graph.DanglingEdges
import CodebaseMem.Graph.EdgeOrder
import CodebaseMem.Graph.EdgeRows
import CodebaseMem.Graph.FileFormat
import CodebaseMem.Graph.FreezeSafety
import CodebaseMem.Graph.FrozenGraph
import CodebaseMem.Graph.Header
import CodebaseMem.Graph.HeaderCodec
import CodebaseMem.Graph.Identifiers
import CodebaseMem.Graph.InterruptedSave
import CodebaseMem.Graph.LabelIndex
import CodebaseMem.Graph.Loading
import CodebaseMem.Graph.MutableGraph
import CodebaseMem.Graph.NameGroups
import CodebaseMem.Graph.NameIndex
import CodebaseMem.Graph.NodeRows
import CodebaseMem.Graph.Persistence
import CodebaseMem.Graph.Pipeline
import CodebaseMem.Graph.PlainLibraries
import CodebaseMem.Graph.Readers
import CodebaseMem.Graph.Representation
import CodebaseMem.Graph.Save
import CodebaseMem.Graph.SerialBuilds
import CodebaseMem.Graph.Snapshots
import CodebaseMem.Graph.Transpose
import CodebaseMem.Library.AppendLog
import CodebaseMem.Library.BucketLayout
import CodebaseMem.Library.BufferFields
import CodebaseMem.Library.Interleaving
import CodebaseMem.Library.Joining
import CodebaseMem.Library.LittleEndian
import CodebaseMem.Library.LockStriping
import CodebaseMem.Library.Loops
import CodebaseMem.Library.NamedFiles
import CodebaseMem.Library.RecordBuffer
import CodebaseMem.Library.ScopedWalk
import CodebaseMem.Library.SpannedTree
import CodebaseMem.Library.StableSort
import CodebaseMem.Parser.EdgeRules
import CodebaseMem.Parser.EdgeSources
import CodebaseMem.Parser.Extraction
import CodebaseMem.Parser.Extractor
import CodebaseMem.Parser.Listing
import CodebaseMem.Parser.MethodNames
import CodebaseMem.Parser.NodeNames
import CodebaseMem.Parser.Pool
import CodebaseMem.Parser.QualifiedNames
import CodebaseMem.Parser.SourceOrder
