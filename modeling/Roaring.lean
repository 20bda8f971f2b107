import Roaring.Lib.Words
import Roaring.Lib.WordRanges
import Roaring.Lib.WordPass
import Roaring.Lib.Slots
import Roaring.Lib.Bitonic
import Roaring.Lib.BlockMerge
import Roaring.Lib.SetMerge
import Roaring.Lib.Bytes
import Roaring.Lib.Search
import Roaring.Lib.Blocks
import Roaring.Lib.Chain
import Roaring.Lib.SortedMap
import Roaring.Lib.Rank
import Roaring.Lib.Window
import Roaring.Lib.Prefix
import Roaring.Lib.Ledger
import Roaring.Lib.Cursor
import Roaring.Lib.Leapfrog
import Roaring.Lib.StablePass
import Roaring.Container.Handle
import Roaring.Container.Build
import Roaring.Container.ArrayUpdate
import Roaring.Container.RunUpdate
import Roaring.Container.RunEdit
import Roaring.Container.SortedGroups
import Roaring.Container.RangeQuery
import Roaring.Container.RunAlgebra
import Roaring.Container.RunBitset
import Roaring.Container.BitsetExtract
import Roaring.Container.RunBitsetIntersect
import Roaring.Container.ArrayRunFilter
import Roaring.Container.Settle
import Roaring.Container.RangeUpdate
import Roaring.Container.Optimize
import Roaring.Container.ArrayMerge
import Roaring.Container.UnionVector
import Roaring.Container.ArrayUnion
import Roaring.Lib.BlockMatch
import Roaring.Container.VectorIntersect
import Roaring.Container.VectorDifference
import Roaring.Container.SkewedIntersect
import Roaring.Container.XorVector
import Roaring.Container.Ownership
import Roaring.Container.HandleCopies
import Roaring.Bitmap.Basic
import Roaring.Bitmap.Shared
import Roaring.Bitmap.SharedCounts
import Roaring.Bitmap.SharedSound
import Roaring.Bitmap.SharedRuns
import Roaring.Wire.Portable
import Roaring.Wire.PortableFormat
import Roaring.Wire.PortableReader
import Roaring.Wire.PortableSafety
import Roaring.Wire.PortableWriter
import Roaring.Wire.PortableRoundTrip
import Roaring.Wire.Frozen
import Roaring.Wire.FrozenSearch
import Roaring.Wire.FrozenLayout
import Roaring.Wire.FrozenAccept
import Roaring.Wire.FrozenRoundTrip
import Roaring.Wire.FrozenOffsets
import Roaring.Wire.RankedView
import Roaring.Wire.RankedSearch
import Roaring.Wire.RankedBounds
import Roaring.Wire.RankedBlocks
import Roaring.Wire.RankedAnswers
import Roaring.Wire.BlockSearch
import Roaring.Table.Leaf
import Roaring.Table.Inner
import Roaring.Table.Levels
import Roaring.Table.ChunkTree
import Roaring.Table.Validate
import Roaring.Table.Rows
import Roaring.Table.TreeInvariant
import Roaring.Table.ChainSteps
import Roaring.Table.TreeIndex
import Roaring.Table.TreeGrow
import Roaring.Table.TreeInsert
import Roaring.Table.TreeSplit
import Roaring.Table.TreeErase
import Roaring.Table.TreeValidate
import Roaring.Table.TreeRuns
import Roaring.Table.ChunkArray
import Roaring.Table.ArrayFailure
import Roaring.Table.ArraySearch
import Roaring.Interop.Sources
import Roaring.Interop.KeysSource
import Roaring.Interop.BitsSource
import Roaring.Interop.Operands
import Roaring.Interop.Streams
import Roaring.Interop.IntervalQueries
import Roaring.Interop.SortKeys
import Roaring.Container.ArrayCombine
import Roaring.Container.KernelAgreement
import Roaring.Lib.WordCount
import Roaring.Container.BitsetInPlace
import Roaring.Container.Combine
