import DryDb.Lib.Outcome
import DryDb.Lib.Lists
import DryDb.Lib.Bytes
import DryDb.Lib.Program
import DryDb.Lib.Eytzinger
import DryDb.Lib.Parser
import DryDb.Lib.Retry
import DryDb.Lib.Runs
import DryDb.Lib.Chance
import DryDb.Lib.Tables
import DryDb.Lib.Knowledge
import DryDb.Lib.Act
import DryDb.Lib.Machine
import DryDb.Lib.Handled
import DryDb.Lib.Noted
import DryDb.Lib.Sorting
import DryDb.Lib.Heap
import DryDb.Lib.Positional
import DryDb.Lib.ByteOrder
import DryDb.Model.Format
import DryDb.Model.Catalog
import DryDb.Model.Node
import DryDb.Model.Encoding
import DryDb.Model.Store
import DryDb.Model.BTree
import DryDb.Model.Verify
import DryDb.Model.Query
import DryDb.Model.Db
import DryDb.Model.Sink
import DryDb.Model.FileSink
import DryDb.Model.TreeWriter
import DryDb.Model.Budget
import DryDb.Model.Cache
import DryDb.Model.Directory
import DryDb.Model.Buffers
import DryDb.Model.Reclaim
import DryDb.Model.Spool
import DryDb.Model.Words
import DryDb.Keys.Order
import DryDb.Keys.Laws
import DryDb.Page.Codec
import DryDb.Page.Decode
import DryDb.Page.Digests
import DryDb.Page.Checked
import DryDb.Page.Ranks
import DryDb.Page.InBounds
import DryDb.Writer.Pages
import DryDb.Writer.Levels
import DryDb.Writer.Rotate
import DryDb.Writer.Entries
import DryDb.Writer.Tree
import DryDb.Writer.WellFormed
import DryDb.Writer.Files
import DryDb.Writer.Patched
import DryDb.Reader.Env
import DryDb.Reader.Visits
import DryDb.Reader.CachedWalk
import DryDb.Reader.Image
import DryDb.Reader.Agreement
import DryDb.Reader.Termination
import DryDb.Reader.PageSearch
import DryDb.Reader.PageKeys
import DryDb.Reader.Walk
import DryDb.Reader.Window
import DryDb.Reader.Scan
import DryDb.Reader.Rows
import DryDb.Reader.Drain
import DryDb.Reader.Answers
import DryDb.Reader.Descent
import DryDb.Reader.Keys
import DryDb.Reader.Keyed
import DryDb.Reader.Listed
import DryDb.Reader.Indexed
import DryDb.Reader.Steady
import DryDb.Reader.Retried
import DryDb.Reader.Forget
import DryDb.Memory.Budget
import DryDb.Memory.Shard
import DryDb.Memory.SingleFlight
import DryDb.Memory.Costs
import DryDb.Memory.Bookkeeping
import DryDb.Memory.Directory
import DryDb.Memory.Loading
import DryDb.Memory.Reclaim
import DryDb.Memory.Caching
import DryDb.Memory.Searched
import DryDb.Memory.CheckedFirst
import DryDb.Spool.Runs
import DryDb.Spool.Merging
import DryDb.Spool.Sorted
import DryDb.Spool.Streams
import DryDb.Spool.Taken
import DryDb.Spool.Tiers
import DryDb.Writer.Loaded
import DryDb.Writer.Served
import DryDb.Writer.Stored
import DryDb.Writer.References
import DryDb.Writer.Packed
import DryDb.Catalog.Prefixes
import DryDb.Model.Builder
import DryDb.Catalog.Written
import DryDb.Builder.Trees
import DryDb.Builder.Spilling
import DryDb.Builder.Calls
import DryDb.Builder.Front
import DryDb.Builder.Finished
import DryDb.Builder.Accepted
import DryDb.Builder.Opened
import DryDb.Builder.Answers
import DryDb.Builder.SortBuffer
import DryDb.Builder.Indexes
import DryDb.Builder.Lookups
