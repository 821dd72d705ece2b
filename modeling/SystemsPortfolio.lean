import SystemsPortfolio.Lib.ByteStore
import SystemsPortfolio.Lib.WordSet
import SystemsPortfolio.Wfs.Disk
import SystemsPortfolio.Wfs.Layout
import SystemsPortfolio.Wfs.Blocks
import SystemsPortfolio.Wfs.Allocator
import SystemsPortfolio.Wfs.Path
import SystemsPortfolio.Wfs.Directory
import SystemsPortfolio.Wfs.Operations
import SystemsPortfolio.Lib.Ownership
import SystemsPortfolio.Wfs.Slots
import SystemsPortfolio.Wfs.Ownership
import SystemsPortfolio.Wfs.Entries
import SystemsPortfolio.Wfs.Confined
import SystemsPortfolio.Lib.NameTree
import SystemsPortfolio.Wfs.NameSpace
import SystemsPortfolio.Lib.SlotTable
import SystemsPortfolio.Wfs.DirMap
import SystemsPortfolio.Wfs.Lookup
import SystemsPortfolio.Wfs.Resolve
import SystemsPortfolio.Wfs.Growth
import SystemsPortfolio.Wfs.Effects
import SystemsPortfolio.Wfs.Steps
import SystemsPortfolio.Wfs.Runs
import SystemsPortfolio.Wfs.DirRuns
import SystemsPortfolio.Wfs.Deletion
import SystemsPortfolio.Wfs.FileData
import SystemsPortfolio.Wfs.FileRuns
import SystemsPortfolio.Lib.Threads
import SystemsPortfolio.Lib.Transition
import SystemsPortfolio.Sync.RwLock
import SystemsPortfolio.Sync.WriterTokens
import SystemsPortfolio.Lib.Channel
import SystemsPortfolio.Sync.BoundedBuffer
import SystemsPortfolio.Sync.Snacks
import SystemsPortfolio.Stcf.Effects
import SystemsPortfolio.Lib.Locks
import SystemsPortfolio.Stcf.Accounting
import SystemsPortfolio.Stcf.LockOrder
import SystemsPortfolio.Lib.Selection
import SystemsPortfolio.Stcf.Picker
import SystemsPortfolio.Stcf.Moves
import SystemsPortfolio.Stcf.GiveCpu
import SystemsPortfolio.Stcf.GiveRace
import SystemsPortfolio.Stcf.Preemption
import SystemsPortfolio.Stcf.Slices
import SystemsPortfolio.Stcf.ForkOrder
import SystemsPortfolio.Stcf.SleepTicks
import SystemsPortfolio.Stcf.Exec2
import SystemsPortfolio.Lib.RefCount
import SystemsPortfolio.Stcf.Uvm
import SystemsPortfolio.Wsh.DynamicArray
import SystemsPortfolio.Wsh.HashMap
import SystemsPortfolio.Wsh.Parse
import SystemsPortfolio.Wsh.Builtins
import SystemsPortfolio.Wsh.RunLine
import SystemsPortfolio.Wsh.History
import SystemsPortfolio.Wfs.Files
import SystemsPortfolio.Wfs.Capacity
import SystemsPortfolio.Wfs.Stale
import SystemsPortfolio.Wfs.Orphans
import SystemsPortfolio.Wfs.Walks
import SystemsPortfolio.Lib.Escapes
import SystemsPortfolio.Wfs.CleanPath
import SystemsPortfolio.Wfs.Agreement
import SystemsPortfolio.Wfs.TwoRuns
import SystemsPortfolio.Wfs.Interference
import SystemsPortfolio.Lib.PrefixCode
import SystemsPortfolio.Wsh.Grammar
import SystemsPortfolio.Wsh.Split
import SystemsPortfolio.Wsh.Quoting
import SystemsPortfolio.Lib.Buckets
import SystemsPortfolio.Wsh.AliasMap
import SystemsPortfolio.Wsh.Listing
import SystemsPortfolio.Wsh.Dispatch
import SystemsPortfolio.Wsh.Tokenizer
import SystemsPortfolio.Wsh.Aliases
import SystemsPortfolio.Wsh.Which
import SystemsPortfolio.Lib.TreeView
import SystemsPortfolio.Wfs.FileTree
import SystemsPortfolio.Wfs.TreeRuns
import SystemsPortfolio.Lib.RedoLog
import SystemsPortfolio.Xv6.Log
import SystemsPortfolio.Xv6.LogProcs
import SystemsPortfolio.Xv6.LogRoom
import SystemsPortfolio.Xv6.LogCrash
import SystemsPortfolio.Lib.CacheView
import SystemsPortfolio.Xv6.Bio
import SystemsPortfolio.Xv6.BioBufs
import SystemsPortfolio.Xv6.BioRuns
import SystemsPortfolio.Xv6.BioCoherence
import SystemsPortfolio.Xv6.BioQueue
import SystemsPortfolio.Lib.Descriptors
import SystemsPortfolio.Wsh.PipelineFds
import SystemsPortfolio.Xv6.Pipe
import SystemsPortfolio.Xv6.PipeRuns
import SystemsPortfolio.Xv6.Files
import SystemsPortfolio.Xv6.FileMoves
import SystemsPortfolio.Xv6.FileRuns
import SystemsPortfolio.Xv6.Inode
import SystemsPortfolio.Xv6.InodeBlocks
import SystemsPortfolio.Xv6.InodeFiles
import SystemsPortfolio.Xv6.InodeRuns
