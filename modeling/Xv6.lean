import Xv6.Bio
import Xv6.Block
import Xv6.BufList
import Xv6.Buffer
import Xv6.Console
import Xv6.Dirent
import Xv6.Exec
import Xv6.FileWrite
import Xv6.Fs
import Xv6.Grep
import Xv6.GroupMemory
import Xv6.Growing
import Xv6.Ide
import Xv6.Kalloc
import Xv6.Layout
import Xv6.Lib.Chain
import Xv6.Lib.Circuit
import Xv6.Lib.CircularList
import Xv6.Lib.Extents
import Xv6.Lib.Forest
import Xv6.Lib.Interruption
import Xv6.Lib.Occupancy
import Xv6.Lib.Program
import Xv6.Lib.Protocol
import Xv6.Lib.RingBuffer
import Xv6.Lib.RoundRobin
import Xv6.Lib.Runs
import Xv6.Lib.SlotMap
import Xv6.Lib.Splice
import Xv6.Lib.Writes
import Xv6.Log
import Xv6.Malloc
import Xv6.MemMove
import Xv6.Mkfs
import Xv6.Names
import Xv6.Pipe
import Xv6.Proc
import Xv6.Process
import Xv6.Runcmd
import Xv6.Sched
import Xv6.Shell
import Xv6.Sleep
import Xv6.SleepLock
import Xv6.Space
import Xv6.Spinlock
import Xv6.Store
import Xv6.Syscall
import Xv6.ThreadCreate
import Xv6.Transactions
import Xv6.Truncate
import Xv6.UserPages
import Xv6.Verif.Allocation
import Xv6.Verif.Arguments
import Xv6.Verif.BlockMap
import Xv6.Verif.BlockTree
import Xv6.Verif.Boosting
import Xv6.Verif.BufLists
import Xv6.Verif.CacheView
import Xv6.Verif.Capacity
import Xv6.Verif.Charging
import Xv6.Verif.Children
import Xv6.Verif.Classes
import Xv6.Verif.Coherence
import Xv6.Verif.Collisions
import Xv6.Verif.CommandStrings
import Xv6.Verif.Conservation
import Xv6.Verif.ConsoleReads
import Xv6.Verif.Copying
import Xv6.Verif.Counters
import Xv6.Verif.Cutting
import Xv6.Verif.Dangling
import Xv6.Verif.Deferred
import Xv6.Verif.Demotion
import Xv6.Verif.Dinodes
import Xv6.Verif.Directories
import Xv6.Verif.DirectoryRuns
import Xv6.Verif.Dirents
import Xv6.Verif.DiskQueue
import Xv6.Verif.Durability
import Xv6.Verif.Editing
import Xv6.Verif.Endings
import Xv6.Verif.ExecCalls
import Xv6.Verif.FileWrites
import Xv6.Verif.Files
import Xv6.Verif.Followers
import Xv6.Verif.Forgetting
import Xv6.Verif.Frames
import Xv6.Verif.FreePages
import Xv6.Verif.FullTable
import Xv6.Verif.Groups
import Xv6.Verif.Growproc
import Xv6.Verif.Growths
import Xv6.Verif.HeapList
import Xv6.Verif.HeapRuns
import Xv6.Verif.Holders
import Xv6.Verif.Holes
import Xv6.Verif.Images
import Xv6.Verif.Initial
import Xv6.Verif.Interrupts
import Xv6.Verif.Joining
import Xv6.Verif.KernelHalf
import Xv6.Verif.Kin
import Xv6.Verif.Lineage
import Xv6.Verif.Links
import Xv6.Verif.Loading
import Xv6.Verif.LostEntries
import Xv6.Verif.Matching
import Xv6.Verif.MkfsAppends
import Xv6.Verif.MkfsImages
import Xv6.Verif.Moves
import Xv6.Verif.NameCalls
import Xv6.Verif.Naming
import Xv6.Verif.NewPages
import Xv6.Verif.NewStacks
import Xv6.Verif.Nodes
import Xv6.Verif.OwnPages
import Xv6.Verif.Owners
import Xv6.Verif.Ownership
import Xv6.Verif.PageByPage
import Xv6.Verif.Paging
import Xv6.Verif.Parents
import Xv6.Verif.Parsing
import Xv6.Verif.Picking
import Xv6.Verif.Pipes
import Xv6.Verif.Placing
import Xv6.Verif.Plumbing
import Xv6.Verif.Pointers
import Xv6.Verif.Queues
import Xv6.Verif.Reachability
import Xv6.Verif.Reading
import Xv6.Verif.Reaping
import Xv6.Verif.Recency
import Xv6.Verif.Recovery
import Xv6.Verif.Reservations
import Xv6.Verif.Resolving
import Xv6.Verif.RootImages
import Xv6.Verif.Serving
import Xv6.Verif.SharedWrites
import Xv6.Verif.Shares
import Xv6.Verif.Sharing
import Xv6.Verif.ShellGrammar
import Xv6.Verif.Sizes
import Xv6.Verif.Steps
import Xv6.Verif.Survival
import Xv6.Verif.SyncTransactions
import Xv6.Verif.Synchronous
import Xv6.Verif.Tables
import Xv6.Verif.Tally
import Xv6.Verif.ThreadCreates
import Xv6.Verif.Tickets
import Xv6.Verif.Tokens
import Xv6.Verif.Truncation
import Xv6.Verif.Unmapping
import Xv6.Verif.UserBytes
import Xv6.Verif.UserWrites
import Xv6.Verif.Waiters
import Xv6.Verif.Wakeups
import Xv6.Verif.Walking
import Xv6.Verif.Walks
import Xv6.Vm
import Xv6.Waiting
