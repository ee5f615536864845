import Remmy.Lib.System
import Remmy.Lib.DequeLedger
import Remmy.Lib.Merge
import Remmy.WorkStealingQueue.ChaseLevSafety
import Remmy.TaskScheduler.Bag
import Remmy.TaskScheduler.Threads
import Remmy.TaskScheduler.Submitters
import Remmy.Os.FdRetry
import Remmy.Os.FdRaise
import Remmy.Os.FdLifetime
import Remmy.Io.CallOrder
import Remmy.CommandLine.Getopt
import Remmy.CommandLine.OperandGuards
import Remmy.DirNode.LongPath
import Remmy.Io.Print
import Remmy.Io.Warn
import Remmy.Io.FdWriter
import Remmy.Io.StreamConservation
import Remmy.Io.BufferedReader
import Remmy.CommandLine.ConfirmPrompt
import Remmy.Os.DirEntries
import Remmy.WorkStealingQueue.ChaseLevSequential
import Remmy.Lib.Execution
import Remmy.Lib.PriorityStacks
import Remmy.WorkStealingQueue.ChaseLevPhases
import Remmy.TaskScheduler.OneWorker
import Remmy.TaskScheduler.OneWorkerProgress
import Remmy.Lib.BlockMemory
import Remmy.Lib.Program
import Remmy.Collections.HeapArray
import Remmy.Collections.HeapArrayOwnership
import Remmy.Collections.HeapArrayMembers
import Remmy.Collections.HeapArraySequences
import Remmy.Lib.Forest
import Remmy.Removal.Kernel
import Remmy.Removal.Threads
import Remmy.Lib.Join
import Remmy.Lib.RefTree
import Remmy.Removal.System
import Remmy.Removal.References
import Remmy.Removal.Visits
import Remmy.Removal.Protocol
import Remmy.Removal.Coverage
import Remmy.Removal.Outcome
import Remmy.Removal.Overlap
import Remmy.Removal.Distinct
import Remmy.Removal.Verbose
import Remmy.Removal.Progress
import Remmy.CommandLine.Environment
import Remmy.Removal.Unlink
