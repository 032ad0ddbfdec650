import MariaDb.Bisect
import MariaDb.RangeSet
import MariaDb.ReadView
import MariaDb.LockRec
import MariaDb.LockRecGrant
import MariaDb.LockRecExclusion
import MariaDb.DeadlockReport
import MariaDb.Deadlock
import MariaDb.MlogVarint
import MariaDb.MtrLog
import MariaDb.MtrLogRead
import MariaDb.MtrReplay
import MariaDb.Decimal
import MariaDb.DecimalBin
import MariaDb.DecimalRead
import MariaDb.DecimalOrder
import MariaDb.BinaryHeap
import MariaDb.Queue
import MariaDb.Chains
import MariaDb.ChainArray
import MariaDb.ChainSplit
import MariaDb.ChainShrink
import MariaDb.LinearMask
import MariaDb.LinearHash
import MariaDb.HashTable
import MariaDb.HashSearch
import MariaDb.HashChange
import MariaDb.HashUpdate
import MariaDb.HashCalls
import MariaDb.LinkedTree
import MariaDb.MyTree
import MariaDb.MyTreeFixup
import MariaDb.MyTreeSearch
import MariaDb.MyTreeCalls
import MariaDb.MyTreeRun
import MariaDb.ParentTree
import MariaDb.SelArg
import MariaDb.ThreadedList
import MariaDb.SelArgTree
import MariaDb.SelArgFixup
import MariaDb.SelArgCalls
import MariaDb.SelArgRun
import MariaDb.GtidState
import MariaDb.NumberText
import MariaDb.GtidText
import MariaDb.GtidDropDomain
import MariaDb.GtidDuplicates
import MariaDb.Mdl
import MariaDb.MdlLists
import MariaDb.MdlExclusion
import MariaDb.MdlWaiters
import MariaDb.HeapHash
import MariaDb.HeapHashKeys
import MariaDb.HeapHashRun
import MariaDb.JsonPath
import MariaDb.JsonPathSelect
import MariaDb.JsonDoc
import MariaDb.JsonScan
import MariaDb.JsonPathNext
import MariaDb.JsonPathMatch
import MariaDb.Sequence
import MariaDb.SequenceRun
import MariaDb.SlidingSum
import MariaDb.WindowFrame
import MariaDb.WindowCursors
import MariaDb.WindowFrameRun
import MariaDb.FtsIlist
import MariaDb.FtsOptimize
import MariaDb.FtsDeletedPos
import MariaDb.FtsOptimizeRun
import MariaDb.DecimalRound
import MariaDb.DecimalRoundDigits
import MariaDb.DecimalRoundValue
import MariaDb.DecimalMul
import MariaDb.DecimalLossy
import MariaDb.TimePacked
import MariaDb.Calendar
import MariaDb.GtidFilter
import MariaDb.MachCompressed
import MariaDb.RoleGrant
import MariaDb.RorIntersect
