import Litmus.BinomialForest
import Litmus.BinomialMeld
import Litmus.BinomialExtract
import Litmus.BinomialHeap
import Litmus.Bheap
import Litmus.BheapRep
import Litmus.BheapLink
import Litmus.BheapBubble
import Litmus.BheapOps
import Litmus.BheapSystem
import Litmus.BheapDecrease
import Litmus.BheapRefinement
import Litmus.BheapHandles
import Litmus.RtDomain
import Litmus.EdfCommon
import Litmus.NpsfServer
import Litmus.NpsfServerSpec
import Litmus.NpsfInvariant
import Litmus.NpsfServerRuns
import Litmus.NpsfCompletion
import Litmus.NpsfHandoff
import Litmus.NpsfOwnership
import Litmus.NpsfNotification
import Litmus.SlicedTask
import Litmus.SliceInvariant
import Litmus.SemiSystem
import Litmus.SemiMigration
import Litmus.SliceEnforcement
import Litmus.EdfFm
import Litmus.ShareWalk
import Litmus.EdfFmShares
import Litmus.Custody
import Litmus.FmPlaces
import Litmus.FmMigration
import Litmus.FmPriority
import Litmus.FmDecision
import Litmus.GsnLinks
import Litmus.GsnTasks
import Litmus.ReleaseQueue
import Litmus.ReleaseQueueInvariant
import Litmus.ReleaseQueueRuns
import Litmus.FifoLock
import Litmus.Fmlp
import Litmus.FmlpExclusion
import Litmus.FmlpInheritance
import Litmus.PriorityList
import Litmus.Srp
import Litmus.SrpExclusion
import Litmus.CedfExit
import Litmus.Census
import Litmus.FtBuffer
import Litmus.FtBufferInvariant
import Litmus.FtBufferRuns
import Litmus.Counted
import Litmus.Fdso
import Litmus.FdsoInvariant
import Litmus.FdsoReferences
import Litmus.NpPreemption
import Litmus.PfairTick
import Litmus.PullTimers
import Litmus.FairSchedule
import Litmus.FairLag
import Litmus.Pfair
import Litmus.PfairWheel
import Litmus.PfairQuantum
import Litmus.PfairReleases
import Litmus.PfairAssignment
import Litmus.PfairOptimal
import Litmus.GsnAssignment
import Litmus.GsnCompletion
import Litmus.PsnPlaces
import Litmus.PsnBudget
import Litmus.SliceJobs
import Litmus.CyclicTable
import Litmus.NpsfConfig
import Litmus.NpsfReserves
import Litmus.SliceSuspension
import Litmus.NpsfAddServer
import Litmus.NpsfInstall
import Litmus.NpsfCleanup
import Litmus.PfairSubtasks
import Litmus.PfairLinking
import Litmus.FmExit
import Litmus.GsnExit
import Litmus.SemiExit
import Litmus.ExitSafety
import Litmus.SliceChecks
import Litmus.FmEntry
import Litmus.PfairAdmission
import Litmus.SrpCeilings
import Litmus.FdsoOpen
import Litmus.FtdevRead
import Litmus.FtSort
import Litmus.Ft2Csv
import Litmus.PluginSwitch
import Litmus.TaskAdmission
