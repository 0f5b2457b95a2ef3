import Longhorn.Foundations.TransitionRuns
import Longhorn.Foundations.Ranges
import Longhorn.Foundations.ByteMemory
import Longhorn.Foundations.LinkedNodes
import Longhorn.Foundations.RingWindow
import Longhorn.Foundations.BoolArrays
import Longhorn.Foundations.CountedLoops
import Longhorn.PackedBitmap
import Longhorn.BitmapRefinement
import Longhorn.Foundations.ThreadInterleaving
import Longhorn.AtomicSpinLock
import Longhorn.SpinLockSafety
import Longhorn.IntrusiveList
import Longhorn.ListRefinement
import Longhorn.SemaphoreSafety
import Longhorn.SlabTable
import Longhorn.SlabSafety
import Longhorn.SlabCalls
import Longhorn.SlabRequests
import Longhorn.SlabLayout
import Longhorn.KallocModel
import Longhorn.PageInterleaving
import Longhorn.PageMap
import Longhorn.PageSafety
import Longhorn.PageFrees
import Longhorn.BootMemory
import Longhorn.StreamModel
import Longhorn.StreamRefinement
import Longhorn.StreamInterleaving
import Longhorn.LineModel
import Longhorn.LineSafety
import Longhorn.LineEditing
import Longhorn.LineInput
import Longhorn.ModifierKeys
import Longhorn.VesaModel
import Longhorn.VesaSafety
import Longhorn.KmallocRecords
import Longhorn.HeapSafety
import Longhorn.KfreeRecords
import Longhorn.KmallocSizes
import Longhorn.ListPrograms
import Longhorn.ThreadModel
import Longhorn.SchedulerRules
import Longhorn.ThreadCounts
import Longhorn.SchedulerInvariant
import Longhorn.ThreadCalls
import Longhorn.ProcessCalls
import Longhorn.Foundations.CyclicTurns
import Longhorn.RoundRobin
import Longhorn.KernelRuns
import Longhorn.SchedulerRuns
import Longhorn.SchedulerLists
import Longhorn.TerminatedThreads
import Longhorn.BlockedThreads
import Longhorn.LiveThreadCounts
import Longhorn.CriticalSections
import Longhorn.WaitModel
import Longhorn.WaitRules
import Longhorn.WaitInvariant
import Longhorn.WaitScenes
import Longhorn.LostWakeups
import Longhorn.ThreadIds
import Longhorn.ShellParsing
import Longhorn.ShellModel
import Longhorn.ShellLines
import Longhorn.Foundations.CStrings
import Longhorn.StringModel
import Longhorn.CharacterSearch
import Longhorn.StringComparison
import Longhorn.StringSearch
import Longhorn.Foundations.Spans
import Longhorn.SpanSearch
import Longhorn.Tokens
import Longhorn.NumberText
import Longhorn.FormatModel
import Longhorn.Formatting
import Longhorn.ShellArguments
import Longhorn.KmallocFailures
import Longhorn.Notifications
import Longhorn.KillFailures
import Longhorn.ProcessCreation
import Longhorn.ProcessKills
import Longhorn.MemoryFunctions
import Longhorn.Trimming
import Longhorn.Concatenation
import Longhorn.UppercaseCalls
import Longhorn.Scrolling
import Longhorn.Foundations.PaddedRows
import Longhorn.BmpModel
import Longhorn.BmpDrawing
import Longhorn.BmpColors
import Longhorn.BmpSafety
import Longhorn.BmpReading
import Longhorn.Foundations.Ia32
import Longhorn.SwitchModel
import Longhorn.SwitchRules
import Longhorn.ContextSwitching
import Longhorn.ContextResumption
import Longhorn.InterruptDispatch
import Longhorn.ScheduledStacks
import Longhorn.Foundations.Pic8259
import Longhorn.InterruptControllers
import Longhorn.Foundations.TextLines
import Longhorn.TextScreen
import Longhorn.TypedLines
import Longhorn.PageAccounts
import Longhorn.HeapAccounts
import Longhorn.CallEffects
import Longhorn.KernelMemory
import Longhorn.Foundations.Uart16550
import Longhorn.SerialLines
