import WeensyOS.RadixForest
import WeensyOS.Boot
import WeensyOS.FreePages
import WeensyOS.PagingInvariant
import WeensyOS.TableWalks
import WeensyOS.PageMaps
import WeensyOS.TableCopies
import WeensyOS.ForkCopies
import WeensyOS.KernelInvariant
import WeensyOS.CheckedRuns
import WeensyOS.KernelChecks
import WeensyOS.KernelSteps
import WeensyOS.ForkResult
import WeensyOS.AllocResult
import WeensyOS.Isolation
import WeensyOS.KernelTables
import WeensyOS.ProgramLoading
import WeensyOS.BootResult
import WeensyOS.BootRun
import WeensyOS.Effects
import WeensyOS.Runs
import WeensyOS.PrivateRuns
import WeensyOS.PageAccounts
import WeensyOS.SelfChecks
import WeensyOS.Exhaustion
import WeensyOS.AllocRuns
import WeensyOS.ForkRuns
import WeensyOS.KeptPages
import WeensyOS.TableForests
import WeensyOS.LifeCycle
import WeensyOS.SavedRegisters
import WeensyOS.ReferenceCounts
import WeensyOS.TreeTables
import WeensyOS.RangeWalks
import WeensyOS.RangeMaps
import WeensyOS.RangeResults
import WeensyOS.PairedRuns
import WeensyOS.TwinRuns
import WeensyOS.TwinBoots
import WeensyOS.SoftReboot
import WeensyOS.FreshPages
import WeensyOS.PageGrants
import WeensyOS.Scheduling
import WeensyOS.TextCursors
import WeensyOS.Printer
import WeensyOS.Directives
import WeensyOS.PrinterRuns
import WeensyOS.StringPrinter
import WeensyOS.Conversions
import WeensyOS.PanicMessage
import WeensyOS.ConsolePrinter
import WeensyOS.PackedWords
import WeensyOS.ExceptionEntry
import WeensyOS.SegmentDescriptors
import WeensyOS.DiskImage
import WeensyOS.BootLoader
import WeensyOS.KernelLoading
import WeensyOS.FailedMaps
import WeensyOS.TableGrowth
import WeensyOS.ExactCopies
import WeensyOS.LoadedPages
import WeensyOS.ImageLoading
import WeensyOS.PlainFormats
import WeensyOS.LogDumps
import WeensyOS.LogParser
import WeensyOS.LogRoundTrip
import WeensyOS.TransitionSystems
import WeensyOS.TimeSharing
import WeensyOS.MachineView
import WeensyOS.Refinement
import WeensyOS.CongruentialGenerators
import WeensyOS.RandomNumbers
import WeensyOS.UserPrograms
import WeensyOS.HeapRuns
import WeensyOS.ForkAsserts
import WeensyOS.Grader
import WeensyOS.Clock
import WeensyOS.GradedRuns
import WeensyOS.RingBuffers
import WeensyOS.ConsoleLayout
import WeensyOS.KernelPanics
import WeensyOS.Keyboard
import WeensyOS.Sessions
import WeensyOS.PagewiseMaps
import WeensyOS.Canvases
import WeensyOS.MemoryDisplay
import WeensyOS.CommandLines
