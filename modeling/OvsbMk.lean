import OvsbMk.ByteMemory
import OvsbMk.IntrusiveList
import OvsbMk.DyadicTiling
import OvsbMk.Chains
import OvsbMk.Traces
import OvsbMk.StridedRows
import OvsbMk.KernelMemory
import OvsbMk.BuddyFreeLists
import OvsbMk.BuddyInvariant
import OvsbMk.BuddyOperations
import OvsbMk.BuddyRuns
import OvsbMk.SlabPages
import OvsbMk.SlabInvariant
import OvsbMk.SlabOperations
import OvsbMk.SlabRuns
import OvsbMk.KfreeContents
import OvsbMk.SyscallEntry
import OvsbMk.MachO
import OvsbMk.ImageRegion
import OvsbMk.Processes
import OvsbMk.ExecRuns
import OvsbMk.BlockDisk
import OvsbMk.Fat32
import OvsbMk.FatTable
import OvsbMk.FatData
import OvsbMk.FatDirectory
import OvsbMk.FatFiles
import OvsbMk.ContextSwitch
import OvsbMk.ProcessCalls
import OvsbMk.ProcessRuns
import OvsbMk.WaitRuns
import OvsbMk.ExecResources
import OvsbMk.ProcessCreation
import OvsbMk.WaitDeliveries
import OvsbMk.FatEntries
import OvsbMk.FatTree
import OvsbMk.FatChanges
import OvsbMk.FatFaults
import OvsbMk.FatWalks
import OvsbMk.FatOperations
import OvsbMk.FatSteps
import OvsbMk.FatRuns
import OvsbMk.FatLeaks
import OvsbMk.FatViews
import OvsbMk.FatScans
import OvsbMk.FatCompletion
import OvsbMk.FatLookups
import OvsbMk.FatEndings
import OvsbMk.FatHalts
import OvsbMk.FatMoves
import OvsbMk.FatRemovals
import OvsbMk.FatMount
import OvsbMk.FatClimbs
import OvsbMk.FatNames
import OvsbMk.FatFailures
import OvsbMk.MachOReads
import OvsbMk.Descriptors
import OvsbMk.DescriptorReads
import OvsbMk.DescriptorWrites
import OvsbMk.DescriptorSharing
import OvsbMk.KeyInput
import OvsbMk.KeyPresses
import OvsbMk.UserMalloc
import OvsbMk.MallocSearch
import OvsbMk.Numerals
import OvsbMk.Formatting
import OvsbMk.Printing
import OvsbMk.ConsoleFormatting
import OvsbMk.PageTables
import OvsbMk.PageMapping
import OvsbMk.Framebuffer
import OvsbMk.Flushing
import OvsbMk.AllocationSizes
import OvsbMk.Console
import OvsbMk.ConsoleGrid
import OvsbMk.ShellInput
import OvsbMk.UserReleases
import OvsbMk.WindowManager
import OvsbMk.Drawing
import OvsbMk.Widgets
import OvsbMk.FatSpace
import OvsbMk.FatFolders
import OvsbMk.FatPaths
import OvsbMk.FatTails
import OvsbMk.FatTrails
import OvsbMk.KeyQueue
import OvsbMk.KeySequences
import OvsbMk.WidgetClicks
import OvsbMk.SwapRemoval
import OvsbMk.TuiWindows
import OvsbMk.TuiStacking
import OvsbMk.AnsiTerminal
import OvsbMk.TuiRefresh
import OvsbMk.LibcStreams
import OvsbMk.CStrings
import OvsbMk.EnvTables
import OvsbMk.TextBox
import OvsbMk.IntegerText
import OvsbMk.MaximalRuns
import OvsbMk.Strtok
import OvsbMk.CopyLoops
import OvsbMk.Memmove
import OvsbMk.FatStore
import OvsbMk.LabelledRuns
import OvsbMk.FatAnswers
import OvsbMk.FatService
import OvsbMk.FatSessions
import OvsbMk.FatListings
import OvsbMk.ExecLoads
import OvsbMk.ShellCommands
import OvsbMk.CyclicScan
import OvsbMk.RoundRobin
import OvsbMk.AddressSpaces
import OvsbMk.FileCalls
import OvsbMk.ScanFormats
import OvsbMk.Mouse
import OvsbMk.Multiboot
import OvsbMk.KeyboardShell
import OvsbMk.LineReads
import OvsbMk.Interrupts
import OvsbMk.AtaPorts
