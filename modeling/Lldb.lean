import Lldb.Core.Range
import Lldb.Core.RangeVector
import Lldb.Library.OrderedMap
import Lldb.Target.MemoryCache
import Lldb.Target.MemoryCacheCoherence
import Lldb.GdbRemote.Packet
import Lldb.GdbRemote.Framing
import Lldb.GdbRemote.Checksum
import Lldb.GdbRemote.ClientBase
import Lldb.GdbRemote.ClientExclusion
import Lldb.GdbRemote.Resync
import Lldb.GdbRemote.PacketStreams
import Lldb.GdbRemote.ClientRequests
import Lldb.GdbRemote.RegisterContext
import Lldb.GdbRemote.RegisterCoherence
import Lldb.GdbRemote.RegisterWrites
import Lldb.GdbRemote.RegisterRuns
import Lldb.GdbRemote.RegisterCheckpoint
import Lldb.GdbRemote.RegisterRestore
import Lldb.GdbRemote.CheckpointRoundTrip
import Lldb.GdbRemote.StringExtractor
import Lldb.GdbRemote.MemoryPackets
import Lldb.GdbRemote.Resume
import Lldb.GdbRemote.ResumeWire
import Lldb.Library.Memory
import Lldb.Expression.IRMemoryMap
import Lldb.Expression.IRMemoryMapIntervals
import Lldb.Expression.IRMemoryMapViews
import Lldb.Target.AllocatedMemory
import Lldb.Target.AllocatedMemoryRuns
import Lldb.Breakpoint.BreakpointSite
import Lldb.Target.ProcessMemory
import Lldb.Target.BreakpointTransparency
import Lldb.Target.BreakpointSteps
import Lldb.Target.BreakpointWrites
import Lldb.Target.BreakpointRuns
import Lldb.Library.Leb128
import Lldb.Utility.DataExtractor
import Lldb.Symbol.UnwindPlan
import Lldb.Symbol.DWARFCallFrameInfo
import Lldb.Symbol.CallFrameInstructions
import Lldb.Symbol.CallFrameMachine
import Lldb.Symbol.CallFrameRows
import Lldb.Symbol.CallFramePlans
import Lldb.SymbolFile.DWARFDebugLine
import Lldb.SymbolFile.LineProgram
import Lldb.SymbolFile.LineProgramOpcodes
import Lldb.SymbolFile.LineProgramHeader
import Lldb.SymbolFile.LineMachine
import Lldb.SymbolFile.LineTableRows
import Lldb.Utility.Scalar
import Lldb.Utility.ScalarWords
import Lldb.Expression.DWARFExpression
import Lldb.Expression.StackMachine
import Lldb.Utility.ScalarArithmetic
import Lldb.Expression.ExpressionSteps
import Lldb.Expression.ExpressionRuns
import Lldb.Core.BroadcasterManager
import Lldb.Host.NativeBreakpointList
import Lldb.Host.NativeBreakpointRuns
import Lldb.Symbol.ArmUnwindInfo
import Lldb.Symbol.ArmUnwindTable
import Lldb.Symbol.ArmUnwindBases
import Lldb.Symbol.ArmUnwindAnchors
import Lldb.Symbol.ArmUnwindEntries
import Lldb.Library.LowerBound
import Lldb.Symbol.Block
import Lldb.Symbol.BlockTree
import Lldb.Symbol.LineTable
import Lldb.Symbol.LineTableLink
import Lldb.Symbol.LineTableRuns
import Lldb.Symbol.LineTableOrder
import Lldb.Symbol.LineTableResolve
import Lldb.Core.Broadcaster
import Lldb.Core.EventDelivery
import Lldb.Core.EventDeliveryRuns
import Lldb.Target.ThreadPlans
import Lldb.Target.ThreadPlanStacks
import Lldb.Target.ThreadPlanLoops
import Lldb.Target.ThreadPlanRuns
import Lldb.Library.X86
import Lldb.UnwindAssembly.X86Functions
import Lldb.UnwindAssembly.X86Augment
import Lldb.UnwindAssembly.X86AugmentedRows
import Lldb.UnwindAssembly.X86AugmentedPlans
import Lldb.UnwindAssembly.X86AugmentedRuns
import Lldb.UnwindAssembly.X86NonCallSite
import Lldb.UnwindAssembly.X86Decoding
import Lldb.UnwindAssembly.X86StackFrames
import Lldb.UnwindAssembly.X86StackFrameSteps
import Lldb.UnwindAssembly.X86NonCallSiteRows
import Lldb.UnwindAssembly.X86StackFrameRuns
import Lldb.Core.CombinedRanges
import Lldb.Core.RangeCoalescing
import Lldb.Core.RangeDataArray
import Lldb.GdbRemote.Expansion
import Lldb.Target.AllocatedBlockPartition
import Lldb.Target.SectionLoadList
import Lldb.Target.SectionLoadRuns
import Lldb.Target.SectionLoadHistory
import Lldb.Utility.Args
import Lldb.Utility.ArgsQuoting
import Lldb.Utility.Json
import Lldb.Utility.JsonTokens
import Lldb.Utility.JsonRoundTrip
import Lldb.Utility.JsonWellFormed
import Lldb.Process.ElfCore
import Lldb.Process.ElfCoreRanges
import Lldb.Process.ElfCoreReads
import Lldb.Host.DebugRegisters
import Lldb.Host.DebugRegistersArm64
import Lldb.Host.HardwareBreakpoints
import Lldb.Host.HardwareBreakpointRuns
import Lldb.Library.Traced
import Lldb.Process.MinidumpTypes
import Lldb.Process.MinidumpParser
import Lldb.Process.MinidumpReads
import Lldb.Process.MinidumpSearches
import Lldb.Process.MinidumpDirectory
import Lldb.Process.MinidumpInside
import Lldb.Core.RangeInsertion
import Lldb.Core.RangeDataVector
import Lldb.Target.InvalidRanges
import Lldb.Target.InvalidRangeRuns
import Lldb.Utility.ArgsPrefixes
import Lldb.Utility.OptionsWithRaw
import Lldb.Utility.ArgsRendering
import Lldb.Utility.ArgsVectors
import Lldb.Utility.EscapeSequences
import Lldb.Utility.EscapeRoundTrip
import Lldb.Utility.Leb128Encodings
import Lldb.Utility.DataWindows
import Lldb.Utility.HostOrder
import Lldb.Utility.DataEncoder
import Lldb.Utility.DataCopies
import Lldb.Utility.Bitfields
import Lldb.Utility.CStrings
import Lldb.Utility.Stream
import Lldb.Core.SourceFile
import Lldb.Library.PosixPath
import Lldb.Library.PosixNames
import Lldb.Library.PosixAppend
import Lldb.Utility.FileSpec
import Lldb.Utility.FileSpecScan
import Lldb.Utility.FileSpecNormalization
import Lldb.Utility.FileSpecEquality
import Lldb.Target.PathMappingList
import Lldb.Target.PathRemapping
import Lldb.Symbol.LineSequences
import Lldb.Symbol.LineSequenceLookup
import Lldb.Symbol.CallFrameOperands
import Lldb.Symbol.CallFrameSplitting
import Lldb.Symbol.CallFrameBoundaries
import Lldb.Symbol.FDEIndex
import Lldb.Symbol.GNUEHPointers
import Lldb.Process.RegisterContextLLDB
import Lldb.Symbol.RowEquality
import Lldb.Symbol.UnwindPlanRows
import Lldb.Library.Rounds
import Lldb.Utility.CursorMoves
import Lldb.SymbolFile.LineProgramRounds
import Lldb.SymbolFile.LineProgramEnds
import Lldb.SymbolFile.DWARFDebugArangeSet
import Lldb.SymbolFile.ArangeSections
import Lldb.Library.HalfOpen
import Lldb.SymbolFile.ArangeDescriptors
import Lldb.Core.NearestRange
import Lldb.Symbol.Symtab
import Lldb.Symbol.SymtabLookups
import Lldb.Library.APInt
import Lldb.Utility.IntegerScalar
import Lldb.Target.MemoryIntegers
import Lldb.Target.MemoryStrings
import Lldb.Breakpoint.BreakpointLocationCollection
import Lldb.Target.BreakpointReports
import Lldb.Expression.LocationLists
import Lldb.Library.Stoppable
import Lldb.Expression.Evaluate
import Lldb.Expression.EvaluateSteps
import Lldb.Expression.EvaluateRuns
import Lldb.Expression.CompositeLocations
import Lldb.Expression.OperandSizes
import Lldb.Expression.ExpressionWalkers
import Lldb.Host.TrapRemoval
import Lldb.Process.UnwindLLDB
import Lldb.Target.ThreadList
import Lldb.Breakpoint.BreakpointLocationList
import Lldb.Interpreter.OptionValueLists
import Lldb.Interpreter.OptionValueDictionary
import Lldb.Utility.RegisterViews
import Lldb.Target.ThreadPlanStepRange
