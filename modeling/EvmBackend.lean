import EvmBackend.EdgeSets.Classes
import EvmBackend.StackAlloc.CarriedSlots
import EvmBackend.StackAlloc.Assigned
import EvmBackend.StackAlloc.ArgumentPrologue
import EvmBackend.StackAlloc.Depths
import EvmBackend.StackAlloc.History
import EvmBackend.ArgumentMove.Normalisation
import EvmBackend.VRegToMem.OperandOrder
import EvmBackend.DynamicAlloc
import EvmBackend.VRegToMem.Arguments
import EvmBackend.Branches.RoundTrip
import EvmBackend.Disassembler
import EvmBackend.Assembler.Sections
import EvmBackend.Labels
import EvmBackend.LiveRange.BulkUpdates
import EvmBackend.APInt.Overflow
import EvmBackend.APInt.Sqrt
import EvmBackend.APInt.TextRoundTrip
import EvmBackend.TargetLowering.ConstantDivision
import EvmBackend.TargetLowering.RemainderTests
import EvmBackend.ConstantRange.Soundness
import EvmBackend.ConstantRange.Compare
import EvmBackend.ADT.ImmutableSet.FiniteMap
import EvmBackend.ADT.DenseMap.FiniteMap
import EvmBackend.ISel.Shifts
import EvmBackend.ISel.Comparisons
import EvmBackend.ISel.NarrowAccess
import EvmBackend.ShrinkPush
import EvmBackend.StackAlloc.DeadOperands
import EvmBackend.SlotIndexes.Reachable
import EvmBackend.Bitstream.Sessions
import EvmBackend.APInt.PartsDivide
import EvmBackend.LiveRange.Queries
import EvmBackend.LiveRange.SegmentSet
import EvmBackend.LEB128.Encoding
import EvmBackend.StringTable.Tables
import EvmBackend.StackAlloc.SlotRuns
import EvmBackend.DominatorTree.Sessions
import EvmBackend.ADT.IntEqClasses.Calls
import EvmBackend.BranchProbability
import EvmBackend.ScaledNumber.Arithmetic
import EvmBackend.Bitstream.Intact
import EvmBackend.Bitstream.Passing
