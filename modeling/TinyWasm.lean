import TinyWasm.EncoderRejection
import TinyWasm.ExportLookup
import TinyWasm.ExecutablePages
import TinyWasm.EarlyReturn
import TinyWasm.ArgumentLoading
import TinyWasm.Leb128Decoding
import TinyWasm.ParserAcceptance
import TinyWasm.ImmediateDecoding
import TinyWasm.RepeatedCalls
import TinyWasm.CalleeSaved
import TinyWasm.StackSafety
import TinyWasm.FrameContainment
import TinyWasm.VariableAliasing
import TinyWasm.DivisionTargets
import TinyWasm.ControlFlow
import TinyWasm.StackHeight
import TinyWasm.SoundExits
import TinyWasm.PreservedMeaning
import TinyWasm.StructuredMeaning
import TinyWasm.Acceptance
import TinyWasm.TestDriver
import TinyWasm.TestVerdicts
import TinyWasm.CallFootprint
import TinyWasm.ModuleRuns
import TinyWasm.BatchProcess
import TinyWasm.DriverRuns
import TinyWasm.VisitOrders
import TinyWasm.ModuleIsolation
