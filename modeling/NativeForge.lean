import NativeForge.Main
import NativeForge.Session
import NativeForge.Virtual.Build
import NativeForge.Proofs.FinalPass
import NativeForge.Proofs.PaddedPasses
import NativeForge.Proofs.ShrinkingPasses
import NativeForge.Proofs.CompiledExecution
import NativeForge.Proofs.LongDispatchers
import NativeForge.Proofs.FailedUpdates
import NativeForge.Proofs.TwoStages
import NativeForge.Proofs.ExceptionTables
import NativeForge.Proofs.WholeSites
import NativeForge.Proofs.Disassembly
import NativeForge.Proofs.FailedCompilations
import NativeForge.Proofs.PatchRequests
import NativeForge.Proofs.TailCallFrames
import NativeForge.Proofs.TrampolineExecution
import NativeForge.Proofs.AtomicFetch
import NativeForge.Proofs.CallRanges
import NativeForge.Proofs.LongTrampolines
import NativeForge.Proofs.DispatcherSizing
import NativeForge.Proofs.RestoredArguments
import NativeForge.Proofs.ReturnSlots
import NativeForge.Proofs.FrameImmediates
import NativeForge.Proofs.SizeLimits
import NativeForge.Proofs.RecordedSites
import NativeForge.Proofs.SavedRegisters
import NativeForge.Proofs.CallAlignment
import NativeForge.Proofs.SlotFormats
