import NativeForge.Target.Abi

/-!
# Configuration of a compilation

How many passes may run, from which pass on jumps keep their length, how long an instruction is
taken to be before the first pass, and how long it may be at all.
-/

namespace NativeForge.Target

/-- Settings of a compilation. -/
structure Config where
  /-- Give up when lengths still change after this many passes. -/
  maxPasses : Nat := 20
  /-- Passes from this one on pad jumps that would shrink. -/
  paddingPasses : Nat := 15
  /-- Length of an instruction that the first pass assumes. -/
  initialEstimate : Nat := 64
  /-- Greatest length of one instruction. -/
  maxInsnSize : Nat := 128
  /-- Room kept beyond the previous length. -/
  insnSafety : Nat := 64
  /-- Programs of at least this many slots give way between passes. -/
  yieldThreshold : Nat := 4096
  /-- Facts about the target. -/
  abi : Abi := {}
deriving DecidableEq, Repr

/-- Why a configuration is refused. -/
inductive ConfigFault where
  | noPasses
  | paddingRange (paddingPasses maxPasses : Nat)
  | estimateTooSmall (estimate : Nat)
deriving DecidableEq, Repr

/-- The wording of a refusal. -/
def ConfigFault.message : ConfigFault → String
  | .noPasses => "invalid config: max_passes must be at least 1"
  | .paddingRange paddingPasses maxPasses =>
    s!"invalid config: padding_passes ({paddingPasses}) must be within 1..=max_passes ({maxPasses})"
  | .estimateTooSmall estimate =>
    s!"invalid config: initial_insn_estimate ({estimate}) is too small"

/-- The first rule that a configuration breaks: there is a pass, padding starts at one of them,
and the first estimate is at least half of the greatest length. -/
def Config.fault? (config : Config) : Option ConfigFault :=
  if config.maxPasses = 0 then some .noPasses
  else if config.paddingPasses = 0 ∨ config.maxPasses < config.paddingPasses then
    some (.paddingRange config.paddingPasses config.maxPasses)
  else if config.initialEstimate < config.maxInsnSize / 2 then
    some (.estimateTooSmall config.initialEstimate)
  else none

end NativeForge.Target
