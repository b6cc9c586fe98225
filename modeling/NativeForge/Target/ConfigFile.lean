import NativeForge.Target.Config
import NativeForge.Toml.Document
import NativeForge.Toml.Field

/-!
# Configuration files

A configuration file gives some settings; the others keep their defaults. A configuration that
breaks one of its rules is refused after it was read.
-/

namespace NativeForge.Target

open Toml

/-- Read the slots of the sixteen registers; further elements are ignored. -/
def registerSlots? (item : Toml.Item) : Option (Vector UInt8 16) := do
  let items ← item.elements?
  let slots ← (items.take 16).mapM Toml.Item.uint8?
  if h : slots.toArray.size = 16 then some ⟨slots.toArray, h⟩ else none

/-- Read facts about the target. -/
def Abi.ofItem? (item : Toml.Item) : Option Abi := do
  let fields ← Fields.ofItem? item
  let base : Abi := {}
  return {
    arrayCountOffset := ←
      fields.optional "array_max_entries_off" 0 Toml.Item.int32? base.arrayCountOffset
    arraySlotsOffset := ←
      fields.optional "array_ptrs_off" 1 Toml.Item.int32? base.arraySlotsOffset
    programCodeOffset := ←
      fields.optional "prog_bpf_func_off" 2 Toml.Item.int32? base.programCodeOffset
    registerSlots := ← fields.optional "greg_slots" 3 registerSlots? base.registerSlots }

/-- Read settings. -/
def Config.ofFields? (fields : Fields) : Option Config := do
  let base : Config := {}
  return {
    maxPasses := ← fields.optional "max_passes" 0 Toml.Item.nat? base.maxPasses
    paddingPasses := ← fields.optional "padding_passes" 1 Toml.Item.nat? base.paddingPasses
    initialEstimate := ←
      fields.optional "initial_insn_estimate" 2 Toml.Item.nat? base.initialEstimate
    maxInsnSize := ← fields.optional "max_insn_size" 3 Toml.Item.nat? base.maxInsnSize
    insnSafety := ← fields.optional "insn_safety" 4 Toml.Item.nat? base.insnSafety
    yieldThreshold := ← fields.optional "yield_threshold" 5 Toml.Item.nat? base.yieldThreshold
    abi := ← fields.optional "abi" 6 Abi.ofItem? base.abi }

/-- Why the text of a configuration is refused. -/
inductive ConfigError where
  /-- The text is no configuration file. -/
  | parse
  /-- The settings break a rule. -/
  | invalid (fault : ConfigFault)
deriving DecidableEq, Repr

/-- The wording of a refusal. -/
def ConfigError.message : ConfigError → String
  | .parse => "failed to parse config"
  | .invalid fault => fault.message

/-- Read a configuration file and check its rules. -/
def Config.parse (text : String) : Except ConfigError Config :=
  match parse? text >>= fun entries => Config.ofFields? (.named entries) with
  | none => .error .parse
  | some config =>
    match config.fault? with
    | some fault => .error (.invalid fault)
    | none => .ok config

end NativeForge.Target
