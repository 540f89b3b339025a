import LedgerVM.Node.Config
import LedgerVM.Toml.Document

/-!
# Configurations as text

A configuration is a document in which every setting may be missing; unknown keys do not count.  The
limits and the prices are groups: their settings are given by name, or as an array in the order of
the group.

* `Config.parse?`: the configuration that a text describes.
-/

namespace LedgerVM

open Toml

/-- The settings of a group by name, where `names` is their order; `none` if the value is no group.
A moment is an empty group. -/
def settings? (names : List String) : Value → Option (String → Option Value)
  | .table _ entries => some (Entries.get? entries)
  | .array elements => some fun name => (names.idxOf? name).bind (elements[·]?)
  | .tables elements =>
    some fun name => (names.idxOf? name).bind fun i => (elements[i]?).map (.table .headed)
  | .moment => some fun _ => none
  | _ => none

/-- A number that a setting may have. -/
def Toml.Value.natural? : Value → Option Nat
  | .integer n => if 0 ≤ n then some n.toNat else none
  | _ => none

/-- The number of a setting, or the default where it is missing; `none` if it is no number. -/
def settingOr (default : Nat) : Option Value → Option Nat
  | some value => value.natural?
  | none => some default

/-- The price of a setting, or the default where it is missing; `none` if it is no number. -/
def priceOr (default : UInt64) (value : Option Value) : Option UInt64 :=
  (settingOr default.toNat value).map UInt64.ofNat

namespace Limits

/-- The names of the limits in their order. -/
def names : List String :=
  ["max_stack_size", "max_item_size", "max_array_size", "max_invocation_depth",
    "gas_limit", "max_steps"]

/-- The limits that a value describes. -/
def ofValue? (value : Value) : Option Limits := do
  let given ← settings? names value
  let default : Limits := {}
  return {
    stackSize := ← settingOr default.stackSize (given "max_stack_size")
    itemSize := ← settingOr default.itemSize (given "max_item_size")
    arraySize := ← settingOr default.arraySize (given "max_array_size")
    callDepth := ← settingOr default.callDepth (given "max_invocation_depth")
    gas := ← priceOr default.gas (given "gas_limit")
    steps := ← match given "max_steps" with
      | some value => some <$> value.natural?
      | none => some default.steps }

end Limits

namespace GasSchedule

/-- The names of the prices in their order. -/
def names : List String :=
  ["push", "instruction", "app_call", "sha", "hash", "check_sig", "check_multisig_per_key",
    "syscall", "storage_put_per_kib"]

/-- The prices that a value describes. -/
def ofValue? (value : Value) : Option GasSchedule := do
  let given ← settings? names value
  let default : GasSchedule := {}
  return {
    push := ← priceOr default.push (given "push")
    instruction := ← priceOr default.instruction (given "instruction")
    appCall := ← priceOr default.appCall (given "app_call")
    sha := ← priceOr default.sha (given "sha")
    hash := ← priceOr default.hash (given "hash")
    checkSig := ← priceOr default.checkSig (given "check_sig")
    checkMultisigPerKey := ← priceOr default.checkMultisigPerKey (given "check_multisig_per_key")
    syscall := ← priceOr default.syscall (given "syscall")
    storagePutPerKib := ← priceOr default.storagePutPerKib (given "storage_put_per_kib") }

end GasSchedule

namespace Config

/-- The configuration that a document describes. -/
def ofEntries? (entries : Entries) : Option Config := do
  return {
    limits := ← match Entries.get? entries "limits" with
      | some value => Limits.ofValue? value
      | none => some {}
    schedule := ← match Entries.get? entries "gas" with
      | some value => GasSchedule.ofValue? value
      | none => some {}
    parallel := ← match Entries.get? entries "parallel" with
      | some (.boolean value) => some value
      | some _ => none
      | none => some true }

/-- The configuration that a text describes; `none` if the text is malformed or a setting has the
wrong type. -/
def parse? (text : String) : Option Config := do ofEntries? (← Document.parse? text)

end Config
end LedgerVM
