import LedgerVM.Service.Chain
import LedgerVM.Service.Entity
import LedgerVM.Service.Runtime
import LedgerVM.Service.Storage

/-!
# Running services

`Service.run` is what the call of a service does; `Service.price` is what it costs on the stack as
it is before.
-/

namespace LedgerVM

namespace Operation

/-- Takes an item of some shape and leaves what is read from it. -/
def readField {α : Type} (coerce : Item → Except Fault α) (read : α → Item) : Operation Unit := do
  push (read (← popAs coerce))

end Operation

namespace Service

/-- Runs a service. -/
def run (context : ServiceContext) : Service → ServiceAction Unit
  | runtime service => service.run context
  | engine service => .onBench (service.run context)
  | chain service => .onBench (service.run context.setting.ledger)
  | header field => .onBench (.readField Item.toBlockBase (HeaderField.read · field))
  | block service => .onBench (service.run context.setting.limits)
  | transaction service => .onBench (service.run context.setting)
  | txAttribute field => .onBench do
    let item ← Operation.popAs Item.toAttributeItem
    .push (field.read (← Action.ofExcept item.toAttribute))
  | input field => .onBench (.readField Item.toInput (InputField.read · field))
  | output field => .onBench (.readField Item.toOutput (OutputField.read · field))
  | account service => .onBench service.run
  | asset field => .onBench (.readField Item.toAsset (AssetField.read · field))
  | contract service => .onBench (service.run context.executing)
  | validatorKey => .onBench (.readField Item.toValidator fun v => .byteArray v.publicKey)
  | storage service => service.run context

/-- The price of a service on the stack before the call. -/
def price (schedule : GasSchedule) (s : Service) : Operation UInt64 :=
  match s.fixedPrice? with
  | some price => return price
  | none => schedule.putPrice

end Service
end LedgerVM
