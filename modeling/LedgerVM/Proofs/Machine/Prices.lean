import LedgerVM.Proofs.Machine.HandOver
import LedgerVM.Proofs.Machine.Gas
import LedgerVM.Proofs.Machine.Maps
import LedgerVM.Proofs.Machine.Serving
import LedgerVM.Proofs.Operator.Multisig
import Mathlib.Data.Rat.Floor

/-!
# Prices by the amount of work

Two instructions are priced by what lies on the stack before they are executed: a write to storage by the length of its
key and value, and the check of several signatures by the number of keys.  What is executed takes the same operands off
the stack, so that no work is done that was not paid for (`Machine.dynamic_prices_exact`).
-/

namespace LedgerVM

theorem toNat_saturatingPrice (price : UInt64) (count : Nat) :
    (saturatingPrice price count).toNat = min (price.toNat * count) (2 ^ 64 - 1) := by
  have hlt : min (price.toNat * count) (UInt64.size - 1) < 2 ^ 64 :=
    (Nat.min_le_right _ _).trans_lt (by decide)
  rw [saturatingPrice, UInt64.toNat_ofNat_of_lt' hlt]
  rfl

theorem natCeil_div_kib (n : Nat) : ⌈(n / 1024 : ℚ)⌉₊ = (n + 1023) / 1024 := by
  refine eq_of_forall_ge_iff fun kib => ?_
  rw [Nat.ceil_le, div_le_iff₀ (by norm_num)]
  norm_cast
  omega

/-- The kibibytes of a write are those that are begun, and at least one. -/
theorem toNat_storagePutPrice (schedule : GasSchedule) (keyLength valueLength : Nat) :
    (schedule.storagePutPrice keyLength valueLength).toNat =
      min (schedule.storagePutPerKib.toNat * max 1 ⌈((keyLength + valueLength : Nat) / 1024 : ℚ)⌉₊) (2 ^ 64 - 1) := by
  rw [GasSchedule.storagePutPrice, toNat_saturatingPrice, natCeil_div_kib]

theorem toNat_multisigPrice (schedule : GasSchedule) {keys : Nat} (hkeys : 0 < keys) :
    (schedule.multisigPrice keys).toNat = min (schedule.checkMultisigPerKey.toNat * keys) (2 ^ 64 - 1) := by
  rw [GasSchedule.multisigPrice, if_neg (Nat.pos_iff_ne_zero.1 hkeys), toNat_saturatingPrice]

/-! ### Reading the stack twice -/

section Operands

variable {h : Heap} {items rest : List Item} {keys : List Bytes}

private theorem length_of_mapM : ∀ {items : List Item} {bytes : List Bytes}, items.mapM Item.toBytes = .ok bytes →
    bytes.length = items.length := by
  intro items
  induction items with
  | nil =>
    intro bytes hbytes
    cases hbytes
    rfl
  | cons item items ih =>
    intro bytes hbytes
    rw [List.mapM_cons] at hbytes
    cases hfirst : item.toBytes with
    | error fault =>
      rw [hfirst] at hbytes
      cases hbytes
    | ok first =>
      cases hrest : items.mapM Item.toBytes with
      | error fault =>
        rw [hfirst, hrest] at hbytes
        cases hbytes
      | ok others =>
        rw [hfirst, hrest] at hbytes
        cases hbytes
        rw [List.length_cons, List.length_cons, ih hrest]

/-- The keys are counted as they are taken. -/
theorem multisigKeys_of_gives (rest : List Item) (hgives : h.Gives items keys) :
    Machine.multisigKeys ⟨items ++ rest, h⟩ = .ok keys.length ⟨items ++ rest, h⟩ := by
  cases hgives with
  | array hbytes | struct hbytes =>
    rw [length_of_mapM hbytes]
    rfl
  | @counted count items _ hcount hfits hbytes =>
    have hindex : index? items.length = some items.length := index?_eq_some.2 ⟨rfl, hfits⟩
    rw [length_of_mapM hbytes]
    refine Action.bind_eq_ok.2 ⟨count, _, rfl, ?_⟩
    cases count with
    | array ref | struct ref | map ref | interface handle => cases hcount
    | boolean value | integer value | byteArray data =>
      refine Action.bind_eq_ok.2 ⟨items.length, _, Action.ofExcept_eq_ok.2 ⟨hcount, rfl⟩, ?_⟩
      rw [hindex]
      rfl

/-- The key and the value are measured as they are taken. -/
theorem putPrice_of_operands (schedule : GasSchedule) (h : Heap) (top : Item) (rest : List Item)
    {second third : Item} {key value : Bytes} (hkey : second.toBytes = .ok key) (hvalue : third.toBytes = .ok value) :
    schedule.putPrice ⟨top :: second :: third :: rest, h⟩ =
      .ok (schedule.storagePutPrice key.length value.length) ⟨top :: second :: third :: rest, h⟩ := by
  refine Action.bind_eq_ok.2 ⟨second, _, rfl, Action.bind_eq_ok.2 ⟨key, _, Action.ofExcept_eq_ok.2 ⟨hkey, rfl⟩, ?_⟩⟩
  refine Action.bind_eq_ok.2 ⟨third, _, rfl, Action.bind_eq_ok.2 ⟨value, _, Action.ofExcept_eq_ok.2 ⟨hvalue, rfl⟩, ?_⟩⟩
  rfl

end Operands

namespace Machine

variable {setting : Setting} {m n : Machine} {i : Instruction} {p : UInt64}

/-- The machine pays a price for the instruction that it is about to execute, and executes it with success. -/
def Executes (setting : Setting) (m : Machine) (i : Instruction) (p : UInt64) (n : Machine) : Prop :=
  ∃ frame rest size gas, m.calls.frames = frame :: rest ∧ decode frame.script.bytes frame.pointer = .ok (i, size) ∧
    price setting.schedule i (m.fetched frame) = .ok p (m.fetched frame) ∧ m.gas.charge p = .ok gas ∧
    i.execute setting frame.pointer (m.entering frame rest size gas) = .ok () n

/-- A step that succeeds is such an execution. -/
theorem executes_of_step (hstep : step setting m = .ok () n) : ∃ i p, m.next? = some i ∧ m.Executes setting i p n := by
  obtain ⟨frame, rest, i, size, p, gas, hframes, hdecode, -, hprice, hgas, hexecute, -⟩ := step_eq_ok.1 hstep
  exact ⟨i, p, next?_eq_some.2 ⟨frame, rest, size, hframes, hdecode⟩, frame, rest, size, gas, hframes, hdecode, hprice,
    hgas, hexecute⟩

/-- What is written to storage is what was paid for, the second and the third item on the stack. -/
theorem Executes.put {id : UInt32} (h : m.Executes setting (.syscall id) p n)
    (hid : Service.ofId? id = some (.storage .put)) :
    ∃ frame rest top keyItem valueItem below owner key value, m.calls.frames = frame :: rest ∧
      frame.stack = top :: keyItem :: valueItem :: below ∧ top.toStorageContext = .ok owner ∧
      keyItem.toBytes = .ok key ∧ valueItem.toBytes = .ok value ∧
      n.effects.changes = m.effects.changes.put { contract := owner.scriptHash, key } value ∧
      p = setting.schedule.storagePutPrice key.length value.length := by
  obtain ⟨frame, rest, size, gas, hframes, -, hprice, -, hexecute⟩ := h
  have hfound (m : Machine) : MachineAction.findService id m = .ok (.storage .put) m := by
    rw [MachineAction.findService, hid]
    rfl
  have hcall : MachineAction.callService setting (.storage .put) (m.entering frame rest size gas) = .ok () n := by
    obtain ⟨service, _, hfind, hcall⟩ := Action.bind_eq_ok.1 hexecute
    rw [hfound] at hfind
    cases hfind
    exact hcall
  unfold MachineAction.callService at hcall
  dsimp only [entering] at hcall
  split at hcall
  · rename_i s hrun
    cases hcall
    obtain ⟨top, second, third, below, owner, key, value, hstack, howner, hkey, hvalue, hchanges⟩ :=
      StorageService.put_of_run hrun
    refine ⟨frame, rest, top, second, third, below, owner, key, value, hframes, hstack, howner, hkey, hvalue, hchanges,
      ?_⟩
    obtain ⟨service, _, hfind, hprice⟩ := Action.bind_eq_ok.1 hprice
    rw [hfound] at hfind
    cases hfind
    obtain ⟨frame', rest', w, hframes', hrun, -⟩ := MachineAction.onStack_eq_ok.1 hprice
    cases hframes.symm.trans hframes'
    have hmeasured := putPrice_of_operands setting.schedule m.calls.heap top below hkey hvalue
    rw [← hstack] at hmeasured
    cases hmeasured.symm.trans hrun
    rfl
  · cases hcall

/-- The signatures are checked against the keys that were paid for. -/
theorem Executes.checkMultisig (h : m.Executes setting (.operate .checkMultisig) p n) :
    ∃ tx frame rest keyItems signatureItems below keys signatures, setting.transaction = some tx ∧
      m.calls.frames = frame :: rest ∧ frame.stack = keyItems ++ (signatureItems ++ below) ∧
      m.calls.heap.Gives keyItems keys ∧ m.calls.heap.Gives signatureItems signatures ∧ 0 < keys.length ∧
      n.calls.stack? = some (.boolean (matchInOrder (Signature.verify tx.encode) signatures keys) :: below) ∧
      p = setting.schedule.multisigPrice keys.length := by
  obtain ⟨frame, rest, size, gas, hframes, -, hprice, -, hexecute⟩ := h
  obtain ⟨top, others, v, htop, hrun, rfl⟩ := MachineAction.onStack_eq_ok.1 hexecute
  cases htop
  have hcheck : Operation.checkMultisigWith Signature.verify setting.transaction ⟨frame.stack, m.calls.heap⟩ =
      .ok () v := hrun
  obtain ⟨tx, htx⟩ := Operation.transaction_of_checkMultisigWith hcheck
  rw [htx] at hcheck
  obtain ⟨keyItems, signatureItems, below, keys, signatures, hstack, hkeys, hsignatures, hsome, hle, rfl⟩ :=
    Operation.gives_of_checkMultisigWith hcheck
  obtain ⟨counted, _, hcounted, hprice⟩ := Action.bind_eq_ok.1 hprice
  obtain ⟨frame', rest', w, hframes', hcount, -⟩ := MachineAction.onStack_eq_ok.1 hcounted
  cases hframes.symm.trans hframes'
  have hexact := multisigKeys_of_gives (signatureItems ++ below) hkeys
  have hsame : (⟨frame.stack, m.calls.heap⟩ : Workbench) = ⟨keyItems ++ (signatureItems ++ below), m.calls.heap⟩ := by
    rw [← hstack]
  rw [← hsame] at hexact
  cases hexact.symm.trans hcount
  cases hprice
  exact ⟨tx, frame, rest, keyItems, signatureItems, below, keys, signatures, htx, hframes, hstack, hkeys, hsignatures,
    hsome.trans hle, rfl, rfl⟩

/-- Whatever the state and the schedule are, an instruction that succeeds has been paid for.  A write to storage has
been paid for by the kibibytes of the very key and value that it takes off the stack and puts among the pending changes,
and a check of signatures by the very keys that they are checked against. -/
theorem dynamic_prices_exact (hgas : m.gas.Solvent) (h : m.Executes setting i p n) :
    n.gas.consumed.toNat = m.gas.consumed.toNat + p.toNat ∧
    (∀ id, i = .syscall id → Service.ofId? id = some (.storage .put) →
      ∃ frame rest top keyItem valueItem below owner key value, m.calls.frames = frame :: rest ∧
        frame.stack = top :: keyItem :: valueItem :: below ∧ top.toStorageContext = .ok owner ∧
        keyItem.toBytes = .ok key ∧ valueItem.toBytes = .ok value ∧
        n.effects.changes = m.effects.changes.put { contract := owner.scriptHash, key } value ∧
        p.toNat = min (setting.schedule.storagePutPerKib.toNat *
          max 1 ⌈((key.length + value.length : Nat) / 1024 : ℚ)⌉₊) (2 ^ 64 - 1)) ∧
    (i = .operate .checkMultisig →
      ∃ tx frame rest keyItems signatureItems below keys signatures, setting.transaction = some tx ∧
        m.calls.frames = frame :: rest ∧ frame.stack = keyItems ++ (signatureItems ++ below) ∧
        m.calls.heap.Gives keyItems keys ∧ m.calls.heap.Gives signatureItems signatures ∧
        n.calls.stack? = some (.boolean (matchInOrder (Signature.verify tx.encode) signatures keys) :: below) ∧
        p.toNat = min (setting.schedule.checkMultisigPerKey.toNat * keys.length) (2 ^ 64 - 1)) := by
  refine ⟨?_, ?_, ?_⟩
  · obtain ⟨frame, rest, size, gas, -, -, -, hcharge, hexecute⟩ := h
    rw [gas_of_execute hexecute]
    exact GasMeter.toNat_consumed_of_charge hgas hcharge
  · rintro id rfl hid
    obtain ⟨frame, rest, top, keyItem, valueItem, below, owner, key, value, hframes, hstack, howner, hkey, hvalue,
      hchanges, rfl⟩ := h.put hid
    exact ⟨frame, rest, top, keyItem, valueItem, below, owner, key, value, hframes, hstack, howner, hkey, hvalue,
      hchanges, toNat_storagePutPrice _ _ _⟩
  · rintro rfl
    obtain ⟨tx, frame, rest, keyItems, signatureItems, below, keys, signatures, htx, hframes, hstack, hkeys,
      hsignatures, hsome, hresult, rfl⟩ := h.checkMultisig
    exact ⟨tx, frame, rest, keyItems, signatureItems, below, keys, signatures, htx, hframes, hstack, hkeys,
      hsignatures, hresult, toNat_multisigPrice _ hsome⟩

/-- A setting whose run serves a transaction. -/
def served : Setting :=
  { Setting.blank with
    transaction := some
      { hash := .zero 32, type := .invocation, version := 1, attributes := [], inputs := [], outputs := [],
        script := [0x51], gas := 0 } }

/-- A machine before the check of one signature against the keys in an array. -/
def checking : Machine where
  gas := { limit := 1000 }
  calls :=
    { frames :=
        [{ script := { bytes := [0xAE], hash := .zero 20 }, stack := [.array 0, .integer 1, .byteArray [9]],
           statics := 0 }]
      statics := #[none]
      heap := { lists := #[[.byteArray [1], .boolean true, .integer 3]] } }

/-- A machine before a write of one kibibyte to the vault under a key that is an integer. -/
def writing : Machine where
  gas := { limit := 3000 }
  calls :=
    { frames :=
        [{ script := { bytes := [0x68, 4, 0x52, 0xA1, 0x41, 0xF5], hash := .zero 20 }
           stack :=
             [.interface ⟨.storageContext { scriptHash := vault.scriptHash }, .fresh 0⟩, .integer 5,
               .byteArray (List.replicate 1024 7)]
           statics := 0 }]
      statics := #[none]
      heap := { handles := 1 } }

/-- Three keys in an array, and of three kinds, cost three times the price of one, which is 100.  A kibibyte and the byte
of its key cost twice the price of a kibibyte, which is 1000. -/
theorem three_keys_and_two_kibibytes_paid :
    (∃ p n, checking.gas.Solvent ∧ checking.Executes served (.operate .checkMultisig) p n ∧
      n.gas.consumed.toNat = 300) ∧
    ∃ p n, writing.gas.Solvent ∧ writing.Executes Setting.keeping (.syscall 0xF541A152) p n ∧
      n.gas.consumed.toNat = 2000 ∧
      n.effects.changes = writing.effects.changes.put (vaultKey 5) (List.replicate 1024 7) := by
  constructor
  · have hsucceeds : (Action.left? (step served checking)).isSome = true := by
      decide +kernel
    obtain ⟨n, hleft⟩ := Option.isSome_iff_exists.1 hsucceeds
    obtain ⟨_, hstep⟩ := Action.left?_eq_some.1 hleft
    obtain ⟨i, p, hnext, hexecutes⟩ := executes_of_step hstep
    cases hnext
    have hsolvent : checking.gas.Solvent := UInt64.le_iff_toNat_le.2 (by decide)
    obtain ⟨hpaid, -, hcheck⟩ := dynamic_prices_exact hsolvent hexecutes
    obtain ⟨tx, frame, rest, keyItems, signatureItems, below, keys, signatures, -, hframes, hstack, hkeys, -, -,
      hprice⟩ := hcheck rfl
    cases hframes
    have hthree : keys.length = 3 := by
      cases hkeys with
      | array hbytes =>
        obtain ⟨htop, -⟩ := List.cons.inj hstack
        cases htop
        exact length_of_mapM hbytes
      | struct hbytes => cases (List.cons.inj hstack).1
      | counted hcount hfits hbytes =>
        obtain ⟨rfl, -⟩ := List.cons.inj hstack
        cases hcount
    refine ⟨p, n, hsolvent, hexecutes, ?_⟩
    rw [hpaid, hprice, hthree]
    rfl
  · have hsucceeds : (Action.left? (step Setting.keeping writing)).isSome = true := by
      rw [← stepListed_eq]
      decide +kernel
    obtain ⟨n, hleft⟩ := Option.isSome_iff_exists.1 hsucceeds
    obtain ⟨_, hstep⟩ := Action.left?_eq_some.1 hleft
    obtain ⟨i, p, hnext, hexecutes⟩ := executes_of_step hstep
    have hput : writing.next? = some (.syscall 0xF541A152) := by
      decide +kernel
    cases hput.symm.trans hnext
    have hsolvent : writing.gas.Solvent := UInt64.le_iff_toNat_le.2 (by decide)
    have hlisted : Service.ofId? 0xF541A152 = some (.storage .put) :=
      Service.ofId?_of_listed (0xF541A152, .storage .put) (by decide)
    obtain ⟨hpaid, hwrite, -⟩ := dynamic_prices_exact hsolvent hexecutes
    obtain ⟨frame, rest, top, keyItem, valueItem, below, owner, key, value, hframes, hstack, howner, hkey, hvalue,
      hchanges, hprice⟩ := hwrite _ rfl hlisted
    cases hframes
    cases hstack
    cases howner
    cases hvalue
    have hfive : (Item.integer 5).toBytes = .ok [5] := congrArg Except.ok (by decide +kernel : Bytes.ofInt 5 = [5])
    cases hfive.symm.trans hkey
    refine ⟨p, n, hsolvent, hexecutes, ?_, hchanges⟩
    rw [hpaid, hprice, natCeil_div_kib, List.length_replicate]
    decide

end Machine
end LedgerVM
