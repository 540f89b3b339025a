import LedgerVM.Proofs.Item.Reach
import LedgerVM.Proofs.Machine.Confinement
import LedgerVM.Proofs.Machine.Debugger
import LedgerVM.Proofs.Machine.Serving
import LedgerVM.Proofs.Machine.Writes
import LedgerVM.Proofs.Service.Permission

/-!
# Storage contexts as capabilities

A run that was given no storage context can only have contexts of contracts that it has executed: contexts are copied,
stored into collections and slots and handed to other contracts, but a new one is always of the executing contract.
So it writes to the storage of contracts that it has executed and of no others, and it writes through no context that
it got for reading alone (`Machine.storage_guarded`).
-/

namespace LedgerVM

namespace Heap

/-- No storage context can be reached from the items. -/
def FreeOfContexts (h : Heap) (items : List Item) : Prop :=
  ∀ handle, h.Reaches items (.interface handle) → handle.kind ≠ .storageContext

/-- The collection is yet to be made. -/
def Lacks (h : Heap) : CellId → Prop
  | .list ref => h.lists.size ≤ ref
  | .map ref => h.maps.size ≤ ref

/-- What a script that is given these items can reach, with the storage contexts of these contracts. -/
def given (h : Heap) (items : List Item) (owners : Hash160 → Prop) : Scope where
  cells cell := (∃ item, h.Reaches items item ∧ item.cell? = some cell) ∨ h.Lacks cell
  owners := owners

variable {h : Heap} {items : List Item} {owners : Hash160 → Prop}

/-- What can be reached is in scope whoever's contexts are, if there is no context among it. -/
theorem holds_given (hfree : h.FreeOfContexts items) {item : Item} (hitem : h.Reaches items item) :
    (h.given items owners).Holds item := by
  cases item with
  | array ref | struct ref | map ref => exact .inl ⟨_, hitem, rfl⟩
  | interface handle => exact Scope.holds_handle (hfree handle hitem)
  | boolean _ | integer _ | byteArray _ => trivial

theorem holdsHeap_given (hfree : h.FreeOfContexts items) : (h.given items owners).HoldsHeap h where
  list ref href other hother := by
    rcases href with ⟨item, hitem, hcell⟩ | hlacks
    · exact holds_given hfree (.inside hitem hcell hother)
    · have hnone : h.lists[ref]? = none := Array.getElem?_eq_none hlacks
      rw [list, Array.getD_eq_getD_getElem?, hnone] at hother
      cases hother
  map ref href entry hentry := by
    rcases href with ⟨item, hitem, hcell⟩ | hlacks
    · refine holds_given hfree (.inside hitem hcell ?_)
      exact List.mem_flatMap.2 ⟨entry, hentry, by simp⟩
    · have hnone : h.maps[ref]? = none := Array.getElem?_eq_none hlacks
      rw [map, Array.getD_eq_getD_getElem?, hnone] at hentry
      cases hentry
  newList _ href := .inr href
  newMap _ href := .inr href

end Heap

/-! ### More contexts -/

namespace CallScope

variable {scope : CallScope} {here : Place}

/-- A scope with the contexts of more contracts holds as much. -/
theorem HoldsCalls.mono {owners : Hash160 → Prop} (hmore : ∀ owner, scope.owners owner → owners owner)
    {c : CallStack} (h : scope.HoldsCalls here c) :
    ({ scope with owners } : CallScope).HoldsCalls here c where
  top := h.top
  depth := h.depth
  frames f hf :=
    have hframe := h.frames f hf
    { script := hframe.script
      stack := fun item hitem => (hframe.stack item hitem).mono hmore
      alt := fun item hitem => (hframe.alt item hitem).mono hmore
      locals := fun values hvalues item hitem => (hframe.locals values hvalues item hitem).mono hmore
      arguments := fun values hvalues item hitem => (hframe.arguments values hvalues item hitem).mono hmore }
  statics slot hslot values hvalues item hitem := (h.statics slot hslot values hvalues item hitem).mono hmore
  heap := h.heap.mono hmore

end CallScope

namespace Machine

variable {setting : Setting} {m n start last : Machine} {w : Write} {handle : Handle} {k : Nat}

/-! ### What a step may do -/

/-- The service that the next instruction calls, if it calls one. -/
def service? (m : Machine) : Option Service :=
  match m.calls.frames with
  | frame :: _ =>
    match decode frame.script.bytes frame.pointer with
    | .ok (.syscall id, _) => Service.ofId? id
    | _ => none
  | [] => none

/-- The item on top of the executing frame's stack. -/
def operand? (m : Machine) : Option Item := m.calls.frames.head?.bind (·.stack.head?)

/-- The next step gets a handle of a storage context by asking for one for reading alone. -/
def ObtainsReadOnly (setting : Setting) (m : Machine) (handle : Handle) : Prop :=
  (m.service? = some (.storage .getReadOnlyContext) ∨ m.service? = some (.storage .asReadOnly)) ∧
    ∃ n, step setting m = .ok () n ∧ n.operand? = some (.interface handle)

/-- A step that succeeds at the call of a service has run it on the stack of the executing frame. -/
theorem run_of_step {service : Service} (hservice : m.service? = some service) (h : step setting m = .ok () n) :
    ∃ frame rest context t below, m.calls.frames = frame :: rest ∧ context.setting = setting ∧
      service.run context { bench := { stack := frame.stack, heap := m.calls.heap }, effects := m.effects } =
        .ok () t ∧ n.calls.frames = { frame with stack := t.bench.stack, pointer := below } :: rest := by
  obtain ⟨frame, rest, i, size, p, gas, hframes, hdecode, -, -, -, hexecute, -⟩ := step_eq_ok.1 h
  simp only [service?, hframes, hdecode] at hservice
  split at hservice
  · rename_i id _ hcall
    cases hcall
    obtain ⟨found, q, hfind, hcalled⟩ := Action.bind_eq_ok.1 hexecute
    simp only [MachineAction.findService, hservice] at hfind
    cases hfind
    unfold MachineAction.callService at hcalled
    have hentering : (m.entering frame rest size gas).calls.frames =
      { frame with pointer := frame.pointer + size } :: rest := rfl
    rw [hentering] at hcalled
    dsimp only at hcalled
    split at hcalled
    · rename_i t ht
      cases hcalled
      exact ⟨frame, rest, _, t, _, hframes, rfl, ht, rfl⟩
    · cases hcalled
  · cases hservice

/-- A step that writes succeeds, at the call of a service that asks for the write. -/
theorem write?_eq_some (hw : m.write? setting = some w) :
    ∃ n frame rest service, step setting m = .ok () n ∧ m.calls.frames = frame :: rest ∧
      m.service? = some service ∧ service.write? frame.stack = some w := by
  unfold write? at hw
  split at hw
  · rename_i n frame rest hstep hframes
    obtain ⟨⟨i, size⟩, hdecode, hw⟩ := Option.bind_eq_some_iff.1 hw
    have hok : decode frame.script.bytes frame.pointer = .ok (i, size) := by
      cases hread : decode frame.script.bytes frame.pointer with
      | ok found =>
        rw [hread] at hdecode
        exact congrArg Except.ok (Option.some.inj hdecode)
      | error fault =>
        rw [hread] at hdecode
        cases hdecode
    cases i with
    | syscall id =>
      obtain ⟨service, hid, hw⟩ := Option.bind_eq_some_iff.1 hw
      exact ⟨n, frame, rest, service, hstep, hframes, by simp [service?, hframes, hok, hid], hw⟩
    | _ => cases hw
  · cases hw

/-- A step that writes does so through the context on top of the stack, and has leave to. -/
theorem permitted_of_write (hw : m.write? setting = some w) :
    ∃ handle owner, m.operand? = some (.interface handle) ∧ handle.entity = .storageContext owner ∧
      w.1.contract = owner.scriptHash ∧ setting.PermitsWrite owner := by
  obtain ⟨n, frame, rest, service, hstep, hframes, hservice, hasks⟩ := write?_eq_some hw
  obtain ⟨frame', rest', context, t, pointer, hframes', hsetting, hrun, -⟩ := run_of_step hservice hstep
  rw [hframes] at hframes'
  cases hframes'
  obtain ⟨handle, owner, below, hstack, hentity, hcontract, hpermits⟩ := Service.permitted_of_run hrun hasks
  refine ⟨handle, owner, ?_, hentity, hcontract, hsetting ▸ hpermits⟩
  have hstack : frame.stack = .interface handle :: below := hstack
  simp [operand?, hframes, hstack]

/-- What is got by asking for a read-only context is one. -/
theorem readOnly_of_obtains (h : m.ObtainsReadOnly setting handle) :
    ∃ owner, handle.entity = .storageContext owner ∧ owner.readOnly = true := by
  obtain ⟨hservice, n, hstep, hresult⟩ := h
  have hread {service : StorageService} (hkind : service = .getReadOnlyContext ∨ service = .asReadOnly)
      (hcalled : m.service? = some (.storage service)) :
      ∃ owner, handle.entity = .storageContext owner ∧ owner.readOnly = true := by
    obtain ⟨frame, rest, context, t, pointer, -, -, hrun, hafter⟩ := run_of_step hcalled hstep
    obtain ⟨made, owner, below, hstack, hentity, hreadOnly⟩ := StorageService.readOnly_of_run hkind hrun
    have hmade : n.operand? = some (.interface made) := by simp [operand?, hafter, hstack]
    rw [hmade] at hresult
    cases hresult
    exact ⟨owner, hentity, hreadOnly⟩
  rcases hservice with hcalled | hcalled
  · exact hread (.inl rfl) hcalled
  · exact hread (.inr rfl) hcalled

/-! ### What a run may do -/

/-- A frame of the contract was executing at one of the first `k` steps of the run. -/
def Executed (setting : Setting) (start : Machine) (k : Nat) (contract : Hash160) : Prop :=
  ∃ j n, j < k ∧ Steps setting j start n ∧ n.calls.executing? = some contract

theorem Executed.mono {j : Nat} {contract : Hash160} (h : Executed setting start j contract) (hle : j ≤ k) :
    Executed setting start k contract := by
  obtain ⟨i, n, hi, hrun, hexecuting⟩ := h
  exact ⟨i, n, Nat.lt_of_lt_of_le hi hle, hrun, hexecuting⟩

/-- A run is one step longer than the run to the machine before. -/
theorem Steps.snoc_inv (h : Steps setting (k + 1) start last) :
    ∃ m, Steps setting k start m ∧ m.status = .running ∧ last = m.advance setting := by
  induction k generalizing start with
  | zero =>
    cases h with
    | cons hm hrest =>
      cases hrest
      exact ⟨start, .refl _, hm, rfl⟩
  | succ k ih =>
    cases h with
    | cons hm hrest =>
      obtain ⟨m, hrun, hrunning, hlast⟩ := ih hrest
      exact ⟨m, .cons hm hrun, hrunning, hlast⟩

/-- Every entry that the run wants to change is one of a deployed contract with storage that it has executed. -/
structure Guarded (setting : Setting) (m start : Machine) (k : Nat) : Prop where
  changes : ∀ key, (m.effects.changes.get? key).isSome → setting.trigger = .application ∧
    (∃ contract, setting.ledger.contract key.contract = .ok (some contract) ∧
      contract.properties.hasStorage = true) ∧ Executed setting start k key.contract
  verification : setting.trigger = .verification → m.effects.changes = .empty

/-- What is in scope after a number of steps of a run that was given items of a heap. -/
def givenScope (setting : Setting) (start : Machine) (heap : Heap) (items : List Item) (k : Nat) : CallScope :=
  { heap.given items (Executed setting start k) with
    scripts := fun _ => True
    depth := setting.limits.callDepth }

/-- A context on top of the stack of a machine in scope is one of a contract that was executed. -/
theorem executed_of_operand {heap : Heap} {items : List Item} {owner : StorageContext}
    (hm : (givenScope setting start heap items k).HoldsCalls .anywhere m.calls)
    (htop : m.operand? = some (.interface handle)) (hentity : handle.entity = .storageContext owner) :
    Executed setting start k owner.scriptHash := by
  obtain ⟨frame, rest, hframes, -⟩ := hm.top
  have hmem : Item.interface handle ∈ frame.stack := by
    rw [operand?, hframes] at htop
    exact List.mem_of_mem_head? htop
  have hframe := hm.frames frame (by rw [hframes]; exact List.mem_cons_self)
  exact hframe.stack _ hmem owner hentity

theorem Guarded.step {heap : Heap} {items : List Item} (hm : m.Guarded setting start k)
    (hcalls : (givenScope setting start heap items k).HoldsCalls .anywhere m.calls)
    (h : step setting m = .ok () n) : n.Guarded setting start (k + 1) := by
  have hchanges := changes_of_step h
  have hold : ∀ key, (m.effects.changes.get? key).isSome → setting.trigger = .application ∧
      (∃ contract, setting.ledger.contract key.contract = .ok (some contract) ∧
        contract.properties.hasStorage = true) ∧ Executed setting start (k + 1) key.contract := by
    intro key hkey
    obtain ⟨htrigger, hcontract, hexecuted⟩ := hm.changes key hkey
    exact ⟨htrigger, hcontract, hexecuted.mono (Nat.le_succ k)⟩
  cases hw : m.write? setting with
  | none =>
    rw [hw] at hchanges
    have hsame : n.effects.changes = m.effects.changes := hchanges
    refine ⟨?_, ?_⟩
    · rw [hsame]
      exact hold
    · rw [hsame]
      exact hm.verification
  | some w =>
    -- the entry that is written is the only new one, and belongs to the context on top of the stack
    obtain ⟨handle, owner, htop, hentity, hcontract, hpermits⟩ := permitted_of_write hw
    have hexecuted := executed_of_operand hcalls htop hentity
    refine ⟨fun key hkey => ?_, fun hverification => ?_⟩
    · by_cases hnew : w.1 = key
      · rw [← hnew, hcontract]
        exact ⟨hpermits.trigger, hpermits.contract, hexecuted.mono (Nat.le_succ k)⟩
      · rw [hchanges, hw, ChangeSet.get?_recordAll] at hkey
        refine hold key ?_
        simpa [Write.last?, hnew] using hkey
    · rw [hpermits.trigger] at hverification
      cases hverification

theorem Guarded.advance {heap : Heap} {items : List Item} (hguarded : m.Guarded setting start k) (hlive : m.Live)
    (hm : m.status = .running) (hcalls : (givenScope setting start heap items k).HoldsCalls .anywhere m.calls) :
    (m.advance setting).Guarded setting start (k + 1) := by
  rcases hlive.advance_eq_step setting hm with ⟨n, status, hstep, hn⟩ | ⟨fault, n, -, hn⟩
  · have hnext := hguarded.step hcalls hstep
    rw [hn]
    exact ⟨hnext.changes, hnext.verification⟩
  · rw [hn]
    refine ⟨fun key hkey => ?_, fun _ => rfl⟩
    simp [faultWith, ChangeSet.get?] at hkey

/-- After any number of steps of a run that was given no storage context, what it holds is in scope and what it wants
to change is guarded. -/
theorem Steps.guarded {script : Bytes} {entry : Nat} {arguments : List Item} {heap : Heap}
    (hload : load setting.limits script entry arguments (initial setting.limits heap) = .ok () start)
    (hfree : heap.FreeOfContexts arguments) (h : Steps setting k start m) :
    (m.calls.frames ≠ [] → (givenScope setting start heap arguments k).HoldsCalls .anywhere m.calls) ∧
      m.Guarded setting start k := by
  obtain ⟨hlive, -, -, heffects⟩ := fresh_of_load hload
  -- on the number of steps and from the end of the run, for the scope grows with it
  induction k generalizing m with
  | zero =>
    cases h
    refine ⟨fun _ => ?_, ?_, ?_⟩
    · exact holds_of_load rfl trivial (Heap.holdsHeap_given hfree)
        (fun item hitem => Heap.holds_given hfree (.root hitem)) hload
    · intro key hkey
      rw [heffects] at hkey
      simp [ChangeSet.get?] at hkey
    · rw [heffects]
      exact fun _ => rfl
  | succ k ih =>
    obtain ⟨m, hrun, hm, rfl⟩ := h.snoc_inv
    obtain ⟨hcalls, hguarded⟩ := ih hrun
    have hlive := hrun.live hlive
    have hcalls := hcalls (hlive.frames_ne_nil hm)
    -- the frame that is executing now counts as executed from here on
    have hwider : (givenScope setting start heap arguments (k + 1)).HoldsCalls .anywhere m.calls :=
      hcalls.mono fun owner howner => Executed.mono howner (Nat.le_succ k)
    have hexecuting : ∀ hash, m.calls.executing? = some hash → Executed setting start (k + 1) hash :=
      fun hash hhash => ⟨k, m, Nat.lt_succ_self k, hrun, hhash⟩
    have hadmits : (givenScope setting start heap arguments (k + 1)).Admits setting := ⟨rfl, fun _ _ _ => trivial⟩
    exact ⟨hlive.advance_confined hm hadmits hwider hexecuting, hguarded.advance hlive hm hcalls⟩

/-- However a machine is driven that was loaded without a storage context among its arguments, every entry that it
wants to change is one of a deployed contract with storage that it has executed, and it is an application; for a
verification there are no changes.  Every write of its run goes through a context of the contract that is not
read-only, and not through one that any step of the run got for reading alone. -/
theorem storage_guarded {script : Bytes} {entry : Nat} {arguments : List Item} {heap : Heap} {calls : List DebugCall}
    (hload : load setting.limits script entry arguments (initial setting.limits heap) = .ok () start)
    (hdebug : start.debug setting calls = some m) (hfree : heap.FreeOfContexts arguments) :
    (∃ k, Steps setting k start m.bare ∧ m.Guarded setting start k) ∧
    ∀ j p w, Steps setting j start p → p.write? setting = some w →
      ∃ handle owner, p.operand? = some (.interface handle) ∧ handle.entity = .storageContext owner ∧
        w.1.contract = owner.scriptHash ∧ setting.PermitsWrite owner ∧ Executed setting start j owner.scriptHash ∧
        ∀ i q, Steps setting i start q → ¬q.ObtainsReadOnly setting handle := by
  obtain ⟨-, k, hrun⟩ := steps_of_driven hload hdebug
  have hguarded := (hrun.guarded hload hfree).2
  refine ⟨⟨k, hrun, hguarded.changes, hguarded.verification⟩, fun j p w hp hw => ?_⟩
  obtain ⟨handle, owner, htop, hentity, hcontract, hpermits⟩ := permitted_of_write hw
  obtain ⟨n, frame, rest, service, -, hframes, -⟩ := write?_eq_some hw
  have hcalls := (hp.guarded hload hfree).1 (by rw [hframes]; exact List.cons_ne_nil _ _)
  refine ⟨handle, owner, htop, hentity, hcontract, hpermits, executed_of_operand hcalls htop hentity, ?_⟩
  -- a handle names one context, and that cannot be read-only and writable
  intro i q hq hobtains
  obtain ⟨other, hother, hreadOnly⟩ := readOnly_of_obtains hobtains
  rw [hentity] at hother
  cases hother
  rw [hpermits.writable] at hreadOnly
  cases hreadOnly

/-- A script that puts a value into the vault and deletes an entry there changes entries of the vault, which it has
executed; a verification that is given an array with a handle of an account in it, and copies the array, changes
nothing. -/
theorem vault_changes_guarded :
    (∃ m k, (ofScript {} (vaultPut 1 7 ++ vaultDelete 2)).debug Setting.keeping [.execute 16] = some m ∧
      m.effects.changes.get? (vaultKey 1) = some (some [7]) ∧ m.effects.changes.get? (vaultKey 2) = some none ∧
      m.Guarded Setting.keeping (ofScript {} (vaultPut 1 7 ++ vaultDelete 2)) k ∧
      Executed Setting.keeping (ofScript {} (vaultPut 1 7 ++ vaultDelete 2)) k vault.scriptHash) ∧
    ∃ start m,
      load {} [0x76] 0 [.array 0]
          (initial {} { lists := #[[.interface ⟨.account (.empty (.zero 20)), .table []⟩]] }) = .ok () start ∧
        start.debug { Setting.blank with trigger := .verification } [.execute 8] = some m ∧
        m.status = .halted ∧ m.effects.changes = .empty := by
  constructor
  · have hends : ((ofScript {} (vaultPut 1 7 ++ vaultDelete 2)).debug Setting.keeping [.execute 16]).map
        (fun m => [1, 2].map fun key => m.effects.changes.get? (vaultKey key)) = some [some (some [7]), some none] := by
      rw [debug_execute, execute_eq_runListed]
      decide +kernel
    obtain ⟨m, hdebug, hchanges⟩ := Option.map_eq_some_iff.1 hends
    obtain ⟨hfirst, hsecond⟩ : m.effects.changes.get? (vaultKey 1) = some (some [7]) ∧
        [m.effects.changes.get? (vaultKey 2)] = [some none] := List.cons.inj hchanges
    have hload := load_ofScript (vaultPut 1 7 ++ vaultDelete 2) (show 0 < Setting.keeping.limits.callDepth by decide)
    have hfree : Heap.FreeOfContexts {} [] := fun handle hhandle => absurd hhandle Heap.not_reaches_nil
    obtain ⟨⟨k, -, hguarded⟩, -⟩ := storage_guarded hload hdebug hfree
    obtain ⟨-, -, hexecuted⟩ := hguarded.changes (vaultKey 1) (by rw [hfirst]; rfl)
    exact ⟨m, k, hdebug, hfirst, (List.cons.inj hsecond).1, hguarded, hexecuted⟩
  · let setting : Setting := { Setting.blank with trigger := .verification }
    let account : Handle := ⟨.account (.empty (.zero 20)), .table []⟩
    let heap : Heap := { lists := #[[.interface account]] }
    let start : Machine :=
      { ofScript {} [0x76] with
        calls :=
          { frames := [{ script := ⟨[0x76], Hashing.hash160 [0x76]⟩, stack := [.array 0], statics := 0 }]
            statics := #[none]
            heap } }
    have hload : load setting.limits [0x76] 0 [.array 0] (initial setting.limits heap) = .ok () start := rfl
    have hreach : ∀ item, heap.Reaches [.array 0] item → item = .array 0 ∨ item = .interface account := by
      intro item hitem
      induction hitem with
      | root hitem => exact .inl (List.mem_singleton.1 hitem)
      | inside _ hcell hother ih =>
        rcases ih with rfl | rfl
        · cases hcell
          exact .inr (List.mem_singleton.1 hother)
        · cases hcell
    have hfree : heap.FreeOfContexts [.array 0] := by
      intro handle hhandle
      rcases hreach _ hhandle with heq | heq
      · cases heq
      · cases heq
        nofun
    have hends : (start.debug setting [.execute 8]).map (fun m => m.status) = some .halted := by
      decide +kernel
    obtain ⟨m, hdebug, hstatus⟩ := Option.map_eq_some_iff.1 hends
    obtain ⟨⟨k, -, hguarded⟩, -⟩ := storage_guarded hload hdebug hfree
    exact ⟨start, m, hload, hdebug, hstatus, hguarded.verification rfl⟩

end Machine
end LedgerVM
