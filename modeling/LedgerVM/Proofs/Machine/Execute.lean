import LedgerVM.Machine.Execute
import LedgerVM.Proofs.Machine.CallStack

/-!
# What executing an instruction leaves alone

Every instruction but the return and the call of a service is a sequence of actions on the call stack that keep
a frame, so a property of actions that these have and that sequencing keeps is a property of every such
instruction (`Closed.execute`).  Two of them are used here.

* `Instruction.execute_bookless`: no instruction reads or changes the book that is kept of the run around its
  instructions: gas, steps, breakpoints, the cursor and the fault.
* `Instruction.frames_of_execute`: a machine with a frame has one after every instruction that succeeds, unless
  that was the return from the outermost frame, which halts it.
-/

namespace LedgerVM

/-- The machine with another evaluation stack for the executing frame, and another heap. -/
def Machine.withBench (w : Workbench) (m : Machine) : Machine :=
  { m with calls := { m.calls with
      frames := m.calls.frames.modifyHead ({ · with stack := w.stack })
      heap := w.heap } }

theorem Machine.withBench_self {m : Machine} {frame : Frame} {rest : List Frame}
    (hframes : m.calls.frames = frame :: rest) : m.withBench ⟨frame.stack, m.calls.heap⟩ = m := by
  have hsame : m.calls.frames.modifyHead ({ · with stack := frame.stack }) = m.calls.frames := by
    rw [hframes]
    rfl
  simp only [withBench, hsame]

namespace MachineAction

/-- An operation changes no more than the workbench. -/
theorem onStack_withBench {α : Type} (operation : Operation α) (w : Workbench) {m : Machine}
    (hframes : m.calls.frames ≠ []) :
    onStack operation (m.withBench w) =
      match operation w with
      | .ok x v => .ok x (m.withBench v)
      | .error fault v => .error fault (m.withBench v) := by
  obtain ⟨frame, rest, hframes⟩ := List.exists_cons_of_ne_nil hframes
  unfold onStack onCalls CallAction.onTop Action.within
  cases hrun : operation w <;> simp [Machine.withBench, hframes, hrun]

theorem onCalls_eq_ok {α : Type} {a : CallAction α} {m n : Machine} {x : α} :
    onCalls a m = .ok x n ↔ ∃ c, a m.calls = .ok x c ∧ n = { m with calls := c } := by
  simp only [eq_comm (a := n)]
  exact Action.within_eq_ok

theorem onCalls_eq_error {α : Type} {a : CallAction α} {m n : Machine} {fault : Fault} :
    onCalls a m = .error fault n ↔ ∃ c, a m.calls = .error fault c ∧ n = { m with calls := c } := by
  simp only [eq_comm (a := n)]
  exact Action.within_eq_error

theorem onCalls_reads {α : Type} {a : CallAction α} (ha : a.Reads) : (onCalls a).Reads where
  ok m x n h := by
    obtain ⟨c, hc, rfl⟩ := onCalls_eq_ok.1 h
    rw [ha.ok _ _ _ hc]
  error m fault n h := by
    obtain ⟨c, hc, rfl⟩ := onCalls_eq_error.1 h
    rw [ha.error _ _ _ hc]

theorem findService_reads (id : UInt32) : (findService id).Reads := by
  unfold findService
  split
  · exact .pure _
  · exact .throw _

/-- A property of actions that the moves of instructions have and that sequencing keeps. -/
structure Closed (P : {α : Type} → MachineAction α → Prop) : Prop where
  pure : ∀ {α : Type} (x : α), P (Pure.pure x : MachineAction α)
  throw : ∀ {α : Type} (fault : Fault), P (MonadExcept.throw fault : MachineAction α)
  bind : ∀ {α β : Type} {a : MachineAction α} {f : α → MachineAction β}, P a → (∀ x, P (f x)) → P (a >>= f)
  onCalls : ∀ {α : Type} {a : CallAction α}, a.Grounded → P (onCalls a)

namespace Closed

variable {P : {α : Type} → MachineAction α → Prop} (h : Closed P)
include h

theorem onStack {α : Type} (operation : Operation α) : P (onStack operation) := h.onCalls (.onTop operation)

theorem ofExcept {α : Type} (x : Except Fault α) : P (Action.ofExcept x : MachineAction α) := by
  cases x with
  | ok a => exact h.pure a
  | error fault => exact h.throw fault

theorem call (limits : Limits) (target : Int) : P (call limits target) :=
  h.onCalls (.bind .top fun _ => .bind (.ofExcept _) fun _ => .bind .takeStack fun _ => .pushFrame _ _)

theorem appCall (setting : Setting) (target : Hash160) (tail : Bool) : P (appCall setting target tail) := by
  have hcheck : P (checkDynamicInvoke setting.ledger) := by
    refine h.bind (h.onCalls .top) fun frame => h.bind (h.ofExcept _) fun found => ?_
    cases found with
    | none => exact h.throw _
    | some contract =>
      dsimp only
      split
      · exact h.throw _
      · exact h.pure _
  have htarget : P (callTarget setting.ledger target) := by
    unfold callTarget
    split
    · refine h.bind hcheck fun _ => h.bind (h.onStack _) fun bytes => ?_
      cases Digest.ofBytes? 20 bytes with
      | none => exact h.throw _
      | some hash => exact h.pure _
    · exact h.pure _
  refine h.bind htarget fun hash => h.bind (h.ofExcept _) fun found => ?_
  cases found with
  | none => exact h.throw _
  | some contract =>
    refine h.onCalls (.bind .takeStack fun stack => .bind (.newFrame _ _) fun frame => ?_)
    dsimp only
    split
    · -- a tail call takes a frame away first, but puts its own in the place
      exact .bind_pushFrame _ _ _
    · exact .pushFrame _ _

theorem findService (id : UInt32) : P (findService id) := by
  unfold MachineAction.findService
  split
  · exact h.pure _
  · exact h.throw _

/-- Every instruction that neither returns nor calls a service has a property that its moves have. -/
theorem execute (setting : Setting) (position : Nat) {i : Instruction} (hret : i ≠ .ret)
    (hsyscall : ∀ id, i ≠ .syscall id) : P (i.execute setting position) := by
  cases i with
  | pushBytes data =>
    simp only [Instruction.execute]
    split
    · exact h.bind (h.throw _) fun _ => h.onStack _
    · exact h.onStack _
  | pushInt _ | operate _ => exact h.onStack _
  | nop => exact h.pure _
  | jump offset => exact h.onCalls (.jump _)
  | jumpIf expected offset =>
    refine h.onCalls (.bind .top fun frame => .bind (.ofExcept _) fun pointer => .bind (.onTop _) fun popped => ?_)
    split
    · exact .modifyTop _
    · exact .pure _
  | call offset => exact h.call _ _
  | ret => exact absurd rfl hret
  | appCall target tail => exact h.appCall setting target tail
  | syscall id => exact absurd rfl (hsyscall id)
  | dupFromAlt => exact h.onCalls (.bind .peekAlt fun _ => .onTop _)
  | toAlt => exact h.onCalls (.bind (.onTop _) fun _ => .pushAlt _)
  | fromAlt => exact h.onCalls (.bind .popAlt fun _ => .onTop _)
  | initStatic count =>
    simp only [Instruction.execute]
    split
    · exact h.bind (h.throw _) fun _ => h.onCalls (.initStatic _)
    · exact h.onCalls (.initStatic _)
  | initSlots locals arguments =>
    simp only [Instruction.execute]
    split
    · exact h.bind (h.throw _) fun _ => h.onCalls (.initSlots _ _)
    · exact h.onCalls (.initSlots _ _)
  | load slot index => exact h.onCalls (.bind (.load _ _) fun _ => .onTop _)
  | store slot index => exact h.onCalls (.bind (.onTop _) fun _ => .store _ _ _)
  | raise => exact h.bind (h.onCalls (.modifyTop _)) fun _ => h.throw _
  | raiseUnless =>
    refine h.bind (h.onStack _) fun passed => ?_
    cases passed with
    | true => exact h.pure _
    | false => exact h.bind (h.onCalls (.modifyTop _)) fun _ => h.throw _

end Closed
end MachineAction

/-! ### The book of the run -/

/-- The book that is kept of a run around its instructions. -/
structure Machine.Book where
  gas : GasMeter
  steps : Nat
  breakpoints : List Location
  cursor : Option Location
  fault : Option Fault
  faultLocation : Option Location

namespace Machine

/-- The book of a machine. -/
def book (m : Machine) : Book where
  gas := m.gas
  steps := m.steps
  breakpoints := m.breakpoints
  cursor := m.cursor
  fault := m.fault
  faultLocation := m.faultLocation

/-- The machine with another book. -/
def withBook (b : Book) (m : Machine) : Machine :=
  { m with
    gas := b.gas
    steps := b.steps
    breakpoints := b.breakpoints
    cursor := b.cursor
    fault := b.fault
    faultLocation := b.faultLocation }

theorem withBook_book (m : Machine) : m.withBook m.book = m := rfl

theorem book_withBook (b : Book) (m : Machine) : (m.withBook b).book = b := rfl

/-- The machine with its book changed. -/
def editBook (f : Book → Book) (m : Machine) : Machine := m.withBook (f m.book)

end Machine

namespace MachineAction

/-- The action neither reads nor changes the book of the run. -/
def Bookless {α : Type} (a : MachineAction α) : Prop := ∀ b, Action.Commutes (Machine.withBook b) a

namespace Bookless

variable {α : Type} {a : MachineAction α} {m n : Machine}

theorem onCalls (a : CallAction α) : Bookless (onCalls a) := fun _ => .within (fun _ => rfl) fun _ _ => rfl

theorem book_of_ok {x : α} (ha : a.Bookless) (h : a m = .ok x n) : n.book = m.book := by
  -- putting its own book into the machine changes nothing, before the action or after it
  have hsame := ha m.book m
  rw [Machine.withBook_book, h] at hsame
  injection hsame with _ hn
  rw [hn, Machine.book_withBook]

theorem book_of_error {fault : Fault} (ha : a.Bookless) (h : a m = .error fault n) : n.book = m.book := by
  have hsame := ha m.book m
  rw [Machine.withBook_book, h] at hsame
  injection hsame with _ hn
  rw [hn, Machine.book_withBook]

/-- Changing the book before the action or after it comes to the same. -/
theorem commutes (ha : a.Bookless) (f : Machine.Book → Machine.Book) : Action.Commutes (Machine.editBook f) a := by
  intro m
  have hedit := ha (f m.book) m
  unfold Machine.editBook
  rw [hedit]
  cases h : a m with
  | ok x n =>
    have hbook := ha.book_of_ok h
    simp only [Action.mapState, hbook]
  | error fault n =>
    have hbook := ha.book_of_error h
    simp only [Action.mapState, hbook]

end Bookless

theorem closed_bookless : Closed Bookless where
  pure x _ := .pure x
  throw fault _ := .throw fault
  bind ha hf b := .bind (ha b) fun x => hf x b
  onCalls _ := .onCalls _

private theorem ret_bookless : Bookless ret := by
  intro b
  refine .bind (Bookless.onCalls _ b) fun frame => .get_bind fun m => ?_
  have hframes : (m.withBook b).calls.frames = m.calls.frames := rfl
  rw [hframes]
  split
  · rfl
  · exact Bookless.onCalls _ b m

private theorem callService_bookless (setting : Setting) (service : Service) :
    Bookless (callService setting service) := by
  intro b m
  have hcalls : (m.withBook b).calls = m.calls := rfl
  have heffects : (m.withBook b).effects = m.effects := rfl
  unfold callService
  rw [hcalls, heffects]
  cases m.calls.frames with
  | nil => rfl
  | cons frame rest =>
    dsimp only
    split <;> rfl

end MachineAction

open MachineAction in
/-- An instruction neither reads nor changes the book of the run. -/
theorem Instruction.execute_bookless (setting : Setting) (position : Nat) (i : Instruction) :
    (i.execute setting position).Bookless := by
  cases i with
  | syscall id =>
    exact closed_bookless.bind (closed_bookless.findService id) fun service => callService_bookless setting service
  | ret => exact ret_bookless
  | _ => exact closed_bookless.execute setting position (by simp) (by simp)

/-! ### Frames and the end of a run -/

namespace MachineAction

/-- Whenever the action succeeds, the status is what it was, and a machine with a frame still has one. -/
def Stays {α : Type} (a : MachineAction α) : Prop :=
  Action.Ensures (fun m n => n.status = m.status ∧ (m.calls.frames ≠ [] → n.calls.frames ≠ [])) a

theorem closed_stays : Closed Stays where
  pure := .pure fun _ => ⟨rfl, id⟩
  throw := .throw
  bind := .bind fun hst htu => ⟨htu.1.trans hst.1, fun hs => htu.2 (hst.2 hs)⟩
  onCalls := .within fun _ _ hframes => ⟨rfl, hframes⟩

private theorem callService_stays (setting : Setting) (service : Service) :
    Stays (callService setting service) := by
  intro m x n h
  unfold callService at h
  split at h
  · cases h
  · dsimp only at h
    split at h
    · cases h
      exact ⟨rfl, fun _ => List.cons_ne_nil _ _⟩
    · cases h

/-- A return takes the executing frame away.  Its evaluation stack goes to its caller, or to the results of a
machine that halts. -/
theorem ret_eq_ok {m n : Machine} (h : ret m = .ok () n) :
    (∃ frame, m.calls.frames = [frame] ∧
      n = { m with
        calls := { m.calls with frames := [] }, results := m.results ++ frame.stack.reverse, status := .halted }) ∨
    ∃ frame caller rest, m.calls.frames = frame :: caller :: rest ∧
      n = { m with
        calls := { m.calls with frames := { caller with stack := frame.stack ++ caller.stack } :: rest } } := by
  obtain ⟨frame, p, hpop, hrest⟩ := Action.bind_eq_ok.1 h
  obtain ⟨c, hc, rfl⟩ := onCalls_eq_ok.1 hpop
  unfold CallAction.popFrame at hc
  split at hc
  · rename_i frame' rest hframes
    cases hc
    cases rest with
    | nil =>
      cases hrest
      exact .inl ⟨frame, hframes, rfl⟩
    | cons caller rest =>
      cases hrest
      exact .inr ⟨frame, caller, rest, hframes, rfl⟩
  · cases hc

end MachineAction

open MachineAction in
/-- An instruction that succeeds on a machine with a frame leaves one and the status, or halts the machine
without any. -/
theorem Instruction.frames_of_execute {setting : Setting} {position : Nat} {i : Instruction} {m n : Machine}
    (hm : m.calls.frames ≠ []) (h : i.execute setting position m = .ok () n) :
    (n.status = m.status ∧ n.calls.frames ≠ []) ∨ (n.status = .halted ∧ n.calls.frames = []) := by
  have hstays : i ≠ .ret → Stays (i.execute setting position) := by
    intro hi
    cases i with
    | ret => exact absurd rfl hi
    | syscall id => exact closed_stays.bind (closed_stays.findService id) fun _ => callService_stays setting _
    | _ => exact closed_stays.execute setting position (by simp) (by simp)
  by_cases hi : i = .ret
  · subst hi
    rcases ret_eq_ok h with ⟨frame, -, rfl⟩ | ⟨frame, caller, rest, -, rfl⟩
    · exact .inr ⟨rfl, rfl⟩
    · exact .inl ⟨rfl, List.cons_ne_nil _ _⟩
  · obtain ⟨hstatus, hframes⟩ := hstays hi m () n h
    exact .inl ⟨hstatus, hframes hm⟩

end LedgerVM
