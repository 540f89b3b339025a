import LedgerVM.Proofs.Operator.Action

/-!
# Actions that keep an invariant

An action keeps an invariant if it leads from states that satisfy it to such states only; along with that goes what
is known of the values it gives (`Action.Maintains`).  A sequence keeps an invariant that its members keep, each of
them started with a value that the one before it may give.

Nothing is said of the state that a failing action leaves, but the fault is never the lack of a frame: an action that
could not do without one would have to be told so by the invariant.
-/

namespace LedgerVM

variable {σ τ α β : Type}

/-! ### Computations without a state -/

/-- The computation gives a value of this kind or fails, but not for want of a frame. -/
def Yields (Q : α → Prop) : Except Fault α → Prop
  | .ok x => Q x
  | .error fault => fault ≠ .noFrame

namespace Yields

variable {Q R : α → Prop}

theorem mono {x : Except Fault α} (hx : Yields R x) (h : ∀ a, R a → Q a) : Yields Q x := by
  cases x with
  | ok a => exact h a hx
  | error fault => exact hx

theorem bind {x : Except Fault α} {f : α → Except Fault β} {S : β → Prop} (hx : Yields R x)
    (hf : ∀ a, R a → Yields S (f a)) : Yields S (x >>= f) := by
  cases x with
  | ok a => exact hf a hx
  | error fault => exact hx

/-- A failure of another kind that is reported as a fault is not the lack of a frame. -/
theorem mapError {ε : Type} {report : ε → Fault} (hreport : ∀ e, report e ≠ .noFrame) (x : Except ε α) :
    Yields (fun a => x = .ok a) (x.mapError report) := by
  cases x with
  | ok a => rfl
  | error e => exact hreport e

theorem mapM {f : β → Except Fault α} {items : List β} (hf : ∀ item ∈ items, Yields R (f item)) :
    Yields (fun xs => ∀ x ∈ xs, R x) (items.mapM f) := by
  induction items with
  | nil =>
    intro x hx
    cases hx
  | cons item items ih =>
    rw [List.mapM_cons]
    refine bind (hf item List.mem_cons_self) fun x hx => ?_
    refine bind (ih fun y hy => hf y (List.mem_cons_of_mem item hy)) fun xs hxs => ?_
    intro y hy
    rcases List.mem_cons.1 hy with rfl | hy
    · exact hx
    · exact hxs y hy

end Yields

/-! ### Actions -/

namespace Action

variable {I : σ → Prop} {Q R : α → Prop}

/-- The outcome is a state that satisfies the invariant with a value of this kind, or a fault which is not the lack
of a frame. -/
def Leaves (I : σ → Prop) (Q : α → Prop) : EStateM.Result Fault σ α → Prop
  | .ok x s => I s ∧ Q x
  | .error fault _ => fault ≠ .noFrame

theorem Leaves.weaken {J : σ → Prop} {r : EStateM.Result Fault σ α} (hr : Leaves I Q r) (h : ∀ s, I s → J s) :
    Leaves J Q r := by
  cases r with
  | ok x s => exact ⟨h s hr.1, hr.2⟩
  | error fault s => exact hr

/-- From a state that satisfies the invariant the action leaves such a state with a value of this kind, or fails. -/
def Maintains (I : σ → Prop) (Q : α → Prop) (a : Action σ α) : Prop := ∀ s, I s → Leaves I Q (a s)

namespace Maintains

theorem of_ok {a : Action σ α} {s t : σ} {x : α} (ha : Maintains I Q a) (hs : I s) (h : a s = .ok x t) :
    I t ∧ Q x := by
  have hleaves := ha s hs
  rwa [h] at hleaves

theorem mono {a : Action σ α} (ha : Maintains I R a) (h : ∀ x, R x → Q x) : Maintains I Q a := by
  intro s hs
  have hleaves := ha s hs
  cases hrun : a s with
  | ok x t =>
    rw [hrun] at hleaves
    exact ⟨hleaves.1, h x hleaves.2⟩
  | error fault t =>
    rw [hrun] at hleaves
    exact hleaves

theorem pure {x : α} (hx : Q x) : Maintains I Q (Pure.pure x : Action σ α) := fun _ hs => ⟨hs, hx⟩

theorem throw {fault : Fault} (h : fault ≠ .noFrame) :
    Maintains I Q (MonadExcept.throw fault : Action σ α) := fun _ _ => h

theorem ofExcept {x : Except Fault α} (hx : Yields Q x) : Maintains I Q (ofExcept x : Action σ α) := by
  intro s hs
  cases x with
  | ok a => exact ⟨hs, hx⟩
  | error fault => exact hx

theorem bind {a : Action σ α} {f : α → Action σ β} {S : β → Prop} (ha : Maintains I R a)
    (hf : ∀ x, R x → Maintains I S (f x)) : Maintains I S (a >>= f) := by
  intro s hs
  have hleaves := ha s hs
  rw [bind_apply]
  cases hrun : a s with
  | ok x t =>
    rw [hrun] at hleaves
    exact hf x hleaves.2 t hleaves.1
  | error fault t =>
    rw [hrun] at hleaves
    exact hleaves

theorem get : Maintains I I (MonadState.get : Action σ σ) := fun _ hs => ⟨hs, hs⟩

theorem modify {f : σ → σ} (hf : ∀ s, I s → I (f s)) :
    Maintains I (fun _ => True) (modify f : Action σ PUnit) := fun s hs => ⟨hf s hs, trivial⟩

/-- A check lets the rest of the action happen only where it holds. -/
theorem check {p : Prop} [Decidable p] {fault : Fault} {f : Unit → Action σ α} (hfault : fault ≠ .noFrame)
    (hf : ¬p → Maintains I Q (f ())) :
    Maintains I Q (if p then (MonadExcept.throw fault : Action σ Unit) >>= f else f ()) := by
  by_cases hp : p
  · rw [if_pos hp]
    exact throw hfault
  · rw [if_neg hp]
    exact hf hp

theorem mapM {f : β → Action σ α} {items : List β} (hf : ∀ item ∈ items, Maintains I R (f item)) :
    Maintains I (fun xs => ∀ x ∈ xs, R x) (items.mapM f) := by
  induction items with
  | nil =>
    refine pure ?_
    intro x hx
    cases hx
  | cons item items ih =>
    rw [List.mapM_cons]
    refine bind (hf item List.mem_cons_self) fun x hx => ?_
    refine bind (ih fun y hy => hf y (List.mem_cons_of_mem item hy)) fun xs hxs => pure ?_
    intro y hy
    rcases List.mem_cons.1 hy with rfl | hy
    · exact hx
    · exact hxs y hy

/-- An action on a part keeps what the invariant of the whole says of the part. -/
theorem within {J : τ → Prop} {part : σ → τ} {replace : σ → τ → σ} {a : Action τ α} (hpart : ∀ s, I s → J (part s))
    (hreplace : ∀ s t, I s → J t → I (replace s t)) (ha : Maintains J Q a) :
    Maintains I Q (Action.within part replace a) := by
  intro s hs
  have hleaves := ha (part s) (hpart s hs)
  unfold Action.within
  cases hrun : a (part s) with
  | ok x t =>
    rw [hrun] at hleaves
    exact ⟨hreplace s t hs hleaves.1, hleaves.2⟩
  | error fault t =>
    rw [hrun] at hleaves
    exact hleaves

end Maintains
end Action
end LedgerVM
