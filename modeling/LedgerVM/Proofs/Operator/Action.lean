import LedgerVM.Operator.Workbench

/-!
# Laws of actions

Three things can be said of an action without looking into it: that whenever it succeeds it leaves a state related
to the one it found (`Ensures`), that it cannot tell apart two states of which one is the image of the other
(`Commutes`), and that it succeeds with the same outcome wherever another action does (`Extends`).  Each holds of a
sequence as soon as it holds of its members, and of an action on a part of a state by the laws of that part.
-/

namespace LedgerVM

namespace Action

variable {σ τ α β : Type}

/-- Whenever the action succeeds, the state it leaves is related to the one it found. -/
def Ensures (R : σ → σ → Prop) (a : Action σ α) : Prop := ∀ s x t, a s = .ok x t → R s t

/-- Changes the state of an outcome. -/
def mapState (g : σ → σ) : EStateM.Result Fault σ α → EStateM.Result Fault σ α
  | .ok x s => .ok x (g s)
  | .error fault s => .error fault (g s)

/-- The state that is left by a success. -/
def left? : EStateM.Result Fault σ α → Option σ
  | .ok _ s => some s
  | .error _ _ => none

/-- Changing the state before the action or after it comes to the same. -/
def Commutes (g : σ → σ) (a : Action σ α) : Prop := ∀ s, a (g s) = mapState g (a s)

theorem left?_eq_some {r : EStateM.Result Fault σ α} {s : σ} : left? r = some s ↔ ∃ x, r = .ok x s := by
  cases r with
  | ok x t => simp [left?]
  | error fault t => simp [left?]

theorem bind_apply (a : Action σ α) (f : α → Action σ β) (s : σ) :
    (a >>= f) s =
      match a s with
      | .ok x t => f x t
      | .error fault t => .error fault t := by
  show EStateM.bind a f s = _
  unfold EStateM.bind
  cases a s <;> rfl

theorem bind_of_ok {a : Action σ α} {f : α → Action σ β} {s t : σ} {x : α} (h : a s = .ok x t) :
    (a >>= f) s = f x t := by
  rw [bind_apply, h]

theorem bind_of_error {a : Action σ α} {f : α → Action σ β} {s t : σ} {fault : Fault} (h : a s = .error fault t) :
    (a >>= f) s = .error fault t := by
  rw [bind_apply, h]

/-- A sequence succeeds if its members do, one after the other. -/
theorem bind_eq_ok {a : Action σ α} {f : α → Action σ β} {s u : σ} {y : β} :
    (a >>= f) s = .ok y u ↔ ∃ x t, a s = .ok x t ∧ f x t = .ok y u := by
  rw [bind_apply]
  cases h : a s with
  | ok x t => simp only [EStateM.Result.ok.injEq, and_assoc, exists_and_left, exists_eq_left']
  | error fault t => simp

/-- A sequence fails with its first member that does. -/
theorem bind_eq_error {a : Action σ α} {f : α → Action σ β} {s u : σ} {fault : Fault} :
    (a >>= f) s = .error fault u ↔ a s = .error fault u ∨ ∃ x t, a s = .ok x t ∧ f x t = .error fault u := by
  rw [bind_apply]
  cases h : a s with
  | ok x t => simp only [reduceCtorEq, false_or, EStateM.Result.ok.injEq, and_assoc, exists_and_left, exists_eq_left']
  | error fault t => simp

theorem within_eq_ok {part : σ → τ} {replace : σ → τ → σ} {a : Action τ α} {s u : σ} {x : α} :
    within part replace a s = .ok x u ↔ ∃ t, a (part s) = .ok x t ∧ replace s t = u := by
  unfold within
  cases h : a (part s) with
  | ok x t => simp only [EStateM.Result.ok.injEq, and_assoc, exists_and_left, exists_eq_left']
  | error fault t => simp

theorem within_eq_error {part : σ → τ} {replace : σ → τ → σ} {a : Action τ α} {s u : σ} {fault : Fault} :
    within part replace a s = .error fault u ↔ ∃ t, a (part s) = .error fault t ∧ replace s t = u := by
  unfold within
  cases h : a (part s) with
  | ok x t => simp
  | error fault t => simp only [EStateM.Result.error.injEq, and_assoc, exists_and_left, exists_eq_left']

theorem ofExcept_eq_ok {x : Except Fault α} {s t : σ} {a : α} :
    ofExcept x s = .ok a t ↔ x = .ok a ∧ s = t := by
  unfold ofExcept
  cases x <;> simp

theorem ofExcept_eq_error {x : Except Fault α} {s t : σ} {fault : Fault} :
    ofExcept x s = .error fault t ↔ x = .error fault ∧ s = t := by
  unfold ofExcept
  cases x <;> simp

/-! ### What success ensures -/

section Ensures

variable {R : σ → σ → Prop}

theorem Ensures.pure (hrefl : ∀ s, R s s) (x : α) : Ensures R (Pure.pure x : Action σ α) := by
  intro s y t h
  cases h
  exact hrefl s

theorem Ensures.throw (fault : Fault) : Ensures R (MonadExcept.throw fault : Action σ α) := by
  intro s x t h
  cases h

theorem Ensures.ofExcept (hrefl : ∀ s, R s s) (x : Except Fault α) : Ensures R (ofExcept x : Action σ α) := by
  intro s a t h
  obtain ⟨-, rfl⟩ := ofExcept_eq_ok.1 h
  exact hrefl s

theorem Ensures.bind (htrans : ∀ {s t u}, R s t → R t u → R s u) {a : Action σ α} {f : α → Action σ β}
    (ha : Ensures R a) (hf : ∀ x, Ensures R (f x)) : Ensures R (a >>= f) := by
  intro s y u h
  obtain ⟨x, t, hx, hy⟩ := bind_eq_ok.1 h
  exact htrans (ha s x t hx) (hf x t y u hy)

/-- An action on a part leads the whole where it leads the part. -/
theorem Ensures.within {Q : τ → τ → Prop} {part : σ → τ} {replace : σ → τ → σ} {a : Action τ α}
    (hpart : ∀ s t, Q (part s) t → R s (replace s t)) (ha : Ensures Q a) :
    Ensures R (within part replace a) := by
  intro s x u h
  obtain ⟨t, ht, rfl⟩ := within_eq_ok.1 h
  exact hpart s t (ha _ x t ht)

end Ensures

/-! ### Actions that change nothing -/

/-- Whether it succeeds or fails, the action leaves the state it found. -/
structure Reads (a : Action σ α) : Prop where
  ok : Ensures (fun s t => t = s) a
  error : ∀ s fault t, a s = .error fault t → t = s

theorem Reads.pure (x : α) : Reads (Pure.pure x : Action σ α) where
  ok := Ensures.pure (R := fun s t => t = s) (fun _ => rfl) x
  error := nofun

theorem Reads.throw (fault : Fault) : Reads (MonadExcept.throw fault : Action σ α) where
  ok := Ensures.throw fault
  error s fault t h := by
    cases h
    rfl

theorem Reads.ofExcept (x : Except Fault α) : Reads (Action.ofExcept x : Action σ α) where
  ok := Ensures.ofExcept (R := fun s t => t = s) (fun _ => rfl) x
  error _ _ _ h := (ofExcept_eq_error.1 h).2.symm

theorem Reads.bind {a : Action σ α} {f : α → Action σ β} (ha : Reads a) (hf : ∀ x, Reads (f x)) :
    Reads (a >>= f) where
  ok := Ensures.bind (fun hst htu => htu.trans hst) ha.ok fun x => (hf x).ok
  error s fault u h := by
    rcases bind_eq_error.1 h with h | ⟨x, t, hx, h⟩
    · exact ha.error s fault u h
    · rw [← ha.ok s x t hx]
      exact (hf x).error t fault u h

/-! ### Commuting actions -/

section Commutes

variable {g : σ → σ}

theorem Commutes.pure (x : α) : Commutes g (Pure.pure x : Action σ α) := fun _ => rfl

theorem Commutes.throw (fault : Fault) : Commutes g (MonadExcept.throw fault : Action σ α) := fun _ => rfl

theorem Commutes.ofExcept (x : Except Fault α) : Commutes g (ofExcept x : Action σ α) := by
  intro s
  cases x <;> rfl

theorem Commutes.bind {a : Action σ α} {f : α → Action σ β} (ha : Commutes g a) (hf : ∀ x, Commutes g (f x)) :
    Commutes g (a >>= f) := by
  intro s
  rw [bind_apply, bind_apply, ha s]
  cases h : a s with
  | ok x t => exact hf x t
  | error fault t => rfl

/-- What follows a look at the state may depend on it only as far as the change shows. -/
theorem Commutes.get_bind {f : σ → Action σ β} (hf : ∀ s, f (g s) (g s) = mapState g (f s s)) :
    Commutes g (MonadState.get >>= f) := hf

theorem Commutes.modify {f : σ → σ} (hf : ∀ s, f (g s) = g (f s)) :
    Commutes g (modify f : Action σ PUnit) := by
  intro s
  exact congrArg (EStateM.Result.ok PUnit.unit) (hf s)

/-- An action on a part commutes with every change that leaves the part alone. -/
theorem Commutes.within {part : σ → τ} {replace : σ → τ → σ} {a : Action τ α} (hpart : ∀ s, part (g s) = part s)
    (hreplace : ∀ s t, replace (g s) t = g (replace s t)) : Commutes g (within part replace a) := by
  intro s
  unfold Action.within
  rw [hpart]
  cases a (part s) <;> simp [mapState, hreplace]

end Commutes

/-! ### Actions that succeed more often -/

/-- Whatever the first action succeeds with, so does the second. -/
def Extends (a b : Action σ α) : Prop := ∀ s x t, a s = .ok x t → b s = .ok x t

namespace Extends

variable {a b : Action σ α}

theorem refl (a : Action σ α) : Extends a a := fun _ _ _ h => h

theorem bind {f g : α → Action σ β} (hab : Extends a b) (hfg : ∀ x, Extends (f x) (g x)) :
    Extends (a >>= f) (b >>= g) := by
  intro s y u h
  obtain ⟨x, t, hx, hy⟩ := bind_eq_ok.1 h
  exact bind_eq_ok.2 ⟨x, t, hab s x t hx, hfg x t y u hy⟩

theorem within {part : σ → τ} {replace : σ → τ → σ} {c d : Action τ α} (hcd : Extends c d) :
    Extends (within part replace c) (Action.within part replace d) := by
  intro s x u h
  obtain ⟨t, ht, hu⟩ := within_eq_ok.1 h
  exact within_eq_ok.2 ⟨t, hcd _ x t ht, hu⟩

/-- A check that refuses less lets the rest of the action happen whenever a stricter one does. -/
theorem check {p q : Prop} [Decidable p] [Decidable q] {strict lax : Fault} {f g : Unit → Action σ α}
    (hqp : q → p) (hfg : Extends (f ()) (g ())) :
    Extends (if p then (MonadExcept.throw strict : Action σ Unit) >>= f else f ())
      (if q then (MonadExcept.throw lax : Action σ Unit) >>= g else g ()) := by
  intro s x t h
  by_cases hp : p
  · rw [if_pos hp] at h
    cases h
  · have hq : ¬q := fun hq => hp (hqp hq)
    rw [if_neg hp] at h
    rw [if_neg hq]
    exact hfg s x t h

end Extends
end Action
end LedgerVM
