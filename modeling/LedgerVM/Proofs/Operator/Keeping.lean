import LedgerVM.Proofs.Item.Bounds
import LedgerVM.Proofs.Operator.Answers

/-!
# Actions that keep within bounds

States hold items and the heap these live in (`Holder`).  An action keeps within bounds if from states within bounds it
leads to such states only, on a heap that has grown, and gives values of some kind on that heap (`Bounds.Keeps`); what
was within bounds on the old heap is so on the new one.  Most actions leave the heap as it is (`Bounds.Spares`).  An
action that fails does so for other reasons than that structs nest without end, if structs must not contain themselves.
-/

namespace LedgerVM

variable {σ τ α β : Type}

/-! ### Actions -/

/-- A state with a heap and items that live in it. -/
class Holder (σ : Type) where
  heap : σ → Heap
  Has : σ → Item → Prop

namespace Bounds

variable [Holder σ] [Holder τ] {b : Bounds} {h k : Heap} {Q R : Heap → α → Prop}

/-- The heap of a state is within bounds, and so is all that the state holds. -/
structure Fits (b : Bounds) (s : σ) : Prop where
  heap : b.HoldsHeap (Holder.heap s)
  items : ∀ item, Holder.Has s item → b.Holds (Holder.heap s) item

/-- The outcome is a state within bounds on a heap that has grown, with a value of this kind, or a fault which is not
that structs nest without end, unless they may. -/
def Outcome (b : Bounds) (h : Heap) (Q : Heap → α → Prop) : EStateM.Result Fault σ α → Prop
  | .ok x s => h.Grows (Holder.heap s) ∧ b.Fits s ∧ Q (Holder.heap s) x
  | .error fault _ => b.acyclic → fault ≠ .endlessStruct

/-- From a state within bounds on this heap the action leaves such a state with a value of this kind, or fails. -/
def Keeps (b : Bounds) (h : Heap) (Q : Heap → α → Prop) (a : Action σ α) : Prop :=
  ∀ s, Holder.heap s = h → b.Fits s → b.Outcome h Q (a s)

/-- The action keeps within bounds and leaves the heap as it is. -/
def Spares (b : Bounds) (h : Heap) (Q : α → Prop) (a : Action σ α) : Prop := b.Keeps h (fun k x => k = h ∧ Q x) a

/-- The action keeps within bounds on any heap. -/
def Preserves (b : Bounds) (a : Action σ α) : Prop := ∀ h, b.Keeps h (fun _ _ => True) a

theorem ne_endless {fault : Fault} (hfault : fault.isRegular = true) : fault ≠ .endlessStruct := by
  rintro rfl
  cases hfault

namespace Outcome

theorem of_regular {fault : Fault} {s : σ} (hfault : fault.isRegular = true) :
    b.Outcome h Q (.error fault s : EStateM.Result Fault σ α) := fun _ => ne_endless hfault

theorem mono {r : EStateM.Result Fault σ α} (hr : b.Outcome h R r) (hQ : ∀ k x, R k x → Q k x) : b.Outcome h Q r := by
  cases r with
  | ok x s => exact ⟨hr.1, hr.2.1, hQ _ x hr.2.2⟩
  | error fault s => exact hr

theorem trans {r : EStateM.Result Fault σ α} (hgrows : h.Grows k) (hr : b.Outcome k Q r) : b.Outcome h Q r := by
  cases r with
  | ok x s => exact ⟨hgrows.trans hr.1, hr.2⟩
  | error fault s => exact hr

end Outcome

namespace Keeps

/-- The heap may be taken to be within bounds. -/
theorem of_holds {a : Action σ α} (ha : b.HoldsHeap h → b.Keeps h Q a) : b.Keeps h Q a := by
  rintro s rfl hs
  exact ha hs.heap s rfl hs

theorem mono {a : Action σ α} (ha : b.Keeps h R a) (hQ : ∀ k x, R k x → Q k x) : b.Keeps h Q a := fun s hheap hs =>
  (ha s hheap hs).mono hQ

theorem pure {x : α} (hx : Q h x) : b.Keeps h Q (Pure.pure x : Action σ α) := by
  intro s hheap hs
  refine ⟨?_, hs, ?_⟩
  · rw [hheap]
    exact .refl h
  · rw [hheap]
    exact hx

theorem throw {fault : Fault} (hfault : fault.isRegular = true) :
    b.Keeps h Q (MonadExcept.throw fault : Action σ α) := fun _ _ _ => .of_regular hfault

theorem bind {a : Action σ α} {f : α → Action σ β} {S : Heap → β → Prop} (ha : b.Keeps h R a)
    (hf : ∀ k x, h.Grows k → R k x → b.Keeps k S (f x)) : b.Keeps h S (a >>= f) := by
  intro s hheap hs
  have hkept := ha s hheap hs
  rw [Action.bind_apply]
  cases hrun : a s with
  | ok x t =>
    rw [hrun] at hkept
    obtain ⟨hgrows, ht, hx⟩ := hkept
    exact (hf _ x hgrows hx t rfl ht).trans hgrows
  | error fault t =>
    rw [hrun] at hkept
    exact hkept

/-- What comes after an action that leaves the heap as it is. -/
theorem after {a : Action σ α} {f : α → Action σ β} {P : α → Prop} {S : Heap → β → Prop} (ha : b.Spares h P a)
    (hf : ∀ x, P x → b.Keeps h S (f x)) : b.Keeps h S (a >>= f) := by
  refine bind ha fun k x _ hx => ?_
  obtain ⟨rfl, hx⟩ := hx
  exact hf x hx

/-- A check lets the rest of the action happen only where it holds. -/
theorem check {p : Prop} [Decidable p] {fault : Fault} {f : Unit → Action σ α} (hfault : fault.isRegular = true)
    (hf : ¬p → b.Keeps h Q (f ())) :
    b.Keeps h Q (if p then (MonadExcept.throw fault : Action σ Unit) >>= f else f ()) := by
  by_cases hp : p
  · rw [if_pos hp]
    exact throw hfault
  · rw [if_neg hp]
    exact hf hp

theorem mapM {f : β → Action σ α} {items : List β}
    (hR : ∀ {k l : Heap} {x : α}, k.Grows l → R k x → R l x)
    (hf : ∀ k, h.Grows k → ∀ item ∈ items, b.Keeps k R (f item)) :
    b.Keeps h (fun k xs => xs.length = items.length ∧ ∀ x ∈ xs, R k x) (items.mapM f) := by
  induction items generalizing h with
  | nil => exact pure ⟨rfl, by simp⟩
  | cons item items ih =>
    rw [List.mapM_cons]
    refine bind (hf h (.refl h) item List.mem_cons_self) fun k x hk hx => ?_
    have hrest : ∀ l, k.Grows l → ∀ other ∈ items, b.Keeps l R (f other) := fun l hl other hother =>
      hf l (hk.trans hl) other (List.mem_cons_of_mem item hother)
    refine bind (ih hrest) fun l xs hl hxs => pure ⟨by simp [hxs.1], fun y hy => ?_⟩
    rcases List.mem_cons.1 hy with rfl | hy
    · exact hR hl hx
    · exact hxs.2 y hy

/-- An action on a part keeps the whole within bounds if the whole has nothing new but what the part has. -/
theorem within {part : σ → τ} {replace : σ → τ → σ} {a : Action τ α} (ha : b.Keeps h Q a)
    (hpart : ∀ s, Holder.heap (part s) = Holder.heap s ∧ ∀ item, Holder.Has (part s) item → Holder.Has s item)
    (hreplace : ∀ s t, Holder.heap (replace s t) = Holder.heap t ∧
      ∀ item, Holder.Has (replace s t) item → Holder.Has t item ∨ Holder.Has s item) :
    b.Keeps h Q (Action.within part replace a) := by
  intro s hheap hs
  obtain ⟨hsame, hless⟩ := hpart s
  have hfits : b.Fits (part s) := by
    refine ⟨hsame ▸ hs.heap, fun item hitem => ?_⟩
    rw [hsame]
    exact hs.items item (hless item hitem)
  have hkept := ha (part s) (hsame.trans hheap) hfits
  unfold Action.within
  cases hrun : a (part s) with
  | ok x t =>
    rw [hrun] at hkept
    obtain ⟨hgrows, ht, hx⟩ := hkept
    obtain ⟨hsame', hmore⟩ := hreplace s t
    refine ⟨by rwa [hsame'], ⟨by rw [hsame']; exact ht.heap, fun item hitem => ?_⟩, by rwa [hsame']⟩
    rw [hsame']
    rcases hmore item hitem with hnew | hold
    · exact ht.items item hnew
    · exact (hs.items item hold).mono (by rwa [hheap])
  | error fault t =>
    rw [hrun] at hkept
    exact hkept

end Keeps

namespace Spares

variable {P : α → Prop} {S : β → Prop}

theorem of_holds {a : Action σ α} (ha : b.HoldsHeap h → b.Spares h P a) : b.Spares h P a := Keeps.of_holds ha

theorem keeps {a : Action σ α} (ha : b.Spares h P a) (hQ : ∀ x, P x → Q h x) : b.Keeps h Q a :=
  Keeps.mono ha fun _ x hx => hx.1 ▸ hQ x hx.2

theorem done {a : Action σ α} (ha : b.Spares h P a) : b.Keeps h (fun _ _ => True) a := ha.keeps fun _ _ => trivial

theorem mono {P' : α → Prop} {a : Action σ α} (ha : b.Spares h P' a) (hP : ∀ x, P' x → P x) : b.Spares h P a :=
  Keeps.mono ha fun _ x hx => ⟨hx.1, hP x hx.2⟩

theorem pure {x : α} (hx : P x) : b.Spares h P (Pure.pure x : Action σ α) := Keeps.pure ⟨rfl, hx⟩

theorem throw {fault : Fault} (hfault : fault.isRegular = true) :
    b.Spares h P (MonadExcept.throw fault : Action σ α) := Keeps.throw hfault

theorem ofExcept {x : Except Fault α} (hx : Answers P x) : b.Spares h P (Action.ofExcept x : Action σ α) := by
  cases x with
  | ok a => exact pure hx
  | error fault => exact throw hx

theorem bind {a : Action σ α} {f : α → Action σ β} (ha : b.Spares h P a) (hf : ∀ x, P x → b.Spares h S (f x)) :
    b.Spares h S (a >>= f) := Keeps.after ha hf

theorem check {p : Prop} [Decidable p] {fault : Fault} {f : Unit → Action σ α} (hfault : fault.isRegular = true)
    (hf : ¬p → b.Spares h P (f ())) :
    b.Spares h P (if p then (MonadExcept.throw fault : Action σ Unit) >>= f else f ()) := Keeps.check hfault hf

/-- An action on the state as a whole leaves the heap as it is, and nothing new but what is within bounds. -/
theorem of_run {a : Action σ α} (ha : ∀ s, Holder.heap s = h → b.Fits s →
      match a s with
      | .ok x t => Holder.heap t = h ∧ (∀ item, Holder.Has t item → Holder.Has s item ∨ b.Holds h item) ∧ P x
      | .error fault _ => fault ≠ .endlessStruct) : b.Spares h P a := by
  intro s hheap hs
  have hrun := ha s hheap hs
  cases hresult : a s with
  | ok x t =>
    rw [hresult] at hrun
    obtain ⟨rfl, hnew, hx⟩ := hrun
    refine ⟨.refl _, ⟨hheap ▸ hs.heap, fun item hitem => ?_⟩, rfl, hx⟩
    rcases hnew item hitem with hold | hitem
    · exact hheap ▸ hs.items item hold
    · exact hitem
  | error fault t =>
    rw [hresult] at hrun
    exact fun _ => hrun

theorem get : b.Spares h (fun s => Holder.heap s = h ∧ b.Fits s) (MonadState.get : Action σ σ) :=
  of_run fun _ hheap hs => ⟨hheap, fun _ => .inl, hheap, hs⟩

theorem modify {f : σ → σ} (hf : ∀ s, Holder.heap s = h → b.Fits s →
      Holder.heap (f s) = h ∧ ∀ item, Holder.Has (f s) item → Holder.Has s item ∨ b.Holds h item) :
    b.Spares h (fun _ => True) (modify f : Action σ PUnit) :=
  of_run fun s hheap hs => ⟨(hf s hheap hs).1, (hf s hheap hs).2, trivial⟩

end Spares

end Bounds
end LedgerVM
