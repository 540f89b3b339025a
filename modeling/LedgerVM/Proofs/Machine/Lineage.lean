import LedgerVM.Proofs.Machine.Run
import LedgerVM.Proofs.Machine.Transfer
import Mathlib.Logic.Function.Basic
import Mathlib.Logic.Relation

/-!
# Which frames share a static slot

The frames of a run are numbered as they are made, and it is noted which of them called which other within its script
(`Lineage`).  Calls of contracts found new families, calls within a script add to the family of the caller.  Frames
share a static slot if they are of one family, and only then (`Machine.Steps.lineage`).
-/

namespace LedgerVM

/-- The frames that a run has made. -/
structure Lineage where
  /-- The numbers of those on the call stack, executing one first. -/
  alive : List Nat
  /-- How many were made. -/
  born : Nat
  /-- Callers with the frames that they made by calls within their scripts. -/
  called : List (Nat × Nat)

namespace Lineage

/-- The frame of a script that was just loaded. -/
def root : Lineage := { alive := [0], born := 1, called := [] }

/-- The frames after an instruction. -/
def after (l : Lineage) (i : Instruction) : Lineage :=
  match i, l.alive with
  | .call _, caller :: below =>
    { alive := l.born :: caller :: below, born := l.born + 1, called := (caller, l.born) :: l.called }
  | .appCall _ false, caller :: below => { l with alive := l.born :: caller :: below, born := l.born + 1 }
  | .appCall _ true, _ :: below => { l with alive := l.born :: below, born := l.born + 1 }
  | .ret, _ :: below => { l with alive := below }
  | _, _ => l

/-- One of the frames called the other, or calls lead from one to the other by way of further frames. -/
def Kin (l : Lineage) : Nat → Nat → Prop := Relation.EqvGen fun caller callee => (caller, callee) ∈ l.called

end Lineage

/-- The frames after an advance; a fault drops them all. -/
def Machine.offspring (setting : Setting) (m : Machine) (l : Lineage) : Lineage :=
  match step setting m, m.next? with
  | .ok _ _, some i => l.after i
  | _, _ => { l with alive := [] }

/-- The frames after a number of advances. -/
def Machine.lineage (setting : Setting) : Nat → Machine → Lineage → Lineage
  | 0, _, l => l
  | k + 1, m, l => lineage setting k (m.advance setting) (m.offspring setting l)

namespace Lineage

variable {l : Lineage} {cell : Nat → Nat} {c d : CallStack}

/-- The frames on the call stack have the static slots that `cell` gives for their numbers, and `cell` gives one slot
to kin and different ones to others. -/
structure Describes (l : Lineage) (cell : Nat → Nat) (c : CallStack) : Prop where
  alive : c.frames.map Frame.statics = l.alive.map cell
  born : ∀ a ∈ l.alive, a < l.born
  called : ∀ a b, (a, b) ∈ l.called → a < l.born ∧ b < l.born ∧ cell a = cell b
  kin : ∀ a b, a < l.born → b < l.born → cell a = cell b → l.Kin a b
  made : c.frames ≠ [] → ∀ a, a < l.born → cell a < c.statics.size

theorem Kin.cell_eq {a b : Nat} (hkin : l.Kin a b) (hcalled : ∀ a b, (a, b) ∈ l.called → cell a = cell b) :
    cell a = cell b := by
  induction hkin with
  | rel a b h => exact hcalled a b h
  | refl a => rfl
  | symm a b _ ih => exact ih.symm
  | trans a b e _ _ ih ih' => exact ih.trans ih'

theorem Kin.mono {l' : Lineage} {a b : Nat} (hmore : ∀ e ∈ l.called, e ∈ l'.called) (hkin : l.Kin a b) : l'.Kin a b :=
  Relation.EqvGen.mono (fun _ _ h => hmore _ h) a b hkin

/-- One slot goes with one family. -/
theorem Describes.cell_eq_iff (h : l.Describes cell c) {a b : Nat} (ha : a < l.born) (hb : b < l.born) :
    cell a = cell b ↔ l.Kin a b := by
  constructor
  · exact h.kin a b ha hb
  · intro hkin
    exact hkin.cell_eq fun a b hab => (h.called a b hab).2.2

/-- Fewer frames are on the call stack, and no new ones. -/
theorem Describes.shrink (h : l.Describes cell c) {alive : List Nat}
    (hframes : d.frames.map Frame.statics = alive.map cell)
    (halive : ∀ a ∈ alive, a ∈ l.alive) (hsize : d.frames ≠ [] → c.frames ≠ [] ∧ c.statics.size ≤ d.statics.size) :
    ({ l with alive } : Lineage).Describes cell d where
  alive := hframes
  born a ha := h.born a (halive a ha)
  called := h.called
  kin := h.kin
  made hne a ha := Nat.lt_of_lt_of_le (h.made (hsize hne).1 a ha) (hsize hne).2

/-- A frame is made with the static slot `slot`, and is of the family that has that slot. -/
theorem Describes.birth (h : l.Describes cell c) {alive : List Nat} {called : List (Nat × Nat)} {slot : Nat}
    (hframes : d.frames.map Frame.statics = slot :: alive.map cell) (halive : ∀ a ∈ alive, a ∈ l.alive)
    (hc : c.frames ≠ []) (hsize : c.statics.size ≤ d.statics.size) (hslot : slot < d.statics.size)
    (hmore : ∀ e ∈ l.called, e ∈ called)
    (hnew : ∀ a b, (a, b) ∈ called → (a, b) ∈ l.called ∨ a < l.born ∧ b = l.born ∧ cell a = slot)
    (hkin : ∀ a, a < l.born → cell a = slot → ∃ b, cell b = slot ∧ b < l.born ∧ (b, l.born) ∈ called) :
    ({ alive := l.born :: alive, born := l.born + 1, called } : Lineage).Describes
      (Function.update cell l.born slot) d := by
  have hold {a : Nat} (ha : a < l.born) : Function.update cell l.born slot a = cell a :=
    Function.update_of_ne (Nat.ne_of_lt ha) _ _
  have hself : Function.update cell l.born slot l.born = slot := Function.update_self ..
  have hwith {a : Nat} (ha : a < l.born) (hcell : cell a = slot) :
      ({ alive := l.born :: alive, born := l.born + 1, called } : Lineage).Kin a l.born := by
    obtain ⟨b, hb, hlt, hcall⟩ := hkin a ha hcell
    have hab : l.Kin a b := h.kin a b ha hlt (hcell.trans hb.symm)
    exact .trans _ _ _ (hab.mono hmore) (.rel _ _ hcall)
  constructor
  · rw [hframes, List.map_cons, hself]
    congr 1
    refine List.map_congr_left fun a ha => (hold (h.born a (halive a ha))).symm
  · intro a ha
    rcases List.mem_cons.1 ha with rfl | ha
    · exact Nat.lt_succ_self _
    · exact Nat.lt_succ_of_lt (h.born a (halive a ha))
  · intro a b hab
    rcases hnew a b hab with hab | ⟨ha, rfl, hcell⟩
    · obtain ⟨ha, hb, hcell⟩ := h.called a b hab
      rw [hold ha, hold hb]
      exact ⟨Nat.lt_succ_of_lt ha, Nat.lt_succ_of_lt hb, hcell⟩
    · rw [hold ha, hself]
      exact ⟨Nat.lt_succ_of_lt ha, Nat.lt_succ_self _, hcell⟩
  · intro a b ha hb hcell
    rcases Nat.lt_succ_iff_lt_or_eq.1 ha with ha | rfl
    · rcases Nat.lt_succ_iff_lt_or_eq.1 hb with hb | rfl
      · rw [hold ha, hold hb] at hcell
        exact (h.kin a b ha hb hcell).mono hmore
      · rw [hold ha, hself] at hcell
        exact hwith ha hcell
    · rcases Nat.lt_succ_iff_lt_or_eq.1 hb with hb | rfl
      · rw [hold hb, hself] at hcell
        exact .symm _ _ (hwith hb hcell.symm)
      · exact .refl _
  · intro _ a ha
    rcases Nat.lt_succ_iff_lt_or_eq.1 ha with ha | rfl
    · rw [hold ha]
      exact Nat.lt_of_lt_of_le (h.made hc a ha) hsize
    · rw [hself]
      exact hslot

/-- Whatever an instruction does with the frames, their static slots go with their families afterwards too. -/
theorem Describes.moves (h : l.Describes cell c) {frame top : Frame} {rest : List Frame} {i : Instruction}
    (hframes : c.frames = top :: rest) (hsame : frame.statics = top.statics) (hmoves : c.Moves frame rest i d) :
    ∃ cell', (∀ a, a < l.born → cell' a = cell a) ∧ (l.after i).Describes cell' d := by
  have hc : c.frames ≠ [] := by
    rw [hframes]
    exact List.cons_ne_nil _ _
  cases halive : l.alive with
  | nil =>
    have hnone := h.alive
    rw [hframes, halive] at hnone
    cases hnone
  | cons number below =>
    have hslots := h.alive
    rw [hframes, halive, List.map_cons, List.map_cons] at hslots
    obtain ⟨htop, hbelow⟩ := List.cons.inj hslots
    have hnumber : number < l.born := h.born number (by rw [halive]; exact List.mem_cons_self)
    have hin {a : Nat} (ha : a ∈ below) : a ∈ l.alive := by
      rw [halive]
      exact List.mem_cons_of_mem number ha
    have hall {a : Nat} (ha : a ∈ number :: below) : a ∈ l.alive := by rwa [halive]
    have hkept (v : Nat) : ∀ a, a < l.born → Function.update cell l.born v a = cell a := fun a ha =>
      Function.update_of_ne (Nat.ne_of_lt ha) _ _
    -- no frame had the slot that the call of a contract makes
    have hfresh : ∀ a, a < l.born → cell a = c.statics.size → ∃ b, cell b = c.statics.size ∧ b < l.born ∧
        (b, l.born) ∈ l.called := fun a ha hcell => absurd (h.made hc a ha) (by omega)
    cases hmoves with
    | call pointer =>
      simp only [after, halive]
      refine ⟨_, hkept frame.statics, h.birth ?_ (fun a => hall) hc (Nat.le_refl _) ?_ ?_ ?_ ?_⟩
      · simp only [List.map_cons, hbelow, hsame, htop]
      · rw [hsame, htop]
        exact h.made hc number hnumber
      · exact fun e he => List.mem_cons_of_mem _ he
      · intro a b hab
        rcases List.mem_cons.1 hab with hab | hab
        · cases hab
          exact .inr ⟨hnumber, rfl, by rw [hsame, htop]⟩
        · exact .inl hab
      · exact fun a ha hcell => ⟨number, by rw [hsame, htop], hnumber, List.mem_cons_self⟩
    | appCall code htarget =>
      simp only [after, halive]
      refine ⟨_, hkept c.statics.size, h.birth ?_ (fun a => hall) hc (by simp) (by simp) (fun _ he => he)
        (fun _ _ hab => .inl hab) hfresh⟩
      simp only [List.map_cons, hbelow, hsame, htop]
    | tailCall code htarget =>
      simp only [after, halive]
      refine ⟨_, hkept c.statics.size, h.birth ?_ (fun a => hin) hc (by simp) (by simp) (fun _ he => he)
        (fun _ _ hab => .inl hab) hfresh⟩
      simp only [List.map_cons, hbelow]
    | @ret caller others hrest =>
      simp only [after, halive]
      refine ⟨cell, fun _ _ => rfl, h.shrink ?_ (fun a => hin) fun _ => ⟨hc, Nat.le_refl _⟩⟩
      rw [hrest] at hbelow
      exact hbelow
    | halt hrest =>
      simp only [after, halive]
      refine ⟨cell, fun _ _ => rfl, h.shrink ?_ (fun a => hin) fun hne => absurd rfl hne⟩
      rw [hrest] at hbelow
      exact hbelow
    | service stack hheap =>
      refine ⟨cell, fun _ _ => rfl, h.shrink ?_ (fun a => id) fun _ => ⟨hc, Nat.le_refl _⟩⟩
      simp only [List.map_cons, hbelow, hsame, htop, halive]
    | stay hi hstays hscript hstatics hsize hchanged =>
      have hsteady : l.after i = l := by
        cases i <;> first | rfl | cases hi
      rw [hsteady]
      refine ⟨cell, fun _ _ => rfl, h.shrink ?_ (fun a => id) fun _ => ⟨hc, Nat.le_of_eq hsize.symm⟩⟩
      simp only [hstays, List.map_cons, hbelow, hstatics, hsame, htop, halive]

theorem born_le_after (l : Lineage) (i : Instruction) : l.born ≤ (l.after i).born := by
  unfold after
  split <;> simp

end Lineage

namespace Machine

variable {setting : Setting} {m last : Machine} {l : Lineage} {cell : Nat → Nat}

theorem born_le_offspring (setting : Setting) (m : Machine) (l : Lineage) : l.born ≤ (m.offspring setting l).born := by
  unfold offspring
  split
  · exact l.born_le_after _
  · exact Nat.le_refl _

theorem describes_advance (setting : Setting) (hlive : m.Live) (hm : m.status = .running)
    (h : l.Describes cell m.calls) :
    ∃ cell', (∀ a, a < l.born → cell' a = cell a) ∧
      (m.offspring setting l).Describes cell' (m.advance setting).calls := by
  obtain ⟨frame, rest, hframes⟩ := List.exists_cons_of_ne_nil (hlive.frames_ne_nil hm)
  rcases hlive.advance_eq_step setting hm with ⟨n, status, hstep, hn⟩ | ⟨fault, n, hstep, hn⟩
  · obtain ⟨i, size, hi, hmoves⟩ := moves_of_step hframes hstep
    have hnext : m.offspring setting l = l.after i := by
      simp only [offspring, hstep, next?_eq_some.2 ⟨frame, rest, size, hframes, hi⟩]
    rw [hn, hnext]
    exact h.moves hframes (by rfl) hmoves
  · have hnone : m.offspring setting l = { l with alive := [] } := by simp only [offspring, hstep]
    rw [hn, hnone]
    exact ⟨cell, fun _ _ => rfl, h.shrink rfl nofun fun hne => absurd rfl hne⟩

/-- At every point of a run the static slots of frames go with their families: there is one slot for each number, the
frames on the call stack have the slots of their numbers, and numbers have one slot if they are kin, and only then. -/
theorem Steps.lineage {k : Nat} (h : Steps setting k m last) (hlive : m.Live) (hl : l.Describes cell m.calls) :
    ∃ cell', (∀ a, a < l.born → cell' a = cell a) ∧ (lineage setting k m l).Describes cell' last.calls ∧
      ∀ j n, j ≤ k → Steps setting j m n →
        n.calls.frames.map Frame.statics = (Machine.lineage setting j m l).alive.map cell' := by
  induction h generalizing l cell with
  | refl m =>
    refine ⟨cell, fun _ _ => rfl, hl, fun j n hj hn => ?_⟩
    cases hn with
    | refl => exact hl.alive
    | cons _ _ => exact absurd hj (Nat.not_succ_le_zero _)
  | @cons k m last hm _ ih =>
    obtain ⟨cell₁, hkept₁, hl₁⟩ := describes_advance setting hlive hm hl
    obtain ⟨cell₂, hkept₂, hl₂, hprefix⟩ := ih (hlive.advance setting hm) hl₁
    have hkept : ∀ a, a < l.born → cell₂ a = cell a := by
      intro a ha
      rw [hkept₂ a (Nat.lt_of_lt_of_le ha (born_le_offspring setting m l)), hkept₁ a ha]
    refine ⟨cell₂, hkept, hl₂, fun j n hj hn => ?_⟩
    cases hn with
    | refl =>
      have hsame : l.alive.map cell₂ = l.alive.map cell := List.map_congr_left fun a ha => hkept a (hl.born a ha)
      exact hl.alive.trans hsame.symm
    | cons _ hrest => exact hprefix _ n (Nat.le_of_succ_le_succ hj) hrest

end Machine
end LedgerVM
