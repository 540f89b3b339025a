import LedgerVM.Proofs.Item.Copy

/-!
# Equality is an equivalence

Items that are no structs are equal if they have one `Item.Token`: the encoding of a primitive, the collection of an
array or a map, the origin of a handle.  Structs are equal if their elements are, one by one (`Heap.Same`).  Where no
struct contains itself through structs alone, comparing items finds out just this (`Heap.equalWithin_answers`), and
so does comparing them without the shortcut for structs that are one collection (`Heap.elementwiseWithin_answers`):
a struct is the same as itself, as its elements are (`Heap.Same.refl`).  So equality is an equivalence, and the shortcut
makes no difference to it (`Heap.equal_equivalence`).
-/

namespace LedgerVM

namespace Item

/-- The kinds of items that are never equal to one another. -/
inductive Category where
  | primitive | array | struct | map | interface
  deriving DecidableEq, Repr

def category : Item → Category
  | boolean _ | integer _ | byteArray _ => .primitive
  | array _ => .array
  | struct _ => .struct
  | map _ => .map
  | interface _ => .interface

/-- What equal items that are no structs have in common. -/
inductive Token where
  | encoding (bytes : Bytes)
  | array (ref : Nat)
  | map (ref : Nat)
  | handle (kind : EntityKind) (origin : Origin)

def token? : Item → Option Token
  | array ref => some (.array ref)
  | map ref => some (.map ref)
  | interface handle => some (.handle handle.kind handle.origin)
  | item => item.encoding?.map .encoding

variable {a b : Item} {t : Token}

theorem exists_token (ha : ∀ ref, a ≠ .struct ref) : ∃ t, a.token? = some t := by
  cases a with
  | struct ref => exact absurd rfl (ha ref)
  | boolean value => cases value <;> exact ⟨_, rfl⟩
  | _ => exact ⟨_, rfl⟩

theorem sameAs_iff : a.sameAs b = true ↔ ∃ t, a.token? = some t ∧ b.token? = some t := by
  have hswap : (∃ t, a.token? = some t ∧ b.token? = some t) ↔ ∃ t, b.token? = some t ∧ a.token? = some t :=
    exists_congr fun t => and_comm
  rw [hswap]
  rcases a with (_ | _) | _ | _ | _ | _ | _ | _ <;> rcases b with (_ | _) | _ | _ | _ | _ | _ | _ <;>
    simp [sameAs, token?, encoding?, Handle.same]

theorem category_eq_of_token (ha : a.token? = some t) (hb : b.token? = some t) : a.category = b.category := by
  have hone : ∀ {item : Item}, item.token? = some t →
      item.category = match t with
        | .encoding _ => .primitive
        | .array _ => .array
        | .map _ => .map
        | .handle _ _ => .interface := by
    intro item hitem
    cases item with
    | boolean value => cases value <;> cases hitem <;> rfl
    | _ => cases hitem <;> rfl
  rw [hone ha, hone hb]

end Item

namespace Heap

variable {h : Heap} {items : List Item} {a b c : Item} {answer : Bool} {r s : Nat}

/-- The items have one token, or are structs with elements that are the same one by one. -/
inductive Same (h : Heap) : Item → Item → Prop
  | token {a b : Item} {t : Item.Token} (ha : a.token? = some t) (hb : b.token? = some t) : Same h a b
  | struct {r s : Nat} (hlength : (h.list r).length = (h.list s).length)
      (hinside : ∀ (i : Nat) (x y : Item), (h.list r)[i]? = some x → (h.list s)[i]? = some y → Same h x y) :
      Same h (.struct r) (.struct s)

/-- Equality of items whose structs nest no deeper than `depth`, without the shortcut: the elements of a struct are
compared even if it is compared with itself. -/
def elementwiseWithin (h : Heap) : (depth : Nat) → Item → Item → Option Bool
  | 0, .struct _, .struct _ => none
  | depth + 1, .struct r, .struct s =>
    let rs := h.list r
    let ss := h.list s
    if rs.length = ss.length then (rs.zip ss).allM fun (x, y) => elementwiseWithin h depth x y
    else some false
  | _, a, b => some (a.sameAs b)

/-- Equality of items without the shortcut. -/
def elementwise (h : Heap) (a b : Item) : Except Fault Bool :=
  match h.elementwiseWithin (h.lists.size * h.lists.size) a b with
  | some answer => .ok answer
  | none => .error .endlessStruct

/-! ### Being the same -/

theorem same_struct_iff : h.Same (.struct r) (.struct s) ↔
    (h.list r).length = (h.list s).length ∧
      ∀ (i : Nat) (x y : Item), (h.list r)[i]? = some x → (h.list s)[i]? = some y → h.Same x y := by
  constructor
  · intro hsame
    cases hsame with
    | token ha _ => cases ha
    | struct hlength hinside => exact ⟨hlength, hinside⟩
  · rintro ⟨hlength, hinside⟩
    exact .struct hlength hinside

theorem same_iff_sameAs (hab : ∀ r s, a = .struct r → b ≠ .struct s) : h.Same a b ↔ a.sameAs b = true := by
  rw [Item.sameAs_iff]
  constructor
  · intro hsame
    cases hsame with
    | token ha hb => exact ⟨_, ha, hb⟩
    | struct => exact absurd rfl (hab _ _ rfl)
  · rintro ⟨t, ha, hb⟩
    exact .token ha hb

/-- A struct in which nesting ends is the same as itself. -/
theorem Same.refl (hacc : ∀ ref, a = .struct ref → Acc h.Contains ref) : h.Same a a := by
  have hstruct (ref : Nat) (hacc : Acc h.Contains ref) : h.Same (.struct ref) (.struct ref) := by
    induction hacc with
    | intro outer _ ih =>
      refine .struct rfl fun i x y hx hy => ?_
      obtain rfl : x = y := Option.some.inj (hx.symm.trans hy)
      by_cases hitem : ∃ inner, x = .struct inner
      · obtain ⟨inner, rfl⟩ := hitem
        exact ih inner (List.mem_of_getElem? hx)
      · obtain ⟨t, ht⟩ := Item.exists_token fun inner hinner => hitem ⟨inner, hinner⟩
        exact .token ht ht
  by_cases hitem : ∃ ref, a = .struct ref
  · obtain ⟨ref, rfl⟩ := hitem
    exact hstruct ref (hacc ref rfl)
  · obtain ⟨t, ht⟩ := Item.exists_token fun ref href => hitem ⟨ref, href⟩
    exact .token ht ht

theorem Same.symm (hab : h.Same a b) : h.Same b a := by
  induction hab with
  | token ha hb => exact .token hb ha
  | struct hlength _ ih => exact .struct hlength.symm fun i y x hy hx => ih i x y hx hy

theorem Same.trans (hab : h.Same a b) (hbc : h.Same b c) : h.Same a c := by
  induction hab generalizing c with
  | token ha hb =>
    cases hbc with
    | token hb' hc =>
      rw [hb] at hb'
      cases hb'
      exact .token ha hc
    | struct => cases hb
  | @struct r s hlength _ ih =>
    cases hbc with
    | token hb _ => cases hb
    | @struct _ t hlength' hinside' =>
      refine .struct (hlength.trans hlength') fun i x z hx hz => ?_
      -- the element of the middle struct at that place
      have hi : i < (h.list s).length := by
        have hlt := (List.getElem?_eq_some_iff.1 hx).1
        omega
      have hy := List.getElem?_eq_getElem hi
      exact ih i x _ hx hy (hinside' i _ z hy hz)

theorem Same.category_eq (hab : h.Same a b) : a.category = b.category := by
  cases hab with
  | token ha hb => exact Item.category_eq_of_token ha hb
  | struct => rfl

/-! ### What comparing finds out -/

/-- If an answer about elements says whether they are the same, so does the answer about the structs. -/
private theorem struct_answers {f : Item → Item → Option Bool}
    (hf : ∀ x ∈ h.list r, ∀ y found, f x y = some found → (found = true ↔ h.Same x y))
    (hrun : (if (h.list r).length = (h.list s).length then ((h.list r).zip (h.list s)).allM fun (x, y) => f x y
      else some false) = some answer) : answer = true ↔ h.Same (.struct r) (.struct s) := by
  rw [same_struct_iff]
  split at hrun
  · rename_i hlength
    -- pairs of elements are the elements in one place
    have hpair {i : Nat} {x y : Item} (hx : (h.list r)[i]? = some x) (hy : (h.list s)[i]? = some y) :
        (x, y) ∈ (h.list r).zip (h.list s) :=
      List.mem_of_getElem? (List.getElem?_zip_eq_some.2 ⟨hx, hy⟩)
    rcases Bounds.allM_cases (fun (x, y) => f x y) ((h.list r).zip (h.list s)) with
      ⟨hall, -⟩ | ⟨hall, ⟨x, y⟩, hxy, hno⟩ | ⟨hall, hyes⟩ <;> rw [hall] at hrun <;> cases hrun
    · have hdiffer := hf x (List.of_mem_zip hxy).1 y false hno
      obtain ⟨i, hi⟩ := List.mem_iff_getElem?.1 hxy
      obtain ⟨hx, hy⟩ := List.getElem?_zip_eq_some.1 hi
      refine ⟨nofun, fun ⟨_, hinside⟩ => hdiffer.2 (hinside i x y hx hy)⟩
    · refine ⟨fun _ => ⟨hlength, fun i x y hx hy => ?_⟩, fun _ => rfl⟩
      exact (hf x (List.mem_of_getElem? hx) y true (hyes _ (hpair hx hy))).1 rfl
  · rename_i hlength
    cases hrun
    exact ⟨nofun, fun hsame => absurd hsame.1 hlength⟩

theorem elementwiseWithin_of_not_structs (h : Heap) (depth : Nat) (hab : ∀ r s, a = .struct r → b ≠ .struct s) :
    h.elementwiseWithin depth a b = some (a.sameAs b) := by
  cases depth <;> cases a <;> cases b <;> first | rfl | exact absurd rfl (hab _ _ rfl)

/-- Comparing element by element finds out whether items are the same. -/
theorem elementwiseWithin_answers (depth : Nat) :
    ∀ a b answer, h.elementwiseWithin depth a b = some answer → (answer = true ↔ h.Same a b) := by
  induction depth with
  | zero =>
    intro a b answer hrun
    by_cases hab : ∀ r s, a = .struct r → b ≠ .struct s
    · rw [elementwiseWithin_of_not_structs h 0 hab] at hrun
      cases hrun
      exact (same_iff_sameAs hab).symm
    · push Not at hab
      obtain ⟨r, s, rfl, rfl⟩ := hab
      cases hrun
  | succ depth ih =>
    intro a b answer hrun
    by_cases hab : ∀ r s, a = .struct r → b ≠ .struct s
    · rw [elementwiseWithin_of_not_structs h _ hab] at hrun
      cases hrun
      exact (same_iff_sameAs hab).symm
    · push Not at hab
      obtain ⟨r, s, rfl, rfl⟩ := hab
      exact struct_answers (fun x _ y found => ih x y found) hrun

/-- So does comparing with the shortcut, for a struct is the same as itself if nesting ends in it. -/
theorem equalWithin_answers (depth : Nat) : ∀ a b answer, (∀ ref, a = .struct ref → Acc h.Contains ref) →
    h.equalWithin depth a b = some answer → (answer = true ↔ h.Same a b) := by
  induction depth with
  | zero =>
    intro a b answer hacc hrun
    by_cases hab : ∀ r s, a = .struct r → b ≠ .struct s
    · rw [equalWithin_of_not_structs h 0 hab] at hrun
      cases hrun
      exact (same_iff_sameAs hab).symm
    · push Not at hab
      obtain ⟨r, s, rfl, rfl⟩ := hab
      rw [equalWithin_struct_zero] at hrun
      split at hrun <;> cases hrun
      rename_i hsame
      subst hsame
      exact ⟨fun _ => .refl hacc, fun _ => rfl⟩
  | succ depth ih =>
    intro a b answer hacc hrun
    by_cases hab : ∀ r s, a = .struct r → b ≠ .struct s
    · rw [equalWithin_of_not_structs h _ hab] at hrun
      cases hrun
      exact (same_iff_sameAs hab).symm
    · push Not at hab
      obtain ⟨r, s, rfl, rfl⟩ := hab
      rw [equalWithin_struct_succ] at hrun
      split at hrun
      · rename_i hsame
        subst hsame
        cases hrun
        exact ⟨fun _ => .refl hacc, fun _ => rfl⟩
      · refine struct_answers (fun x hx y found => ih x y found fun inner hinner => ?_) hrun
        subst hinner
        exact (hacc r rfl).inv hx

/-- Comparing element by element runs out of depth only along a path of more structs. -/
private theorem descends_of_elementwiseWithin (depth : Nat) : ∀ a b, h.elementwiseWithin depth a b = none →
    ∃ path, h.Descends path a ∧ depth < path.length := by
  induction depth with
  | zero =>
    intro a b hrun
    by_cases hab : ∀ r s, a = .struct r → b ≠ .struct s
    · rw [elementwiseWithin_of_not_structs h 0 hab] at hrun
      cases hrun
    · push Not at hab
      obtain ⟨r, s, rfl, rfl⟩ := hab
      exact ⟨[r], .here r, Nat.zero_lt_one⟩
  | succ depth ih =>
    intro a b hrun
    by_cases hab : ∀ r s, a = .struct r → b ≠ .struct s
    · rw [elementwiseWithin_of_not_structs h _ hab] at hrun
      cases hrun
    · push Not at hab
      obtain ⟨r, s, rfl, rfl⟩ := hab
      rw [elementwiseWithin] at hrun
      dsimp only at hrun
      split at hrun
      · obtain ⟨⟨x, y⟩, hmem, hnone⟩ := Bounds.allM_none hrun
        obtain ⟨path, hpath, hlong⟩ := ih x y hnone
        exact ⟨r :: path, .inside (List.of_mem_zip hmem).1 hpath, Nat.succ_lt_succ hlong⟩
      · cases hrun

/-! ### Where structs do not contain themselves -/

section Acyclic

variable (hresolves : h.Resolves items) (hacyclic : h.Acyclic items)
include hresolves hacyclic

private theorem acc_of_reaches (ha : h.Reaches items a) : ∀ ref, a = .struct ref → Acc h.Contains ref := by
  rintro ref rfl
  exact hacyclic.acc hresolves ⟨_, ha, rfl⟩

/-- Comparing ends, with the shortcut and without, and both find out whether the items are the same. -/
theorem equal_and_elementwise (ha : h.Reaches items a) (b : Item) :
    ∃ answer, h.equal a b = .ok answer ∧ h.elementwise a b = .ok answer ∧ (answer = true ↔ h.Same a b) := by
  have hgiven : (Bounds.loose True).HoldsGiven h items := Bounds.holdsGiven_loose hresolves fun _ => hacyclic
  have hheap := hgiven.holdsHeap trivial
  obtain ⟨answer, hequal⟩ := hheap.equal_ends trivial (hgiven.holds ha) b
  have hanswer : answer = true ↔ h.Same a b := by
    unfold Heap.equal at hequal
    split at hequal
    · rename_i found hfound
      cases hequal
      exact equalWithin_answers _ a b answer (acc_of_reaches hresolves hacyclic ha) hfound
    · cases hequal
  refine ⟨answer, hequal, ?_, hanswer⟩
  unfold Heap.elementwise
  cases hrun : h.elementwiseWithin (h.lists.size * h.lists.size) a b with
  | some found =>
    have hfound := elementwiseWithin_answers _ a b found hrun
    have hagree : found = answer := Bool.eq_iff_iff.2 (hfound.trans hanswer.symm)
    rw [hagree]
  | none =>
    obtain ⟨path, hpath, hlong⟩ := descends_of_elementwiseWithin _ a b hrun
    have hshort := hheap.length_le trivial hpath (hgiven.holds ha)
    have hsquare : h.lists.size ≤ h.lists.size * h.lists.size := Nat.le_mul_self _
    omega

theorem equal_iff_same (ha : h.Reaches items a) : h.equal a b = .ok true ↔ h.Same a b := by
  obtain ⟨answer, hequal, -, hanswer⟩ := equal_and_elementwise hresolves hacyclic ha b
  rw [hequal, Except.ok.injEq]
  exact hanswer

/-- Structs are equal if and only if their elements are, one by one, also if they are one collection. -/
theorem equal_struct_iff (hr : h.Reaches items (.struct r)) :
    h.equal (.struct r) (.struct s) = .ok true ↔
      List.Forall₂ (fun x y => h.equal x y = .ok true) (h.list r) (h.list s) := by
  have hinside {x y : Item} (hx : x ∈ h.list r) : h.equal x y = .ok true ↔ h.Same x y :=
    equal_iff_same hresolves hacyclic (.inside hr rfl hx)
  rw [equal_iff_same hresolves hacyclic hr, same_struct_iff, List.forall₂_iff_get]
  refine and_congr_right fun hlength => ⟨fun hsame i hi hi' => ?_, fun hequal i x y hx hy => ?_⟩
  · exact (hinside (List.get_mem _ _)).2 (hsame i _ _ (List.getElem?_eq_getElem hi) (List.getElem?_eq_getElem hi'))
  · obtain ⟨hi, rfl⟩ := List.getElem?_eq_some_iff.1 hx
    obtain ⟨hi', rfl⟩ := List.getElem?_eq_some_iff.1 hy
    exact (hinside (List.getElem_mem hi)).1 (hequal i hi hi')

/-- Where no struct contains itself through structs alone, comparing any two items ends, and is an equivalence.  It
keeps the categories of items apart; primitives are equal by encoding, arrays, maps and handles if they are the same,
and structs element by element.  Comparing a struct with itself like any other two structs gives the same answer. -/
theorem equal_equivalence :
    (∀ a b, h.Reaches items a → ∃ answer, h.equal a b = .ok answer ∧ h.elementwise a b = .ok answer) ∧
    Equivalence (fun a b : { item // h.Reaches items item } => h.equal a b = .ok true) ∧
    (∀ a b, h.Reaches items a → h.equal a b = .ok true → a.category = b.category) ∧
    (∀ a b x y, a.encoding? = some x → b.encoding? = some y → h.equal a b = .ok (x == y)) ∧
    (∀ r s, h.equal (.array r) (.array s) = .ok (r == s)) ∧
    (∀ r s, h.equal (.map r) (.map s) = .ok (r == s)) ∧
    (∀ x y, h.equal (.interface x) (.interface y) = .ok (x.same y)) ∧
    ∀ r s, h.Reaches items (.struct r) →
      (h.equal (.struct r) (.struct s) = .ok true ↔
        List.Forall₂ (fun x y => h.equal x y = .ok true) (h.list r) (h.list s)) := by
  have hiff {a b : Item} (ha : h.Reaches items a) : h.equal a b = .ok true ↔ h.Same a b :=
    equal_iff_same hresolves hacyclic ha
  have hother {a b : Item} (ha : ∀ ref, a ≠ .struct ref) : h.equal a b = .ok (a.sameAs b) := by
    rw [Heap.equal, equalWithin_of_not_structs h _ fun r _ hr => absurd hr (ha r)]
  refine ⟨fun a b ha => ?_, ⟨fun a => ?_, fun {a b} hab => ?_, fun {a b c} hab hbc => ?_⟩, fun a b ha hab => ?_,
    fun a b x y ha hb => ?_, fun r s => hother nofun, fun r s => hother nofun, fun x y => hother nofun,
    fun r s hr => equal_struct_iff hresolves hacyclic hr⟩
  · obtain ⟨answer, hequal, helementwise, -⟩ := equal_and_elementwise hresolves hacyclic ha b
    exact ⟨answer, hequal, helementwise⟩
  · exact (hiff a.2).2 (.refl (acc_of_reaches hresolves hacyclic a.2))
  · exact (hiff b.2).2 ((hiff a.2).1 hab).symm
  · exact (hiff a.2).2 (((hiff a.2).1 hab).trans ((hiff b.2).1 hbc))
  · exact ((hiff ha).1 hab).category_eq
  · have hstruct : ∀ ref, a ≠ .struct ref := by
      rintro ref rfl
      cases ha
    rw [hother hstruct]
    cases a <;> simp only [Item.sameAs, ha, hb] <;> cases ha

end Acyclic

/-- Structs with the integer 1 and the truth value, and structs of two of them. -/
def nested : Heap :=
  { lists := #[[.integer 1], [.boolean true], [.struct 0, .struct 0], [.struct 0, .struct 1]] }

/-- Two structs are equal of which the one has an element twice and the other has an equal one beside it. -/
theorem nested_equal :
    nested.Resolves [.struct 2, .struct 3] ∧ nested.Acyclic [.struct 2, .struct 3] ∧
      nested.equal (.struct 2) (.struct 3) = .ok true ∧ nested.equal (.struct 3) (.struct 2) = .ok true ∧
      nested.elementwise (.struct 2) (.struct 3) = .ok true := by
  have hresolves : nested.Resolves [.struct 2, .struct 3] := resolves_of_forall (by decide) (by decide)
  have hacyclic : nested.Acyclic [.struct 2, .struct 3] := by
    refine acyclic_of_rank (fun ref => ref) fun inner outer hinner => ?_
    match outer, hinner with
    | 0, hinner | 1, hinner => simp [Contains, list, nested] at hinner
    | 2, hinner | 3, hinner =>
      simp [Contains, list, nested] at hinner
      omega
    | outer + 4, hinner => simp [Contains, list, nested] at hinner
  obtain ⟨hends, hequivalence, -, hprimitive, -, -, -, hstruct⟩ := equal_equivalence hresolves hacyclic
  have hfirst : nested.Reaches [.struct 2, .struct 3] (.struct 2) := .root (by simp)
  have hsecond : nested.Reaches [.struct 2, .struct 3] (.struct 3) := .root (by simp)
  have hinner : nested.Reaches [.struct 2, .struct 3] (.struct 0) :=
    .inside hfirst rfl (show Item.struct 0 ∈ [Item.struct 0, .struct 0] by simp)
  have hself : nested.equal (.struct 0) (.struct 0) = .ok true := hequivalence.refl ⟨_, hinner⟩
  have hother : nested.equal (.struct 0) (.struct 1) = .ok true := by
    have hone : Bytes.ofInt 1 = [1] := by
      simp [Bytes.ofInt, Bytes.ofIntNonempty]
    exact (hstruct 0 1 hinner).2 (.cons (hprimitive _ _ [1] [1] (congrArg some hone) rfl) .nil)
  have hequal : nested.equal (.struct 2) (.struct 3) = .ok true :=
    (hstruct 2 3 hfirst).2 (.cons hself (.cons hother .nil))
  obtain ⟨answer, hanswer, helementwise⟩ := hends (.struct 2) (.struct 3) hfirst
  rw [hequal] at hanswer
  cases hanswer
  exact ⟨hresolves, hacyclic, hequal, hequivalence.symm (x := ⟨_, hfirst⟩) (y := ⟨_, hsecond⟩) hequal, helementwise⟩

end Heap
end LedgerVM
