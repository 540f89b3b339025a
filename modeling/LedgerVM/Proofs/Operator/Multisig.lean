import LedgerVM.Operator.Run
import LedgerVM.Proofs.Operator.Action
import Mathlib.Data.List.Forall2
import Mathlib.Data.List.NodupEquivFin

/-!
# Several signatures against an ordered list of keys

Every signature is given to the first key behind the last one used under which it is valid, and the check gives up
once fewer keys than signatures are left.  Neither is a loss: what is found is a matching in order if there is one at
all (`matchInOrder_iff_places`).

* `scanFrom`: the same scan by two indices, where a subtraction below zero gives nothing; it never does
  (`scanFrom_eq`).
* `Heap.Gives`: the two ways to give a list of byte strings on the stack, as a collection or by its length.
* `Operation.checkMultisigWith_matches`: what the operator answers, whichever way the keys and the signatures are
  given, and that it is refused for any other number of them.
-/

namespace LedgerVM

/-! ### Matching in order -/

section Matching

variable {valid : (signature key : Bytes) → Bool} {signatures keys : List Bytes}

/-- Each of the signatures is valid under the key at its place. -/
def ValidUnder (valid : (signature key : Bytes) → Bool) (signatures keys : List Bytes) : Prop :=
  List.Forall₂ (fun s k => valid s k = true) signatures keys

/-- The first signature may take the first key it is valid under: in any other matching that key is free, or the first
signature has it. -/
private theorem exists_valid_of_valid {s k : Bytes} {ss ks : List Bytes} (hvalid : valid s k = true) :
    (∃ chosen, chosen.Sublist (k :: ks) ∧ ValidUnder valid (s :: ss) chosen) ↔
      ∃ chosen, chosen.Sublist ks ∧ ValidUnder valid ss chosen := by
  constructor
  · rintro ⟨chosen, hsub, hall⟩
    obtain ⟨first, later, -, hlater, rfl⟩ := List.forall₂_cons_left_iff.1 hall
    exact ⟨later, hsub.tail, hlater⟩
  · rintro ⟨chosen, hsub, hall⟩
    exact ⟨k :: chosen, hsub.cons_cons k, .cons hvalid hall⟩

/-- A key the first signature is not valid under is of no use to any of them. -/
private theorem exists_valid_of_invalid {s k : Bytes} {ss ks : List Bytes} (hinvalid : ¬valid s k = true) :
    (∃ chosen, chosen.Sublist (k :: ks) ∧ ValidUnder valid (s :: ss) chosen) ↔
      ∃ chosen, chosen.Sublist ks ∧ ValidUnder valid (s :: ss) chosen := by
  constructor
  · rintro ⟨chosen, hsub, hall⟩
    obtain ⟨first, later, hfirst, -, rfl⟩ := List.forall₂_cons_left_iff.1 hall
    rcases List.sublist_cons_iff.1 hsub with hsub | ⟨_, heq, -⟩
    · exact ⟨_, hsub, hall⟩
    · cases heq
      exact absurd hfirst hinvalid
  · rintro ⟨chosen, hsub, hall⟩
    exact ⟨chosen, hsub.cons k, hall⟩

/-- The scan finds a matching in order if there is one. -/
theorem matchInOrder_iff_sublist :
    matchInOrder valid signatures keys = true ↔
      ∃ chosen, chosen.Sublist keys ∧ ValidUnder valid signatures chosen := by
  induction keys generalizing signatures with
  | nil => cases signatures <;> simp [matchInOrder, ValidUnder]
  | cons k ks ih =>
    cases signatures with
    | nil => simp [matchInOrder, ValidUnder]
    | cons s ss =>
      rw [matchInOrder]
      split
      · rename_i hvalid
        rw [exists_valid_of_valid hvalid]
        exact ih
      · rename_i hinvalid
        rw [exists_valid_of_invalid hinvalid]
        split
        · -- giving up is right, since a matching needs a key for every signature
          rename_i hfew
          refine iff_of_false Bool.false_ne_true ?_
          rintro ⟨chosen, hsub, hall⟩
          have hlong := hall.length_eq
          have hshort := hsub.length_le
          simp only [List.length_cons] at hlong
          omega
        · exact ih

/-- Keys chosen in order are the same as increasing places among the keys. -/
theorem exists_sublist_iff_places :
    (∃ chosen, chosen.Sublist keys ∧ ValidUnder valid signatures chosen) ↔
      ∃ place : Fin signatures.length → Fin keys.length, StrictMono place ∧
        ∀ i, valid signatures[i] keys[place i] = true := by
  constructor
  · rintro ⟨chosen, hsub, hall⟩
    obtain ⟨hlength, hvalid⟩ := List.forall₂_iff_get.1 hall
    obtain ⟨place, hplace⟩ := List.sublist_iff_exists_fin_orderEmbedding_get_eq.1 hsub
    refine ⟨fun i => place (i.cast hlength), fun i j hij => place.strictMono hij, fun i => ?_⟩
    have hkey : keys[place (i.cast hlength)] = chosen.get (i.cast hlength) := (hplace _).symm
    rw [hkey]
    exact hvalid i i.2 (hlength ▸ i.2)
  · rintro ⟨place, hmono, hvalid⟩
    refine ⟨List.ofFn fun i => keys[place i], ?_, ?_⟩
    · refine List.sublist_iff_exists_fin_orderEmbedding_get_eq.2
        ⟨OrderEmbedding.ofStrictMono (fun i => place (i.cast List.length_ofFn)) fun i j hij => hmono hij, ?_⟩
      intro i
      rw [List.get_eq_getElem, List.getElem_ofFn]
      rfl
    · refine List.forall₂_iff_get.2 ⟨List.length_ofFn.symm, fun i hi _ => ?_⟩
      simpa using hvalid ⟨i, hi⟩

/-- The scan finds increasing places of keys under which the signatures are valid if there are any. -/
theorem matchInOrder_iff_places :
    matchInOrder valid signatures keys = true ↔
      ∃ place : Fin signatures.length → Fin keys.length, StrictMono place ∧
        ∀ i, valid signatures[i] keys[place i] = true :=
  matchInOrder_iff_sublist.trans exists_sublist_iff_places

end Matching

/-! ### The scan by indices -/

/-- A difference, or nothing if it is below zero. -/
def difference? (a b : Nat) : Option Nat := if b ≤ a then some (a - b) else none

theorem difference?_of_le {a b : Nat} (h : b ≤ a) : difference? a b = some (a - b) := if_pos h

/-- The scan from signature `i` and key `j` on.  Nothing if one of its subtractions is below zero. -/
def scanFrom (valid : (signature key : Bytes) → Bool) (signatures keys : List Bytes) (i j : Nat) (success : Bool) :
    Option Bool :=
  if h : success = true ∧ i < signatures.length ∧ j < keys.length then do
    let next := if valid signatures[i] keys[j] then i + 1 else i
    let needed ← difference? signatures.length next
    let left ← difference? keys.length (j + 1)
    scanFrom valid signatures keys next (j + 1) (needed ≤ left)
  else some (success && i == signatures.length)
termination_by keys.length - j

section Scan

variable {valid : (signature key : Bytes) → Bool} {signatures keys : List Bytes} {i j : Nat}

theorem scanFrom_false (i j : Nat) : scanFrom valid signatures keys i j false = some false := by
  rw [scanFrom, dif_neg (by simp)]
  rfl

theorem scanFrom_length (j : Nat) : scanFrom valid signatures keys signatures.length j true = some true := by
  rw [scanFrom, dif_neg (by omega)]
  simp

/-- One turn of the scan subtracts no more than there is. -/
theorem scanFrom_turn (hi : i < signatures.length) (hj : j < keys.length) :
    scanFrom valid signatures keys i j true =
      if valid signatures[i] keys[j] then
        scanFrom valid signatures keys (i + 1) (j + 1) (signatures.length - (i + 1) ≤ keys.length - (j + 1))
      else scanFrom valid signatures keys i (j + 1) (signatures.length - i ≤ keys.length - (j + 1)) := by
  rw [scanFrom, dif_pos ⟨rfl, hi, hj⟩]
  dsimp only
  rw [difference?_of_le (Nat.succ_le_of_lt hj)]
  split
  · rw [difference?_of_le (Nat.succ_le_of_lt hi)]
    rfl
  · rw [difference?_of_le hi.le]
    rfl

/-- As long as there are keys enough, the scan by indices comes to its end and answers as the scan of the lists. -/
theorem scanFrom_eq (hi : i ≤ signatures.length) (hj : j ≤ keys.length)
    (henough : signatures.length - i ≤ keys.length - j) :
    scanFrom valid signatures keys i j true = some (matchInOrder valid (signatures.drop i) (keys.drop j)) := by
  induction hleft : keys.length - j generalizing i j with
  | zero =>
    have hdone : i = signatures.length := by omega
    rw [hdone, scanFrom_length, List.drop_length, matchInOrder]
  | succ left ih =>
    by_cases hdone : i = signatures.length
    · rw [hdone, scanFrom_length, List.drop_length, matchInOrder]
    · have hi : i < signatures.length := by omega
      have hj : j < keys.length := by omega
      rw [scanFrom_turn hi hj, List.drop_eq_getElem_cons hi, List.drop_eq_getElem_cons hj, matchInOrder]
      split
      · rw [decide_eq_true (by omega)]
        exact ih hi hj (by omega) (by omega)
      · simp only [List.length_drop]
        split
        · rw [decide_eq_false (by omega)]
          exact scanFrom_false _ _
        · rw [decide_eq_true (by omega), ← List.drop_eq_getElem_cons hi]
          exact ih hi.le hj (by omega) (by omega)

end Scan

/-! ### Lists of byte strings on the stack -/

/-- The items on the stack that give a list of byte strings: an array or a struct of them, or their number, which has to
fit an address, and then each of them from the top on. -/
inductive Heap.Gives (h : Heap) : List Item → List Bytes → Prop
  | array {ref : Nat} {bytes : List Bytes} (hbytes : (h.list ref).mapM Item.toBytes = .ok bytes) :
      Gives h [.array ref] bytes
  | struct {ref : Nat} {bytes : List Bytes} (hbytes : (h.list ref).mapM Item.toBytes = .ok bytes) :
      Gives h [.struct ref] bytes
  | counted {count : Item} {items : List Item} {bytes : List Bytes} (hcount : count.toInteger = .ok items.length)
      (hfits : items.length < addressSpace) (hbytes : items.mapM Item.toBytes = .ok bytes) :
      Gives h (count :: items) bytes

theorem index?_eq_some {value : Int} {n : Nat} : index? value = some n ↔ value = n ∧ n < addressSpace := by
  unfold index?
  split
  · rename_i hrange
    rw [Option.some.injEq]
    omega
  · rename_i hrange
    refine iff_of_false (Option.some_ne_none n).symm ?_
    rintro ⟨rfl, hn⟩
    exact hrange ⟨Int.natCast_nonneg n, by exact_mod_cast hn⟩

namespace Operation

variable {items rest : List Item} {bytes : List Bytes} {w v : Workbench}

theorem popByteList_list {item : Item} {ref : Nat} (hlist : item = .array ref ∨ item = .struct ref)
    (hstack : w.stack = item :: rest) :
    popByteList w = Action.ofExcept ((w.heap.list ref).mapM Item.toBytes) { w with stack := rest } := by
  rw [popByteList, Action.bind_apply, pop, hstack]
  rcases hlist with rfl | rfl <;> rfl

theorem popByteList_counted {count : Item} {n : Int} (hcount : count.toInteger = .ok n)
    (hstack : w.stack = count :: rest) :
    popByteList w =
      if (index? n).getD 0 = 0 ∨ rest.length < (index? n).getD 0 then
        .error (.refused .multisigItemCount) { w with stack := rest }
      else
        Action.ofExcept ((rest.take ((index? n).getD 0)).mapM Item.toBytes)
          { w with stack := rest.drop ((index? n).getD 0) } := by
  rw [popByteList, Action.bind_apply, pop, hstack]
  cases count with
  | array ref | struct ref | map ref | interface handle => cases hcount
  | boolean value | integer value | byteArray data =>
    dsimp only
    rw [Action.bind_apply, hcount]
    show (if _ then _ else _ : Operation (List Bytes)) { w with stack := rest } = _
    split
    · rename_i hrefused
      rw [if_pos (by simpa using hrefused)]
      rfl
    · rename_i hfound
      have hcheck : ¬((index? n).getD 0 = 0 ∨ rest.length < (index? n).getD 0) := by simpa using hfound
      rw [if_neg hcheck]
      show (popMany ((index? n).getD 0) >>= fun items => Action.ofExcept (items.mapM Item.toBytes))
        { w with stack := rest } = _
      rw [Action.bind_apply, popMany, if_pos (by dsimp only; omega)]

theorem popByteList_unfit {item : Item} {fault : Fault} (hlist : ∀ ref, item ≠ .array ref ∧ item ≠ .struct ref)
    (hitem : item.toInteger = .error fault) (hstack : w.stack = item :: rest) :
    popByteList w = .error fault { w with stack := rest } := by
  rw [popByteList, Action.bind_apply, pop, hstack]
  cases item with
  | array ref => exact absurd rfl (hlist ref).1
  | struct ref => exact absurd rfl (hlist ref).2
  | boolean value | integer value | byteArray data | map ref | interface handle =>
    dsimp only
    rw [Action.bind_apply, hitem]
    rfl

/-- The byte strings are taken as they were given.  Only none of them, given by their number, are refused. -/
theorem popByteList_of_gives (hgives : w.heap.Gives items bytes) (hstack : w.stack = items ++ rest) :
    popByteList w = .ok bytes { w with stack := rest } ∨
      bytes = [] ∧ popByteList w = .error (.refused .multisigItemCount) { w with stack := rest } := by
  cases hgives with
  | array hbytes =>
    rw [popByteList_list (.inl rfl) hstack, hbytes]
    exact .inl rfl
  | struct hbytes =>
    rw [popByteList_list (.inr rfl) hstack, hbytes]
    exact .inl rfl
  | @counted count items _ hcount hfits hbytes =>
    have hindex : index? items.length = some items.length := index?_eq_some.2 ⟨rfl, hfits⟩
    rw [List.cons_append] at hstack
    rw [popByteList_counted hcount hstack, hindex, Option.getD_some]
    cases items with
    | nil =>
      cases hbytes
      exact .inr ⟨rfl, if_pos (.inl rfl)⟩
    | cons item items =>
      rw [if_neg (by simp), List.take_left, List.drop_left, hbytes]
      exact .inl rfl

/-- Whenever byte strings are taken, the stack gave them. -/
theorem gives_of_popByteList (h : popByteList w = .ok bytes v) :
    ∃ items, w.stack = items ++ v.stack ∧ v.heap = w.heap ∧ w.heap.Gives items bytes := by
  cases hstack : w.stack with
  | nil =>
    rw [popByteList, Action.bind_apply, pop, hstack] at h
    cases h
  | cons item rest =>
    by_cases hlist : ∃ ref, item = .array ref ∨ item = .struct ref
    · obtain ⟨ref, hlist⟩ := hlist
      rw [popByteList_list hlist hstack] at h
      obtain ⟨hbytes, rfl⟩ := Action.ofExcept_eq_ok.1 h
      rcases hlist with rfl | rfl
      · exact ⟨_, rfl, rfl, .array hbytes⟩
      · exact ⟨_, rfl, rfl, .struct hbytes⟩
    · cases hcount : item.toInteger with
      | error fault =>
        have hneither : ∀ ref, item ≠ .array ref ∧ item ≠ .struct ref :=
          fun ref => ⟨fun h => hlist ⟨ref, .inl h⟩, fun h => hlist ⟨ref, .inr h⟩⟩
        rw [popByteList_unfit hneither hcount hstack] at h
        cases h
      | ok n =>
        rw [popByteList_counted hcount hstack] at h
        split at h
        · cases h
        · rename_i hfound
          obtain ⟨hbytes, hv⟩ := Action.ofExcept_eq_ok.1 h
          cases hn : index? n with
          | none =>
            rw [hn] at hfound
            exact absurd (.inl rfl) hfound
          | some k =>
            rw [hn, Option.getD_some] at hfound hbytes hv
            subst hv
            obtain ⟨rfl, hk⟩ := index?_eq_some.1 hn
            have hlength : (rest.take k).length = k := by
              rw [List.length_take]
              omega
            refine ⟨item :: rest.take k, by simp, rfl, .counted ?_ ?_ hbytes⟩
            · rw [hlength, hcount]
            · rw [hlength]
              exact hk

/-! ### The check -/

variable {valid : (message signature key : Bytes) → Bool} {tx : Transaction} {heap : Heap}
  {keyItems signatureItems : List Item} {keys signatures : List Bytes}

theorem checkMultisigWith_of_pops {w' : Workbench} (hkeys : popByteList w = .ok keys w')
    (hsignatures : popByteList w' = .ok signatures v) :
    checkMultisigWith valid (some tx) w =
      if 1 ≤ signatures.length ∧ signatures.length ≤ keys.length then
        .ok () { v with stack := .boolean (matchInOrder (valid tx.encode) signatures keys) :: v.stack }
      else .error (.refused .multisigCount) v := by
  rw [checkMultisigWith, Action.bind_of_ok hkeys, Action.bind_of_ok hsignatures]
  have hcount : (keys.isEmpty || signatures.isEmpty || keys.length < signatures.length) = true ↔
      ¬(1 ≤ signatures.length ∧ signatures.length ≤ keys.length) := by
    simp only [Bool.or_eq_true, List.isEmpty_iff_length_eq_zero, decide_eq_true_eq]
    omega
  split
  · rename_i hrefused
    rw [if_neg (hcount.1 hrefused)]
    rfl
  · rename_i hfound
    rw [if_pos (not_not.1 fun h => hfound (hcount.2 h))]
    rfl

/-- Let the stack give `n` keys and below them `m` signatures, each list in either way.  If `1 ≤ m ≤ n`, the scan comes
to its end without a subtraction below zero, and its answer is all that is left in their place: it is yes just if
there are increasing places of keys under which the signatures are valid.  Any other `n` and `m` are refused.  The
operator of the instruction set is that of `Signature.verify`. -/
theorem checkMultisigWith_matches (valid : (message signature key : Bytes) → Bool) (tx : Transaction) (rest : List Item)
    (hkeys : heap.Gives keyItems keys) (hsignatures : heap.Gives signatureItems signatures) :
    (1 ≤ signatures.length ∧ signatures.length ≤ keys.length →
      ∃ answer, scanFrom (valid tx.encode) signatures keys 0 0 true = some answer ∧
        checkMultisigWith valid (some tx) ⟨keyItems ++ (signatureItems ++ rest), heap⟩ =
          .ok () ⟨.boolean answer :: rest, heap⟩ ∧
        (answer = true ↔ ∃ place : Fin signatures.length → Fin keys.length, StrictMono place ∧
          ∀ i, valid tx.encode signatures[i] keys[place i] = true)) ∧
    (¬(1 ≤ signatures.length ∧ signatures.length ≤ keys.length) →
      ∃ refusal left, checkMultisigWith valid (some tx) ⟨keyItems ++ (signatureItems ++ rest), heap⟩ =
          .error (.refused refusal) left ∧
        (refusal = .multisigCount ∨ refusal = .multisigItemCount)) := by
  rcases popByteList_of_gives (w := ⟨keyItems ++ (signatureItems ++ rest), heap⟩) hkeys rfl with
    hpopKeys | ⟨rfl, hpopKeys⟩
  · rcases popByteList_of_gives (w := ⟨signatureItems ++ rest, heap⟩) hsignatures rfl with
      hpopSignatures | ⟨rfl, hpopSignatures⟩
    · have hcheck : checkMultisigWith valid (some tx) ⟨keyItems ++ (signatureItems ++ rest), heap⟩ = _ :=
        checkMultisigWith_of_pops hpopKeys hpopSignatures
      constructor
      · intro hcount
        rw [if_pos hcount] at hcheck
        refine ⟨_, ?_, hcheck, matchInOrder_iff_places⟩
        exact scanFrom_eq (Nat.zero_le _) (Nat.zero_le _) hcount.2
      · intro hcount
        rw [if_neg hcount] at hcheck
        exact ⟨_, _, hcheck, .inl rfl⟩
    · have hrefused : checkMultisigWith valid (some tx) ⟨keyItems ++ (signatureItems ++ rest), heap⟩ =
          .error (.refused .multisigItemCount) ⟨rest, heap⟩ :=
        (Action.bind_of_ok hpopKeys).trans (Action.bind_of_error hpopSignatures)
      exact ⟨fun hcount => absurd hcount.1 (by simp), fun _ => ⟨_, _, hrefused, .inr rfl⟩⟩
  · have hrefused : checkMultisigWith valid (some tx) ⟨keyItems ++ (signatureItems ++ rest), heap⟩ =
        .error (.refused .multisigItemCount) ⟨signatureItems ++ rest, heap⟩ :=
      Action.bind_of_error hpopKeys
    exact ⟨fun hcount => absurd (hcount.1.trans hcount.2) (by simp), fun _ => ⟨_, _, hrefused, .inr rfl⟩⟩

/-- The check succeeds only where the stack gives keys and signatures, and enough keys for them. -/
theorem gives_of_checkMultisigWith (h : checkMultisigWith valid (some tx) w = .ok () v) :
    ∃ keyItems signatureItems rest keys signatures, w.stack = keyItems ++ (signatureItems ++ rest) ∧
      w.heap.Gives keyItems keys ∧ w.heap.Gives signatureItems signatures ∧
      1 ≤ signatures.length ∧ signatures.length ≤ keys.length ∧
      v = ⟨.boolean (matchInOrder (valid tx.encode) signatures keys) :: rest, w.heap⟩ := by
  obtain ⟨keys, w', hkeys, hlater⟩ := Action.bind_eq_ok.1 h
  obtain ⟨signatures, u, hsignatures, -⟩ := Action.bind_eq_ok.1 hlater
  rw [checkMultisigWith_of_pops hkeys hsignatures] at h
  obtain ⟨keyItems, hstack, hheap, hgivesKeys⟩ := gives_of_popByteList hkeys
  obtain ⟨signatureItems, hstack', hheap', hgivesSignatures⟩ := gives_of_popByteList hsignatures
  split at h
  · rename_i hcount
    cases h
    rw [hheap] at hgivesSignatures hheap'
    refine ⟨keyItems, signatureItems, u.stack, keys, signatures, ?_, hgivesKeys, hgivesSignatures, hcount.1, hcount.2,
      by rw [hheap']⟩
    rw [hstack, hstack']
  · cases h

/-- Without a transaction there is nothing to check signatures of. -/
theorem transaction_of_checkMultisigWith {transaction : Option Transaction}
    (h : checkMultisigWith valid transaction w = .ok () v) : ∃ tx, transaction = some tx := by
  cases transaction with
  | some tx => exact ⟨tx, rfl⟩
  | none =>
    obtain ⟨keys, u, -, h⟩ := Action.bind_eq_ok.1 h
    obtain ⟨signatures, u', -, h⟩ := Action.bind_eq_ok.1 h
    split at h <;> cases h

/-- Three keys in an array, and two signatures behind their number, each valid under the key of the same bytes: the
first under the first key, the second under the third. -/
theorem checkMultisigWith_first_and_third :
    ∃ keyItems signatureItems keys signatures heap,
      Heap.Gives heap keyItems keys ∧ Heap.Gives heap signatureItems signatures ∧
      checkMultisigWith (fun _ signature key => signature == key)
        (some { hash := .zero 32, type := .invocation, version := 1, attributes := [], inputs := [], outputs := [],
                script := [0x51], gas := 0 })
        ⟨keyItems ++ (signatureItems ++ []), heap⟩ = .ok () ⟨[.boolean true], heap⟩ := by
  let heap : Heap := { lists := #[[.byteArray [1], .byteArray [2], .byteArray [3]]] }
  have hkeys : heap.Gives [.array 0] [[1], [2], [3]] := .array rfl
  have hsignatures : heap.Gives [.integer 2, .byteArray [1], .byteArray [3]] [[1], [3]] :=
    .counted rfl (by decide) rfl
  obtain ⟨answer, -, hcheck, hplaces⟩ :=
    (checkMultisigWith_matches (fun _ signature key => signature == key)
      { hash := .zero 32, type := .invocation, version := 1, attributes := [], inputs := [], outputs := [],
        script := [0x51], gas := 0 } [] hkeys hsignatures).1 (by decide)
  have hanswer : answer = true :=
    hplaces.2 ⟨fun i => if i = 0 then 0 else 2, by decide, by decide⟩
  rw [hanswer] at hcheck
  exact ⟨_, _, _, _, heap, hkeys, hsignatures, hcheck⟩

end Operation
end LedgerVM
