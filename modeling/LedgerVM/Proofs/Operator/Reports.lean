import LedgerVM.Proofs.Operator.Copies
import LedgerVM.Proofs.Operator.Multisig
import LedgerVM.Proofs.Operator.Quiet

/-!
# Operands that are out of range

Integers of any size serve as counts and indexes.  One that is refused is reported as a signed 64-bit number.  Every
report of an integer that fits is that integer, but what is reported of another hangs on where it was checked
(`IndexCheck.report_eq`): only some reports are the nearest number (`IndexCheck.report_eq_clampInt64_iff`), and the
others do not even have the sign of the integer (`IndexCheck.report_neg_iff`).

An operator reports the operand that it refuses and nothing else (`Operator.run_reports`).
-/

namespace LedgerVM

/-! ### The checks -/

/-- How an integer is checked that serves as a count or an index. -/
inductive IndexCheck where
  /-- It has to be a count, whatever is counted. -/
  | count
  /-- It has to be the place of one of the elements of a list. -/
  | element (length : Nat)
  /-- It is a count of bytes, and there have to be as many. -/
  | cut (length : Nat)
  /-- It is a count of transactions, and there has to be one behind them. -/
  | member (length : Nat)

/-- The signed 64-bit number with the lowest 64 bits of an integer that is a count. -/
theorem wrapInt64_toNat {v : Int} (hlow : 0 ≤ v) (hhigh : v < addressSpace) :
    wrapInt64 v.toNat = int64Or (v - addressSpace) v := by
  have hsize : UInt64.size = 2 ^ 64 := rfl
  unfold wrapInt64 int64Or minInt64 maxInt64
  unfold addressSpace at hhigh ⊢
  rw [Int.toNat_of_nonneg hlow, Int.bmod_def, hsize]
  split <;> split <;> omega

/-- An integer or what stands for it is the nearest signed 64-bit number if the integer fits or if the bound on its side
stands for it. -/
theorem int64Or_eq_clampInt64_iff {v substitute : Int} :
    int64Or substitute v = clampInt64 v ↔
      (v < minInt64 → substitute = minInt64) ∧ (maxInt64 < v → substitute = maxInt64) := by
  unfold int64Or clampInt64 minInt64 maxInt64
  split_ifs <;> omega

namespace IndexCheck

/-- The integer does not pass.  What is no count does not get as far as the last two checks. -/
def Refuses : IndexCheck → Int → Prop
  | count, v => v < 0 ∨ addressSpace ≤ v
  | element length, v => v < 0 ∨ length ≤ v
  | cut length, v => length < v ∧ v < addressSpace
  | member length, v => length ≤ v ∧ v < addressSpace

/-- The check is made of what was found to be a count. -/
def afterCount : IndexCheck → Bool
  | cut _ | member _ => true
  | count | element _ => false

/-- What is reported of an integer that does not pass. -/
def report : IndexCheck → Int → Int
  | count, v => int64Or minInt64 v
  | element _, v => int64Or maxInt64 v
  | cut _, v | member _, v => wrapInt64 v.toNat

/-- The length that is reported with it. -/
def length : IndexCheck → Nat
  | count => 0
  | element length | cut length | member length => length

/-- The item is an integer that does not pass, and this is the report of it. -/
def Reports (check : IndexCheck) (item : Item) (index : Int) (length : Nat) : Prop :=
  ∃ v, item.toInteger = .ok v ∧ check.Refuses v ∧ index = check.report v ∧ length = check.length

/-- What is reported in place of an integer that does not fit. -/
def substitute : IndexCheck → Int → Int
  | count, _ => minInt64
  | element _, _ => maxInt64
  | cut _, v | member _, v => v - addressSpace

variable {check : IndexCheck} {v : Int}

theorem report_eq (h : check.Refuses v) : check.report v = int64Or (check.substitute v) v := by
  cases check with
  | count | element length => rfl
  | cut length | member length =>
    obtain ⟨hlength, hcount⟩ := h
    exact wrapInt64_toNat (by omega) hcount

/-- An integer that fits is reported as it is. -/
theorem report_of_fits (h : check.Refuses v) (hlow : minInt64 ≤ v) (hhigh : v ≤ maxInt64) : check.report v = v :=
  (report_eq h).trans (if_pos ⟨hlow, hhigh⟩)

/-- What is reported is the nearest number, but for an integer below the range that was to be an element, and for one
above the range that was to be anything else. -/
theorem report_eq_clampInt64_iff (h : check.Refuses v) :
    check.report v = clampInt64 v ↔
      (v < minInt64 → check = .count) ∧ (maxInt64 < v → ∃ length, check = .element length) := by
  rw [report_eq h, int64Or_eq_clampInt64_iff]
  cases check with
  | count => simp [substitute, show minInt64 ≠ maxInt64 by decide]
  | element length => simp [substitute, show maxInt64 ≠ minInt64 by decide]
  | cut length | member length =>
    obtain ⟨hlength, hcount⟩ := h
    simp only [substitute, minInt64, maxInt64, addressSpace, reduceCtorEq, exists_false, imp_false] at hcount ⊢
    omega

/-- A report that is not the nearest number has the wrong sign. -/
theorem report_neg_iff (h : check.Refuses v) (hfar : check.report v ≠ clampInt64 v) :
    check.report v < 0 ↔ 0 ≤ v := by
  rw [report_eq h] at hfar ⊢
  cases check with
  | count | element length | cut length | member length =>
    simp only [Refuses, substitute, int64Or, clampInt64, minInt64, maxInt64, addressSpace] at h hfar ⊢
    split_ifs at hfar ⊢ <;> omega

/-- What is refused after it was found to be a count is one. -/
theorem count_passes (hcheck : check.afterCount = true) (h : check.Refuses v) : ¬count.Refuses v := by
  cases check with
  | cut length | member length =>
    unfold Refuses at h ⊢
    omega
  | count | element length => cases hcheck

/-- What is reported after it was found to be a count is the report of a natural number. -/
theorem Reports.exists_natCast {item : Item} {index : Int} {length : Nat} (hitem : check.Reports item index length)
    (hcheck : check.afterCount = true) :
    ∃ n : Nat, item.toInteger = .ok (n : Int) ∧ ¬count.Refuses n ∧ check.Refuses n ∧
      index = check.report n ∧ length = check.length := by
  obtain ⟨v, hv, hrefuses, hreport⟩ := hitem
  have hcount := count_passes hcheck hrefuses
  obtain ⟨n, rfl⟩ := Int.eq_ofNat_of_zero_le (a := v) (Int.not_lt.1 fun hneg => hcount (.inl hneg))
  exact ⟨n, hv, hcount, hrefuses, hreport⟩

end IndexCheck

/-! ### Operands of operators -/

/-- The operator takes an operand off the stack and checks it in this way. -/
inductive Operator.Checks (h : Heap) : Operator → List Item → Item → IndexCheck → Prop
  | top {op : Operator} {item : Item} {below : List Item} (hop : op.takesCount = true) :
      Checks h op (item :: below) item .count
  /-- Behind a count that passes comes the place where the bytes start. -/
  | start {count item : Item} {below : List Item} {v : Int} (hcount : count.toInteger = .ok v)
      (hpasses : ¬IndexCheck.count.Refuses v) : Checks h (.splice .substr) (count :: item :: below) item .count
  /-- Behind the count come the bytes of which as many are taken. -/
  | right {item whole : Item} {below : List Item} {bytes : Bytes} (hwhole : whole.toBytes = .ok bytes) :
      Checks h (.splice .right) (item :: whole :: below) item (.cut bytes.length)
  /-- Behind the key comes the list it belongs to. -/
  | element {op : CollectionOperator} {item target : Item} {below : List Item} {ref : Nat}
      (hop : op = .pickItem ∨ op = .remove) (htarget : target.toListRef = .ok ref) :
      Checks h (.collection op) (item :: target :: below) item (.element (h.list ref).length)
  /-- The value comes first, and is copied before its key is looked at. -/
  | stored {value copy item target : Item} {below : List Item} {ref : Nat} {k : Heap}
      (hcopy : h.duplicate value = .ok (copy, k)) (htarget : target.toListRef = .ok ref) :
      Checks h (.collection .setItem) (value :: item :: target :: below) item (.element (k.list ref).length)

theorem index?_eq_none {v : Int} : index? v = none ↔ IndexCheck.count.Refuses v := by
  unfold index? IndexCheck.Refuses
  split <;> simp only [reduceCtorEq, true_iff, false_iff] <;> omega

/-- An integer that is the place of no element is reported. -/
theorem elementIndex_eq_error {key : Item} {elements length : Nat} {index : Int} :
    elementIndex key elements = .error (.indexOutOfRange index length) ↔
      (IndexCheck.element elements).Reports key index length := by
  unfold elementIndex IndexCheck.Reports
  cases hkey : key.toInteger with
  | error fault =>
    constructor
    · intro h
      cases h
      exact absurd hkey (key.toInteger_silent index length)
    · rintro ⟨v, hv, -⟩
      cases hv
  | ok v =>
    dsimp only [bind, Except.bind]
    have hrefuses : (IndexCheck.element elements).Refuses v ↔ ¬(0 ≤ v ∧ v < elements) := by
      unfold IndexCheck.Refuses
      omega
    by_cases hin : 0 ≤ v ∧ v < elements
    · rw [if_pos hin]
      refine iff_of_false nofun ?_
      rintro ⟨_, hv, hout, -⟩
      cases hv
      exact hrefuses.1 hout hin
    · rw [if_neg hin]
      constructor
      · intro h
        cases h
        exact ⟨v, rfl, hrefuses.2 hin, rfl, rfl⟩
      · rintro ⟨_, hv, -, rfl, rfl⟩
        cases hv
        rfl

namespace Operation

open LedgerVM.Action LedgerVM.Action.Quiet

variable {α : Type} {w v : Workbench} {index : Int} {length n : Nat}

/-- A count is taken off the stack. -/
theorem popIndex_eq_ok :
    popIndex w = .ok n v ↔ ∃ item rest, w.stack = item :: rest ∧ item.toInteger = .ok (n : Int) ∧
      ¬IndexCheck.count.Refuses n ∧ v = { w with stack := rest } := by
  rw [← index?_eq_none]
  constructor
  · intro h
    obtain ⟨value, u, hpop, h⟩ := Action.bind_eq_ok.1 h
    obtain ⟨item, rest, hstack, hitem, rfl⟩ := popAs_eq_ok.1 hpop
    cases hvalue : index? value with
    | none =>
      rw [hvalue] at h
      cases h
    | some m =>
      rw [hvalue] at h
      cases h
      obtain ⟨rfl, -⟩ := index?_eq_some.1 hvalue
      exact ⟨item, rest, hstack, hitem, by simp [hvalue], rfl⟩
  · rintro ⟨item, rest, hstack, hitem, hpasses, rfl⟩
    obtain ⟨m, hm⟩ := Option.ne_none_iff_exists'.1 hpasses
    obtain rfl : n = m := Int.natCast_inj.1 (index?_eq_some.1 hm).1
    refine Action.bind_eq_ok.2 ⟨n, _, popAs_eq_ok.2 ⟨item, rest, hstack, hitem, rfl⟩, ?_⟩
    rw [hm]
    rfl

/-- An integer that is no count is reported. -/
theorem popIndex_reports :
    popIndex.Reports w index length ↔
      ∃ item rest, w.stack = item :: rest ∧ IndexCheck.count.Reports item index length := by
  constructor
  · intro h
    rcases reports_bind.1 h with h | ⟨v, u, hpop, h⟩
    · exact absurd h (popInteger_quiet w index length)
    · obtain ⟨item, rest, hstack, hitem, rfl⟩ := popAs_eq_ok.1 hpop
      obtain ⟨t, h⟩ := h
      cases hv : index? v with
      | none =>
        rw [hv] at h
        cases h
        exact ⟨item, rest, hstack, v, hitem, index?_eq_none.1 hv, rfl, rfl⟩
      | some m =>
        rw [hv] at h
        cases h
  · rintro ⟨item, rest, hstack, v, hitem, hrefused, rfl, rfl⟩
    refine reports_bind.2 (.inr ⟨v, _, popAs_eq_ok.2 ⟨item, rest, hstack, hitem, rfl⟩, { w with stack := rest }, ?_⟩)
    rw [index?_eq_none.2 hrefused]
    rfl

/-- A sequence that starts with a count reports an integer that is none, or what the rest of it reports. -/
theorem popIndex_bind_reports {f : Nat → Operation α} :
    (popIndex >>= f).Reports w index length ↔
      ∃ item rest, w.stack = item :: rest ∧ (IndexCheck.count.Reports item index length ∨
        ∃ n : Nat, item.toInteger = .ok (n : Int) ∧ ¬IndexCheck.count.Refuses n ∧
          (f n).Reports { w with stack := rest } index length) := by
  rw [reports_bind, popIndex_reports]
  constructor
  · rintro (⟨item, rest, hstack, hitem⟩ | ⟨n, u, hpop, hrun⟩)
    · exact ⟨item, rest, hstack, .inl hitem⟩
    · obtain ⟨item, rest, hstack, hitem, hpasses, rfl⟩ := popIndex_eq_ok.1 hpop
      exact ⟨item, rest, hstack, .inr ⟨n, hitem, hpasses, hrun⟩⟩
  · rintro ⟨item, rest, hstack, hitem | ⟨n, hitem, hpasses, hrun⟩⟩
    · exact .inl ⟨item, rest, hstack, hitem⟩
    · exact .inr ⟨n, _, popIndex_eq_ok.2 ⟨item, rest, hstack, hitem, hpasses, rfl⟩, hrun⟩

theorem pop_bind_reports {f : Item → Operation α} :
    (pop >>= f).Reports w index length ↔
      ∃ item rest, w.stack = item :: rest ∧ (f item).Reports { w with stack := rest } index length := by
  rw [reports_bind]
  constructor
  · rintro (h | ⟨item, u, hpop, h⟩)
    · exact absurd h (pop_quiet w index length)
    · obtain ⟨rest, hstack, rfl⟩ := pop_eq_ok.1 hpop
      exact ⟨item, rest, hstack, h⟩
  · rintro ⟨item, rest, hstack, h⟩
    exact .inr ⟨item, _, pop_eq_ok.2 ⟨rest, hstack, rfl⟩, h⟩

/-- Reading an operand reports nothing by itself. -/
theorem popAs_bind_reports {β : Type} {coerce : Item → Except Fault β} (hcoerce : ∀ item, Silent (coerce item))
    {f : β → Operation α} :
    (popAs coerce >>= f).Reports w index length ↔
      ∃ item rest x, w.stack = item :: rest ∧ coerce item = .ok x ∧
        (f x).Reports { w with stack := rest } index length := by
  rw [reports_bind]
  constructor
  · rintro (h | ⟨x, u, hpop, h⟩)
    · exact absurd h (Quiet.bind pop_quiet (fun item => Quiet.ofExcept (hcoerce item)) w index length)
    · obtain ⟨item, rest, hstack, hx, rfl⟩ := popAs_eq_ok.1 hpop
      exact ⟨item, rest, x, hstack, hx, h⟩
  · rintro ⟨item, rest, x, hstack, hx, h⟩
    exact .inr ⟨x, _, popAs_eq_ok.2 ⟨item, rest, hstack, hx, rfl⟩, h⟩

theorem duplicate_bind_reports {value : Item} {f : Item → Operation α} :
    (duplicate value >>= f).Reports w index length ↔
      ∃ copy k, w.heap.duplicate value = .ok (copy, k) ∧ (f copy).Reports { w with heap := k } index length := by
  rw [reports_bind]
  constructor
  · rintro (h | ⟨copy, u, hcopy, h⟩)
    · exact absurd h (duplicate_quiet value w index length)
    · obtain ⟨k, hk, rfl⟩ := duplicate_eq_ok hcopy
      exact ⟨copy, k, hk, h⟩
  · rintro ⟨copy, k, hk, h⟩
    refine .inr ⟨copy, { w with heap := k }, ?_, h⟩
    unfold duplicate
    rw [hk]

/-- An integer that is the place of no element is reported, if it is a list that is taken off the stack. -/
theorem popCollection_bind_reports {key : Item} {f : Collection → Operation α} {g : Nat → List Item → Nat → Operation α}
    (hlist : ∀ ref items, f (.list ref items) = ofExcept (elementIndex key items.length) >>= g ref items)
    (hg : ∀ ref items n, (g ref items n).Quiet) (hmap : ∀ ref entries, (f (.map ref entries)).Quiet) :
    (popCollection >>= f).Reports w index length ↔
      ∃ target rest ref, w.stack = target :: rest ∧ target.toListRef = .ok ref ∧
        (IndexCheck.element (w.heap.list ref).length).Reports key index length := by
  obtain ⟨stack, h⟩ := w
  have hreports (ref : Nat) (rest : List Item) : (f (.list ref (h.list ref))).Reports ⟨rest, h⟩ index length ↔
      (IndexCheck.element (h.list ref).length).Reports key index length := by
    rw [hlist, reports_bind_quiet (hg ref _), reports_ofExcept, elementIndex_eq_error]
  constructor
  · rintro ⟨t, hrun⟩
    cases stack with
    | nil => cases hrun
    | cons target rest =>
      refine ⟨target, rest, ?_⟩
      cases target with
      | array ref | struct ref => exact ⟨ref, rfl, rfl, (hreports ref rest).1 ⟨t, hrun⟩⟩
      | map ref => exact absurd ⟨t, hrun⟩ (hmap ref (h.map ref) ⟨rest, h⟩ index length)
      | _ => cases hrun
  · rintro ⟨target, rest, ref, hstack, htarget, hkey⟩
    obtain rfl : stack = target :: rest := hstack
    obtain ⟨t, hrun⟩ := (hreports ref rest).2 hkey
    exact ⟨t, by cases target <;> cases htarget <;> exact hrun⟩

end Operation

/-! ### Operators -/

open LedgerVM.Action LedgerVM.Action.Quiet Operation

variable {limits : Limits} {transaction : Option Transaction} {h : Heap} {stack : List Item} {item : Item}
  {check : IndexCheck} {index : Int} {length : Nat}

theorem Operator.Checks.indexes {op : Operator} (hchecks : op.Checks h stack item check) : op.indexes = true := by
  cases hchecks with
  | top hop => unfold Operator.indexes; split <;> first | rfl | exact hop
  | start | right | stored => rfl
  | element hop => rcases hop with rfl | rfl <;> rfl

/-- An operator that only takes a count reports what is on top of the stack. -/
theorem Operator.popIndex_reports_iff {op : Operator} (hop : op.takesCount = true) (hsubstr : op ≠ .splice .substr)
    (hright : op ≠ .splice .right) :
    popIndex.Reports ⟨stack, h⟩ index length ↔
      ∃ item check, op.Checks h stack item check ∧ check.Reports item index length := by
  rw [popIndex_reports]
  constructor
  · rintro ⟨item, below, hstack, hitem⟩
    obtain rfl : stack = item :: below := hstack
    exact ⟨item, .count, .top hop, hitem⟩
  · rintro ⟨item, check, hchecks, hitem⟩
    cases hchecks with
    | top => exact ⟨item, _, rfl, hitem⟩
    | start => exact absurd rfl hsubstr
    | right => exact absurd rfl hright
    | element hop' => rcases hop' with rfl | rfl <;> cases hop
    | stored => cases hop

theorem StackOperator.run_reports {op : StackOperator} (hop : (Operator.stack op).indexes = true) :
    op.run.Reports ⟨stack, h⟩ index length ↔
      ∃ item check, (Operator.stack op).Checks h stack item check ∧ check.Reports item index length := by
  rw [← Operator.popIndex_reports_iff hop nofun nofun]
  cases op with
  | xdrop => exact reports_bind_quiet fun n => bind (removeAt_quiet n) fun _ => pure _
  | xswap => exact reports_bind_quiet swapAt_quiet
  | xtuck =>
    refine reports_bind_quiet fun n => ?_
    exact check rfl (bind (peek_quiet 0) fun _ => bind (duplicate_quiet _) fun _ => insertAt_quiet n _)
  | pick => exact reports_bind_quiet fun n => bind (peek_quiet n) pushDuplicate_quiet
  | roll =>
    refine reports_bind_quiet fun n => ?_
    split
    · exact bind (removeAt_quiet n) push_quiet
    · exact pure _
  | depth | drop | dup | nip | copyOver | rot | swap | tuck => cases hop

/-- The first count is reported if it is refused, and the second if the first passes. -/
theorem SpliceOperator.substr_reports :
    (substr.run limits).Reports ⟨stack, h⟩ index length ↔
      ∃ item check, (Operator.splice substr).Checks h stack item check ∧ check.Reports item index length := by
  have hcut (n start : Nat) : (do .pushBytes (((← popBytes).drop start).take n) : Operation Unit).Quiet :=
    bind popBytes_quiet fun bytes => push_quiet _
  refine popIndex_bind_reports.trans ?_
  constructor
  · rintro ⟨item, rest, hstack, hitem | ⟨n, hitem, hpasses, hrun⟩⟩
    · obtain rfl : stack = item :: rest := hstack
      exact ⟨item, .count, .top rfl, hitem⟩
    · obtain ⟨start, below, hrest, hstart⟩ := popIndex_reports.1 ((reports_bind_quiet (hcut n)).1 hrun)
      obtain rfl : rest = start :: below := hrest
      obtain rfl : stack = item :: start :: below := hstack
      exact ⟨start, .count, .start hitem hpasses, hstart⟩
  · rintro ⟨item, check, hchecks, hitem⟩
    cases hchecks with
    | top => exact ⟨item, _, rfl, .inl hitem⟩
    | start hfirst hpasses =>
      obtain ⟨n, hn⟩ := Option.ne_none_iff_exists'.1 (mt index?_eq_none.1 hpasses)
      obtain ⟨rfl, -⟩ := index?_eq_some.1 hn
      refine ⟨_, _, rfl, .inr ⟨n, hfirst, hpasses, (reports_bind_quiet (hcut n)).2 ?_⟩⟩
      exact popIndex_reports.2 ⟨item, _, rfl, hitem⟩

/-- A count is reported if it is refused, and one that passes if there are not as many bytes. -/
theorem SpliceOperator.right_reports :
    (right.run limits).Reports ⟨stack, h⟩ index length ↔
      ∃ item check, (Operator.splice right).Checks h stack item check ∧ check.Reports item index length := by
  refine popIndex_bind_reports.trans ?_
  constructor
  · rintro ⟨item, rest, hstack, hitem | ⟨n, hitem, hpasses, hrun⟩⟩
    · obtain rfl : stack = item :: rest := hstack
      exact ⟨item, .count, .top rfl, hitem⟩
    · obtain ⟨whole, below, bytes, hrest, hwhole, hrun⟩ := (popAs_bind_reports Item.toBytes_silent).1 hrun
      obtain rfl : rest = whole :: below := hrest
      obtain rfl : stack = item :: whole :: below := hstack
      obtain ⟨hlong, hfault⟩ := (reports_throw_if (push_quiet _)).1 hrun
      obtain ⟨hindex, hlength⟩ := Fault.indexOutOfRange.inj hfault
      refine ⟨item, _, .right hwhole, n, hitem, ⟨by omega, ?_⟩, hindex.symm, hlength.symm⟩
      exact Int.not_le.1 fun hlarge => hpasses (.inr hlarge)
  · rintro ⟨item, check, hchecks, hitem⟩
    cases hchecks with
    | top => exact ⟨item, _, rfl, .inl hitem⟩
    | right hwhole =>
      obtain ⟨n, hn, hpasses, ⟨hlong, -⟩, hindex, hlength⟩ := hitem.exists_natCast rfl
      refine ⟨item, _, rfl, .inr ⟨n, hn, hpasses, (popAs_bind_reports Item.toBytes_silent).2 ?_⟩⟩
      refine ⟨_, _, _, rfl, hwhole, (reports_throw_if (push_quiet _)).2 ⟨by omega, ?_⟩⟩
      rw [hindex, hlength]
      rfl

theorem SpliceOperator.run_reports {op : SpliceOperator} (hop : (Operator.splice op).indexes = true) :
    (op.run limits).Reports ⟨stack, h⟩ index length ↔
      ∃ item check, (Operator.splice op).Checks h stack item check ∧ check.Reports item index length := by
  cases op with
  | substr => exact substr_reports
  | right => exact right_reports
  | left =>
    rw [← Operator.popIndex_reports_iff (show (Operator.splice left).takesCount = true from rfl) nofun nofun]
    exact reports_bind_quiet fun _ => bind popBytes_quiet fun _ => push_quiet _
  | cat | size => cases hop

/-- A key that is to be the place of an element is taken first, and then the list it belongs to. -/
theorem CollectionOperator.popCollection_reports_iff {op : CollectionOperator} (hop : op = .pickItem ∨ op = .remove) :
    (∃ item rest, stack = item :: rest ∧ ∃ target below ref, rest = target :: below ∧ target.toListRef = .ok ref ∧
        (IndexCheck.element (h.list ref).length).Reports item index length) ↔
      ∃ item check, (Operator.collection op).Checks h stack item check ∧ check.Reports item index length := by
  constructor
  · rintro ⟨item, _, rfl, target, below, ref, rfl, htarget, hitem⟩
    exact ⟨item, _, .element hop htarget, hitem⟩
  · rintro ⟨item, check, hchecks, hitem⟩
    cases hchecks with
    | top htop => rcases hop with rfl | rfl <;> cases htop
    | element _ htarget => exact ⟨item, _, rfl, _, _, _, rfl, htarget, hitem⟩
    | stored => rcases hop with hop | hop <;> cases hop

/-- The copy of the value comes first, then the key, and then the list it belongs to. -/
theorem CollectionOperator.setItem_reports :
    (setItem.run limits).Reports ⟨stack, h⟩ index length ↔
      ∃ item check, (Operator.collection setItem).Checks h stack item check ∧ check.Reports item index length := by
  have hrest : ∃ f : Item → Operation Unit, setItem.run limits = (do f (← duplicate (← pop))) ∧
      ∀ copy w, (f copy).Reports w index length ↔
        ∃ item rest, w.stack = item :: rest ∧ ∃ target below ref, rest = target :: below ∧
          target.toListRef = .ok ref ∧ (IndexCheck.element (w.heap.list ref).length).Reports item index length := by
    refine ⟨_, rfl, fun copy w => pop_bind_reports.trans ?_⟩
    refine exists_congr fun key => exists_congr fun rest => and_congr_right fun _ => ?_
    refine popCollection_bind_reports (fun ref items => rfl) (fun ref items n => modifyHeap_quiet _) fun ref entries => ?_
    exact bind (ofExcept (MapKey.ofItem_silent key)) fun k => check rfl (modifyHeap_quiet _)
  obtain ⟨f, hrun, hf⟩ := hrest
  rw [hrun, pop_bind_reports]
  simp only [duplicate_bind_reports, hf]
  constructor
  · rintro ⟨value, _, rfl, copy, k, hcopy, item, _, rfl, target, below, ref, rfl, htarget, hitem⟩
    exact ⟨item, _, .stored hcopy htarget, hitem⟩
  · rintro ⟨item, check, hchecks, hitem⟩
    cases hchecks with
    | top hop => cases hop
    | element hop => rcases hop with hop | hop <;> cases hop
    | stored hcopy htarget =>
      exact ⟨_, _, rfl, _, _, hcopy, item, _, rfl, _, _, _, rfl, htarget, hitem⟩

theorem CollectionOperator.run_reports {op : CollectionOperator} (hop : (Operator.collection op).indexes = true) :
    (op.run limits).Reports ⟨stack, h⟩ index length ↔
      ∃ item check, (Operator.collection op).Checks h stack item check ∧ check.Reports item index length := by
  cases op with
  | pack =>
    rw [← Operator.popIndex_reports_iff (show (Operator.collection pack).takesCount = true from rfl) nofun nofun]
    refine reports_bind_quiet fun n => ?_
    exact check rfl (bind (popMany_quiet n) pushArray_quiet)
  | pickItem =>
    rw [← popCollection_reports_iff (.inl rfl)]
    refine pop_bind_reports.trans (exists_congr fun key => exists_congr fun rest => and_congr_right fun _ => ?_)
    refine popCollection_bind_reports (fun ref items => rfl) (fun ref items n => push_quiet _) fun ref entries => ?_
    refine bind (ofExcept (MapKey.ofItem_silent key)) fun k => ?_
    split
    · exact push_quiet _
    · exact throw rfl
  | remove =>
    rw [← popCollection_reports_iff (.inr rfl)]
    refine pop_bind_reports.trans (exists_congr fun key => exists_congr fun rest => and_congr_right fun _ => ?_)
    refine popCollection_bind_reports (fun ref items => rfl) (fun ref items n => modifyHeap_quiet _) fun ref entries => ?_
    exact bind (ofExcept (MapKey.ofItem_silent key)) fun k => modifyHeap_quiet _
  | setItem => exact setItem_reports
  | arraySize | unpack | newArray | newStruct | newMap | append | reverse | hasKey | keys | values => cases hop

/-- An operator reports the operand that it refuses, and nothing else. -/
theorem Operator.run_reports (op : Operator) :
    (op.run limits transaction).Reports ⟨stack, h⟩ index length ↔
      ∃ item check, op.Checks h stack item check ∧ check.Reports item index length := by
  cases hop : op.indexes with
  | false =>
    refine iff_of_false (Operator.run_quiet hop _ _ _) ?_
    rintro ⟨item, check, hchecks, -⟩
    exact Bool.false_ne_true (hop.symm.trans hchecks.indexes)
  | true =>
    cases op with
    | stack op => exact StackOperator.run_reports hop
    | splice op => exact SpliceOperator.run_reports hop
    | collection op => exact CollectionOperator.run_reports hop
    | _ => cases hop

end LedgerVM
