import LedgerVM.Bytes.Reader
import Mathlib.Algebra.GroupWithZero.Nat

/-!
# Readers take what writers write

A reader that belongs to a writer gives a value just where the bytes begin with what the writer makes of it, and leaves
what follows (`Reader.Reads`).  So it accepts nothing else, and no value is written in front of another one's bytes.
Readers of numbers, digests, byte strings and lists are of this kind; `Reader.bind_eq_some` puts them together to
readers of records.
-/

namespace LedgerVM

namespace Reader

variable {α β : Type}

/-- The reader gives a value if and only if it is of the kind and the bytes begin with what is written for it, and it
leaves the bytes that follow. -/
def Reads (r : Reader α) (write : α → Bytes) (kind : α → Prop) : Prop :=
  ∀ ⦃bs a rest⦄, r bs = some (a, rest) ↔ kind a ∧ bs = write a ++ rest

theorem bind_eq_some {r : Reader α} {f : α → Reader β} {bs rest : Bytes} {b : β} :
    (r >>= f) bs = some (b, rest) ↔ ∃ a middle, r bs = some (a, middle) ∧ f a middle = some (b, rest) := by
  show ((r bs).bind fun found => f found.1 found.2) = some (b, rest) ↔ _
  rw [Option.bind_eq_some_iff]
  exact ⟨fun ⟨(a, middle), ha, hb⟩ => ⟨a, middle, ha, hb⟩, fun ⟨a, middle, ha, hb⟩ => ⟨(a, middle), ha, hb⟩⟩

theorem pure_eq_some {a b : α} {bs rest : Bytes} : (pure a : Reader α) bs = some (b, rest) ↔ a = b ∧ bs = rest := by
  show some (a, bs) = some (b, rest) ↔ _
  rw [Option.some.injEq, Prod.mk.injEq]

/-- In front of other readers, a reader takes what was written for it. -/
theorem Reads.bind_apply {r : Reader α} {write : α → Bytes} {kind : α → Prop} (hr : r.Reads write kind) {a : α}
    (ha : kind a) (f : α → Reader β) (rest : Bytes) : (r >>= f) (write a ++ rest) = f a rest := by
  show ((r (write a ++ rest)).bind fun found => f found.1 found.2) = f a rest
  rw [hr.2 ⟨ha, rfl⟩]
  rfl

theorem bytes_reads (n : Nat) : (bytes n).Reads id (·.length = n) := by
  intro bs a rest
  unfold bytes
  split
  · rename_i hle
    rw [List.splitAt_eq, Option.some.injEq, Prod.mk.injEq]
    constructor
    · rintro ⟨rfl, rfl⟩
      exact ⟨List.length_take_of_le hle, (List.take_append_drop n bs).symm⟩
    · rintro ⟨rfl, rfl⟩
      exact ⟨List.take_left, List.drop_left⟩
  · rename_i hshort
    constructor
    · nofun
    · rintro ⟨rfl, rfl⟩
      exact absurd (by simp) hshort

theorem byte_reads : byte.Reads ([·]) fun _ => True := by
  intro bs a rest
  cases bs with
  | nil => simp [byte]
  | cons b bs => simp [byte]

theorem nat_reads (w : Nat) : (nat w).Reads (Bytes.ofNat w) (· < Bytes.capacity w) := by
  intro bs n rest
  rw [nat, bind_eq_some]
  constructor
  · rintro ⟨digits, middle, hdigits, hn⟩
    obtain ⟨rfl, rfl⟩ := (bytes_reads w).1 hdigits
    obtain ⟨rfl, rfl⟩ := pure_eq_some.1 hn
    exact ⟨Bytes.toNat_lt digits, by rw [Bytes.ofNat_toNat, id]⟩
  · rintro ⟨hlt, rfl⟩
    refine ⟨Bytes.ofNat w n, rest, (bytes_reads w).2 ⟨Bytes.length_ofNat w n, rfl⟩, pure_eq_some.2 ⟨?_, rfl⟩⟩
    rw [Bytes.toNat_ofNat, Nat.mod_eq_of_lt hlt]

theorem int64_reads : int64.Reads Bytes.ofInt64 fun _ => True := by
  intro bs i rest
  rw [int64, bind_eq_some]
  constructor
  · rintro ⟨n, middle, hn, hi⟩
    obtain ⟨hlt, rfl⟩ := (nat_reads 8).1 hn
    obtain ⟨rfl, rfl⟩ := pure_eq_some.1 hi
    refine ⟨trivial, ?_⟩
    rw [Bytes.ofInt64, UInt64.toUInt64_toInt64, UInt64.toNat_ofNat_of_lt' hlt]
  · rintro ⟨-, rfl⟩
    refine ⟨i.toUInt64.toNat, rest, (nat_reads 8).2 ⟨i.toUInt64.toNat_lt, rfl⟩, pure_eq_some.2 ⟨?_, rfl⟩⟩
    rw [UInt64.ofNat_toNat, Int64.toInt64_toUInt64]

theorem digest_reads (n : Nat) : (digest n).Reads Digest.bytes fun _ => True := by
  intro bs d rest
  rw [digest, bind_eq_some]
  constructor
  · rintro ⟨found, middle, hfound, hd⟩
    obtain ⟨hlength, rfl⟩ := (bytes_reads n).1 hfound
    rw [Digest.ofBytes?, dif_pos hlength] at hd
    obtain ⟨rfl, rfl⟩ := pure_eq_some.1 hd
    exact ⟨trivial, rfl⟩
  · rintro ⟨-, rfl⟩
    refine ⟨d.bytes, rest, (bytes_reads n).2 ⟨d.length_bytes, rfl⟩, ?_⟩
    rw [Digest.ofBytes?_bytes]
    exact pure_eq_some.2 ⟨rfl, rfl⟩

theorem sized_reads : sized.Reads Bytes.ofSized (·.length < 2 ^ 32) := by
  intro bs data rest
  rw [sized, bind_eq_some]
  constructor
  · rintro ⟨n, middle, hn, hdata⟩
    obtain ⟨hlt, rfl⟩ := (nat_reads 4).1 hn
    obtain ⟨rfl, rfl⟩ := (bytes_reads n).1 hdata
    exact ⟨hlt, (List.append_assoc _ _ _).symm⟩
  · rintro ⟨hlt, rfl⟩
    exact ⟨data.length, data ++ rest, (nat_reads 4).2 ⟨hlt, List.append_assoc _ _ _⟩, (bytes_reads _).2 ⟨rfl, rfl⟩⟩

section Lists

variable {r : Reader α} {write : α → Bytes} {kind : α → Prop}

theorem times_reads (hr : r.Reads write kind) (n : Nat) :
    (times r n).Reads (·.flatMap write) fun xs => xs.length = n ∧ ∀ x ∈ xs, kind x := by
  intro bs xs rest
  induction n generalizing bs xs with
  | zero =>
    rw [times, pure_eq_some]
    constructor
    · rintro ⟨rfl, rfl⟩
      exact ⟨⟨rfl, nofun⟩, rfl⟩
    · rintro ⟨⟨hnone, -⟩, rfl⟩
      obtain rfl := List.length_eq_zero_iff.1 hnone
      exact ⟨rfl, rfl⟩
  | succ n ih =>
    simp only [times, bind_eq_some, pure_eq_some]
    constructor
    · rintro ⟨x, middle, hx, ys, last, hys, rfl, rfl⟩
      obtain ⟨hkind, rfl⟩ := hr.1 hx
      obtain ⟨⟨rfl, hall⟩, rfl⟩ := ih.1 hys
      exact ⟨⟨rfl, List.forall_mem_cons.2 ⟨hkind, hall⟩⟩, by simp⟩
    · rintro ⟨⟨hlength, hall⟩, rfl⟩
      obtain ⟨x, ys, rfl⟩ := List.exists_cons_of_length_eq_add_one hlength
      obtain ⟨hkind, hall⟩ := List.forall_mem_cons.1 hall
      refine ⟨x, ys.flatMap write ++ rest, hr.2 ⟨hkind, by simp⟩, ys, rest, ?_, rfl, rfl⟩
      exact ih.2 ⟨⟨Nat.succ.inj hlength, hall⟩, rfl⟩

theorem list_reads (hr : r.Reads write kind) :
    (list r).Reads (Bytes.ofList write) fun xs => xs.length < 2 ^ 32 ∧ ∀ x ∈ xs, kind x := by
  intro bs xs rest
  rw [list, bind_eq_some]
  constructor
  · rintro ⟨n, middle, hn, hxs⟩
    obtain ⟨hlt, rfl⟩ := (nat_reads 4).1 hn
    obtain ⟨⟨rfl, hall⟩, rfl⟩ := (times_reads hr n).1 hxs
    exact ⟨⟨hlt, hall⟩, (List.append_assoc _ _ _).symm⟩
  · rintro ⟨⟨hlt, hall⟩, rfl⟩
    exact ⟨xs.length, xs.flatMap write ++ rest, (nat_reads 4).2 ⟨hlt, List.append_assoc _ _ _⟩,
      (times_reads hr _).2 ⟨⟨rfl, hall⟩, rfl⟩⟩

end Lists

end Reader
end LedgerVM
