import LedgerVM.Proofs.Script.Locality
import Mathlib.Algebra.GroupWithZero.Nat

/-!
# Listings tile the script

The lines of a listing stand one behind the other without gaps (`Tiles`), each with at least one byte, so that there
are no more of them than bytes and the fuel of a listing is never used up.  A listing ends with the return behind the
last byte, or where nothing can be read.

* `Tiles.line`: where a line stands, and that it is what is read there.
* `exists_tiles`: from every position lines tile the script up to its end or to where nothing can be read.
* `listing_of_end`, `listing_of_fault`: the listing is made of these lines.
-/

namespace LedgerVM

/-- The lines are what is read off the script from a position on, each behind the one before it, and the last of them
ends where they stop. -/
inductive Tiles (script : Bytes) : (start : Nat) → List ListingLine → (stop : Nat) → Prop
  | nil (start : Nat) : Tiles script start [] start
  | cons {start size stop : Nat} {instruction : Instruction} {lines : List ListingLine} (hlt : start < script.length)
      (h : decode script start = .ok (instruction, size)) (hrest : Tiles script (start + size) lines stop) :
      Tiles script start ({ position := start, size, instruction } :: lines) stop

/-- The return behind the last byte. -/
def returnLine (script : Bytes) : ListingLine := { position := script.length, size := 0, instruction := .ret }

theorem decode_length (script : Bytes) : decode script script.length = .ok (.ret, 0) := by
  unfold decode
  rw [List.drop_length]

namespace Tiles

variable {script : Bytes} {start stop : Nat} {lines : List ListingLine}

theorem stop_eq (h : Tiles script start lines stop) : stop = start + (lines.map (·.size)).sum := by
  induction h with
  | nil => rfl
  | cons _ _ _ ih => rw [ih, List.map_cons, List.sum_cons, Nat.add_assoc]

/-- Every line has at least one byte. -/
theorem add_length_le (h : Tiles script start lines stop) : start + lines.length ≤ stop := by
  induction h with
  | nil => exact Nat.le_refl _
  | cons hlt hdecode _ ih =>
    have hsize := (decode_inside hlt hdecode).1
    rw [List.length_cons]
    omega

/-- A line stands behind all lines before it, and is what is read there. -/
theorem line (h : Tiles script start lines stop) {k : Nat} {line : ListingLine} (hk : lines[k]? = some line) :
    line.position = start + ((lines.take k).map (·.size)).sum ∧ line.position < script.length ∧
      decode script line.position = .ok (line.instruction, line.size) := by
  induction h generalizing k with
  | nil => cases hk
  | cons hlt hdecode _ ih =>
    cases k with
    | zero =>
      cases hk
      exact ⟨rfl, hlt, hdecode⟩
    | succ k =>
      obtain ⟨hposition, hinside, hread⟩ := ih hk
      refine ⟨?_, hinside, hread⟩
      rw [hposition, List.take_succ_cons, List.map_cons, List.sum_cons, Nat.add_assoc]

/-- A listing goes through the lines and on from where they stop. -/
theorem listingWithin_eq (h : Tiles script start lines stop) (fuel : Nat) (before : List ListingLine) :
    listingWithin script (lines.length + fuel) start before =
      listingWithin script fuel stop (lines.reverse ++ before) := by
  induction h generalizing before with
  | nil => rw [List.length_nil, Nat.zero_add, List.reverse_nil, List.nil_append]
  | @cons start size _ instruction lines hlt hdecode _ ih =>
    have hsize : size ≠ 0 := Nat.ne_of_gt (decode_inside hlt hdecode).1
    rw [List.length_cons, Nat.add_right_comm, listingWithin, hdecode]
    simp only [hsize, if_false]
    rw [ih, List.reverse_cons, List.append_assoc, List.singleton_append]

/-- What is left of the fuel of a listing where the lines stop. -/
theorem fuel_eq (h : Tiles script start lines stop) (hstop : stop ≤ script.length) :
    ∃ fuel, script.length + 1 = lines.length + (fuel + 1) := by
  have hlength := h.add_length_le
  exact ⟨script.length - lines.length, by omega⟩

/-- Where the lines reach the end of the script, the listing is made of them and the return. -/
theorem listing_of_end (h : Tiles script start lines script.length) :
    listing script start = (lines ++ [returnLine script], none) := by
  obtain ⟨fuel, hfuel⟩ := h.fuel_eq (Nat.le_refl _)
  rw [listing, hfuel, h.listingWithin_eq, listingWithin, decode_length]
  simp [returnLine]

/-- Where nothing can be read behind the lines, the listing is made of them and the fault. -/
theorem listing_of_fault (h : Tiles script start lines stop) (hstop : stop ≤ script.length) {fault : Fault}
    (hfault : decode script stop = .error fault) : listing script start = (lines, some fault) := by
  obtain ⟨fuel, hfuel⟩ := h.fuel_eq hstop
  rw [listing, hfuel, h.listingWithin_eq, listingWithin, hfault]
  simp

end Tiles

/-- From every position of a script lines tile it up to its end, or up to where nothing can be read. -/
theorem exists_tiles (script : Bytes) {start : Nat} (hstart : start ≤ script.length) :
    ∃ lines stop, Tiles script start lines stop ∧
      (stop = script.length ∨ stop < script.length ∧ ∃ fault, decode script stop = .error fault) := by
  -- by induction on what is left of the script, of which every instruction takes a part
  induction hleft : script.length - start using Nat.strongRecOn generalizing start with
  | _ left ih =>
    rcases Nat.eq_or_lt_of_le hstart with rfl | hlt
    · exact ⟨[], _, .nil _, .inl rfl⟩
    · cases hdecode : decode script start with
      | error fault => exact ⟨[], start, .nil start, .inr ⟨hlt, fault, hdecode⟩⟩
      | ok found =>
        obtain ⟨instruction, size⟩ := found
        obtain ⟨hsize, hinside⟩ := decode_inside hlt hdecode
        obtain ⟨lines, stop, htiles, hstop⟩ := ih (script.length - (start + size)) (by omega) hinside rfl
        exact ⟨_, stop, .cons hlt hdecode htiles, hstop⟩

end LedgerVM
