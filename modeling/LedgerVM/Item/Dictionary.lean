import LedgerVM.Item.Basic

/-!
# Dictionaries

The entries of a map in order of insertion.  Keys are the same if their encodings are, so that the
integer 1, true and the byte 1 address one entry.

* `Dictionary.insert`: overwriting keeps the entry's place and the key it was first written under.
* `Dictionary.erase`: the entries behind an erased one move up.
-/

namespace LedgerVM

/-- The entries of a map, first inserted first. -/
abbrev Dictionary := List (MapKey × Item)

namespace Dictionary

/-- The value under a key. -/
def find? (d : Dictionary) (key : MapKey) : Option Item :=
  (List.find? (fun entry => entry.1.encoding == key.encoding) d).map Prod.snd

/-- There is an entry under the key. -/
def contains (d : Dictionary) (key : MapKey) : Bool :=
  d.any fun entry => entry.1.encoding == key.encoding

/-- Sets the value under a key, in place if there is an entry and behind all entries if not. -/
def insert : Dictionary → MapKey → Item → Dictionary
  | [], key, value => [(key, value)]
  | (k, v) :: rest, key, value =>
    if k.encoding == key.encoding then (k, value) :: rest else (k, v) :: insert rest key value

/-- Removes the entry under a key, if there is one. -/
def erase (d : Dictionary) (key : MapKey) : Dictionary :=
  d.eraseP fun entry => entry.1.encoding == key.encoding

/-- The key items, in order. -/
def keys (d : Dictionary) : List Item := d.map fun entry => entry.1.item

/-- The values, in order. -/
def values (d : Dictionary) : List Item := d.map Prod.snd

/-- Each key item before its value, in order. -/
def items (d : Dictionary) : List Item := d.flatMap fun entry => [entry.1.item, entry.2]

@[simp] theorem find?_nil (key : MapKey) : find? [] key = none := rfl

theorem find?_cons (entry : MapKey × Item) (d : Dictionary) (key : MapKey) :
    find? (entry :: d) key =
      if entry.1.encoding = key.encoding then some entry.2 else find? d key := by
  by_cases h : entry.1.encoding = key.encoding <;> simp [find?, h]

theorem contains_eq_isSome_find? (d : Dictionary) (key : MapKey) :
    d.contains key = (d.find? key).isSome := by
  induction d with
  | nil => rfl
  | cons entry d ih =>
    rw [find?_cons]
    by_cases h : entry.1.encoding = key.encoding
    · simp [contains, h]
    · rw [if_neg h, ← ih]
      simp [contains, h]

/-- A key sees the value last set under its encoding. -/
theorem find?_insert (d : Dictionary) (key other : MapKey) (value : Item) :
    (d.insert key value).find? other =
      if key.encoding = other.encoding then some value else d.find? other := by
  induction d with
  | nil => simp [insert, find?_cons]
  | cons entry d ih =>
    obtain ⟨k, v⟩ := entry
    by_cases h : k.encoding = key.encoding
    · by_cases hk : key.encoding = other.encoding <;> simp [insert, find?_cons, h, hk]
    · by_cases ho : k.encoding = other.encoding
      · have hne : ¬other.encoding = key.encoding := fun e => h (ho.trans e)
        simp [insert, find?_cons, ho, hne, Ne.symm hne]
      · simp [insert, find?_cons, h, ho, ih]

theorem mem_items {d : Dictionary} {item : Item} :
    item ∈ d.items ↔ ∃ entry ∈ d, item = entry.1.item ∨ item = entry.2 := by
  simp [items]

theorem items_cons (entry : MapKey × Item) (d : Dictionary) :
    items (entry :: d) = entry.1.item :: entry.2 :: items d := rfl

theorem mem_items_insert {d : Dictionary} {key : MapKey} {value item : Item}
    (h : item ∈ (d.insert key value).items) : item ∈ d.items ∨ item = key.item ∨ item = value := by
  induction d with
  | nil => simpa [insert, items] using h
  | cons entry d ih =>
    rw [insert] at h
    split at h
    · simp only [items_cons, List.mem_cons] at h ⊢
      rcases h with h | h | h
      · exact .inl (.inl h)
      · exact .inr (.inr h)
      · exact .inl (.inr (.inr h))
    · simp only [items_cons, List.mem_cons] at h ⊢
      rcases h with h | h | h
      · exact .inl (.inl h)
      · exact .inl (.inr (.inl h))
      · exact (ih h).imp_left fun h => .inr (.inr h)

theorem mem_items_erase {d : Dictionary} {key : MapKey} {item : Item}
    (h : item ∈ (d.erase key).items) : item ∈ d.items := by
  obtain ⟨entry, hentry, hitem⟩ := mem_items.1 h
  exact mem_items.2 ⟨entry, List.mem_of_mem_eraseP hentry, hitem⟩

theorem length_insert (d : Dictionary) (key : MapKey) (value : Item) :
    (d.insert key value).length = if d.contains key then d.length else d.length + 1 := by
  induction d with
  | nil => rfl
  | cons entry d ih =>
    by_cases h : entry.1.encoding = key.encoding
    · simp [insert, contains, h]
    · have hrest : contains (entry :: d) key = contains d key := by simp [contains, h]
      rw [hrest]
      simp only [insert, beq_iff_eq, h, if_false, List.length_cons, ih]
      split <;> rfl

end Dictionary
end LedgerVM
