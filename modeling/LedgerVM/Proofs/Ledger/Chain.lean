import LedgerVM.Ledger.Chain
import Mathlib.Algebra.GroupWithZero.Nat
import Mathlib.Data.List.Induction

/-!
# The indexes of a chain agree

Four structures grow with every block: the blocks, their headers, and the indexes of blocks and of transactions by hash.
After any number of blocks they say the same about what was added (`Chain.Records`), though hashes may come again and
blocks may come with any index: of several blocks or transactions of one hash, the indexes lead to the last one.

* `IsLast`: the last position of a list where something holds.
* `Chain.Records.addBlock`: one more block keeps the structures in agreement.
* `Ledger.indexes_agree`: what the look-ups in a ledger find.
-/

namespace LedgerVM

/-! ### Last positions -/

section IsLast

variable {α : Type} {p : α → Prop} {xs : List α}

/-- What stands at the position has the property, and nothing behind it does. -/
def IsLast (p : α → Prop) (xs : List α) (i : Nat) : Prop :=
  (∃ x, xs[i]? = some x ∧ p x) ∧ ∀ (j : Nat) (x : α), xs[j]? = some x → p x → j ≤ i

theorem IsLast.lt {i : Nat} (h : IsLast p xs i) : i < xs.length := by
  obtain ⟨⟨x, hx, -⟩, -⟩ := h
  exact (List.getElem?_eq_some_iff.1 hx).1

/-- One more element is the last with the property, or leaves the last one where it was. -/
theorem isLast_concat {x : α} {i : Nat} :
    IsLast p (xs ++ [x]) i ↔ p x ∧ i = xs.length ∨ ¬p x ∧ IsLast p xs i := by
  have hend : (xs ++ [x])[xs.length]? = some x := List.getElem?_concat_length
  have hbefore {j : Nat} (hj : j < xs.length) : (xs ++ [x])[j]? = xs[j]? := List.getElem?_append_left hj
  have hwithin {j : Nat} {y : α} (hj : (xs ++ [x])[j]? = some y) : j < xs.length ∨ j = xs.length ∧ y = x := by
    have hlt := (List.getElem?_eq_some_iff.1 hj).1
    rw [List.length_append, List.length_singleton] at hlt
    rcases Nat.lt_succ_iff_lt_or_eq.1 hlt with hlt | rfl
    · exact .inl hlt
    · rw [hend] at hj
      exact .inr ⟨rfl, (Option.some.inj hj).symm⟩
  constructor
  · rintro ⟨⟨y, hy, hpy⟩, hlast⟩
    by_cases hx : p x
    · have hle : xs.length ≤ i := hlast xs.length x hend hx
      rcases hwithin hy with hlt | ⟨hi, -⟩
      · omega
      · exact .inl ⟨hx, hi⟩
    · rcases hwithin hy with hlt | ⟨-, rfl⟩
      · refine .inr ⟨hx, ⟨y, (hbefore hlt).symm.trans hy, hpy⟩, fun j z hz hpz => hlast j z ?_ hpz⟩
        exact (hbefore (List.getElem?_eq_some_iff.1 hz).1).trans hz
      · exact absurd hpy hx
  · rintro (⟨hx, rfl⟩ | ⟨hx, hi⟩)
    · refine ⟨⟨x, hend, hx⟩, fun j y hy _ => ?_⟩
      rcases hwithin hy with hlt | ⟨hj, -⟩
      · exact Nat.le_of_lt hlt
      · exact Nat.le_of_eq hj
    · obtain ⟨⟨y, hy, hpy⟩, hlast⟩ := hi
      refine ⟨⟨y, (hbefore (IsLast.lt ⟨⟨y, hy, hpy⟩, hlast⟩)).trans hy, hpy⟩, fun j z hz hpz => ?_⟩
      rcases hwithin hz with hlt | ⟨-, rfl⟩
      · exact hlast j z ((hbefore hlt).symm.trans hz) hpz
      · exact absurd hpz hx

theorem exists_isLast : (∃ i, IsLast p xs i) ↔ ∃ x ∈ xs, p x := by
  constructor
  · rintro ⟨i, ⟨x, hx, hpx⟩, -⟩
    exact ⟨x, List.mem_of_getElem? hx, hpx⟩
  · induction xs using List.reverseRecOn with
    | nil => simp
    | append_singleton xs y ih =>
      rintro ⟨x, hx, hpx⟩
      by_cases hy : p y
      · exact ⟨xs.length, isLast_concat.2 (.inl ⟨hy, rfl⟩)⟩
      · rcases List.mem_append.1 hx with hx | hx
        · obtain ⟨i, hi⟩ := ih ⟨x, hx, hpx⟩
          exact ⟨i, isLast_concat.2 (.inr ⟨hy, hi⟩)⟩
        · rw [List.mem_singleton.1 hx] at hpx
          exact absurd hpx hy

end IsLast

/-! ### The structures of a chain -/

/-- The place is that of the last transaction with the hash in the last block with one. -/
def IsLastPlace (bs : List Block) (hash : Hash256) (place : TransactionPlace) : Prop :=
  IsLast (fun b : Block => ∃ tx ∈ b.transactions, tx.hash = hash) bs place.height ∧
    ∃ b, bs[place.height]? = some b ∧ IsLast (·.hash = hash) b.transactions place.position

theorem isLastPlace_concat {bs : List Block} {block : Block} {hash : Hash256} {place : TransactionPlace} :
    IsLastPlace (bs ++ [block]) hash place ↔
      place.height = bs.length ∧ IsLast (·.hash = hash) block.transactions place.position ∨
      (∀ tx ∈ block.transactions, tx.hash ≠ hash) ∧ IsLastPlace bs hash place := by
  have hend : (bs ++ [block])[bs.length]? = some block := List.getElem?_concat_length
  unfold IsLastPlace
  rw [isLast_concat]
  constructor
  · rintro ⟨⟨-, hheight⟩ | ⟨hnone, hlast⟩, b, hb, hposition⟩
    · rw [hheight, hend] at hb
      cases hb
      exact .inl ⟨hheight, hposition⟩
    · rw [List.getElem?_append_left hlast.lt] at hb
      exact .inr ⟨fun tx htx hhash => hnone ⟨tx, htx, hhash⟩, hlast, b, hb, hposition⟩
  · rintro (⟨hheight, hposition⟩ | ⟨hnone, hlast, b, hb, hposition⟩)
    · refine ⟨.inl ⟨exists_isLast.1 ⟨place.position, hposition⟩, hheight⟩, block, ?_, hposition⟩
      rw [hheight, hend]
    · refine ⟨.inr ⟨fun ⟨tx, htx, hhash⟩ => hnone tx htx hhash, hlast⟩, b, ?_, hposition⟩
      rw [List.getElem?_append_left hlast.lt, hb]

theorem getElem?_insert_digest {n : Nat} {β : Type} (t : Std.ExtTreeMap (Digest n) β) (key other : Digest n)
    (value : β) : (t.insert key value)[other]? = if key = other then some value else t[other]? := by
  simp only [Std.ExtTreeMap.getElem?_insert, Std.compare_eq_iff_eq]

namespace Chain

theorem block?_eq_some {c : Chain} {id : BlockId} {i : Nat} {b : Block} :
    c.block? id = some (i, b) ↔ c.height? id = some i ∧ c.blocks[i]? = some b := by
  simp only [block?, Option.bind_eq_bind, Option.bind_eq_some_iff, pure, Option.some.injEq, Prod.mk.injEq]
  exact ⟨fun ⟨_, hi, _, hb, rfl, rfl⟩ => ⟨hi, hb⟩, fun ⟨hi, hb⟩ => ⟨i, hi, b, hb, rfl, rfl⟩⟩

theorem indexTransactions_concat (height : Nat) (places : Std.ExtTreeMap Hash256 TransactionPlace)
    (transactions : List Transaction) (tx : Transaction) :
    indexTransactions height places (transactions ++ [tx]) =
      (indexTransactions height places transactions).insert tx.hash { height, position := transactions.length } := by
  unfold indexTransactions
  rw [List.zipIdx_append, List.foldl_append]
  simp

/-- Indexing the transactions of a block leads to the last of them with a hash, and where there is none, to what was
found before. -/
theorem getElem?_indexTransactions {height : Nat} {places : Std.ExtTreeMap Hash256 TransactionPlace}
    {transactions : List Transaction} {hash : Hash256} {place : TransactionPlace} :
    (indexTransactions height places transactions)[hash]? = some place ↔
      place.height = height ∧ IsLast (·.hash = hash) transactions place.position ∨
      (∀ tx ∈ transactions, tx.hash ≠ hash) ∧ places[hash]? = some place := by
  induction transactions using List.reverseRecOn with
  | nil => simp [indexTransactions, IsLast]
  | append_singleton transactions tx ih =>
    rw [indexTransactions_concat, getElem?_insert_digest, isLast_concat]
    by_cases htx : tx.hash = hash
    · rw [if_pos htx, Option.some.injEq]
      constructor
      · rintro rfl
        exact .inl ⟨rfl, .inl ⟨htx, rfl⟩⟩
      · rintro (⟨rfl, ⟨-, hposition⟩ | ⟨hne, -⟩⟩ | ⟨hnone, -⟩)
        · rw [← hposition]
        · exact absurd htx hne
        · exact absurd htx (hnone tx List.mem_concat_self)
    · rw [if_neg htx, ih]
      constructor
      · rintro (⟨hheight, hlast⟩ | ⟨hnone, hplace⟩)
        · exact .inl ⟨hheight, .inr ⟨htx, hlast⟩⟩
        · refine .inr ⟨fun other hother => ?_, hplace⟩
          rcases List.mem_append.1 hother with hother | hother
          · exact hnone other hother
          · rw [List.mem_singleton.1 hother]
            exact htx
      · rintro (⟨hheight, ⟨hsame, -⟩ | ⟨-, hlast⟩⟩ | ⟨hnone, hplace⟩)
        · exact absurd hsame htx
        · exact .inl ⟨hheight, hlast⟩
        · exact .inr ⟨fun other hother => hnone other (List.mem_append_left [tx] hother), hplace⟩

/-- The chain holds these blocks under their heights, with their headers, and its indexes lead to the last of them and
of their transactions. -/
structure Records (c : Chain) (bs : List Block) : Prop where
  blocks : c.blocks.toList = bs.mapIdx fun i b => { b with header.index := UInt32.ofNat i }
  headers : c.headers = c.blocks.map (·.header)
  heights : ∀ hash i, c.heights[hash]? = some i ↔ IsLast (·.header.hash = hash) bs i
  places : ∀ hash place, c.places[hash]? = some place ↔ IsLastPlace bs hash place

namespace Records

variable {c : Chain} {bs : List Block}

theorem empty : Chain.empty.Records [] where
  blocks := rfl
  headers := Array.map_empty.symm
  heights hash i := by simp [Chain.empty, IsLast]
  places hash place := by simp [Chain.empty, IsLastPlace, IsLast]

theorem size_blocks (h : c.Records bs) : c.blocks.size = bs.length := by
  rw [← Array.length_toList, h.blocks, List.length_mapIdx]

/-- One more block is recorded behind the others. -/
theorem addBlock (h : c.Records bs) (block : Block) : (c.addBlock block).Records (bs ++ [block]) where
  blocks := by
    rw [List.mapIdx_concat, ← h.blocks, ← h.size_blocks, Chain.addBlock, Array.toList_push]
  headers := by
    rw [Chain.addBlock, Array.map_push, h.headers]
  heights hash i := by
    rw [isLast_concat, Chain.addBlock, getElem?_insert_digest, ← h.heights]
    by_cases hhash : block.header.hash = hash
    · simp [hhash, h.size_blocks, eq_comm]
    · simp [hhash]
  places hash place := by
    rw [Chain.addBlock, getElem?_indexTransactions, h.places, h.size_blocks, isLastPlace_concat]

/-- Blocks that are added one by one are all recorded. -/
theorem foldl (h : c.Records bs) (others : List Block) : (others.foldl Chain.addBlock c).Records (bs ++ others) := by
  induction others generalizing c bs with
  | nil => rwa [List.append_nil]
  | cons block others ih =>
    have hrest := ih (h.addBlock block)
    rwa [List.append_assoc, List.singleton_append] at hrest

/-! ### Look-ups -/

theorem getElem?_blocks (h : c.Records bs) (i : Nat) :
    c.blocks[i]? = bs[i]?.map fun b => { b with header.index := UInt32.ofNat i } := by
  rw [← Array.getElem?_toList, h.blocks, List.getElem?_mapIdx]

theorem block?_index (h : c.Records bs) (i : UInt32) :
    c.block? (.index i) = bs[i.toNat]?.map fun b => (i.toNat, { b with header.index := i }) := by
  have hblock := h.getElem?_blocks i.toNat
  rw [UInt32.ofNat_toNat] at hblock
  simp only [block?, height?]
  split
  · rw [Option.bind_eq_bind, Option.bind_some, hblock]
    cases bs[i.toNat]? <;> rfl
  · rename_i hbeyond
    rw [h.size_blocks] at hbeyond
    rw [List.getElem?_eq_none (Nat.le_of_not_lt hbeyond)]
    rfl

theorem block?_hash_eq_some (h : c.Records bs) (hcount : bs.length < 2 ^ 32) {hash : Hash256} {i : Nat} {b : Block} :
    c.block? (.hash hash) = some (i, b) ↔
      IsLast (·.header.hash = hash) bs i ∧ c.block? (.index (UInt32.ofNat i)) = some (i, b) := by
  have hfound : c.height? (.hash hash) = some i ↔ IsLast (·.header.hash = hash) bs i := h.heights hash i
  rw [block?_eq_some, block?_eq_some, hfound]
  refine and_congr_right fun hlast => (and_iff_right ?_).symm
  have hlt := hlast.lt
  rw [height?, UInt32.toNat_ofNat_of_lt' (Nat.lt_trans hlt hcount), h.size_blocks, if_pos hlt]

/-- There is no block with a hash that no block was added with. -/
theorem block?_hash_eq_none (h : c.Records bs) (hcount : bs.length < 2 ^ 32) {hash : Hash256} :
    c.block? (.hash hash) = none ↔ ∀ b ∈ bs, b.header.hash ≠ hash := by
  rw [Option.eq_none_iff_forall_ne_some]
  constructor
  · intro hnone b hb hhash
    obtain ⟨i, hlast⟩ : ∃ i, IsLast (·.header.hash = hash) bs i := exists_isLast.2 ⟨b, hb, hhash⟩
    obtain ⟨b', hb'⟩ : ∃ b', c.blocks[i]? = some b' := ⟨_, Array.getElem?_eq_getElem (h.size_blocks ▸ hlast.lt)⟩
    exact hnone (i, b') (block?_eq_some.2 ⟨(h.heights hash i).2 hlast, hb'⟩)
  · rintro hnone ⟨i, b⟩ hb
    obtain ⟨b', hb', hhash⟩ := exists_isLast.1 ⟨i, ((h.block?_hash_eq_some hcount).1 hb).1⟩
    exact hnone b' hb' hhash

theorem header?_eq (h : c.Records bs) (id : BlockId) :
    c.header? id = (c.block? id).map fun (i, b) => (i, b.header) := by
  unfold header? block?
  rw [h.headers]
  simp only [Array.getElem?_map]
  cases c.height? id with
  | none => rfl
  | some i =>
    simp only [Option.bind_eq_bind, Option.bind_some]
    cases c.blocks[i]? <;> rfl

theorem transaction?_eq_some (h : c.Records bs) {hash : Hash256} {place : TransactionPlace} {tx : Transaction} :
    c.transaction? hash = some (place, tx) ↔ IsLastPlace bs hash place ∧
      ∃ b, bs[place.height]? = some b ∧ b.transactions[place.position]? = some tx := by
  simp only [transaction?, Option.bind_eq_bind, Option.bind_eq_some_iff, pure, Option.some.injEq, Prod.mk.injEq,
    h.places, h.getElem?_blocks, Option.map_eq_some_iff]
  constructor
  · rintro ⟨place, hplace, _, ⟨b, hb, rfl⟩, tx, htx, rfl, rfl⟩
    exact ⟨hplace, b, hb, htx⟩
  · rintro ⟨hplace, b, hb, htx⟩
    exact ⟨place, hplace, _, ⟨b, hb, rfl⟩, tx, htx, rfl, rfl⟩

/-- There is no transaction with a hash that no transaction was added with. -/
theorem transaction?_eq_none (h : c.Records bs) {hash : Hash256} :
    c.transaction? hash = none ↔ ∀ b ∈ bs, ∀ tx ∈ b.transactions, tx.hash ≠ hash := by
  rw [Option.eq_none_iff_forall_ne_some]
  constructor
  · intro hnone b hb tx htx hhash
    obtain ⟨height, hheight⟩ : ∃ i, IsLast (fun b : Block => ∃ tx ∈ b.transactions, tx.hash = hash) bs i :=
      exists_isLast.2 ⟨b, hb, tx, htx, hhash⟩
    obtain ⟨last, hlast, hsome⟩ := hheight.1
    obtain ⟨position, hposition⟩ := exists_isLast.2 hsome
    obtain ⟨found, hfound, -⟩ := hposition.1
    exact hnone ({ height, position }, found)
      (h.transaction?_eq_some.2 ⟨⟨hheight, last, hlast, hposition⟩, last, hlast, hfound⟩)
  · rintro hnone ⟨place, tx⟩ htx
    obtain ⟨⟨hheight, -⟩, -⟩ := h.transaction?_eq_some.1 htx
    obtain ⟨b, hb, tx', htx', hhash⟩ := exists_isLast.1 ⟨_, hheight⟩
    exact hnone b hb tx' htx' hhash

/-- The last block is the one that was added last. -/
theorem back?_blocks (h : c.Records bs) :
    c.blocks.back? = bs.getLast?.map fun b => { b with header.index := UInt32.ofNat (bs.length - 1) } := by
  rw [Array.back?, h.getElem?_blocks, h.size_blocks, List.getLast?_eq_getElem?]

theorem height_available (h : c.Records bs) :
    (Ledger.available c).height =
      match bs.getLast? with
      | some _ => .ok (UInt32.ofNat (bs.length - 1))
      | none => .error .empty := by
  simp only [Ledger.height, Ledger.currentBlock, Ledger.read, bind, Except.bind, h.back?_blocks]
  cases bs.getLast? <;> rfl

end Records

end Chain

/-- The indexes of a ledger agree, whatever blocks were added to it and in whatever order.  A block is found under its
height, with its height as its index, and under its hash, as the last block of this hash.  A header is that of the
block.  A transaction is found under its hash, as the last of this hash in the last block with one.  The height is that
of the last block, unless there is none. -/
theorem Ledger.indexes_agree {bs : List Block} (hcount : bs.length < 2 ^ 32) :
    let ledger := Ledger.available (bs.foldl Chain.addBlock .empty)
    (∀ i : UInt32, ledger.block (.index i) =
      .ok (bs[i.toNat]?.map fun b => (i.toNat, { b with header.index := i }))) ∧
    (∀ hash, (ledger.block (.hash hash) = .ok none ↔ ∀ b ∈ bs, b.header.hash ≠ hash) ∧
      ∀ i b, ledger.block (.hash hash) = .ok (some (i, b)) ↔
        IsLast (·.header.hash = hash) bs i ∧ ledger.block (.index (UInt32.ofNat i)) = .ok (some (i, b))) ∧
    (∀ id, ledger.header id = (ledger.block id).map (·.map fun (i, b) => (i, b.header))) ∧
    (∀ hash, (ledger.transaction hash = .ok none ↔ ∀ b ∈ bs, ∀ tx ∈ b.transactions, tx.hash ≠ hash) ∧
      ∀ place tx, ledger.transaction hash = .ok (some (place, tx)) ↔
        IsLastPlace bs hash place ∧
          ∃ b, bs[place.height]? = some b ∧ b.transactions[place.position]? = some tx) ∧
    (ledger.height = .error .empty ↔ bs = []) ∧
    (bs ≠ [] → ∃ height, ledger.height = .ok height ∧ height.toNat + 1 = bs.length) := by
  intro ledger
  have h : (bs.foldl Chain.addBlock .empty).Records bs := Chain.Records.empty.foldl bs
  have hok {α : Type} {x y : α} : (Except.ok x : Except LedgerError α) = .ok y ↔ x = y := by
    rw [Except.ok.injEq]
  have hheight := h.height_available
  refine ⟨fun i => hok.2 (h.block?_index i), fun hash => ⟨?_, fun i b => ?_⟩, fun id => hok.2 (h.header?_eq id),
    fun hash => ⟨?_, fun place tx => ?_⟩, ?_, ?_⟩
  · exact hok.trans (h.block?_hash_eq_none hcount)
  · exact hok.trans ((h.block?_hash_eq_some hcount).trans (and_congr_right fun _ => hok.symm))
  · exact hok.trans h.transaction?_eq_none
  · exact hok.trans h.transaction?_eq_some
  · rw [hheight]
    cases hlast : bs.getLast? with
    | none => exact ⟨fun _ => List.getLast?_eq_none_iff.1 hlast, fun _ => rfl⟩
    | some b =>
      refine ⟨nofun, ?_⟩
      rintro rfl
      cases hlast
  · intro hne
    rw [hheight, List.getLast?_eq_some_getLast hne]
    have hpositive : 0 < bs.length := List.length_pos_iff.2 hne
    refine ⟨_, rfl, ?_⟩
    rw [UInt32.toNat_ofNat_of_lt' (show bs.length - 1 < 2 ^ 32 by omega)]
    omega

/-- A block comes with the hash of the one before it and an index of its own.  The hash leads to it, and transactions
that it does not have are still found in the other block. -/
theorem repeated_hash_leads_to_last :
    let tx : Transaction :=
      { hash := .zero 32, type := .miner, version := 0, attributes := [], inputs := [], outputs := [], script := []
        gas := 0 }
    let header : Header :=
      { hash := .zero 32, version := 0, prevHash := .zero 32, merkleRoot := .zero 32, timestamp := 0, index := 7
        consensusData := 0, nextConsensus := .zero 20 }
    let ledger := Ledger.available ([⟨header, [tx, tx]⟩, ⟨header, []⟩].foldl Chain.addBlock .empty)
    ledger.block (.hash (.zero 32)) = .ok (some (1, ⟨{ header with index := 1 }, []⟩)) ∧
      ledger.header (.hash (.zero 32)) = .ok (some (1, { header with index := 1 })) ∧
      ledger.transaction (.zero 32) = .ok (some (⟨0, 1⟩, tx)) ∧
      ∃ height, ledger.height = .ok height ∧ height.toNat = 1 := by
  intro tx header ledger
  obtain ⟨hindex, hblock, hheader, htransaction, -, hheight⟩ :=
    Ledger.indexes_agree (show ([⟨header, [tx, tx]⟩, ⟨header, []⟩] : List Block).length < 2 ^ 32 by decide)
  have hbelow {α : Type} {x y : α} {j : Nat} {z : α} (hz : [x, y][j]? = some z) : j ≤ 1 :=
    Nat.le_of_lt_succ (List.getElem?_eq_some_iff.1 hz).1
  have hlast : ledger.block (.hash (.zero 32)) = .ok (some (1, ⟨{ header with index := 1 }, []⟩)) :=
    ((hblock _).2 1 _).2 ⟨⟨⟨⟨header, []⟩, rfl, rfl⟩, fun _ _ hz _ => hbelow hz⟩, hindex 1⟩
  refine ⟨hlast, (hheader _).trans (by rw [hlast]; rfl), ((htransaction _).2 _ _).2 ⟨⟨?_, ?_⟩, ?_⟩, ?_⟩
  · refine ⟨⟨⟨header, [tx, tx]⟩, rfl, tx, List.mem_cons_self, rfl⟩, fun j b hb htx => ?_⟩
    rcases Nat.le_one_iff_eq_zero_or_eq_one.1 (hbelow hb) with rfl | rfl
    · exact Nat.le_refl 0
    · cases hb
      obtain ⟨other, hother, -⟩ := htx
      cases hother
  · exact ⟨⟨header, [tx, tx]⟩, rfl, ⟨tx, rfl, rfl⟩, fun _ _ hz _ => hbelow hz⟩
  · exact ⟨⟨header, [tx, tx]⟩, rfl, rfl⟩
  · obtain ⟨height, hsome, hcount⟩ := hheight (List.cons_ne_nil _ _)
    exact ⟨height, hsome, Nat.succ.inj hcount⟩

end LedgerVM
