import LedgerVM.Ledger.Transaction.Encoding
import LedgerVM.Operator.Multisig
import LedgerVM.Proofs.Bytes.Reader

/-!
# Transactions and their encodings

A transaction whose counts and lengths fit into four bytes is read off its encoding, and off nothing else
(`Transaction.read_reads`).  So no encoding goes on where another one ends, and a signature commits to everything in a
transaction but the hash that names it (`Transaction.encoding_is_exact`).
-/

namespace LedgerVM

theorem TransactionType.ofByte?_eq_some {b : UInt8} {t : TransactionType} : ofByte? b = some t ↔ b = t.toByte := by
  constructor
  · intro h
    unfold ofByte? at h
    split at h
    all_goals cases h
    all_goals rfl
  · rintro rfl
    exact ofByte?_toByte t

open Reader

theorem Attribute.read_reads : Attribute.read.Reads Attribute.encode (·.data.length < 2 ^ 32) := by
  intro bs a rest
  constructor
  · intro h
    simp only [Attribute.read, bind_eq_some, pure_eq_some] at h
    obtain ⟨usage, middle, husage, data, last, hdata, rfl, rfl⟩ := h
    obtain ⟨-, rfl⟩ := byte_reads.1 husage
    obtain ⟨hlt, rfl⟩ := sized_reads.1 hdata
    exact ⟨hlt, rfl⟩
  · rintro ⟨hlt, rfl⟩
    have hbytes : a.encode ++ rest = [a.usage] ++ (Bytes.ofSized a.data ++ rest) := rfl
    rw [hbytes, Attribute.read, byte_reads.bind_apply trivial, sized_reads.bind_apply hlt]
    rfl

theorem Input.read_reads : Input.read.Reads Input.encode fun _ => True := by
  intro bs i rest
  constructor
  · intro h
    simp only [Input.read, bind_eq_some, pure_eq_some] at h
    obtain ⟨hash, middle, hhash, index, last, hindex, rfl, rfl⟩ := h
    obtain ⟨-, rfl⟩ := (digest_reads 32).1 hhash
    obtain ⟨hlt, rfl⟩ := (nat_reads 2).1 hindex
    rw [Input.encode, UInt16.toNat_ofNat_of_lt' hlt, List.append_assoc]
    exact ⟨trivial, rfl⟩
  · rintro ⟨-, rfl⟩
    rw [Input.encode, Input.read, List.append_assoc, (digest_reads 32).bind_apply trivial,
      (nat_reads 2).bind_apply i.prevIndex.toNat_lt, UInt16.ofNat_toNat]
    rfl

theorem Output.read_reads : Output.read.Reads Output.encode fun _ => True := by
  intro bs o rest
  constructor
  · intro h
    simp only [Output.read, bind_eq_some, pure_eq_some] at h
    obtain ⟨asset, middle, hasset, value, behind, hvalue, script, last, hscript, rfl, rfl⟩ := h
    obtain ⟨-, rfl⟩ := (digest_reads 32).1 hasset
    obtain ⟨-, rfl⟩ := int64_reads.1 hvalue
    obtain ⟨-, rfl⟩ := (digest_reads 20).1 hscript
    rw [Output.encode, List.append_assoc, List.append_assoc]
    exact ⟨trivial, rfl⟩
  · rintro ⟨-, rfl⟩
    rw [Output.encode, Output.read, List.append_assoc, List.append_assoc, (digest_reads 32).bind_apply trivial,
      int64_reads.bind_apply trivial, (digest_reads 20).bind_apply trivial]
    rfl

namespace Transaction

/-- The counts and lengths that are written in front of lists and byte strings fit into four bytes. -/
structure Encodable (tx : Transaction) : Prop where
  attributes : tx.attributes.length < 2 ^ 32
  data : ∀ a ∈ tx.attributes, a.data.length < 2 ^ 32
  inputs : tx.inputs.length < 2 ^ 32
  outputs : tx.outputs.length < 2 ^ 32
  script : tx.script.length < 2 ^ 32

variable {t u : Transaction} {hash : Hash256} {bs : Bytes}

/-- The reader that is told a hash reads the transactions of this name off their encodings. -/
theorem read_reads (hash : Hash256) : (Transaction.read hash).Reads encode fun tx => tx.hash = hash ∧ tx.Encodable := by
  intro bs tx rest
  constructor
  · intro h
    obtain ⟨b, bs₁, hb, hfields⟩ := bind_eq_some.1 h
    obtain ⟨-, rfl⟩ := byte_reads.1 hb
    cases htype : TransactionType.ofByte? b with
    | none =>
      rw [htype] at hfields
      cases hfields
    | some type =>
      obtain rfl := TransactionType.ofByte?_eq_some.1 htype
      rw [htype] at hfields
      simp only [bind_eq_some, pure_eq_some] at hfields
      obtain ⟨version, bs₂, hversion, attributes, bs₃, hattributes, inputs, bs₄, hinputs, outputs, bs₅, houtputs,
        script, bs₆, hscript, gas, bs₇, hgas, rfl, rfl⟩ := hfields
      obtain ⟨-, rfl⟩ := byte_reads.1 hversion
      obtain ⟨⟨hcount, hdata⟩, rfl⟩ := (list_reads Attribute.read_reads).1 hattributes
      obtain ⟨⟨hspent, -⟩, rfl⟩ := (list_reads Input.read_reads).1 hinputs
      obtain ⟨⟨hcreated, -⟩, rfl⟩ := (list_reads Output.read_reads).1 houtputs
      obtain ⟨hcode, rfl⟩ := sized_reads.1 hscript
      obtain ⟨-, rfl⟩ := int64_reads.1 hgas
      exact ⟨⟨rfl, hcount, hdata, hspent, hcreated, hcode⟩, by simp [encode]⟩
  · rintro ⟨⟨rfl, h⟩, rfl⟩
    have hbytes : tx.encode ++ rest = [tx.type.toByte] ++ ([tx.version] ++
        (Bytes.ofList Attribute.encode tx.attributes ++ (Bytes.ofList Input.encode tx.inputs ++
          (Bytes.ofList Output.encode tx.outputs ++ (Bytes.ofSized tx.script ++
            (Bytes.ofInt64 tx.gas ++ rest)))))) := by
      simp [encode]
    rw [hbytes, Transaction.read, byte_reads.bind_apply trivial, TransactionType.ofByte?_toByte]
    dsimp only
    rw [byte_reads.bind_apply trivial, (list_reads Attribute.read_reads).bind_apply ⟨h.attributes, h.data⟩,
      (list_reads Input.read_reads).bind_apply ⟨h.inputs, fun _ _ => trivial⟩,
      (list_reads Output.read_reads).bind_apply ⟨h.outputs, fun _ _ => trivial⟩,
      sized_reads.bind_apply h.script, int64_reads.bind_apply trivial]
    rfl

/-- Decoding gives a transaction if and only if it has the name and the bytes begin with its encoding. -/
theorem decode?_eq_some : decode? hash bs = some t ↔ (t.hash = hash ∧ t.Encodable) ∧ ∃ rest, bs = t.encode ++ rest := by
  unfold decode?
  rw [Option.map_eq_some_iff]
  constructor
  · rintro ⟨⟨tx, rest⟩, hread, rfl⟩
    obtain ⟨hkind, hbytes⟩ := (read_reads hash).1 hread
    exact ⟨hkind, rest, hbytes⟩
  · rintro ⟨hkind, rest, hbytes⟩
    exact ⟨(t, rest), (read_reads hash).2 ⟨hkind, hbytes⟩, rfl⟩

theorem decode?_encode_append (ht : t.Encodable) (hash : Hash256) (rest : Bytes) :
    decode? hash (t.encode ++ rest) = some { t with hash } :=
  decode?_eq_some.2 ⟨⟨rfl, { ht with }⟩, rest, rfl⟩

/-- Where one encoding goes on after another, the transactions differ in their names at most. -/
theorem eq_of_encode_append (ht : t.Encodable) (hu : u.Encodable) {rest : Bytes} (h : t.encode = u.encode ++ rest) :
    u = { t with hash := u.hash } := by
  have hread := decode?_encode_append hu u.hash rest
  have hother := decode?_encode_append ht u.hash []
  rw [List.append_nil, h, hread] at hother
  exact Option.some.inj hother

/-- The encoding of a transaction is exact.  Decoding gives it just where the bytes begin with its encoding, under the
name that is asked for, so that it is read back from its encoding, and not from less.  No encoding is the beginning of
another one, and transactions that are signed by the same message differ in their names at most. -/
theorem encoding_is_exact (ht : t.Encodable) :
    (∀ (hash : Hash256) (bs : Bytes), decode? hash bs = some t ↔ t.hash = hash ∧ ∃ rest, bs = t.encode ++ rest) ∧
    decode? t.hash t.encode = some t ∧
    (∀ (hash : Hash256) (bs : Bytes), bs <+: t.encode → bs ≠ t.encode → decode? hash bs = none) ∧
    ∀ u : Transaction, u.Encodable → (u.encode <+: t.encode → u.encode = t.encode) ∧
      (Operation.signatureMessage (some t) = Operation.signatureMessage (some u) → u = { t with hash := u.hash }) := by
  have hiff (hash : Hash256) (bs : Bytes) :
      decode? hash bs = some t ↔ t.hash = hash ∧ ∃ rest, bs = t.encode ++ rest := by
    rw [decode?_eq_some, and_iff_left ht]
  have hbegins {u : Transaction} (hu : u.Encodable) (h : u.encode <+: t.encode) : u.encode = t.encode := by
    obtain ⟨rest, hrest⟩ := h
    rw [eq_of_encode_append ht hu hrest.symm]
    rfl
  refine ⟨hiff, (hiff _ _).2 ⟨rfl, [], (List.append_nil _).symm⟩, fun hash bs hbs hne => ?_, fun u hu =>
    ⟨hbegins hu, fun hmessage => ?_⟩⟩
  · refine Option.eq_none_iff_forall_ne_some.2 fun u hu => hne ?_
    -- what is read off less would be the beginning of the encoding
    obtain ⟨⟨-, hencodable⟩, rest, rfl⟩ := decode?_eq_some.1 hu
    have hwhole := hbegins hencodable ((List.prefix_append u.encode rest).trans hbs)
    exact hbs.eq_of_length_le (by rw [← hwhole]; simp)
  · have hsame : t.encode = u.encode := by
      have happlied := congrFun hmessage { stack := [], heap := {} }
      exact (EStateM.Result.ok.inj happlied).1
    exact eq_of_encode_append ht hu (hsame.trans (List.append_nil _).symm)

/-- An invocation with one attribute and one input is read back with a byte behind it, and not without its last. -/
theorem invocation_is_read_back :
    let tx : Transaction :=
      { hash := .zero 32, type := .invocation, version := 1, attributes := [{ usage := 0x20, data := [1, 2] }]
        inputs := [{ prevHash := .zero 32, prevIndex := 258 }], outputs := [], script := [0x51], gas := -1 }
    tx.Encodable ∧ decode? (.zero 32) (tx.encode ++ [7]) = some tx ∧
      decode? (.zero 32) (tx.encode.take 67) = none ∧ tx.encode.length = 68 := by
  intro tx
  have htx : tx.Encodable := ⟨by decide, by decide, by decide, by decide, by decide⟩
  obtain ⟨hiff, -, hcut, -⟩ := encoding_is_exact htx
  have hlength : tx.encode.length = 68 := by decide +kernel
  refine ⟨htx, (hiff _ _).2 ⟨rfl, [7], rfl⟩, hcut _ _ (List.take_prefix 67 _) fun h => ?_, hlength⟩
  have hshort := congrArg List.length h
  rw [List.length_take, hlength] at hshort
  exact absurd hshort (by decide)

end Transaction

end LedgerVM
