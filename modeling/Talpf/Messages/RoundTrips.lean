import Mathlib.Data.Nat.Bitwise
import Talpf.Messages

/-!
# Round trips of messages

Both classes write the same bytes for a field, wherever it stands in the buffer, and both
read the field back from these bytes.
-/

namespace Talpf

open Varint

/-- The bytes of a field. -/
def Field.bytes : Field → List UInt8
  | .uint number => Varint.bytes number.toNat
  | .bool value => [if value then 1 else 0]
  | .blob bytes => bytes

section Buffers

variable {buffer : List UInt8} {pos : ℕ}

theorem memcpy_cons (byte : UInt8) (bytes : List UInt8) :
    memcpy buffer pos (byte :: bytes) =
      (store buffer pos byte).bind fun buffer => memcpy buffer (pos + 1) bytes := by
  by_cases inside : pos < buffer.length
  · have taken : (buffer.set pos byte).take (pos + 1) = buffer.take pos ++ [byte] := by
      rw [List.take_add_one, List.take_set_of_le (Nat.le_refl pos), List.getElem?_set_self inside]
      rfl
    have dropped (count : ℕ) : (buffer.set pos byte).drop (pos + 1 + count) =
        buffer.drop (pos + 1 + count) := List.drop_set_of_lt (by omega)
    have total : pos + (byte :: bytes).length = pos + 1 + bytes.length := by
      rw [List.length_cons]
      omega
    rw [store, if_pos inside, Option.bind_some, memcpy, memcpy, List.length_set, total, taken,
      dropped]
    simp
  · rw [store, if_neg inside, memcpy, if_neg]
    · rfl
    · rw [List.length_cons]
      omega

theorem memcpy_nil (inside : pos ≤ buffer.length) : memcpy buffer pos [] = some buffer := by
  simp [memcpy, inside]

theorem memcpy_append (first second : List UInt8) :
    memcpy buffer pos (first ++ second) =
      (memcpy buffer pos first).bind fun buffer =>
        memcpy buffer (pos + first.length) second := by
  induction first generalizing buffer pos with
  | nil =>
      by_cases inside : pos ≤ buffer.length
      · rw [memcpy_nil inside]
        rfl
      · have outside : ¬pos + ([] : List UInt8).length ≤ buffer.length := inside
        have beyond : ¬pos + second.length ≤ buffer.length := by omega
        rw [List.nil_append, memcpy, memcpy, if_neg beyond, if_neg outside]
        rfl
  | cons byte rest ih =>
      rw [List.cons_append, memcpy_cons, memcpy_cons]
      cases stored : store buffer pos byte with
      | none => rfl
      | some buffer =>
          rw [Option.bind_some, Option.bind_some, ih, List.length_cons, Nat.add_assoc,
            Nat.add_comm 1]

theorem pos_le_of_memcpy {bytes buffer' : List UInt8}
    (written : memcpy buffer pos bytes = some buffer') : pos + bytes.length ≤ buffer'.length := by
  unfold memcpy at written
  split at written
  next fits =>
    rw [← Option.some.inj written]
    simp only [List.length_append, List.length_take]
    omega
  next => cases written

/-- Behind the position there are the bytes that were written. -/
theorem drop_of_memcpy {bytes buffer' : List UInt8}
    (written : memcpy buffer pos bytes = some buffer') :
    ∃ rest, buffer'.drop pos = bytes ++ rest := by
  unfold memcpy at written
  split at written
  next fits =>
    obtain rfl := Option.some.inj written
    have length : (buffer.take pos).length = pos := List.length_take_of_le (by omega)
    refine ⟨buffer.drop (pos + bytes.length), ?_⟩
    rw [List.append_assoc, List.drop_append_of_le_length length.ge,
      List.drop_of_length_le length.le, List.nil_append]
  next => cases written

end Buffers

section Integers

variable {w : ℕ} {number : BitVec w}

theorem toNat_shift (number : BitVec w) : (number >>> 7).toNat = number.toNat / 128 := by
  rw [BitVec.toNat_ushiftRight, Nat.shiftRight_eq_div_pow]

theorem shift_pos_iff : number >>> 7 > 0 ↔ 128 ≤ number.toNat := by
  have small : (number >>> 7 > 0) ↔ 0 < (number >>> 7).toNat := BitVec.lt_def
  rw [small, toNat_shift]
  omega

theorem toNat_and_block (n : ℕ) : n &&& 127 = n % 128 := Nat.and_two_pow_sub_one_eq_mod n 7

/-- The group of seven bits that `IPCMesg` takes off. -/
theorem ipc_group (number : BitVec w) :
    UInt8.ofBitVec ((number.setWidth 64 &&& block.toBitVec.setWidth 64).setWidth 8) =
      UInt8.ofNat (number.toNat % 128) := by
  apply UInt8.toNat_inj.mp
  have low : number.toNat % 2 ^ 64 % 128 = number.toNat % 128 := by omega
  show ((number.setWidth 64 &&& block.toBitVec.setWidth 64).setWidth 8).toNat = _
  rw [BitVec.toNat_setWidth, BitVec.toNat_and, BitVec.toNat_setWidth, UInt8.toNat_ofNat']
  show (number.toNat % 2 ^ 64 &&& 127) % 2 ^ 8 = _
  rw [toNat_and_block, low]

theorem micro_group (number : BitVec w) :
    UInt8.ofBitVec (number.setWidth 8) &&& block = UInt8.ofNat (number.toNat % 128) := by
  apply UInt8.toNat_inj.mp
  rw [UInt8.toNat_and, UInt8.toNat_ofNat']
  show (number.setWidth 8).toNat &&& 127 = _
  rw [BitVec.toNat_setWidth, toNat_and_block]
  omega

theorem or_hasNextBlock (n : ℕ) :
    UInt8.ofNat (n % 128) ||| hasNextBlock = UInt8.ofNat (n % 128 + 128) := by
  apply UInt8.toNat_inj.mp
  have small : n % 128 < 2 ^ 7 := Nat.mod_lt _ (by decide)
  rw [UInt8.toNat_or, UInt8.toNat_ofNat', UInt8.toNat_ofNat']
  show n % 128 % 2 ^ 8 ||| 128 = _
  have joined : 2 ^ 7 + n % 128 = 2 ^ 7 ||| n % 128 := Nat.two_pow_add_eq_or_of_lt small 1
  rw [Nat.mod_eq_of_lt (by omega), Nat.or_comm]
  exact joined.symm.trans (by omega)

end Integers

theorem length_of_store {buffer buffer' : List UInt8} {pos : ℕ} {byte : UInt8}
    (stored : store buffer pos byte = some buffer') : pos + 1 ≤ buffer'.length := by
  unfold store at stored
  split at stored
  next inside =>
    rw [← Option.some.inj stored, List.length_set]
    exact inside
  next => cases stored

namespace IPCMesg

variable {mesg : IPCMesg}

theorem write_eq {w : ℕ} (number : BitVec w) :
    mesg.write number = (memcpy mesg.buffer mesg.pos (Varint.bytes number.toNat)).map fun buffer =>
      { buffer := buffer, pos := mesg.pos + (Varint.bytes number.toNat).length } := by
  induction size : number.toNat using Nat.strongRecOn generalizing number mesg with
  | ind n ih =>
      rw [write, ipc_group, size]
      by_cases more : number >>> 7 > 0
      · have large : 128 ≤ n := size ▸ shift_pos_iff.mp more
        have shifted : (number >>> 7).toNat = n / 128 := size ▸ toNat_shift number
        simp only [if_pos more, or_hasNextBlock]
        rw [Varint.bytes_of_le large, memcpy_cons]
        cases store mesg.buffer mesg.pos (UInt8.ofNat (n % 128 + 128)) with
        | none => rfl
        | some buffer =>
            simp only [Option.bind_some]
            rw [ih (n / 128) (by omega) (number >>> 7) shifted, List.length_cons, Nat.add_assoc,
              Nat.add_comm 1]
      · have small : n < 128 := by
          have := mt shift_pos_iff.mpr more
          omega
        simp only [if_neg more]
        rw [Varint.bytes_of_lt small, memcpy_cons, Nat.mod_eq_of_lt small]
        cases stored : store mesg.buffer mesg.pos (UInt8.ofNat n) with
        | none => rfl
        | some buffer =>
            rw [Option.bind_some, memcpy_nil (length_of_store stored)]
            rfl

end IPCMesg

namespace MicroMsg

variable {mesg : MicroMsg}

theorem write_eq {w : ℕ} (number : BitVec w) :
    mesg.write number = (memcpy mesg.buffer mesg.pos (Varint.bytes number.toNat)).map fun buffer =>
      { buffer := buffer, pos := mesg.pos + (Varint.bytes number.toNat).length } := by
  induction size : number.toNat using Nat.strongRecOn generalizing number mesg with
  | ind n ih =>
      rw [write, micro_group, size]
      by_cases more : number >>> 7 > 0
      · have large : 128 ≤ n := size ▸ shift_pos_iff.mp more
        have shifted : (number >>> 7).toNat = n / 128 := size ▸ toNat_shift number
        simp only [if_pos more, or_hasNextBlock]
        rw [Varint.bytes_of_le large, memcpy_cons]
        cases store mesg.buffer mesg.pos (UInt8.ofNat (n % 128 + 128)) with
        | none => rfl
        | some buffer =>
            simp only [Option.bind_some]
            rw [ih (n / 128) (by omega) (number >>> 7) shifted, List.length_cons, Nat.add_assoc,
              Nat.add_comm 1]
      · have small : n < 128 := by
          have := mt shift_pos_iff.mpr more
          omega
        simp only [if_neg more]
        rw [Varint.bytes_of_lt small, memcpy_cons, Nat.mod_eq_of_lt small]
        cases stored : store mesg.buffer mesg.pos (UInt8.ofNat n) with
        | none => rfl
        | some buffer =>
            rw [Option.bind_some, memcpy_nil (length_of_store stored)]
            rfl

end MicroMsg

section Reading

variable {buffer : List UInt8} {pos : ℕ}

theorem and_hasNextBlock (byte : UInt8) : byte &&& hasNextBlock ≠ 0 ↔ 128 ≤ byte.toNat := by
  have highest : (byte &&& hasNextBlock).toNat = (byte.toNat.testBit 7).toNat * 2 ^ 7 :=
    (UInt8.toNat_and byte hasNextBlock).trans (Nat.and_two_pow byte.toNat 7)
  have zero : byte &&& hasNextBlock = 0 ↔ (byte &&& hasNextBlock).toNat = 0 :=
    UInt8.toNat_inj.symm
  have bound := byte.toNat_lt
  rw [Ne, zero, highest, Nat.testBit_eq_decide_div_mod_eq]
  by_cases large : 128 ≤ byte.toNat
  · have bit : byte.toNat / 128 % 2 = 1 := by omega
    simp [bit, large]
  · have bit : byte.toNat / 128 % 2 = 0 := by omega
    simp [bit, large]

theorem getElem_of_drop {byte : UInt8} {rest : List UInt8} (drop : buffer.drop pos = byte :: rest) :
    ∃ inside : pos < buffer.length, buffer[pos] = byte ∧ buffer.drop (pos + 1) = rest := by
  have inside : pos < buffer.length := by
    have length := congrArg List.length drop
    rw [List.length_drop, List.length_cons] at length
    omega
  rw [List.drop_eq_getElem_cons inside, List.cons.injEq] at drop
  exact ⟨inside, drop⟩

theorem lastBlock_eq {init rest : List UInt8} {last : UInt8}
    (drop : buffer.drop pos = init ++ last :: rest)
    (more : ∀ byte ∈ init, 128 ≤ byte.toNat) (done : last.toNat < 128) :
    IPCMesg.lastBlock buffer pos = some (pos + init.length) := by
  induction init generalizing pos with
  | nil =>
      rcases getElem_of_drop drop with ⟨inside, found, _⟩
      rw [IPCMesg.lastBlock, dif_pos inside, found, if_neg]
      · rfl
      · exact mt (and_hasNextBlock last).mp (Nat.not_le.mpr done)
  | cons byte init ih =>
      rcases getElem_of_drop drop with ⟨inside, found, remaining⟩
      have next := (and_hasNextBlock byte).mpr (more byte List.mem_cons_self)
      rw [IPCMesg.lastBlock, dif_pos inside, found, if_pos next,
        ih remaining fun byte member => more byte (List.mem_cons_of_mem _ member),
        List.length_cons, Nat.add_assoc, Nat.add_comm 1]

theorem skip_eq (buffer : List UInt8) (pos : ℕ) :
    MicroMsg.skip buffer pos = (IPCMesg.lastBlock buffer pos).map (· + 1) := by
  fun_induction IPCMesg.lastBlock buffer pos with
  | case1 pos inside more ih => rw [MicroMsg.skip, dif_pos inside, if_pos more, ih]
  | case2 pos inside last =>
      rw [MicroMsg.skip, dif_pos inside, if_neg last]
      rfl
  | case3 pos outside =>
      rw [MicroMsg.skip, dif_neg outside]
      rfl

/-- Where an integer ends and which bytes it has. -/
theorem lastBlock_bytes {n : ℕ} {rest : List UInt8}
    (drop : buffer.drop pos = Varint.bytes n ++ rest) :
    ∃ last, IPCMesg.lastBlock buffer pos = some last ∧
      last + 1 = pos + (Varint.bytes n).length ∧
      (buffer.drop pos).take (last + 1 - pos) = Varint.bytes n := by
  rcases Varint.bytes_split n with ⟨init, last, split, more, done⟩
  refine ⟨pos + init.length, ?_, ?_, ?_⟩
  · rw [split, List.append_assoc] at drop
    exact lastBlock_eq drop more done
  · rw [split, List.length_append, List.length_singleton]
    rfl
  · have length : pos + init.length + 1 - pos = (Varint.bytes n).length := by
      rw [split, List.length_append, List.length_singleton]
      omega
    rw [length, drop, List.take_left]

/-- The loop that decodes an integer works modulo the width of the result. -/
theorem decode_eq (w : ℕ) (blocks : List UInt8) :
    blocks.foldr (fun c (result : BitVec w) => (result <<< 7) + (c &&& block).toBitVec.setWidth w)
      0 = BitVec.ofNat w (Varint.value blocks) := by
  induction blocks with
  | nil => rfl
  | cons c blocks ih =>
      rw [List.foldr_cons, ih]
      apply BitVec.eq_of_toNat_eq
      have low : (c &&& block).toBitVec.toNat = c.toNat % 128 := by
        rw [← toNat_and_block]
        exact UInt8.toNat_and c block
      rw [BitVec.toNat_add, BitVec.toNat_shiftLeft, BitVec.toNat_setWidth, low, BitVec.toNat_ofNat,
        BitVec.toNat_ofNat, Nat.shiftLeft_eq]
      show _ = (Varint.value blocks * 128 + c.toNat % 128) % 2 ^ w
      rw [Nat.add_mod (Varint.value blocks * 128), Nat.mul_mod (Varint.value blocks), Nat.mul_mod]
      simp

end Reading

section Fields

variable {buffer : List UInt8} {pos : ℕ}

theorem bytes_bool (value : Bool) :
    Varint.bytes (if value then 1 else 0 : BitVec 8).toNat = [if value then 1 else 0] := by
  cases value with
  | false => exact Varint.bytes_of_lt (n := 0) (by decide)
  | true => exact Varint.bytes_of_lt (n := 1) (by decide)

theorem bytes_ofBool (value : Bool) :
    Varint.bytes (BitVec.ofBool value).toNat = [if value then 1 else 0] := by
  cases value with
  | false => exact Varint.bytes_of_lt (n := 0) (by decide)
  | true => exact Varint.bytes_of_lt (n := 1) (by decide)

/-- Both classes write the bytes of a field. -/
theorem IPCMesg.put_eq (mesg : IPCMesg) (field : Field) :
    mesg.put field = (memcpy mesg.buffer mesg.pos field.bytes).map fun buffer =>
      { buffer := buffer, pos := mesg.pos + field.bytes.length } := by
  cases field with
  | uint number => exact write_eq number
  | bool value =>
      show mesg.write _ = _
      rw [write_eq, bytes_bool]
      rfl
  | blob bytes => rfl

theorem MicroMsg.put_eq (mesg : MicroMsg) (field : Field) :
    mesg.put field = (memcpy mesg.buffer mesg.pos field.bytes).map fun buffer =>
      { buffer := buffer, pos := mesg.pos + field.bytes.length } := by
  cases field with
  | uint number => exact write_eq number
  | bool value =>
      show mesg.write _ = _
      rw [write_eq, bytes_ofBool]
      rfl
  | blob bytes => rfl

theorem IPCMesg.putAll_eq (mesg : IPCMesg) (inside : mesg.pos ≤ mesg.buffer.length)
    (fields : List Field) :
    mesg.putAll fields =
      (memcpy mesg.buffer mesg.pos (fields.flatMap Field.bytes)).map fun buffer =>
        { buffer := buffer, pos := mesg.pos + (fields.flatMap Field.bytes).length } := by
  induction fields generalizing mesg with
  | nil =>
      show some mesg = Option.map _ (memcpy _ _ [])
      rw [memcpy_nil inside]
      rfl
  | cons field fields ih =>
      rw [putAll, put_eq, List.flatMap_cons, memcpy_append]
      cases written : memcpy mesg.buffer mesg.pos field.bytes with
      | none => rfl
      | some buffer =>
          rw [Option.map_some, Option.bind_some, Option.bind_some, ih, List.length_append,
            Nat.add_assoc]
          exact pos_le_of_memcpy written

theorem MicroMsg.putAll_eq (mesg : MicroMsg) (inside : mesg.pos ≤ mesg.buffer.length)
    (fields : List Field) :
    mesg.putAll fields =
      (memcpy mesg.buffer mesg.pos (fields.flatMap Field.bytes)).map fun buffer =>
        { buffer := buffer, pos := mesg.pos + (fields.flatMap Field.bytes).length } := by
  induction fields generalizing mesg with
  | nil =>
      show some mesg = Option.map _ (memcpy _ _ [])
      rw [memcpy_nil inside]
      rfl
  | cons field fields ih =>
      rw [putAll, put_eq, List.flatMap_cons, memcpy_append]
      cases written : memcpy mesg.buffer mesg.pos field.bytes with
      | none => rfl
      | some buffer =>
          rw [Option.map_some, Option.bind_some, Option.bind_some, ih, List.length_append,
            Nat.add_assoc]
          exact pos_le_of_memcpy written

theorem fits_of_drop {bytes rest : List UInt8} (inside : pos ≤ buffer.length)
    (drop : buffer.drop pos = bytes ++ rest) : pos + bytes.length ≤ buffer.length := by
  have length := congrArg List.length drop
  rw [List.length_drop, List.length_append] at length
  omega

theorem IPCMesg.read_eq {w : ℕ} (mesg : IPCMesg) (number : BitVec w) {rest : List UInt8}
    (drop : mesg.buffer.drop mesg.pos = Varint.bytes number.toNat ++ rest) :
    mesg.read w = some (number,
      { mesg with pos := mesg.pos + (Varint.bytes number.toNat).length }) := by
  rcases lastBlock_bytes drop with ⟨last, found, behind, blocks⟩
  have decoded : BitVec.ofNat w number.toNat = number := by
    rw [BitVec.ofNat_toNat, BitVec.setWidth_eq]
  simp only [read, found, Option.map_some, blocks]
  rw [decode_eq, Varint.value_bytes, decoded, behind]

/-- Both classes read a field back from its bytes. -/
theorem IPCMesg.get_eq (mesg : IPCMesg) (inside : mesg.pos ≤ mesg.buffer.length) (field : Field)
    {rest : List UInt8} (drop : mesg.buffer.drop mesg.pos = field.bytes ++ rest) :
    mesg.get field.type = some (field, { mesg with pos := mesg.pos + field.bytes.length }) := by
  cases field with
  | uint number =>
      show (mesg.read _).map _ = _
      rw [read_eq mesg number drop]
      rfl
  | bool value =>
      show ((mesg.read 8).map _).map _ = _
      rw [read_eq mesg (if value then 1 else 0 : BitVec 8) (by rw [bytes_bool]; exact drop),
        bytes_bool]
      cases value <;> rfl
  | blob bytes =>
      have taken : (mesg.buffer.drop mesg.pos).take bytes.length = bytes := by
        rw [drop]
        exact List.take_left
      have fits : mesg.pos + bytes.length ≤ mesg.buffer.length := fits_of_drop inside drop
      show (mesg.readBlob bytes.length).map _ = _
      rw [readBlob, if_pos fits, taken]
      rfl

theorem MicroMsg.read_eq {w : ℕ} (mesg : MicroMsg) (number : BitVec w) {rest : List UInt8}
    (drop : mesg.buffer.drop mesg.pos = Varint.bytes number.toNat ++ rest) :
    mesg.read w = some (number,
      { mesg with pos := mesg.pos + (Varint.bytes number.toNat).length }) := by
  rcases lastBlock_bytes drop with ⟨last, found, behind, blocks⟩
  have decoded : BitVec.ofNat w number.toNat = number := by
    rw [BitVec.ofNat_toNat, BitVec.setWidth_eq]
  simp only [read, skip_eq, found, Option.map_some, blocks]
  rw [decode_eq, Varint.value_bytes, decoded, behind]

theorem MicroMsg.get_eq (mesg : MicroMsg) (inside : mesg.pos ≤ mesg.buffer.length) (field : Field)
    {rest : List UInt8} (drop : mesg.buffer.drop mesg.pos = field.bytes ++ rest) :
    mesg.get field.type = some (field, { mesg with pos := mesg.pos + field.bytes.length }) := by
  cases field with
  | uint number =>
      show (mesg.read _).map _ = _
      rw [read_eq mesg number drop]
      rfl
  | bool value =>
      have listed : mesg.buffer.drop mesg.pos =
          Varint.bytes (BitVec.ofBool value).toNat ++ rest := by
        rw [bytes_ofBool]
        exact drop
      rcases lastBlock_bytes listed with ⟨last, found, behind, blocks⟩
      rw [bytes_ofBool] at blocks behind
      show (mesg.readBool).map _ = _
      simp only [readBool, skip_eq, found, Option.map_some, blocks]
      rw [behind]
      cases value <;> rfl
  | blob bytes =>
      have taken : (mesg.buffer.drop mesg.pos).take bytes.length = bytes := by
        rw [drop]
        exact List.take_left
      have fits : mesg.pos + bytes.length ≤ mesg.buffer.length := fits_of_drop inside drop
      show (mesg.readBlob bytes.length).map _ = _
      rw [readBlob, if_pos fits, taken]
      rfl

theorem IPCMesg.getAll_eq (mesg : IPCMesg) (inside : mesg.pos ≤ mesg.buffer.length)
    (fields : List Field) {rest : List UInt8}
    (drop : mesg.buffer.drop mesg.pos = fields.flatMap Field.bytes ++ rest) :
    mesg.getAll (fields.map Field.type) = some (fields,
      { mesg with pos := mesg.pos + (fields.flatMap Field.bytes).length }) := by
  induction fields generalizing mesg with
  | nil => rfl
  | cons field fields ih =>
      rw [List.flatMap_cons, List.append_assoc] at drop
      have remaining : mesg.buffer.drop (mesg.pos + field.bytes.length) =
          fields.flatMap Field.bytes ++ rest := by
        rw [← List.drop_drop, drop, List.drop_left]
      have later := ih { mesg with pos := mesg.pos + field.bytes.length }
        (fits_of_drop inside drop) remaining
      rw [List.map_cons, getAll, get_eq mesg inside field drop, Option.bind_some]
      simp only [later, Option.map_some, List.flatMap_cons, List.length_append, Nat.add_assoc]

theorem MicroMsg.getAll_eq (mesg : MicroMsg) (inside : mesg.pos ≤ mesg.buffer.length)
    (fields : List Field) {rest : List UInt8}
    (drop : mesg.buffer.drop mesg.pos = fields.flatMap Field.bytes ++ rest) :
    mesg.getAll (fields.map Field.type) = some (fields,
      { mesg with pos := mesg.pos + (fields.flatMap Field.bytes).length }) := by
  induction fields generalizing mesg with
  | nil => rfl
  | cons field fields ih =>
      rw [List.flatMap_cons, List.append_assoc] at drop
      have remaining : mesg.buffer.drop (mesg.pos + field.bytes.length) =
          fields.flatMap Field.bytes ++ rest := by
        rw [← List.drop_drop, drop, List.drop_left]
      have later := ih { mesg with pos := mesg.pos + field.bytes.length }
        (fits_of_drop inside drop) remaining
      rw [List.map_cons, getAll, get_eq mesg inside field drop, Option.bind_some]
      simp only [later, Option.map_some, List.flatMap_cons, List.length_append, Nat.add_assoc]

end Fields

/-- Fields that fit into the buffer are read back as they were written, in either class, and the
two classes write the same bytes: for an integer these are its groups of seven bits, the least
significant group first, and no sequence is shorter. -/
theorem messages_roundTrip (fields : List Field) (buffer : List UInt8) (pos : ℕ)
    (fits : pos + (fields.flatMap Field.bytes).length ≤ buffer.length) :
    ∃ written behind,
      (IPCMesg.putAll ⟨buffer, pos⟩ fields = some ⟨written, behind⟩ ∧
        IPCMesg.getAll ⟨written, pos⟩ (fields.map Field.type) = some (fields, ⟨written, behind⟩)) ∧
      (MicroMsg.putAll ⟨buffer, pos⟩ fields = some ⟨written, behind⟩ ∧
        MicroMsg.getAll ⟨written, pos⟩ (fields.map Field.type) =
          some (fields, ⟨written, behind⟩)) ∧
      ∀ (w : ℕ) (number : BitVec w) (buffer : List UInt8) (pos : ℕ),
        (IPCMesg.write ⟨buffer, pos⟩ number).map (fun mesg => (mesg.buffer, mesg.pos)) =
          (MicroMsg.write ⟨buffer, pos⟩ number).map (fun mesg => (mesg.buffer, mesg.pos)) ∧
        (IPCMesg.write ⟨buffer, pos⟩ number).map (fun mesg => mesg.buffer) =
          memcpy buffer pos (Varint.bytes number.toNat) ∧
        (Varint.bytes number.toNat).map (fun byte => byte.toNat % 128) =
          Varint.groups number.toNat ∧
        ∀ k, 0 < k → ((Varint.bytes number.toNat).length ≤ k ↔ number.toNat < 128 ^ k) := by
  have inside : pos ≤ buffer.length := Nat.le_of_add_right_le fits
  have copied : ∃ written, memcpy buffer pos (fields.flatMap Field.bytes) = some written :=
    ⟨_, if_pos fits⟩
  rcases copied with ⟨written, copied⟩
  rcases drop_of_memcpy copied with ⟨rest, drop⟩
  have inside' : pos ≤ written.length := Nat.le_of_add_right_le (pos_le_of_memcpy copied)
  refine ⟨written, pos + (fields.flatMap Field.bytes).length, ⟨?_, ?_⟩, ⟨?_, ?_⟩, ?_⟩
  · rw [IPCMesg.putAll_eq _ inside, copied]
    rfl
  · exact IPCMesg.getAll_eq ⟨written, pos⟩ inside' fields drop
  · rw [MicroMsg.putAll_eq _ inside, copied]
    rfl
  · exact MicroMsg.getAll_eq ⟨written, pos⟩ inside' fields drop
  · intro w number buffer pos
    refine ⟨?_, ?_, Varint.map_bytes _, fun k => Varint.length_bytes_le_iff⟩
    · rw [IPCMesg.write_eq, MicroMsg.write_eq, Option.map_map, Option.map_map]
      rfl
    · rw [IPCMesg.write_eq, Option.map_map]
      show Option.map id (memcpy buffer pos (Varint.bytes number.toNat)) = _
      rw [Option.map_id]
      rfl

/-- Three fields in a buffer of eight bytes. -/
theorem messages_roundTrip_three :
    ∃ written behind,
      MicroMsg.putAll ⟨List.replicate 8 0, 1⟩ [.uint (500 : BitVec 32), .bool true, .blob [7, 8]] =
        some ⟨written, behind⟩ ∧
      MicroMsg.getAll ⟨written, 1⟩ [.uint 32, .bool, .blob 2] =
        some ([.uint (500 : BitVec 32), .bool true, .blob [7, 8]], ⟨written, behind⟩) := by
  have fits : 1 + ([Field.uint (500 : BitVec 32), .bool true, .blob [7, 8]].flatMap
      Field.bytes).length ≤ (List.replicate 8 (0 : UInt8)).length := by
    have number : (Varint.bytes (500 : BitVec 32).toNat).length ≤ 2 :=
      (Varint.length_bytes_le_iff (by decide)).mpr (by decide)
    simp only [List.flatMap_cons, List.flatMap_nil, Field.bytes, List.length_append,
      List.length_cons, List.length_nil, List.length_replicate]
    omega
  rcases messages_roundTrip _ _ _ fits with ⟨written, behind, _, ⟨put, get⟩, _⟩
  exact ⟨written, behind, put, get⟩

end Talpf
