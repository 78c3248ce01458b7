import NetworkingLabs.RtpWire
import NetworkingLabs.ShiftRegister

/-!
# The checksum of RTP packets

The loop of `crc32` goes through the complements of the registers of the bitwise CRC-32, so the
checksum is CRC-32, and a burst of at most 32 wrong bits is always noticed.
-/
namespace NetworkingLabs.Rtp
open ShiftRegister

section Reference

def byteBits (b : UInt8) : List Bool := (List.range 8).map b.toBitVec.getLsbD

def bits (bs : List UInt8) : List Bool := bs.flatMap byteBits

def crcPoly : BitVec 32 := 0xEDB88320

/-- CRC-32 by its definition: from all ones, bit by bit, and complemented. -/
def crc32Bitwise (bs : List UInt8) : UInt32 := ⟨~~~run crcPoly (.allOnes 32) (bits bs)⟩

end Reference

section Table

def crcTable : List UInt32 := (List.range 0x100).map fun i => crc32ForByte (UInt32.ofNat i)

/-- `if(!*table)` fills the static table; what a call finds there becomes what it looks up. -/
def fillTable (table : List UInt32) : List UInt32 := if table.headD 0 = 0 then crcTable else table

private theorem crcTable_getElem? (b : UInt8) :
    crcTable[b.toNat]? = some (crc32ForByte b.toUInt32) := by
  have hb : b.toNat < 0x100 := b.toNat_lt
  have hword : UInt32.ofNat b.toNat = b.toUInt32 := by
    rw [← UInt32.toNat_inj, UInt32.toNat_ofNat', UInt8.toNat_toUInt32]
    exact Nat.mod_eq_of_lt (by omega)
  rw [crcTable, List.getElem?_map, List.getElem?_range hb, Option.map_some, hword]

/-- The loop of `crc32` with the look-ups in the table that it found or filled. -/
def crc32Lookup (table : List UInt32) (data : List UInt8) (crc : UInt32) : UInt32 :=
  data.foldl (fun crc b => (fillTable table).getD (crc.toUInt8 ^^^ b).toNat 0 ^^^ crc >>> 8) crc

/-- From its first call on, `crc32` finds the same table. -/
theorem fillTable_calls (n : ℕ) :
    fillTable (fillTable^[n] (List.replicate 0x100 0)) = crcTable := by
  have hfirst : crcTable.headD 0 ≠ 0 := by decide
  induction n with
  | zero => rfl
  | succ n ih => rw [Function.iterate_succ_apply', ih, fillTable, if_neg hfirst]

/-- Every call of `crc32` looks up the values of `crc32_for_byte`. -/
theorem crc32Lookup_eq (n : ℕ) (data : List UInt8) (crc : UInt32) :
    crc32Lookup (fillTable^[n] (List.replicate 0x100 0)) data crc = crc32 data crc := by
  have hentry : ∀ b : UInt8, crcTable.getD b.toNat 0 = crc32ForByte b.toUInt32 := by
    intro b
    rw [List.getD_eq_getElem?_getD, crcTable_getElem?, Option.getD_some]
  simp only [crc32Lookup, fillTable_calls, hentry]
  rfl

end Table

section Register

private theorem crc32Shift_eq (r : UInt32) :
    (crc32Shift r).toBitVec = shift crcPoly r.toBitVec ^^^ crcPoly := by
  have hlow : r &&& 1 = 0 ↔ r.toBitVec.getLsbD 0 = false := by
    rw [← UInt32.toBitVec_inj, UInt32.toBitVec_and]
    have hone : r.toBitVec &&& UInt32.toBitVec 1 =
        (BitVec.ofBool (r.toBitVec.getLsbD 0)).setWidth 32 :=
      BitVec.and_one_eq_setWidth_ofBool_getLsbD
    rw [hone]
    cases r.toBitVec.getLsbD 0 <;> decide
  have hdown : (r >>> 1).toBitVec = r.toBitVec >>> 1 := rfl
  cases h : r.toBitVec.getLsbD 0 with
  | false =>
    rw [crc32Shift, if_pos (hlow.mpr h), UInt32.toBitVec_xor, hdown, shift, h]
    simp [crcPoly, BitVec.xor_comm]
  | true =>
    rw [crc32Shift, if_neg (by simp [hlow, h]), UInt32.toBitVec_xor, hdown, shift, h, if_pos rfl,
      BitVec.xor_comm crcPoly, BitVec.xor_assoc, BitVec.xor_self]
    simp

/-- The complement that the table folds in does not depend on the byte. -/
theorem iterate_crc32Shift (n : ℕ) (r : UInt32) : (crc32Shift^[n] r).toBitVec =
    (shift crcPoly)^[n] r.toBitVec ^^^ (crc32Shift^[n] 0).toBitVec := by
  have hzero : crcPoly = (crc32Shift 0).toBitVec := by decide
  induction n generalizing r with
  | zero => exact (BitVec.xor_zero).symm
  | succ n ih =>
    have hpoly := ih (crc32Shift 0)
    rw [← hzero] at hpoly
    rw [Function.iterate_succ_apply, Function.iterate_succ_apply, Function.iterate_succ_apply,
      ih, hpoly, crc32Shift_eq, iterate_shift_xor, BitVec.xor_assoc]

private theorem crc32ForByte_eq (r : UInt32) :
    (crc32ForByte r).toBitVec = (shift crcPoly)^[8] r.toBitVec ^^^ 0xD202EF8D#32 := by
  have hconst : (crc32Shift^[8] 0).toBitVec ^^^ 0xFF000000#32 = 0xD202EF8D#32 := by decide
  have hmask : (0xFF000000 : UInt32).toBitVec = 0xFF000000#32 := rfl
  rw [crc32ForByte, UInt32.toBitVec_xor, iterate_crc32Shift, hmask, BitVec.xor_assoc, hconst]

private theorem word_byteBits (b : UInt8) : word 32 (byteBits b) = b.toBitVec.setWidth 32 := by
  apply BitVec.eq_of_getLsbD_eq
  intro i hi
  rw [getLsbD_word, byteBits]
  by_cases h8 : i < 8
  · simp [hi, h8]
  · have hnone : b.toBitVec.getLsbD i = false := BitVec.getLsbD_of_ge _ _ (not_lt.mp h8)
    simp [h8, hi, hnone]

private theorem run_byteBits (r : BitVec 32) (b : UInt8) :
    run crcPoly r (byteBits b) = (shift crcPoly)^[8] (r ^^^ b.toBitVec.setWidth 32) := by
  have hlen : (byteBits b).length = 8 := by simp [byteBits]
  rw [run_eq_iterate (by omega), hlen, word_byteBits]

/-- A register is its lowest byte and the rest of it. -/
theorem split_byte (r : BitVec 32) (b : UInt8) : r ^^^ b.toBitVec.setWidth 32 =
    (((~~~r).setWidth 8 ^^^ b.toBitVec).setWidth 32 ^^^ 0xFF#32) ^^^ r >>> 8 <<< 8 := by
  have hmask : ∀ i < 32, (0xFF#32).getLsbD i = decide (i < 8) := by decide
  apply BitVec.eq_of_getLsbD_eq
  intro i hi
  simp only [BitVec.getLsbD_xor, BitVec.getLsbD_setWidth, BitVec.getLsbD_shiftLeft,
    BitVec.getLsbD_ushiftRight, BitVec.getLsbD_not, hmask i hi, hi, decide_true, Bool.true_and]
  by_cases h8 : i < 8
  · cases r.getLsbD i <;> cases b.toBitVec.getLsbD i <;> simp [h8]
  · have hb : b.toBitVec.getLsbD i = false := BitVec.getLsbD_of_ge _ _ (not_lt.mp h8)
    have hback : 8 + (i - 8) = i := by omega
    simp [h8, hb, hback]

private theorem crc32_turn (r : BitVec 32) (crc : UInt32) (hcrc : crc.toBitVec = ~~~r) (b : UInt8) :
    (crc32ForByte (crc.toUInt8 ^^^ b).toUInt32 ^^^ crc >>> 8).toBitVec =
      ~~~run crcPoly r (byteBits b) := by
  have hindex : ((crc.toUInt8 ^^^ b).toUInt32).toBitVec =
      ((~~~r).setWidth 8 ^^^ b.toBitVec).setWidth 32 := by
    rw [← hcrc]
    rfl
  have hrest : (crc >>> 8).toBitVec = r >>> 8 ^^^ 0x00FFFFFF#32 := by
    have hdown : (crc >>> 8).toBitVec = crc.toBitVec >>> 8 := rfl
    have hmask : (BitVec.allOnes 32) >>> 8 = 0x00FFFFFF#32 := by decide
    rw [hdown, hcrc, ← BitVec.xor_allOnes, BitVec.ushiftRight_xor_distrib, hmask]
  have hclear : ∀ i < 8, (r >>> 8 <<< 8).getLsbD i = false := by
    intro i hi
    simp [hi]
  have hhigh : r >>> 8 <<< 8 >>> 8 = r >>> 8 := by
    apply BitVec.eq_of_getLsbD_eq
    intro i hi
    have hback : 8 + (8 + i - 8) = 8 + i := by omega
    simp only [BitVec.getLsbD_ushiftRight, BitVec.getLsbD_shiftLeft, hback]
    by_cases h : 8 + i < 32
    · simp [h]
    · have hnone : r.getLsbD (8 + i) = false := BitVec.getLsbD_of_ge _ _ (not_lt.mp h)
      simp [hnone]
  have hbyte : (shift crcPoly)^[8] 0xFF#32 = 0x2D02EF8D#32 := by decide
  have hconst : 0xD202EF8D#32 ^^^ 0x00FFFFFF#32 = 0x2D02EF8D#32 ^^^ BitVec.allOnes 32 := by decide
  rw [UInt32.toBitVec_xor, crc32ForByte_eq, hindex, hrest, run_byteBits, split_byte,
    iterate_shift_split 8 _ _ hclear, iterate_shift_xor, hbyte, hhigh]
  generalize (shift crcPoly)^[8] (((~~~r).setWidth 8 ^^^ b.toBitVec).setWidth 32) = t
  calc t ^^^ 0xD202EF8D#32 ^^^ (r >>> 8 ^^^ 0x00FFFFFF#32)
      = t ^^^ r >>> 8 ^^^ (0xD202EF8D#32 ^^^ 0x00FFFFFF#32) := by ac_rfl
    _ = t ^^^ 0x2D02EF8D#32 ^^^ r >>> 8 ^^^ BitVec.allOnes 32 := by rw [hconst]; ac_rfl
    _ = ~~~(t ^^^ 0x2D02EF8D#32 ^^^ r >>> 8) := BitVec.xor_allOnes

/-- The loop of `crc32` goes through the complements of the registers. -/
theorem crc32_eq (data : List UInt8) (r : BitVec 32) (crc : UInt32) (hcrc : crc.toBitVec = ~~~r) :
    (crc32 data crc).toBitVec = ~~~run crcPoly r (bits data) := by
  induction data generalizing r crc with
  | nil => exact hcrc
  | cons b data ih =>
    have hrest := ih (run crcPoly r (byteBits b)) _ (crc32_turn r crc hcrc b)
    rw [← run_append] at hrest
    exact hrest

theorem computeChecksum_run (bs : List UInt8) :
    (computeChecksum bs).toBitVec = ~~~run crcPoly (.allOnes 32) (bits bs) := by
  have hstart : (0 : UInt32).toBitVec = ~~~BitVec.allOnes 32 := by decide
  exact crc32_eq bs (.allOnes 32) 0 hstart

/-- The checksum is CRC-32. -/
theorem computeChecksum_eq_crc32 (bs : List UInt8) : computeChecksum bs = crc32Bitwise bs :=
  UInt32.toBitVec_inj.mp (computeChecksum_run bs)

/-- The check value of CRC-32, over the digits 1 to 9. -/
example : crc32Bitwise [0x31, 0x32, 0x33, 0x34, 0x35, 0x36, 0x37, 0x38, 0x39] = 0xCBF43926 := by
  decide +kernel

end Register

section Bits

variable {xs ys : List UInt8} {i k : ℕ}

theorem bits_getElem? (bs : List UInt8) (i : ℕ) :
    (bits bs)[i]? = bs[i / 8]?.map fun b => b.toBitVec.getLsbD (i % 8) := by
  induction bs generalizing i with
  | nil => simp [bits]
  | cons b bs ih =>
    have hcons : bits (b :: bs) = byteBits b ++ bits bs := rfl
    have hlen : (byteBits b).length = 8 := by simp [byteBits]
    rw [hcons]
    rcases Nat.lt_or_ge i 8 with hi | hi
    · have hdiv : i / 8 = 0 := Nat.div_eq_of_lt hi
      rw [List.getElem?_append_left (by omega), hdiv, Nat.mod_eq_of_lt hi]
      simp [byteBits, hi]
    · obtain ⟨j, rfl⟩ := Nat.exists_eq_add_of_le hi
      have hdiv : (8 + j) / 8 = j / 8 + 1 := by omega
      have hmod : (8 + j) % 8 = j % 8 := by omega
      rw [List.getElem?_append_right (by omega), hlen, Nat.add_sub_cancel_left, ih, hdiv, hmod,
        List.getElem?_cons_succ]

theorem length_bits (bs : List UInt8) : (bits bs).length = 8 * bs.length := by
  induction bs with
  | nil => rfl
  | cons b bs ih =>
    have hcons : bits (b :: bs) = byteBits b ++ bits bs := rfl
    rw [hcons, List.length_append, ih, List.length_cons]
    simp only [byteBits, List.length_map, List.length_range]
    omega

private theorem byteBits_injective {b c : UInt8} (h : byteBits b = byteBits c) : b = c := by
  have hword := congrArg (word 32) h
  rw [word_byteBits, word_byteBits] at hword
  apply UInt8.toBitVec_inj.mp
  have hback := congrArg (BitVec.setWidth 8) hword
  simpa using hback

theorem bits_injective (hlen : xs.length = ys.length) (h : bits xs = bits ys) : xs = ys := by
  induction xs generalizing ys with
  | nil => exact (List.length_eq_zero_iff.mp hlen.symm).symm
  | cons x xs ih =>
    cases ys with
    | nil => cases hlen
    | cons y ys =>
      have hlen8 : (byteBits x).length = (byteBits y).length := by simp [byteBits]
      obtain ⟨hfirst, hrest⟩ := List.append_inj h hlen8
      rw [byteBits_injective hfirst, ih (Nat.succ.inj hlen) hrest]

/-- Bytes that differ, but only in at most 32 consecutive bits, have different checksums. -/
theorem computeChecksum_ne_of_burst (hlen : xs.length = ys.length) (hne : xs ≠ ys)
    (hburst : ∀ i : ℕ, (bits xs)[i]? ≠ (bits ys)[i]? → k ≤ i ∧ i < k + 32) :
    computeChecksum xs ≠ computeChecksum ys := by
  have hbits : (bits xs).length = (bits ys).length := by rw [length_bits, length_bits, hlen]
  have htop : crcPoly.msb = true := by decide
  have hrun := run_ne_of_burst htop hbits hburst
    (mt (bits_injective hlen) hne) (.allOnes 32)
  intro heq
  apply hrun
  have hsame := congrArg UInt32.toBitVec heq
  rw [computeChecksum_run, computeChecksum_run] at hsame
  exact BitVec.not_inj.mp hsame

end Bits

section Packets

variable {p q : WirePacket} {mem : Buffer payloadSize} {type : UInt8} {length : UInt16}
variable {seqNum : UInt32} {d pl : List UInt8} {k : ℕ}

/-- `RTP_header(type, length, seq)`; the one without arguments is this one with zeros. -/
def RtpHeader.make (type : UInt8) (length : UInt16) (seqNum : UInt32) : RtpHeader :=
  ⟨type, length, seqNum, 0⟩

/-- `RTP_packet(header, payload)`, whose payload is a string that ends with a zero. -/
def WirePacket.makeFrom (mem : Buffer payloadSize) (rtp : RtpHeader) (pl : Option (List UInt8)) :
    Option WirePacket := do
  let string := (pl.getD []).takeWhile (· ≠ 0)
  let payload ← copyIn mem string string.length
  let p : WirePacket := ⟨rtp, payload⟩
  some { p with rtp.checksum := computeChecksum (p.bytes.take (rtp.length.toNat + headerSize)) }

/-- A packet from one of the constructors, with at most `PAYLOAD_SIZE-1` payload bytes. -/
inductive WirePacket.Built : WirePacket → Prop
  | make {p : WirePacket} (mem : Buffer payloadSize) (type : UInt8) {length : UInt16}
      (seqNum : UInt32) (pl : Option (List UInt8)) (hroom : length.toNat ≤ payloadSize - 1)
      (h : WirePacket.make mem type length seqNum pl = some p) : p.Built
  | makeString {p : WirePacket} (mem : Buffer payloadSize) (type : UInt8) (seqNum : UInt32)
      (pl : Option (List UInt8)) (h : WirePacket.makeString mem type seqNum pl = some p) : p.Built
  | makeFrom {p : WirePacket} (mem : Buffer payloadSize) (type : UInt8) {length : UInt16}
      (seqNum : UInt32) (pl : Option (List UInt8)) (hroom : length.toNat ≤ payloadSize - 1)
      (h : WirePacket.makeFrom mem (.make type length seqNum) pl = some p) : p.Built

private theorem sealed_of_checksum (rtp : RtpHeader) (payload : Buffer payloadSize) {c : UInt32}
    (hroom : rtp.length.toNat < payloadSize) (hc : c = WirePacket.checksum ⟨rtp, payload⟩) :
    WirePacket.Sealed ⟨{ rtp with checksum := c }, payload⟩ := by
  refine ⟨hroom, hc.trans ?_⟩
  rw [WirePacket.checksum_eq]
  rfl

private theorem sealed_of_fillIn_room (hroom : length.toNat < payloadSize)
    (h : WirePacket.fillIn mem type length seqNum pl = some p) : p.Sealed := by
  cases hcopy : copyIn mem pl pl.length with
  | none => simp [WirePacket.fillIn, hcopy] at h
  | some payload =>
    simp only [WirePacket.fillIn, hcopy, Option.bind_eq_bind, Option.bind_some] at h
    cases h
    exact sealed_of_checksum ⟨type, length, seqNum, 0⟩ payload hroom rfl

theorem WirePacket.Built.sealed (h : p.Built) : p.Sealed := by
  have hsize : payloadSize - 1 < payloadSize := by decide
  cases h with
  | make mem type seqNum pl hroom h =>
    have hlt := hroom.trans_lt hsize
    unfold WirePacket.make at h
    split at h
    · split_ifs at h
      exact sealed_of_fillIn_room hlt h
    · exact sealed_of_fillIn_room hlt h
  | makeString mem type seqNum pl h =>
    unfold WirePacket.makeString at h
    generalize (pl.getD []).takeWhile (· ≠ 0) = string at h
    have hroom : string.length < payloadSize := by
      by_contra hover
      simp [WirePacket.fillIn, copyIn_none mem string (not_lt.mp hover)] at h
    have hlen : (UInt16.ofNat string.length).toNat = string.length := by
      rw [UInt16.toNat_ofNat']
      exact Nat.mod_eq_of_lt (hroom.trans (by decide))
    exact sealed_of_fillIn_room (by rwa [hlen]) h
  | makeFrom mem type seqNum pl hroom h =>
    unfold WirePacket.makeFrom at h
    generalize (pl.getD []).takeWhile (· ≠ 0) = string at h
    cases hcopy : copyIn mem string string.length with
    | none => simp [hcopy] at h
    | some payload =>
      simp only [hcopy, Option.bind_eq_bind, Option.bind_some] at h
      cases h
      exact sealed_of_checksum (.make type _ seqNum) payload (hroom.trans_lt hsize) rfl

end Packets

section Bursts

variable {p q : WirePacket} {d e xs ys pl pl' : List UInt8} {h h' : RtpHeader} {i k : ℕ}

def InLengthOrChecksum (i : ℕ) : Prop := (8 ≤ i ∧ i < 24) ∨ (56 ≤ i ∧ i < 88)

/-- The datagrams differ only in some 32 consecutive bits outside the two fields. -/
def Burst (d e : List UInt8) : Prop := ∃ k, ∀ i : ℕ, (bits d)[i]? ≠ (bits e)[i]? →
  (k ≤ i ∧ i < k + 32) ∧ ¬ InLengthOrChecksum i

private theorem getElem?_of_bits {j : ℕ}
    (hbits : ∀ i < 8, (bits xs)[8 * j + i]? = (bits ys)[8 * j + i]?) : xs[j]? = ys[j]? := by
  have hbit : ∀ i < 8, xs[j]?.map (fun b => b.toBitVec.getLsbD i) =
      ys[j]?.map fun b => b.toBitVec.getLsbD i := by
    intro i hi
    have hdiv : (8 * j + i) / 8 = j := by omega
    have hmod : (8 * j + i) % 8 = i := by omega
    have hb := hbits i hi
    rwa [bits_getElem?, bits_getElem?, hdiv, hmod] at hb
  cases hx : xs[j]? with
  | none =>
    have h0 := hbit 0 (by decide)
    rw [hx] at h0
    exact (Option.map_eq_none_iff.mp h0.symm).symm
  | some x =>
    cases hy : ys[j]? with
    | none =>
      have h0 := hbit 0 (by decide)
      simp [hx, hy] at h0
    | some y =>
      congr 1
      apply UInt8.toBitVec_inj.mp
      apply BitVec.eq_of_getLsbD_eq
      intro i hi
      have hbi := hbit i hi
      rw [hx, hy] at hbi
      exact Option.some.inj hbi

theorem field_eq {a n : ℕ}
    (hbits : ∀ i, 8 * a ≤ i → i < 8 * (a + n) → (bits xs)[i]? = (bits ys)[i]?) :
    (xs.drop a).take n = (ys.drop a).take n := by
  apply List.ext_getElem?
  intro j
  rw [List.getElem?_take, List.getElem?_take]
  split_ifs with hj
  · rw [List.getElem?_drop, List.getElem?_drop]
    exact getElem?_of_bits fun i hi => hbits _ (by omega) (by omega)
  · rfl

private theorem differ_middle {α : Type} {a a' b b' c z : List α} (ha : a.length = a'.length)
    (hc : c.length = z.length) (hne : (a ++ z ++ b)[i]? ≠ (a' ++ z ++ b')[i]?) :
    (a ++ c ++ b)[i]? ≠ (a' ++ c ++ b')[i]? := by
  simp only [List.append_assoc, List.getElem?_append, ← ha, ← hc] at hne ⊢
  by_cases hfront : i < a.length
  · simpa only [if_pos hfront] using hne
  · by_cases hmiddle : i - a.length < c.length
    · simp only [if_neg hfront, if_pos hmiddle, ne_eq, not_true] at hne
    · simpa only [if_neg hfront, if_neg hmiddle] using hne

def RtpHeader.front (h : RtpHeader) : List UInt8 :=
  h.type :: (bytesLE 2 h.length.toNat ++ bytesLE 4 h.seqNum.toNat)

theorem RtpHeader.bytes_eq (h : RtpHeader) : h.bytes = h.front ++ bytesLE 4 h.checksum.toNat := rfl

theorem bits_append (xs ys : List UInt8) : bits (xs ++ ys) = bits xs ++ bits ys :=
  List.flatMap_append

/-- Headers and data that differ in a burst, but not in their checksums, ask for different ones. -/
theorem checksumOf_ne (hlen : pl.length = pl'.length) (hsum : h.checksum = h'.checksum)
    (hne : h.bytes ++ pl ≠ h'.bytes ++ pl')
    (hburst : ∀ i : ℕ, (bits (h.bytes ++ pl))[i]? ≠ (bits (h'.bytes ++ pl'))[i]? →
      k ≤ i ∧ i < k + 32) : checksumOf h pl ≠ checksumOf h' pl' := by
  have hfront : h.front.length = h'.front.length := by simp [RtpHeader.front]
  have hbits : ∀ (h : RtpHeader) pl, bits (h.bytes ++ pl) =
      bits h.front ++ bits (bytesLE 4 h.checksum.toNat) ++ bits pl := by
    intro h pl
    rw [RtpHeader.bytes_eq, bits_append, bits_append]
  apply computeChecksum_ne_of_burst (k := k)
  · simp [hlen]
  · intro heq
    apply hne
    obtain ⟨hheader, hpl⟩ := List.append_inj heq (by simp)
    obtain ⟨hsame, -⟩ := List.append_inj hheader hfront
    have hsame' : h.front = h'.front := hsame
    rw [RtpHeader.bytes_eq, RtpHeader.bytes_eq, hsame', hsum, hpl]
  · intro i hi
    apply hburst
    rw [hbits, hbits] at hi ⊢
    rw [hsum]
    refine differ_middle ?_ ?_ hi
    · rw [length_bits, length_bits, hfront]
    · rw [length_bits, length_bits, length_bytesLE, length_bytesLE]

/-- A whole datagram with another checksum than its own is damaged and refused. -/
theorem refused_of_checksum_ne (hlen : (headerOf d).length.toNat + headerSize = d.length)
    (hroom : (headerOf d).length.toNat < payloadSize)
    (hdiffer : (headerOf d).checksum ≠ checksumOf (headerOf d) (d.drop headerSize)) :
    (∀ q, sendRTP q = d → q.damaged = true) ∧ ∀ rcvbuf, (revRTP rcvbuf d).1 = .nullptr := by
  have hd : headerSize ≤ d.length := by omega
  constructor
  · intro q hq
    rw [sendRTP_eq] at hq
    have hrtp : headerOf d = q.rtp := by rw [headerOf, ← hq, RtpHeader.ofBytes_bytes]
    have hrest : d.drop headerSize = q.data := by
      rw [← hq, ← q.rtp.length_bytes, List.drop_left]
    rw [WirePacket.damaged, WirePacket.checksum_eq, ← hrtp, ← hrest]
    simpa using hdiffer
  · intro rcvbuf
    have hmax : d.length ≤ rcvBuffSize := by
      simp only [payloadSize, headerSize, rcvBuffSize] at hroom hlen ⊢
      omega
    have hrest : (headerOf d).length.toNat = (d.drop headerSize).length := by
      rw [List.length_drop]
      omega
    have hwhole : takenFor rcvbuf d = d.drop headerSize := by
      rw [takenFor_whole rcvbuf hlen.le, hrest, List.take_length]
    obtain ⟨payload, -, -, hrev⟩ := (revRTP_long rcvbuf hd hmax).2 hroom
    rw [hrev, hwhole, if_neg hdiffer]

/-- What arrives of a packet with a burst of wrong bits is damaged and refused. -/
theorem burst_damaged (hp : p.Built) (hlen : d.length = (sendRTP p).length) (hne : d ≠ sendRTP p)
    (hburst : Burst d (sendRTP p)) :
    (∀ q, sendRTP q = d → q.damaged = true) ∧ ∀ rcvbuf, (revRTP rcvbuf d).1 = .nullptr := by
  obtain ⟨k, hburst⟩ := hburst
  have hs := hp.sealed
  have hsize := hs.length_sendRTP
  have hsplit := headerOf_bytes (d := d) (by omega)
  have hsent := sendRTP_eq p
  have hheader : headerOf (sendRTP p) = p.rtp := by rw [headerOf, hsent, RtpHeader.ofBytes_bytes]
  -- the two fields came through
  have hright : ∀ i, InLengthOrChecksum i → (bits d)[i]? = (bits (sendRTP p))[i]? := by
    intro i hi
    by_contra hwrong
    exact (hburst i hwrong).2 hi
  have hlength : (headerOf d).length = p.rtp.length := by
    have hfield : (d.drop 1).take 2 = ((sendRTP p).drop 1).take 2 :=
      field_eq fun i hlo hhi => hright i (Or.inl ⟨hlo, hhi⟩)
    rw [← hheader]
    simp only [headerOf, RtpHeader.ofBytes, hfield]
  have hsum : (headerOf d).checksum = p.rtp.checksum := by
    have hfield : (d.drop 7).take 4 = ((sendRTP p).drop 7).take 4 :=
      field_eq fun i hlo hhi => hright i (Or.inr ⟨hlo, hhi⟩)
    rw [← hheader]
    simp only [headerOf, RtpHeader.ofBytes, hfield]
  have hdata : (d.drop headerSize).length = p.data.length := by
    rw [List.length_drop, hlen, hsize, hs.length_data, Nat.add_sub_cancel]
  apply refused_of_checksum_ne
  · rw [hlength]
    omega
  · rw [hlength]
    exact hs.room
  · rw [hsum, hs.checksum]
    refine (checksumOf_ne (k := k) hdata hsum ?_ ?_).symm
    · rwa [hsplit, ← hsent]
    · rw [hsplit, ← hsent]
      exact fun i hi => (hburst i hi).1

/-- The packet that `cutDatagram` was cut off from arrives with the byte 6 in place of the 7. -/
theorem burst_damaged_lastByte :
    (revRTP (.zeroed rcvBuffSize) (cutDatagram ++ [6])).1 = .nullptr := by
  have hlen : [(7 : UInt8)].length = (1 : UInt16).toNat := rfl
  obtain ⟨p, hfill, hsealed, htype, hlength, hseq, hdata⟩ :=
    sealed_of_fillIn (.zeroed payloadSize) rtpData 0 hlen (by decide)
  have hroom : (1 : UInt16).toNat ≤ payloadSize - 1 := by decide
  have hp : p.Built := .make (.zeroed payloadSize) rtpData 0 (some [7]) hroom hfill
  have hrtp : p.rtp = ⟨rtpData, 1, 0, p.rtp.checksum⟩ := by rw [← htype, ← hlength, ← hseq]
  have hsum : p.rtp.checksum = 0xC8041293 := by
    rw [hsealed.checksum, hrtp, hdata]
    show checksumOf ⟨rtpData, 1, 0, 0⟩ [7] = _
    decide +kernel
  have hsent : sendRTP p = cutDatagram ++ [7] := by
    rw [sendRTP_eq, hdata, hrtp, hsum]
    decide
  refine (burst_damaged hp ?_ ?_ ⟨88, ?_⟩).2 _ <;> rw [hsent]
  · decide
  · decide
  · intro i hi
    have hfront : 11 ≤ i / 8 := by
      by_contra hlt
      have hi8 : i / 8 < cutDatagram.length := not_le.mp hlt
      rw [bits_getElem?, bits_getElem?, List.getElem?_append_left hi8,
        List.getElem?_append_left hi8] at hi
      exact hi rfl
    have hback : i / 8 < 12 := by
      by_contra hge
      rw [bits_getElem?, bits_getElem?, List.getElem?_eq_none (not_lt.mp hge),
        List.getElem?_eq_none (not_lt.mp hge)] at hi
      exact hi rfl
    refine ⟨by omega, ?_⟩
    rintro (hin | hin) <;> omega

end Bursts

end NetworkingLabs.Rtp
