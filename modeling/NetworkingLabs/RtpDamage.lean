import NetworkingLabs.RtpChecksum

/-!
# Wrong bits that the checksum notices

Put behind the bytes that it covers, the checksum makes a stream that always leaves the same
residue in the register. So what a shift register notices in a stream, `Damaged` notices in a
packet: besides a burst, any two wrong bits, which may also lie in the checksum.
-/
namespace NetworkingLabs.Rtp
open ShiftRegister

section Codeword

variable {h h' : RtpHeader} {pl pl' : List UInt8} {i k m n : ℕ}

private theorem crcPoly_msb : crcPoly.msb = true := by decide

/-- What the checksum covers, and then the checksum. -/
def codeword (h : RtpHeader) (pl : List UInt8) : List Bool :=
  bits ({ h with checksum := 0 }.bytes ++ pl) ++ bits (bytesLE 4 h.checksum.toNat)

def coveredBits (pl : List UInt8) : ℕ := 8 * (headerSize + pl.length)

private theorem length_covered (h : RtpHeader) (pl : List UInt8) :
    (bits (h.bytes ++ pl)).length = coveredBits pl := by
  rw [length_bits, List.length_append, h.length_bytes, coveredBits]

private theorem length_bits_bytesLE (w n : ℕ) : (bits (bytesLE w n)).length = 8 * w := by
  rw [length_bits, length_bytesLE]

private theorem length_codeword (h : RtpHeader) (pl : List UInt8) :
    (codeword h pl).length = coveredBits pl + 32 := by
  rw [codeword, List.length_append, length_covered, length_bits_bytesLE]

private theorem getElem?_bytesLE {w : ℕ} (hi : i < w) :
    (bytesLE w n)[i]? = some (UInt8.ofNat (n / 256 ^ i)) := by
  induction w generalizing n i with
  | zero => exact absurd hi (Nat.not_lt_zero i)
  | succ w ih =>
    cases i with
    | zero => simp [bytesLE]
    | succ i =>
      rw [bytesLE, List.getElem?_cons_succ, ih (Nat.lt_of_succ_lt_succ hi), Nat.div_div_eq_div_mul,
        ← pow_succ']

private theorem word_bytesLE (c : UInt32) : word 32 (bits (bytesLE 4 c.toNat)) = c.toBitVec := by
  apply BitVec.eq_of_getLsbD_eq
  intro i hi
  have hbyte : i / 8 < 4 := by omega
  have hbit : (c.toNat / 256 ^ (i / 8)).testBit (i % 8) = c.toNat.testBit i := by
    have hpow : 256 ^ (i / 8) = 2 ^ (8 * (i / 8)) := (pow_mul 2 8 (i / 8)).symm
    rw [hpow, Nat.testBit_div_two_pow]
    congr 1
    omega
  rw [getLsbD_word, bits_getElem?, getElem?_bytesLE hbyte]
  have hmod : i % 8 < 8 := Nat.mod_lt _ (by decide)
  simp only [hi, decide_true, Bool.true_and, Option.map_some, Option.getD_some]
  rw [UInt8.toBitVec_ofNat', BitVec.getLsbD_ofNat, hbit]
  simp [hmod, BitVec.getLsbD]

/-- The checksum is right exactly when the stream leaves the residue. -/
theorem checksum_iff_residue : h.checksum = checksumOf h pl ↔
    run crcPoly (.allOnes 32) (codeword h pl) = (shift crcPoly)^[32] (.allOnes 32) := by
  have hlen : (bits (bytesLE 4 h.checksum.toNat)).length = 32 := length_bits_bytesLE 4 _
  have hright : h.checksum = checksumOf h pl ↔ h.checksum.toBitVec =
      ~~~run crcPoly (.allOnes 32) (bits ({ h with checksum := 0 }.bytes ++ pl)) := by
    rw [← UInt32.toBitVec_inj, checksumOf, computeChecksum_run]
  rw [hright, codeword, run_append, run_eq_iterate hlen.le, hlen, word_bytesLE]
  refine Iff.trans ?_ (iterate_shift_injective crcPoly_msb 32).eq_iff.symm
  generalize run crcPoly (.allOnes 32) (bits ({ h with checksum := 0 }.bytes ++ pl)) = r
  constructor
  · intro hc
    rw [hc, ← BitVec.xor_allOnes, ← BitVec.xor_assoc, BitVec.xor_self, BitVec.zero_xor]
  · intro hr
    rw [← BitVec.xor_allOnes, ← hr, ← BitVec.xor_assoc, BitVec.xor_self, BitVec.zero_xor]

/-- Where a bit of a datagram lies in the stream. -/
def place (n i : ℕ) : ℕ := if 56 ≤ i ∧ i < 88 then n + (i - 56) else i

private theorem bits_header (h : RtpHeader) (pl : List UInt8) : bits (h.bytes ++ pl) =
    bits h.front ++ bits (bytesLE 4 h.checksum.toNat) ++ bits pl := by
  rw [RtpHeader.bytes_eq, bits_append, bits_append]

private theorem length_front (h : RtpHeader) : (bits h.front).length = 56 := by
  rw [length_bits]
  simp [RtpHeader.front]

/-- Where streams with a common middle part differ, they still do with any middle parts. -/
theorem differ_outside {α : Type} {a a' b b' c c' z : List α} (ha : a.length = a'.length)
    (hc : c.length = z.length) (hc' : c'.length = z.length)
    (hne : (a ++ z ++ b)[i]? ≠ (a' ++ z ++ b')[i]?) :
    ¬ (a.length ≤ i ∧ i < a.length + z.length) ∧ (a ++ c ++ b)[i]? ≠ (a' ++ c' ++ b')[i]? := by
  simp only [List.append_assoc, List.getElem?_append, ← ha, hc, hc'] at hne ⊢
  by_cases hfront : i < a.length
  · refine ⟨by omega, ?_⟩
    simpa only [if_pos hfront] using hne
  · by_cases hmiddle : i - a.length < z.length
    · simp only [if_neg hfront, if_pos hmiddle, ne_eq, not_true] at hne
    · refine ⟨by omega, ?_⟩
      simpa only [if_neg hfront, if_neg hmiddle] using hne

private theorem exists_of_codeword_ne (hlen : pl.length = pl'.length)
    (hm : (codeword h pl)[m]? ≠ (codeword h' pl')[m]?) :
    ∃ i, (bits (h.bytes ++ pl))[i]? ≠ (bits (h'.bytes ++ pl'))[i]? ∧
      place (coveredBits pl) i = m := by
  have hfront := length_front h
  have hfront' := length_front h'
  have hsum : ∀ c : ℕ, (bits (bytesLE 4 c)).length = 32 := length_bits_bytesLE 4
  have hcovered : coveredBits pl' = coveredBits pl := by rw [coveredBits, coveredBits, hlen]
  have hcov := length_covered { h with checksum := 0 } pl
  have hcov' := length_covered { h' with checksum := 0 } pl'
  rw [hcovered] at hcov'
  rw [bits_header, bits_header]
  rw [codeword, codeword] at hm
  rcases Nat.lt_or_ge m (coveredBits pl) with hlt | hge
  · rw [List.getElem?_append_left (by omega), List.getElem?_append_left (by omega), bits_header,
      bits_header] at hm
    obtain ⟨hout, hne⟩ := differ_outside (hfront.trans hfront'.symm)
      (hsum h.checksum.toNat) (hsum h'.checksum.toNat) hm
    refine ⟨m, hne, if_neg ?_⟩
    rwa [hfront, hsum] at hout
  · rw [List.getElem?_append_right (by omega), List.getElem?_append_right (by omega), hcov,
      hcov'] at hm
    have hin : m - coveredBits pl < 32 := by
      by_contra hout
      rw [List.getElem?_eq_none (by rw [hsum]; omega), List.getElem?_eq_none (by rw [hsum]; omega)]
        at hm
      exact hm rfl
    refine ⟨56 + (m - coveredBits pl), ?_, ?_⟩
    · have hback : ∀ front rest : List Bool, ∀ c : ℕ, front.length = 56 →
          (front ++ bits (bytesLE 4 c) ++ rest)[56 + (m - coveredBits pl)]? =
            (bits (bytesLE 4 c))[m - coveredBits pl]? := by
        intro front rest c hlen
        rw [List.append_assoc, List.getElem?_append_right (by omega), hlen,
          Nat.add_sub_cancel_left, List.getElem?_append_left (by rwa [hsum])]
      rwa [hback _ _ _ hfront, hback _ _ _ hfront']
    · rw [place, if_pos (by omega), Nat.add_sub_cancel_left]
      omega

private theorem codeword_injective (hlen : pl.length = pl'.length)
    (heq : codeword h pl = codeword h' pl') : h.bytes ++ pl = h'.bytes ++ pl' := by
  have hcovered : coveredBits pl' = coveredBits pl := by rw [coveredBits, coveredBits, hlen]
  obtain ⟨hcov, hsum⟩ := List.append_inj heq
    ((length_covered _ pl).trans (hcovered.symm.trans (length_covered _ pl').symm))
  have hbytes := bits_injective (by simp [hlen]) hcov
  obtain ⟨hheader, hpl⟩ := List.append_inj hbytes (by simp)
  have hlength : h.front.length = h'.front.length := by simp [RtpHeader.front]
  obtain ⟨hsame, -⟩ := List.append_inj hheader hlength
  have hfront : h.front = h'.front := hsame
  rw [RtpHeader.bytes_eq, RtpHeader.bytes_eq, hfront, bits_injective (by simp) hsum, hpl]

end Codeword

section Period

def shiftNat (r : ℕ) : ℕ := if r % 2 = 1 then 0xEDB88320 ^^^ r / 2 else r / 2

private theorem toNat_shift (r : BitVec 32) : (shift crcPoly r).toNat = shiftNat r.toNat := by
  have hlow : r.getLsbD 0 = decide (r.toNat % 2 = 1) := by
    rw [BitVec.getLsbD, Nat.testBit_zero]
  have hpoly : crcPoly.toNat = 0xEDB88320 := rfl
  rw [shift, hlow, shiftNat]
  by_cases hodd : r.toNat % 2 = 1
  · simp [hodd, hpoly, Nat.shiftRight_succ]
  · simp [hodd, Nat.shiftRight_succ]

/-- The next `n` registers are neither zero nor the one with the lowest bit alone. -/
def staysAway : ℕ → ℕ → Bool
  | 0, _ => true
  | n + 1, r => match shiftNat r with
    | 0 => false
    | k + 1 => k != 0 && staysAway n (k + 1)

private theorem ne_lowBit_of_staysAway {n d : ℕ} {r : BitVec 32} (h : staysAway n r.toNat = true)
    (hpos : 0 < d) (hd : d ≤ n) : (shift crcPoly)^[d] r ≠ lowBit 32 true := by
  induction n generalizing d r with
  | zero => omega
  | succ n ih =>
    rw [staysAway, ← toNat_shift] at h
    cases hnext : (shift crcPoly r).toNat with
    | zero => simp [hnext] at h
    | succ k =>
      simp only [hnext, Bool.and_eq_true, bne_iff_ne] at h
      obtain ⟨hk, hrest⟩ := h
      cases d with
      | zero => omega
      | succ d =>
        rw [Function.iterate_succ_apply]
        cases d with
        | zero =>
          intro heq
          have hone : (lowBit 32 true).toNat = 1 := rfl
          rw [Function.iterate_zero, id_eq] at heq
          rw [heq, hone] at hnext
          omega
        | succ d => exact ih (hnext ▸ hrest) (Nat.succ_pos d) (by omega)

def maxBits : ℕ := 8 * (headerSize + payloadSize) + 32

/-- A bit alone does not come back before the longest packet has gone through. -/
theorem ne_lowBit_of_lt {d : ℕ} (hpos : 0 < d) (hd : d < maxBits) :
    (shift crcPoly)^[d] (lowBit 32 true) ≠ lowBit 32 true := by
  have haway : staysAway 11808 (lowBit 32 true).toNat = true := by decide +kernel
  exact ne_lowBit_of_staysAway haway hpos hd.le

end Period

section Disturbed

variable {p : WirePacket} {d e : List UInt8}

def WrongBit (d e : List UInt8) (i : ℕ) : Prop := (bits d)[i]? ≠ (bits e)[i]?

instance (d e : List UInt8) (i : ℕ) : Decidable (WrongBit d e i) :=
  inferInstanceAs (Decidable (_ ≠ _))

def InLength (i : ℕ) : Prop := 8 ≤ i ∧ i < 24

instance (i : ℕ) : Decidable (InLength i) := inferInstanceAs (Decidable (_ ∧ _))

/-- The datagrams differ in at most two bits, and not in the field `length`. -/
def TwoBits (d e : List UInt8) : Prop :=
  ∃ i j, ∀ l, WrongBit d e l → (l = i ∨ l = j) ∧ ¬ InLength l

/-- What the network may make of a datagram: one with other bits that the checksum notices. -/
structure Disturbed (d e : List UInt8) : Prop where
  length : d.length = e.length
  changed : d ≠ e
  slight : TwoBits d e ∨ Burst d e

theorem Disturbed.length_right (h : Disturbed d e) : ∀ i, InLength i → ¬ WrongBit d e i := by
  intro i hi hwrong
  rcases h.slight with ⟨_, _, hpair⟩ | ⟨_, hburst⟩
  · exact (hpair i hwrong).2 hi
  · exact (hburst i hwrong).2 (Or.inl hi)

/-- A datagram and what the network made of it give streams that the register tells apart. -/
theorem Disturbed.run_ne {h h' : RtpHeader} {pl pl' : List UInt8}
    (hd : Disturbed (h.bytes ++ pl) (h'.bytes ++ pl')) (hmax : pl.length ≤ payloadSize)
    (r : BitVec 32) : run crcPoly r (codeword h pl) ≠ run crcPoly r (codeword h' pl') := by
  have hlen : pl.length = pl'.length := by simpa using hd.length
  have hcode : (codeword h pl).length = (codeword h' pl').length := by
    rw [length_codeword, length_codeword, coveredBits, coveredBits, hlen]
  have hne : codeword h pl ≠ codeword h' pl' := mt (codeword_injective hlen) hd.changed
  rcases hd.slight with ⟨i, j, hpair⟩ | ⟨k, hburst⟩
  · refine run_ne_of_pair (i := place (coveredBits pl) i) (j := place (coveredBits pl) j)
      crcPoly_msb hcode ?_ ?_ hne r
    · intro d hpos hlt
      rw [length_codeword, coveredBits] at hlt
      exact ne_lowBit_of_lt hpos (by rw [maxBits]; omega)
    · intro m hm
      obtain ⟨l, hl, rfl⟩ := exists_of_codeword_ne hlen hm
      exact (hpair l hl).1.imp (congrArg _) (congrArg _)
  · refine run_ne_of_burst (k := k) crcPoly_msb hcode ?_ hne r
    intro m hm
    obtain ⟨l, hl, rfl⟩ := exists_of_codeword_ne hlen hm
    obtain ⟨hwin, hout⟩ := hburst l hl
    rwa [place, if_neg fun hin => hout (Or.inr hin)]

theorem WirePacket.Sealed.refused (hs : p.Sealed) (hd : Disturbed d (sendRTP p)) :
    (∀ q, sendRTP q = d → q.damaged = true) ∧ ∀ rcvbuf, (revRTP rcvbuf d).1 = .nullptr := by
  have hsize := hs.length_sendRTP
  have hroom := hs.room
  have hlen := hd.length
  have hsplit := headerOf_bytes (d := d) (by omega)
  have hlength : (headerOf d).length = p.rtp.length := by
    have hheader : headerOf (sendRTP p) = p.rtp := by
      rw [headerOf, sendRTP_eq, RtpHeader.ofBytes_bytes]
    have hfield : (d.drop 1).take 2 = ((sendRTP p).drop 1).take 2 :=
      field_eq fun i hlo hhi => not_not.mp (hd.length_right i ⟨hlo, hhi⟩)
    rw [← hheader]
    simp only [headerOf, RtpHeader.ofBytes, hfield]
  rw [← hsplit, sendRTP_eq] at hd
  apply refused_of_checksum_ne
  · rw [hlength]
    omega
  · rwa [hlength]
  · intro hsum
    refine hd.run_ne ?_ (.allOnes 32) ?_
    · rw [List.length_drop, hlen, hsize, Nat.add_sub_cancel]
      exact hroom.le
    · rw [checksum_iff_residue.mp hsum, checksum_iff_residue.mp hs.checksum]

/-- A packet in which one or two bits have been turned over, wherever they are outside the field
`length`, is damaged and refused. -/
theorem twoBits_damaged (hp : p.Built) (hlen : d.length = (sendRTP p).length)
    (hne : d ≠ sendRTP p) (htwo : TwoBits d (sendRTP p)) :
    (∀ q, sendRTP q = d → q.damaged = true) ∧ ∀ rcvbuf, (revRTP rcvbuf d).1 = .nullptr :=
  hp.sealed.refused ⟨hlen, hne, Or.inl htwo⟩

private theorem exists_built_oneByte :
    ∃ p : WirePacket, p.Built ∧ sendRTP p = cutDatagram ++ [7] := by
  have hlen : [(7 : UInt8)].length = (1 : UInt16).toNat := rfl
  obtain ⟨p, hfill, hsealed, htype, hlength, hseq, hdata⟩ :=
    sealed_of_fillIn (.zeroed payloadSize) rtpData 0 hlen (by decide)
  have hroom : (1 : UInt16).toNat ≤ payloadSize - 1 := by decide
  have hrtp : p.rtp = ⟨rtpData, 1, 0, p.rtp.checksum⟩ := by rw [← htype, ← hlength, ← hseq]
  have hsum : p.rtp.checksum = 0xC8041293 := by
    rw [hsealed.checksum, hrtp, hdata]
    show checksumOf ⟨rtpData, 1, 0, 0⟩ [7] = _
    decide +kernel
  refine ⟨p, .make (.zeroed payloadSize) rtpData 0 (some [7]) hroom hfill, ?_⟩
  rw [sendRTP_eq, hdata, hrtp, hsum]
  decide

/-- One wrong bit makes an ACK of it, another one is in the checksum. -/
theorem twoBits_damaged_ack : (revRTP (.zeroed rcvBuffSize)
    [3, 1, 0, 0, 0, 0, 0, 146, 18, 4, 200, 7]).1 = .nullptr := by
  obtain ⟨p, hp, hsent⟩ := exists_built_oneByte
  refine (twoBits_damaged hp ?_ ?_ ⟨0, 56, fun l hwrong => ?_⟩).2 _ <;> rw [hsent] at *
  · decide
  · decide
  · have hin : l < 96 := by
      by_contra hout
      apply hwrong
      rw [List.getElem?_eq_none (by rw [length_bits]; exact not_lt.mp hout),
        List.getElem?_eq_none (by rw [length_bits]; exact not_lt.mp hout)]
    have hall : ∀ l < 96, WrongBit [3, 1, 0, 0, 0, 0, 0, 146, 18, 4, 200, 7]
        (cutDatagram ++ [7]) l → (l = 0 ∨ l = 56) ∧ ¬ InLength l := by decide +kernel
    exact hall l hin hwrong

end Disturbed

end NetworkingLabs.Rtp
