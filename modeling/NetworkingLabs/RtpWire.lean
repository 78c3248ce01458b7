import NetworkingLabs.ByteMemory
import NetworkingLabs.RtpPacket

/-!
# RTP packets on the wire

The packed structure with its checksum, its constructors, `sendRTP` and `revRTP`, down to the
bytes. The integers lie in memory with the lowest byte first.
-/
namespace NetworkingLabs.Rtp

section Checksum

def crc32Shift (r : UInt32) : UInt32 := (if r &&& 1 = 0 then 0xEDB88320 else 0 : UInt32) ^^^ r >>> 1

def crc32ForByte (r : UInt32) : UInt32 := crc32Shift^[8] r ^^^ 0xFF000000

/-- `crc32`; the table holds the values of `crc32_for_byte`. -/
def crc32 (data : List UInt8) (crc : UInt32) : UInt32 :=
  data.foldl (fun crc b => crc32ForByte (crc.toUInt8 ^^^ b).toUInt32 ^^^ crc >>> 8) crc

def computeChecksum (pkt : List UInt8) : UInt32 := crc32 pkt 0

end Checksum

section Structure

def headerSize : ℕ := 11

structure RtpHeader where
  type : UInt8
  length : UInt16
  seqNum : UInt32
  checksum : UInt32
  deriving DecidableEq

def RtpHeader.bytes (h : RtpHeader) : List UInt8 :=
  h.type :: (bytesLE 2 h.length.toNat ++ bytesLE 4 h.seqNum.toNat ++ bytesLE 4 h.checksum.toNat)

def RtpHeader.ofBytes (bs : List UInt8) : RtpHeader where
  type := bs.headD 0
  length := UInt16.ofNat (ofBytesLE ((bs.drop 1).take 2))
  seqNum := UInt32.ofNat (ofBytesLE ((bs.drop 3).take 4))
  checksum := UInt32.ofNat (ofBytesLE ((bs.drop 7).take 4))

structure WirePacket where
  rtp : RtpHeader
  payload : Buffer payloadSize
  deriving DecidableEq

def WirePacket.bytes (p : WirePacket) : List UInt8 := p.rtp.bytes ++ p.payload.bytes

def WirePacket.data (p : WirePacket) : List UInt8 := p.payload.bytes.take p.rtp.length.toNat

/-- The packet as everything above `revRTP` sees it. -/
def WirePacket.view (p : WirePacket) : RtpPacket := ⟨p.rtp.type, p.rtp.seqNum.toNat, p.data⟩

/-- `compute_checksum(this, rtp.length + HeaderSize)`, with the field `checksum` zero. -/
def WirePacket.checksum (p : WirePacket) : UInt32 :=
  computeChecksum (({ p.rtp with checksum := 0 }.bytes ++ p.payload.bytes).take
    (p.rtp.length.toNat + headerSize))

def WirePacket.damaged (p : WirePacket) : Bool := p.rtp.checksum != p.checksum

/-- `memcpy(payload, pl, ..); payload[length] = 0;`, where `none` writes past the payload. -/
def copyIn (mem : Buffer payloadSize) (pl : List UInt8) (length : ℕ) :
    Option (Buffer payloadSize) := do
  let payload ← mem.write 0 pl
  payload.write length [0]

/-- What both constructors do once the length is known. -/
def WirePacket.fillIn (mem : Buffer payloadSize) (type : UInt8) (length : UInt16) (seqNum : UInt32)
    (pl : List UInt8) : Option WirePacket := do
  let payload ← copyIn mem pl pl.length
  let p : WirePacket := ⟨⟨type, length, seqNum, 0⟩, payload⟩
  some { p with rtp := { p.rtp with checksum := p.checksum } }

/-- `RTP_packet(type, length, seq, payload)` in memory with the payload `mem`; `none` also reads
past the given bytes. -/
def WirePacket.make (mem : Buffer payloadSize) (type : UInt8) (length : UInt16) (seqNum : UInt32)
    (pl : Option (List UInt8)) : Option WirePacket :=
  match pl with
  | some pl => if pl.length < length.toNat then none
      else fillIn mem type length seqNum (pl.take length.toNat)
  | none => fillIn mem type length seqNum []

def WirePacket.makeString (mem : Buffer payloadSize) (type : UInt8) (seqNum : UInt32)
    (pl : Option (List UInt8)) : Option WirePacket :=
  let string := (pl.getD []).takeWhile (· ≠ 0)
  fillIn mem type (UInt16.ofNat string.length) seqNum string

def sendRTP (p : WirePacket) : List UInt8 := p.bytes.take (p.rtp.length.toNat + headerSize)

def rcvBuffSize : ℕ := 2048

inductive Received
  | nullptr
  | packet (p : WirePacket)
  | undefined  -- payload[length] lies past the payload
  deriving DecidableEq

/-- `revRTP` on a datagram, with what `rcvbuf` held; the packet is made in zeroed memory. -/
def revRTP (rcvbuf : Buffer rcvBuffSize) (datagram : List UInt8) :
    Received × Buffer rcvBuffSize :=
  let rcvbuf := rcvbuf.fill datagram
  let ret := min datagram.length rcvBuffSize
  if ret < headerSize then (.nullptr, rcvbuf)
  else
    let rtp := RtpHeader.ofBytes rcvbuf.bytes
    let pl := (rcvbuf.bytes.drop headerSize).take rtp.length.toNat
    match copyIn (.zeroed payloadSize) pl rtp.length.toNat with
    | none => (.undefined, rcvbuf)
    | some payload =>
      let rev : WirePacket := ⟨rtp, payload⟩
      if rev.damaged then (.nullptr, rcvbuf) else (.packet rev, rcvbuf)

end Structure

section Layout

variable {pl : List UInt8} {n : ℕ}

@[simp] theorem RtpHeader.length_bytes (h : RtpHeader) : h.bytes.length = headerSize := by
  simp [bytes, headerSize]

theorem RtpHeader.ofBytes_bytes (h : RtpHeader) (rest : List UInt8) :
    ofBytes (h.bytes ++ rest) = h := by
  obtain ⟨type, length, seqNum, checksum⟩ := h
  have hlen : ofBytesLE (bytesLE 2 length.toNat) = length.toNat := ofBytesLE_bytesLE length.toNat_lt
  have hseq : ofBytesLE (bytesLE 4 seqNum.toNat) = seqNum.toNat := ofBytesLE_bytesLE seqNum.toNat_lt
  have hsum : ofBytesLE (bytesLE 4 checksum.toNat) = checksum.toNat :=
    ofBytesLE_bytesLE checksum.toNat_lt
  have h1 : ((bytes ⟨type, length, seqNum, checksum⟩ ++ rest).drop 1).take 2 =
      bytesLE 2 length.toNat := by
    simp [bytes]
  have h2 : ((bytes ⟨type, length, seqNum, checksum⟩ ++ rest).drop 3).take 4 =
      bytesLE 4 seqNum.toNat := by
    simp [bytes]
  have h3 : ((bytes ⟨type, length, seqNum, checksum⟩ ++ rest).drop 7).take 4 =
      bytesLE 4 checksum.toNat := by
    simp [bytes, List.take_append, List.drop_append]
  rw [ofBytes, h1, h2, h3, hlen, hseq, hsum]
  simp [bytes]

def checksumOf (h : RtpHeader) (pl : List UInt8) : UInt32 :=
  computeChecksum ({ h with checksum := 0 }.bytes ++ pl)

theorem WirePacket.checksum_eq (p : WirePacket) : p.checksum = checksumOf p.rtp p.data := by
  have hlen : ({ p.rtp with checksum := 0 } : RtpHeader).bytes.length = headerSize :=
    RtpHeader.length_bytes _
  rw [checksum, checksumOf, data, Nat.add_comm, ← hlen, List.take_length_add_append]

theorem sendRTP_eq (p : WirePacket) : sendRTP p = p.rtp.bytes ++ p.data := by
  rw [sendRTP, WirePacket.bytes, WirePacket.data, Nat.add_comm, ← p.rtp.length_bytes,
    List.take_length_add_append]

/-- Copying succeeds exactly when there is room for the zero behind the bytes. -/
theorem copyIn_some (mem : Buffer payloadSize) (hlen : pl.length = n) (hroom : n < payloadSize) :
    ∃ payload, copyIn mem pl n = some payload ∧ payload.bytes.take n = pl := by
  have hfit : 0 + pl.length ≤ payloadSize := by omega
  have hzero : n + [(0 : UInt8)].length ≤ payloadSize := hroom
  obtain ⟨payload, hw, htake⟩ := mem.write_take hfit
  obtain ⟨payload', hw', htake'⟩ := payload.write_take hzero
  refine ⟨payload', by simp [copyIn, hw, hw'], ?_⟩
  have hpl : payload.bytes.take n = pl := by simpa [hlen] using htake
  have hfront := congrArg (List.take n) htake'
  rw [List.take_take, Nat.min_eq_left (Nat.le_add_right _ _), hpl,
    List.take_append_of_le_length hlen.ge, List.take_of_length_le hlen.le] at hfront
  exact hfront

theorem copyIn_none (mem : Buffer payloadSize) (pl : List UInt8) (hroom : payloadSize ≤ n) :
    copyIn mem pl n = none := by
  cases hw : mem.write 0 pl with
  | none => simp [copyIn, hw]
  | some payload =>
    have hpast : payload.write n [0] = none := payload.write_eq_none (by simp; omega)
    simp [copyIn, hw, hpast]

/-- A packet from the constructors carries its data and a checksum of them. -/
theorem fillIn_some (mem : Buffer payloadSize) (type : UInt8) (seqNum : UInt32) {length : UInt16}
    (hlen : pl.length = length.toNat) (hroom : length.toNat < payloadSize) :
    ∃ p, WirePacket.fillIn mem type length seqNum pl = some p ∧
      p.rtp = ⟨type, length, seqNum, checksumOf p.rtp p.data⟩ ∧ p.data = pl := by
  obtain ⟨payload, hcopy, htake⟩ := copyIn_some mem hlen hroom
  have hfill : WirePacket.fillIn mem type length seqNum pl = some ⟨⟨type, length, seqNum,
      WirePacket.checksum ⟨⟨type, length, seqNum, 0⟩, payload⟩⟩, payload⟩ := by
    simp only [WirePacket.fillIn, hlen, hcopy, Option.bind_eq_bind, Option.bind_some]
  refine ⟨_, hfill, ?_, htake⟩
  rw [WirePacket.checksum_eq]
  rfl

end Layout

section Reception

variable {d : List UInt8}

abbrev headerOf (d : List UInt8) : RtpHeader := .ofBytes d

/-- The bytes that `revRTP` takes for the payload: of the datagram, and of what was in `rcvbuf`
where the datagram is too short. -/
def takenFor (rcvbuf : Buffer rcvBuffSize) (d : List UInt8) : List UInt8 :=
  ((d ++ rcvbuf.bytes.drop d.length).drop headerSize).take (headerOf d).length.toNat

theorem ofBytes_append (hd : headerSize ≤ d.length) (rest : List UInt8) :
    RtpHeader.ofBytes (d ++ rest) = headerOf d := by
  have hdrop : ∀ i w, i + w ≤ headerSize →
      ((d ++ rest).drop i).take w = (d.drop i).take w := by
    intro i w hi
    rw [List.drop_append_of_le_length (by omega), List.take_append_of_le_length (by simp; omega)]
  have hhead : (d ++ rest).headD 0 = d.headD 0 := by
    cases d with
    | nil => simp [headerSize] at hd
    | cons b d => rfl
  rw [RtpHeader.ofBytes, headerOf, RtpHeader.ofBytes, hhead, hdrop 1 2 (by decide),
    hdrop 3 4 (by decide), hdrop 7 4 (by decide)]

theorem headerOf_bytes (hd : headerSize ≤ d.length) :
    (headerOf d).bytes ++ d.drop headerSize = d := by
  have hd' : 11 ≤ d.length := hd
  have hfield : ∀ i w, i + w ≤ d.length → ((d.drop i).take w).length = w := by
    intro i w hi
    rw [List.length_take, List.length_drop]
    omega
  have htype : [(headerOf d).type] = d.take 1 := by
    cases d with
    | nil => cases hd'
    | cons b d => rfl
  have hlength : bytesLE 2 (headerOf d).length.toNat = (d.drop 1).take 2 := by
    rw [headerOf, RtpHeader.ofBytes, UInt16.toNat_ofNat',
      bytesLE_mod (hfield 1 2 (by omega)) (by decide)]
  have hseq : bytesLE 4 (headerOf d).seqNum.toNat = (d.drop 3).take 4 := by
    rw [headerOf, RtpHeader.ofBytes, UInt32.toNat_ofNat',
      bytesLE_mod (hfield 3 4 (by omega)) (by decide)]
  have hsum : bytesLE 4 (headerOf d).checksum.toNat = (d.drop 7).take 4 := by
    rw [headerOf, RtpHeader.ofBytes, UInt32.toNat_ofNat',
      bytesLE_mod (hfield 7 4 (by omega)) (by decide)]
  have hbytes : (headerOf d).bytes = [(headerOf d).type] ++ bytesLE 2 (headerOf d).length.toNat ++
      bytesLE 4 (headerOf d).seqNum.toNat ++ bytesLE 4 (headerOf d).checksum.toNat := rfl
  rw [hbytes, htype, hlength, hseq, hsum, ← List.take_add, ← List.take_add, ← List.take_add]
  exact List.take_append_drop 11 d

theorem revRTP_short (rcvbuf : Buffer rcvBuffSize) (hd : d.length < headerSize) :
    (revRTP rcvbuf d).1 = .nullptr := by
  have hlt : min d.length rcvBuffSize < headerSize := (Nat.min_le_left _ _).trans_lt hd
  simp only [revRTP, if_pos hlt]

/-- With a header in it, the payload overflows, or the checksum decides over the header of the
datagram and the bytes taken for its payload. -/
theorem revRTP_long (rcvbuf : Buffer rcvBuffSize) (hd : headerSize ≤ d.length)
    (hmax : d.length ≤ rcvBuffSize) :
    (payloadSize ≤ (headerOf d).length.toNat → (revRTP rcvbuf d).1 = .undefined) ∧
    ((headerOf d).length.toNat < payloadSize → ∃ payload : Buffer payloadSize,
      copyIn (.zeroed payloadSize) (takenFor rcvbuf d) (headerOf d).length.toNat = some payload ∧
      payload.bytes.take (headerOf d).length.toNat = takenFor rcvbuf d ∧
      (revRTP rcvbuf d).1 =
        if (headerOf d).checksum = checksumOf (headerOf d) (takenFor rcvbuf d) then
          .packet ⟨headerOf d, payload⟩ else .nullptr) := by
  have hret : ¬ min d.length rcvBuffSize < headerSize := by
    rw [Nat.min_eq_left hmax]
    exact not_lt.mpr hd
  have hfill : (rcvbuf.fill d).bytes = d ++ rcvbuf.bytes.drop d.length := by
    show d.take rcvBuffSize ++ _ = _
    rw [List.take_of_length_le hmax]
  have htaken : (((d ++ rcvbuf.bytes.drop d.length).drop headerSize).take
      (headerOf d).length.toNat) = takenFor rcvbuf d := rfl
  constructor
  · intro hover
    simp only [revRTP, if_neg hret, hfill, ofBytes_append hd, htaken, copyIn_none _ _ hover]
  · intro hroom
    have hlen : (takenFor rcvbuf d).length = (headerOf d).length.toNat := by
      have hsize := rcvbuf.size
      simp only [takenFor, List.length_take, List.length_drop, List.length_append]
      simp only [payloadSize, rcvBuffSize, headerSize] at hroom hmax hsize ⊢
      omega
    obtain ⟨payload, hcopy, htake⟩ := copyIn_some (.zeroed payloadSize) hlen hroom
    refine ⟨payload, hcopy, htake, ?_⟩
    have hdata : (⟨headerOf d, payload⟩ : WirePacket).data = takenFor rcvbuf d := htake
    simp only [revRTP, if_neg hret, hfill, ofBytes_append hd, htaken, hcopy, WirePacket.damaged,
      WirePacket.checksum_eq, hdata]
    by_cases hsum : (headerOf d).checksum = checksumOf (headerOf d) (takenFor rcvbuf d)
    · rw [if_pos hsum, if_neg (by simp [← hsum])]
    · rw [if_neg hsum, if_pos (by simpa using hsum)]

end Reception

section RoundTrip

variable {p : WirePacket} {pl : List UInt8}

/-- The packet holds its data and the checksum of them, and there is room for a zero. -/
structure WirePacket.Sealed (p : WirePacket) : Prop where
  room : p.rtp.length.toNat < payloadSize
  checksum : p.rtp.checksum = checksumOf p.rtp p.data

theorem WirePacket.Sealed.length_data (h : p.Sealed) : p.data.length = p.rtp.length.toNat := by
  rw [data, List.length_take, p.payload.size]
  exact Nat.min_eq_left h.room.le

theorem WirePacket.Sealed.length_sendRTP (h : p.Sealed) :
    (sendRTP p).length = p.rtp.length.toNat + headerSize := by
  rw [sendRTP_eq, List.length_append, RtpHeader.length_bytes, h.length_data, Nat.add_comm]

theorem WirePacket.Sealed.arrives (h : p.Sealed) (rcvbuf : Buffer rcvBuffSize) :
    ∃ q, (revRTP rcvbuf (sendRTP p)).1 = .packet q ∧ q.rtp = p.rtp ∧ q.data = p.data := by
  have hroom := h.room
  have hlen := h.length_sendRTP
  have hheader : headerOf (sendRTP p) = p.rtp := by
    rw [headerOf, sendRTP_eq, RtpHeader.ofBytes_bytes]
  have htaken : takenFor rcvbuf (sendRTP p) = p.data := by
    rw [takenFor, hheader, sendRTP_eq, List.append_assoc, ← p.rtp.length_bytes,
      List.drop_left, ← h.length_data, List.take_left]
  have hmax : (sendRTP p).length ≤ rcvBuffSize := by
    simp only [payloadSize, headerSize, rcvBuffSize] at hroom hlen ⊢
    omega
  obtain ⟨-, hlong⟩ := revRTP_long rcvbuf (by omega) hmax
  rw [hheader, htaken] at hlong
  obtain ⟨payload, -, hdata, hrev⟩ := hlong hroom
  exact ⟨⟨p.rtp, payload⟩, by rw [hrev, if_pos h.checksum], rfl, hdata⟩

theorem sealed_of_fillIn (mem : Buffer payloadSize) (type : UInt8) (seqNum : UInt32)
    {length : UInt16} (hlen : pl.length = length.toNat) (hroom : length.toNat < payloadSize) :
    ∃ p, WirePacket.fillIn mem type length seqNum pl = some p ∧ p.Sealed ∧ p.rtp.type = type ∧
      p.rtp.length = length ∧ p.rtp.seqNum = seqNum ∧ p.data = pl := by
  obtain ⟨p, hp, hrtp, hdata⟩ := fillIn_some mem type seqNum hlen hroom
  have hlength : p.rtp.length = length := by rw [hrtp]
  refine ⟨p, hp, ⟨by rwa [hlength], ?_⟩, by rw [hrtp], hlength, by rw [hrtp], hdata⟩
  conv_lhs => rw [hrtp]

/-- A packet from either constructor is accepted as it was, whatever memory it was made in and
whatever `rcvbuf` held before. -/
theorem rtp_round_trip (mem : Buffer payloadSize) (rcvbuf : Buffer rcvBuffSize) (type : UInt8)
    (seqNum : UInt32) (pl : List UInt8) (hpl : pl.length ≤ payloadSize - 1) :
    (∃ p, WirePacket.make mem type (UInt16.ofNat pl.length) seqNum (some pl) = some p ∧
      (p.rtp.type = type ∧ p.rtp.length.toNat = pl.length ∧ p.rtp.seqNum = seqNum ∧ p.data = pl) ∧
      (sendRTP p).length = p.rtp.length.toNat + headerSize ∧
      ∃ q, (revRTP rcvbuf (sendRTP p)).1 = .packet q ∧ q.rtp = p.rtp ∧ q.data = p.data) ∧
    (∃ p, WirePacket.makeString mem type seqNum none = some p ∧
      (p.rtp.type = type ∧ p.rtp.length = 0 ∧ p.rtp.seqNum = seqNum ∧ p.data = []) ∧
      (sendRTP p).length = headerSize ∧
      ∃ q, (revRTP rcvbuf (sendRTP p)).1 = .packet q ∧ q.rtp = p.rtp ∧ q.data = p.data) := by
  have hsize : (UInt16.ofNat pl.length).toNat = pl.length := by
    rw [UInt16.toNat_ofNat']
    exact Nat.mod_eq_of_lt (by simp only [payloadSize] at hpl; omega)
  constructor
  · have hroom : (UInt16.ofNat pl.length).toNat < payloadSize := by
      rw [hsize]
      simp only [payloadSize] at hpl ⊢
      omega
    obtain ⟨p, hp, hsealed, htype, hlen, hseq, hdata⟩ :=
      sealed_of_fillIn mem type seqNum hsize.symm hroom
    refine ⟨p, ?_, ⟨htype, by rw [hlen, hsize], hseq, hdata⟩, hsealed.length_sendRTP,
      hsealed.arrives rcvbuf⟩
    simp only [WirePacket.make, hsize, Nat.lt_irrefl, if_false, List.take_length, hp]
  · have hempty : ([] : List UInt8).length = (0 : UInt16).toNat := rfl
    obtain ⟨p, hp, hsealed, htype, hlen, hseq, hdata⟩ :=
      sealed_of_fillIn mem type seqNum hempty (by decide)
    refine ⟨p, hp, ⟨htype, hlen, hseq, hdata⟩, ?_, hsealed.arrives rcvbuf⟩
    rw [hsealed.length_sendRTP, hlen]
    rfl

theorem rtp_round_trip_oneByte : ∃ p, WirePacket.make (.zeroed payloadSize) rtpData 1 5 (some [7]) =
    some p ∧ ∃ q, (revRTP (.zeroed rcvBuffSize) (sendRTP p)).1 = .packet q ∧ q.data = [7] := by
  obtain ⟨p, hp, ⟨-, -, -, hdata⟩, -, q, hq, -, hsame⟩ :=
    (rtp_round_trip (.zeroed payloadSize) (.zeroed rcvBuffSize) rtpData 5 [7] (by decide)).1
  exact ⟨p, hp, q, hq, hsame.trans hdata⟩

end RoundTrip

section Leftovers

variable {d : List UInt8}

/-- The datagram alone decides: whatever `rcvbuf` holds, the result is the same and is no
overflow, and a packet is accepted only with a payload that the datagram carries. -/
structure DecidedAlone (d : List UInt8) : Prop where
  same : ∀ rcvbuf rcvbuf', (revRTP rcvbuf d).1 = (revRTP rcvbuf' d).1
  defined : ∀ rcvbuf, (revRTP rcvbuf d).1 ≠ .undefined
  own : ∀ rcvbuf p, (revRTP rcvbuf d).1 = .packet p →
    p.rtp.length.toNat + headerSize ≤ d.length ∧
    p.data = (d.drop headerSize).take p.rtp.length.toNat

/-- The header has a checksum that these bytes, put behind the datagram, make right. -/
def CompletedBy (d rest : List UInt8) : Prop :=
  d.length + rest.length = (headerOf d).length.toNat + headerSize ∧
    (headerOf d).checksum = checksumOf (headerOf d) ((d ++ rest).drop headerSize)

/-- The datagram is too short for a header; or there is room for its payload, and it carries all
of it or nothing that may stand in for the rest gives the checksum. -/
def Decisive (d : List UInt8) : Prop :=
  d.length < headerSize ∨
  (headerOf d).length.toNat < payloadSize ∧
    ((headerOf d).length.toNat + headerSize ≤ d.length ∨ ∀ rest, ¬ CompletedBy d rest)

/-- Of a datagram that carries all its bytes nothing else is taken. -/
theorem takenFor_whole (rcvbuf : Buffer rcvBuffSize)
    (hd : (headerOf d).length.toNat + headerSize ≤ d.length) :
    takenFor rcvbuf d = (d.drop headerSize).take (headerOf d).length.toNat := by
  rw [takenFor, List.drop_append_of_le_length (by omega),
    List.take_append_of_le_length (by simp; omega)]

/-- What is missing in a datagram is taken from `rcvbuf`. -/
theorem takenFor_cut (rcvbuf : Buffer rcvBuffSize) (hd : headerSize ≤ d.length)
    (hcut : d.length ≤ (headerOf d).length.toNat + headerSize) : takenFor rcvbuf d =
      (d ++ (rcvbuf.bytes.drop d.length).take
        ((headerOf d).length.toNat + headerSize - d.length)).drop headerSize := by
  rw [takenFor, List.drop_append_of_le_length hd, List.drop_append_of_le_length hd,
    List.take_append, List.take_of_length_le (by simp; omega)]
  congr 2
  simp
  omega

theorem exists_leftover (d rest : List UInt8) (hlen : d.length + rest.length ≤ rcvBuffSize) :
    ∃ rcvbuf : Buffer rcvBuffSize, (rcvbuf.bytes.drop d.length).take rest.length = rest := by
  have htake : (d ++ rest).take rcvBuffSize = d ++ rest :=
    List.take_of_length_le (List.length_append.trans_le hlen)
  refine ⟨(Buffer.zeroed rcvBuffSize).fill (d ++ rest), ?_⟩
  rw [Buffer.fill]
  simp only [htake, List.append_assoc, List.drop_left, List.take_left]

/-- A datagram that is cut off is accepted exactly with the bytes that complete it. -/
theorem revRTP_cut (rcvbuf : Buffer rcvBuffSize) (hd : headerSize ≤ d.length)
    (hmax : d.length ≤ rcvBuffSize) (hroom : (headerOf d).length.toNat < payloadSize)
    (hcut : d.length ≤ (headerOf d).length.toNat + headerSize) :
    ((∃ payload, (revRTP rcvbuf d).1 = .packet ⟨headerOf d, payload⟩) ∧
      CompletedBy d ((rcvbuf.bytes.drop d.length).take
        ((headerOf d).length.toNat + headerSize - d.length))) ∨
    ((revRTP rcvbuf d).1 = .nullptr ∧
      ¬ CompletedBy d ((rcvbuf.bytes.drop d.length).take
        ((headerOf d).length.toNat + headerSize - d.length))) := by
  obtain ⟨payload, -, -, hrev⟩ := (revRTP_long rcvbuf hd hmax).2 hroom
  rw [takenFor_cut rcvbuf hd hcut] at hrev
  by_cases hsum : (headerOf d).checksum = checksumOf (headerOf d)
      ((d ++ (rcvbuf.bytes.drop d.length).take
        ((headerOf d).length.toNat + headerSize - d.length)).drop headerSize)
  · left
    refine ⟨⟨payload, by rw [hrev, if_pos hsum]⟩, ?_, hsum⟩
    have hsize := rcvbuf.size
    rw [List.length_take, List.length_drop]
    simp only [payloadSize, headerSize, rcvBuffSize] at *
    omega
  · right
    exact ⟨by rw [hrev, if_neg hsum], fun hcompleted => hsum hcompleted.2⟩

private theorem decisive_of_decidedAlone (hmax : d.length ≤ rcvBuffSize) (h : DecidedAlone d) :
    Decisive d := by
  by_cases hd : d.length < headerSize
  · exact Or.inl hd
  · rw [not_lt] at hd
    have hroom : (headerOf d).length.toNat < payloadSize := by
      by_contra hover
      exact h.defined (.zeroed rcvBuffSize) ((revRTP_long _ hd hmax).1 (not_lt.mp hover))
    refine Or.inr ⟨hroom, ?_⟩
    by_contra hcut
    obtain ⟨hshort, hrest⟩ := not_or.mp hcut
    obtain ⟨rest, hcompleted⟩ := not_forall_not.mp hrest
    have hlen := hcompleted.1
    obtain ⟨rcvbuf, hleft⟩ := exists_leftover d rest
      (by simp only [payloadSize, headerSize, rcvBuffSize] at *; omega)
    have hmissing : (headerOf d).length.toNat + headerSize - d.length = rest.length := by omega
    have hcases := revRTP_cut rcvbuf hd hmax hroom (by omega)
    rw [hmissing, hleft] at hcases
    rcases hcases with ⟨⟨payload, hpacket⟩, -⟩ | ⟨-, hnot⟩
    · exact hshort (h.own rcvbuf _ hpacket).1
    · exact hnot hcompleted

private theorem decidedAlone_of_nullptr (h : ∀ rcvbuf, (revRTP rcvbuf d).1 = .nullptr) :
    DecidedAlone d := by
  refine ⟨?_, ?_, ?_⟩
  · intro rcvbuf rcvbuf'
    rw [h, h]
  · intro rcvbuf
    rw [h]
    exact nofun
  · intro rcvbuf p hp
    rw [h] at hp
    cases hp

private theorem decidedAlone_of_whole (hmax : d.length ≤ rcvBuffSize)
    (hroom : (headerOf d).length.toNat < payloadSize)
    (hwhole : (headerOf d).length.toNat + headerSize ≤ d.length) : DecidedAlone d := by
  have hrev : ∀ rcvbuf, ∃ payload : Buffer payloadSize,
      copyIn (.zeroed payloadSize) ((d.drop headerSize).take (headerOf d).length.toNat)
        (headerOf d).length.toNat = some payload ∧
      payload.bytes.take (headerOf d).length.toNat =
        (d.drop headerSize).take (headerOf d).length.toNat ∧
      (revRTP rcvbuf d).1 = if (headerOf d).checksum = checksumOf (headerOf d)
          ((d.drop headerSize).take (headerOf d).length.toNat) then
        .packet ⟨headerOf d, payload⟩ else .nullptr := by
    intro rcvbuf
    rw [← takenFor_whole rcvbuf hwhole]
    exact (revRTP_long rcvbuf (by omega) hmax).2 hroom
  refine ⟨?_, ?_, ?_⟩
  · intro rcvbuf rcvbuf'
    obtain ⟨payload, hcopy, -, h⟩ := hrev rcvbuf
    obtain ⟨payload', hcopy', -, h'⟩ := hrev rcvbuf'
    rw [hcopy] at hcopy'
    cases hcopy'
    rw [h, h']
  · intro rcvbuf
    obtain ⟨payload, -, -, h⟩ := hrev rcvbuf
    rw [h]
    split_ifs <;> exact nofun
  · intro rcvbuf p hp
    obtain ⟨payload, -, hdata, h⟩ := hrev rcvbuf
    rw [h] at hp
    split_ifs at hp
    cases hp
    exact ⟨hwhole, hdata⟩

private theorem decidedAlone_of_decisive (hmax : d.length ≤ rcvBuffSize) (h : Decisive d) :
    DecidedAlone d := by
  rcases h with hd | ⟨hroom, h⟩
  · exact decidedAlone_of_nullptr fun rcvbuf => revRTP_short rcvbuf hd
  · by_cases hwhole : (headerOf d).length.toNat + headerSize ≤ d.length
    · exact decidedAlone_of_whole hmax hroom hwhole
    · have hcut := h.resolve_left hwhole
      apply decidedAlone_of_nullptr
      intro rcvbuf
      by_cases hd : d.length < headerSize
      · exact revRTP_short rcvbuf hd
      · rcases revRTP_cut rcvbuf (not_lt.mp hd) hmax hroom (not_le.mp hwhole).le with h1 | h1
        · exact absurd h1.2 (hcut _)
        · exact h1.1

/-- Exactly when `revRTP` decides on the datagram alone. -/
theorem decidedAlone_iff (hmax : d.length ≤ rcvBuffSize) : DecidedAlone d ↔ Decisive d :=
  ⟨decisive_of_decidedAlone hmax, decidedAlone_of_decisive hmax⟩

/-- The DATA packet with the number 0 and the one byte 7, without this byte. -/
def cutDatagram : List UInt8 := [2, 1, 0, 0, 0, 0, 0, 147, 18, 4, 200]

theorem decidedAlone_iff_whole : DecidedAlone (cutDatagram ++ [7]) :=
  (decidedAlone_iff (by decide)).mpr (Or.inr ⟨by decide, Or.inl (by decide)⟩)

/-- Without its last byte it is accepted when the byte was left in `rcvbuf` by the whole packet. -/
theorem cutDatagram_completed : ¬ DecidedAlone cutDatagram := by
  intro h
  have hcompleted : CompletedBy cutDatagram [7] := ⟨by decide, by decide +kernel⟩
  rcases decisive_of_decidedAlone (by decide) h with hd | ⟨-, hd | hd⟩
  · exact absurd hd (by decide)
  · exact absurd hd (by decide)
  · exact hd [7] hcompleted

end Leftovers

section Accesses

variable {d : List UInt8} {length : ℕ}

/-- An index into `rcvbuf`, into `payload`, or into the bytes that the checksum goes through. -/
inductive Access
  | rcvbuf (i : ℕ)
  | payload (i : ℕ)
  | checksummed (i : ℕ)
  deriving DecidableEq

def Access.InRange : Access → Prop
  | rcvbuf i => i < rcvBuffSize
  | payload i => i < payloadSize
  | checksummed i => i < payloadSize + headerSize

instance : (a : Access) → Decidable a.InRange
  | .rcvbuf i => inferInstanceAs (Decidable (i < rcvBuffSize))
  | .payload i => inferInstanceAs (Decidable (i < payloadSize))
  | .checksummed i => inferInstanceAs (Decidable (i < payloadSize + headerSize))

def damagedAccesses (length : ℕ) : List Access :=
  (List.range (length + headerSize)).map .checksummed

/-- Two copies, the second one as long as the header says, then `payload[length] = 0` and
`Damaged`. -/
def unpackAccesses (length : ℕ) : List Access :=
  (List.range headerSize).map .rcvbuf ++
  (List.range length).flatMap (fun i => [.rcvbuf (headerSize + i), .payload i]) ++
  .payload length :: damagedAccesses length

/-- Every index that `revRTP` reads or writes, first the ones of `recvfrom`. -/
def revRTPAccesses (rcvbuf : Buffer rcvBuffSize) (datagram : List UInt8) : List Access :=
  let ret := min datagram.length rcvBuffSize
  (List.range ret).map .rcvbuf ++ if ret < headerSize then []
    else unpackAccesses (RtpHeader.ofBytes (rcvbuf.fill datagram).bytes).length.toNat

private theorem payload_mem_unpackAccesses {i : ℕ} :
    .payload i ∈ unpackAccesses length ↔ i ≤ length := by
  simp [unpackAccesses, damagedAccesses]
  omega

/-- What follows `recvfrom` is in range exactly when the payload has room for the zero. -/
theorem unpack_inRange_iff :
    (∀ a ∈ unpackAccesses length, a.InRange) ↔ length < payloadSize := by
  constructor
  · intro h
    exact h (.payload length) (payload_mem_unpackAccesses.mpr le_rfl)
  · intro hroom a ha
    cases a with
    | rcvbuf i =>
      have hi : i < headerSize + length := by
        simp [unpackAccesses, damagedAccesses] at ha
        omega
      simp only [payloadSize, headerSize] at hroom hi
      show i < 2048
      omega
    | payload i => exact (payload_mem_unpackAccesses.mp ha).trans_lt hroom
    | checksummed i =>
      have hi : i < length + headerSize := by
        simpa [unpackAccesses, damagedAccesses] using ha
      show i < payloadSize + headerSize
      omega

private theorem headerSize_le_take (hd : headerSize ≤ d.length) :
    headerSize ≤ (d.take rcvBuffSize).length := by
  have hsize : headerSize ≤ rcvBuffSize := by decide
  rw [List.length_take]
  exact le_min hsize hd

private theorem headerOf_take (hd : headerSize ≤ d.length) :
    headerOf (d.take rcvBuffSize) = headerOf d := by
  rw [← ofBytes_append (headerSize_le_take hd) (d.drop rcvBuffSize), List.take_append_drop]

private theorem ofBytes_fill (rcvbuf : Buffer rcvBuffSize) (hd : headerSize ≤ d.length) :
    RtpHeader.ofBytes (rcvbuf.fill d).bytes = headerOf d :=
  (ofBytes_append (headerSize_le_take hd) _).trans (headerOf_take hd)

private theorem revRTPAccesses_eq (rcvbuf : Buffer rcvBuffSize) (d : List UInt8) :
    revRTPAccesses rcvbuf d = (List.range (min d.length rcvBuffSize)).map .rcvbuf ++
      if d.length < headerSize then [] else unpackAccesses (headerOf d).length.toNat := by
  have hret : min d.length rcvBuffSize < headerSize ↔ d.length < headerSize := by
    simp only [rcvBuffSize, headerSize]
    omega
  simp only [revRTPAccesses, hret]
  congr 1
  split_ifs with hd
  · rfl
  · rw [ofBytes_fill rcvbuf (not_lt.mp hd)]

private theorem revRTP_take (rcvbuf : Buffer rcvBuffSize) (d : List UInt8) :
    revRTP rcvbuf (d.take rcvBuffSize) = revRTP rcvbuf d := by
  have hret : min (d.take rcvBuffSize).length rcvBuffSize = min d.length rcvBuffSize := by
    rw [List.length_take]
    omega
  have hfill : rcvbuf.fill (d.take rcvBuffSize) = rcvbuf.fill d := by
    have hsize := rcvbuf.size
    apply Buffer.ext
    simp only [Buffer.fill, List.take_take, Nat.min_self, List.length_take]
    rcases le_total rcvBuffSize d.length with hd | hd
    · rw [Nat.min_eq_left hd, List.drop_of_length_le hsize.le,
        List.drop_of_length_le (hsize.trans_le hd)]
    · rw [Nat.min_eq_right hd]
  simp only [revRTP, hret, hfill]

def HasRoom (d : List UInt8) : Prop :=
  d.length < headerSize ∨ (headerOf d).length.toNat < payloadSize

instance (d : List UInt8) : Decidable (HasRoom d) := inferInstanceAs (Decidable (_ ∨ _))

theorem revRTP_undefined_iff (rcvbuf : Buffer rcvBuffSize) (d : List UInt8) :
    (revRTP rcvbuf d).1 = .undefined ↔ ¬ HasRoom d := by
  by_cases hd : d.length < headerSize
  · exact iff_of_false (by rw [revRTP_short rcvbuf hd]; exact nofun) (not_not.mpr (Or.inl hd))
  · rw [not_lt] at hd
    obtain ⟨hover, hroom⟩ :=
      revRTP_long rcvbuf (headerSize_le_take hd) (List.length_take_le _ _)
    rw [revRTP_take, headerOf_take hd] at hover hroom
    by_cases hlen : payloadSize ≤ (headerOf d).length.toNat
    · exact iff_of_true (hover hlen) (not_or.mpr ⟨not_lt.mpr hd, not_lt.mpr hlen⟩)
    · rw [not_le] at hlen
      obtain ⟨payload, -, -, hrev⟩ := hroom hlen
      refine iff_of_false ?_ (not_not.mpr (Or.inr hlen))
      rw [hrev]
      split_ifs <;> exact nofun

/-- The model has no result exactly where the code writes past the payload. -/
theorem revRTP_undefined_iff_access (rcvbuf : Buffer rcvBuffSize) (d : List UInt8) :
    (revRTP rcvbuf d).1 = .undefined ↔
      ∃ i, .payload i ∈ revRTPAccesses rcvbuf d ∧ ¬ (Access.payload i).InRange := by
  have hmem : ∀ i, .payload i ∈ revRTPAccesses rcvbuf d ↔
      headerSize ≤ d.length ∧ i ≤ (headerOf d).length.toNat := by
    intro i
    rw [revRTPAccesses_eq]
    split_ifs with hd
    · simp [hd]
    · simp [payload_mem_unpackAccesses, not_lt.mp hd]
  rw [revRTP_undefined_iff, HasRoom, not_or, not_lt, not_lt]
  simp only [hmem]
  constructor
  · rintro ⟨hd, hlen⟩
    exact ⟨_, ⟨hd, le_rfl⟩, not_lt.mpr hlen⟩
  · rintro ⟨i, ⟨hd, hi⟩, hout⟩
    exact ⟨hd, (not_lt.mp hout).trans hi⟩

/-- Every index is in range exactly when the datagram is too short for a header or its header
gives a length that leaves room for the zero. -/
theorem revRTP_inRange_iff (rcvbuf : Buffer rcvBuffSize) (d : List UInt8) :
    (∀ a ∈ revRTPAccesses rcvbuf d, a.InRange) ↔ HasRoom d := by
  have hreceived : ∀ a ∈ (List.range (min d.length rcvBuffSize)).map Access.rcvbuf,
      a.InRange := by
    intro a ha
    obtain ⟨i, hi, rfl⟩ := List.mem_map.mp ha
    exact (List.mem_range.mp hi).trans_le (Nat.min_le_right _ _)
  rw [revRTPAccesses_eq, List.forall_mem_append, and_iff_right hreceived]
  split_ifs with hd
  · simp [HasRoom, hd]
  · rw [unpack_inRange_iff, HasRoom, or_iff_right hd]

def longDatagram : List UInt8 := [2, 0xB5, 5, 0, 0, 0, 0, 0, 0, 0, 0]

theorem longDatagram_overruns : ¬ ∀ (rcvbuf : Buffer rcvBuffSize) (d : List UInt8),
    d.length ≤ rcvBuffSize → ∀ a ∈ revRTPAccesses rcvbuf d, a.InRange := by
  intro h
  have hmem : .payload payloadSize ∈ revRTPAccesses (.zeroed rcvBuffSize) longDatagram := by
    rw [revRTPAccesses_eq, if_neg (by decide)]
    exact List.mem_append_right _ (payload_mem_unpackAccesses.mpr (by decide))
  exact lt_irrefl payloadSize (h _ _ (by decide) _ hmem)

end Accesses

end NetworkingLabs.Rtp
