import NetworkingLabs.ByteMemory
import NetworkingLabs.MessageStreams

/-!
# FTP datagrams

The packed header with its big endian length, the constructors, and the bytes that `writeDgram`
writes and `readDgram` asks for. The integers lie in memory with the lowest byte first.
-/
namespace NetworkingLabs.Ftp

section Header

def endianRev (a : UInt32) : UInt32 :=
  let p := bytesLE 4 a.toNat
  ((p.getD 0 0).toUInt32 <<< 24) + ((p.getD 1 0).toUInt32 <<< 16) +
    ((p.getD 2 0).toUInt32 <<< 8) + (p.getD 3 0).toUInt32

def headerSize : UInt32 := 12

def buffSize : ℕ := 2 ^ 22

def protocol : List UInt8 := [0xe3, 0x6d, 0x79, 0x66, 0x74, 0x70]

structure Header where
  type : UInt8
  status : UInt8
  length : UInt32  -- as it lies in memory
  deriving DecidableEq

def Header.make (type status : UInt8) (length : UInt32) : Header := ⟨type, status, endianRev length⟩

def Header.payloadLength (hd : Header) : ℕ := (endianRev hd.length - headerSize).toNat

def Header.dgLength (hd : Header) : ℕ := (endianRev hd.length).toNat

def Header.bytes (hd : Header) : List UInt8 :=
  protocol ++ [hd.type, hd.status] ++ bytesLE 4 hd.length.toNat

/-- The header that some memory holds; `m_protocol` is never looked at. -/
def Header.ofBytes (bs : List UInt8) : Header where
  type := bs.getD 6 0
  status := bs.getD 7 0
  length := UInt32.ofNat (ofBytesLE ((bs.drop 8).take 4))

end Header

section Datagram

/-- A datagram with its payload, which is empty when there is none. -/
structure Datagram where
  type : UInt8
  status : UInt8
  payload : List UInt8
  deriving DecidableEq

def Datagram.hd (d : Datagram) : Header :=
  .make d.type d.status (headerSize + UInt32.ofNat d.payload.length)

/-- The bytes that `writeDgram` passes to `writeBuf`; `none` copies past the end of `bbuff`. -/
def writeDgram (d : Datagram) : Option (List UInt8) :=
  if headerSize.toNat + d.hd.payloadLength ≤ buffSize then
    some ((d.hd.bytes ++ d.payload.take d.hd.payloadLength).take d.hd.dgLength)
  else none

/-- What `readDgram` passes to `read` as the length, after the bytes that it has got: first in
`bbuff` up to the header, then in the payload. -/
def readDgramNeed (got : List UInt8) : ℕ :=
  if got.length < headerSize.toNat then headerSize.toNat - got.length
  else headerSize.toNat + (Header.ofBytes got).payloadLength - got.length

def readDgram (got : List UInt8) : Datagram where
  type := (Header.ofBytes got).type
  status := (Header.ofBytes got).status
  payload := got.drop headerSize.toNat

end Datagram

section Layout

variable {d : Datagram} {got rest : List UInt8}

theorem endianRev_eq (a : UInt32) :
    endianRev a = UInt32.ofNat (ofBytesLE (bytesLE 4 a.toNat).reverse) := by
  rw [← UInt32.toNat_inj]
  simp [endianRev, bytesLE, ofBytesLE]
  omega

private theorem bytesLE_endianRev (a : UInt32) :
    bytesLE 4 (endianRev a).toNat = (bytesLE 4 a.toNat).reverse := by
  have hlen : (bytesLE 4 a.toNat).reverse.length = 4 := by simp
  have hlt : ofBytesLE (bytesLE 4 a.toNat).reverse < 2 ^ 32 := by
    simpa [hlen] using ofBytesLE_lt (bytesLE 4 a.toNat).reverse
  have hback := bytesLE_ofBytesLE (bytesLE 4 a.toNat).reverse
  rw [hlen] at hback
  rw [endianRev_eq, UInt32.toNat_ofNat', Nat.mod_eq_of_lt hlt, hback]

theorem endianRev_endianRev (a : UInt32) : endianRev (endianRev a) = a := by
  have hlt : a.toNat < 256 ^ 4 := a.toNat_lt
  rw [endianRev_eq, bytesLE_endianRev, List.reverse_reverse, ofBytesLE_bytesLE hlt,
    UInt32.ofNat_toNat]

@[simp] theorem Header.length_bytes (hd : Header) : hd.bytes.length = headerSize.toNat := by
  simp [bytes, protocol, headerSize]

theorem Header.ofBytes_bytes (hd : Header) (rest : List UInt8) :
    ofBytes (hd.bytes ++ rest) = hd := by
  obtain ⟨type, status, length⟩ := hd
  have hlen : ofBytesLE (bytesLE 4 length.toNat) = length.toNat := ofBytesLE_bytesLE length.toNat_lt
  have hfield : ((bytes ⟨type, status, length⟩ ++ rest).drop 8).take 4 =
      bytesLE 4 length.toNat := by
    simp [bytes, protocol]
  rw [ofBytes, hfield, hlen]
  simp [bytes, protocol]

def Datagram.Fits (d : Datagram) : Prop := headerSize.toNat + d.payload.length ≤ buffSize

instance (d : Datagram) : Decidable d.Fits := inferInstanceAs (Decidable (_ ≤ _))

def Datagram.bytes (d : Datagram) : List UInt8 := d.hd.bytes ++ d.payload

theorem Datagram.payloadLength_eq (h : d.payload.length < 2 ^ 32) :
    d.hd.payloadLength = d.payload.length := by
  rw [hd, Header.make, Header.payloadLength, endianRev_endianRev, UInt32.add_comm,
    UInt32.add_sub_cancel, UInt32.toNat_ofNat', Nat.mod_eq_of_lt h]

theorem Datagram.Fits.payloadLength (h : d.Fits) : d.hd.payloadLength = d.payload.length := by
  have hfits : 12 + d.payload.length ≤ 2 ^ 22 := h
  exact d.payloadLength_eq (by omega)

theorem Datagram.Fits.dgLength (h : d.Fits) : d.hd.dgLength = d.bytes.length := by
  have hfits : 12 + d.payload.length ≤ 2 ^ 22 := h
  simp [bytes, hd, Header.make, Header.dgLength, endianRev_endianRev, headerSize]
  omega

theorem writeDgram_eq (h : d.Fits) : writeDgram d = some d.bytes := by
  have hbytes : d.hd.bytes ++ d.payload = d.bytes := rfl
  have hroom : headerSize.toNat + d.payload.length ≤ buffSize := h
  rw [writeDgram, h.payloadLength, h.dgLength, if_pos hroom, List.take_length, hbytes,
    List.take_length]

/-- What does not fit is copied past the end, unless its length does not fit in the header. -/
theorem writeDgram_eq_none (h : ¬ d.Fits) (hlen : d.payload.length < 2 ^ 32) :
    writeDgram d = none := by
  have hpast : ¬ headerSize.toNat + d.payload.length ≤ buffSize := h
  rw [writeDgram, d.payloadLength_eq hlen, if_neg hpast]

end Layout

section Framing

variable {d : Datagram} {got rest : List UInt8}

/-- While the header is coming in, `readDgram` asks for the rest of it. -/
theorem readDgramNeed_header (h : got.length < headerSize.toNat) :
    readDgramNeed got = headerSize.toNat - got.length := if_pos h

private theorem readDgramNeed_payload (h : d.Fits) (hgot : d.bytes = got ++ rest)
    (hheader : headerSize.toNat ≤ got.length) : readDgramNeed got = rest.length := by
  have hlen := congrArg List.length hgot
  rw [Datagram.bytes, List.length_append, List.length_append, Header.length_bytes] at hlen
  have hgot' : got <+: d.bytes := ⟨rest, hgot.symm⟩
  obtain ⟨front, rfl⟩ : d.hd.bytes <+: got :=
    List.prefix_of_prefix_length_le (List.prefix_append _ d.payload) hgot'
      (by rw [Header.length_bytes]; exact hheader)
  rw [readDgramNeed, if_neg (by omega), Header.ofBytes_bytes, h.payloadLength]
  omega

def dgrams : Framing Datagram where
  encode := Datagram.bytes
  need := readDgramNeed
  decode := readDgram
  Valid := Datagram.Fits
  encode_ne_nil := by
    intro d _ hnil
    have hlen := congrArg List.length hnil
    simp [Datagram.bytes, headerSize] at hlen
  need_front := by
    intro d got rest h hgot hne
    have hrest : 0 < rest.length := List.length_pos_iff.mpr hne
    have hlen := congrArg List.length hgot
    rw [Datagram.bytes, List.length_append, List.length_append, Header.length_bytes] at hlen
    by_cases hheader : got.length < headerSize.toNat
    · rw [readDgramNeed_header hheader]
      omega
    · rw [readDgramNeed_payload h hgot (by omega)]
      exact ⟨hrest, Nat.le_refl _⟩
  need_encode := by
    intro d h
    have hall : d.bytes = d.bytes ++ [] := (List.append_nil _).symm
    exact readDgramNeed_payload h hall (by simp [Datagram.bytes])
  decode_encode := by
    intro d h
    simp [readDgram, Datagram.bytes, Header.ofBytes_bytes, Datagram.hd, Header.make]

end Framing

end NetworkingLabs.Ftp
