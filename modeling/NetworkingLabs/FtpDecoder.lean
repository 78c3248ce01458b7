import NetworkingLabs.FtpServer
import NetworkingLabs.FtpSockets
import Mathlib.Data.List.GetD

/-!
# Datagrams as they are decoded

`bytes2dgram` and `readDgram` with the memory that they leave unset. The protocol bytes and the
length of a header are never checked, and a datagram without a payload keeps a pointer that was
never set.
-/
namespace NetworkingLabs.Ftp
open CountingLoop

section Memory

/-- What memory holds that nothing has been written to. -/
structure Memory where
  payload : UInt64  -- the member of a new datagram
  block : ℕ → UInt8  -- the bytes of a new block
  after : List UInt8  -- what can be read behind that block
  readable : UInt64 → List UInt8  -- what can be read from an address on
  bbuff : Buffer buffSize
  null : readable 0 = []

def Memory.zeroed : Memory where
  payload := 0
  block _ := 0
  after := []
  readable _ := []
  bbuff := .zeroed buffSize
  null := rfl

/-- A `byte *`: what some word holds, or a block that `new` has returned. -/
inductive Pointer
  | address (a : UInt64)
  | block (bytes : List UInt8)
  deriving DecidableEq

/-- `struct datagram` with the header that `hd` points to. -/
structure RawDatagram where
  hd : Header
  payload : Pointer
  deriving DecidableEq

/-- Calls of `read` that together return what was asked for. -/
structure Reads (len : UInt64) where
  results : ℕ → ℤ
  total : Option ℕ
  allowed : Allowed len results total
  steady : Steady len results

namespace RawDatagram

/-- `payload_length()`, `hd` not being null. -/
def payloadLength (dg : RawDatagram) : UInt64 := (endianRev dg.hd.length - headerSize).toUInt64

/-- `bytes2dgram(buff)`, a pointer; `new` finds room for every length. -/
def bytes2dgram (m : Memory) (buff : List UInt8) : Option RawDatagram :=
  let dg : RawDatagram := ⟨.ofBytes buff, .address m.payload⟩
  let len := dg.payloadLength
  if len ≠ 0 then some { dg with payload := .block ((List.range len.toNat).map m.block) }
  else some dg

/-- `if(reply->payload_length()) readBuf(src_socket, reply->payload, reply->payload_length())` -/
def readPayload (calls : ∀ len, Reads len) (turns : ℕ) (s : Incoming) (reply : RawDatagram) :
    Option RawDatagram :=
  match reply.payload with
  | .block bytes =>
    let len := reply.payloadLength
    if len ≠ 0 then
      (readBuf len (calls len).results turns { s with buf := bytes }).map fun s ↦
        { reply with payload := .block s.buf }
    else some reply
  | .address _ => some reply  -- which comes only where the length is zero

/-- `readDgram(src_socket)`, with so many turns for each `readBuf`. -/
def readDgram (m : Memory) (calls : ∀ len, Reads len) (turns : ℕ) (s : Incoming) :
    Option RawDatagram := do
  let len := headerSize.toUInt64
  let s ← readBuf len (calls len).results turns { s with buf := m.bbuff.bytes }
  let reply ← bytes2dgram m s.buf
  readPayload calls turns s reply

def Built (s : Incoming) (m : Memory) (dg : RawDatagram) : Prop :=
  ∃ calls turns, readDgram m calls turns s = some dg

/-- What the destructor gives back besides the header. -/
def delete (dg : RawDatagram) : Option Pointer :=
  if dg.payload ≠ .address 0 then some dg.payload else none

def text (m : Memory) (dg : RawDatagram) : List UInt8 :=
  match dg.payload with
  | .block bytes => bytes ++ m.after
  | .address a => m.readable a

/-- The string that `(char*) rev->payload` is taken for; `none` runs into what cannot be read. -/
def string (m : Memory) (dg : RawDatagram) : Option (List UInt8) :=
  if (0 : UInt8) ∈ dg.text m then some (cString (dg.text m)) else none

def looked (m : Memory) (dg : RawDatagram) : ℕ := (cString (dg.text m)).length + 1

end RawDatagram

end Memory

section Header

def beLength (buff : List UInt8) : ℕ := ofBytesLE ((buff.drop 8).take 4).reverse

variable {buff rest : List UInt8}

theorem Header.ofBytes_append (h : headerSize.toNat ≤ buff.length) :
    ofBytes (buff ++ rest) = ofBytes buff := by
  have hlen : 12 ≤ buff.length := h
  have hfield : ((buff ++ rest).drop 8).take 4 = (buff.drop 8).take 4 := by
    rw [List.drop_append_of_le_length (by omega), List.take_append_of_le_length]
    rw [List.length_drop]
    omega
  rw [ofBytes, ofBytes, hfield, List.getD_append _ _ _ _ (by omega),
    List.getD_append _ _ _ _ (by omega)]

theorem Header.bytes_ofBytes (h : buff.length = headerSize.toNat) :
    (ofBytes buff).bytes = protocol ++ buff.drop 6 := by
  have hlen : buff.length = 12 := h
  have hdrop : buff.drop 6 = [buff.getD 6 0, buff.getD 7 0] ++ buff.drop 8 := by
    rw [List.drop_eq_getElem_cons (by omega), List.drop_eq_getElem_cons (by omega),
      List.getD_eq_getElem _ _ (by omega), List.getD_eq_getElem _ _ (by omega)]
    rfl
  have hfield : (buff.drop 8).length = 4 := by rw [List.length_drop, hlen]
  rw [bytes, ofBytes, UInt32.toNat_ofNat', List.take_of_length_le hfield.le,
    bytesLE_mod hfield (by decide), hdrop, List.append_assoc]

theorem Header.dgLength_ofBytes (h : buff.length = headerSize.toNat) :
    (ofBytes buff).dgLength = beLength buff := by
  have hlen : buff.length = 12 := h
  have hfield : ((buff.drop 8).take 4).length = 4 := by
    rw [List.length_take, List.length_drop]
    omega
  have hlt : ofBytesLE ((buff.drop 8).take 4).reverse < 2 ^ 32 := by
    simpa [hfield] using ofBytesLE_lt ((buff.drop 8).take 4).reverse
  rw [dgLength, endianRev_eq, ofBytes, UInt32.toNat_ofNat', UInt32.toNat_ofNat',
    bytesLE_mod hfield (by decide), Nat.mod_eq_of_lt hlt, beLength]

/-- There is no wrap-around exactly from the length of a header on. -/
theorem Header.payloadLength_add (hd : Header) :
    hd.payloadLength + headerSize.toNat = hd.dgLength ↔ headerSize.toNat ≤ hd.dgLength := by
  have hlt := (endianRev hd.length).toNat_lt
  have hsize : headerSize.toNat = 12 := rfl
  rw [payloadLength, dgLength, UInt32.toNat_sub, hsize]
  omega

end Header

section Decoding

variable {m m' : Memory} {s : Incoming} {dg : RawDatagram} {buff : List UInt8}

def Reads.once (len : UInt64) : Reads len where
  results _ := len.toNat
  total := none
  allowed := allowed_once rfl
  steady := steady_once rfl

def Incoming.payload (s : Incoming) : List UInt8 :=
  (s.fill headerSize.toNat).next (Header.ofBytes (s.next headerSize.toNat)).payloadLength

namespace RawDatagram

def decoded (m : Memory) (s : Incoming) : RawDatagram where
  hd := .ofBytes (s.next headerSize.toNat)
  payload := if (Header.ofBytes (s.next headerSize.toNat)).payloadLength ≠ 0 then
    .block s.payload else .address m.payload

variable {hd : Header} {payload : Pointer}

@[simp] theorem toNat_payloadLength :
    (⟨hd, payload⟩ : RawDatagram).payloadLength.toNat = hd.payloadLength := UInt32.toNat_toUInt64 _

private theorem payloadLength_ne_zero :
    (⟨hd, payload⟩ : RawDatagram).payloadLength ≠ 0 ↔ hd.payloadLength ≠ 0 := by
  rw [← toNat_payloadLength, ne_eq, ne_eq, ← UInt64.toNat_inj, UInt64.toNat_zero]

private theorem bytes2dgram_eq (m : Memory) (buff : List UInt8) :
    bytes2dgram m buff = some ⟨.ofBytes buff, if (Header.ofBytes buff).payloadLength ≠ 0 then
      .block ((List.range (Header.ofBytes buff).payloadLength).map m.block)
      else .address m.payload⟩ := by
  simp only [bytes2dgram, payloadLength_ne_zero, toNat_payloadLength]
  by_cases hlen : (Header.ofBytes buff).payloadLength ≠ 0
  · rw [if_pos hlen, if_pos hlen]
  · rw [if_neg hlen, if_neg hlen]

private theorem readPayload_block (calls : ∀ len, Reads len) {bytes : List UInt8}
    (hlen : hd.payloadLength ≠ 0) (hbytes : bytes.length = hd.payloadLength) :
    ∃ n, ∀ turns s, readPayload calls turns s ⟨hd, .block bytes⟩ =
      if n < turns then some ⟨hd, .block (s.next hd.payloadLength)⟩ else none := by
  obtain ⟨len, hlen'⟩ : ∃ len, (⟨hd, .block bytes⟩ : RawDatagram).payloadLength = len := ⟨_, rfl⟩
  have htoNat : len.toNat = hd.payloadLength := by rw [← hlen', toNat_payloadLength]
  have hne : len ≠ 0 := by rw [← hlen']; exact payloadLength_ne_zero.mpr hlen
  obtain ⟨n, hread⟩ := readBuf_steady (calls len).allowed (calls len).steady
  refine ⟨n, fun turns s ↦ ?_⟩
  simp only [readPayload]
  rw [hlen', if_pos hne, hread _ _ (by rw [htoNat, ← hbytes]), htoNat]
  split
  · rw [Option.map_some, Incoming.fill, ← hbytes, List.drop_length, List.append_nil]
    rfl
  · rfl

/-- With turns enough, `readDgram` returns just this. -/
theorem readDgram_eq (m : Memory) (calls : ∀ len, Reads len) (s : Incoming) :
    ∃ n, ∀ turns, readDgram m calls turns s = if n < turns then some (decoded m s) else none := by
  obtain ⟨n, hheader⟩ := readBuf_steady (calls headerSize.toUInt64).allowed
    (calls headerSize.toUInt64).steady
  obtain ⟨t, ht⟩ : ∃ t : Incoming, t = { s with buf := m.bbuff.bytes } := ⟨_, rfl⟩
  obtain ⟨hd, hhd⟩ : ∃ hd, Header.ofBytes (s.next headerSize.toNat) = hd := ⟨_, rfl⟩
  have hroom : headerSize.toUInt64.toNat ≤ t.buf.length := by
    rw [ht, m.bbuff.size]
    decide
  have hfill : Header.ofBytes (t.fill headerSize.toUInt64.toNat).buf = hd := by
    rw [← hhd, ht]
    exact Header.ofBytes_append (Incoming.length_next _).ge
  have hnext : (s.fill headerSize.toNat).next hd.payloadLength =
      (t.fill headerSize.toUInt64.toNat).next hd.payloadLength := by
    rw [ht]
    rfl
  have hdecoded : decoded m s = ⟨hd, if hd.payloadLength ≠ 0 then
      .block ((t.fill headerSize.toUInt64.toNat).next hd.payloadLength)
      else .address m.payload⟩ := by
    rw [decoded, Incoming.payload, hhd, hnext]
  have hbytes2dgram := bytes2dgram_eq m (t.fill headerSize.toUInt64.toNat).buf
  rw [hfill] at hbytes2dgram
  simp only [readDgram, ← ht, hheader t _ hroom]
  by_cases hlen : hd.payloadLength ≠ 0
  · rw [if_pos hlen] at hdecoded hbytes2dgram
    have hblock : ((List.range hd.payloadLength).map m.block).length = hd.payloadLength := by simp
    obtain ⟨k, hpayload⟩ := readPayload_block calls hlen hblock
    refine ⟨max n k, fun turns ↦ ?_⟩
    by_cases hn : n < turns
    · rw [if_pos hn, Option.bind_eq_bind, Option.bind_some, hbytes2dgram]
      simp only [Option.bind_eq_bind, Option.bind_some, hpayload, hdecoded, max_lt_iff, hn,
        true_and]
    · rw [if_neg hn, if_neg (by omega)]
      rfl
  · rw [if_neg hlen] at hdecoded hbytes2dgram
    refine ⟨n, fun turns ↦ ?_⟩
    split
    · rw [Option.bind_eq_bind, Option.bind_some, hbytes2dgram, hdecoded]
      rfl
    · rfl

private theorem built_iff : Built s m dg ↔ dg = decoded m s := by
  constructor
  · rintro ⟨calls, turns, hdg⟩
    obtain ⟨n, hread⟩ := readDgram_eq m calls s
    rw [hread] at hdg
    split at hdg
    · exact (Option.some.inj hdg).symm
    · exact absurd hdg (Option.some_ne_none dg).symm
  · rintro rfl
    obtain ⟨n, hread⟩ := readDgram_eq m Reads.once s
    exact ⟨Reads.once, n + 1, by rw [hread, if_pos (Nat.lt_succ_self n)]⟩

end RawDatagram

end Decoding

section Headers

variable {buff : List UInt8}

open RawDatagram

def Made (buff : List UInt8) : Prop :=
  ∃ (type status : UInt8) (length : UInt32), headerSize ≤ length ∧
    buff = (Header.make type status length).bytes

/-- The header has the protocol and a length that is possible, and the rest of that is the length of
the payload. -/
def RawDatagram.Proper (dg : RawDatagram) (buff : List UInt8) : Prop :=
  buff.take 6 = protocol ∧ headerSize.toNat ≤ beLength buff ∧
    dg.payloadLength.toNat + headerSize.toNat = beLength buff

/-- `bytes2dgram` and `readDgram` take only a header that is as it should be. -/
def TakesProper (buff : List UInt8) : Prop :=
  (∀ m dg, bytes2dgram m buff = some dg → dg.Proper buff) ∧
    ∀ s m dg, s.next headerSize.toNat = buff → Built s m dg → dg.Proper buff

theorem made_iff (h : buff.length = headerSize.toNat) :
    Made buff ↔ buff.take 6 = protocol ∧ headerSize.toNat ≤ beLength buff := by
  have hlength := Header.dgLength_ofBytes h
  constructor
  · rintro ⟨type, status, length, hle, hbuff⟩
    have hback := Header.ofBytes_bytes (.make type status length) []
    rw [List.append_nil, ← hbuff] at hback
    constructor
    · rw [hbuff, Header.bytes, List.append_assoc]
      exact List.take_left' rfl
    · rw [← hlength, hback, Header.dgLength, Header.make, endianRev_endianRev]
      exact UInt32.le_iff_toNat_le.mp hle
  · rintro ⟨hprotocol, hle⟩
    have hbytes := Header.bytes_ofBytes h
    rw [← hprotocol, List.take_append_drop] at hbytes
    obtain ⟨hd, hhd⟩ : ∃ hd, Header.ofBytes buff = hd := ⟨_, rfl⟩
    rw [hhd] at hlength hbytes
    refine ⟨hd.type, hd.status, endianRev hd.length, ?_, ?_⟩
    · rwa [UInt32.le_iff_toNat_le, ← Header.dgLength, hlength]
    · rw [Header.make, endianRev_endianRev, hbytes]

theorem RawDatagram.proper_iff {payload : Pointer} (h : buff.length = headerSize.toNat) :
    (⟨.ofBytes buff, payload⟩ : RawDatagram).Proper buff ↔ Made buff := by
  rw [made_iff h, Proper, toNat_payloadLength, ← Header.dgLength_ofBytes h,
    Header.payloadLength_add, and_self]

theorem takesProper_iff (buff : Buffer headerSize.toNat) :
    TakesProper buff.bytes ↔ Made buff.bytes := by
  constructor
  · intro h
    exact (proper_iff buff.size).mp (h.1 .zeroed _ (bytes2dgram_eq _ _))
  · intro hmade
    refine ⟨fun m dg hdg ↦ ?_, fun s m dg hs hdg ↦ ?_⟩
    · rw [bytes2dgram_eq] at hdg
      rw [← Option.some.inj hdg]
      exact (proper_iff buff.size).mpr hmade
    · rw [built_iff.mp hdg, decoded, hs]
      exact (proper_iff buff.size).mpr hmade

/-- Whatever protocol a header has, it is taken, by `readDgram` over whatever calls of `read` once
there are turns enough; and with a possible length the rest of that is the length of the payload. -/
theorem header_taken (buff : Buffer headerSize.toNat)
    (h : headerSize.toNat ≤ beLength buff.bytes) :
    (∀ m, ∃ dg, bytes2dgram m buff.bytes = some dg ∧
      dg.payloadLength.toNat + headerSize.toNat = beLength buff.bytes) ∧
    (∀ s m (calls : ∀ len, Reads len), s.next headerSize.toNat = buff.bytes → ∃ dg n,
      (∀ turns, RawDatagram.readDgram m calls turns s = if n < turns then some dg else none) ∧
      dg.payloadLength.toNat + headerSize.toNat = beLength buff.bytes) ∧
    (TakesProper buff.bytes ↔ Made buff.bytes) := by
  have hlength : (Header.ofBytes buff.bytes).payloadLength + headerSize.toNat =
      beLength buff.bytes := by
    rw [← Header.dgLength_ofBytes buff.size] at h ⊢
    exact (Header.payloadLength_add _).mpr h
  refine ⟨fun m ↦ ⟨_, bytes2dgram_eq m _, ?_⟩, fun s m calls hs ↦ ?_, takesProper_iff buff⟩
  · rw [toNat_payloadLength, hlength]
  · obtain ⟨n, hread⟩ := RawDatagram.readDgram_eq m calls s
    refine ⟨decoded m s, n, hread, ?_⟩
    rw [decoded, toNat_payloadLength, hs, hlength]

def zeros : Buffer headerSize.toNat := ⟨[0, 0, 0, 0, 0, 0, 0xa1, 0, 0, 0, 0, 12], rfl⟩

theorem header_taken_zeros :
    (∀ m, ∃ dg, bytes2dgram m zeros.bytes = some dg ∧
      dg.payloadLength.toNat + headerSize.toNat = beLength zeros.bytes) ∧
    (∀ s m (calls : ∀ len, Reads len), s.next headerSize.toNat = zeros.bytes → ∃ dg n,
      (∀ turns, RawDatagram.readDgram m calls turns s = if n < turns then some dg else none) ∧
      dg.payloadLength.toNat + headerSize.toNat = beLength zeros.bytes) ∧
    (TakesProper zeros.bytes ↔ Made zeros.bytes) :=
  header_taken zeros (by decide)

/-- A header without the protocol is taken all the same. -/
theorem not_takesProper_zeros : ¬ TakesProper zeros.bytes := by
  intro h
  have hproper := h.1 .zeroed _ (bytes2dgram_eq _ _)
  exact absurd hproper.1 (by decide)

end Headers

section Determined

open RawDatagram

variable {s : Incoming} {m m' : Memory} {dg : RawDatagram}

def TakesString (type : UInt8) : Prop :=
  type = authRequest ∨ type = getRequest ∨ type = putRequest

instance (type : UInt8) : Decidable (TakesString type) :=
  inferInstanceAs (Decidable (_ ∨ _ ∨ _))

/-- What the server does with a datagram does not depend on what unset memory holds. -/
structure Determined (s : Incoming) : Prop where
  same : ∀ m m' dg dg', Built s m dg → Built s m' dg' → dg = dg' ∧ dg.delete = dg'.delete ∧
    (TakesString dg.hd.type → dg.string m = dg'.string m')
  null : ∀ m dg, Built s m dg → dg.payloadLength = 0 → dg.payload = .address 0
  within : ∀ m dg, Built s m dg → TakesString dg.hd.type →
    dg.looked m ≤ dg.payloadLength.toNat

theorem Incoming.length_payload :
    s.payload.length = (Header.ofBytes (s.next headerSize.toNat)).payloadLength :=
  Incoming.length_next _

private theorem decoded_of_ne_nil (h : s.payload ≠ []) :
    decoded m s = ⟨.ofBytes (s.next headerSize.toNat), .block s.payload⟩ := by
  rw [decoded, if_pos]
  rw [← Incoming.length_payload]
  exact mt List.eq_nil_of_length_eq_zero h

private theorem decoded_of_nil (h : s.payload = []) :
    decoded m s = ⟨.ofBytes (s.next headerSize.toNat), .address m.payload⟩ := by
  rw [decoded, if_neg]
  rw [← Incoming.length_payload, h]
  exact not_not.mpr rfl

@[simp] theorem text_block {hd : Header} {bytes : List UInt8} :
    (⟨hd, .block bytes⟩ : RawDatagram).text m = bytes ++ m.after := rfl

private theorem looked_le {hd : Header} {bytes : List UInt8} (h : (0 : UInt8) ∈ bytes) :
    (⟨hd, .block bytes⟩ : RawDatagram).looked m ≤ bytes.length := by
  rw [looked, text_block, cString_append_of_mem h]
  exact length_cString_lt.mpr h

private theorem string_eq {hd : Header} {bytes : List UInt8} (h : (0 : UInt8) ∈ bytes) :
    (⟨hd, .block bytes⟩ : RawDatagram).string m = some (cString bytes) := by
  rw [string, text_block, if_pos (List.mem_append_left _ h), cString_append_of_mem h]

theorem not_determined (h : s.payload = []) : ¬ Determined s := by
  intro hdet
  have hsame := (hdet.same .zeroed { Memory.zeroed with payload := 1 } _ _ (built_iff.mpr rfl)
    (built_iff.mpr rfl)).1
  rw [decoded_of_nil h, decoded_of_nil h] at hsame
  have haddress := Pointer.address.inj (congrArg RawDatagram.payload hsame)
  exact absurd haddress (by decide)

theorem determined_of_payload (hne : s.payload ≠ [])
    (hzero : TakesString (Header.ofBytes (s.next headerSize.toNat)).type →
      (0 : UInt8) ∈ s.payload) : Determined s where
  same := by
    intro m m' dg dg' hdg hdg'
    rw [built_iff.mp hdg, built_iff.mp hdg', decoded_of_ne_nil hne, decoded_of_ne_nil hne]
    exact ⟨rfl, rfl, fun htype ↦ by rw [string_eq (hzero htype), string_eq (hzero htype)]⟩
  null := by
    intro m dg hdg hlen
    rw [built_iff.mp hdg, decoded_of_ne_nil hne] at hlen
    have hnonzero := mt List.eq_nil_of_length_eq_zero hne
    rw [Incoming.length_payload] at hnonzero
    exact absurd hlen (payloadLength_ne_zero.mpr hnonzero)
  within := by
    intro m dg hdg htype
    rw [built_iff.mp hdg, decoded_of_ne_nil hne] at htype ⊢
    rw [toNat_payloadLength, ← Incoming.length_payload]
    exact looked_le (hzero htype)

/-- A datagram is determined exactly if it has a payload, with a zero in it where it is taken for a
string. -/
theorem determined_iff (s : Incoming) :
    Determined s ↔ s.payload ≠ [] ∧
      (TakesString (Header.ofBytes (s.next headerSize.toNat)).type → (0 : UInt8) ∈ s.payload) := by
  constructor
  · intro h
    have hne : s.payload ≠ [] := fun hnil ↦ not_determined hnil h
    refine ⟨hne, fun htype ↦ ?_⟩
    have hwithin := h.within .zeroed _ (built_iff.mpr rfl)
    rw [decoded_of_ne_nil hne, toNat_payloadLength, ← Incoming.length_payload, looked,
      text_block] at hwithin
    have hnone : s.payload ++ Memory.zeroed.after = s.payload := List.append_nil _
    rw [hnone] at hwithin
    exact length_cString_lt.mp (hwithin htype)
  · rintro ⟨hne, hzero⟩
    exact determined_of_payload hne hzero

/-- The request to open a connection, as it is sent, is not determined. -/
theorem not_determined_openConnRequest :
    ¬ Determined ⟨fun k ↦ Datagram.openConnRequest.bytes.getD k 0, 0, []⟩ := by
  refine not_determined (List.eq_nil_of_length_eq_zero ?_)
  rw [Incoming.length_payload]
  decide

end Determined

section Sent

open RawDatagram

variable {s : Incoming} {m : Memory} {dg : RawDatagram} {d : Datagram}

theorem RawDatagram.Built.readDgram (h : Built s m dg) (hne : s.payload ≠ []) :
    ∃ got, got = s.next (headerSize.toNat + s.payload.length) ∧
      dg = ⟨.ofBytes got, .block (Ftp.readDgram got).payload⟩ := by
  have hgot : s.next (headerSize.toNat + s.payload.length) =
      s.next headerSize.toNat ++ s.payload := by
    rw [Incoming.next_add, Incoming.length_payload, Incoming.payload]
  refine ⟨_, rfl, ?_⟩
  rw [built_iff.mp h, decoded_of_ne_nil hne, hgot, Ftp.readDgram,
    Header.ofBytes_append (Incoming.length_next _).ge, List.drop_left' (Incoming.length_next _)]

/-- The string is the one that the server takes with the same memory behind. -/
theorem RawDatagram.string_surroundings (e : Surroundings) {bytes : List UInt8}
    (hpayload : dg.payload = .block bytes) (hafter : e.after = m.after)
    (h : (0 : UInt8) ∈ dg.text m) : dg.string m = some (e.string bytes) := by
  rw [string, if_pos h, text, hpayload, Surroundings.string, hafter]

theorem Incoming.payload_eq (h : d.Fits) (hs : s.next d.bytes.length = d.bytes) :
    s.payload = d.payload ∧ Header.ofBytes (s.next headerSize.toNat) = d.hd := by
  have hback := Header.ofBytes_bytes d.hd []
  rw [List.append_nil] at hback
  rw [Datagram.bytes, List.length_append, Header.length_bytes, next_add] at hs
  obtain ⟨hheader, hpayload⟩ := List.append_inj hs (by rw [length_next, Header.length_bytes])
  rw [payload, hheader, hback, h.payloadLength]
  exact ⟨hpayload, rfl⟩

/-- The requests with a string, as they are sent, are determined. -/
theorem determined_ofString {type status : UInt8} {mem : List UInt8}
    (h : (Datagram.ofString type status mem).Fits)
    (hs : s.next (Datagram.ofString type status mem).bytes.length =
      (Datagram.ofString type status mem).bytes) : Determined s := by
  have hzero : (0 : UInt8) ∈ s.payload := by
    rw [(Incoming.payload_eq h hs).1]
    exact List.mem_append_right _ (List.mem_singleton_self 0)
  exact determined_of_payload (List.ne_nil_of_mem hzero) fun _ ↦ hzero

/-- The datagrams without a payload, as they are sent, are not. -/
theorem not_determined_bare (h : d.payload = []) (hs : s.next d.bytes.length = d.bytes) :
    ¬ Determined s :=
  not_determined ((Incoming.payload_eq (fits_bare h) hs).1.trans h)

end Sent

end NetworkingLabs.Ftp
