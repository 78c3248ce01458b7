import NetworkingLabs.NumberedChunks

/-!
# RTP packets

A packet is kept as `revRTP` hands it over after the checksum test: the type byte,
the sequence number and the `length` payload bytes. The byte layout and the
checksum belong to the wire format and are not needed above `revRTP`.
-/
namespace NetworkingLabs.Rtp
open NumberedChunks

def u32 (n : ℕ) : ℕ := n % 2 ^ 32

theorem u32_eq {n : ℕ} (h : n < 2 ^ 32) : u32 n = n := Nat.mod_eq_of_lt h

def rtpStart : UInt8 := 0
def rtpEnd : UInt8 := 1
def rtpData : UInt8 := 2
def rtpAck : UInt8 := 3

def payloadSize : ℕ := 1461

/-- What one `fread` of the sender asks for, `PAYLOAD_SIZE-1`. -/
def freadSize : ℕ := payloadSize - 1

theorem freadSize_pos : 0 < freadSize := by decide

structure RtpPacket where
  type : UInt8
  seqNum : ℕ
  payload : List UInt8
  deriving DecidableEq, Repr

/-- The packets without payload, `rtp_packet_t(type, seq, nullptr)`. -/
def RtpPacket.bare (type : UInt8) (seq : ℕ) : RtpPacket := ⟨type, u32 seq, []⟩

def RtpPacket.data (seq : ℕ) (buf : List UInt8) : RtpPacket := ⟨rtpData, u32 seq, buf⟩

def packetCount (file : List UInt8) : ℕ := chunkCount freadSize file

def dataPacket (file : List UInt8) (i : ℕ) : RtpPacket := .data i (chunk freadSize file i)

def firstBytes (file : List UInt8) (n : ℕ) : List UInt8 :=
  (List.range n).flatMap (chunk freadSize file)

@[simp] theorem bare_type (t : UInt8) (k : ℕ) : (RtpPacket.bare t k).type = t := rfl
@[simp] theorem bare_seqNum (t : UInt8) (k : ℕ) : (RtpPacket.bare t k).seqNum = u32 k := rfl
@[simp] theorem dataPacket_type (file : List UInt8) (i : ℕ) :
    (dataPacket file i).type = rtpData := rfl
@[simp] theorem dataPacket_payload (file : List UInt8) (i : ℕ) :
    (dataPacket file i).payload = chunk freadSize file i := rfl

theorem dataPacket_seqNum (file : List UInt8) {i : ℕ} (h : i < 2 ^ 32) :
    (dataPacket file i).seqNum = i := u32_eq h

theorem firstBytes_packetCount (file : List UInt8) :
    firstBytes file (packetCount file) = file :=
  flatMap_chunk_range_chunkCount freadSize_pos

end NetworkingLabs.Rtp
