import NetworkingLabs.RtpPacket
import Mathlib.Logic.Function.Basic

/-!
# The RTP sender

`initSender`, the loops of `sendMessage` and `sendMessageOpt`, and `terminateSender`,
as a machine that receives or sends at most one datagram a step (a retransmission
round is one step: no variable changes between its sends). The two loops share
everything but what they do with the `acked` array and with an incoming ACK.
-/
namespace NetworkingLabs.Rtp

inductive SenderPC
  | start       -- initSender, before the START is sent
  | connecting  -- initSender, waiting for the ACK of the START
  | refused     -- initSender returned -1
  | read        -- the fread loop at the head of the main loop
  | test        -- if (base == totseq) break;
  | send        -- the loop of first transmissions
  | wait        -- revRTP and what follows it
  | clock       -- the test of the timer and the retransmissions
  | left        -- out of the main loop
  | ended       -- the END is sent
  | undefined   -- an index past the vector, a deleted packet or an unwritten bool was used
  deriving DecidableEq, Repr

structure Sender where
  pc : SenderPC
  startSeq : ℕ
  /-- The unread rest of the file. -/
  fp : List UInt8
  /-- `vector<rtp_packet_t*>`; a deleted packet leaves `none`. -/
  packs : List (Option RtpPacket)
  seqNum : ℕ
  base : ℕ
  nextseqnum : ℕ
  totseq : ℕ
  /-- `new bool[ACKBUFFSIZE]`; `none` until the slot is written. -/
  acked : ℕ → Option Bool

def Sender.init (pc : SenderPC) (startSeq : ℕ) (file : List UInt8) : Sender :=
  ⟨pc, startSeq, file, [], 0, 0, 0, 0, fun _ => none⟩

/-- What distinguishes the two main loops; every field gets the window size. -/
structure SenderLoop where
  /-- After the first transmission of `packs[nextseqnum]`. -/
  onSend : ℕ → Sender → Sender
  /-- On an ACK with the given number. -/
  onAck : ℕ → Sender → ℕ → Sender
  /-- After `revRTP`, ACK or not. -/
  onWait : ℕ → Sender → Sender
  /-- Whether a timeout retransmits `packs[i]`; `none` reads an unwritten bool. -/
  due : ℕ → Sender → ℕ → Option Bool

/-- `for (i = base; i < seq; i++) delete packs[i];` for the given number of rounds;
`none` when `packs[i]` does not exist or is deleted already. -/
def deletePacks (packs : List (Option RtpPacket)) (i : ℕ) : ℕ → Option (List (Option RtpPacket))
  | 0 => some packs
  | k + 1 => match packs[i]? with
    | some (some _) => deletePacks (packs.set i none) (i + 1) k
    | _ => none

/-- `sendMessage`: the ACK carries the next number the receiver needs. -/
def sendMessage : SenderLoop where
  onSend _ s := s
  onAck _ s seq :=
    if s.base < seq then
      match deletePacks s.packs s.base (seq - s.base) with
      | some packs => { s with packs := packs, base := seq }
      | none => { s with pc := .undefined, base := seq }
    else s
  onWait _ s := s
  due _ _ _ := some true

def ackBuffSize (window : ℕ) : ℕ := u32 (window * 2)

/-- `while (base < nextseqnum && acked[base%ACKBUFFSIZE] == 1) { delete packs[base]; base++; }`;
the rounds left are `nextseqnum - base`. -/
def slide (window : ℕ) : ℕ → Sender → Sender
  | 0, s => s
  | k + 1, s => match s.acked (s.base % ackBuffSize window) with
    | none => { s with pc := .undefined }
    | some false => s
    | some true => match s.packs[s.base]? with
      | some (some _) => slide window k
          { s with packs := s.packs.set s.base none, base := s.base + 1 }
      | _ => { s with pc := .undefined }

/-- `sendMessageOpt`: the ACK carries the number of the packet it answers. -/
def sendMessageOpt : SenderLoop where
  onSend window s :=
    { s with acked := Function.update s.acked (s.nextseqnum % ackBuffSize window) (some false) }
  onAck window s seq :=
    if s.base ≤ seq ∧ seq < u32 (s.base + window) then
      { s with acked := Function.update s.acked (seq % ackBuffSize window) (some true) }
    else s
  onWait window s := slide window (s.nextseqnum - s.base) s
  due window s i := (s.acked (i % ackBuffSize window)).map not

/-- The packets a timeout sends again: those from `i` on, for the given number of rounds. -/
def resendFrom (due : ℕ → Option Bool) (packs : List (Option RtpPacket)) (i : ℕ) :
    ℕ → Option (List RtpPacket)
  | 0 => some []
  | k + 1 => match due i with
    | none => none
    | some false => resendFrom due packs (i + 1) k
    | some true => match packs[i]? with
      | some (some p) => (resendFrom due packs (i + 1) k).map (p :: ·)
      | _ => none

def SenderLoop.resend (L : SenderLoop) (window : ℕ) (s : Sender) : Option (List RtpPacket) :=
  resendFrom (L.due window s) s.packs s.base (s.nextseqnum - s.base)

def readStep (window : ℕ) (s : Sender) : Sender :=
  if s.totseq < u32 (s.base + window) then
    match s.fp.take freadSize with
    | [] => { s with pc := .test }
    | buf => { s with
        fp := s.fp.drop freadSize
        packs := s.packs ++ [some (.data s.seqNum buf)]
        seqNum := u32 (s.seqNum + 1)
        totseq := u32 (s.totseq + 1) }
  else { s with pc := .test }

def SenderLoop.sendStep (L : SenderLoop) (window : ℕ) (s : Sender) : Sender × List RtpPacket :=
  if s.nextseqnum < s.totseq ∧ s.nextseqnum < u32 (s.base + window) then
    match s.packs[s.nextseqnum]? with
    | some (some p) => ({ L.onSend window s with nextseqnum := u32 (s.nextseqnum + 1) }, [p])
    | _ => ({ s with pc := .undefined }, [])
  else ({ s with pc := .wait }, [])

/-- `revRTP` and what follows it; `none` is a timeout or a damaged packet. -/
def SenderLoop.waitStep (L : SenderLoop) (window : ℕ) (s : Sender) (inp : Option RtpPacket) :
    Sender :=
  let t := match inp with
    | some p => if p.type = rtpAck then L.onAck window s p.seqNum else s
    | none => s
  if t.pc = .undefined then t else
    let u := L.onWait window t
    if u.pc = .undefined then u else { u with pc := .clock }

def SenderLoop.clockStep (L : SenderLoop) (window : ℕ) (s : Sender) (timeout : Bool) :
    Sender × List RtpPacket :=
  if timeout then
    match L.resend window s with
    | some ps => ({ s with pc := .read }, ps)
    | none => ({ s with pc := .undefined }, [])
  else ({ s with pc := .read }, [])

/-- One step of the sender: the new state and the packets handed to `sendRTP`. -/
def SenderLoop.step (L : SenderLoop) (window : ℕ) (s : Sender) (inp : Option RtpPacket)
    (timeout : Bool) : Sender × List RtpPacket :=
  match s.pc with
  | .start => ({ s with pc := .connecting }, [.bare rtpStart s.startSeq])
  | .connecting => match inp with
    | some p => if p.type = rtpAck ∧ p.seqNum = s.startSeq then ({ s with pc := .read }, [])
        else ({ s with pc := .refused }, [.bare rtpEnd s.startSeq])
    | none => ({ s with pc := .refused }, [.bare rtpEnd s.startSeq])
  | .read => (readStep window s, [])
  | .test => ({ s with pc := if s.base = s.totseq then .left else .send }, [])
  | .send => L.sendStep window s
  | .wait => (L.waitStep window s inp, [])
  | .clock => L.clockStep window s timeout
  | .left => ({ s with pc := .ended }, [.bare rtpEnd s.packs.length])
  | .refused | .ended | .undefined => (s, [])

def Sender.hasLeft (s : Sender) : Prop := s.pc = .left ∨ s.pc = .ended

instance (s : Sender) : Decidable s.hasLeft := inferInstanceAs (Decidable (_ ∨ _))

end NetworkingLabs.Rtp
