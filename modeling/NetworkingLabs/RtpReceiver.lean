import NetworkingLabs.RtpPacket
import Mathlib.Logic.Function.Basic

/-!
# The RTP receiver

`initReceiver` and the loops of `recvMessage` and `recvMessageOpt`. The handling of
one packet is one step; it ends with at most one ACK. The two loops differ only in
the number the ACK carries.
-/
namespace NetworkingLabs.Rtp

/-- Where the receiver stands: before the START, in its loop, or out of it. -/
inductive ReceiverPC
  | listen | loop | closed
  deriving DecidableEq, Repr

structure Receiver where
  pc : ReceiverPC
  /-- The `BUFFSIZE` slots of `pack_buf`. -/
  packBuf : ℕ → Option RtpPacket
  firstneedrecv : ℕ
  /-- What `fwrite` has put in the file. -/
  written : List UInt8

def Receiver.init (pc : ReceiverPC) : Receiver := ⟨pc, fun _ => none, 0, []⟩

/-- `BUFFSIZE`, twice the window. -/
def buffSize (window : ℕ) : ℕ := u32 (2 * window)

theorem buffSize_eq {window : ℕ} (h : window < 2 ^ 31) : buffSize window = 2 * window :=
  u32_eq (by omega)

/-- `Download` and `firstneedrecv++`, with the packet found in the slot. -/
def Receiver.download (m : ℕ) (r : Receiver) (p : RtpPacket) : Receiver :=
  { r with
    packBuf := Function.update r.packBuf (r.firstneedrecv % m) none
    firstneedrecv := r.firstneedrecv + 1
    written := r.written ++ p.payload }

/-- `while (pack_buf[firstneedrecv%BUFFSIZE] != nullptr)`; each turn empties one slot, so
`BUFFSIZE` turns are enough (`deliver_spec`). -/
def deliver (m : ℕ) : ℕ → Receiver → Receiver
  | 0, r => r
  | k + 1, r => match r.packBuf (r.firstneedrecv % m) with
    | none => r
    | some p => deliver m k (r.download m p)

def Receiver.store (m : ℕ) (r : Receiver) (p : RtpPacket) : Receiver :=
  if (r.packBuf (p.seqNum % m)).isNone then
    { r with packBuf := Function.update r.packBuf (p.seqNum % m) (some p) }
  else r

def Receiver.accept (m : ℕ) (r : Receiver) (p : RtpPacket) : Receiver := deliver m m (r.store m p)

theorem deliver_of_none {m : ℕ} {r : Receiver} (n : ℕ)
    (h : r.packBuf (r.firstneedrecv % m) = none) : deliver m n r = r := by
  cases n with
  | zero => rfl
  | succ n => simp only [deliver, h]

theorem deliver_of_some {m : ℕ} {r : Receiver} {p : RtpPacket} (n : ℕ)
    (h : r.packBuf (r.firstneedrecv % m) = some p) :
    deliver m (n + 1) r = deliver m n (r.download m p) := by
  simp only [deliver, h]

private theorem deliver_pc (m n : ℕ) (r : Receiver) : (deliver m n r).pc = r.pc := by
  induction n generalizing r with
  | zero => rfl
  | succ n ih =>
    cases hp : r.packBuf (r.firstneedrecv % m) with
    | none => rw [deliver_of_none _ hp]
    | some p =>
      rw [deliver_of_some n hp]
      exact ih _

theorem store_of_some {m : ℕ} {r : Receiver} {p q : RtpPacket}
    (hq : r.packBuf (p.seqNum % m) = some q) : r.store m p = r := by
  simp [Receiver.store, hq]

theorem store_of_none {m : ℕ} {r : Receiver} {p : RtpPacket}
    (hq : r.packBuf (p.seqNum % m) = none) :
    r.store m p = { r with packBuf := Function.update r.packBuf (p.seqNum % m) (some p) } := by
  simp [Receiver.store, hq]

@[simp] theorem store_pc (m : ℕ) (r : Receiver) (p : RtpPacket) : (r.store m p).pc = r.pc := by
  unfold Receiver.store
  split <;> rfl

@[simp] theorem store_firstneedrecv (m : ℕ) (r : Receiver) (p : RtpPacket) :
    (r.store m p).firstneedrecv = r.firstneedrecv := by
  unfold Receiver.store
  split <;> rfl

@[simp] theorem store_written (m : ℕ) (r : Receiver) (p : RtpPacket) :
    (r.store m p).written = r.written := by
  unfold Receiver.store
  split <;> rfl

@[simp] theorem accept_pc (m : ℕ) (r : Receiver) (p : RtpPacket) : (r.accept m p).pc = r.pc := by
  rw [Receiver.accept, deliver_pc, store_pc]

/-- The number of the ACK, from the receiver after the delivery loop and the packet. -/
abbrev ReceiverLoop := Receiver → RtpPacket → ℕ

/-- `recvMessage` names the first packet it still needs. -/
def recvMessage : ReceiverLoop := fun r _ => r.firstneedrecv

/-- `recvMessageOpt` names the packet it got. -/
def recvMessageOpt : ReceiverLoop := fun _ p => p.seqNum

def ReceiverLoop.onData (L : ReceiverLoop) (window : ℕ) (r : Receiver) (p : RtpPacket) :
    Receiver × List RtpPacket :=
  if p.seqNum < r.firstneedrecv ∨ r.firstneedrecv + window ≤ p.seqNum then (r, [])
  else
    let r' := r.accept (buffSize window) p
    (r', [.bare rtpAck (L r' p)])

/-- One step of the receiver on what `revRTP` returned; `silent` is the outcome of the
ten-second test, which only matters when nothing arrived. -/
def ReceiverLoop.step (L : ReceiverLoop) (window : ℕ) (r : Receiver) (inp : Option RtpPacket)
    (silent : Bool) : Receiver × List RtpPacket :=
  match r.pc with
  | .listen => match inp with
    | some p => if p.type = rtpStart then ({ r with pc := .loop }, [.bare rtpAck p.seqNum])
        else ({ r with pc := .closed }, [])
    | none => ({ r with pc := .closed }, [])
  | .loop => match inp with
    | some p => if p.type = rtpEnd then ({ r with pc := .closed }, [.bare rtpAck p.seqNum])
        else if p.type = rtpData then L.onData window r p
        else (r, [])
    | none => (if silent then { r with pc := .closed } else r, [])
  | .closed => (r, [])

section Data

variable (L : ReceiverLoop) {window : ℕ} {r : Receiver} {p : RtpPacket}

theorem ReceiverLoop.onData_inside
    (h : r.firstneedrecv ≤ p.seqNum ∧ p.seqNum < r.firstneedrecv + window) :
    L.onData window r p = (r.accept (buffSize window) p,
      [.bare rtpAck (L (r.accept (buffSize window) p) p)]) :=
  if_neg (by omega)

theorem ReceiverLoop.onData_outside
    (h : ¬ (r.firstneedrecv ≤ p.seqNum ∧ p.seqNum < r.firstneedrecv + window)) :
    L.onData window r p = (r, []) :=
  if_pos (by omega)

theorem ReceiverLoop.step_data (window : ℕ) (silent : Bool) (hpc : r.pc = .loop)
    (hdata : p.type = rtpData) : L.step window r (some p) silent = L.onData window r p := by
  have hne : rtpData ≠ rtpEnd := by decide
  simp [ReceiverLoop.step, hpc, hdata, hne]

end Data

def Receiver.Accepted (m : ℕ) (r : Receiver) (k : ℕ) : Prop :=
  k < r.firstneedrecv ∨ ∃ p, r.packBuf (k % m) = some p ∧ p.seqNum = k

end NetworkingLabs.Rtp
