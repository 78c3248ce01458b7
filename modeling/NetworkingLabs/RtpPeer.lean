import NetworkingLabs.RtpWire
import NetworkingLabs.RtpSenderAlone

/-!
# Whom the two sides send to

Each side keeps one address, which `recvfrom` inside `revRTP` overwrites with the source of every
datagram, whether `revRTP` rejects it or not. Here the packets go out with their destinations.
-/
namespace NetworkingLabs.Rtp
open TransitionSystem

section Sockets

structure SockaddrIn where
  sinAddr : UInt32
  sinPort : UInt16
  deriving DecidableEq

/-- What `recvfrom` finds: a datagram with its source, or nothing before the timeout. -/
abbrev Arrival := Option (SockaddrIn × List UInt8)

/-- `revRTP(sock, &fr, rcvbuf)` with what it leaves in `fr` and in `rcvbuf`. -/
def revRTPFrom (fr : SockaddrIn) (rcvbuf : Buffer rcvBuffSize) :
    Arrival → Received × SockaddrIn × Buffer rcvBuffSize
  | none => (.nullptr, fr, rcvbuf)
  | some (source, datagram) =>
    let out := revRTP rcvbuf datagram
    (out.1, source, out.2)

def Received.toOption : Received → Option RtpPacket
  | packet p => some p.view
  | nullptr | undefined => none

/-- The sender with its variables `server` and `rcvbuf`, and all it has sent, with destinations. -/
structure SenderSocket where
  snd : Sender
  server : SockaddrIn
  rcvbuf : Buffer rcvBuffSize
  sent : List (SockaddrIn × RtpPacket)
  closed : Bool

def SenderSocket.init (file : List UInt8) (startSeq : ℕ) (server : SockaddrIn)
    (rcvbuf : Buffer rcvBuffSize) : SenderSocket :=
  ⟨.init .start startSeq file, server, rcvbuf, [], false⟩

/-- A `revRTP` that packets may follow. -/
def SenderPC.Waits (pc : SenderPC) : Prop := pc = .connecting ∨ pc = .wait

/-- In `terminateSender`, behind the END. -/
def SenderPC.Terminates (pc : SenderPC) : Prop := pc = .refused ∨ pc = .ended

instance (pc : SenderPC) : Decidable pc.Waits := inferInstanceAs (Decidable (_ ∨ _))
instance (pc : SenderPC) : Decidable pc.Terminates := inferInstanceAs (Decidable (_ ∨ _))

/-- The sender is at a `revRTP`; the one of `terminateSender` is followed by `close`. -/
def SenderSocket.Receives (s : SenderSocket) : Prop :=
  s.snd.pc.Waits ∨ s.snd.pc.Terminates ∧ s.closed = false

instance (s : SenderSocket) : Decidable s.Receives := inferInstanceAs (Decidable (_ ∨ _ ∧ _))

def SenderSocket.proceed (L : SenderLoop) (window : ℕ) (s : SenderSocket)
    (inp : Option RtpPacket) (timeout : Bool) : SenderSocket :=
  let out := L.step window s.snd inp timeout
  { s with
    snd := out.1
    sent := s.sent ++ out.2.map fun p => (s.server, p)
    closed := decide s.snd.pc.Terminates }

def SenderSocket.step (L : SenderLoop) (window : ℕ) (s : SenderSocket) (arrival : Arrival)
    (timeout : Bool) : SenderSocket :=
  if s.Receives then
    let (rev, server, rcvbuf) := revRTPFrom s.server s.rcvbuf arrival
    let s := { s with server := server, rcvbuf := rcvbuf }
    if rev = .undefined then { s with snd := { s.snd with pc := .undefined } }
    else s.proceed L window rev.toOption timeout
  else s.proceed L window none timeout

def senderSocket (L : SenderLoop) (window : ℕ) :
    TransitionSystem SenderSocket (Arrival × Bool) where
  init s := ∃ file startSeq server rcvbuf, s = .init file startSeq server rcvbuf
  enabled _ _ := True
  next s i := s.step L window i.1 i.2

/-- The receiver with its variables `client` and `rcvbuf`, all it has answered, with
destinations, and the source of the START that it accepted. -/
structure ReceiverSocket where
  rcv : Receiver
  client : SockaddrIn
  rcvbuf : Buffer rcvBuffSize
  acks : List (SockaddrIn × RtpPacket)
  peer : Option SockaddrIn
  overrun : Bool  -- revRTP has written past the payload

def ReceiverSocket.init (client : SockaddrIn) (rcvbuf : Buffer rcvBuffSize) : ReceiverSocket :=
  ⟨.init .listen, client, rcvbuf, [], none, false⟩

def ReceiverSocket.step (M : ReceiverLoop) (window : ℕ) (r : ReceiverSocket) (arrival : Arrival)
    (silent : Bool) : ReceiverSocket :=
  if r.overrun ∨ r.rcv.pc = .closed then r
  else
    let (rev, client, rcvbuf) := revRTPFrom r.client r.rcvbuf arrival
    if rev = .undefined then { r with client := client, rcvbuf := rcvbuf, overrun := true }
    else
      let out := M.step window r.rcv rev.toOption silent
      { r with
        rcv := out.1
        client := client
        rcvbuf := rcvbuf
        acks := r.acks ++ out.2.map fun p => (client, p)
        peer := if r.rcv.pc = .listen ∧ out.1.pc = .loop then some client else r.peer }

def receiverSocket (M : ReceiverLoop) (window : ℕ) :
    TransitionSystem ReceiverSocket (Arrival × Bool) where
  init r := ∃ client rcvbuf, r = .init client rcvbuf
  enabled _ _ := True
  next r i := r.step M window i.1 i.2

end Sockets

section Sender

variable {L : SenderLoop} {window : ℕ} {given : SockaddrIn} {s : SenderSocket} {arrival : Arrival}
  {timeout : Bool}

/-- Nothing undefined has happened, later packets will go to the given address, and all packets
sent so far went there. -/
structure KeepsServer (given : SockaddrIn) (s : SenderSocket) : Prop where
  defined : s.snd.pc ≠ .undefined
  server : s.closed = false → s.server = given
  sent : ∀ x ∈ s.sent, x.1 = given

def SenderSocket.input (s : SenderSocket) (arrival : Arrival) : Option RtpPacket :=
  if s.Receives then (revRTPFrom s.server s.rcvbuf arrival).1.toOption else none

/-- What arrives before the END is sent comes from the given address, and what arrives has room. -/
structure Sources (given : SockaddrIn) (s : SenderSocket) (i : Arrival × Bool) : Prop where
  source : s.snd.pc.Waits → ∀ x ∈ i.1, x.1 = given
  room : s.Receives → ∀ x ∈ i.1, HasRoom x.2

/-- Moreover the loop uses no bad index. -/
structure FromServer (L : SenderLoop) (window : ℕ) (given : SockaddrIn) (s : SenderSocket)
    (i : Arrival × Bool) : Prop extends Sources given s i where
  loop : (L.step window s.snd (s.input i.1) i.2).1.pc ≠ .undefined

/-- No ACK that the main loop accepts names a number above `nextseqnum`. -/
def AcksSent (s : SenderSocket) (i : Arrival × Bool) : Prop :=
  s.snd.pc = .wait → ∀ p ∈ s.input i.1, p.type = rtpAck → p.seqNum ≤ s.snd.nextseqnum

/-- A datagram that `revRTP` rejects leaves the address of the next packets as it is. -/
def RejectsQuietly (L : SenderLoop) (window : ℕ) (s : SenderSocket) (i : Arrival × Bool) : Prop :=
  s.snd.pc.Waits → (revRTPFrom s.server s.rcvbuf i.1).1 = .nullptr →
    (s.step L window i.1 i.2).server = s.server

theorem revRTPFrom_undefined_iff {fr : SockaddrIn} {rcvbuf : Buffer rcvBuffSize} :
    (revRTPFrom fr rcvbuf arrival).1 = .undefined ↔ ¬ ∀ x ∈ arrival, HasRoom x.2 := by
  cases arrival with
  | none => simp [revRTPFrom]
  | some x => simp [revRTPFrom, revRTP_undefined_iff]

theorem revRTPFrom_defined {fr : SockaddrIn} {rcvbuf : Buffer rcvBuffSize}
    (hroom : ∀ x ∈ arrival, HasRoom x.2) : ¬ (revRTPFrom fr rcvbuf arrival).1 = .undefined :=
  fun hover => revRTPFrom_undefined_iff.mp hover hroom

private theorem revRTPFrom_source {fr : SockaddrIn} (rcvbuf : Buffer rcvBuffSize)
    (hfr : fr = given) :
    (revRTPFrom fr rcvbuf arrival).2.1 = given ↔ ∀ x ∈ arrival, x.1 = given := by
  cases arrival with
  | none => simp [revRTPFrom, hfr]
  | some x => simp [revRTPFrom]

/-- Where there is room for what arrives, a step goes on behind `revRTP`. -/
theorem step_of_receives (hreceives : s.Receives) (hroom : ∀ x ∈ arrival, HasRoom x.2) :
    s.step L window arrival timeout =
      SenderSocket.proceed L window
        { s with
          server := (revRTPFrom s.server s.rcvbuf arrival).2.1
          rcvbuf := (revRTPFrom s.server s.rcvbuf arrival).2.2 }
        (s.input arrival) timeout := by
  simp only [SenderSocket.step, SenderSocket.input, if_pos hreceives,
    if_neg (revRTPFrom_defined hroom)]

theorem step_of_not_receives (hreceives : ¬ s.Receives) :
    s.step L window arrival timeout = s.proceed L window (s.input arrival) timeout := by
  simp only [SenderSocket.step, SenderSocket.input, if_neg hreceives]

private theorem step_of_terminates (s : Sender) (h : s.pc.Terminates) (inp : Option RtpPacket) :
    L.step window s inp timeout = (s, []) := by
  rcases h with h | h <;> simp [SenderLoop.step, h]

/-- What a sender with the right address sends goes there. -/
theorem KeepsServer.proceed (hserver : ¬ s.snd.pc.Terminates → s.server = given)
    (hsent : ∀ x ∈ s.sent, x.1 = given) {inp : Option RtpPacket}
    (hloop : (L.step window s.snd inp timeout).1.pc ≠ .undefined) :
    KeepsServer given (s.proceed L window inp timeout) := by
  by_cases hend : s.snd.pc.Terminates
  · rw [step_of_terminates s.snd hend] at hloop
    refine ⟨?_, ?_, ?_⟩ <;> simp only [SenderSocket.proceed, step_of_terminates s.snd hend]
    · exact hloop
    · simp [hend]
    · simpa using hsent
  · refine ⟨hloop, fun _ => hserver hend, ?_⟩
    intro x hx
    rcases List.mem_append.mp hx with hx | hx
    · exact hsent x hx
    · obtain ⟨p, -, rfl⟩ := List.mem_map.mp hx
      exact hserver hend

structure SenderSocketInv (given : SockaddrIn) (s : SenderSocket) : Prop
    extends KeepsServer given s where
  last : s.closed = true → s.snd.pc.Terminates

private theorem senderSocketInv_init (file : List UInt8) (startSeq : ℕ)
    (rcvbuf : Buffer rcvBuffSize) : SenderSocketInv given (.init file startSeq given rcvbuf) where
  defined := by simp [SenderSocket.init, Sender.init]
  server _ := rfl
  sent := by simp [SenderSocket.init]
  last := by simp [SenderSocket.init]

private theorem proceed_last {inp : Option RtpPacket}
    (h : (s.proceed L window inp timeout).closed = true) :
    (s.proceed L window inp timeout).snd.pc.Terminates := by
  have hend : s.snd.pc.Terminates := by simpa [SenderSocket.proceed] using h
  simpa only [SenderSocket.proceed, step_of_terminates s.snd hend] using hend

theorem SenderSocketInv.server_of_not_terminates (h : SenderSocketInv given s)
    (hend : ¬ s.snd.pc.Terminates) : s.server = given := by
  apply h.server
  by_contra hclosed
  exact hend (h.last (by simpa using hclosed))

theorem SenderPC.Waits.not_terminates {pc : SenderPC} (h : pc.Waits) : ¬ pc.Terminates := by
  rcases h with rfl | rfl <;> decide

theorem SenderSocketInv.step (h : SenderSocketInv given s) {i : Arrival × Bool}
    (hi : FromServer L window given s i) : SenderSocketInv given (s.step L window i.1 i.2) := by
  by_cases hreceives : s.Receives
  · rw [step_of_receives hreceives (hi.room hreceives)]
    refine ⟨.proceed ?_ ?_ ?_, proceed_last⟩
    · intro hend
      have hwaits := hreceives.resolve_right fun hr => hend hr.1
      exact (revRTPFrom_source s.rcvbuf (h.server_of_not_terminates hend)).mpr (hi.source hwaits)
    · exact h.sent
    · exact hi.loop
  · rw [step_of_not_receives hreceives]
    exact ⟨.proceed h.server_of_not_terminates h.sent hi.loop, proceed_last⟩

theorem FromServer.of_keepsServer (h : SenderSocketInv given s) {i : Arrival × Bool}
    (hnext : KeepsServer given (s.step L window i.1 i.2)) : FromServer L window given s i := by
  by_cases hreceives : s.Receives
  · have hroom : ∀ x ∈ i.1, HasRoom x.2 := by
      by_contra hover
      apply hnext.defined
      simp only [SenderSocket.step, if_pos hreceives, if_pos (revRTPFrom_undefined_iff.mpr hover)]
    rw [step_of_receives hreceives hroom] at hnext
    refine ⟨⟨fun hwaits => ?_, fun _ => hroom⟩, hnext.defined⟩
    have hend := hwaits.not_terminates
    have hopen : decide s.snd.pc.Terminates = false := by simp [hend]
    exact (revRTPFrom_source s.rcvbuf (h.server_of_not_terminates hend)).mp (hnext.server hopen)
  · rw [step_of_not_receives hreceives] at hnext
    refine ⟨⟨fun hwaits => ?_, fun hr => absurd hr hreceives⟩, hnext.defined⟩
    exact absurd (Or.inl hwaits) hreceives

theorem SenderSocketInv.rejectsQuietly (h : SenderSocketInv given s) {i : Arrival × Bool}
    (hi : FromServer L window given s i) : RejectsQuietly L window s i := by
  intro hwaits _
  have hreceives : s.Receives := Or.inl hwaits
  have hserver := h.server_of_not_terminates hwaits.not_terminates
  have hsame : (revRTPFrom s.server s.rcvbuf i.1).2.1 = given :=
    (revRTPFrom_source s.rcvbuf hserver).mpr (hi.source hwaits)
  rw [step_of_receives hreceives (hi.room hreceives)]
  exact hsame.trans hserver.symm

end Sender

section Loops

variable {L : SenderLoop} {file : List UInt8} {window : ℕ} {given : SockaddrIn} {s : SenderSocket}
  {i : Arrival × Bool}

private theorem step_snd (hroom : s.Receives → ∀ x ∈ i.1, HasRoom x.2) :
    (s.step L window i.1 i.2).snd = (L.step window s.snd (s.input i.1) i.2).1 := by
  by_cases hreceives : s.Receives
  · rw [step_of_receives hreceives (hroom hreceives)]
    rfl
  · rw [step_of_not_receives hreceives]
    rfl

structure WatchedInv (W : Watch L file window) (given : SockaddrIn) (s : SenderSocket) : Prop
    extends SenderSocketInv given s where
  watched : ∃ log, AloneInv W ⟨s.snd, log⟩

private theorem watchedInv_init (W : Watch L file window) (startSeq : ℕ)
    (rcvbuf : Buffer rcvBuffSize) : WatchedInv W given (.init file startSeq given rcvbuf) where
  toSenderSocketInv := senderSocketInv_init file startSeq rcvbuf
  watched := ⟨[], {
    sender := senderInv_init startSeq (Or.inl rfl)
    sent := fun k => by simp [SentIn, SenderSocket.init, Sender.init]
    freed := fun i => by simp [SenderSocket.init, Sender.init]
    marks := W.marks_init rfl }⟩

theorem WatchedInv.fromServer {W : Watch L file window} (hf : Fits file window window)
    (h : WatchedInv W given s) (hi : Sources given s i)
    (hallowed : s.snd.pc = .wait → W.allowed s.snd (s.input i.1)) :
    FromServer L window given s i := by
  obtain ⟨log, hlog⟩ := h.watched
  exact ⟨hi, (hlog.step hf (s.input i.1) i.2 hallowed).sender.defined⟩

theorem WatchedInv.step {W : Watch L file window} (hf : Fits file window window)
    (h : WatchedInv W given s) (hi : Sources given s i)
    (hallowed : s.snd.pc = .wait → W.allowed s.snd (s.input i.1)) :
    WatchedInv W given (s.step L window i.1 i.2) := by
  refine ⟨h.toSenderSocketInv.step (h.fromServer hf hi hallowed), ?_⟩
  obtain ⟨log, hlog⟩ := h.watched
  rw [step_snd hi.room]
  exact ⟨_, hlog.step hf (s.input i.1) i.2 hallowed⟩

/-- An ACK above `nextseqnum` makes the cumulative loop delete packets that do not exist. -/
theorem SenderInv.ack_le {t : Sender} (h : SenderInv file window t) (hpc : t.pc = .wait)
    {inp : Option RtpPacket} {timeout : Bool}
    (hdefined : (sendMessage.step window t inp timeout).1.pc ≠ .undefined) :
    ∀ p ∈ inp, p.type = rtpAck → p.seqNum ≤ t.nextseqnum := by
  rintro p rfl hack
  by_contra hlt
  have hsent := h.sent hpc
  have hlow := h.low
  have hlen := h.length
  have hbase : t.base < p.seqNum := by omega
  have hdel : deletePacks t.packs t.base (p.seqNum - t.base) = none :=
    deletePacks_past _ _ _ (by omega) (by omega)
  apply hdefined
  simp [SenderLoop.step, hpc, SenderLoop.waitStep, hack, sendMessage, hbase, hdel]

variable (hf : Fits file window window)
include hf

/-- At these sizes the cumulative loop needs no more than that ACKs name what has been sent. -/
theorem fromServer_cumulative (startSeq : ℕ) (rcvbuf : Buffer rcvBuffSize)
    (is : List (Arrival × Bool)) :
    (senderSocket sendMessage window).Meets (FromServer sendMessage window given)
        (.init file startSeq given rcvbuf) is ↔
      (senderSocket sendMessage window).Meets (fun s i => Sources given s i ∧ AcksSent s i)
        (.init file startSeq given rcvbuf) is := by
  have hacks : ∀ s i, WatchedInv (cumulativeWatch file window) given s →
      FromServer sendMessage window given s i → AcksSent s i := by
    intro s i hs hi hpc
    obtain ⟨log, hlog⟩ := hs.watched
    exact hlog.sender.ack_le hpc hi.loop
  constructor
  · exact Meets.of_invariant (fun s i hs hi => hs.step hf hi.toSources (hacks s i hs hi))
      (fun s i hs hi => ⟨hi.toSources, hacks s i hs hi⟩) (watchedInv_init _ startSeq rcvbuf)
  · exact Meets.of_invariant (fun s i hs hi => hs.step hf hi.1 hi.2)
      (fun s i hs hi => hs.fromServer hf hi.1 hi.2)
      (watchedInv_init (cumulativeWatch file window) startSeq rcvbuf)

/-- The selective loop needs nothing. -/
theorem fromServer_selective (startSeq : ℕ) (rcvbuf : Buffer rcvBuffSize)
    (is : List (Arrival × Bool)) :
    (senderSocket sendMessageOpt window).Meets (FromServer sendMessageOpt window given)
        (.init file startSeq given rcvbuf) is ↔
      (senderSocket sendMessageOpt window).Meets (Sources given)
        (.init file startSeq given rcvbuf) is := by
  have hinit : WatchedInv (selectiveWatch hf) given (.init file startSeq given rcvbuf) :=
    watchedInv_init _ startSeq rcvbuf
  constructor
  · exact Meets.of_invariant (fun s i hs hi => hs.step hf hi.toSources fun _ => trivial)
      (fun s i _ hi => hi.toSources) hinit
  · exact Meets.of_invariant (fun s i hs hi => hs.step hf hi fun _ => trivial)
      (fun s i hs hi => hs.fromServer hf hi fun _ => trivial) hinit

end Loops

section Receiver

variable {r : ReceiverSocket} {arrival : Arrival}

/-- `revRTP` has not overrun its buffers, and every ACK went to the source of the START. -/
structure AnswersPeer (r : ReceiverSocket) : Prop where
  defined : r.overrun = false
  acks : ∀ x ∈ r.acks, r.peer = some x.1

def Receiver.Answers (window : ℕ) (r : Receiver) (p : RtpPacket) : Prop :=
  p.type = rtpEnd ∨
    p.type = rtpData ∧ r.firstneedrecv ≤ p.seqNum ∧ p.seqNum < r.firstneedrecv + window

def ReceiverSocket.AnswersTo (window : ℕ) (r : ReceiverSocket) (arrival : Arrival)
    (a : SockaddrIn) : Prop :=
  ∃ x ∈ arrival, x.1 = a ∧
    ∃ p, (revRTP r.rcvbuf x.2).1 = .packet p ∧ r.rcv.Answers window p.view

/-- What arrives has room; and what the main loop answers comes from the source of the START. -/
structure FromPeer (window : ℕ) (r : ReceiverSocket) (i : Arrival × Bool) : Prop where
  room : r.rcv.pc ≠ .closed → ∀ x ∈ i.1, HasRoom x.2
  source : r.rcv.pc = .loop → ∀ a, r.AnswersTo window i.1 a → r.peer = some a

variable (M : ReceiverLoop) (window : ℕ) (silent : Bool)

/-- The handshake answers a START, and the receiver goes on with its sender or gives up. -/
theorem step_listen (rcv : Receiver) (hpc : rcv.pc = .listen) (inp : Option RtpPacket) :
    (M.step window rcv inp silent).1.pc = .loop ∨
      (M.step window rcv inp silent).1.pc = .closed ∧ (M.step window rcv inp silent).2 = [] := by
  simp only [ReceiverLoop.step, hpc]
  cases inp with
  | none => exact Or.inr ⟨rfl, rfl⟩
  | some p =>
    by_cases hp : p.type = rtpStart
    · left
      simp only [if_pos hp]
    · right
      simp only [if_neg hp, and_self]

/-- The main loop answers these packets, each with one ACK, and no others. -/
theorem step_loop (rcv : Receiver) (hpc : rcv.pc = .loop) (inp : Option RtpPacket) :
    (M.step window rcv inp silent).1.pc ≠ .listen ∧
    ((∃ p ∈ inp, rcv.Answers window p) → ∃ q, (M.step window rcv inp silent).2 = [q]) ∧
    ((∀ p ∈ inp, ¬ rcv.Answers window p) → (M.step window rcv inp silent).2 = []) := by
  simp only [ReceiverLoop.step, hpc]
  cases inp with
  | none =>
    refine ⟨?_, by simp, fun _ => rfl⟩
    show (if silent then { rcv with pc := .closed } else rcv).pc ≠ .listen
    cases silent <;> simp [hpc]
  | some p =>
    simp only [Option.mem_some_iff, exists_eq_left', forall_eq']
    by_cases hend : p.type = rtpEnd
    · simp only [if_pos hend]
      exact ⟨by decide, fun _ => ⟨_, rfl⟩, fun h => absurd (Or.inl hend) h⟩
    · by_cases hdata : p.type = rtpData
      · rw [if_neg hend, if_pos hdata]
        by_cases hin : rcv.firstneedrecv ≤ p.seqNum ∧ p.seqNum < rcv.firstneedrecv + window
        · rw [M.onData_inside hin]
          exact ⟨by simp [hpc], fun _ => ⟨_, rfl⟩, fun h => absurd (Or.inr ⟨hdata, hin⟩) h⟩
        · rw [M.onData_outside hin]
          refine ⟨by simp [hpc], ?_, fun _ => rfl⟩
          rintro (h | ⟨-, h⟩)
          · exact absurd h hend
          · exact absurd h hin
      · rw [if_neg hend, if_neg hdata]
        refine ⟨by simp [hpc], ?_, fun _ => rfl⟩
        rintro (h | ⟨h, -⟩)
        · exact absurd h hend
        · exact absurd h hdata

structure ReceiverSocketInv (r : ReceiverSocket) : Prop extends AnswersPeer r where
  first : r.rcv.pc = .listen → r.acks = []

private theorem receiverSocketInv_init (client : SockaddrIn) (rcvbuf : Buffer rcvBuffSize) :
    ReceiverSocketInv (.init client rcvbuf) where
  defined := rfl
  acks := by simp [ReceiverSocket.init]
  first _ := rfl

theorem receiver_step_eq (hdefined : r.overrun = false) (hpc : r.rcv.pc ≠ .closed)
    (hroom : ∀ x ∈ arrival, HasRoom x.2) : r.step M window arrival silent =
      let out := revRTPFrom r.client r.rcvbuf arrival
      let t := M.step window r.rcv out.1.toOption silent
      { r with
        rcv := t.1
        client := out.2.1
        rcvbuf := out.2.2
        acks := r.acks ++ t.2.map fun p => (out.2.1, p)
        peer := if r.rcv.pc = .listen ∧ t.1.pc = .loop then some out.2.1 else r.peer } := by
  have hgo : ¬ (r.overrun = true ∨ r.rcv.pc = .closed) := by simp [hdefined, hpc]
  simp only [ReceiverSocket.step, if_neg hgo, if_neg (revRTPFrom_defined hroom)]

private theorem answersTo_iff {a : SockaddrIn} : r.AnswersTo window arrival a ↔
    (revRTPFrom r.client r.rcvbuf arrival).2.1 = a ∧
      ∃ p ∈ (revRTPFrom r.client r.rcvbuf arrival).1.toOption, r.rcv.Answers window p := by
  cases arrival with
  | none => simp [ReceiverSocket.AnswersTo, revRTPFrom, Received.toOption]
  | some x =>
    simp only [ReceiverSocket.AnswersTo, revRTPFrom, Option.mem_some_iff, exists_eq_left']
    cases (revRTP r.rcvbuf x.2).1 <;> simp [Received.toOption]

/-- What a step of the main loop changes in the record: it answers the sources of the packets
that the loop answers. -/
theorem step_record (hdefined : r.overrun = false) (hpc : r.rcv.pc = .loop)
    (hroom : ∀ x ∈ arrival, HasRoom x.2) :
    (r.step M window arrival silent).peer = r.peer ∧
    (r.step M window arrival silent).overrun = false ∧
    (r.step M window arrival silent).rcv.pc ≠ .listen ∧
    ∃ acks, (r.step M window arrival silent).acks = r.acks ++ acks ∧
      ∀ a, (∃ p, (a, p) ∈ acks) ↔ r.AnswersTo window arrival a := by
  obtain ⟨hgo, hsome, hnone⟩ := step_loop M window silent r.rcv hpc
    (revRTPFrom r.client r.rcvbuf arrival).1.toOption
  rw [receiver_step_eq M window silent hdefined (by simp [hpc]) hroom]
  refine ⟨if_neg (by simp [hpc]), hdefined, hgo, _, rfl, fun a => ?_⟩
  rw [answersTo_iff]
  by_cases hans : ∃ p ∈ (revRTPFrom r.client r.rcvbuf arrival).1.toOption, r.rcv.Answers window p
  · obtain ⟨q, hq⟩ := hsome hans
    simp only [hq, List.map_singleton, List.mem_singleton, Prod.mk.injEq, hans, and_true]
    exact ⟨fun ⟨_, ha, _⟩ => ha.symm, fun ha => ⟨q, ha.symm, rfl⟩⟩
  · have hout := hnone fun p hp hanswers => hans ⟨p, hp, hanswers⟩
    simp only [hout, List.map_nil, List.not_mem_nil, exists_false, hans, and_false]

theorem ReceiverSocketInv.step_listen (h : ReceiverSocketInv r) (hpc : r.rcv.pc = .listen)
    (hroom : ∀ x ∈ arrival, HasRoom x.2) :
    ReceiverSocketInv (r.step M window arrival silent) := by
  have hcases := Rtp.step_listen M window silent r.rcv hpc
    (revRTPFrom r.client r.rcvbuf arrival).1.toOption
  rw [receiver_step_eq M window silent h.defined (by simp [hpc]) hroom]
  have hleft : (M.step window r.rcv
      (revRTPFrom r.client r.rcvbuf arrival).1.toOption silent).1.pc ≠ .listen := by
    rcases hcases with hgo | ⟨hgo, -⟩ <;> rw [hgo] <;> exact nofun
  refine ⟨⟨h.defined, ?_⟩, fun hlisten => absurd hlisten hleft⟩
  simp only [h.first hpc, List.nil_append, hpc, true_and]
  rintro x hx
  obtain ⟨p, hp, rfl⟩ := List.mem_map.mp hx
  rcases hcases with hgo | ⟨-, hout⟩
  · exact if_pos hgo
  · rw [hout] at hp
    cases hp

theorem ReceiverSocketInv.step (h : ReceiverSocketInv r) {i : Arrival × Bool}
    (hi : FromPeer window r i) : ReceiverSocketInv (r.step M window i.1 i.2) := by
  cases hpc : r.rcv.pc with
  | listen => exact h.step_listen M window i.2 hpc (hi.room (by simp [hpc]))
  | loop =>
    obtain ⟨hpeer, hdefined, hgo, acks, hacks, hto⟩ :=
      step_record M window i.2 h.defined hpc (hi.room (by simp [hpc]))
    refine ⟨⟨hdefined, ?_⟩, fun hlisten => absurd hlisten hgo⟩
    rw [hacks, hpeer]
    intro x hx
    rcases List.mem_append.mp hx with hx | hx
    · exact h.acks x hx
    · exact hi.source hpc _ ((hto x.1).mp ⟨x.2, hx⟩)
  | closed =>
    have hstay : r.step M window i.1 i.2 = r := if_pos (Or.inr hpc)
    rwa [hstay]

theorem FromPeer.of_answersPeer (h : ReceiverSocketInv r) {i : Arrival × Bool}
    (hnext : AnswersPeer (r.step M window i.1 i.2)) : FromPeer window r i := by
  have hroom : r.rcv.pc ≠ .closed → ∀ x ∈ i.1, HasRoom x.2 := by
    intro hpc
    have hgo : ¬ (r.overrun = true ∨ r.rcv.pc = .closed) := by simp [h.defined, hpc]
    by_contra hover
    have hdefined := hnext.defined
    simp only [ReceiverSocket.step, if_neg hgo, if_pos (revRTPFrom_undefined_iff.mpr hover)]
      at hdefined
    cases hdefined
  refine ⟨hroom, fun hpc a ha => ?_⟩
  obtain ⟨hpeer, -, -, acks, hacks, hto⟩ :=
    step_record M window i.2 h.defined hpc (hroom (by simp [hpc]))
  obtain ⟨p, hp⟩ := (hto a).mpr ha
  have hall := hnext.acks
  rw [hacks, hpeer] at hall
  exact hall (a, p) (List.mem_append_right _ hp)

end Receiver

section Peers

/-- The sender keeps to the given address in exactly the runs in which everything that arrives
before its END comes from there and no step uses a bad index, which at the sizes of the protocols
is up to the numbers of the ACKs of `sendMessage`; in these runs rejected datagrams change no
address. The receiver answers its peer alone in exactly the runs in which nothing else sends what
its loop answers. What arrives must not overrun `payload`. -/
theorem peer_kept_iff (L : SenderLoop) (M : ReceiverLoop) (window window' startSeq : ℕ)
    (file : List UInt8) (given client : SockaddrIn) (rcvbuf rcvbuf' : Buffer rcvBuffSize)
    (is js : List (Arrival × Bool)) :
    ((senderSocket L window).Throughout (KeepsServer given)
        (.init file startSeq given rcvbuf) is ↔
      (senderSocket L window).Meets (FromServer L window given)
        (.init file startSeq given rcvbuf) is) ∧
    ((senderSocket L window).Throughout (KeepsServer given)
        (.init file startSeq given rcvbuf) is →
      (senderSocket L window).Meets (RejectsQuietly L window)
        (.init file startSeq given rcvbuf) is) ∧
    (Fits file window window →
      ((senderSocket sendMessage window).Throughout (KeepsServer given)
          (.init file startSeq given rcvbuf) is ↔
        (senderSocket sendMessage window).Meets (fun s i => Sources given s i ∧ AcksSent s i)
          (.init file startSeq given rcvbuf) is) ∧
      ((senderSocket sendMessageOpt window).Throughout (KeepsServer given)
          (.init file startSeq given rcvbuf) is ↔
        (senderSocket sendMessageOpt window).Meets (Sources given)
          (.init file startSeq given rcvbuf) is)) ∧
    ((receiverSocket M window').Throughout AnswersPeer (.init client rcvbuf') js ↔
      (receiverSocket M window').Meets (FromPeer window') (.init client rcvbuf') js) := by
  have hkept : ∀ L : SenderLoop, (senderSocket L window).Throughout (KeepsServer given)
      (.init file startSeq given rcvbuf) is ↔
        (senderSocket L window).Meets (FromServer L window given)
          (.init file startSeq given rcvbuf) is := fun L =>
    throughout_iff_meets (fun s hs => hs.toKeepsServer) (fun s i hs hi => hs.step hi)
      (fun s i hs hnext => .of_keepsServer hs hnext) (senderSocketInv_init file startSeq rcvbuf) is
  refine ⟨hkept L, fun h => ?_, fun hf => ⟨?_, ?_⟩, ?_⟩
  · exact Meets.of_invariant (fun s i hs hi => hs.step hi) (fun s i hs hi => hs.rejectsQuietly hi)
      (senderSocketInv_init file startSeq rcvbuf) ((hkept L).mp h)
  · exact (hkept sendMessage).trans (fromServer_cumulative hf startSeq rcvbuf is)
  · exact (hkept sendMessageOpt).trans (fromServer_selective hf startSeq rcvbuf is)
  · exact throughout_iff_meets (fun r hr => hr.toAnswersPeer)
      (fun r i hr hi => hr.step M window' hi)
      (fun r i hr hnext => .of_answersPeer M window' hr hnext)
      (receiverSocketInv_init client rcvbuf') js

def foreign : SockaddrIn := ⟨1, 1⟩

/-- While the sender waits for the ACK of its START, one byte arrives from elsewhere. -/
def strayRun : List (Arrival × Bool) := [(none, false), (some (foreign, [0]), false)]

/-- The END goes to where the damaged datagram came from. -/
theorem strayRun_misleads : ¬ ∀ (given : SockaddrIn) (is : List (Arrival × Bool)),
    (senderSocket sendMessage 1).Throughout (KeepsServer given)
      (.init [] 5 given (.zeroed rcvBuffSize)) is := by
  intro h
  obtain ⟨-, -, hlast⟩ := h ⟨0, 0⟩ strayRun
  have hrev : (revRTP (.zeroed rcvBuffSize) [0]).1 = .nullptr := revRTP_short _ (by decide)
  have hend : (foreign, .bare rtpEnd 5) ∈ ((senderSocket sendMessage 1).play
      (.init [] 5 ⟨0, 0⟩ (.zeroed rcvBuffSize)) strayRun).sent := by
    simp [strayRun, play, senderSocket, SenderSocket.step, SenderSocket.init, Sender.init,
      SenderSocket.Receives, SenderPC.Waits, SenderPC.Terminates, SenderSocket.proceed,
      SenderLoop.step, revRTPFrom, hrev, Received.toOption]
  have hto : foreign = ⟨0, 0⟩ := hlast.sent _ hend
  exact absurd hto (by decide)

/-- The same datagram from the given address. -/
theorem peer_kept_iff_refused : (senderSocket sendMessage 1).Throughout (KeepsServer foreign)
    (.init [7] 5 foreign (.zeroed rcvBuffSize)) strayRun := by
  have hf : Fits [7] 1 1 := by constructor <;> decide
  have hsized := (peer_kept_iff sendMessage recvMessage 1 1 5 [7] foreign foreign
    (.zeroed rcvBuffSize) (.zeroed rcvBuffSize) strayRun []).2.2.1 hf
  refine hsized.1.mpr ⟨⟨⟨?_, ?_⟩, ?_⟩, ⟨⟨?_, ?_⟩, ?_⟩, trivial⟩
  · exact nofun
  · exact fun _ => nofun
  · exact nofun
  · rintro - x ⟨⟩
    rfl
  · rintro - x ⟨⟩
    exact Or.inl (by decide)
  · exact nofun

end Peers

end NetworkingLabs.Rtp
