import NetworkingLabs.RtpDamage
import NetworkingLabs.RtpPeer
import NetworkingLabs.RtpCumulative
import NetworkingLabs.RtpSelective

/-!
# Both sides and the datagrams between them

The sockets of both sides over a network that may lose, repeat, reorder and delay datagrams and
disturb them as far as the checksum notices. Whatever it does, the two loops see what `connection`
lets them see, and they may see all of that.
-/
namespace NetworkingLabs.Rtp
open TransitionSystem

section Packets

variable {p : RtpPacket} {d : List UInt8}

/-- The constructor calls of both sides: with what `fread` put in `messbuf` for DATA, with
`nullptr` for the rest. -/
def RtpPacket.build (mem : Buffer payloadSize) (p : RtpPacket) : Option WirePacket :=
  if p.type = rtpData then
    WirePacket.make mem p.type (UInt16.ofNat p.payload.length) (UInt32.ofNat p.seqNum)
      (some p.payload)
  else WirePacket.makeString mem p.type (UInt32.ofNat p.seqNum) none

structure RtpPacket.Sendable (p : RtpPacket) : Prop where
  seqNum : p.seqNum < 2 ^ 32
  payload : p.payload.length ≤ freadSize
  bare : p.type ≠ rtpData → p.payload = []

/-- What may arrive of a packet, in whatever memory it was made. -/
def RtpPacket.Carries (p : RtpPacket) (d : List UInt8) : Prop :=
  ∃ mem w, p.build mem = some w ∧ (d = sendRTP w ∨ Disturbed d (sendRTP w))

private theorem sendable_bare (type : UInt8) (seq : ℕ) : (RtpPacket.bare type seq).Sendable :=
  ⟨Nat.mod_lt _ (by decide), Nat.zero_le _, fun _ => rfl⟩

private theorem sendable_data (seq : ℕ) {buf : List UInt8} (h : buf.length ≤ freadSize) :
    (RtpPacket.data seq buf).Sendable :=
  ⟨Nat.mod_lt _ (by decide), h, fun hne => absurd rfl hne⟩

theorem RtpPacket.Sendable.build (h : p.Sendable) (mem : Buffer payloadSize) :
    ∃ w, p.build mem = some w ∧ w.Sealed ∧ w.view = p := by
  obtain ⟨hseq, hpayload, hbare⟩ := h
  have hnum : (UInt32.ofNat p.seqNum).toNat = p.seqNum := by
    rw [UInt32.toNat_ofNat']
    exact Nat.mod_eq_of_lt hseq
  by_cases hdata : p.type = rtpData
  · have hlen : (UInt16.ofNat p.payload.length).toNat = p.payload.length := by
      rw [UInt16.toNat_ofNat']
      exact Nat.mod_eq_of_lt (hpayload.trans_lt (by decide))
    obtain ⟨w, hw, hs, htype, -, hwseq, hwdata⟩ := sealed_of_fillIn mem p.type
      (UInt32.ofNat p.seqNum) hlen.symm (by rw [hlen]; exact hpayload.trans_lt (by decide))
    refine ⟨w, ?_, hs, ?_⟩
    · simp only [RtpPacket.build, if_pos hdata, WirePacket.make, hlen, Nat.lt_irrefl, if_false,
        List.take_length, hw]
    · rw [WirePacket.view, htype, hwseq, hwdata, hnum]
  · have hempty : ([] : List UInt8).length = (0 : UInt16).toNat := rfl
    obtain ⟨w, hw, hs, htype, -, hwseq, hwdata⟩ := sealed_of_fillIn mem p.type
      (UInt32.ofNat p.seqNum) hempty (by decide)
    refine ⟨w, ?_, hs, ?_⟩
    · rw [RtpPacket.build, if_neg hdata]
      exact hw
    · rw [WirePacket.view, htype, hwseq, hwdata, hnum, ← hbare hdata]

/-- A datagram as it was sent is accepted, a disturbed one is not. -/
theorem RtpPacket.Sendable.arrives (h : p.Sendable) (rcvbuf : Buffer rcvBuffSize)
    (hd : p.Carries d) : (revRTP rcvbuf d).1 ≠ .undefined ∧
      ∀ q ∈ (revRTP rcvbuf d).1.toOption, q = p := by
  obtain ⟨mem, w, hw, hd⟩ := hd
  obtain ⟨w', hw', hs, hview⟩ := h.build mem
  obtain rfl : w' = w := Option.some.inj (hw'.symm.trans hw)
  rcases hd with rfl | hd
  · obtain ⟨q, hq, hrtp, hdata⟩ := hs.arrives rcvbuf
    have hsame : q.view = p := by rw [← hview, WirePacket.view, WirePacket.view, hrtp, hdata]
    rw [hq]
    refine ⟨by simp, fun q' hq' => ?_⟩
    exact (Option.some.inj hq').symm.trans hsame
  · rw [(hs.refused hd).2 rcvbuf]
    exact ⟨by simp, by simp [Received.toOption]⟩

theorem RtpPacket.Sendable.exists_datagram (h : p.Sendable) (rcvbuf : Buffer rcvBuffSize) :
    ∃ d, p.Carries d ∧ (revRTP rcvbuf d).1.toOption = some p := by
  obtain ⟨w, hw, hs, hview⟩ := h.build (.zeroed payloadSize)
  obtain ⟨q, hq, hrtp, hdata⟩ := hs.arrives rcvbuf
  refine ⟨sendRTP w, ⟨_, w, hw, Or.inl rfl⟩, ?_⟩
  rw [hq, Received.toOption, WirePacket.view, hrtp, hdata, ← hview, WirePacket.view]

end Packets

section Loops

variable {L : SenderLoop} {window : ℕ} {s : Sender}

def Sender.Packs (s : Sender) (Q : RtpPacket → Prop) : Prop := ∀ p, some p ∈ s.packs → Q p

structure SenderLoop.OnlyDeletes (L : SenderLoop) (window : ℕ) : Prop where
  onSend : ∀ s Q, s.Packs Q → (L.onSend window s).Packs Q
  onAck : ∀ s Q seq, s.Packs Q → (L.onAck window s seq).Packs Q
  onWait : ∀ s Q, s.Packs Q → (L.onWait window s).Packs Q

private theorem mem_of_mem_deletePacks {packs packs' : List (Option RtpPacket)} {i k : ℕ}
    {p : RtpPacket}
    (h : deletePacks packs i k = some packs') (hp : some p ∈ packs') : some p ∈ packs := by
  induction k generalizing packs i with
  | zero =>
    cases h
    exact hp
  | succ k ih =>
    rw [deletePacks] at h
    split at h
    · exact (List.mem_or_eq_of_mem_set (ih h)).resolve_right (by simp)
    · cases h

private theorem sendMessage_onlyDeletes (window : ℕ) : sendMessage.OnlyDeletes window where
  onSend _ _ h := h
  onAck s Q seq h p hp := by
    simp only [sendMessage] at hp
    split at hp
    · split at hp
      · exact h p (mem_of_mem_deletePacks (by assumption) hp)
      · exact h p hp
    · exact h p hp
  onWait _ _ h := h

private theorem packs_slide (window n : ℕ) {Q : RtpPacket → Prop} (h : s.Packs Q) :
    (slide window n s).Packs Q := by
  induction n generalizing s with
  | zero => exact h
  | succ n ih =>
    rw [slide]
    split
    · exact h
    · exact h
    · split
      · apply ih
        intro p hp
        exact h p ((List.mem_or_eq_of_mem_set hp).resolve_right (by simp))
      · exact h

private theorem sendMessageOpt_onlyDeletes (window : ℕ) : sendMessageOpt.OnlyDeletes window where
  onSend _ _ h := h
  onAck s Q seq h p hp := by
    simp only [sendMessageOpt] at hp
    split at hp <;> exact h p hp
  onWait _ _ h := packs_slide window _ h

private theorem packs_readStep (h : s.Packs RtpPacket.Sendable) :
    (readStep window s).Packs RtpPacket.Sendable := by
  rw [readStep]
  split
  · split
    · exact h
    · intro p hp
      rcases List.mem_append.mp hp with hp | hp
      · exact h p hp
      · obtain rfl := Option.some.inj (List.mem_singleton.mp hp)
        exact sendable_data _ (List.length_take_le _ _)
  · exact h

theorem SenderLoop.OnlyDeletes.waitStep (hL : L.OnlyDeletes window) {Q : RtpPacket → Prop}
    (h : s.Packs Q) (inp : Option RtpPacket) : (L.waitStep window s inp).Packs Q := by
  have hafter : ∀ t : Sender, t.Packs Q → (if t.pc = .undefined then t else
      let u := L.onWait window t
      if u.pc = .undefined then u else { u with pc := .clock }).Packs Q := by
    intro t ht
    dsimp only
    split
    · exact ht
    · split <;> exact hL.onWait _ _ ht
  apply hafter
  split
  · split
    · exact hL.onAck _ _ _ h
    · exact h
  · exact h

private theorem sendable_resendFrom {due : ℕ → Option Bool} {packs : List (Option RtpPacket)}
    {Q : RtpPacket → Prop} (h : ∀ p, some p ∈ packs → Q p) {i k : ℕ} {ps : List RtpPacket}
    (hps : resendFrom due packs i k = some ps) : ∀ p ∈ ps, Q p := by
  induction k generalizing i ps with
  | zero =>
    cases hps
    simp
  | succ k ih =>
    rw [resendFrom] at hps
    split at hps
    · cases hps
    · exact ih hps
    · split at hps
      · rename_i p hp
        obtain ⟨rest, hrest, rfl⟩ := Option.map_eq_some_iff.mp hps
        intro q hq
        rcases List.mem_cons.mp hq with rfl | hq
        · exact h _ (List.mem_of_getElem? hp)
        · exact ih hrest q hq
      · cases hps

theorem SenderLoop.OnlyDeletes.step (hL : L.OnlyDeletes window)
    (h : s.Packs RtpPacket.Sendable) (inp : Option RtpPacket) (timeout : Bool) :
    (L.step window s inp timeout).1.Packs RtpPacket.Sendable ∧
      ∀ p ∈ (L.step window s inp timeout).2, p.Sendable := by
  have hbare : ∀ type seq, ∀ p ∈ [RtpPacket.bare type seq], p.Sendable := by
    intro type seq p hp
    obtain rfl := List.mem_singleton.mp hp
    exact sendable_bare type seq
  unfold SenderLoop.step
  cases s.pc with
  | start => exact ⟨h, hbare _ _⟩
  | connecting =>
    cases inp with
    | none => exact ⟨h, hbare _ _⟩
    | some p =>
      by_cases hp : p.type = rtpAck ∧ p.seqNum = s.startSeq
      · simp only [if_pos hp]
        exact ⟨h, by simp⟩
      · simp only [if_neg hp]
        exact ⟨h, hbare _ _⟩
  | read => exact ⟨packs_readStep h, by simp⟩
  | test => exact ⟨h, by simp⟩
  | send =>
    show (L.sendStep window s).1.Packs _ ∧ ∀ p ∈ (L.sendStep window s).2, p.Sendable
    rw [SenderLoop.sendStep]
    split
    · split
      · rename_i p hp
        refine ⟨hL.onSend _ _ h, fun q hq => ?_⟩
        obtain rfl := List.mem_singleton.mp hq
        exact h _ (List.mem_of_getElem? hp)
      · exact ⟨h, by simp⟩
    · exact ⟨h, by simp⟩
  | wait => exact ⟨hL.waitStep h inp, by simp⟩
  | clock =>
    show (L.clockStep window s timeout).1.Packs _ ∧
      ∀ p ∈ (L.clockStep window s timeout).2, p.Sendable
    rw [SenderLoop.clockStep]
    split
    · split
      · rename_i ps hps
        exact ⟨h, sendable_resendFrom h hps⟩
      · exact ⟨h, by simp⟩
    · exact ⟨h, by simp⟩
  | left => exact ⟨h, hbare _ _⟩
  | refused | ended | undefined => exact ⟨h, by simp⟩

theorem ReceiverLoop.step_sends (M : ReceiverLoop) (window : ℕ) (r : Receiver)
    (inp : Option RtpPacket) (silent : Bool) :
    (∀ p ∈ (M.step window r inp silent).2, p.Sendable) ∧
      (inp = none → (M.step window r inp silent).2 = []) := by
  have hbare : ∀ seq, ∀ p ∈ [RtpPacket.bare rtpAck seq], p.Sendable := by
    intro seq p hp
    obtain rfl := List.mem_singleton.mp hp
    exact sendable_bare rtpAck seq
  unfold ReceiverLoop.step
  cases r.pc with
  | listen =>
    cases inp with
    | none => simp
    | some p =>
      by_cases hp : p.type = rtpStart
      · simp only [if_pos hp]
        exact ⟨hbare _, by simp⟩
      · simp only [if_neg hp]
        exact ⟨by simp, by simp⟩
  | loop =>
    cases inp with
    | none => simp
    | some p =>
      refine ⟨?_, by simp⟩
      by_cases he : p.type = rtpEnd
      · simp only [if_pos he]
        exact hbare _
      · by_cases hd : p.type = rtpData
        · simp only [if_neg he, if_pos hd]
          by_cases hwin : r.firstneedrecv ≤ p.seqNum ∧ p.seqNum < r.firstneedrecv + window
          · rw [M.onData_inside hwin]
            exact hbare _
          · rw [M.onData_outside hwin]
            simp
        · simp [he, hd]
  | closed => simp

end Loops

section System

structure Ends where
  sender : SockaddrIn
  receiver : SockaddrIn

/-- Both sides with their sockets; the network has all that they have sent. -/
structure Duplex where
  sender : SenderSocket
  receiver : ReceiverSocket

inductive SocketMove
  | sender (arrival : Arrival) (timeout : Bool)
  | receiver (arrival : Arrival) (silent : Bool)

def Delivers (source address : SockaddrIn) (sent : List (SockaddrIn × RtpPacket))
    (arrival : Arrival) : Prop :=
  ∀ x ∈ arrival, x.1 = source ∧ ∃ p, (address, p) ∈ sent ∧ p.Carries x.2

def Duplex.Allowed (ends : Ends) (st : Duplex) : SocketMove → Prop
  | .sender arrival _ => Delivers ends.receiver ends.sender st.receiver.acks arrival
  | .receiver arrival _ => Delivers ends.sender ends.receiver st.sender.sent arrival

def Duplex.move (P : Protocol) (window window' : ℕ) (st : Duplex) : SocketMove → Duplex
  | .sender arrival timeout =>
    { st with sender := st.sender.step P.sender window arrival timeout }
  | .receiver arrival silent =>
    { st with receiver := st.receiver.step P.receiver window' arrival silent }

/-- From the start of `initSender` and `initReceiver` on, with anything in the buffers. -/
def duplex (P : Protocol) (ends : Ends) (file : List UInt8) (startSeq window window' : ℕ) :
    TransitionSystem Duplex SocketMove where
  init st := ∃ client rcvbuf rcvbuf',
    st = ⟨.init file startSeq ends.receiver rcvbuf, .init client rcvbuf'⟩
  enabled := Duplex.Allowed ends
  next := Duplex.move P window window'

/-- What the two loops see of it, where nothing has been written past a buffer and every packet
has gone to the other side. -/
structure Duplex.Shows (ends : Ends) (st : Duplex) (t : Session) : Prop where
  snd : st.sender.snd = t.snd
  rcv : st.receiver.rcv = t.rcv
  defined : st.receiver.overrun = false
  sent : st.sender.sent = t.toRcv.map (Prod.mk ends.receiver)
  acks : st.receiver.acks = t.toSnd.map (Prod.mk ends.sender)

end System

section Simulation

variable {P : Protocol} {ends : Ends} {file : List UInt8} {startSeq window window' : ℕ}
variable {st : Duplex} {t t' : Session} {arrival : Arrival}

theorem Duplex.Shows.unique (h : st.Shows ends t) (h' : st.Shows ends t') : t = t' := by
  have hinj : ∀ a : SockaddrIn, Function.Injective (List.map (Prod.mk a : RtpPacket → _)) :=
    fun a => List.map_injective_iff.mpr fun _ _ he => (Prod.mk.inj he).2
  obtain ⟨snd, rcv, toRcv, toSnd⟩ := t
  obtain ⟨snd', rcv', toRcv', toSnd'⟩ := t'
  obtain rfl : snd = snd' := h.snd.symm.trans h'.snd
  obtain rfl : rcv = rcv' := h.rcv.symm.trans h'.rcv
  obtain rfl : toRcv = toRcv' := hinj _ (h.sent.symm.trans h'.sent)
  obtain rfl : toSnd = toSnd' := hinj _ (h.acks.symm.trans h'.acks)
  rfl

/-- With that: the sender's address is still the receiver's, and all packets fit. -/
structure Duplex.Mirrors (ends : Ends) (st : Duplex) (t : Session) : Prop
    extends st.Shows ends t where
  server : st.sender.server = ends.receiver
  packs : st.sender.snd.Packs RtpPacket.Sendable
  toRcv : ∀ p ∈ t.toRcv, p.Sendable
  toSnd : ∀ p ∈ t.toSnd, p.Sendable

private theorem receive_spec {source address : SockaddrIn} {packets : List RtpPacket}
    (fr : SockaddrIn) (hpackets : ∀ p ∈ packets, p.Sendable)
    (harrival : Delivers source address (packets.map (Prod.mk address)) arrival)
    (rcvbuf : Buffer rcvBuffSize) : (revRTPFrom fr rcvbuf arrival).1 ≠ .undefined ∧
      (fr = source ∨ arrival ≠ none → (revRTPFrom fr rcvbuf arrival).2.1 = source) ∧
      ∀ p ∈ (revRTPFrom fr rcvbuf arrival).1.toOption, p ∈ packets := by
  cases arrival with
  | none =>
    refine ⟨by simp [revRTPFrom], by simp [revRTPFrom], ?_⟩
    simp [revRTPFrom, Received.toOption]
  | some x =>
    obtain ⟨hsource, p, hp, hcarries⟩ := harrival x rfl
    have hmem : p ∈ packets := by simpa using hp
    obtain ⟨hdefined, hview⟩ := (hpackets p hmem).arrives rcvbuf hcarries
    exact ⟨hdefined, fun _ => hsource, fun q hq => hview q hq ▸ hmem⟩

private theorem exists_arrival (source address : SockaddrIn) {packets : List RtpPacket}
    (hpackets : ∀ p ∈ packets, p.Sendable) {inp : Option RtpPacket} (hinp : ∀ p ∈ inp, p ∈ packets)
    (fr : SockaddrIn) (rcvbuf : Buffer rcvBuffSize) :
    ∃ arrival, Delivers source address (packets.map (Prod.mk address)) arrival ∧
      (revRTPFrom fr rcvbuf arrival).1.toOption = inp := by
  cases inp with
  | none => exact ⟨none, by simp [Delivers], rfl⟩
  | some p =>
    have hmem := hinp p rfl
    obtain ⟨d, hcarries, hd⟩ := (hpackets p hmem).exists_datagram rcvbuf
    refine ⟨some (source, d), ?_, hd⟩
    intro x hx
    obtain rfl := Option.some.inj hx
    exact ⟨rfl, p, by simpa using hmem, hcarries⟩

variable (hL : P.sender.OnlyDeletes window)
include hL

theorem Duplex.Mirrors.proceed (h : st.Mirrors ends t) (inp : Option RtpPacket) (timeout : Bool)
    (rcvbuf : Buffer rcvBuffSize) :
    Duplex.Mirrors ends ⟨SenderSocket.proceed P.sender window
      { st.sender with server := ends.receiver, rcvbuf := rcvbuf } inp timeout, st.receiver⟩
      (t.senderMove P window inp timeout) := by
  obtain ⟨hpacks, hsends⟩ := hL.step h.packs inp timeout
  rw [h.snd] at hpacks hsends
  refine ⟨⟨?_, h.rcv, h.defined, ?_, h.acks⟩, rfl, ?_, ?_, h.toSnd⟩
  · simp only [SenderSocket.proceed, Session.senderMove, h.snd]
  · simp only [SenderSocket.proceed, Session.senderMove, h.snd, h.sent, List.map_append]
  · simpa only [SenderSocket.proceed, h.snd] using hpacks
  · intro p hp
    exact (List.mem_append.mp hp).elim (h.toRcv p) (hsends p)

/-- A step of the sender is one of the sender above `revRTP`. -/
theorem Duplex.Mirrors.sender (h : st.Mirrors ends t) (timeout : Bool)
    (harrival : Delivers ends.receiver ends.sender st.receiver.acks arrival) :
    Duplex.Mirrors ends ⟨st.sender.step P.sender window arrival timeout, st.receiver⟩
      (t.senderMove P window (st.sender.input arrival) timeout) ∧
    ∀ p ∈ st.sender.input arrival, p ∈ t.toSnd := by
  rw [h.acks] at harrival
  obtain ⟨hdefined, hserver, hfrom⟩ := receive_spec st.sender.server h.toSnd harrival
    st.sender.rcvbuf
  by_cases hreceives : st.sender.Receives
  · have hroom := not_not.mp (mt revRTPFrom_undefined_iff.mpr hdefined)
    rw [step_of_receives hreceives hroom, hserver (Or.inl h.server)]
    refine ⟨h.proceed hL _ timeout _, ?_⟩
    rwa [SenderSocket.input, if_pos hreceives]
  · rw [step_of_not_receives hreceives, SenderSocket.input, if_neg hreceives]
    have hproceed := h.proceed hL none timeout st.sender.rcvbuf
    rw [← h.server] at hproceed
    exact ⟨hproceed, by simp⟩

omit hL in
/-- What arrives only matters where the sender waits for it. -/
theorem SenderLoop.step_of_not_waits (L : SenderLoop) {s : Sender} (h : ¬ s.pc.Waits)
    (inp : Option RtpPacket) (timeout : Bool) :
    L.step window s inp timeout = L.step window s none timeout := by
  unfold SenderLoop.step
  cases hpc : s.pc with
  | connecting => exact absurd (Or.inl hpc) h
  | wait => exact absurd (Or.inr hpc) h
  | _ => rfl

theorem Duplex.Mirrors.exists_sender (h : st.Mirrors ends t) {inp : Option RtpPacket}
    (timeout : Bool) (hinp : ∀ p ∈ inp, p ∈ t.toSnd) :
    ∃ arrival, Delivers ends.receiver ends.sender st.receiver.acks arrival ∧
      Duplex.Mirrors ends ⟨st.sender.step P.sender window arrival timeout, st.receiver⟩
        (t.senderMove P window inp timeout) := by
  by_cases hreceives : st.sender.Receives
  · obtain ⟨arrival, harrival, hview⟩ := exists_arrival ends.receiver ends.sender h.toSnd hinp
      st.sender.server st.sender.rcvbuf
    rw [← h.acks] at harrival
    have hinput : st.sender.input arrival = inp := by
      rw [SenderSocket.input, if_pos hreceives, hview]
    refine ⟨arrival, harrival, ?_⟩
    rw [← hinput]
    exact (h.sender hL timeout harrival).1
  · have hnone : Delivers ends.receiver ends.sender st.receiver.acks none := by simp [Delivers]
    have hinput : st.sender.input none = none := if_neg hreceives
    have hquiet : ¬ t.snd.pc.Waits := fun hw => hreceives (Or.inl (h.snd ▸ hw))
    have hmirrors := (h.sender hL timeout hnone).1
    rw [hinput] at hmirrors
    refine ⟨none, hnone, ?_⟩
    rwa [Session.senderMove, P.sender.step_of_not_waits hquiet]

omit hL

/-- A step of the receiver is one of the receiver above `revRTP`. -/
theorem Duplex.Mirrors.receiver (h : st.Mirrors ends t) (silent : Bool)
    (hpc : t.rcv.pc ≠ .closed)
    (harrival : Delivers ends.sender ends.receiver st.sender.sent arrival) :
    let inp := (revRTPFrom st.receiver.client st.receiver.rcvbuf arrival).1.toOption
    Duplex.Mirrors ends ⟨st.sender, st.receiver.step P.receiver window' arrival silent⟩
      (t.receiverMove P window' inp silent) ∧ ∀ p ∈ inp, p ∈ t.toRcv := by
  rw [h.sent] at harrival
  obtain ⟨hdefined, hclient, hfrom⟩ := receive_spec st.receiver.client h.toRcv harrival
    st.receiver.rcvbuf
  have hroom : ∀ x ∈ arrival, HasRoom x.2 := not_not.mp (mt revRTPFrom_undefined_iff.mpr hdefined)
  refine ⟨?_, hfrom⟩
  rw [receiver_step_eq P.receiver window' silent h.defined (by rwa [h.rcv]) hroom, h.rcv]
  obtain ⟨hsends, hquiet⟩ := P.receiver.step_sends window' t.rcv
    (revRTPFrom st.receiver.client st.receiver.rcvbuf arrival).1.toOption silent
  refine ⟨⟨h.snd, rfl, h.defined, h.sent, ?_⟩, h.server, h.packs, h.toRcv, ?_⟩
  · show st.receiver.acks ++ List.map _ _ = List.map _ (t.toSnd ++ _)
    rw [h.acks, List.map_append]
    congr 1
    cases arrival with
    | none => simp only [hquiet rfl, List.map_nil]
    | some x => rw [hclient (Or.inr (by simp))]
  · intro p hp
    exact (List.mem_append.mp hp).elim (h.toSnd p) (hsends p)

theorem ReceiverSocket.step_of_closed (M : ReceiverLoop) {r : ReceiverSocket}
    (hpc : r.rcv.pc = .closed) (silent : Bool) : r.step M window' arrival silent = r :=
  if_pos (Or.inr hpc)

theorem Session.receiverMove_of_closed (hpc : t.rcv.pc = .closed) (inp : Option RtpPacket)
    (silent : Bool) : t.receiverMove P window' inp silent = t := by
  simp [Session.receiverMove, ReceiverLoop.step, hpc]

private theorem duplex_mirrors_init (client : SockaddrIn) (rcvbuf rcvbuf' : Buffer rcvBuffSize) :
    Duplex.Mirrors ends
      ⟨.init file startSeq ends.receiver rcvbuf, .init client rcvbuf'⟩
      (.beforeStart file startSeq) := by
  refine ⟨⟨rfl, rfl, rfl, rfl, rfl⟩, rfl, ?_, by simp [Session.beforeStart],
    by simp [Session.beforeStart]⟩
  intro p hp
  simp [SenderSocket.init, Sender.init] at hp

theorem onlyDeletes (hP : P = cumulative ∨ P = selective) : P.sender.OnlyDeletes window := by
  rcases hP with rfl | rfl
  · exact sendMessage_onlyDeletes window
  · exact sendMessageOpt_onlyDeletes window

/-- Whatever the datagrams lead to, the packets do. -/
theorem duplex_mirrored (hP : P = cumulative ∨ P = selective)
    (h : (duplex P ends file startSeq window window').Reachable st) :
    ∃ t, (connection P file startSeq window window').Reachable t ∧ st.Mirrors ends t := by
  have hL : P.sender.OnlyDeletes window := onlyDeletes hP
  refine h.simulated (R := fun (st : Duplex) t => st.Mirrors ends t) ?_ ?_
  · rintro _ ⟨client, rcvbuf, rcvbuf', rfl⟩
    exact ⟨_, rfl, duplex_mirrors_init client rcvbuf rcvbuf'⟩
  · intro st t mv hR hmv
    cases mv with
    | sender arrival timeout =>
      obtain ⟨hmirrors, hinp⟩ := hR.sender hL timeout hmv
      exact Or.inr ⟨.sender _ timeout, hinp, hmirrors⟩
    | receiver arrival silent =>
      by_cases hpc : t.rcv.pc = .closed
      · left
        have hstay : st.receiver.step P.receiver window' arrival silent = st.receiver :=
          ReceiverSocket.step_of_closed P.receiver (hR.rcv ▸ hpc) silent
        show Duplex.Mirrors ends ⟨st.sender, st.receiver.step P.receiver window' arrival silent⟩ t
        rwa [hstay]
      · obtain ⟨hmirrors, hinp⟩ := hR.receiver silent hpc hmv
        exact Or.inr ⟨.receiver _ silent, hinp, hmirrors⟩

/-- Whatever the packets lead to, some datagrams do. -/
theorem connection_mirrored (hP : P = cumulative ∨ P = selective) (ends : Ends)
    (h : (connection P file startSeq window window').Reachable t) :
    ∃ st, (duplex P ends file startSeq window window').Reachable st ∧ st.Mirrors ends t := by
  have hL : P.sender.OnlyDeletes window := onlyDeletes hP
  refine h.simulated (R := fun t (st : Duplex) => st.Mirrors ends t) ?_ ?_
  · rintro _ rfl
    exact ⟨_, ⟨ends.sender, .zeroed _, .zeroed _, rfl⟩, duplex_mirrors_init _ _ _⟩
  · intro t st mv hR hmv
    cases mv with
    | sender inp timeout =>
      obtain ⟨arrival, harrival, hmirrors⟩ := hR.exists_sender hL timeout hmv
      exact Or.inr ⟨.sender arrival timeout, harrival, hmirrors⟩
    | receiver inp silent =>
      by_cases hpc : t.rcv.pc = .closed
      · left
        show Duplex.Mirrors ends st (t.receiverMove P window' inp silent)
        rwa [Session.receiverMove_of_closed hpc]
      · obtain ⟨arrival, harrival, hview⟩ := exists_arrival ends.sender ends.receiver hR.toRcv hmv
          st.receiver.client st.receiver.rcvbuf
        rw [← hR.sent] at harrival
        refine Or.inr ⟨.receiver arrival silent, harrival, ?_⟩
        have hmirrors : Duplex.Mirrors ends
            ⟨st.sender, st.receiver.step P.receiver window' arrival silent⟩
            (t.receiverMove P window' _ silent) := (hR.receiver silent hpc harrival).1
        rwa [hview] at hmirrors

end Simulation

section Results

variable {P : Protocol} {ends : Ends} {file : List UInt8} {startSeq window window' : ℕ}
variable {st : Duplex} {t : Session}

/-- The two loops come over datagrams exactly to where packets that get lost, come twice, late or
in another order take them, and nowhere else. -/
theorem connection_iff_datagrams (hP : P = cumulative ∨ P = selective) (ends : Ends) :
    (∀ t, (connection P file startSeq window window').Reachable t ↔
      ∃ st, (duplex P ends file startSeq window window').Reachable st ∧ st.Shows ends t) ∧
    ∀ st, (duplex P ends file startSeq window window').Reachable st →
      ∃ t, (connection P file startSeq window window').Reachable t ∧ st.Shows ends t := by
  refine ⟨fun t => ⟨fun h => ?_, ?_⟩, fun st hst => ?_⟩
  · obtain ⟨st, hst, hmirrors⟩ := connection_mirrored hP ends h
    exact ⟨st, hst, hmirrors.toShows⟩
  · rintro ⟨st, hst, hshows⟩
    obtain ⟨t', ht', hmirrors⟩ := duplex_mirrored hP hst
    rwa [hshows.unique hmirrors.toShows]
  · obtain ⟨t, ht, hmirrors⟩ := duplex_mirrored hP hst
    exact ⟨t, ht, hmirrors.toShows⟩

/-- The number of the START is none that the sender could take for that of an ACK. -/
def HarmlessStart (P : Protocol) (file : List UInt8) (startSeq : ℕ) : Prop :=
  P = cumulative ∧ (startSeq = 0 ∨ packetCount file = 0) ∨
    P = selective ∧ packetCount file ≤ startSeq

theorem HarmlessStart.link (h : HarmlessStart P file startSeq) (hf : Fits file window window')
    (hseq : startSeq < 2 ^ 31) (ht : (connection P file startSeq window window').Reachable t) :
    ∃ D : Discipline P file window window', Link D t := by
  have hu : u32 startSeq = startSeq := u32_eq (by omega)
  rcases h with ⟨rfl, rfl | hcount⟩ | ⟨rfl, hcount⟩
  · exact ⟨_, link_connection (cumulativeDiscipline file window window') hf
      (fun r => Nat.zero_le _) ht⟩
  · exact ⟨_, link_connection (emptyDiscipline hcount) hf (fun _ => trivial) ht⟩
  · exact ⟨_, link_connection (selectiveDiscipline file window window' hf) hf
      (fun r => Or.inr (by rwa [hu, hu])) ht⟩

/-- From the first datagram on: nothing is written past a buffer, the sender uses no bad index,
every packet goes to the other side, and the receiver's file is what the packets below its window
carry, the whole file once the sender has left its loop. -/
theorem datagrams_safe (hf : Fits file window window') (hseq : startSeq < 2 ^ 31)
    (hstart : HarmlessStart P file startSeq)
    (h : (duplex P ends file startSeq window window').Reachable st) :
    st.receiver.overrun = false ∧ st.sender.snd.pc ≠ .undefined ∧
    (∀ x ∈ st.sender.sent, x.1 = ends.receiver) ∧ (∀ x ∈ st.receiver.acks, x.1 = ends.sender) ∧
    st.receiver.rcv.written = firstBytes file st.receiver.rcv.firstneedrecv ∧
    (st.sender.snd.hasLeft → st.receiver.rcv.written = file) := by
  have hP : P = cumulative ∨ P = selective := hstart.imp And.left And.left
  obtain ⟨t, ht, hmirrors⟩ := duplex_mirrored hP h
  obtain ⟨D, hlink⟩ := hstart.link hf hseq ht
  rw [hmirrors.sent, hmirrors.acks, hmirrors.snd, hmirrors.rcv]
  refine ⟨hmirrors.defined, hlink.sender.defined, ?_, ?_, hlink.written, hlink.written_all⟩
  · simp
  · simp

def SenderPC.Early (pc : SenderPC) : Prop := pc = .start ∨ pc = .connecting ∨ pc = .refused

theorem SenderLoop.waitStep_pc (L : SenderLoop) (window : ℕ) (s : Sender) (inp : Option RtpPacket) :
    (L.waitStep window s inp).pc = .clock ∨ (L.waitStep window s inp).pc = .undefined := by
  have hafter : ∀ (t : Sender) pc, (if t.pc = .undefined then t else
      let u := L.onWait window t
      if u.pc = .undefined then u else { u with pc := .clock }).pc = pc →
      pc = .clock ∨ pc = .undefined := by
    rintro t _ rfl
    dsimp only
    split_ifs with ht hu
    · exact Or.inr ht
    · exact Or.inr hu
    · exact Or.inl rfl
  exact hafter _ _ rfl

/-- There is no way back from the main loop, and nothing is sent before it. -/
theorem SenderLoop.step_early (hP : P = cumulative ∨ P = selective) (s : Sender)
    (inp : Option RtpPacket) (timeout : Bool)
    (h : (P.sender.step window s inp timeout).1.pc.Early) :
    s.pc.Early ∧ (P.sender.step window s inp timeout).1.nextseqnum = s.nextseqnum := by
  have hkeeps : (P.sender.onSend window s).pc = s.pc := by rcases hP with rfl | rfl <;> rfl
  unfold SenderLoop.step at h ⊢
  cases hpc : s.pc with
  | start => exact ⟨Or.inl rfl, by simp⟩
  | connecting =>
    refine ⟨Or.inr (Or.inl rfl), ?_⟩
    cases inp with
    | none => rfl
    | some p =>
      dsimp only
      split <;> rfl
  | refused => exact ⟨Or.inr (Or.inr rfl), rfl⟩
  | read =>
    simp only [hpc] at h
    rcases readStep_pc window s with he | he <;> simp [he, hpc, SenderPC.Early] at h
  | test =>
    simp only [hpc] at h
    split at h <;> simp [SenderPC.Early] at h
  | send =>
    simp only [hpc, SenderLoop.sendStep] at h
    split at h
    · split at h <;> simp [hkeeps, hpc, SenderPC.Early] at h
    · simp [SenderPC.Early] at h
  | wait =>
    simp only [hpc] at h
    rcases P.sender.waitStep_pc window s inp with he | he <;> simp [he, SenderPC.Early] at h
  | clock =>
    simp only [hpc, SenderLoop.clockStep] at h
    split at h
    · split at h <;> simp [SenderPC.Early] at h
    · simp [SenderPC.Early] at h
  | left => simp [hpc, SenderPC.Early] at h
  | ended => simp [hpc, SenderPC.Early] at h
  | undefined => simp [hpc, SenderPC.Early] at h

private theorem early_unsent (hP : P = cumulative ∨ P = selective)
    (h : (connection P file startSeq window window').Reachable t) (hpc : t.snd.pc.Early) :
    t.snd.nextseqnum = 0 := by
  refine h.invariant (P := fun t => t.snd.pc.Early → t.snd.nextseqnum = 0) ?_ ?_ hpc
  · rintro _ rfl _
    rfl
  · intro t mv ih hmv hearly
    cases mv with
    | sender inp timeout =>
      obtain ⟨hbefore, hsame⟩ := SenderLoop.step_early hP t.snd inp timeout hearly
      exact hsame.trans (ih hbefore)
    | receiver inp silent => exact ih hearly

/-- An END ends the whole file, or a connection that was refused before anything was sent. -/
theorem end_arrives (hP : P = cumulative ∨ P = selective)
    (h : (connection P file startSeq window window').Reachable t)
    {D : Discipline P file window window'} (hlink : Link D t) {p : RtpPacket} (hp : p ∈ t.toRcv)
    (hend : p.type = rtpEnd) :
    t.rcv.written = file ∨ t.snd.pc = .refused ∧ t.rcv.written = [] := by
  rcases hlink.ends p hp hend with hrefused | ⟨hended, -⟩
  · right
    have hnone : t.rcv.firstneedrecv = 0 := by
      have hbelow := hlink.receiver.below
      rw [early_unsent hP h (Or.inr (Or.inr hrefused))] at hbelow
      exact Nat.le_zero.mp hbelow
    refine ⟨hrefused, ?_⟩
    rw [hlink.written, hnone]
    rfl
  · exact Or.inl (hlink.written_all (Or.inr hended))

/-- A receiver that is not silent leaves its loop only on an END. -/
theorem ReceiverLoop.step_closed (M : ReceiverLoop) {r : Receiver} {inp : Option RtpPacket}
    (hloop : r.pc = .loop) (hclosed : (M.step window' r inp false).1.pc = .closed) :
    (∃ p ∈ inp, p.type = rtpEnd) ∧ (M.step window' r inp false).1.written = r.written := by
  cases inp with
  | none => simp [ReceiverLoop.step, hloop] at hclosed
  | some p =>
    by_cases hend : p.type = rtpEnd
    · exact ⟨⟨p, rfl, hend⟩, by simp [ReceiverLoop.step, hloop, hend]⟩
    · by_cases hdata : p.type = rtpData
      · rw [M.step_data window' false hloop hdata, ReceiverLoop.onData] at hclosed
        split at hclosed <;> simp [hloop] at hclosed
      · simp [ReceiverLoop.step, hloop, hend, hdata] at hclosed

theorem Duplex.Mirrors.receiver_rcv (h : st.Mirrors ends t) (silent : Bool) {arrival : Arrival}
    (hpc : t.rcv.pc ≠ .closed)
    (harrival : Delivers ends.sender ends.receiver st.sender.sent arrival) :
    (st.move P window window' (.receiver arrival silent)).receiver.rcv =
      (P.receiver.step window' t.rcv
        (revRTPFrom st.receiver.client st.receiver.rcvbuf arrival).1.toOption silent).1 := by
  obtain ⟨hnext, -⟩ := h.receiver silent hpc harrival
  exact hnext.rcv

/-- Unless it runs into its ten seconds of silence, the receiver leaves its loop with the whole
file, or with an empty one where the sender has given up before it sent anything. -/
theorem closes_whole (hf : Fits file window window') (hseq : startSeq < 2 ^ 31)
    (hstart : HarmlessStart P file startSeq)
    (h : (duplex P ends file startSeq window window').Reachable st) (arrival : Arrival)
    (hmv : (duplex P ends file startSeq window window').enabled st (.receiver arrival false))
    (hloop : st.receiver.rcv.pc = .loop)
    (hclosed : (st.move P window window' (.receiver arrival false)).receiver.rcv.pc = .closed) :
    (st.move P window window' (.receiver arrival false)).receiver.rcv.written = file ∨
      st.sender.snd.pc = .refused ∧
        (st.move P window window' (.receiver arrival false)).receiver.rcv.written = [] := by
  have hP : P = cumulative ∨ P = selective := hstart.imp And.left And.left
  obtain ⟨t, ht, hmirrors⟩ := duplex_mirrored hP h
  obtain ⟨D, hlink⟩ := hstart.link hf hseq ht
  have hpc : t.rcv.pc = .loop := hmirrors.rcv ▸ hloop
  have hopen : t.rcv.pc ≠ .closed := by simp [hpc]
  rw [hmirrors.receiver_rcv false hopen hmv] at hclosed ⊢
  obtain ⟨⟨p, hp, hend⟩, hsame⟩ := P.receiver.step_closed hpc hclosed
  have harrival : Delivers ends.sender ends.receiver st.sender.sent arrival := hmv
  rw [hmirrors.sent] at harrival
  have hmem : p ∈ t.toRcv :=
    (receive_spec st.receiver.client hmirrors.toRcv harrival st.receiver.rcvbuf).2.2 p hp
  rw [hsame, hmirrors.snd]
  exact end_arrives hP ht hlink hmem hend

/-- The START with number 1, and a file of one byte that is sent and acknowledged. -/
def startedRun : List Move :=
  [.sender none false, .receiver (some (.bare rtpStart 1)) false,
    .sender (some (.bare rtpAck 1)) false] ++ List.replicate 5 (.sender none false) ++
    [.receiver (some (dataPacket [7] 0)) false, .sender (some (.bare rtpAck 0)) false,
    .sender none false, .sender none false, .sender none false]

private theorem reachable_startedRun : (connection selective [7] 1 1 1).Reachable
    ((connection selective [7] 1 1 1).play (.beforeStart [7] 1) startedRun) :=
  Reachable.play (.init rfl) (by decide)

theorem connection_iff_datagrams_oneByte : ∃ st,
    (duplex selective ⟨⟨0, 0⟩, ⟨1, 1⟩⟩ [7] 1 1 1).Reachable st ∧ st.receiver.rcv.written = [7] := by
  obtain ⟨st, hst, hshows⟩ :=
    ((connection_iff_datagrams (Or.inr rfl) ⟨⟨0, 0⟩, ⟨1, 1⟩⟩).1 _).mp reachable_startedRun
  refine ⟨st, hst, ?_⟩
  rw [hshows.rcv]
  decide

theorem datagrams_safe_oneByte : ∃ st,
    (duplex selective ⟨⟨0, 0⟩, ⟨1, 1⟩⟩ [7] 1 1 1).Reachable st ∧
      st.sender.snd.hasLeft ∧ st.receiver.rcv.written = [7] := by
  obtain ⟨st, hst, hmirrors⟩ :=
    connection_mirrored (Or.inr rfl) ⟨⟨0, 0⟩, ⟨1, 1⟩⟩ reachable_startedRun
  have hf : Fits [7] 1 1 := by constructor <;> decide
  have hleft : st.sender.snd.hasLeft := by
    rw [hmirrors.snd]
    decide
  obtain ⟨-, -, -, -, -, hwhole⟩ :=
    datagrams_safe hf (by decide) (Or.inr ⟨rfl, by decide⟩) hst
  exact ⟨st, hst, hleft, hwhole hleft⟩

def endedRun : List Move := startedRun ++ [.sender none false]

theorem closes_whole_oneByte : ∃ st arrival,
    (duplex selective ⟨⟨0, 0⟩, ⟨1, 1⟩⟩ [7] 1 1 1).Reachable st ∧
      (duplex selective ⟨⟨0, 0⟩, ⟨1, 1⟩⟩ [7] 1 1 1).enabled st (.receiver arrival false) ∧
      (st.move selective 1 1 (.receiver arrival false)).receiver.rcv.written = [7] := by
  have ht : (connection selective [7] 1 1 1).Reachable
      ((connection selective [7] 1 1 1).play (.beforeStart [7] 1) endedRun) :=
    Reachable.play (.init rfl) (by decide)
  obtain ⟨st, hst, hmirrors⟩ := connection_mirrored (Or.inr rfl) ⟨⟨0, 0⟩, ⟨1, 1⟩⟩ ht
  have hend : ∀ p ∈ some (RtpPacket.bare rtpEnd 1), p ∈
      ((connection selective [7] 1 1 1).play (.beforeStart [7] 1) endedRun).toRcv := by decide
  obtain ⟨arrival, harrival, hview⟩ := exists_arrival ⟨0, 0⟩ ⟨1, 1⟩ hmirrors.toRcv hend
    st.receiver.client st.receiver.rcvbuf
  rw [← hmirrors.sent] at harrival
  have hrcv : (st.move selective 1 1 (.receiver arrival false)).receiver.rcv.pc = .closed := by
    rw [hmirrors.receiver_rcv false (by decide) harrival, hview]
    decide
  have hf : Fits [7] 1 1 := by constructor <;> decide
  have hloop : st.receiver.rcv.pc = .loop := by
    rw [hmirrors.rcv]
    decide
  refine ⟨st, arrival, hst, harrival, ?_⟩
  refine (closes_whole hf (by decide) (Or.inr ⟨rfl, by decide⟩) hst arrival harrival hloop
    hrcv).resolve_right fun h => ?_
  rw [hmirrors.snd] at h
  exact absurd h.1 (by decide)

end Results

end NetworkingLabs.Rtp
