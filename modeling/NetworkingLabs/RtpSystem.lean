import NetworkingLabs.TransitionSystem
import NetworkingLabs.RtpReceiverRing
import NetworkingLabs.RtpSenderInvariant

/-!
# Sender, receiver and the network between them

The network keeps every packet ever sent. Either side may get any of them at any
time, any number of times or never, so loss, duplication, reordering and delay are
all covered; a damaged packet is one that `revRTP` turns into nothing.
-/
namespace NetworkingLabs.Rtp
open NumberedChunks

/-- Both sides and every packet sent so far in either direction. -/
structure Session where
  snd : Sender
  rcv : Receiver
  toRcv : List RtpPacket
  toSnd : List RtpPacket

structure Protocol where
  sender : SenderLoop
  receiver : ReceiverLoop

def cumulative : Protocol := ⟨sendMessage, recvMessage⟩
def selective : Protocol := ⟨sendMessageOpt, recvMessageOpt⟩

def Session.senderMove (P : Protocol) (window : ℕ) (st : Session) (inp : Option RtpPacket)
    (timeout : Bool) : Session :=
  let out := P.sender.step window st.snd inp timeout
  { st with snd := out.1, toRcv := st.toRcv ++ out.2 }

def Session.receiverMove (P : Protocol) (window' : ℕ) (st : Session) (inp : Option RtpPacket)
    (silent : Bool) : Session :=
  let out := P.receiver.step window' st.rcv inp silent
  { st with rcv := out.1, toSnd := st.toSnd ++ out.2 }

/-- What may happen next: a step of either side, with what `revRTP` returns there and
with the outcome of its timer. -/
inductive Move
  | sender (inp : Option RtpPacket) (timeout : Bool)
  | receiver (inp : Option RtpPacket) (silent : Bool)

def Session.Allowed (st : Session) : Move → Prop
  | .sender inp _ => ∀ p ∈ inp, p ∈ st.toSnd
  | .receiver inp _ => ∀ p ∈ inp, p ∈ st.toRcv

instance (st : Session) : (mv : Move) → Decidable (st.Allowed mv)
  | .sender inp _ => inferInstanceAs (Decidable (∀ p ∈ inp, p ∈ st.toSnd))
  | .receiver inp _ => inferInstanceAs (Decidable (∀ p ∈ inp, p ∈ st.toRcv))

def Session.move (P : Protocol) (window window' : ℕ) (st : Session) : Move → Session
  | .sender inp timeout => st.senderMove P window inp timeout
  | .receiver inp silent => st.receiverMove P window' inp silent

/-- Before `initSender` and `initReceiver` exchange anything. -/
def Session.beforeStart (file : List UInt8) (startSeq : ℕ) : Session :=
  ⟨.init .start startSeq file, .init .listen, [], []⟩

/-- After the handshake, with nothing in flight. -/
def Session.afterStart (file : List UInt8) (startSeq : ℕ) : Session :=
  ⟨.init .read startSeq file, .init .loop, [], []⟩

def transfer (P : Protocol) (file : List UInt8) (window window' : ℕ) :
    TransitionSystem Session Move where
  init st := ∃ startSeq, st = .afterStart file startSeq
  enabled := Session.Allowed
  next := Session.move P window window'

def connection (P : Protocol) (file : List UInt8) (startSeq window window' : ℕ) :
    TransitionSystem Session Move where
  init st := st = .beforeStart file startSeq
  enabled := Session.Allowed
  next := Session.move P window window'

instance (P : Protocol) (file : List UInt8) (window window' : ℕ) (st : Session) (mv : Move) :
    Decidable ((transfer P file window window').enabled st mv) :=
  inferInstanceAs (Decidable (st.Allowed mv))

instance (P : Protocol) (file : List UInt8) (startSeq window window' : ℕ) (st : Session)
    (mv : Move) : Decidable ((connection P file startSeq window window').enabled st mv) :=
  inferInstanceAs (Decidable (st.Allowed mv))

structure Grows (m : ℕ) (r r' : Receiver) : Prop where
  first : r.firstneedrecv ≤ r'.firstneedrecv
  accepted : ∀ k, r.Accepted m k → r'.Accepted m k

theorem Grows.refl (m : ℕ) (r : Receiver) : Grows m r r := ⟨le_rfl, fun _ h => h⟩

theorem Grows.of_pc (m : ℕ) (r : Receiver) (pc : ReceiverPC) : Grows m r { r with pc := pc } :=
  ⟨le_rfl, fun _ h => h⟩

abbrev ReceiverInv (file : List UInt8) (window' next : ℕ) (r : Receiver) : Prop :=
  RingInv (chunk freadSize file) (buffSize window') window' next r

/-- What an ACK promises and what the sender's marks mean in a protocol, with the proof
that the two loops keep to it. -/
structure Discipline (P : Protocol) (file : List UInt8) (window window' : ℕ) where
  ackOK : Receiver → ℕ → Prop
  marks : Sender → Receiver → Prop
  ackOK_mono : ∀ {r r' k}, Grows (buffSize window') r r' → ackOK r k → ackOK r' k
  ackOK_end : ∀ {r}, packetCount file ≤ r.firstneedrecv → ackOK r (packetCount file)
  ackOK_new : ∀ {r p}, r.firstneedrecv < 2 ^ 32 → p.seqNum < 2 ^ 32 →
    r.Accepted (buffSize window') p.seqNum → ackOK r (u32 (P.receiver r p))
  marks_init : ∀ pc startSeq r, marks (.init pc startSeq file) r
  marks_congr : ∀ {s s' r}, s'.base = s.base → s'.nextseqnum = s.nextseqnum →
    s'.acked = s.acked → marks s r → marks s' r
  marks_mono : ∀ {s r r'}, Grows (buffSize window') r r' → marks s r → marks s r'
  onSend_eq : ∀ s, ∃ acked, P.sender.onSend window s = { s with acked := acked }
  marks_send : ∀ {s r}, SenderInv file window s → marks s r → s.nextseqnum < s.totseq →
    marks { P.sender.onSend window s with nextseqnum := s.nextseqnum + 1 } r
  due_some : ∀ {s r}, marks s r → ∃ d : ℕ → Bool, ∀ j, s.base ≤ j → j < s.nextseqnum →
    P.sender.due window s j = some (d j)
  waitStep : ∀ {s r} inp, SenderInv file window s → s.pc = .wait → marks s r →
    s.base ≤ r.firstneedrecv → ReceiverInv file window' s.nextseqnum r →
    (∀ p ∈ inp, p.type = rtpAck → ackOK r p.seqNum) →
    SenderInv file window (P.sender.waitStep window s inp) ∧
    marks (P.sender.waitStep window s inp) r ∧
    s.base ≤ (P.sender.waitStep window s inp).base ∧
    (P.sender.waitStep window s inp).base ≤ r.firstneedrecv ∧
    (P.sender.waitStep window s inp).nextseqnum = s.nextseqnum ∧
    (P.sender.waitStep window s inp).pc = .clock

variable {P : Protocol} {file : List UInt8} {window window' : ℕ} {st : Session}

theorem Discipline.marks_pc (D : Discipline P file window window') {s : Sender} {r : Receiver}
    (h : D.marks s r) (pc : SenderPC) : D.marks { s with pc := pc } r :=
  D.marks_congr (s := s) rfl rfl rfl h

/-- The invariant over both sides and the network. -/
structure Link (D : Discipline P file window window') (st : Session) : Prop where
  sender : SenderInv file window st.snd
  receiver : ReceiverInv file window' st.snd.nextseqnum st.rcv
  low : st.snd.base ≤ st.rcv.firstneedrecv
  marks : D.marks st.snd st.rcv
  data : ∀ p ∈ st.toRcv, p.type = rtpData → ∃ i < st.snd.nextseqnum, p = dataPacket file i
  sent : ∀ i < st.snd.nextseqnum, dataPacket file i ∈ st.toRcv
  ends : ∀ p ∈ st.toRcv, p.type = rtpEnd → st.snd.pc = .refused ∨
    st.snd.pc = .ended ∧ p.seqNum = packetCount file
  starts : ∀ p ∈ st.toRcv, p.type = rtpStart → ∀ r, D.ackOK r (u32 p.seqNum)
  opening : st.snd.pc = .start → ∀ r, D.ackOK r (u32 (u32 st.snd.startSeq))
  acks : st.snd.pc ≠ .refused → ∀ p ∈ st.toSnd, p.type = rtpAck → D.ackOK st.rcv p.seqNum

variable {D : Discipline P file window window'}

theorem link_afterStart (startSeq : ℕ) : Link D (.afterStart file startSeq) := by
  refine ⟨senderInv_init startSeq (Or.inr rfl), ringInv_init _, le_rfl, D.marks_init _ _ _,
    ?_, ?_, ?_, ?_, ?_, ?_⟩ <;> simp [Session.afterStart, Sender.init]

theorem link_beforeStart {startSeq : ℕ} (h : ∀ r, D.ackOK r (u32 (u32 startSeq))) :
    Link D (.beforeStart file startSeq) := by
  refine ⟨senderInv_init startSeq (Or.inl rfl), ringInv_init _, le_rfl, D.marks_init _ _ _,
    ?_, ?_, ?_, ?_, ?_, ?_⟩ <;> simp [Session.beforeStart, Sender.init]
  exact h

section Sender

/-- A step of the sender: what it has to promise for the link to hold again. -/
theorem Link.sender_to (h : Link D st) {s : Sender} {out : List RtpPacket}
    (hs : SenderInv file window s) (hmarks : D.marks s st.rcv)
    (hlow : s.base ≤ st.rcv.firstneedrecv) (hnext : st.snd.nextseqnum ≤ s.nextseqnum)
    (hdata : ∀ p ∈ out, p.type = rtpData → ∃ i < s.nextseqnum, p = dataPacket file i)
    (hsent : ∀ i < s.nextseqnum, st.snd.nextseqnum ≤ i → dataPacket file i ∈ out)
    (hends : ∀ p ∈ st.toRcv ++ out, p.type = rtpEnd → s.pc = .refused ∨
      s.pc = .ended ∧ p.seqNum = packetCount file)
    (hstarts : ∀ p ∈ out, p.type = rtpStart → ∀ r, D.ackOK r (u32 p.seqNum))
    (hpc : s.pc ≠ .start) (href : st.snd.pc = .refused → s.pc = .refused) :
    Link D { st with snd := s, toRcv := st.toRcv ++ out } := by
  refine ⟨hs, h.receiver.mono hnext, hlow, hmarks, ?_, ?_, hends, ?_, ?_, ?_⟩
  · intro p hp ht
    rcases List.mem_append.mp hp with hp | hp
    · obtain ⟨i, hi, rfl⟩ := h.data p hp ht
      exact ⟨i, hi.trans_le hnext, rfl⟩
    · exact hdata p hp ht
  · intro i hi
    by_cases hlt : i < st.snd.nextseqnum
    · exact List.mem_append_left _ (h.sent i hlt)
    · exact List.mem_append_right _ (hsent i hi (by omega))
  · intro p hp ht
    rcases List.mem_append.mp hp with hp | hp
    · exact h.starts p hp ht
    · exact hstarts p hp ht
  · exact fun he => absurd he hpc
  · exact fun hr => h.acks (fun he => hr (href he))

theorem Link.no_end (h : Link D st) (hr : st.snd.pc ≠ .refused) (he : st.snd.pc ≠ .ended) :
    ∀ p ∈ st.toRcv, p.type ≠ rtpEnd := by
  intro p hp ht
  rcases h.ends p hp ht with h | ⟨h, -⟩
  · exact hr h
  · exact he h

theorem Link.sender_quiet (h : Link D st) {s : Sender} (hs : SenderInv file window s)
    (hmarks : D.marks s st.rcv) (hlow : s.base ≤ st.rcv.firstneedrecv)
    (hnext : s.nextseqnum = st.snd.nextseqnum) (hr : st.snd.pc ≠ .refused)
    (he : st.snd.pc ≠ .ended) (hpc : s.pc ≠ .start) :
    Link D { st with snd := s, toRcv := st.toRcv ++ [] } := by
  refine h.sender_to hs hmarks hlow hnext.ge (by simp) ?_ ?_ (by simp) hpc (fun h => absurd h hr)
  · intro i hi hge
    omega
  · intro p hp ht
    rw [List.append_nil] at hp
    exact absurd ht (h.no_end hr he p hp)

theorem Link.sender_goto (h : Link D st) (pc : SenderPC)
    (hs : SenderInv file window { st.snd with pc := pc }) (hr : st.snd.pc ≠ .refused)
    (he : st.snd.pc ≠ .ended) (hpc : pc ≠ .start) :
    Link D { st with snd := { st.snd with pc := pc }, toRcv := st.toRcv ++ [] } :=
  h.sender_quiet hs (D.marks_pc h.marks _) h.low rfl hr he hpc

theorem Link.sender_bare (h : Link D st) (pc : SenderPC) {t : UInt8} (ht : t ≠ rtpData) (seq : ℕ)
    (hs : SenderInv file window { st.snd with pc := pc })
    (hends : ∀ p ∈ st.toRcv, p.type = rtpEnd → pc = .refused ∨
      pc = .ended ∧ p.seqNum = packetCount file)
    (hend : t = rtpEnd → pc = .refused ∨ pc = .ended ∧ u32 seq = packetCount file)
    (hstart : t = rtpStart → ∀ r, D.ackOK r (u32 (u32 seq)))
    (hpc : pc ≠ .start) (href : st.snd.pc = .refused → pc = .refused) :
    Link D { st with
      snd := { st.snd with pc := pc }, toRcv := st.toRcv ++ [.bare t seq] } := by
  refine h.sender_to hs (D.marks_pc h.marks _) h.low le_rfl ?_ ?_ ?_ ?_ hpc href
  · intro p hp htype
    obtain rfl := List.mem_singleton.mp hp
    exact absurd htype ht
  · intro i hi hge
    exact absurd hi (not_lt.mpr hge)
  · intro p hp htype
    rcases List.mem_append.mp hp with hp | hp
    · exact hends p hp htype
    · obtain rfl := List.mem_singleton.mp hp
      exact hend htype
  · intro p hp htype
    obtain rfl := List.mem_singleton.mp hp
    exact hstart htype

theorem Link.sender_refuse (h : Link D st) (seq : ℕ) :
    Link D { st with
      snd := { st.snd with pc := .refused }, toRcv := st.toRcv ++ [.bare rtpEnd seq] } :=
  h.sender_bare .refused (by decide) seq (h.sender.goto (by simp)) (fun _ _ _ => Or.inl rfl)
    (fun _ => Or.inl rfl) (fun ht => absurd ht (by decide)) (by simp) fun _ => rfl

theorem Link.acks_of_mem (h : Link D st) (hpc : st.snd.pc = .wait) {inp : Option RtpPacket}
    (hinp : ∀ p ∈ inp, p ∈ st.toSnd) : ∀ p ∈ inp, p.type = rtpAck → D.ackOK st.rcv p.seqNum :=
  fun p hp ht => h.acks (by simp [hpc]) p (hinp p hp) ht

variable (hf : Fits file window window')
include hf

theorem Link.sendStep (h : Link D st) (hpc : st.snd.pc = .send) :
    Link D { st with
      snd := (P.sender.sendStep window st.snd).1
      toRcv := st.toRcv ++ (P.sender.sendStep window st.snd).2 } := by
  have hs := h.sender
  by_cases hlt : st.snd.nextseqnum < st.snd.totseq
  · obtain ⟨acked, hacked⟩ := D.onSend_eq st.snd
    have hmarks := D.marks_send hs h.marks hlt
    rw [hs.sendStep_eq hf P.sender hlt]
    rw [hacked] at hmarks ⊢
    refine h.sender_to (hs.sendOne hpc hlt acked) hmarks h.low (Nat.le_succ _) ?_ ?_ ?_ ?_
      (by simp [hpc]) (by simp [hpc])
    · intro p hp _
      obtain rfl := List.mem_singleton.mp hp
      exact ⟨_, Nat.lt_succ_self _, rfl⟩
    · intro i hi hge
      obtain rfl : i = st.snd.nextseqnum := by simp only at hi; omega
      exact List.mem_singleton_self _
    · intro p hp ht
      rcases List.mem_append.mp hp with hp | hp
      · exact absurd ht (h.no_end (by simp [hpc]) (by simp [hpc]) p hp)
      · obtain rfl := List.mem_singleton.mp hp
        cases ht
    · intro p hp ht
      obtain rfl := List.mem_singleton.mp hp
      cases ht
  · have hge := not_lt.mp hlt
    rw [sendStep_done P.sender window hge]
    exact h.sender_goto _ (hs.sendDone hpc hge) (by simp [hpc]) (by simp [hpc]) (by simp)

omit hf in
theorem Link.clockStep (h : Link D st) (hpc : st.snd.pc = .clock) (timeout : Bool) :
    Link D { st with
      snd := (P.sender.clockStep window st.snd timeout).1
      toRcv := st.toRcv ++ (P.sender.clockStep window st.snd timeout).2 } := by
  have hread : SenderInv file window { st.snd with pc := .read } := h.sender.goto (by simp)
  cases timeout with
  | false =>
    exact h.sender_goto _ hread (by simp [hpc]) (by simp [hpc]) (by simp)
  | true =>
    obtain ⟨d, hd⟩ := D.due_some h.marks
    have he := h.sender.clockStep_eq P.sender hd
    have hmem : ∀ p ∈ ((List.range' st.snd.base (st.snd.nextseqnum - st.snd.base)).filter d).map
        (dataPacket file), ∃ i < st.snd.nextseqnum, p = dataPacket file i := by
      intro p hp
      obtain ⟨i, hi, rfl⟩ := List.mem_map.mp hp
      obtain ⟨h1, h2⟩ := List.mem_range'_1.mp (List.mem_filter.mp hi).1
      exact ⟨i, by omega, rfl⟩
    rw [he]
    refine h.sender_to hread (D.marks_pc h.marks _) h.low le_rfl ?_ ?_ ?_ ?_
      (by simp) (by simp [hpc])
    · exact fun p hp _ => hmem p hp
    · intro i hi hge
      exact absurd hi (not_lt.mpr hge)
    · intro p hp ht
      rcases List.mem_append.mp hp with hp | hp
      · exact absurd ht (h.no_end (by simp [hpc]) (by simp [hpc]) p hp)
      · obtain ⟨i, -, rfl⟩ := hmem p hp
        cases ht
    · intro p hp ht
      obtain ⟨i, -, rfl⟩ := hmem p hp
      cases ht

theorem Link.senderMove (h : Link D st) (inp : Option RtpPacket) (timeout : Bool)
    (hinp : ∀ p ∈ inp, p ∈ st.toSnd) : Link D (st.senderMove P window inp timeout) := by
  have hs := h.sender
  unfold Session.senderMove SenderLoop.step
  cases hpc : st.snd.pc with
  | start =>
    have hnone := h.no_end (by simp [hpc]) (by simp [hpc])
    exact h.sender_bare .connecting (by decide) _ (hs.goto (by simp))
      (fun p hp ht => absurd ht (hnone p hp)) (fun ht => absurd ht (by decide))
      (fun _ => h.opening hpc) (by simp) (by simp [hpc])
  | connecting =>
    cases inp with
    | none => exact h.sender_refuse _
    | some p =>
      by_cases hp : p.type = rtpAck ∧ p.seqNum = st.snd.startSeq
      · simp only [if_pos hp]
        exact h.sender_goto _ (hs.goto (by simp)) (by simp [hpc]) (by simp [hpc]) (by simp)
      · simp only [if_neg hp]
        exact h.sender_refuse _
  | read =>
    have hmarks := D.marks_congr (readStep_base window st.snd) (readStep_nextseqnum window st.snd)
      (readStep_acked window st.snd) h.marks
    have hstart : (readStep window st.snd).pc ≠ .start := by
      rcases readStep_pc window st.snd with h' | h' <;> simp [h', hpc]
    exact h.sender_quiet (hs.readStep hf hpc) hmarks (by rw [readStep_base]; exact h.low)
      (readStep_nextseqnum window st.snd) (by simp [hpc]) (by simp [hpc]) hstart
  | test =>
    apply h.sender_goto _ (hs.testStep hf hpc) (by simp [hpc]) (by simp [hpc])
    split <;> simp
  | send => exact h.sendStep hf hpc
  | wait =>
    obtain ⟨h1, h2, -, h3, h4, h5⟩ := D.waitStep inp hs hpc h.marks h.low h.receiver
      (h.acks_of_mem hpc hinp)
    exact h.sender_quiet h1 h2 h3 h4 (by simp [hpc]) (by simp [hpc]) (by simp [h5])
  | clock => exact h.clockStep hpc timeout
  | left =>
    obtain ⟨-, -, htot⟩ := hs.done (Or.inl hpc)
    have hlen : st.snd.packs.length = packetCount file := hs.length.trans htot
    have hnone := h.no_end (by simp [hpc]) (by simp [hpc])
    have hcount := hf.count_lt
    exact h.sender_bare .ended (by decide) _ (hs.endStep hpc)
      (fun p hp ht => absurd ht (hnone p hp))
      (fun _ => Or.inr ⟨rfl, by rw [hlen, u32_eq (by omega)]⟩)
      (fun ht => absurd ht (by decide)) (by simp) (by simp [hpc])
  | refused | ended => simpa using h
  | undefined => exact absurd hpc hs.defined

end Sender

section Receiver

/-- A step of the receiver: what it has to promise for the link to hold again. -/
theorem Link.receiver_to (h : Link D st) {r : Receiver} {out : List RtpPacket}
    (hr : ReceiverInv file window' st.snd.nextseqnum r)
    (hgrows : Grows (buffSize window') st.rcv r)
    (hacks : st.snd.pc ≠ .refused → ∀ p ∈ out, p.type = rtpAck → D.ackOK r p.seqNum) :
    Link D { st with rcv := r, toSnd := st.toSnd ++ out } := by
  refine ⟨h.sender, hr, h.low.trans hgrows.first, D.marks_mono hgrows h.marks, h.data, h.sent,
    h.ends, h.starts, h.opening, ?_⟩
  intro hpc p hp ht
  rcases List.mem_append.mp hp with hp | hp
  · exact D.ackOK_mono hgrows (h.acks hpc p hp ht)
  · exact hacks hpc p hp ht

theorem Link.receiver_goto (h : Link D st) (pc : ReceiverPC) {out : List RtpPacket}
    (hacks : st.snd.pc ≠ .refused → ∀ p ∈ out, p.type = rtpAck →
      D.ackOK { st.rcv with pc := pc } p.seqNum) :
    Link D { st with rcv := { st.rcv with pc := pc }, toSnd := st.toSnd ++ out } :=
  h.receiver_to (r := { st.rcv with pc := pc })
    ⟨⟨h.receiver.ring.payload, h.receiver.ring.slot, h.receiver.ring.lower,
      h.receiver.ring.upper, h.receiver.ring.bytes⟩, h.receiver.head, h.receiver.below⟩
    (.of_pc _ _ _) hacks

variable (hf : Fits file window window')
include hf

theorem Fits.le_buffSize : window' ≤ buffSize window' := by
  have := hf.receiver_lt
  rw [buffSize_eq (by omega)]
  omega

theorem Fits.buffSize_eq : buffSize window' = 2 * window' := by
  have := hf.receiver_lt
  exact u32_eq (by omega)

theorem Link.next_lt (h : Link D st) : st.snd.nextseqnum < 2 ^ 31 := by
  have := hf.count_lt
  have := h.sender.next
  have := h.sender.tot
  omega

theorem Link.onData (h : Link D st) {p : RtpPacket} (hp : p ∈ st.toRcv)
    (ht : p.type = rtpData) :
    Link D { st with
      rcv := (P.receiver.onData window' st.rcv p).1
      toSnd := st.toSnd ++ (P.receiver.onData window' st.rcv p).2 } := by
  obtain ⟨i, hi, rfl⟩ := h.data p hp ht
  have hlt := h.next_lt hf
  have hseq : (dataPacket file i).seqNum = i := dataPacket_seqNum file (by omega)
  by_cases hwin : st.rcv.firstneedrecv ≤ (dataPacket file i).seqNum ∧
      (dataPacket file i).seqNum < st.rcv.firstneedrecv + window'
  · rw [ReceiverLoop.onData_inside _ hwin]
    obtain ⟨h1, h2, -, h4, h5⟩ := h.receiver.accept_spec hf.le_buffSize hwin.1 hwin.2
      (by rw [hseq]; rfl) (by rwa [hseq])
    refine h.receiver_to h1 ⟨h2, h4⟩ ?_
    intro _ q hq _
    obtain rfl := List.mem_singleton.mp hq
    have hfst := h1.below.trans_lt hlt
    exact D.ackOK_new (r := st.rcv.accept (buffSize window') (dataPacket file i))
      (by omega) (by rw [hseq]; omega) h5
  · rw [ReceiverLoop.onData_outside _ hwin]
    exact h.receiver_to h.receiver (.refl _ _) (by simp)

theorem Link.receiverMove (h : Link D st) (inp : Option RtpPacket) (silent : Bool)
    (hinp : ∀ p ∈ inp, p ∈ st.toRcv) : Link D (st.receiverMove P window' inp silent) := by
  unfold Session.receiverMove ReceiverLoop.step
  cases hpc : st.rcv.pc with
  | listen =>
    cases inp with
    | none => exact h.receiver_goto .closed (by simp)
    | some p =>
      by_cases hp : p.type = rtpStart
      · simp only [if_pos hp]
        apply h.receiver_goto .loop
        intro _ q hq _
        obtain rfl := List.mem_singleton.mp hq
        exact h.starts p (hinp p rfl) hp _
      · simp only [if_neg hp]
        exact h.receiver_goto .closed (by simp)
  | loop =>
    cases inp with
    | none =>
      cases silent with
      | false => simpa using h
      | true => exact h.receiver_goto .closed (by simp)
    | some p =>
      by_cases he : p.type = rtpEnd
      · simp only [if_pos he]
        apply h.receiver_goto .closed
        intro hr q hq _
        obtain rfl := List.mem_singleton.mp hq
        obtain ⟨hend, hseq⟩ := (h.ends p (hinp p rfl) he).resolve_left hr
        have hbase := h.sender.exit (Or.inr hend)
        have hcount := hf.count_lt
        rw [bare_seqNum, hseq, u32_eq (by omega)]
        exact D.ackOK_end (hbase ▸ h.low)
      · by_cases hd : p.type = rtpData
        · simp only [if_neg he, if_pos hd]
          exact h.onData hf (hinp p rfl) hd
        · simpa [he, hd] using h
  | closed => simpa using h

end Receiver

theorem link_move (hf : Fits file window window') (h : Link D st) (mv : Move)
    (hmv : st.Allowed mv) : Link D (st.move P window window' mv) := by
  cases mv with
  | sender inp timeout => exact h.senderMove hf inp timeout hmv
  | receiver inp silent => exact h.receiverMove hf inp silent hmv

theorem link_transfer (D : Discipline P file window window') (hf : Fits file window window')
    (h : (transfer P file window window').Reachable st) : Link D st := by
  refine h.invariant (P := Link D) ?_ fun _ mv hst hmv => link_move hf hst mv hmv
  rintro _ ⟨startSeq, rfl⟩
  exact link_afterStart startSeq

theorem link_connection (D : Discipline P file window window') (hf : Fits file window window')
    {startSeq : ℕ} (hseq : ∀ r, D.ackOK r (u32 (u32 startSeq)))
    (h : (connection P file startSeq window window').Reachable st) : Link D st := by
  refine h.invariant (P := Link D) ?_ fun _ mv hst hmv => link_move hf hst mv hmv
  rintro _ rfl
  exact link_beforeStart hseq

/-- The bytes written are the first packets of the file, all of them once the sender is done. -/
theorem Link.written (h : Link D st) : st.rcv.written = firstBytes file st.rcv.firstneedrecv :=
  h.receiver.ring.bytes

theorem Link.written_all (h : Link D st) (hleft : st.snd.hasLeft) : st.rcv.written = file := by
  obtain ⟨hbase, hnext, -⟩ := h.sender.done hleft
  have he : st.rcv.firstneedrecv = packetCount file :=
    le_antisymm (hnext ▸ h.receiver.below) (hbase ▸ h.low)
  rw [h.written, he, firstBytes_packetCount]

end NetworkingLabs.Rtp
