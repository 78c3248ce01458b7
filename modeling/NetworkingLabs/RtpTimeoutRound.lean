import NetworkingLabs.RtpCumulative
import NetworkingLabs.RtpSelective
import Mathlib.Logic.Relation

/-!
# One loss-free timeout round

The sender sends its window again, all of it arrives in order, and every ACK that the
receiver answers with arrives in order. Both receivers drop a packet below their window
without an ACK, so the round helps only as long as the receiver still needs one.
-/
namespace NetworkingLabs.Rtp
open NumberedChunks TransitionSystem

/-- The sender runs on without receiving: it reads, sends new packets, finds the timer
not expired. -/
def QuietStep (P : Protocol) (window : ℕ) (st st' : Session) : Prop :=
  (st.snd.pc = .read ∨ st.snd.pc = .test ∨ st.snd.pc = .send ∨ st.snd.pc = .clock) ∧
    st' = st.senderMove P window none false

abbrev QuietRun (P : Protocol) (window : ℕ) : Session → Session → Prop :=
  Relation.ReflTransGen (QuietStep P window)

/-- The sender gets the given ACKs one by one, running on quietly in between; once it has
left its loop nobody reads the rest. -/
inductive AckRound (P : Protocol) (window : ℕ) : List RtpPacket → Session → Session → Prop
  | nil (st : Session) : AckRound P window [] st st
  | quiet {acks : List RtpPacket} {st t u : Session} (h : QuietStep P window st t)
      (ht : AckRound P window acks t u) : AckRound P window acks st u
  | ack {a : RtpPacket} {acks : List RtpPacket} {st u : Session} (h : st.snd.pc = .wait)
      (ht : AckRound P window acks (st.senderMove P window (some a) false) u) :
      AckRound P window (a :: acks) st u
  | left {acks : List RtpPacket} {st : Session} (h : st.snd.hasLeft) : AckRound P window acks st st

/-- The receiver gets the given packets one by one; with the ACKs it sends, in order. -/
def Session.deliverAll (P : Protocol) (window' : ℕ) (st : Session) :
    List RtpPacket → Session × List RtpPacket
  | [] => (st, [])
  | p :: ps =>
    let rest := (st.receiverMove P window' (some p) false).deliverAll P window' ps
    (rest.1, (P.receiver.step window' st.rcv (some p) false).2 ++ rest.2)

def Sender.atClock (s : Sender) : Sender := { s with pc := .clock }

/-- One loss-free timeout round: the timer is found expired, wherever in its loop the sender
is, and what it sends again and what that is answered with all arrive. -/
def TimeoutRound (P : Protocol) (window window' : ℕ) (st st' : Session) : Prop :=
  let out := P.sender.clockStep window st.snd.atClock true
  let sent : Session := { st with snd := out.1, toRcv := st.toRcv ++ out.2 }
  let got := sent.deliverAll P window' out.2
  AckRound P window got.2 got.1 st'

variable {P : Protocol} {file : List UInt8} {window window' : ℕ} {st st' t : Session}
  {acks ps : List RtpPacket} {D : Discipline P file window window'}

theorem QuietRun.ackRound (h : QuietRun P window st t) (ht : AckRound P window acks t st') :
    AckRound P window acks st st' := by
  induction h using Relation.ReflTransGen.head_induction_on with
  | refl => exact ht
  | head h _ ih => exact .quiet h ih

section Reachable

theorem AckRound.reachable (h : AckRound P window acks st st') (hacks : ∀ a ∈ acks, a ∈ st.toSnd)
    (hst : (transfer P file window window').Reachable st) :
    (transfer P file window window').Reachable st' := by
  induction h with
  | nil | left => exact hst
  | quiet hq _ ih =>
    obtain ⟨-, rfl⟩ := hq
    exact ih hacks (hst.step (.sender none false) (by simp [transfer, Session.Allowed]))
  | @ack a _ _ _ _ _ ih =>
    apply ih (fun b hb => hacks b (List.mem_cons_of_mem _ hb))
    apply hst.step (.sender (some a) false)
    simpa [transfer, Session.Allowed] using hacks a List.mem_cons_self

private theorem deliverAll_reachable (ps : List RtpPacket) (hps : ∀ p ∈ ps, p ∈ st.toRcv)
    (hst : (transfer P file window window').Reachable st) :
    (transfer P file window window').Reachable (st.deliverAll P window' ps).1 ∧
    (∀ a ∈ st.toSnd, a ∈ (st.deliverAll P window' ps).1.toSnd) ∧
    ∀ a ∈ (st.deliverAll P window' ps).2, a ∈ (st.deliverAll P window' ps).1.toSnd := by
  induction ps generalizing st with
  | nil => exact ⟨hst, fun _ h => h, by simp [Session.deliverAll]⟩
  | cons p ps ih =>
    have hp : (transfer P file window window').Reachable
        (st.receiverMove P window' (some p) false) :=
      hst.step (.receiver (some p) false)
        (by simpa [transfer, Session.Allowed] using hps p List.mem_cons_self)
    have hrest : ∀ q ∈ ps, q ∈ (st.receiverMove P window' (some p) false).toRcv := fun q hq =>
      hps q (List.mem_cons_of_mem _ hq)
    obtain ⟨h1, h2, h3⟩ := ih hrest hp
    refine ⟨h1, fun a ha => h2 a (List.mem_append_left _ ha), fun a ha => ?_⟩
    rcases List.mem_append.mp ha with ha | ha
    · exact h2 a (List.mem_append_right _ ha)
    · exact h3 a ha

theorem TimeoutRound.reachable (h : TimeoutRound P window window' st st') (hpc : st.snd.pc = .clock)
    (hst : (transfer P file window window').Reachable st) :
    (transfer P file window window').Reachable st' := by
  have he : st.snd.atClock = st.snd := by rw [Sender.atClock, ← hpc]
  have hsent := hst.step (.sender none true) (by simp [transfer, Session.Allowed])
  simp only [transfer, Session.move, Session.senderMove, SenderLoop.step, hpc] at hsent
  simp only [TimeoutRound, he] at h
  obtain ⟨h1, -, h3⟩ := deliverAll_reachable (P.sender.clockStep window st.snd true).2
    (fun p hp => List.mem_append_right _ hp) hsent
  exact h.reachable h3 h1

end Reachable

section Quiet

structure SameBase (st t : Session) : Prop where
  base : t.snd.base = st.snd.base
  next : st.snd.nextseqnum ≤ t.snd.nextseqnum
  rcv : t.rcv = st.rcv
  toSnd : t.toSnd = st.toSnd

theorem SameBase.trans {u : Session} (h : SameBase st t) (h' : SameBase t u) : SameBase st u :=
  ⟨h'.base.trans h.base, h.next.trans h'.next, h'.rcv.trans h.rcv, h'.toSnd.trans h.toSnd⟩

variable (hf : Fits file window window')
include hf

theorem QuietStep.sameBase (hl : Link D st) (h : QuietStep P window st t) : SameBase st t := by
  obtain ⟨hpc, rfl⟩ := h
  rcases hpc with hpc | hpc | hpc | hpc
  · refine ⟨?_, ?_, rfl, rfl⟩ <;> simp [Session.senderMove, SenderLoop.step, hpc]
  · refine ⟨?_, ?_, rfl, rfl⟩ <;> simp [Session.senderMove, SenderLoop.step, hpc]
  · obtain ⟨acked, hacked⟩ := D.onSend_eq st.snd
    rcases Nat.lt_or_ge st.snd.nextseqnum st.snd.totseq with hlt | hge
    · have hsend := hl.sender.sendStep_eq hf P.sender hlt
      refine ⟨?_, ?_, rfl, rfl⟩ <;>
        simp [Session.senderMove, SenderLoop.step, hpc, hsend, hacked]
    · have hsend := sendStep_done P.sender window hge
      refine ⟨?_, ?_, rfl, rfl⟩ <;> simp [Session.senderMove, SenderLoop.step, hpc, hsend]
  · refine ⟨?_, ?_, rfl, rfl⟩ <;>
      simp [Session.senderMove, SenderLoop.step, hpc, SenderLoop.clockStep]

theorem QuietStep.link (hl : Link D st) (h : QuietStep P window st t) : Link D t := by
  obtain ⟨-, rfl⟩ := h
  exact hl.senderMove hf none false (by simp)

theorem QuietRun.link (hl : Link D st) (h : QuietRun P window st t) :
    Link D t ∧ SameBase st t := by
  induction h with
  | refl => exact ⟨hl, rfl, le_rfl, rfl, rfl⟩
  | tail _ hstep ih => exact ⟨hstep.link hf ih.1, ih.2.trans (hstep.sameBase hf ih.1)⟩

omit hf in
private theorem senderMove_send (P : Protocol) (window : ℕ) (hpc : st.snd.pc = .send) :
    QuietStep P window st (st.senderMove P window none false) ∧
    (st.senderMove P window none false).snd = (P.sender.sendStep window st.snd).1 := by
  refine ⟨⟨by simp [hpc], rfl⟩, ?_⟩
  simp [Session.senderMove, SenderLoop.step, hpc]

omit hf in
private theorem senderMove_read (P : Protocol) (window : ℕ) (hpc : st.snd.pc = .read) :
    QuietStep P window st (st.senderMove P window none false) ∧
    (st.senderMove P window none false).snd = readStep window st.snd := by
  refine ⟨⟨by simp [hpc], rfl⟩, ?_⟩
  rw [Session.senderMove, SenderLoop.step]
  simp [hpc]

private theorem exists_quietRun_send (n : ℕ) (hl : Link D st) (hpc : st.snd.pc = .send)
    (hn : st.snd.totseq - st.snd.nextseqnum = n) :
    ∃ t, QuietRun P window st t ∧ t.snd.pc = .wait := by
  induction n generalizing st with
  | zero =>
    obtain ⟨hstep, hmove⟩ := senderMove_send P window hpc
    have hge : st.snd.totseq ≤ st.snd.nextseqnum := by omega
    refine ⟨_, .single hstep, ?_⟩
    rw [hmove, sendStep_done P.sender window hge]
  | succ n ih =>
    obtain ⟨hstep, hmove⟩ := senderMove_send P window hpc
    have hs := hl.sender
    have hlt : st.snd.nextseqnum < st.snd.totseq := by omega
    obtain ⟨acked, hacked⟩ := D.onSend_eq st.snd
    have he : (st.senderMove P window none false).snd =
        { st.snd with acked := acked, nextseqnum := st.snd.nextseqnum + 1 } := by
      rw [hmove, hs.sendStep_eq hf P.sender hlt, hacked]
    obtain ⟨t, ht, hwait⟩ := ih (hstep.link hf hl) (by rw [he]; exact hpc)
      (by rw [he]; simp only; omega)
    exact ⟨t, .head hstep ht, hwait⟩

private theorem exists_quietRun_test (hl : Link D st) (hpc : st.snd.pc = .test) :
    ∃ t, QuietRun P window st t ∧ (t.snd.pc = .wait ∨ t.snd.hasLeft) := by
  have hstep : QuietStep P window st (st.senderMove P window none false) :=
    ⟨by simp [hpc], rfl⟩
  have hmove : (st.senderMove P window none false).snd.pc =
      if st.snd.base = st.snd.totseq then .left else .send := by
    simp [Session.senderMove, SenderLoop.step, hpc]
  by_cases hbt : st.snd.base = st.snd.totseq
  · rw [if_pos hbt] at hmove
    exact ⟨_, .single hstep, Or.inr (Or.inl hmove)⟩
  · rw [if_neg hbt] at hmove
    obtain ⟨t, ht, hwait⟩ := exists_quietRun_send hf _ (hstep.link hf hl) hmove rfl
    exact ⟨t, .head hstep ht, Or.inl hwait⟩

private theorem exists_quietRun_read (n : ℕ) (hl : Link D st) (hpc : st.snd.pc = .read)
    (hn : st.snd.base + window - st.snd.totseq = n) :
    ∃ t, QuietRun P window st t ∧ (t.snd.pc = .wait ∨ t.snd.hasLeft) := by
  induction n generalizing st with
  | zero =>
    obtain ⟨hstep, hmove⟩ := senderMove_read P window hpc
    have hge : ¬ st.snd.totseq < st.snd.base + window := by omega
    obtain ⟨t, ht, hend⟩ := exists_quietRun_test hf (hstep.link hf hl)
      (by rw [hmove]; simp [readStep, hl.sender.u32_win hf, hge])
    exact ⟨t, .head hstep ht, hend⟩
  | succ n ih =>
    obtain ⟨hstep, hmove⟩ := senderMove_read P window hpc
    have hs := hl.sender
    have hlt : st.snd.totseq < st.snd.base + window := by omega
    have hcount := hf.count_lt
    have htot := hs.tot
    have hu : u32 (st.snd.totseq + 1) = st.snd.totseq + 1 := u32_eq (by omega)
    cases hbuf : st.snd.fp.take freadSize with
    | nil =>
      obtain ⟨t, ht, hend⟩ := exists_quietRun_test hf (hstep.link hf hl)
        (by rw [hmove]; simp [readStep, hs.u32_win hf, hlt, hbuf])
      exact ⟨t, .head hstep ht, hend⟩
    | cons b bs =>
      have hread : (readStep window st.snd).pc = .read ∧
          (readStep window st.snd).totseq = st.snd.totseq + 1 ∧
          (readStep window st.snd).base = st.snd.base := by
        simp [readStep, hs.u32_win hf, hlt, hbuf, hu, hpc]
      obtain ⟨t, ht, hend⟩ := ih (hstep.link hf hl) (by rw [hmove, hread.1])
        (by rw [hmove, hread.2.1, hread.2.2]; omega)
      exact ⟨t, .head hstep ht, hend⟩

def SenderPC.InLoop (pc : SenderPC) : Prop :=
  pc = .read ∨ pc = .test ∨ pc = .send ∨ pc = .wait ∨ pc = .clock

/-- Without receiving anything the sender gets to its `revRTP`, or out of its loop. -/
theorem exists_quietRun (hl : Link D st) (hpc : st.snd.pc.InLoop) :
    ∃ t, QuietRun P window st t ∧ (t.snd.pc = .wait ∨ t.snd.hasLeft) := by
  rcases hpc with hpc | hpc | hpc | hpc | hpc
  · exact exists_quietRun_read hf _ hl hpc rfl
  · exact exists_quietRun_test hf hl hpc
  · obtain ⟨t, ht, hwait⟩ := exists_quietRun_send hf _ hl hpc rfl
    exact ⟨t, ht, Or.inl hwait⟩
  · exact ⟨st, .refl, Or.inl hpc⟩
  · have hstep : QuietStep P window st (st.senderMove P window none false) :=
      ⟨by simp [hpc], rfl⟩
    obtain ⟨t, ht, hend⟩ := exists_quietRun_read hf _ (hstep.link hf hl)
      (by simp [Session.senderMove, SenderLoop.step, hpc, SenderLoop.clockStep]) rfl
    exact ⟨t, .head hstep ht, hend⟩

end Quiet

section Acks

variable (hf : Fits file window window')
include hf

theorem Link.senderMove_wait (hl : Link D st) (hpc : st.snd.pc = .wait) {a : RtpPacket}
    (ha : a ∈ st.toSnd) :
    Link D (st.senderMove P window (some a) false) ∧
    (st.senderMove P window (some a) false).snd = P.sender.waitStep window st.snd (some a) ∧
    st.snd.base ≤ (st.senderMove P window (some a) false).snd.base ∧
    (st.senderMove P window (some a) false).snd.nextseqnum = st.snd.nextseqnum ∧
    (st.senderMove P window (some a) false).snd.pc = .clock := by
  have he : (st.senderMove P window (some a) false).snd =
      P.sender.waitStep window st.snd (some a) := by
    rw [Session.senderMove, SenderLoop.step]
    simp [hpc]
  obtain ⟨-, -, h1, -, h2, h3⟩ := D.waitStep (some a) hl.sender hpc hl.marks hl.low
    hl.receiver (hl.acks_of_mem hpc (by simpa using ha))
  refine ⟨hl.senderMove hf _ _ (by simpa using ha), he, ?_, ?_, ?_⟩ <;> rw [he]
  · exact h1
  · exact h2
  · exact h3

theorem AckRound.link (h : AckRound P window acks st st') (hl : Link D st)
    (hacks : ∀ a ∈ acks, a ∈ st.toSnd) : Link D st' ∧ st.snd.base ≤ st'.snd.base := by
  induction h with
  | nil | left => exact ⟨hl, le_rfl⟩
  | quiet h _ ih =>
    have hsame := h.sameBase hf hl
    obtain ⟨h1, h2⟩ := ih (h.link hf hl) (by rwa [hsame.toSnd])
    exact ⟨h1, hsame.base ▸ h2⟩
  | ack hpc _ ih =>
    obtain ⟨h1, -, h2, -⟩ := hl.senderMove_wait hf hpc (hacks _ List.mem_cons_self)
    obtain ⟨h3, h4⟩ := ih h1 fun a ha => hacks a (List.mem_cons_of_mem _ ha)
    exact ⟨h3, h2.trans h4⟩

theorem exists_ackRound (hl : Link D st) (hpc : st.snd.pc.InLoop)
    (hacks : ∀ a ∈ acks, a ∈ st.toSnd) : ∃ st', AckRound P window acks st st' := by
  induction acks generalizing st with
  | nil => exact ⟨st, .nil st⟩
  | cons a acks ih =>
    obtain ⟨t, hrun, hend⟩ := exists_quietRun hf hl hpc
    obtain ⟨hlt, hsame⟩ := hrun.link hf hl
    rcases hend with hwait | hleft
    · have ha : ∀ b ∈ a :: acks, b ∈ t.toSnd := by rwa [hsame.toSnd]
      obtain ⟨h1, -, -, -, h2⟩ := hlt.senderMove_wait hf hwait (ha a List.mem_cons_self)
      obtain ⟨st', hround⟩ := ih h1 (by simp [SenderPC.InLoop, h2])
        fun b hb => ha b (List.mem_cons_of_mem _ hb)
      exact ⟨st', hrun.ackRound (.ack hwait hround)⟩
    · exact ⟨t, hrun.ackRound (.left hleft)⟩

end Acks

section Answers

structure Answered (D : Discipline P file window window') (st : Session)
    (out : Session × List RtpPacket) : Prop where
  link : Link D out.1
  snd : out.1.snd = st.snd
  first : st.rcv.firstneedrecv ≤ out.1.rcv.firstneedrecv
  loop : out.1.rcv.pc = .loop
  old : ∀ a ∈ st.toSnd, a ∈ out.1.toSnd
  acks : ∀ a ∈ out.2, a ∈ out.1.toSnd ∧ ∃ r i, a = .bare rtpAck (P.receiver r (dataPacket file i)) ∧
    st.rcv.firstneedrecv ≤ i ∧ i < st.snd.nextseqnum

variable (hf : Fits file window window')
include hf

/-- A DATA packet of the receiver's window: it is taken and answered with one ACK. -/
theorem Link.onData_window (hl : Link D st) {i : ℕ} (hi : i < st.snd.nextseqnum)
    (hlo : st.rcv.firstneedrecv ≤ i) (hhi : i < st.rcv.firstneedrecv + window') :
    ∃ r, P.receiver.onData window' st.rcv (dataPacket file i) =
        (r, [.bare rtpAck (P.receiver r (dataPacket file i))]) ∧
      st.rcv.firstneedrecv ≤ r.firstneedrecv ∧ r.firstneedrecv ≤ st.snd.nextseqnum ∧
      r.pc = st.rcv.pc ∧ (i = st.rcv.firstneedrecv → st.rcv.firstneedrecv < r.firstneedrecv) := by
  have hlt := hl.next_lt hf
  have hseq : (dataPacket file i).seqNum = i := dataPacket_seqNum file (by omega)
  have hpay : (dataPacket file i).payload = chunk freadSize file (dataPacket file i).seqNum := by
    rw [hseq, dataPacket_payload]
  obtain ⟨h1, h2, h3, -⟩ := hl.receiver.accept_spec hf.le_buffSize (p := dataPacket file i)
    (by rwa [hseq]) (by rwa [hseq]) hpay (by rwa [hseq])
  refine ⟨st.rcv.accept (buffSize window') (dataPacket file i), ?_, h2, h1.below, h3, ?_⟩
  · exact ReceiverLoop.onData_inside _ (by rw [hseq]; exact ⟨hlo, hhi⟩)
  · intro he
    exact hl.receiver.accept_progress hf.le_buffSize (by rwa [hseq]) hpay (by rwa [hseq])
      (by rwa [hseq])

/-- What a packet outside the window does: nothing. -/
theorem Link.onData_outside (hl : Link D st) {i : ℕ} (hi : i < st.snd.nextseqnum)
    (h : ¬ (st.rcv.firstneedrecv ≤ i ∧ i < st.rcv.firstneedrecv + window')) :
    P.receiver.onData window' st.rcv (dataPacket file i) = (st.rcv, []) := by
  have hlt := hl.next_lt hf
  have hseq : (dataPacket file i).seqNum = i := dataPacket_seqNum file (by omega)
  exact ReceiverLoop.onData_outside _ (by rwa [hseq])

theorem Link.deliverAll (hl : Link D st) (hpc : st.rcv.pc = .loop)
    (hps : ∀ p ∈ ps, ∃ i < st.snd.nextseqnum, p = dataPacket file i) :
    Answered D st (st.deliverAll P window' ps) := by
  induction ps generalizing st with
  | nil => exact ⟨hl, rfl, le_rfl, hpc, fun _ h => h, by simp [Session.deliverAll]⟩
  | cons p ps ih =>
    obtain ⟨i, hi, rfl⟩ := hps p List.mem_cons_self
    have hmem : ∀ p ∈ some (dataPacket file i), p ∈ st.toRcv := by
      simpa using hl.sent i hi
    have hl' := hl.receiverMove hf (some (dataPacket file i)) false hmem
    have hstep := P.receiver.step_data window' false hpc (dataPacket_type file i)
    have hrest : ∀ p ∈ ps, ∃ i < st.snd.nextseqnum, p = dataPacket file i := fun p hp =>
      hps p (List.mem_cons_of_mem _ hp)
    by_cases hin : st.rcv.firstneedrecv ≤ i ∧ i < st.rcv.firstneedrecv + window'
    · obtain ⟨r, he, h1, -, h2, -⟩ := hl.onData_window hf hi hin.1 hin.2
      have hmove : st.receiverMove P window' (some (dataPacket file i)) false =
          { st with
            rcv := r
            toSnd := st.toSnd ++ [.bare rtpAck (P.receiver r (dataPacket file i))] } := by
        simp [Session.receiverMove, hstep, he]
      rw [hmove] at hl'
      have hans := ih hl' (h2.trans hpc) hrest
      rw [Session.deliverAll, hmove, hstep, he]
      refine ⟨hans.link, hans.snd, h1.trans hans.first, hans.loop, ?_, ?_⟩
      · exact fun a ha => hans.old a (List.mem_append_left _ ha)
      · intro a ha
        rcases List.mem_append.mp ha with ha | ha
        · obtain rfl := List.mem_singleton.mp ha
          exact ⟨hans.old _ (by simp), r, i, rfl, hin.1, hi⟩
        · obtain ⟨h3, r', j, h4, h5, h6⟩ := hans.acks a ha
          exact ⟨h3, r', j, h4, h1.trans h5, h6⟩
    · have he := hl.onData_outside hf hi hin
      have hmove : st.receiverMove P window' (some (dataPacket file i)) false = st := by
        simp [Session.receiverMove, hstep, he]
      rw [Session.deliverAll, hmove, hstep, he]
      exact ih hl hpc hrest

/-- Packets below the window are dropped without an answer. -/
theorem Link.deliverAll_below (hl : Link D st) (hpc : st.rcv.pc = .loop) (is : List ℕ)
    (his : ∀ i ∈ is, i < st.rcv.firstneedrecv) (qs : List RtpPacket) :
    st.deliverAll P window' (is.map (dataPacket file) ++ qs) = st.deliverAll P window' qs := by
  induction is with
  | nil => rfl
  | cons i is ih =>
    have hi := his i List.mem_cons_self
    have he := hl.onData_outside hf (hi.trans_le hl.receiver.below) (i := i) (by omega)
    have hstep := P.receiver.step_data window' false hpc (dataPacket_type file i)
    have hmove : st.receiverMove P window' (some (dataPacket file i)) false = st := by
      simp [Session.receiverMove, hstep, he]
    rw [List.map_cons, List.cons_append, Session.deliverAll, hmove, hstep, he]
    exact ih fun j hj => his j (List.mem_cons_of_mem _ hj)

/-- The packet the receiver needs next is answered, by a receiver that needs a later one. -/
theorem Link.deliverAll_needed (hl : Link D st) (hpc : st.rcv.pc = .loop) {i : ℕ}
    (hi : i < st.snd.nextseqnum) (he : i = st.rcv.firstneedrecv) (qs : List RtpPacket) :
    ∃ r, .bare rtpAck (P.receiver r (dataPacket file i)) ∈
        (st.deliverAll P window' (dataPacket file i :: qs)).2 ∧
      i < r.firstneedrecv ∧ r.firstneedrecv ≤ st.snd.nextseqnum := by
  have hpos := hf.receiver_pos
  obtain ⟨r, hr, -, h1, -, h2⟩ := hl.onData_window hf hi he.ge (by omega)
  have hstep := P.receiver.step_data window' false hpc (dataPacket_type file i)
  refine ⟨r, ?_, he ▸ h2 he, h1⟩
  rw [Session.deliverAll, hstep, hr]
  exact List.mem_append_left _ (List.mem_singleton_self _)

end Answers
end NetworkingLabs.Rtp
