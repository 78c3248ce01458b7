import NetworkingLabs.RtpTimeoutRound

/-!
# When a timeout round repairs lost ACKs

Both receivers `continue` without an ACK on a packet below `firstneedrecv`. The
cumulative round moves `base` exactly when the receiver still needs one of the packets
sent again, the selective round exactly when it still needs the one at `base`.
-/
namespace NetworkingLabs.Rtp
open NumberedChunks TransitionSystem

variable {P : Protocol} {file : List UInt8} {window window' : ℕ} {st st' : Session}
  {acks : List RtpPacket} {D : Discipline P file window window'}

section Round

/-- The packets sent again on a timeout, by number. -/
def resent (s : Sender) (d : ℕ → Bool) : List ℕ :=
  (List.range' s.base (s.nextseqnum - s.base)).filter d

private theorem mem_resent {s : Sender} {d : ℕ → Bool} {i : ℕ} (hi : i ∈ resent s d) :
    s.base ≤ i ∧ i < s.nextseqnum := by
  obtain ⟨h1, h2⟩ := List.mem_range'_1.mp (List.mem_filter.mp hi).1
  omega

/-- Everything in the window is due: the packets below some number, then that one. -/
theorem resent_split {s : Sender} {i : ℕ} (hlo : s.base ≤ i) (hhi : i < s.nextseqnum) :
    resent s (fun _ => true) = List.range' s.base (i - s.base) ++
      i :: List.range' (i + 1) (s.nextseqnum - (i + 1)) := by
  have hcount : s.nextseqnum - s.base = (i - s.base) + (s.nextseqnum - (i + 1) + 1) := by omega
  rw [resent, List.filter_true, hcount, ← List.range'_append_1, List.range'_succ]
  simp only [Nat.add_sub_of_le hlo]

private theorem resent_head {s : Sender} {d : ℕ → Bool} (hlt : s.base < s.nextseqnum)
    (hd : d s.base = true) : ∃ is, resent s d = s.base :: is := by
  have hcount : s.nextseqnum - s.base = (s.nextseqnum - (s.base + 1)) + 1 := by omega
  rw [resent, hcount, List.range'_succ, List.filter_cons_of_pos hd]
  exact ⟨_, rfl⟩

theorem Link.atClock (hl : Link D st) (hpc : st.snd.pc.InLoop) :
    Link D { st with snd := st.snd.atClock } := by
  have hr : st.snd.pc ≠ .refused := by rintro he; simp [SenderPC.InLoop, he] at hpc
  have he : st.snd.pc ≠ .ended := by rintro he; simp [SenderPC.InLoop, he] at hpc
  simpa [Sender.atClock] using hl.sender_goto .clock (hl.sender.goto (by simp)) hr he (by simp)

/-- A timeout round is the delivery of the packets that are due, and of the answers; there
is always one. -/
theorem Link.timeoutRound (hf : Fits file window window') (hl : Link D st)
    (hpc : st.snd.pc.InLoop) (hloop : st.rcv.pc = .loop) {d : ℕ → Bool}
    (hd : ∀ j, st.snd.base ≤ j → j < st.snd.nextseqnum →
      P.sender.due window st.snd.atClock j = some (d j)) :
    ∃ t : Session, Link D t ∧ t.snd = { st.snd with pc := .read } ∧ t.rcv = st.rcv ∧
      Answered D t (t.deliverAll P window' ((resent st.snd d).map (dataPacket file))) ∧
      (∃ st', TimeoutRound P window window' st st') ∧
      ∀ st', TimeoutRound P window window' st st' →
        AckRound P window (t.deliverAll P window' ((resent st.snd d).map (dataPacket file))).2
          (t.deliverAll P window' ((resent st.snd d).map (dataPacket file))).1 st' := by
  have hl' := hl.atClock hpc
  have hclock : P.sender.clockStep window st.snd.atClock true =
      ({ st.snd with pc := .read }, (resent st.snd d).map (dataPacket file)) :=
    hl'.sender.clockStep_eq P.sender hd
  have hstep := hl'.clockStep rfl true
  simp only [hclock] at hstep
  have hps : ∀ p ∈ (resent st.snd d).map (dataPacket file),
      ∃ i < st.snd.nextseqnum, p = dataPacket file i := by
    intro p hp
    obtain ⟨i, hi, rfl⟩ := List.mem_map.mp hp
    exact ⟨i, (mem_resent hi).2, rfl⟩
  have hans := hstep.deliverAll hf hloop hps
  refine ⟨_, hstep, rfl, rfl, hans, ?_, fun st' h => ?_⟩
  · obtain ⟨st', h⟩ := exists_ackRound hf hans.link (by simp [SenderPC.InLoop, hans.snd])
      fun a ha => (hans.acks a ha).1
    refine ⟨st', ?_⟩
    simpa only [TimeoutRound, hclock] using h
  · simpa only [TimeoutRound, hclock] using h

theorem Link.step_inLoop (hl : Link D st) {inp : Option RtpPacket} {timeout : Bool}
    (hinp : ∀ p ∈ inp, p ∈ st.toSnd) (hin : st.snd.pc.InLoop ∨ st.snd.hasLeft)
    (hdef : (P.sender.step window st.snd inp timeout).1.pc ≠ .undefined) :
    (P.sender.step window st.snd inp timeout).1.pc.InLoop ∨
      (P.sender.step window st.snd inp timeout).1.hasLeft := by
  unfold SenderLoop.step at hdef ⊢
  rcases hin with (hpc | hpc | hpc | hpc | hpc) | (hpc | hpc) <;> simp only [hpc] at hdef ⊢
  · left
    rcases readStep_pc window st.snd with h | h <;> simp [SenderPC.InLoop, h, hpc]
  · split <;> simp [SenderPC.InLoop, Sender.hasLeft]
  · left
    obtain ⟨acked, hacked⟩ := D.onSend_eq st.snd
    revert hdef
    unfold SenderLoop.sendStep
    rw [hacked]
    split
    · split <;> simp [SenderPC.InLoop, hpc]
    · simp [SenderPC.InLoop]
  · left
    obtain ⟨-, -, -, -, -, h⟩ := D.waitStep inp hl.sender hpc hl.marks hl.low hl.receiver
      (hl.acks_of_mem hpc hinp)
    simp [SenderPC.InLoop, h]
  · left
    revert hdef
    unfold SenderLoop.clockStep
    split
    · split <;> simp [SenderPC.InLoop]
    · simp [SenderPC.InLoop]
  · simp [Sender.hasLeft]
  · simp [Sender.hasLeft, hpc]

theorem transfer_inLoop (D : Discipline P file window window') (hf : Fits file window window')
    (h : (transfer P file window window').Reachable st) :
    Link D st ∧ (st.snd.pc.InLoop ∨ st.snd.hasLeft) := by
  apply h.invariant (P := fun st => Link D st ∧ (st.snd.pc.InLoop ∨ st.snd.hasLeft))
  · rintro _ ⟨startSeq, rfl⟩
    exact ⟨link_afterStart startSeq, Or.inl (Or.inl rfl)⟩
  · rintro st mv ⟨hl, hin⟩ hmv
    have hl' := link_move hf hl mv hmv
    refine ⟨hl', ?_⟩
    cases mv with
    | receiver inp silent => exact hin
    | sender inp timeout => exact hl.step_inLoop hmv hin hl'.sender.defined

private theorem transfer_busy (D : Discipline P file window window') (hf : Fits file window window')
    (h : (transfer P file window window').Reachable st) (hb : st.snd.base < st.snd.nextseqnum) :
    Link D st ∧ st.snd.pc.InLoop := by
  obtain ⟨hl, hin⟩ := transfer_inLoop D hf h
  refine ⟨hl, hin.resolve_right fun hleft => ?_⟩
  obtain ⟨hbase, hnext, -⟩ := hl.sender.done hleft
  omega

end Round

section Cumulative

variable (hf : Fits file window window')
include hf

theorem AckRound.nil_base (h : AckRound P window [] st st') (hl : Link D st) :
    st'.snd.base = st.snd.base := by
  generalize hacks : ([] : List RtpPacket) = acks at h
  induction h with
  | nil | left => rfl
  | quiet h _ ih => rw [ih (h.link hf hl) hacks, (h.sameBase hf hl).base]
  | ack => cases hacks

/-- After the round `base` has reached the number of every cumulative ACK. -/
theorem AckRound.cumulative_le (h : AckRound cumulative window acks st st')
    (hl : Link (cumulativeDiscipline file window window') st) (hacks : ∀ a ∈ acks, a ∈ st.toSnd)
    {a : RtpPacket} (ha : a ∈ acks) (ht : a.type = rtpAck) : a.seqNum ≤ st'.snd.base := by
  induction h with
  | nil => cases ha
  | quiet h _ ih =>
    have hsame := h.sameBase hf hl
    exact ih (h.link hf hl) (by rwa [hsame.toSnd]) ha
  | left hleft =>
    rename_i acks st
    -- the sender has left with everything acknowledged
    have hack : a.seqNum ≤ st.rcv.firstneedrecv :=
      hl.acks (by rcases hleft with h | h <;> simp [h]) a (hacks a ha) ht
    obtain ⟨hbase, hnext, -⟩ := hl.sender.done hleft
    have hbelow := hl.receiver.below
    omega
  | ack hpc hround ih =>
    rename_i b acks st u
    have hb := hacks b List.mem_cons_self
    obtain ⟨hl', he, -⟩ := hl.senderMove_wait hf hpc hb
    have hrest : ∀ c ∈ acks, c ∈ st.toSnd := fun c hc => hacks c (List.mem_cons_of_mem _ hc)
    rcases List.mem_cons.mp ha with rfl | ha
    · have hin : ∀ p ∈ some a, p ∈ st.toSnd := by simpa using hb
      have hmove := (hl.sender.cumulativeWait (some a) fun p hp hpt =>
        (hl.acks_of_mem hpc hin p hp hpt).trans hl.receiver.below).2.1
      have hle : a.seqNum ≤ (st.senderMove cumulative window (some a) false).snd.base := by
        rw [he, cumulative, hmove]
        simp [ht]
      exact hle.trans (hround.link hf hl' hrest).2
    · exact ih hl' hrest ha

/-- The cumulative round moves `base` exactly when the receiver still needs a packet that
has been sent. -/
theorem cumulative_timeoutRound (h : (transfer cumulative file window window').Reachable st)
    (hb : st.snd.base < st.snd.nextseqnum) (hloop : st.rcv.pc = .loop) :
    (∃ st', TimeoutRound cumulative window window' st st') ∧
    ∀ st', TimeoutRound cumulative window window' st st' →
      (st.snd.base < st'.snd.base ↔ st.rcv.firstneedrecv < st.snd.nextseqnum) := by
  obtain ⟨hl, hin⟩ := transfer_busy (cumulativeDiscipline file window window') hf h hb
  obtain ⟨t, hlt, hsnd, hrcv, hans, hex, hround⟩ :=
    hl.timeoutRound hf hin hloop (d := fun _ => true) fun _ _ _ => rfl
  have hbase : t.snd.base = st.snd.base := by rw [hsnd]
  have hnext : t.snd.nextseqnum = st.snd.nextseqnum := by rw [hsnd]
  rw [← hrcv] at hloop
  refine ⟨hex, fun st' hst' => ?_⟩
  have hst := hround st' hst'
  constructor
  · intro hmoved
    by_contra hge
    -- every packet sent again is below the receiver's window
    have hdrop := hlt.deliverAll_below hf hloop (resent st.snd fun _ => true)
      (fun i hi => by have := (mem_resent hi).2; rw [hrcv]; omega) []
    rw [List.append_nil] at hdrop
    rw [hdrop] at hst
    have hkeep := hst.nil_base hf hlt
    rw [Session.deliverAll, hbase] at hkeep
    omega
  · intro hneed
    have hdrop := hlt.deliverAll_below hf hloop
      (List.range' st.snd.base (st.rcv.firstneedrecv - st.snd.base))
      (fun i hi => by have := List.mem_range'_1.mp hi; rw [hrcv]; omega)
    obtain ⟨r, hr, hlt', hle⟩ := hlt.deliverAll_needed hf hloop (i := st.rcv.firstneedrecv)
      (by rwa [hnext]) (by rw [hrcv]) ((List.range' (st.rcv.firstneedrecv + 1)
        (st.snd.nextseqnum - (st.rcv.firstneedrecv + 1))).map (dataPacket file))
    have hmem : RtpPacket.bare rtpAck r.firstneedrecv ∈
        (t.deliverAll cumulative window'
          ((resent st.snd fun _ => true).map (dataPacket file))).2 := by
      rw [resent_split hl.low hneed, List.map_append, List.map_cons, hdrop]
      exact hr
    have hack := hst.cumulative_le hf hans.link (fun a ha => (hans.acks a ha).1) hmem rfl
    have hsmall := hlt.next_lt hf
    have hlow := hl.low
    rw [bare_seqNum, u32_eq (by omega)] at hack
    omega

omit hf

/-- The first packet of a file of one byte is sent and its timer runs. -/
def sentRun : List Move := List.replicate 5 (.sender none false)

def lostAckRun : List Move := sentRun ++ [.receiver (some (dataPacket [7] 0)) false]

theorem cumulative_timeoutRound_oneByte : ∃ st', TimeoutRound cumulative 1 1
    ((transfer cumulative [7] 1 1).play (.afterStart [7] 5) sentRun) st' ∧ 0 < st'.snd.base := by
  have hf : Fits [7] 1 1 := by constructor <;> decide
  have h0 : (transfer cumulative [7] 1 1).Reachable (.afterStart [7] 5) := .init ⟨5, rfl⟩
  have hrun : (transfer cumulative [7] 1 1).Playable (.afterStart [7] 5) sentRun := by decide
  obtain ⟨⟨st', h⟩, hiff⟩ := cumulative_timeoutRound hf (h0.play hrun) (by decide) rfl
  exact ⟨st', h, (hiff st' h).mpr (by decide)⟩

/-- With its only ACK lost the packet is sent again and again, and dropped every time. -/
theorem cumulative_lostAck : ¬ ∀ (file : List UInt8) (window : ℕ) (st st' : Session), 1 ≤ window →
    (transfer cumulative file window window).Reachable st →
    st.snd.base < st.snd.nextseqnum → st.rcv.pc = .loop →
    TimeoutRound cumulative window window st st' → st.snd.base < st'.snd.base := by
  intro h
  have h0 : (transfer cumulative [7] 1 1).Reachable (.afterStart [7] 5) := .init ⟨5, rfl⟩
  have hrun : (transfer cumulative [7] 1 1).Playable (.afterStart [7] 5) lostAckRun := by decide
  have hround : TimeoutRound cumulative 1 1
      ((transfer cumulative [7] 1 1).play (.afterStart [7] 5) lostAckRun) _ := AckRound.nil _
  exact absurd (h [7] 1 _ _ le_rfl (h0.play hrun) (by decide) rfl hround) (by decide)

end Cumulative

section Selective

theorem selective_ack (r : Receiver) (p : RtpPacket) : selective.receiver r p = p.seqNum := rfl

variable (hf : Fits file window window')
include hf

/-- ACKs with other numbers than `base` leave `base` where it is. -/
theorem AckRound.selective_keep (h : AckRound selective window acks st st')
    (hl : Link (selectiveDiscipline file window window' hf) st) (hacks : ∀ a ∈ acks, a ∈ st.toSnd)
    (hb : st.snd.base < st.snd.nextseqnum) (hne : ∀ a ∈ acks, a.seqNum ≠ st.snd.base) :
    st'.snd.base = st.snd.base := by
  induction h with
  | nil | left => rfl
  | quiet h _ ih =>
    have hsame := h.sameBase hf hl
    have hnext := hsame.next
    rw [ih (h.link hf hl) (by rwa [hsame.toSnd]) (by rw [hsame.base]; omega)
      (by rwa [hsame.base]), hsame.base]
  | ack hpc hround ih =>
    rename_i a acks st u
    have ha := hacks a List.mem_cons_self
    obtain ⟨hl', he, -, hnext, -⟩ := hl.senderMove_wait hf hpc ha
    obtain ⟨packs, b, acked, hwait, -, -, -, hle, -, hpassed, -, hkeep⟩ :=
      hl.sender.selectiveWait hf hl.marks.1 hl.low hl.receiver (some a)
        (hl.acks_of_mem hpc (by simpa using ha))
    -- the slot of `base` was clear and the ACK has not set it
    have hclear : acked (st.snd.base % ackBuffSize window) = some false := by
      rw [hkeep _ le_rfl hb fun p hp _ => by
        obtain rfl := Option.mem_some_iff.mp hp
        exact (hne a List.mem_cons_self).symm]
      exact hl.marks.2 hb
    have hbase : b = st.snd.base := by
      by_contra hlt
      have hset := hpassed _ le_rfl (by omega)
      rw [hclear] at hset
      cases hset
    have hstay : (st.senderMove selective window (some a) false).snd.base = st.snd.base := by
      rw [he, selective, hwait, hbase]
    rw [ih hl' (fun c hc => hacks c (List.mem_cons_of_mem _ hc)) (by rw [hstay, hnext]; exact hb)
      (by rw [hstay]; exact fun c hc => hne c (List.mem_cons_of_mem _ hc)), hstay]

theorem AckRound.selective_lt (h : AckRound selective window acks st st')
    (hl : Link (selectiveDiscipline file window window' hf) st) (hacks : ∀ a ∈ acks, a ∈ st.toSnd)
    {a : RtpPacket} (ha : a ∈ acks) (ht : a.type = rtpAck) (hlo : a.seqNum ≤ st.snd.base)
    (hhi : a.seqNum < st.snd.nextseqnum) : a.seqNum < st'.snd.base := by
  induction h with
  | nil => cases ha
  | quiet h _ ih =>
    have hsame := h.sameBase hf hl
    exact ih (h.link hf hl) (by rwa [hsame.toSnd]) ha (by rwa [hsame.base])
      (hhi.trans_le hsame.next)
  | left hleft =>
    obtain ⟨hbase, hnext, -⟩ := hl.sender.done hleft
    omega
  | ack hpc hround ih =>
    rename_i c acks st u
    have hc := hacks c List.mem_cons_self
    obtain ⟨hl', he, hmono, hnext, -⟩ := hl.senderMove_wait hf hpc hc
    have hrest : ∀ d ∈ acks, d ∈ st.toSnd := fun d hd => hacks d (List.mem_cons_of_mem _ hd)
    rcases List.mem_cons.mp ha with rfl | ha
    · refine lt_of_lt_of_le ?_ (hround.link hf hl' hrest).2
      obtain ⟨packs, b, acked, hwait, -, -, hslid, hle, -, -, hset, -⟩ :=
        hl.sender.selectiveWait hf hl.marks.1 hl.low hl.receiver (some a)
          (hl.acks_of_mem hpc (by simpa using hc))
      rw [he, selective, hwait]
      show a.seqNum < b
      by_contra hge
      obtain rfl : b = a.seqNum := by omega
      -- the slot has just been set, so the loop cannot have stopped there
      have hclear : acked (a.seqNum % ackBuffSize window) = some false := hslid hhi
      rw [hset a rfl ht hle hhi] at hclear
      cases hclear
    · exact ih hl' hrest ha (hlo.trans hmono) (by rwa [hnext])

/-- The selective round moves `base` exactly when the receiver still needs the packet at
`base`. -/
theorem selective_timeoutRound (h : (transfer selective file window window').Reachable st)
    (hb : st.snd.base < st.snd.nextseqnum) (hloop : st.rcv.pc = .loop) :
    (∃ st', TimeoutRound selective window window' st st') ∧
    ∀ st', TimeoutRound selective window window' st st' →
      (st.snd.base < st'.snd.base ↔ st.rcv.firstneedrecv = st.snd.base) := by
  obtain ⟨hl, hin⟩ := transfer_busy (selectiveDiscipline file window window' hf) hf h hb
  obtain ⟨d, hd⟩ := (selectiveDiscipline file window window' hf).due_some
    ((selectiveDiscipline file window window' hf).marks_pc hl.marks .clock)
  obtain ⟨t, hlt, hsnd, hrcv, hans, hex, hround⟩ := hl.timeoutRound hf hin hloop hd
  have hbase : t.snd.base = st.snd.base := by rw [hsnd]
  have hnext : t.snd.nextseqnum = st.snd.nextseqnum := by rw [hsnd]
  have hsmall := hlt.next_lt hf
  rw [← hrcv] at hloop
  refine ⟨hex, fun st' hst' => ?_⟩
  have hst := hround st' hst'
  have hacks := fun a ha => (hans.acks a ha).1
  constructor
  · intro hmoved
    by_contra hne
    have hlow := hl.low
    -- every ACK of the round names a packet at or above the receiver's window
    have hkeep := hst.selective_keep hf hans.link hacks (by rw [hans.snd]; omega) (by
      intro a ha
      obtain ⟨-, r, i, rfl, hi, hi'⟩ := hans.acks a ha
      have hnum : (dataPacket file i).seqNum = i := dataPacket_seqNum file (by omega)
      rw [hans.snd, bare_seqNum, selective_ack, hnum, u32_eq (by omega)]
      rw [hrcv] at hi
      omega)
    rw [hans.snd] at hkeep
    omega
  · intro hneed
    have hdue : d st.snd.base = true := by
      have hclear : st.snd.acked (st.snd.base % ackBuffSize window) = some false := hl.marks.2 hb
      have hb' := hd st.snd.base le_rfl hb
      simpa [selective, sendMessageOpt, Sender.atClock, hclear] using hb'.symm
    obtain ⟨is, his⟩ := resent_head hb hdue
    obtain ⟨r, hr, -⟩ := hlt.deliverAll_needed hf hloop (i := st.snd.base)
      (by rwa [hnext]) (by rw [hrcv, hneed]) (is.map (dataPacket file))
    have hnum : (dataPacket file st.snd.base).seqNum = st.snd.base :=
      dataPacket_seqNum file (by omega)
    rw [his] at hans hst hacks
    have hlt' := hst.selective_lt hf hans.link hacks hr rfl
    rw [hans.snd, bare_seqNum, selective_ack, hnum, u32_eq (by omega)] at hlt'
    exact hlt' hbase.ge (by omega)

omit hf

theorem selective_timeoutRound_oneByte : ∃ st', TimeoutRound selective 1 1
    ((transfer selective [7] 1 1).play (.afterStart [7] 5) sentRun) st' ∧ 0 < st'.snd.base := by
  have hf : Fits [7] 1 1 := by constructor <;> decide
  have h0 : (transfer selective [7] 1 1).Reachable (.afterStart [7] 5) := .init ⟨5, rfl⟩
  have hrun : (transfer selective [7] 1 1).Playable (.afterStart [7] 5) sentRun := by decide
  obtain ⟨⟨st', h⟩, hiff⟩ := selective_timeoutRound hf (h0.play hrun) (by decide) rfl
  exact ⟨st', h, (hiff st' h).mpr (by decide)⟩

/-- The same run with the other pair of loops. -/
theorem selective_lostAck : ¬ ∀ (file : List UInt8) (window : ℕ) (st st' : Session), 1 ≤ window →
    (transfer selective file window window).Reachable st →
    st.snd.base < st.snd.nextseqnum → st.rcv.pc = .loop →
    TimeoutRound selective window window st st' → st.snd.base < st'.snd.base := by
  intro h
  have h0 : (transfer selective [7] 1 1).Reachable (.afterStart [7] 5) := .init ⟨5, rfl⟩
  have hrun : (transfer selective [7] 1 1).Playable (.afterStart [7] 5) lostAckRun := by decide
  have hround : TimeoutRound selective 1 1
      ((transfer selective [7] 1 1).play (.afterStart [7] 5) lostAckRun) _ := AckRound.nil _
  exact absurd (h [7] 1 _ _ le_rfl (h0.play hrun) (by decide) rfl hround) (by decide)

end Selective

end NetworkingLabs.Rtp
