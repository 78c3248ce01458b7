import NetworkingLabs.RtpHandshake

/-!
# Which lost ACKs end a transfer

Neither receiver answers a packet below its window. When every ACK in flight gets lost, some
transfers can still come to their end, and the others cannot, whatever arrives from then on.
-/
namespace NetworkingLabs.Rtp
open NumberedChunks TransitionSystem

variable {P : Protocol} {file : List UInt8} {window window' : ℕ} {st st' t : Session}
  {D : Discipline P file window window'}

def Session.loseAcks (st : Session) : Session := { st with toSnd := [] }

section Live

/-- What the `fread` loop leaves behind, up to the next `revRTP`. -/
def Sender.Full (file : List UInt8) (window : ℕ) (s : Sender) : Prop :=
  s.pc = .test ∨ s.pc = .send ∨ s.pc = .wait →
    s.totseq = s.base + window ∨ s.totseq = packetCount file

structure Live (D : Discipline P file window window') (st : Session) : Prop where
  link : Link D st
  full : st.snd.Full file window
  inLoop : st.snd.pc.InLoop ∨ st.snd.hasLeft

theorem Full.step (hf : Fits file window window') (hl : Link D st)
    (h : st.snd.Full file window) (inp : Option RtpPacket) (timeout : Bool)
    (hinp : ∀ p ∈ inp, p ∈ st.toSnd) :
    (P.sender.step window st.snd inp timeout).1.Full file window := by
  have hs := hl.sender
  unfold SenderLoop.step
  cases hpc : st.snd.pc with
  | start | left => simp [Sender.Full]
  | connecting =>
    cases inp with
    | none => simp [Sender.Full]
    | some p =>
      by_cases hp : p.type = rtpAck ∧ p.seqNum = st.snd.startSeq
      · simp only [if_pos hp]
        simp [Sender.Full]
      · simp only [if_neg hp]
        simp [Sender.Full]
  | read =>
    rintro (ht | ht | ht)
    · exact (hs.readStep hf hpc).full ht
    · rcases readStep_pc window st.snd with hnext | hnext <;> simp [hnext, hpc] at ht
    · rcases readStep_pc window st.snd with hnext | hnext <;> simp [hnext, hpc] at ht
  | test => exact fun _ => hs.full hpc
  | send =>
    have hfull := h (Or.inr (Or.inl hpc))
    obtain ⟨acked, hacked⟩ := D.onSend_eq st.snd
    rcases Nat.lt_or_ge st.snd.nextseqnum st.snd.totseq with hlt | hge
    · show (P.sender.sendStep window st.snd).1.Full file window
      rw [hs.sendStep_eq hf P.sender hlt, hacked]
      exact fun _ => hfull
    · show (P.sender.sendStep window st.snd).1.Full file window
      rw [sendStep_done P.sender window hge]
      exact fun _ => hfull
  | wait =>
    obtain ⟨-, -, -, -, -, hnext⟩ := D.waitStep inp hs hpc hl.marks hl.low hl.receiver
      (hl.acks_of_mem hpc hinp)
    rintro (ht | ht | ht) <;> rw [hnext] at ht <;> cases ht
  | clock =>
    have hdef := (hl.clockStep hpc timeout).sender.defined
    show (P.sender.clockStep window st.snd timeout).1.Full file window
    rw [SenderLoop.clockStep] at hdef ⊢
    split
    · split <;> simp [Sender.Full]
    · simp [Sender.Full]
  | refused | ended | undefined => simp [Sender.Full, hpc]

theorem Live.step (hf : Fits file window window') (h : Live D st)
    (hstep : Session.Step P window window' st st') : Live D st' := by
  obtain ⟨mv, hmv, rfl⟩ := hstep
  have hl := link_move hf h.link mv hmv
  cases mv with
  | sender inp timeout =>
    exact ⟨hl, Full.step hf h.link h.full inp timeout hmv,
      h.link.step_inLoop hmv h.inLoop hl.sender.defined⟩
  | receiver inp silent => exact ⟨hl, h.full, h.inLoop⟩

theorem Live.run (hf : Fits file window window') (h : Live D st)
    (hrun : Session.Run P window window' st st') : Live D st' := by
  induction hrun with
  | refl => exact h
  | tail _ hstep ih => exact ih.step hf hstep

theorem live_transfer (D : Discipline P file window window') (hf : Fits file window window')
    (h : (transfer P file window window').Reachable st) : Live D st := by
  refine h.invariant (P := Live D) ?_ fun _ mv hst hmv => hst.step hf ⟨mv, hmv, rfl⟩
  rintro _ ⟨startSeq, rfl⟩
  refine ⟨link_afterStart startSeq, ?_, Or.inl (Or.inl rfl)⟩
  simp [Sender.Full, Session.afterStart, Sender.init]

theorem Live.loseAcks (h : Live D st) : Live D st.loseAcks where
  link := { h.link with acks := fun _ p hp => by simp [Session.loseAcks] at hp }
  full := h.full
  inLoop := h.inLoop

theorem Live.inLoop_of_lt (h : Live D st) (hlt : st.snd.base < packetCount file) :
    st.snd.pc.InLoop := by
  refine h.inLoop.resolve_right fun hleft => ?_
  have hexit := h.link.sender.exit hleft
  omega

/-- Every packet that the sender may send is sent when it waits. -/
theorem Live.next_of_wait (h : Live D st) (hpc : st.snd.pc = .wait) :
    st.snd.nextseqnum = min (packetCount file) (st.snd.base + window) := by
  have hfull := h.full (Or.inr (Or.inr hpc))
  have hsent := h.link.sender.sent hpc
  have hwin := h.link.sender.win
  have htot := h.link.sender.tot
  omega

theorem Live.first_le (h : Live D st) :
    st.rcv.firstneedrecv ≤ min (packetCount file) (st.snd.base + window) := by
  have hbelow := h.link.receiver.below
  have hnext := h.link.sender.next
  have hwin := h.link.sender.win
  have htot := h.link.sender.tot
  omega

end Live

section Finish

/-- The sender knows of all that the receiver has written, and the receiver goes on. -/
structure CaughtUp (D : Discipline P file window window') (st : Session) : Prop
    extends Live D st where
  loop : st.rcv.pc = .loop
  caught : st.rcv.firstneedrecv = st.snd.base

/-- If `base` can always be moved by a run, some run goes to the end. -/
theorem exists_finish (hf : Fits file window window')
    (hmove : ∀ st, CaughtUp D st → st.snd.base < packetCount file →
      ∃ st', Session.Run P window window' st st' ∧ CaughtUp D st' ∧ st.snd.base < st'.snd.base)
    (h : CaughtUp D st) : ∃ st', Session.Run P window window' st st' ∧ st'.snd.hasLeft := by
  obtain ⟨n, hn⟩ : ∃ n, packetCount file - st.snd.base = n := ⟨_, rfl⟩
  induction n using Nat.strongRecOn generalizing st with
  | ind n ih =>
    by_cases hlt : st.snd.base < packetCount file
    · obtain ⟨t, hrun, ht, hbase⟩ := hmove st h hlt
      obtain ⟨st', hrest, hleft⟩ := ih _ (by omega) ht rfl
      exact ⟨st', hrun.trans hrest, hleft⟩
    · rcases h.inLoop with hin | hleft
      · obtain ⟨t, hquiet, hend⟩ := exists_quietRun hf h.link hin
        obtain ⟨hlt', hsame⟩ := hquiet.link hf h.link
        refine ⟨t, hquiet.run, hend.resolve_left fun hwait => ?_⟩
        have hbusy := hlt'.sender.busy (Or.inr hwait)
        have htot := hlt'.sender.tot
        have hbase := hsame.base
        omega
      · exact ⟨st, .refl, hleft⟩

/-- The sender waits, with something to wait for. -/
theorem Live.exists_wait (hf : Fits file window window') (h : Live D st)
    (hlt : st.snd.base < packetCount file) :
    ∃ t, Session.Run P window window' st t ∧ Live D t ∧ SameBase st t ∧ t.snd.pc = .wait ∧
      t.snd.base < t.snd.nextseqnum := by
  obtain ⟨t, hquiet, -, hsame, hwait, hnext⟩ :=
    exists_quietRun_wait hf h.link (h.inLoop_of_lt hlt) hlt
  exact ⟨t, hquiet.run, h.run hf hquiet.run, hsame, hwait, hnext⟩

def Session.answered (P : Protocol) (file : List UInt8) (window' : ℕ) (st : Session) (i : ℕ) :
    Session :=
  let r := st.rcv.accept (buffSize window') (dataPacket file i)
  { st with rcv := r, toSnd := st.toSnd ++ [.bare rtpAck (P.receiver r (dataPacket file i))] }

theorem Live.answered (hf : Fits file window window') (h : Live D st) (hloop : st.rcv.pc = .loop)
    {i : ℕ} (hi : i < st.snd.nextseqnum) (hlo : st.rcv.firstneedrecv ≤ i)
    (hhi : i < st.rcv.firstneedrecv + window') :
    Session.Step P window window' st (st.answered P file window' i) := by
  have hstep := P.receiver.step_data window' false hloop (dataPacket_type file i)
  have hlt := h.link.next_lt hf
  have hseq : (dataPacket file i).seqNum = i := dataPacket_seqNum file (by omega)
  refine ⟨.receiver (some (dataPacket file i)) false, ?_, ?_⟩
  · simpa [Session.Allowed] using h.link.sent i hi
  · rw [Session.move, Session.receiverMove, hstep,
      ReceiverLoop.onData_inside _ (by rw [hseq]; exact ⟨hlo, hhi⟩)]
    rfl

theorem Live.answered_first (hf : Fits file window window') (h : Live D st)
    (hlt : st.rcv.firstneedrecv < st.snd.nextseqnum) : st.rcv.firstneedrecv <
      (st.answered P file window' st.rcv.firstneedrecv).rcv.firstneedrecv := by
  have hsmall := h.link.next_lt hf
  have hpos := hf.receiver_pos
  have hseq : (dataPacket file st.rcv.firstneedrecv).seqNum = st.rcv.firstneedrecv :=
    dataPacket_seqNum file (by omega)
  exact h.link.receiver.accept_progress hf.le_buffSize (by omega) (by rw [hseq]; rfl) (by omega)
    hseq

theorem Session.step_ack (window' : ℕ) (hpc : st.snd.pc = .wait) {a : RtpPacket}
    (ha : a ∈ st.toSnd) : Session.Step P window window' st
      { st with snd := P.sender.waitStep window st.snd (some a) } := by
  refine ⟨.sender (some a) false, by simpa [Session.Allowed] using ha, ?_⟩
  simp [Session.move, Session.senderMove, SenderLoop.step, hpc]

end Finish

section Moves

theorem Discipline.step_base (D : Discipline P file window window') {s : Sender}
    (hpc : s.pc ≠ .wait) (inp : Option RtpPacket) (timeout : Bool) :
    (P.sender.step window s inp timeout).1.base = s.base := by
  unfold SenderLoop.step
  cases hat : s.pc with
  | wait => exact absurd hat hpc
  | connecting =>
    cases inp with
    | none => rfl
    | some p =>
      by_cases hp : p.type = rtpAck ∧ p.seqNum = s.startSeq
      · simp only [if_pos hp]
      · simp only [if_neg hp]
  | read => exact readStep_base window s
  | send =>
    obtain ⟨acked, hacked⟩ := D.onSend_eq s
    simp only [SenderLoop.sendStep, hacked]
    split
    · split <;> rfl
    · rfl
  | clock =>
    simp only [SenderLoop.clockStep]
    split
    · split <;> rfl
    · rfl
  | start | test | left | refused | ended | undefined => rfl

/-- While the sender goes on, the receiver answers a DATA packet of its window or does nothing
but perhaps stop. -/
theorem Live.receiverMove_cases (hf : Fits file window window') (h : Live D st)
    (hlt : st.snd.base < packetCount file) (hstarted : st.rcv.pc ≠ .listen)
    (inp : Option RtpPacket) (silent : Bool) (hinp : ∀ p ∈ inp, p ∈ st.toRcv) :
    (∃ pc, pc ≠ .listen ∧ st.receiverMove P window' inp silent =
      { st with rcv := { st.rcv with pc := pc } }) ∨
    ∃ i, i < st.snd.nextseqnum ∧ st.rcv.firstneedrecv ≤ i ∧
      i < st.rcv.firstneedrecv + window' ∧ st.rcv.pc = .loop ∧
      st.receiverMove P window' inp silent = st.answered P file window' i := by
  have hin := h.inLoop_of_lt hlt
  have hr : st.snd.pc ≠ .refused := by
    intro he
    simp [SenderPC.InLoop, he] at hin
  have hended : st.snd.pc ≠ .ended := by
    intro he
    simp [SenderPC.InLoop, he] at hin
  have hidle : P.receiver.step window' st.rcv inp silent = (st.rcv, []) →
      ∃ pc, pc ≠ .listen ∧ st.receiverMove P window' inp silent =
        { st with rcv := { st.rcv with pc := pc } } := by
    intro he
    refine ⟨st.rcv.pc, hstarted, ?_⟩
    rw [Session.receiverMove, he, List.append_nil]
  cases hpc : st.rcv.pc with
  | listen => exact absurd hpc hstarted
  | closed => exact Or.inl (hidle (by simp [ReceiverLoop.step, hpc]))
  | loop =>
    cases inp with
    | none =>
      left
      cases silent with
      | false => exact hidle (by simp [ReceiverLoop.step, hpc])
      | true => exact ⟨.closed, by simp, by simp [Session.receiverMove, ReceiverLoop.step, hpc]⟩
    | some p =>
      have hp := hinp p rfl
      have hend := h.link.no_end hr hended p hp
      by_cases hdata : p.type = rtpData
      · obtain ⟨i, hi, rfl⟩ := h.link.data p hp hdata
        have hsmall := h.link.next_lt hf
        have hseq : (dataPacket file i).seqNum = i := dataPacket_seqNum file (by omega)
        have hstep := P.receiver.step_data window' silent hpc hdata
        by_cases hwin : st.rcv.firstneedrecv ≤ i ∧ i < st.rcv.firstneedrecv + window'
        · refine Or.inr ⟨i, hi, hwin.1, hwin.2, rfl, ?_⟩
          rw [Session.receiverMove, hstep, ReceiverLoop.onData_inside _ (by rwa [hseq])]
          rfl
        · exact Or.inl (hidle (by rw [hstep, ReceiverLoop.onData_outside _ (by rwa [hseq])]))
      · exact Or.inl (hidle (by simp [ReceiverLoop.step, hpc, hend, hdata]))

end Moves

section Cumulative

variable (hf : Fits file window window')
include hf

/-- A packet that the receiver still needs can be sent, and its ACK takes the sender to where the
receiver is. -/
theorem Live.cumulative_caughtUp (h : Live (cumulativeDiscipline file window window') st)
    (hloop : st.rcv.pc = .loop)
    (hneed : st.rcv.firstneedrecv < min (packetCount file) (st.snd.base + window)) :
    ∃ st', Session.Run cumulative window window' st st' ∧
      CaughtUp (cumulativeDiscipline file window window') st' ∧ st.snd.base < st'.snd.base := by
  have hlow := h.link.low
  obtain ⟨t, hrun, ht, hsame, hwait, -⟩ := h.exists_wait hf (by omega)
  have hbase := hsame.base
  rw [← hsame.rcv] at hloop hneed
  have hnext : t.rcv.firstneedrecv < t.snd.nextseqnum := by
    rw [ht.next_of_wait hwait, hbase]
    exact hneed
  have hpos := hf.receiver_pos
  have hdata := ht.answered hf hloop hnext le_rfl (by omega)
  have hmoved := ht.answered_first hf hnext
  have hpcr : (t.answered cumulative file window' t.rcv.firstneedrecv).rcv.pc = .loop :=
    (accept_pc _ _ _).trans hloop
  have hu := ht.step hf hdata
  have hsnd : (t.answered cumulative file window' t.rcv.firstneedrecv).snd = t.snd := rfl
  have hack : .bare rtpAck (t.answered cumulative file window'
      t.rcv.firstneedrecv).rcv.firstneedrecv ∈
        (t.answered cumulative file window' t.rcv.firstneedrecv).toSnd :=
    List.mem_append_right _ (List.mem_singleton_self _)
  generalize t.answered cumulative file window' t.rcv.firstneedrecv = u at *
  have hsmall := hu.link.next_lt hf
  have hbelow := hu.link.receiver.below
  have hnum : u32 u.rcv.firstneedrecv = u.rcv.firstneedrecv := u32_eq (by omega)
  have hwaitu : u.snd.pc = .wait := by rw [hsnd, hwait]
  have hsender : Session.Step cumulative window window' u _ := Session.step_ack window' hwaitu hack
  have htaken := (hu.link.sender.cumulativeWait (some (.bare rtpAck u.rcv.firstneedrecv)) (by
    intro p hp _
    obtain rfl := Option.mem_some_iff.mp hp
    rwa [bare_seqNum, hnum])).2.1
  have hlowu := hu.link.low
  refine ⟨_, (hrun.tail hdata).tail hsender, ⟨hu.step hf hsender, hpcr, ?_⟩, ?_⟩
  · show u.rcv.firstneedrecv = (sendMessage.waitStep window u.snd _).base
    rw [htaken]
    simp [hnum, hlowu]
  · show st.snd.base < (sendMessage.waitStep window u.snd _).base
    rw [htaken]
    simp only [bare_type, if_true, bare_seqNum, hnum]
    rw [← hsame.rcv] at hlow
    exact (hlow.trans_lt hmoved).trans_le (le_max_right _ _)

/-- The receiver has all that the sender may send, and no ACK is in flight. -/
structure CumulativeDead (file : List UInt8) (window window' b : ℕ) (st : Session) : Prop where
  live : Live (cumulativeDiscipline file window window') st
  base : st.snd.base = b
  unfinished : b < packetCount file
  first : min (packetCount file) (b + window) ≤ st.rcv.firstneedrecv
  started : st.rcv.pc ≠ .listen
  acks : ∀ p ∈ st.toSnd, p.type ≠ rtpAck

theorem CumulativeDead.step {b : ℕ} (h : CumulativeDead file window window' b st)
    (hstep : Session.Step cumulative window window' st st') :
    CumulativeDead file window window' b st' := by
  have hlive := h.live.step hf hstep
  obtain ⟨mv, hmv, rfl⟩ := hstep
  cases mv with
  | sender inp timeout =>
    refine ⟨hlive, ?_, h.unfinished, h.first, h.started, h.acks⟩
    show (sendMessage.step window st.snd inp timeout).1.base = b
    by_cases hpc : st.snd.pc = .wait
    · have htaken := (h.live.link.sender.cumulativeWait inp
        fun p hp ht => absurd ht (h.acks p (hmv p hp))).2.1
      simp only [SenderLoop.step, hpc]
      refine htaken.trans (Eq.trans ?_ h.base)
      cases inp with
      | none => rfl
      | some p => exact if_neg (h.acks p (hmv p rfl))
    · have hstay := (cumulativeDiscipline file window window').step_base hpc inp timeout
      exact hstay.trans h.base
  | receiver inp silent =>
    rcases h.live.receiverMove_cases hf (h.base ▸ h.unfinished) h.started inp silent hmv with
      ⟨pc, hpc, he⟩ | ⟨i, hi, hlo, -⟩
    · have he' : st.move cumulative window window' (.receiver inp silent) = _ := he
      rw [he'] at hlive ⊢
      exact ⟨hlive, h.base, h.unfinished, h.first, hpc, h.acks⟩
    · have hfirst := h.first
      have hnext := h.live.link.sender.next
      have htot := h.live.link.sender.tot
      have hwin := h.live.link.sender.win
      have hbase := h.base
      omega

/-- When all ACKs in flight get lost, the cumulative transfer can come to its end exactly if
nothing is left to be acknowledged or the receiver still needs a packet that the sender may
send. -/
theorem cumulative_completes_iff (h : (transfer cumulative file window window').Reachable st)
    (hloop : st.rcv.pc = .loop) :
    (∃ st', Session.Run cumulative window window' st.loseAcks st' ∧ st'.snd.hasLeft) ↔
      st.snd.base = packetCount file ∨
        st.rcv.firstneedrecv < min (packetCount file) (st.snd.base + window) := by
  have hlive := (live_transfer (cumulativeDiscipline file window window') hf h).loseAcks
  have hlow := hlive.link.low
  have hfirst := hlive.first_le
  have hbase : st.loseAcks.snd.base = st.snd.base := rfl
  have hrcv : st.loseAcks.rcv = st.rcv := rfl
  rw [hbase, hrcv] at hlow hfirst
  have hfinish : ∀ t, CaughtUp (cumulativeDiscipline file window window') t →
      ∃ st', Session.Run cumulative window window' t st' ∧ st'.snd.hasLeft := by
    intro t ht
    refine exists_finish hf (fun u hu hlt => hu.cumulative_caughtUp hf hu.loop ?_) ht
    rw [hu.caught]
    have hpos := hf.sender_pos
    omega
  constructor
  · rintro ⟨st', hrun, hleft⟩
    by_contra hdead
    obtain ⟨hunfinished, hneed⟩ := not_or.mp hdead
    have h0 : CumulativeDead file window window' st.snd.base st.loseAcks :=
      ⟨hlive, rfl, by omega, not_lt.mp hneed, by simp [hrcv, hloop], by simp [Session.loseAcks]⟩
    have hend : CumulativeDead file window window' st.snd.base st' := by
      clear hleft
      induction hrun with
      | refl => exact h0
      | tail _ hstep ih => exact ih.step hf hstep
    have hexit := hend.live.link.sender.exit hleft
    have hstill := hend.base
    omega
  · rintro (hdone | hneed)
    · exact hfinish st.loseAcks ⟨hlive, hloop, by rw [hbase, hrcv]; omega⟩
    · obtain ⟨t, hrun, ht, -⟩ := hlive.cumulative_caughtUp hf hloop hneed
      obtain ⟨st', hrest, hleft⟩ := hfinish t ht
      exact ⟨st', hrun.trans hrest, hleft⟩

omit hf

/-- The only packet of a file has arrived, and its ACK gets lost: the sender never leaves. -/
theorem cumulative_completes_iff_oneByte : ¬ ∃ st', Session.Run cumulative 1 1
    ((transfer cumulative [7] 1 1).play (.afterStart [7] 5) lostAckRun).loseAcks st' ∧
      st'.snd.hasLeft := by
  have hf : Fits [7] 1 1 := by constructor <;> decide
  have h0 : (transfer cumulative [7] 1 1).Reachable (.afterStart [7] 5) := .init ⟨5, rfl⟩
  have hrun : (transfer cumulative [7] 1 1).Playable (.afterStart [7] 5) lostAckRun := by decide
  rw [cumulative_completes_iff hf (h0.play hrun) rfl]
  decide

end Cumulative

section Selective

section Ring

variable {f : ℕ → List UInt8} {m next : ℕ} {r : Receiver} {p : RtpPacket}

theorem RingInv.accept_stays (h : RingInv f m window next r) (hm : window ≤ m)
    (hlo : r.firstneedrecv < p.seqNum) (hhi : p.seqNum < r.firstneedrecv + window) :
    (r.accept m p).firstneedrecv = r.firstneedrecv := by
  have hslot : p.seqNum % m ≠ r.firstneedrecv % m :=
    mod_ne_mod_of_ne r.firstneedrecv hlo.le (by omega) le_rfl (by omega) hlo.ne'
  have hhead : (r.store m p).packBuf ((r.store m p).firstneedrecv % m) = none := by
    rw [store_firstneedrecv]
    cases hq : r.packBuf (p.seqNum % m) with
    | some q => rw [store_of_some hq, h.head]
    | none =>
      rw [store_of_none hq]
      simp [Function.update_of_ne hslot.symm, h.head]
  rw [Receiver.accept, deliver_of_none m hhead, store_firstneedrecv]

/-- The window moves by at most its own length. -/
theorem RingInv.accept_le (h : RingInv f m window next r) (hm : window ≤ m)
    (hlo : r.firstneedrecv ≤ p.seqNum) (hhi : p.seqNum < r.firstneedrecv + window)
    (hpay : p.payload = f p.seqNum) (hnext : p.seqNum < next) :
    (r.accept m p).firstneedrecv ≤ r.firstneedrecv + window := by
  obtain ⟨-, -, hle, -⟩ := deliver_spec m (h.store_ring hlo hhi hpay hnext)
    (by have := h.below; simp; omega) (by simp; omega) (by simp; omega)
  exact hle.trans (min_le_left _ _)

end Ring

variable (hf : Fits file window window')
include hf

/-- The later packets of the receiver's window arrive, and the ACKs are on their way. -/
theorem Live.exists_acks (n : ℕ) (h : Live (selectiveDiscipline file window window' hf) st)
    (hloop : st.rcv.pc = .loop) :
    ∃ st', Session.Run selective window window' st st' ∧ st'.snd = st.snd ∧
      st'.rcv.pc = .loop ∧ st'.rcv.firstneedrecv = st.rcv.firstneedrecv ∧
      ∀ k, st.rcv.firstneedrecv < k → k ≤ st.rcv.firstneedrecv + n → k < st.snd.nextseqnum →
        k < st.rcv.firstneedrecv + window' → .bare rtpAck k ∈ st'.toSnd := by
  induction n with
  | zero =>
    refine ⟨st, .refl, rfl, hloop, rfl, ?_⟩
    intro k h1 h2
    omega
  | succ n ih =>
    obtain ⟨t, hrun, hsnd, hpc, hfirst, hacks⟩ := ih
    have ht := h.run hf hrun
    by_cases hin : st.rcv.firstneedrecv + (n + 1) < st.snd.nextseqnum ∧ n + 1 < window'
    · have hsmall := h.link.next_lt hf
      have hseq : (dataPacket file (st.rcv.firstneedrecv + (n + 1))).seqNum =
          st.rcv.firstneedrecv + (n + 1) := dataPacket_seqNum file (by omega)
      have hnum : u32 (st.rcv.firstneedrecv + (n + 1)) = st.rcv.firstneedrecv + (n + 1) :=
        u32_eq (by omega)
      refine ⟨_, hrun.tail (ht.answered hf hpc (i := st.rcv.firstneedrecv + (n + 1))
        (by rw [hsnd]; exact hin.1) (by omega) (by omega)), hsnd, ?_, ?_, ?_⟩
      · exact (accept_pc _ _ _).trans hpc
      · refine Eq.trans ?_ hfirst
        exact ht.link.receiver.accept_stays hf.le_buffSize (by omega) (by omega)
      · intro k h1 h2 h3 h4
        rcases Nat.lt_or_ge (st.rcv.firstneedrecv + n) k with hk | hk
        · obtain rfl : k = st.rcv.firstneedrecv + (n + 1) := by omega
          refine List.mem_append_right _ (List.mem_singleton.mpr ?_)
          rw [selective_ack, hseq]
        · exact List.mem_append_left _ (hacks k h1 hk h3 h4)
    · refine ⟨t, hrun, hsnd, hpc, hfirst, fun k h1 h2 h3 h4 => hacks k h1 ?_ h3 h4⟩
      omega

/-- With all the ACKs it misses in flight the sender gets to where the receiver is. -/
theorem Live.exists_caughtUp (h : Live (selectiveDiscipline file window window' hf) st)
    (hloop : st.rcv.pc = .loop)
    (hacks : ∀ k, st.snd.base ≤ k → k < st.rcv.firstneedrecv → .bare rtpAck k ∈ st.toSnd) :
    ∃ st', Session.Run selective window window' st st' ∧
      CaughtUp (selectiveDiscipline file window window' hf) st' ∧ st'.rcv = st.rcv := by
  obtain ⟨n, hn⟩ : ∃ n, st.rcv.firstneedrecv - st.snd.base = n := ⟨_, rfl⟩
  have hlow := h.link.low
  induction n using Nat.strongRecOn generalizing st with
  | ind n ih =>
    by_cases hlt : st.snd.base < st.rcv.firstneedrecv
    · have hfirst := h.first_le
      obtain ⟨t, hrun, ht, hsame, hwait, hnext⟩ := h.exists_wait hf (by omega)
      rw [← hsame.rcv, ← hsame.base, ← hsame.toSnd] at *
      have hsender : Session.Step selective window window' t _ :=
        Session.step_ack window' hwait (hacks t.snd.base le_rfl hlt)
      have hu := ht.step hf hsender
      have hmoved := ht.link.sender.selectiveWait_base hf ht.link.marks.1 hnext
      obtain ⟨st', hrest, hcaught, hrcv⟩ := ih _ (by
        show t.rcv.firstneedrecv - (sendMessageOpt.waitStep window t.snd _).base < n
        omega) hu hloop (fun k hk => hacks k (hmoved.le.trans hk)) rfl hu.link.low
      exact ⟨st', (hrun.tail hsender).trans hrest, hcaught, hrcv⟩
    · exact ⟨st, .refl, ⟨h, hloop, by omega⟩, rfl⟩

/-- First the later packets of the window are acknowledged, then the one that is needed. -/
theorem CaughtUp.selective_move
    (h : CaughtUp (selectiveDiscipline file window window' hf) st)
    (hlt : st.snd.base < packetCount file) :
    ∃ st', Session.Run selective window window' st st' ∧
      CaughtUp (selectiveDiscipline file window window' hf) st' ∧
      st.snd.base < st'.snd.base := by
  obtain ⟨t, hrun, ht, hsame, -, hnext⟩ := h.toLive.exists_wait hf hlt
  have hcaught : t.rcv.firstneedrecv = t.snd.base := by rw [hsame.rcv, hsame.base, h.caught]
  obtain ⟨u, hrun', hsnd, hpc, hfirst, hacks⟩ :=
    ht.exists_acks hf window' (by rw [hsame.rcv]; exact h.loop)
  have hu := ht.run hf hrun'
  have hneeded : u.rcv.firstneedrecv < u.snd.nextseqnum := by
    rw [hfirst, hsnd, hcaught]
    exact hnext
  have hpos := hf.receiver_pos
  have hdata := hu.answered hf hpc hneeded le_rfl (by omega)
  have hv := hu.step hf hdata
  have hmoved := hu.answered_first hf hneeded
  have hsmall := hu.link.next_lt hf
  have hseq : (dataPacket file u.rcv.firstneedrecv).seqNum = u.rcv.firstneedrecv :=
    dataPacket_seqNum file (by omega)
  have hend : (u.answered selective file window' u.rcv.firstneedrecv).rcv.firstneedrecv ≤
      u.rcv.firstneedrecv + window' :=
    hu.link.receiver.accept_le hf.le_buffSize hseq.ge (by omega) (by rw [hseq]; rfl) (by omega)
  have hbelow := hv.link.receiver.below
  have hall : ∀ k, u.rcv.firstneedrecv ≤ k →
      k < (u.answered selective file window' u.rcv.firstneedrecv).rcv.firstneedrecv →
      .bare rtpAck k ∈ (u.answered selective file window' u.rcv.firstneedrecv).toSnd := by
    intro k hk hk'
    rcases hk.eq_or_lt with rfl | hk
    · refine List.mem_append_right _ (List.mem_singleton.mpr ?_)
      rw [selective_ack, hseq]
    · refine List.mem_append_left _ (hacks k (by omega) (by omega) ?_ (by omega))
      rw [← hsnd]
      exact hk'.trans_le hbelow
  obtain ⟨st', hrest, hcaught', hrcv⟩ := hv.exists_caughtUp hf ((accept_pc _ _ _).trans hpc)
    fun k hk hk' => hall k (by rw [hfirst, hcaught, ← hsnd]; exact hk) hk'
  refine ⟨st', ((hrun.trans hrun').tail hdata).trans hrest, hcaught', ?_⟩
  rw [← hcaught'.caught, hrcv, ← hsame.base, ← hcaught, ← hfirst]
  exact hmoved

/-- The receiver is past the packet at `base`, and no ACK of this one is in flight. -/
structure SelectiveDead (b : ℕ) (st : Session) : Prop where
  live : Live (selectiveDiscipline file window window' hf) st
  base : st.snd.base = b
  ahead : b < st.rcv.firstneedrecv
  started : st.rcv.pc ≠ .listen
  acks : ∀ p ∈ st.toSnd, p.type = rtpAck → p.seqNum ≠ b

theorem Live.selectiveWait_stays (h : Live (selectiveDiscipline file window window' hf) st)
    (hpc : st.snd.pc = .wait) (hlt : st.snd.base < st.snd.nextseqnum) (inp : Option RtpPacket)
    (hinp : ∀ p ∈ inp, p ∈ st.toSnd)
    (hne : ∀ p ∈ inp, p.type = rtpAck → p.seqNum ≠ st.snd.base) :
    (sendMessageOpt.waitStep window st.snd inp).base = st.snd.base := by
  obtain ⟨packs, b, acked, hwait, -, -, -, hle, -, hpassed, -, hkeep⟩ :=
    h.link.sender.selectiveWait hf h.link.marks.1 h.link.low h.link.receiver inp
      (h.link.acks_of_mem hpc hinp)
  have hclear : acked (st.snd.base % ackBuffSize window) = some false := by
    rw [hkeep _ le_rfl hlt fun p hp ht => (hne p hp ht).symm]
    exact h.link.marks.2 hlt
  rw [hwait]
  by_contra hmoved
  have hset := hpassed _ le_rfl (lt_of_le_of_ne hle (Ne.symm hmoved))
  rw [hclear] at hset
  cases hset

theorem SelectiveDead.step {b : ℕ} (h : SelectiveDead hf b st)
    (hstep : Session.Step selective window window' st st') : SelectiveDead hf b st' := by
  have hlive := h.live.step hf hstep
  have hbelow := h.live.link.receiver.below
  have hnext := h.live.link.sender.next
  have htot := h.live.link.sender.tot
  have hahead := h.ahead
  obtain ⟨mv, hmv, rfl⟩ := hstep
  cases mv with
  | sender inp timeout =>
    refine ⟨hlive, ?_, h.ahead, h.started, h.acks⟩
    show (sendMessageOpt.step window st.snd inp timeout).1.base = b
    by_cases hpc : st.snd.pc = .wait
    · simp only [SenderLoop.step, hpc]
      rw [h.live.selectiveWait_stays hf hpc (by rw [h.base]; omega) inp hmv
        fun p hp => h.base ▸ h.acks p (hmv p hp), h.base]
    · have hstay := (selectiveDiscipline file window window' hf).step_base hpc inp timeout
      exact hstay.trans h.base
  | receiver inp silent =>
    rcases h.live.receiverMove_cases hf (by rw [h.base]; omega) h.started inp silent hmv with
      ⟨pc, hpc, he⟩ | ⟨i, hi, hlo, hhi, hloop, he⟩
    · have he' : st.move selective window window' (.receiver inp silent) = _ := he
      rw [he'] at hlive ⊢
      exact ⟨hlive, h.base, h.ahead, hpc, h.acks⟩
    · have he' : st.move selective window window' (.receiver inp silent) = _ := he
      rw [he'] at hlive ⊢
      have hsmall := h.live.link.next_lt hf
      have hseq : (dataPacket file i).seqNum = i := dataPacket_seqNum file (by omega)
      obtain ⟨-, hmono, -⟩ := h.live.link.receiver.accept_spec hf.le_buffSize
        (p := dataPacket file i) (by rwa [hseq]) (by rwa [hseq]) (by rw [hseq]; rfl) (by rwa [hseq])
      refine ⟨hlive, h.base, hahead.trans_le hmono, ?_, ?_⟩
      · have hpc : (st.answered selective file window' i).rcv.pc = .loop :=
          (accept_pc _ _ _).trans hloop
        simp [hpc]
      · intro p hp ht
        rcases List.mem_append.mp hp with hp | hp
        · exact h.acks p hp ht
        · obtain rfl := List.mem_singleton.mp hp
          rw [bare_seqNum, selective_ack, hseq, u32_eq (by omega)]
          omega

/-- When all ACKs in flight get lost, the selective transfer can come to its end exactly if the
receiver still needs the packet that the sender has at `base`. -/
theorem selective_completes_iff (h : (transfer selective file window window').Reachable st)
    (hloop : st.rcv.pc = .loop) :
    (∃ st', Session.Run selective window window' st.loseAcks st' ∧ st'.snd.hasLeft) ↔
      st.rcv.firstneedrecv = st.snd.base := by
  have hlive := (live_transfer (selectiveDiscipline file window window' hf) hf h).loseAcks
  have hlow : st.snd.base ≤ st.rcv.firstneedrecv := hlive.link.low
  constructor
  · rintro ⟨st', hrun, hleft⟩
    by_contra hne
    have h0 : SelectiveDead hf st.snd.base st.loseAcks := by
      refine ⟨hlive, rfl, lt_of_le_of_ne hlow (Ne.symm hne), ?_, by simp [Session.loseAcks]⟩
      show st.rcv.pc ≠ .listen
      simp [hloop]
    have hend : SelectiveDead hf st.snd.base st' := by
      clear hleft
      induction hrun with
      | refl => exact h0
      | tail _ hstep ih => exact ih.step hf hstep
    have hexit := hend.live.link.sender.exit hleft
    have hbelow := hend.live.link.receiver.below
    have hnext := hend.live.link.sender.next
    have htot := hend.live.link.sender.tot
    have hahead := hend.ahead
    have hbase := hend.base
    omega
  · intro hcaught
    exact exists_finish hf (fun t ht hlt => ht.selective_move hf hlt) ⟨hlive, hloop, hcaught⟩

omit hf

/-- The same run with the other pair of loops. -/
theorem selective_completes_iff_oneByte : ¬ ∃ st', Session.Run selective 1 1
    ((transfer selective [7] 1 1).play (.afterStart [7] 5) lostAckRun).loseAcks st' ∧
      st'.snd.hasLeft := by
  have hf : Fits [7] 1 1 := by constructor <;> decide
  have h0 : (transfer selective [7] 1 1).Reachable (.afterStart [7] 5) := .init ⟨5, rfl⟩
  have hrun : (transfer selective [7] 1 1).Playable (.afterStart [7] 5) lostAckRun := by decide
  rw [selective_completes_iff hf (h0.play hrun) rfl]
  decide

end Selective

end NetworkingLabs.Rtp
