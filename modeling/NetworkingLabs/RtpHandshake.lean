import NetworkingLabs.RtpLostAck

/-!
# The ACK of the START during the transfer

START and DATA are answered with packets of one type, and their numbers come from one
range, so a late copy of the ACK that answers START is read as one for DATA.
-/
namespace NetworkingLabs.Rtp
open NumberedChunks TransitionSystem

variable {P : Protocol} {file : List UInt8} {startSeq window window' : ℕ} {st st' u : Session}
  {D : Discipline P file window window'}

/-- What `base` and the end of the loop stand for: the receiver has everything below `base`,
and everything there is once the sender has left. -/
def Session.Faithful (file : List UInt8) (window' : ℕ) (st : Session) : Prop :=
  (∀ k < st.snd.base, st.rcv.Accepted (buffSize window') k) ∧
  (st.snd.hasLeft → ∀ k < packetCount file, st.rcv.Accepted (buffSize window') k)

theorem Link.faithful (hl : Link D st) : st.Faithful file window' := by
  refine ⟨fun k hk => Or.inl (hk.trans_le hl.low), fun hleft k hk => Or.inl ?_⟩
  have hexit := hl.sender.exit hleft
  exact (hexit ▸ hk).trans_le hl.low

section Runs

def Session.Step (P : Protocol) (window window' : ℕ) (st st' : Session) : Prop :=
  ∃ mv, st.Allowed mv ∧ st' = st.move P window window' mv

abbrev Session.Run (P : Protocol) (window window' : ℕ) : Session → Session → Prop :=
  Relation.ReflTransGen (Session.Step P window window')

theorem Session.Run.reachable (h : Session.Run P window window' st st')
    (hst : (connection P file startSeq window window').Reachable st) :
    (connection P file startSeq window window').Reachable st' := by
  induction h with
  | refl => exact hst
  | tail _ hstep ih =>
    obtain ⟨mv, hmv, rfl⟩ := hstep
    exact ih.step mv hmv

theorem QuietRun.run (h : QuietRun P window st st') : Session.Run P window window' st st' := by
  induction h with
  | refl => exact .refl
  | tail _ hstep ih =>
    obtain ⟨-, rfl⟩ := hstep
    exact ih.tail ⟨.sender none false, by simp [Session.Allowed], rfl⟩

/-- The same two parties over a network that carries more. -/
structure Extends (st u : Session) : Prop where
  snd : u.snd = st.snd
  rcv : u.rcv = st.rcv
  toRcv : st.toRcv ⊆ u.toRcv
  toSnd : st.toSnd ⊆ u.toSnd

theorem Extends.step (he : Extends st u) (h : Session.Step P window window' st st') :
    ∃ u', Session.Step P window window' u u' ∧ Extends st' u' ∧ u.toSnd ⊆ u'.toSnd := by
  obtain ⟨mv, hmv, rfl⟩ := h
  refine ⟨u.move P window window' mv, ⟨mv, ?_, rfl⟩, ?_, ?_⟩
  · cases mv with
    | sender inp timeout => exact fun p hp => he.toSnd (hmv p hp)
    | receiver inp silent => exact fun p hp => he.toRcv (hmv p hp)
  · cases mv with
    | sender inp timeout =>
      refine ⟨?_, he.rcv, ?_, he.toSnd⟩ <;> simp only [Session.move, Session.senderMove, he.snd]
      exact List.append_subset.mpr ⟨List.subset_append_of_subset_left _ he.toRcv,
        List.subset_append_right _ _⟩
    | receiver inp silent =>
      refine ⟨he.snd, ?_, he.toRcv, ?_⟩ <;> simp only [Session.move, Session.receiverMove, he.rcv]
      exact List.append_subset.mpr ⟨List.subset_append_of_subset_left _ he.toSnd,
        List.subset_append_right _ _⟩
  · cases mv with
    | sender inp timeout => exact fun p hp => hp
    | receiver inp silent => exact fun p hp => List.mem_append_left _ hp

/-- A run stays possible when more is in flight, and nothing in flight is forgotten. -/
theorem Extends.run (he : Extends st u) (h : Session.Run P window window' st st') :
    ∃ u', Session.Run P window window' u u' ∧ Extends st' u' ∧ u.toSnd ⊆ u'.toSnd := by
  induction h with
  | refl => exact ⟨u, .refl, he, fun p hp => hp⟩
  | tail _ hstep ih =>
    obtain ⟨t, ht, het, hsub⟩ := ih
    obtain ⟨u', hu', heu, hsub'⟩ := het.step hstep
    exact ⟨u', ht.tail hu', heu, fun p hp => hsub' (hsub hp)⟩

private theorem exists_afterStart (P : Protocol) (file : List UInt8) (window window' : ℕ)
    (hseq : startSeq < 2 ^ 31) :
    ∃ u, (connection P file startSeq window window').Reachable u ∧
      Extends (.afterStart file startSeq) u ∧ .bare rtpAck startSeq ∈ u.toSnd := by
  have hu : u32 startSeq = startSeq := u32_eq (by omega)
  let S := connection P file startSeq window window'
  let moves : List Move := [.sender none false, .receiver (some (.bare rtpStart startSeq)) false,
    .sender (some (.bare rtpAck startSeq)) false]
  have hrun : S.play (.beforeStart file startSeq) moves =
      ⟨.init .read startSeq file, .init .loop, [.bare rtpStart startSeq],
        [.bare rtpAck startSeq]⟩ := by
    simp [S, moves, play, connection, Session.move, Session.senderMove, Session.receiverMove,
      SenderLoop.step, ReceiverLoop.step, Session.beforeStart, Sender.init, Receiver.init,
      RtpPacket.bare, hu]
  have hplay : S.Playable (.beforeStart file startSeq) moves := by
    simp [S, moves, Playable, connection, Session.move, Session.senderMove, Session.receiverMove,
      SenderLoop.step, ReceiverLoop.step, Session.beforeStart, Sender.init, Receiver.init,
      RtpPacket.bare, hu, Session.Allowed]
  have h0 : S.Reachable (.beforeStart file startSeq) := .init rfl
  refine ⟨_, h0.play hplay, ?_, ?_⟩ <;> rw [hrun]
  · exact ⟨rfl, rfl, by simp [Session.afterStart], by simp [Session.afterStart]⟩
  · simp

/-- A sender with packets left gets to its `revRTP`, with something unacknowledged. -/
theorem exists_quietRun_wait (hf : Fits file window window') (hl : Link D st)
    (hpc : st.snd.pc.InLoop) (hleft : st.snd.base < packetCount file) :
    ∃ t, QuietRun P window st t ∧ Link D t ∧ SameBase st t ∧ t.snd.pc = .wait ∧
      t.snd.base < t.snd.nextseqnum := by
  obtain ⟨t, hrun, hend⟩ := exists_quietRun hf hl hpc
  obtain ⟨hlt, hsame⟩ := hrun.link hf hl
  have hwait : t.snd.pc = .wait := by
    apply hend.resolve_right
    intro hleft'
    have hexit := hlt.sender.exit hleft'
    have hbase := hsame.base
    omega
  have hbusy := hlt.sender.busy (Or.inr hwait)
  have hsent := hlt.sender.sent hwait
  exact ⟨t, hrun, hlt, hsame, hwait, by omega⟩

private theorem exists_lateAck (window' : ℕ) (hseq : startSeq < 2 ^ 31)
    (h : Session.Run P window window' (.afterStart file startSeq) st) :
    ∃ u, (connection P file startSeq window window').Reachable u ∧
      u.snd = (P.sender.step window st.snd (some (.bare rtpAck startSeq)) false).1 ∧
      u.rcv = st.rcv := by
  obtain ⟨u, hu, he, hack⟩ := exists_afterStart P file window window' hseq
  obtain ⟨u', hrun, he', hsub⟩ := he.run h
  refine ⟨_, (hrun.reachable hu).step (.sender (some (.bare rtpAck startSeq)) false) ?_, ?_,
    he'.rcv⟩
  · simpa [connection, Session.Allowed] using hsub hack
  · simp [connection, Session.move, Session.senderMove, he'.snd]

end Runs

section Cumulative

private theorem cumulative_waitStep_base {s : Sender} {seq : ℕ} (hlt : s.base < seq)
    (hseq : seq < 2 ^ 32) (hpc : s.pc ≠ .undefined) :
    (sendMessage.waitStep window s (some (.bare rtpAck seq))).base = seq := by
  have hu : u32 seq = seq := u32_eq hseq
  cases hdel : deletePacks s.packs s.base (seq - s.base) with
  | none => simp [SenderLoop.waitStep, sendMessage, hu, hlt, hdel]
  | some packs => simp [SenderLoop.waitStep, sendMessage, hu, hlt, hdel, hpc]

/-- A START number above zero is taken for the number of a packet not sent yet. -/
theorem cumulative_startAck (hf : Fits file window window') (hpos : 0 < startSeq)
    (hseq : startSeq < 2 ^ 31) (hcount : 0 < packetCount file) :
    ∃ st, (connection cumulative file startSeq window window').Reachable st ∧
      ¬ st.Faithful file window' := by
  have hl : Link (cumulativeDiscipline file window window') (.afterStart file startSeq) :=
    link_afterStart startSeq
  obtain ⟨t, hrun, hlt, hsame, hwait, -⟩ := exists_quietRun_wait hf hl (Or.inl rfl) hcount
  have hbase : t.snd.base = 0 := hsame.base
  obtain ⟨u, hu, hsnd, hrcv⟩ := exists_lateAck window' hseq hrun.run
  refine ⟨u, hu, fun hfaithful => ?_⟩
  have hnum : u.snd.base = startSeq := by
    rw [hsnd]
    simp only [SenderLoop.step, hwait]
    exact cumulative_waitStep_base (by omega) (by omega) (by simp [hwait])
  have hacc := hfaithful.1 0 (by omega)
  rw [hrcv, hsame.rcv] at hacc
  simp [Receiver.Accepted, Session.afterStart, Receiver.init] at hacc

end Cumulative

section Selective

private theorem accept_empty {m : ℕ} (hm : 0 < m) {r : Receiver} {p : RtpPacket}
    (h : ∀ i, r.packBuf i = none) (hp : p.seqNum = r.firstneedrecv) :
    r.accept m p =
      { r with firstneedrecv := r.firstneedrecv + 1, written := r.written ++ p.payload } := by
  obtain ⟨n, rfl⟩ : ∃ n, m = n + 1 := ⟨m - 1, by omega⟩
  have hbuf : Function.update (Function.update r.packBuf (p.seqNum % (n + 1)) (some p))
      (p.seqNum % (n + 1)) none = r.packBuf := by
    rw [Function.update_idem]
    exact Function.update_eq_self_iff.mpr (h _).symm
  rw [hp] at hbuf
  simp only [Receiver.accept, Receiver.store, hp, h, Option.isNone_none, if_true, deliver,
    Function.update_self, Receiver.download, hbuf]
  exact deliver_of_none n (h _)

variable (hf : Fits file window window')
include hf

/-- A receiver that holds nothing takes the packet it needs, writes it and acknowledges it. -/
theorem receive_needed {j : ℕ} (hj : j < 2 ^ 32) (hloop : st.rcv.pc = .loop)
    (hempty : ∀ i, st.rcv.packBuf i = none) (hfst : st.rcv.firstneedrecv = j) :
    ∃ r, selective.receiver.step window' st.rcv (some (dataPacket file j)) false =
        (r, [.bare rtpAck j]) ∧
      r.firstneedrecv = j + 1 ∧ (∀ i, r.packBuf i = none) ∧ r.pc = .loop := by
  have hseq : (dataPacket file j).seqNum = j := dataPacket_seqNum file hj
  have hm : 0 < buffSize window' := hf.receiver_pos.trans hf.le_buffSize
  have hacc := accept_empty hm hempty (p := dataPacket file j) (by rw [hseq, hfst])
  have hpos := hf.receiver_pos
  refine ⟨st.rcv.accept (buffSize window') (dataPacket file j), ?_, ?_, ?_, ?_⟩
  · rw [selective.receiver.step_data window' false hloop (dataPacket_type file j),
      ReceiverLoop.onData_inside _ (by rw [hseq]; omega)]
    simp only [selective_ack, hseq]
  · rw [hacc, hfst]
  · rw [hacc]
    exact hempty
  · rw [hacc]
    exact hloop

/-- A stop-and-wait run: the first packets are sent, taken and acknowledged one by one. -/
theorem exists_lockstep (startSeq : ℕ) (j : ℕ) (hj : j ≤ packetCount file) :
    ∃ st, Session.Run selective window window' (.afterStart file startSeq) st ∧
      Link (selectiveDiscipline file window window' hf) st ∧ st.snd.pc.InLoop ∧
      st.snd.base = j ∧ st.rcv.firstneedrecv = j ∧ (∀ i, st.rcv.packBuf i = none) ∧
      st.rcv.pc = .loop := by
  induction j with
  | zero => exact ⟨_, .refl, link_afterStart startSeq, Or.inl rfl, rfl, rfl, fun _ => rfl, rfl⟩
  | succ j ih =>
    obtain ⟨st, hrun, hl, hin, hb, hfst, hempty, hloop⟩ := ih (by omega)
    obtain ⟨t, hquiet, hlt, hsame, hwait, hnext⟩ := exists_quietRun_wait hf hl hin (by omega)
    have hbase : t.snd.base = j := hsame.base.trans hb
    rw [← hsame.rcv] at hfst hempty hloop
    have hsmall := hlt.next_lt hf
    -- packet `j` arrives ...
    obtain ⟨r, hdata, hr, hrempty, hrloop⟩ :=
      receive_needed hf (j := j) (by omega) hloop hempty hfst
    have hin : ∀ p ∈ some (dataPacket file j), p ∈ t.toRcv := by
      simpa using hlt.sent j (by omega)
    have hlv := hlt.receiverMove hf (some (dataPacket file j)) false hin
    have hv : t.receiverMove selective window' (some (dataPacket file j)) false =
        { t with rcv := r, toSnd := t.toSnd ++ [.bare rtpAck j] } := by
      simp [Session.receiverMove, hdata]
    rw [hv] at hlv
    -- ... and its ACK
    have hmem : RtpPacket.bare rtpAck j ∈ t.toSnd ++ [.bare rtpAck j] :=
      List.mem_append_right _ (List.mem_singleton_self _)
    obtain ⟨hlw, -, -, -, hclock⟩ := hlv.senderMove_wait hf hwait hmem
    refine ⟨_, ((hrun.trans hquiet.run).tail
      ⟨.receiver (some (dataPacket file j)) false, hin, rfl⟩).tail
      ⟨.sender (some (.bare rtpAck j)) false, ?_, rfl⟩, ?_⟩
    · simp [Session.move, hv, Session.Allowed]
    · simp only [Session.move, hv]
      refine ⟨hlw, by simp [SenderPC.InLoop, hclock], ?_, hr, hrempty, hrloop⟩
      have hle : _ ≤ r.firstneedrecv := hlw.low
      have hround : AckRound selective window [.bare rtpAck j]
          { t with rcv := r, toSnd := t.toSnd ++ [.bare rtpAck j] } _ := .ack hwait (.nil _)
      have hack := hround.selective_lt hf hlv (by simp) List.mem_cons_self rfl
      have hu : u32 j = j := u32_eq (by omega)
      rw [hr] at hle
      apply le_antisymm hle
      rw [bare_seqNum, hu] at hack
      exact hack hbase.ge (hbase ▸ hnext)

/-- An ACK with the number `base` moves `base`, whether or not the receiver has the packet. -/
theorem SenderInv.selectiveWait_base {s : Sender} {r : Receiver} (h : SenderInv file window s)
    (hm : Marked window (buffSize window') s r) (hlt : s.base < s.nextseqnum) :
    s.base < (sendMessageOpt.waitStep window s (some (.bare rtpAck s.base))).base := by
  have hcount := hf.count_lt
  have hnext := h.next
  have htot := h.tot
  have hu : u32 s.base = s.base := u32_eq (by omega)
  -- the sender cannot tell `r` from a receiver that has everything
  have hmall : Marked window (buffSize window') s (.upTo file s.nextseqnum) := by
    intro k h1 h2
    obtain ⟨b, hb, -⟩ := hm k h1 h2
    exact ⟨b, hb, fun _ => Or.inl h2⟩
  obtain ⟨packs, b, acked, he, -, -, hslid, hle, -, -, hset, -⟩ :=
    h.selectiveWait hf hmall h.low (ringInv_upTo _) (some (.bare rtpAck s.base)) fun p hp _ => by
      obtain rfl := Option.mem_some_iff.mp hp
      exact Or.inl (Or.inl (by simpa [hu, Receiver.upTo] using hlt))
  rw [he]
  show s.base < b
  by_contra hge
  obtain rfl : b = s.base := by omega
  have hclear : acked (s.base % ackBuffSize window) = some false := hslid hlt
  have hmark := hset _ rfl rfl (by simp [hu]) (by simpa [hu] using hlt)
  rw [bare_seqNum, hu, hclear] at hmark
  cases hmark

/-- A START number that is also the number of a packet is taken for the ACK of that packet,
once `base` has come to it. -/
theorem selective_startAck (hseq : startSeq < 2 ^ 31) (hcount : startSeq < packetCount file) :
    ∃ st, (connection selective file startSeq window window').Reachable st ∧
      ¬ st.Faithful file window' := by
  obtain ⟨st, hrun, hl, hin, hb, hfst, hempty, -⟩ :=
    exists_lockstep hf startSeq startSeq hcount.le
  obtain ⟨t, hquiet, hlt, hsame, hwait, hnext⟩ := exists_quietRun_wait hf hl hin (by omega)
  have hbase : t.snd.base = startSeq := hsame.base.trans hb
  obtain ⟨u, hu, hsnd, hrcv⟩ := exists_lateAck window' hseq (hrun.trans hquiet.run)
  refine ⟨u, hu, fun hfaithful => ?_⟩
  have hmoved := hlt.sender.selectiveWait_base hf hlt.marks.1 hnext
  have hnum : u.snd = sendMessageOpt.waitStep window t.snd (some (.bare rtpAck t.snd.base)) := by
    rw [hsnd, hbase]
    simp only [SenderLoop.step, hwait, selective]
  have hacc := hfaithful.1 startSeq (by rw [hnum]; omega)
  rw [hrcv, ← hbase] at hacc
  have hhead := hlt.receiver.not_accepted_head
  rw [hsame.rcv, hfst, ← hb, ← hsame.base, ← hsame.rcv] at hhead
  exact hhead hacc

end Selective

/-- Exactly when a late ACK of the START does no harm: the cumulative sender ignores it only
if it is zero or there is nothing to send, the selective one if no packet has its number. -/
theorem startAck_harmless_iff (hf : Fits file window window') (hseq : startSeq < 2 ^ 31) :
    ((∀ st, (connection cumulative file startSeq window window').Reachable st →
        st.Faithful file window') ↔ startSeq = 0 ∨ packetCount file = 0) ∧
    ((∀ st, (connection selective file startSeq window window').Reachable st →
        st.Faithful file window') ↔ packetCount file ≤ startSeq) := by
  have hu : u32 startSeq = startSeq := u32_eq (by omega)
  constructor
  · constructor
    · intro h
      by_contra hne
      obtain ⟨hpos, hcount⟩ := not_or.mp hne
      obtain ⟨st, hst, hbad⟩ := cumulative_startAck hf (Nat.pos_of_ne_zero hpos) hseq
        (Nat.pos_of_ne_zero hcount)
      exact hbad (h st hst)
    · rintro (rfl | hcount) st hst
      · exact (link_connection (cumulativeDiscipline file window window') hf
          (fun r => Nat.zero_le _) hst).faithful
      · exact (link_connection (emptyDiscipline hcount) hf (fun _ => trivial) hst).faithful
  · constructor
    · intro h
      by_contra hlt
      obtain ⟨st, hst, hbad⟩ := selective_startAck hf hseq (not_le.mp hlt)
      exact hbad (h st hst)
    · intro hcount st hst
      exact (link_connection (selectiveDiscipline file window window' hf) hf
        (fun r => Or.inr (by rwa [hu, hu])) hst).faithful

def lateAckRun (startSeq : ℕ) : List Move :=
  [.sender none false, .receiver (some (.bare rtpStart startSeq)) false,
    .sender (some (.bare rtpAck startSeq)) false] ++ List.replicate 5 (.sender none false) ++
    [.sender (some (.bare rtpAck startSeq)) false]

theorem startAck_harmless_iff_oneByte :
    ((connection selective [7] 1 1 1).play (.beforeStart [7] 1) (lateAckRun 1)).Faithful [7] 1 := by
  have hf : Fits [7] 1 1 := by constructor <;> decide
  have h0 : (connection selective [7] 1 1 1).Reachable (.beforeStart [7] 1) := .init rfl
  exact (startAck_harmless_iff hf (by decide)).2.mpr (by decide) _ (h0.play (by decide))

/-- The cumulative sender gives up the only packet of a file after a START with number 1, the
selective one after a START with number 0, though the receiver has got nothing. -/
theorem startAck_taken :
    (¬ ∀ (file : List UInt8) (startSeq window window' : ℕ) (st : Session),
      Fits file window window' → startSeq < 2 ^ 31 →
      (connection cumulative file startSeq window window').Reachable st →
      st.Faithful file window') ∧
    (¬ ∀ (file : List UInt8) (startSeq window window' : ℕ) (st : Session),
      Fits file window window' → startSeq < 2 ^ 31 →
      (connection selective file startSeq window window').Reachable st →
      st.Faithful file window') := by
  have hf : Fits [7] 1 1 := by constructor <;> decide
  constructor
  · intro h
    have h0 : (connection cumulative [7] 1 1 1).Reachable (.beforeStart [7] 1) := .init rfl
    have hrun : (connection cumulative [7] 1 1 1).Playable (.beforeStart [7] 1) (lateAckRun 1) := by
      decide
    have hacc := (h [7] 1 1 1 _ hf (by decide) (h0.play hrun)).1 0 (by decide)
    rcases hacc with hlt | ⟨p, hp, -⟩
    · exact absurd hlt (by decide)
    · cases hp
  · intro h
    have h0 : (connection selective [7] 0 1 1).Reachable (.beforeStart [7] 0) := .init rfl
    have hrun : (connection selective [7] 0 1 1).Playable (.beforeStart [7] 0) (lateAckRun 0) := by
      decide
    have hacc := (h [7] 0 1 1 _ hf (by decide) (h0.play hrun)).1 0 (by decide)
    rcases hacc with hlt | ⟨p, hp, -⟩
    · exact absurd hlt (by decide)
    · cases hp

end NetworkingLabs.Rtp
