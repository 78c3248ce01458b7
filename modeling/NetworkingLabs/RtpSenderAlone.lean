import NetworkingLabs.RtpCumulative
import NetworkingLabs.RtpSelective
import Mathlib.Data.List.Nodup

/-!
# The sender against arbitrary input

Nothing is known of the other side: every `revRTP` may return any packet or none, and every
test of the timer may have any outcome. The run is recorded, so that it can be said which
ACKs have been processed, which packets have been sent and which have been deleted.
-/
namespace NetworkingLabs.Rtp
open NumberedChunks TransitionSystem

section Records

/-- What one step of the sender received in its main loop, sent and deleted. -/
structure Record where
  received : Option RtpPacket
  sent : List RtpPacket
  freed : List ℕ

/-- The sender and the record of its run, the newest step first. -/
structure Alone where
  snd : Sender
  log : List Record

def freedBetween (packs packs' : List (Option RtpPacket)) : List ℕ :=
  (List.range packs.length).filter fun i => packs[i]?.join.isSome && packs'[i]?.join.isNone

def Alone.step (L : SenderLoop) (window : ℕ) (st : Alone) (inp : Option RtpPacket)
    (timeout : Bool) : Alone :=
  let out := L.step window st.snd inp timeout
  ⟨out.1, ⟨if st.snd.pc = .wait then inp else none, out.2,
    freedBetween st.snd.packs out.1.packs⟩ :: st.log⟩

def alone (L : SenderLoop) (file : List UInt8) (window : ℕ) :
    TransitionSystem Alone (Option RtpPacket × Bool) where
  init st := ∃ startSeq, st = ⟨.init .read startSeq file, []⟩
  enabled _ _ := True
  next st i := st.step L window i.1 i.2

def SentIn (k : ℕ) (log : List Record) : Prop :=
  ∃ e ∈ log, ∃ p ∈ e.sent, p.type = rtpData ∧ p.seqNum = k

instance (k : ℕ) (log : List Record) : Decidable (SentIn k log) :=
  inferInstanceAs (Decidable (∃ e ∈ log, ∃ p ∈ e.sent, _ ∧ _))

def Record.Acks (e : Record) (k : ℕ) : Prop := ∃ p ∈ e.received, p.type = rtpAck ∧ p.seqNum = k

instance (e : Record) (k : ℕ) : Decidable (e.Acks k) :=
  inferInstanceAs (Decidable (∃ p ∈ e.received, _ ∧ _))

def AckedSince (k : ℕ) : List Record → Prop
  | [] => False
  | e :: log => (e.Acks k ∧ SentIn k log) ∨ AckedSince k log

def decidableAckedSince (k : ℕ) : (log : List Record) → Decidable (AckedSince k log)
  | [] => .isFalse id
  | e :: log =>
    have : Decidable (AckedSince k log) := decidableAckedSince k log
    inferInstanceAs (Decidable ((e.Acks k ∧ SentIn k log) ∨ AckedSince k log))

instance (k : ℕ) (log : List Record) : Decidable (AckedSince k log) := decidableAckedSince k log

variable {k : ℕ} {e : Record} {log : List Record}

private theorem sentIn_cons : SentIn k (e :: log) ↔
    (∃ p ∈ e.sent, p.type = rtpData ∧ p.seqNum = k) ∨ SentIn k log := by
  simp [SentIn]

theorem AckedSince.sentIn (h : AckedSince k log) : SentIn k log := by
  induction log with
  | nil => exact h.elim
  | cons e log ih =>
    rcases h with ⟨-, hsent⟩ | h
    · exact sentIn_cons.mpr (Or.inr hsent)
    · exact sentIn_cons.mpr (Or.inr (ih h))

private theorem ackedSince_cons_of_not_acks (h : ¬ e.Acks k) :
    AckedSince k (e :: log) ↔ AckedSince k log := by
  simp [AckedSince, h]

end Records

section Deleted

variable {file : List UInt8} {window : ℕ} {s s' : Sender}

/-- Between two states that keep the invariant exactly the numbers that `base` passes are
deleted, each once. -/
theorem SenderInv.count_freedBetween (h : SenderInv file window s)
    (h' : SenderInv file window s') (hlow : s'.base ≤ s.totseq) (htot : s.totseq ≤ s'.totseq)
    (i : ℕ) : (freedBetween s.packs s'.packs).count i =
      if s.base ≤ i ∧ i < s'.base then 1 else 0 := by
  have hmem : i ∈ freedBetween s.packs s'.packs ↔ s.base ≤ i ∧ i < s'.base := by
    rw [freedBetween, List.mem_filter, List.mem_range, h.length]
    constructor
    · rintro ⟨hi, hfreed⟩
      rw [h.packs i hi, h'.packs i (hi.trans_le htot)] at hfreed
      by_cases h1 : i < s.base
      · simp [h1] at hfreed
      · by_cases h2 : i < s'.base
        · exact ⟨not_lt.mp h1, h2⟩
        · simp [h2] at hfreed
    · rintro ⟨h1, h2⟩
      have hi : i < s.totseq := h2.trans_le hlow
      refine ⟨hi, ?_⟩
      rw [h.packs i hi, h'.packs i (hi.trans_le htot), if_neg (not_lt.mpr h1), if_pos h2]
      rfl
  have hnodup : (freedBetween s.packs s'.packs).Nodup := List.nodup_range.filter _
  by_cases hi : s.base ≤ i ∧ i < s'.base
  · rw [if_pos hi]
    exact List.count_eq_one_of_mem hnodup (hmem.mpr hi)
  · rw [if_neg hi]
    exact List.count_eq_zero_of_not_mem fun hin => hi (hmem.mp hin)

end Deleted

section Invariant

/-- What one of the two loops keeps beyond the common invariant, and what it has to be told at
`revRTP` for that. -/
structure Watch (L : SenderLoop) (file : List UInt8) (window : ℕ) where
  marks : Sender → List Record → Prop
  /-- The packets that may arrive. -/
  allowed : Sender → Option RtpPacket → Prop
  marks_init : ∀ {s}, s.nextseqnum = 0 → marks s []
  /-- A step that receives nothing and touches neither the array nor the window. -/
  marks_quiet : ∀ {s s' log e}, s'.base = s.base → s'.nextseqnum = s.nextseqnum →
    s'.acked = s.acked → e.received = none → marks s log → marks s' (e :: log)
  onSend_eq : ∀ s, ∃ acked, L.onSend window s = { s with acked := acked }
  marks_send : ∀ {s log e}, SenderInv file window s → marks s log →
    (∀ k, SentIn k log ↔ k < s.nextseqnum) → s.nextseqnum < s.totseq → e.received = none →
    marks { L.onSend window s with nextseqnum := s.nextseqnum + 1 } (e :: log)
  due_some : ∀ {s log}, marks s log → ∃ d : ℕ → Bool,
    ∀ k, s.base ≤ k → k < s.nextseqnum → L.due window s k = some (d k)
  waitStep : ∀ {s log e} inp, SenderInv file window s → marks s log →
    (∀ k, SentIn k log ↔ k < s.nextseqnum) → allowed s inp → e.received = inp →
    SenderInv file window (L.waitStep window s inp) ∧
    marks (L.waitStep window s inp) (e :: log) ∧
    s.base ≤ (L.waitStep window s inp).base ∧
    (L.waitStep window s inp).nextseqnum = s.nextseqnum ∧
    (L.waitStep window s inp).totseq = s.totseq

structure AloneInv {L : SenderLoop} {file : List UInt8} {window : ℕ} (W : Watch L file window)
    (st : Alone) : Prop where
  sender : SenderInv file window st.snd
  sent : ∀ k, SentIn k st.log ↔ k < st.snd.nextseqnum
  freed : ∀ i, (st.log.flatMap Record.freed).count i = if i < st.snd.base then 1 else 0
  marks : W.marks st.snd st.log

variable {L : SenderLoop} {file : List UInt8} {window : ℕ} {W : Watch L file window} {st : Alone}
  {s' : Sender}

private theorem aloneInv_init (startSeq : ℕ) : AloneInv W ⟨.init .read startSeq file, []⟩ where
  sender := senderInv_init startSeq (Or.inr rfl)
  sent k := by simp [SentIn, Sender.init]
  freed i := by simp [Sender.init]
  marks := W.marks_init rfl

theorem AloneInv.to (h : AloneInv W st) {inp : Option RtpPacket} {out : List RtpPacket}
    (hs : SenderInv file window s') (hbase : st.snd.base ≤ s'.base)
    (hlow : s'.base ≤ st.snd.totseq) (htot : st.snd.totseq ≤ s'.totseq)
    (hsent : ∀ k, k < s'.nextseqnum ↔
      (∃ p ∈ out, p.type = rtpData ∧ p.seqNum = k) ∨ k < st.snd.nextseqnum)
    (hmarks : W.marks s' (⟨inp, out, freedBetween st.snd.packs s'.packs⟩ :: st.log)) :
    AloneInv W ⟨s', ⟨inp, out, freedBetween st.snd.packs s'.packs⟩ :: st.log⟩ := by
  refine ⟨hs, ?_, ?_, hmarks⟩
  · intro k
    rw [sentIn_cons, h.sent, hsent]
  · intro i
    rw [List.flatMap_cons, List.count_append, h.sender.count_freedBetween hs hlow htot, h.freed]
    by_cases h1 : i < st.snd.base
    · rw [if_neg (by omega), if_pos h1, if_pos (h1.trans_le hbase)]
    · by_cases h2 : i < s'.base
      · rw [if_pos ⟨not_lt.mp h1, h2⟩, if_neg h1, if_pos h2]
      · rw [if_neg fun hi => h2 hi.2, if_neg h1, if_neg h2]

/-- A step that neither receives nor changes the window, and sends no new packet. -/
theorem AloneInv.quiet (h : AloneInv W st) {out : List RtpPacket} (hs : SenderInv file window s')
    (hbase : s'.base = st.snd.base) (hnext : s'.nextseqnum = st.snd.nextseqnum)
    (hacked : s'.acked = st.snd.acked) (htot : st.snd.totseq ≤ s'.totseq)
    (hout : ∀ p ∈ out, p.type = rtpData → p.seqNum < st.snd.nextseqnum) :
    AloneInv W ⟨s', ⟨none, out, freedBetween st.snd.packs s'.packs⟩ :: st.log⟩ := by
  have hle := h.sender.low.trans h.sender.next
  have hmarks := fun e he => W.marks_quiet (e := e) hbase hnext hacked he h.marks
  refine h.to hs hbase.ge (hbase.trans_le hle) htot ?_ (hmarks _ rfl)
  intro k
  rw [hnext]
  constructor
  · exact Or.inr
  · rintro (⟨p, hp, ht, rfl⟩ | hk)
    · exact hout p hp ht
    · exact hk

theorem AloneInv.goto (h : AloneInv W st) (pc : SenderPC) {out : List RtpPacket}
    (hs : SenderInv file window { st.snd with pc := pc }) (hout : ∀ p ∈ out, p.type ≠ rtpData) :
    AloneInv W ⟨{ st.snd with pc := pc },
      ⟨none, out, freedBetween st.snd.packs st.snd.packs⟩ :: st.log⟩ :=
  h.quiet hs rfl rfl rfl le_rfl fun p hp ht => absurd ht (hout p hp)

variable (hf : Fits file window window)
include hf

theorem AloneInv.sendStep (h : AloneInv W st) (hpc : st.snd.pc = .send) :
    AloneInv W ⟨(L.sendStep window st.snd).1, ⟨none, (L.sendStep window st.snd).2,
      freedBetween st.snd.packs (L.sendStep window st.snd).1.packs⟩ :: st.log⟩ := by
  have hs := h.sender
  have hcount := hf.count_lt
  have htot := hs.tot
  have hle := hs.low.trans hs.next
  by_cases hlt : st.snd.nextseqnum < st.snd.totseq
  · obtain ⟨acked, hacked⟩ := W.onSend_eq st.snd
    have hmarks := fun e => W.marks_send (e := e) hs h.marks h.sent hlt
    rw [hs.sendStep_eq hf L hlt]
    rw [hacked] at hmarks ⊢
    refine h.to (hs.sendOne hpc hlt acked) le_rfl hle le_rfl ?_ (hmarks _ rfl)
    intro k
    have hnum : (dataPacket file st.snd.nextseqnum).seqNum = st.snd.nextseqnum :=
      dataPacket_seqNum file (by omega)
    simp only [List.mem_singleton, exists_eq_left, dataPacket_type, true_and, hnum]
    show k < st.snd.nextseqnum + 1 ↔ _
    omega
  · have hge := not_lt.mp hlt
    rw [sendStep_done L window hge]
    exact h.goto _ (hs.sendDone hpc hge) (by simp)

theorem AloneInv.clockStep (h : AloneInv W st) (timeout : Bool) :
    AloneInv W ⟨(L.clockStep window st.snd timeout).1, ⟨none, (L.clockStep window st.snd timeout).2,
      freedBetween st.snd.packs (L.clockStep window st.snd timeout).1.packs⟩ :: st.log⟩ := by
  have hread : SenderInv file window { st.snd with pc := .read } := h.sender.goto (by simp)
  have hcount := hf.count_lt
  have htot := h.sender.tot
  have hnext := h.sender.next
  cases timeout with
  | false => exact h.goto _ hread (by simp [SenderLoop.clockStep])
  | true =>
    obtain ⟨d, hd⟩ := W.due_some h.marks
    rw [h.sender.clockStep_eq L hd]
    refine h.quiet hread rfl rfl rfl le_rfl ?_
    intro p hp _
    obtain ⟨i, hi, rfl⟩ := List.mem_map.mp hp
    obtain ⟨h1, h2⟩ := List.mem_range'_1.mp (List.mem_filter.mp hi).1
    rw [dataPacket_seqNum file (by omega)]
    omega

/-- Every step keeps the invariant, as long as what `revRTP` returns is allowed. -/
theorem AloneInv.step (h : AloneInv W st) (inp : Option RtpPacket) (timeout : Bool)
    (hinp : st.snd.pc = .wait → W.allowed st.snd inp) :
    AloneInv W (st.step L window inp timeout) := by
  have hs := h.sender
  unfold Alone.step SenderLoop.step
  cases hpc : st.snd.pc with
  | start => exact h.goto _ (hs.goto (by simp)) (by simp; decide)
  | connecting =>
    have hbare : ∀ p ∈ [RtpPacket.bare rtpEnd st.snd.startSeq], p.type ≠ rtpData := by
      simp
      decide
    have hrefuse := h.goto .refused (hs.goto (by simp)) hbare
    cases inp with
    | none => exact hrefuse
    | some p =>
      by_cases hp : p.type = rtpAck ∧ p.seqNum = st.snd.startSeq
      · simp only [if_pos hp]
        exact h.goto _ (hs.goto (by simp)) (by simp)
      · simp only [if_neg hp]
        exact hrefuse
  | read =>
    have hread := hs.readStep hf hpc
    have htot : st.snd.totseq ≤ (readStep window st.snd).totseq := by
      rw [← hs.length, ← hread.length]
      exact readStep_packs_length window st.snd
    exact h.quiet hread (readStep_base window st.snd) (readStep_nextseqnum window st.snd)
      (readStep_acked window st.snd) htot (by simp)
  | test => exact h.goto _ (hs.testStep hf hpc) (by simp)
  | send => exact h.sendStep hf hpc
  | wait =>
    obtain ⟨h1, h2, h3, h4, h5⟩ := W.waitStep
      (e := ⟨inp, [], freedBetween st.snd.packs (L.waitStep window st.snd inp).packs⟩)
      inp hs h.marks h.sent (hinp hpc) rfl
    refine h.to h1 h3 ?_ h5.ge ?_ h2
    · rw [← h5]
      exact h1.low.trans h1.next
    · intro k
      simp [h4]
  | clock => exact h.clockStep hf timeout
  | left => exact h.goto _ (hs.endStep hpc) (by simp; decide)
  | refused | ended => exact h.quiet hs rfl rfl rfl le_rfl (by simp)
  | undefined => exact absurd hpc hs.defined

end Invariant

section Selective

/-- The array tells which packets of the window have been acknowledged since they were sent. -/
def Logged (window : ℕ) (s : Sender) (log : List Record) : Prop :=
  ∀ k, s.base ≤ k → k < s.nextseqnum →
    ∃ b, s.acked (k % ackBuffSize window) = some b ∧ (b = true ↔ AckedSince k log)

variable {file : List UInt8} {window : ℕ} {s s' : Sender} {log : List Record} {e : Record}

theorem Logged.quiet (hbase : s'.base = s.base) (hnext : s'.nextseqnum = s.nextseqnum)
    (hacked : s'.acked = s.acked) (he : e.received = none) (h : Logged window s log) :
    Logged window s' (e :: log) := by
  intro k h1 h2
  rw [hbase] at h1
  rw [hnext] at h2
  obtain ⟨b, hb, hiff⟩ := h k h1 h2
  refine ⟨b, by rw [hacked, hb], ?_⟩
  rw [ackedSince_cons_of_not_acks (by simp [Record.Acks, he]), hiff]

theorem Logged.send (hf : Fits file window window) (hs : SenderInv file window s)
    (h : Logged window s log) (hsent : ∀ k, SentIn k log ↔ k < s.nextseqnum)
    (hlt : s.nextseqnum < s.totseq) (he : e.received = none) :
    Logged window { sendMessageOpt.onSend window s with nextseqnum := s.nextseqnum + 1 }
      (e :: log) := by
  have hlow := hs.low
  have hwin := hs.win
  intro k h1 h2
  show ∃ b, Function.update s.acked _ (some false) (k % ackBuffSize window) = some b ∧ _
  have h1' : s.base ≤ k := h1
  have h2' : k < s.nextseqnum + 1 := h2
  rw [ackedSince_cons_of_not_acks (by simp [Record.Acks, he])]
  by_cases hk : k = s.nextseqnum
  · have hnot : ¬ AckedSince k log := fun hacked => by
      have := (hsent k).mp hacked.sentIn
      omega
    exact ⟨false, by simp [hk], by simp [hnot]⟩
  · have hslot : k % ackBuffSize window ≠ s.nextseqnum % ackBuffSize window := by
      rw [hf.ackBuffSize_eq]
      exact mod_ne_mod_of_ne s.base h1' (by omega) hlow (by omega) hk
    rw [Function.update_of_ne hslot]
    exact h k h1' (by omega)

/-- Whatever `revRTP` returns, the array keeps to the record, and the loop after it does not
pass `nextseqnum`. -/
theorem Logged.wait (hf : Fits file window window) (hs : SenderInv file window s)
    (h : Logged window s log) (hsent : ∀ k, SentIn k log ↔ k < s.nextseqnum)
    (inp : Option RtpPacket) (he : e.received = inp) :
    ∃ packs b acked, sendMessageOpt.waitStep window s inp =
        { s with pc := .clock, packs := packs, base := b, acked := acked } ∧
      SenderInv file window { s with pc := .clock, packs := packs, base := b, acked := acked } ∧
      Logged window { s with packs := packs, base := b, acked := acked } (e :: log) ∧
      s.base ≤ b := by
  -- the sender cannot tell who answers it, so it may be a receiver that has all its packets
  have hall : s.base ≤ (Receiver.upTo file (packetCount file)).firstneedrecv :=
    hs.low.trans (hs.next.trans hs.tot)
  have hmarked : Marked window (buffSize window) s (.upTo file (packetCount file)) := by
    intro k h1 h2
    obtain ⟨b, hb, -⟩ := h k h1 h2
    exact ⟨b, hb, fun _ => Or.inl (h2.trans_le (hs.next.trans hs.tot))⟩
  obtain ⟨packs, b, acked, hstep, hinv, -, -, hle, -, -, hset, hkeep⟩ :=
    hs.selectiveWait hf hmarked hall (ringInv_upTo _) inp
      fun p _ _ => (lt_or_ge p.seqNum (packetCount file)).imp_left Or.inl
  refine ⟨packs, b, acked, hstep, hinv, ?_, hle⟩
  intro k h1 h2
  have h1' : s.base ≤ k := hle.trans h1
  by_cases hk : e.Acks k
  · obtain ⟨p, hp, ht, rfl⟩ := hk
    rw [he] at hp
    have hacked : AckedSince p.seqNum (e :: log) :=
      Or.inl ⟨⟨p, he ▸ hp, ht, rfl⟩, (hsent _).mpr h2⟩
    exact ⟨true, hset p hp ht h1' h2, by simp [hacked]⟩
  · have hslot := hkeep k h1' h2 fun p hp ht heq => hk ⟨p, he ▸ hp, ht, heq.symm⟩
    rw [ackedSince_cons_of_not_acks hk]
    show ∃ b, acked (k % ackBuffSize window) = some b ∧ _
    rw [hslot]
    exact h k h1' h2

def selectiveWatch (hf : Fits file window window) : Watch sendMessageOpt file window where
  marks := Logged window
  allowed _ _ := True
  marks_init h0 k _ hk := by
    rw [h0] at hk
    exact absurd hk (Nat.not_lt_zero k)
  marks_quiet h1 h2 h3 he hm := hm.quiet h1 h2 h3 he
  onSend_eq _ := ⟨_, rfl⟩
  marks_send hs hm hsent hlt he := hm.send hf hs hsent hlt he
  due_some {s _} hm := by
    refine ⟨fun k => !(s.acked (k % ackBuffSize window)).getD false, fun k h1 h2 => ?_⟩
    obtain ⟨b, hb, -⟩ := hm k h1 h2
    simp [sendMessageOpt, hb]
  waitStep inp hs hm hsent _ he := by
    obtain ⟨packs, b, acked, hstep, hinv, hlog, hle⟩ := hm.wait hf hs hsent inp he
    rw [hstep]
    exact ⟨hinv, hlog, hle, rfl, rfl⟩

/-- Whatever arrives and whenever the timer runs out: the window keeps its order, the array says
exactly which packets of the window have been acknowledged since they were sent, so that a
timeout sends exactly the others again, and exactly the packets below `base` have been deleted,
each once. -/
theorem selective_any_input {st : Alone} (hf : Fits file window window)
    (h : (alone sendMessageOpt file window).Reachable st) :
    st.snd.pc ≠ .undefined ∧
    st.snd.base ≤ st.snd.nextseqnum ∧ st.snd.nextseqnum ≤ st.snd.totseq ∧
    st.snd.totseq = st.snd.packs.length ∧ st.snd.totseq ≤ st.snd.base + window ∧
    (∀ k, st.snd.base ≤ k → k < st.snd.nextseqnum →
      ∃ b, st.snd.acked (k % (2 * window)) = some b ∧ (b = true ↔ AckedSince k st.log)) ∧
    (st.snd.pc = .clock → ∀ inp, (sendMessageOpt.step window st.snd inp true).2 =
      ((List.range' st.snd.base (st.snd.nextseqnum - st.snd.base)).filter
        fun k => ¬ AckedSince k st.log).map (dataPacket file)) ∧
    (∀ i < st.snd.totseq, st.snd.packs[i]? =
      some (if i < st.snd.base then none else some (dataPacket file i))) ∧
    (∀ i, (st.log.flatMap Record.freed).count i = if i < st.snd.base then 1 else 0) ∧
    (st.snd.hasLeft → st.snd.base = packetCount file) := by
  have hinv : AloneInv (selectiveWatch hf) st := by
    apply h.invariant (P := AloneInv (selectiveWatch hf))
    · rintro st ⟨startSeq, rfl⟩
      exact aloneInv_init startSeq
    · intro st i hst _
      exact hst.step hf i.1 i.2 fun _ => trivial
  have hs := hinv.sender
  have hlog : Logged window st.snd st.log := hinv.marks
  refine ⟨hs.defined, hs.low, hs.next, hs.length.symm, hs.win, ?_, ?_, hs.packs, hinv.freed,
    hs.exit⟩
  · rw [← hf.ackBuffSize_eq]
    exact hlog
  · intro hpc inp
    have hdue : ∀ k, st.snd.base ≤ k → k < st.snd.nextseqnum →
        sendMessageOpt.due window st.snd k = some (decide ¬ AckedSince k st.log) := by
      intro k h1 h2
      obtain ⟨b, hb, hiff⟩ := hlog k h1 h2
      have hval : (!b) = decide ¬ AckedSince k st.log := by
        rw [decide_not, Bool.not_inj_iff, Bool.eq_iff_iff, hiff, decide_eq_true_iff]
      rw [← hval]
      simp [sendMessageOpt, hb]
    simp only [SenderLoop.step, hpc, hs.clockStep_eq sendMessageOpt hdue]

/-- Up to the test of the timer, with a packet sent and nothing heard. -/
def silentRun : List (Option RtpPacket × Bool) := List.replicate 6 (none, false)

theorem selective_any_input_silent : (sendMessageOpt.step 1 ((alone sendMessageOpt [7] 1).play
    ⟨.init .read 5 [7], []⟩ silentRun).snd none true).2 = [dataPacket [7] 0] := by
  have hf : Fits [7] 1 1 := by constructor <;> decide
  have h0 : (alone sendMessageOpt [7] 1).Reachable ⟨.init .read 5 [7], []⟩ := .init ⟨5, rfl⟩
  have hrun : (alone sendMessageOpt [7] 1).Playable ⟨.init .read 5 [7], []⟩ silentRun := by
    simp [Playable, silentRun, alone]
  have hall := selective_any_input hf (h0.play hrun)
  exact (hall.2.2.2.2.2.2.1 (by decide) none).trans (by decide)

end Selective

section Cumulative

/-- What is asked of the cumulative sender in every state. A packet that is not in the vector or
deleted already is neither sent nor deleted, or the sender would be at `undefined`. -/
structure Sound (window : ℕ) (st : Alone) : Prop where
  low : st.snd.base ≤ st.snd.nextseqnum
  next : st.snd.nextseqnum ≤ st.snd.totseq
  length : st.snd.totseq = st.snd.packs.length
  win : st.snd.nextseqnum ≤ st.snd.base + window
  defined : st.snd.pc ≠ .undefined
  freed : ∀ i, (st.log.flatMap Record.freed).count i ≤ 1

/-- An ACK that is processed does not name a number above `nextseqnum`. -/
def Modest (st : Alone) (i : Option RtpPacket × Bool) : Prop :=
  st.snd.pc = .wait → ∀ p ∈ i.1, p.type = rtpAck → p.seqNum ≤ st.snd.nextseqnum

instance (st : Alone) (i : Option RtpPacket × Bool) : Decidable (Modest st i) :=
  inferInstanceAs (Decidable (_ → ∀ p ∈ i.1, _ → _))

variable {file : List UInt8} {window : ℕ} {st : Alone}

/-- What an ACK never touches, and how far it moves `base`, whether the deletions succeed or
not. -/
theorem sendMessage_onAck (window : ℕ) (s : Sender) (seq : ℕ) :
    (sendMessage.onAck window s seq).totseq = s.totseq ∧
    (sendMessage.onAck window s seq).nextseqnum = s.nextseqnum ∧
    seq ≤ (sendMessage.onAck window s seq).base := by
  by_cases hlt : s.base < seq
  · cases hdel : deletePacks s.packs s.base (seq - s.base) <;> simp [sendMessage, hlt, hdel]
  · simp [sendMessage, hlt, not_lt.mp hlt]

private theorem sendMessage_waitStep (window : ℕ) (s : Sender) (inp : Option RtpPacket) :
    (sendMessage.waitStep window s inp).totseq = s.totseq ∧
    (sendMessage.waitStep window s inp).nextseqnum = s.nextseqnum ∧
    ∀ p ∈ inp, p.type = rtpAck → p.seqNum ≤ (sendMessage.waitStep window s inp).base := by
  have hdone : ∀ t : Sender, (if t.pc = .undefined then t else
      if (sendMessage.onWait window t).pc = .undefined then sendMessage.onWait window t
      else { sendMessage.onWait window t with pc := .clock }) =
        if t.pc = .undefined then t else { t with pc := .clock } := by
    intro t
    by_cases ht : t.pc = .undefined <;> simp [sendMessage, ht]
  simp only [SenderLoop.waitStep, hdone]
  cases inp with
  | none => split_ifs <;> simp
  | some p =>
    obtain ⟨h1, h2, h3⟩ := sendMessage_onAck window s p.seqNum
    simp only [Option.mem_some_iff, forall_eq']
    by_cases ht : p.type = rtpAck
    · simp only [if_pos ht]
      split_ifs
      · exact ⟨h1, h2, fun _ => h3⟩
      · exact ⟨h1, h2, fun _ => h3⟩
    · simp only [if_neg ht]
      split_ifs
      · exact ⟨rfl, rfl, fun h => absurd h ht⟩
      · exact ⟨rfl, rfl, fun h => absurd h ht⟩

def cumulativeWatch (file : List UInt8) (window : ℕ) : Watch sendMessage file window where
  marks _ _ := True
  allowed s inp := ∀ p ∈ inp, p.type = rtpAck → p.seqNum ≤ s.nextseqnum
  marks_init _ := trivial
  marks_quiet _ _ _ _ _ := trivial
  onSend_eq s := ⟨s.acked, rfl⟩
  marks_send _ _ _ _ _ := trivial
  due_some _ := ⟨fun _ => true, fun _ _ _ => rfl⟩
  waitStep {s _ _} inp hs _ _ hinp _ := by
    obtain ⟨h1, h2, h3, -⟩ := hs.cumulativeWait inp hinp
    refine ⟨h1, trivial, ?_, h3, (sendMessage_waitStep window s inp).1⟩
    rw [h2]
    cases inp with
    | none => exact le_rfl
    | some p =>
      by_cases ht : p.type = rtpAck
      · simp only [if_pos ht]
        exact le_max_left _ _
      · simp only [if_neg ht]
        exact le_rfl

theorem AloneInv.sound {L : SenderLoop} {W : Watch L file window} (h : AloneInv W st) :
    Sound window st where
  low := h.sender.low
  next := h.sender.next
  length := h.sender.length.symm
  win := h.sender.next.trans h.sender.win
  defined := h.sender.defined
  freed i := by
    rw [h.freed]
    split_ifs <;> omega

/-- An ACK beyond `nextseqnum` takes `base` with it. -/
theorem Modest.of_sound {i : Option RtpPacket × Bool}
    (h' : Sound window (st.step sendMessage window i.1 i.2)) : Modest st i := by
  intro hpc p hp ht
  obtain ⟨-, h2, h3⟩ := sendMessage_waitStep window st.snd i.1
  have hlow := h'.low
  simp only [Alone.step, SenderLoop.step, hpc, h2] at hlow
  exact (h3 p hp ht).trans hlow

/-- The cumulative sender keeps its window in order and deletes what it has, and once, in
exactly the runs in which no ACK names a number above `nextseqnum`. -/
theorem cumulative_any_input (hf : Fits file window window) (startSeq : ℕ)
    (is : List (Option RtpPacket × Bool)) :
    (alone sendMessage file window).Throughout (Sound window)
      ⟨.init .read startSeq file, []⟩ is ↔
    (alone sendMessage file window).Meets Modest ⟨.init .read startSeq file, []⟩ is := by
  apply throughout_iff_meets (I := AloneInv (cumulativeWatch file window))
  · exact fun st hst => hst.sound
  · intro st i hst hi
    exact hst.step hf i.1 i.2 hi
  · intro st i _ hnext
    exact .of_sound hnext
  · exact aloneInv_init startSeq

def firstAckRun (seq : ℕ) : List (Option RtpPacket × Bool) :=
  List.replicate 5 (none, false) ++ [(some (.bare rtpAck seq), false)]

theorem cumulative_any_input_firstAck : (alone sendMessage [7] 1).Throughout (Sound 1)
    ⟨.init .read 5 [7], []⟩ (firstAckRun 1) := by
  have hf : Fits [7] 1 1 := by constructor <;> decide
  exact (cumulative_any_input hf 5 (firstAckRun 1)).mpr (by decide)

/-- A late copy of the ACK that answered the START number 5, for a file of one packet. -/
theorem cumulative_lateStartAck : ∃ st, (alone sendMessage [7] 1).Reachable st ∧
    st.snd.pc = .undefined ∧ st.snd.nextseqnum < st.snd.base := by
  have h0 : (alone sendMessage [7] 1).Reachable ⟨.init .read 5 [7], []⟩ := .init ⟨5, rfl⟩
  have hrun : (alone sendMessage [7] 1).Playable ⟨.init .read 5 [7], []⟩ (firstAckRun 5) := by
    simp [Playable, firstAckRun, alone]
  exact ⟨_, h0.play hrun, by decide, by decide⟩

end Cumulative

end NetworkingLabs.Rtp
