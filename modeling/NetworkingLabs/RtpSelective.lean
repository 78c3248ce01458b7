import NetworkingLabs.RtpSystem

/-!
# The selective protocol

`sendMessageOpt` against `recvMessageOpt`: a mark in the `acked` array stands for a
packet that the receiver has, because the window is half as long as the array and no
two numbers of a window share a slot.
-/
namespace NetworkingLabs.Rtp
open NumberedChunks TransitionSystem

variable {file : List UInt8} {window window' : ℕ} {s : Sender} {r : Receiver} {st : Session}

theorem Fits.ackBuffSize_eq (hf : Fits file window window') : ackBuffSize window = 2 * window := by
  have := hf.sender_lt
  rw [ackBuffSize, u32_eq (by omega), Nat.mul_comm]

/-- Every slot of the window is written, and a set one stands for an accepted packet. -/
def Marked (window m : ℕ) (s : Sender) (r : Receiver) : Prop :=
  ∀ k, s.base ≤ k → k < s.nextseqnum →
    ∃ b, s.acked (k % ackBuffSize window) = some b ∧ (b = true → r.Accepted m k)

def Slid (window : ℕ) (s : Sender) : Prop :=
  s.base < s.nextseqnum → s.acked (s.base % ackBuffSize window) = some false

theorem SenderInv.slideOne (h : SenderInv file window { s with pc := .clock })
    (hlt : s.base < s.nextseqnum) : SenderInv file window
      { s with pc := .clock, packs := s.packs.set s.base none, base := s.base + 1 } := by
  have hnext : s.nextseqnum ≤ s.totseq := h.next
  have hwin : s.totseq ≤ s.base + window := h.win
  have hlen : s.packs.length = s.totseq := h.length
  refine ⟨h.fp, by simpa using h.length, ?_, h.seq, h.tot, hlt, h.next, ?_, by simp, by simp,
    by simp, by simp, by simp [Sender.hasLeft]⟩
  · intro i hi
    have hi' : i < s.totseq := hi
    have hget : s.packs[i]? = some (if i < s.base then none else some (dataPacket file i)) :=
      h.packs i hi
    show (s.packs.set s.base none)[i]? =
      some (if i < s.base + 1 then none else some (dataPacket file i))
    by_cases he : s.base = i
    · subst he
      rw [List.getElem?_set_self (by omega), if_pos (Nat.lt_succ_self _)]
    · rw [List.getElem?_set_ne he, hget]
      by_cases h1 : i < s.base
      · rw [if_pos h1, if_pos (by omega)]
      · rw [if_neg h1, if_neg (by omega)]
  · show s.totseq ≤ s.base + 1 + window
    omega

/-- What the sliding loop does: it passes the set slots and stops at the first clear one. -/
theorem slide_spec (n : ℕ) {s : Sender} (h : SenderInv file window { s with pc := .clock })
    (hm : ∀ k, s.base ≤ k → k < s.nextseqnum → s.acked (k % ackBuffSize window) ≠ none)
    (hn : s.nextseqnum - s.base = n) :
    ∃ packs b, slide window n s = { s with packs := packs, base := b } ∧
      SenderInv file window { s with pc := .clock, packs := packs, base := b } ∧
      s.base ≤ b ∧ (∀ k, s.base ≤ k → k < b → s.acked (k % ackBuffSize window) = some true) ∧
      (b < s.nextseqnum → s.acked (b % ackBuffSize window) = some false) := by
  induction n generalizing s with
  | zero =>
    exact ⟨s.packs, s.base, rfl, h, le_rfl, fun k h1 h2 => by omega, fun h1 => by omega⟩
  | succ n ih =>
    have hlt : s.base < s.nextseqnum := by omega
    cases hb : s.acked (s.base % ackBuffSize window) with
    | none => exact absurd hb (hm s.base le_rfl hlt)
    | some b =>
      cases b with
      | false =>
        have he : slide window (n + 1) s = s := by simp [slide, hb]
        exact ⟨s.packs, s.base, he, h, le_rfl, fun k h1 h2 => by omega, fun _ => hb⟩
      | true =>
        have hnext : s.nextseqnum ≤ s.totseq := h.next
        have hp : s.packs[s.base]? = some (some (dataPacket file s.base)) :=
          h.packs_live (i := s.base) le_rfl (hlt.trans_le hnext)
        obtain ⟨packs, b, h1, h2, h3, h4, h5⟩ := ih
          (s := { s with packs := s.packs.set s.base none, base := s.base + 1 }) (h.slideOne hlt)
          (fun k hk1 hk2 => hm k (Nat.le_of_succ_le hk1) hk2)
          (by show s.nextseqnum - (s.base + 1) = n; omega)
        have h3' : s.base + 1 ≤ b := h3
        refine ⟨packs, b, by simp [slide, hb, hp, h1], h2, by omega, ?_, h5⟩
        intro k hk1 hk2
        by_cases he : k = s.base
        · rw [he]
          exact hb
        · exact h4 k (by show s.base + 1 ≤ k; omega) hk2

/-- An ACK of the window sets its slot, and no other slot of the window. -/
theorem Marked.ack (hf : Fits file window window') {m : ℕ} (h : SenderInv file window s)
    (hm : Marked window m s r) {seq : ℕ}
    (hseq : r.Accepted m seq ∨ packetCount file ≤ seq) :
    ∃ acked, sendMessageOpt.onAck window s seq = { s with acked := acked } ∧
      Marked window m { s with acked := acked } r ∧
      (s.base ≤ seq → seq < s.nextseqnum → acked (seq % ackBuffSize window) = some true) ∧
      ∀ k, s.base ≤ k → k < s.nextseqnum → k ≠ seq →
        acked (k % ackBuffSize window) = s.acked (k % ackBuffSize window) := by
  have hwin := h.win
  have hnext := h.next
  have htot := h.tot
  by_cases hin : s.base ≤ seq ∧ seq < s.base + window
  · have hslot : ∀ k, s.base ≤ k → k < s.nextseqnum → k ≠ seq →
        k % ackBuffSize window ≠ seq % ackBuffSize window := by
      intro k h1 h2 hne
      rw [hf.ackBuffSize_eq]
      exact mod_ne_mod_of_ne s.base h1 (by omega) hin.1 (by omega) hne
    refine ⟨Function.update s.acked (seq % ackBuffSize window) (some true), ?_, ?_, ?_, ?_⟩
    · simp [sendMessageOpt, h.u32_win hf, hin]
    · intro k h1 h2
      simp only at h1 h2 ⊢
      by_cases hk : k = seq
      · subst hk
        exact ⟨true, by simp, fun _ => hseq.resolve_right (by omega)⟩
      · obtain ⟨b, hb, hb'⟩ := hm k h1 h2
        exact ⟨b, by rw [Function.update_of_ne (hslot k h1 h2 hk), hb], hb'⟩
    · intro _ _
      simp
    · intro k h1 h2 hk
      rw [Function.update_of_ne (hslot k h1 h2 hk)]
  · refine ⟨s.acked, by simp [sendMessageOpt, h.u32_win hf, hin], hm, ?_, fun _ _ _ _ => rfl⟩
    intro h1 h2
    omega

/-- The sliding loop after `revRTP`: the slots it passes stand for accepted packets, so
`base` stays at or below the first packet the receiver needs. -/
theorem Marked.slid {m next : ℕ} (h : SenderInv file window { s with pc := .clock })
    (hm : Marked window m s r) (hlow : s.base ≤ r.firstneedrecv)
    (hr : RingInv (chunk freadSize file) m window' next r) :
    ∃ packs b, sendMessageOpt.onWait window s = { s with packs := packs, base := b } ∧
      SenderInv file window { s with pc := .clock, packs := packs, base := b } ∧
      Marked window m { s with packs := packs, base := b } r ∧
      Slid window { s with packs := packs, base := b } ∧
      s.base ≤ b ∧ b ≤ r.firstneedrecv ∧
      ∀ k, s.base ≤ k → k < b → s.acked (k % ackBuffSize window) = some true := by
  obtain ⟨packs, b, h1, h2, h3, h4, h5⟩ := slide_spec _ h
    (fun k hk1 hk2 => by obtain ⟨b, hb, -⟩ := hm k hk1 hk2; simp [hb]) rfl
  have hbn : b ≤ s.nextseqnum := h2.low
  refine ⟨packs, b, h1, h2, fun k hk1 hk2 => hm k (h3.trans hk1) hk2, h5, h3, ?_, h4⟩
  by_contra hlt
  obtain ⟨b', hb', hacc⟩ := hm r.firstneedrecv hlow (by omega)
  rw [h4 _ hlow (by omega)] at hb'
  exact hr.not_accepted_head (hacc (by simpa using hb'.symm))

def Receiver.upTo (file : List UInt8) (n : ℕ) : Receiver :=
  ⟨.loop, fun _ => none, n, firstBytes file n⟩

theorem ringInv_upTo {m : ℕ} (n : ℕ) :
    RingInv (chunk freadSize file) m window' n (.upTo file n) := by
  refine ⟨⟨?_, ?_, ?_, ?_, rfl⟩, rfl, le_rfl⟩ <;> simp [Receiver.upTo]

/-- What `revRTP` gets changes the array only, if it is an ACK. -/
theorem SenderInv.selectiveAck (hf : Fits file window window') {m : ℕ}
    (h : SenderInv file window s) (hm : Marked window m s r) (inp : Option RtpPacket)
    (hinp : ∀ p ∈ inp, p.type = rtpAck → r.Accepted m p.seqNum ∨ packetCount file ≤ p.seqNum) :
    ∃ acked, sendMessageOpt.waitStep window s inp =
        (let u := sendMessageOpt.onWait window { s with acked := acked }
         if u.pc = .undefined then u else { u with pc := .clock }) ∧
      Marked window m { s with acked := acked } r ∧
      (∀ p ∈ inp, p.type = rtpAck → s.base ≤ p.seqNum → p.seqNum < s.nextseqnum →
        acked (p.seqNum % ackBuffSize window) = some true) ∧
      ∀ k, s.base ≤ k → k < s.nextseqnum → (∀ p ∈ inp, p.type = rtpAck → k ≠ p.seqNum) →
        acked (k % ackBuffSize window) = s.acked (k % ackBuffSize window) := by
  have hwait : s.pc ≠ .undefined := h.defined
  cases inp with
  | none =>
    exact ⟨s.acked, by simp [SenderLoop.waitStep, hwait], hm, by simp, fun _ _ _ _ => rfl⟩
  | some p =>
    by_cases ht : p.type = rtpAck
    · obtain ⟨acked, he, h1, h2, h3⟩ := hm.ack hf h (hinp p rfl ht)
      refine ⟨acked, by simp [SenderLoop.waitStep, ht, he, hwait], h1, ?_, ?_⟩
      · intro q hq _ hq1 hq2
        obtain rfl := Option.mem_some_iff.mp hq
        exact h2 hq1 hq2
      · intro k hk1 hk2 hne
        exact h3 k hk1 hk2 (hne p rfl ht)
    · refine ⟨s.acked, by simp [SenderLoop.waitStep, ht, hwait], hm, ?_, fun _ _ _ _ => rfl⟩
      intro q hq hqt
      obtain rfl := Option.mem_some_iff.mp hq
      exact absurd hqt ht

theorem SenderInv.selectiveWait (hf : Fits file window window') {m next : ℕ}
    (h : SenderInv file window s) (hm : Marked window m s r) (hlow : s.base ≤ r.firstneedrecv)
    (hr : RingInv (chunk freadSize file) m window' next r) (inp : Option RtpPacket)
    (hinp : ∀ p ∈ inp, p.type = rtpAck → r.Accepted m p.seqNum ∨ packetCount file ≤ p.seqNum) :
    ∃ packs b acked, sendMessageOpt.waitStep window s inp =
        { s with pc := .clock, packs := packs, base := b, acked := acked } ∧
      SenderInv file window { s with pc := .clock, packs := packs, base := b, acked := acked } ∧
      Marked window m { s with packs := packs, base := b, acked := acked } r ∧
      Slid window { s with packs := packs, base := b, acked := acked } ∧
      s.base ≤ b ∧ b ≤ r.firstneedrecv ∧
      (∀ k, s.base ≤ k → k < b → acked (k % ackBuffSize window) = some true) ∧
      (∀ p ∈ inp, p.type = rtpAck → s.base ≤ p.seqNum → p.seqNum < s.nextseqnum →
        acked (p.seqNum % ackBuffSize window) = some true) ∧
      ∀ k, s.base ≤ k → k < s.nextseqnum → (∀ p ∈ inp, p.type = rtpAck → k ≠ p.seqNum) →
        acked (k % ackBuffSize window) = s.acked (k % ackBuffSize window) := by
  have hwait : s.pc ≠ .undefined := h.defined
  have hstay : SenderInv file window { s with pc := .clock } := h.goto (by simp)
  obtain ⟨acked, he, hmark, hset, hkeep⟩ := h.selectiveAck hf hm inp hinp
  have hstay' : SenderInv file window { s with acked := acked, pc := .clock } :=
    ⟨hstay.fp, hstay.length, hstay.packs, hstay.seq, hstay.tot, hstay.low, hstay.next, hstay.win,
      by simp, by simp, by simp, by simp, by simp [Sender.hasLeft]⟩
  obtain ⟨packs, b, h1, h2, h3, h4, h5, h6, h7⟩ :=
    Marked.slid (s := { s with acked := acked }) hstay' hmark hlow hr
  refine ⟨packs, b, acked, ?_, h2, h3, h4, h5, h6, h7, hset, hkeep⟩
  rw [he, h1]
  exact if_neg hwait

/-- An ACK promises that the receiver has the packet it names; a number past the last
packet promises nothing and does no harm. -/
def selectiveDiscipline (file : List UInt8) (window window' : ℕ)
    (hf : Fits file window window') : Discipline selective file window window' where
  ackOK r k := r.Accepted (buffSize window') k ∨ packetCount file ≤ k
  marks s r := Marked window (buffSize window') s r ∧ Slid window s
  ackOK_mono hg hk := hk.imp_left (hg.accepted _)
  ackOK_end _ := Or.inr le_rfl
  ackOK_new {r p} _ hp hacc := Or.inl (by
    show r.Accepted _ (u32 p.seqNum)
    rwa [u32_eq hp])
  marks_init _ _ _ := ⟨fun k _ hk => absurd hk (Nat.not_lt_zero _),
    fun hk => absurd hk (Nat.not_lt_zero _)⟩
  marks_congr {s s' r} h1 h2 h3 hm := by
    simpa only [Marked, Slid, h1, h2, h3] using hm
  marks_mono hg hm := ⟨fun k h1 h2 =>
    let ⟨b, hb, hacc⟩ := hm.1 k h1 h2
    ⟨b, hb, fun ht => hg.accepted _ (hacc ht)⟩, hm.2⟩
  onSend_eq _ := ⟨_, rfl⟩
  marks_send {s r} hs hm hlt := by
    have hlow := hs.low
    have hwin := hs.win
    -- the slot of the new packet is cleared; the others of the window are different slots
    have hslot : ∀ k, s.base ≤ k → k < s.nextseqnum →
        k % ackBuffSize window ≠ s.nextseqnum % ackBuffSize window := by
      intro k h1 h2
      rw [hf.ackBuffSize_eq]
      exact mod_ne_mod_of_ne s.base h1 (by omega) hlow (by omega) h2.ne
    constructor
    · intro k h1 h2
      show ∃ b, Function.update s.acked _ (some false) (k % ackBuffSize window) = some b ∧ _
      have h1' : s.base ≤ k := h1
      have h2' : k < s.nextseqnum + 1 := h2
      by_cases hk : k = s.nextseqnum
      · exact ⟨false, by simp [hk], by simp⟩
      · obtain ⟨b, hb, hacc⟩ := hm.1 k h1' (by omega)
        exact ⟨b, by rw [Function.update_of_ne (hslot k h1' (by omega)), hb], hacc⟩
    · intro _
      show Function.update s.acked _ (some false) (s.base % ackBuffSize window) = some false
      by_cases hk : s.base = s.nextseqnum
      · simp [hk]
      · rw [Function.update_of_ne (hslot s.base le_rfl (by omega))]
        exact hm.2 (by omega)
  due_some {s r} hm := ⟨fun j => !(s.acked (j % ackBuffSize window)).getD false, fun j h1 h2 => by
    obtain ⟨b, hb, -⟩ := hm.1 j h1 h2
    simp [selective, sendMessageOpt, hb]⟩
  waitStep {s r} inp hs _ hm hlow hr hinp := by
    obtain ⟨packs, b, acked, he, h1, h2, h3, h4, h5, -⟩ :=
      hs.selectiveWait hf hm.1 hlow hr inp hinp
    rw [selective, he]
    exact ⟨h1, ⟨h2, h3⟩, h4, h5, rfl, rfl⟩

/-- In every reachable state a set mark of the window, and every number below it, stands
for a packet that the receiver has; the windows are ordered and the receiver's file is what
the packets below its window carry, the whole file once the sender has left its loop. -/
theorem selective_safety (hf : Fits file window window')
    (h : (transfer selective file window window').Reachable st) :
    st.snd.pc ≠ .undefined ∧
    (∀ k < st.snd.base, st.rcv.Accepted (2 * window') k) ∧
    (∀ k, st.snd.base ≤ k → k < st.snd.nextseqnum → st.snd.acked (k % (2 * window)) = some true →
      st.rcv.Accepted (2 * window') k) ∧
    st.snd.base ≤ st.rcv.firstneedrecv ∧ st.rcv.firstneedrecv ≤ st.snd.nextseqnum ∧
    st.snd.nextseqnum ≤ st.snd.base + window ∧
    st.rcv.written = firstBytes file st.rcv.firstneedrecv ∧
    (st.snd.hasLeft → st.snd.base = st.snd.totseq ∧ st.rcv.written = file) := by
  have hl := link_transfer (selectiveDiscipline file window window' hf) hf h
  have hnext := hl.sender.next
  have hwin := hl.sender.win
  refine ⟨hl.sender.defined, fun k hk => Or.inl (hk.trans_le hl.low), ?_, hl.low,
    hl.receiver.below, by omega, hl.written, fun hleft => ?_⟩
  · intro k h1 h2 hk
    obtain ⟨b, hb, hacc⟩ := hl.marks.1 k h1 h2
    rw [hf.ackBuffSize_eq, hk] at hb
    rw [← hf.buffSize_eq]
    exact hacc (by simpa using hb.symm)
  · obtain ⟨hbase, -, htotal⟩ := hl.sender.done hleft
    exact ⟨hbase.trans htotal.symm, hl.written_all hleft⟩

/-- A file of one byte sent twice over a retransmission, and acknowledged once. -/
def oneByteOptRun : List Move :=
  [.sender none false, .sender none false, .sender none false, .sender none false,
    .sender none false, .sender none true, .receiver (some (dataPacket [7] 0)) false,
    .sender none false, .sender none false, .sender none false, .sender none false,
    .sender (some (.bare rtpAck 0)) false, .sender none false, .sender none false,
    .sender none false]

theorem selective_safety_oneByte :
    ((transfer selective [7] 1 1).play (.afterStart [7] 5) oneByteOptRun).rcv.written = [7] := by
  have hf : Fits [7] 1 1 := by constructor <;> decide
  have h0 : (transfer selective [7] 1 1).Reachable (.afterStart [7] 5) := .init ⟨5, rfl⟩
  have hrun : (transfer selective [7] 1 1).Playable (.afterStart [7] 5) oneByteOptRun := by decide
  have hsafe := selective_safety hf (h0.play hrun)
  exact (hsafe.2.2.2.2.2.2.2 (by decide)).2

end NetworkingLabs.Rtp
