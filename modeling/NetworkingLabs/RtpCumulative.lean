import NetworkingLabs.RtpSystem

/-!
# The cumulative protocol

`sendMessage` against `recvMessage`: an ACK never names a number above the first one
the receiver needs, so the sender never passes the receiver.
-/
namespace NetworkingLabs.Rtp
open NumberedChunks TransitionSystem

variable {file : List UInt8} {window window' : ℕ} {s : Sender} {st : Session}

theorem SenderInv.cumulativeAck (h : SenderInv file window s) {seq : ℕ} (hlt : s.base < seq)
    (hseq : seq ≤ s.nextseqnum) :
    ∃ packs, sendMessage.onAck window s seq = { s with packs := packs, base := seq } ∧
      SenderInv file window { s with pc := .clock, packs := packs, base := seq } := by
  have hnext := h.next
  have hwin := h.win
  obtain ⟨packs, he, hlen, hget⟩ := deletePacks_spec (seq - s.base) s.packs
    s.base fun j h1 h2 => ⟨_, h.packs_live h1 (by omega)⟩
  refine ⟨packs, by simp [sendMessage, hlt, he], h.fp, hlen.trans h.length, ?_, h.seq, h.tot,
    hseq, h.next, ?_, by simp, by simp, by simp, by simp, by simp [Sender.hasLeft]⟩
  · intro i hi
    simp only at hi ⊢
    rw [hget i, h.packs i hi]
    by_cases h1 : i < s.base
    · rw [if_neg (by omega), if_pos h1, if_pos (by omega)]
    · by_cases h2 : i < seq
      · rw [if_pos (by omega), if_pos h2]
      · rw [if_neg (by omega), if_neg h1, if_neg h2]
  · show s.totseq ≤ seq + window
    omega

/-- What `revRTP` and the branch after it make of the sender: an ACK moves `base` to its
number if that is larger. -/
theorem SenderInv.cumulativeWait (h : SenderInv file window s)
    (inp : Option RtpPacket) (hinp : ∀ p ∈ inp, p.type = rtpAck → p.seqNum ≤ s.nextseqnum) :
    SenderInv file window (sendMessage.waitStep window s inp) ∧
    (sendMessage.waitStep window s inp).base =
      (match inp with
        | some p => if p.type = rtpAck then max s.base p.seqNum else s.base
        | none => s.base) ∧
    (sendMessage.waitStep window s inp).nextseqnum = s.nextseqnum ∧
    (sendMessage.waitStep window s inp).pc = .clock := by
  have hstay : SenderInv file window { s with pc := .clock } := h.goto (by simp)
  have hwait : s.pc ≠ .undefined := h.defined
  cases inp with
  | none =>
    have he : sendMessage.waitStep window s none = { s with pc := .clock } := by
      simp [SenderLoop.waitStep, sendMessage, hwait]
    rw [he]
    exact ⟨hstay, rfl, rfl, rfl⟩
  | some p =>
    by_cases ht : p.type = rtpAck
    · by_cases hlt : s.base < p.seqNum
      · obtain ⟨packs, hack, hinv⟩ := h.cumulativeAck hlt (hinp p rfl ht)
        have he : sendMessage.waitStep window s (some p) =
            { s with pc := .clock, packs := packs, base := p.seqNum } := by
          simp only [SenderLoop.waitStep, if_pos ht, hack, if_neg hwait]
          exact if_neg hwait
        rw [he]
        exact ⟨hinv, by simp [ht, hlt.le], rfl, rfl⟩
      · have he : sendMessage.waitStep window s (some p) = { s with pc := .clock } := by
          simp [SenderLoop.waitStep, sendMessage, ht, hlt, hwait]
        rw [he]
        exact ⟨hstay, by simp [ht, not_lt.mp hlt], rfl, rfl⟩
    · have he : sendMessage.waitStep window s (some p) = { s with pc := .clock } := by
        simp [SenderLoop.waitStep, sendMessage, ht, hwait]
      rw [he]
      exact ⟨hstay, by simp [ht], rfl, rfl⟩

/-- An ACK promises that everything below its number is in the file. -/
def cumulativeDiscipline (file : List UInt8) (window window' : ℕ) :
    Discipline cumulative file window window' where
  ackOK r k := k ≤ r.firstneedrecv
  marks _ _ := True
  ackOK_mono hg hk := hk.trans hg.first
  ackOK_end h := h
  ackOK_new _ _ _ := Nat.mod_le _ _
  marks_init _ _ _ := trivial
  marks_congr _ _ _ _ := trivial
  marks_mono _ _ := trivial
  onSend_eq s := ⟨s.acked, rfl⟩
  marks_send _ _ _ := trivial
  due_some _ := ⟨fun _ => true, fun _ _ _ => rfl⟩
  waitStep {s r} inp hs _ _ hlow hr hinp := by
    obtain ⟨h1, h2, h3, h4⟩ := hs.cumulativeWait inp
      fun p hp ht => (hinp p hp ht).trans hr.below
    refine ⟨h1, trivial, ?_, ?_, h3, h4⟩ <;> rw [cumulative, h2]
    · split
      · split <;> simp
      · exact le_rfl
    · split
      · split
        · exact max_le hlow (hinp _ rfl ‹_›)
        · exact hlow
      · exact hlow

/-- Without packets the sender never takes an ACK, and ACKs may be anything. -/
def emptyDiscipline (h : packetCount file = 0) : Discipline cumulative file window window' where
  ackOK _ _ := True
  marks _ _ := True
  ackOK_mono _ _ := trivial
  ackOK_end _ := trivial
  ackOK_new _ _ _ := trivial
  marks_init _ _ _ := trivial
  marks_congr _ _ _ _ := trivial
  marks_mono _ _ := trivial
  onSend_eq s := ⟨s.acked, rfl⟩
  marks_send _ _ _ := trivial
  due_some _ := ⟨fun _ => true, fun _ _ _ => rfl⟩
  waitStep {s _} _ hs hpc _ _ _ _ := by
    have hbusy := hs.busy (Or.inr hpc)
    have htot := hs.tot
    omega

/-- In every reachable state the windows are ordered and the file of the receiver is what
the packets below its window carry; once the sender has left its loop it is the file. -/
theorem cumulative_safety (hf : Fits file window window')
    (h : (transfer cumulative file window window').Reachable st) :
    st.snd.pc ≠ .undefined ∧
    st.snd.base ≤ st.rcv.firstneedrecv ∧ st.rcv.firstneedrecv ≤ st.snd.nextseqnum ∧
    st.snd.nextseqnum ≤ st.snd.base + window ∧
    st.rcv.written = firstBytes file st.rcv.firstneedrecv ∧
    (st.snd.hasLeft → st.snd.base = st.snd.totseq ∧ st.rcv.written = file) := by
  have hl := link_transfer (cumulativeDiscipline file window window') hf h
  have hnext := hl.sender.next
  have hwin := hl.sender.win
  refine ⟨hl.sender.defined, hl.low, hl.receiver.below, by omega, hl.written, fun hleft => ?_⟩
  obtain ⟨hbase, -, htotal⟩ := hl.sender.done hleft
  exact ⟨hbase.trans htotal.symm, hl.written_all hleft⟩

def oneByteRun : List Move :=
  [.sender none false, .sender none false, .sender none false, .sender none false,
    .sender none false, .receiver (some (dataPacket [7] 0)) false,
    .sender (some (.bare rtpAck 1)) false, .sender none false, .sender none false,
    .sender none false]

theorem cumulative_safety_oneByte :
    ((transfer cumulative [7] 1 1).play (.afterStart [7] 5) oneByteRun).rcv.written = [7] := by
  have hf : Fits [7] 1 1 := by constructor <;> decide
  have h0 : (transfer cumulative [7] 1 1).Reachable (.afterStart [7] 5) := .init ⟨5, rfl⟩
  have hrun : (transfer cumulative [7] 1 1).Playable (.afterStart [7] 5) oneByteRun := by decide
  have hsafe := cumulative_safety hf (h0.play hrun)
  exact (hsafe.2.2.2.2.2 (by decide)).2

end NetworkingLabs.Rtp
