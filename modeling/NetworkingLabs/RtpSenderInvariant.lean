import NetworkingLabs.RtpSender

/-!
# What the sender's loop keeps

The invariant of the variables that `sendMessage` and `sendMessageOpt` share: the
vector holds exactly the packets read so far, those below `base` deleted, and the
window arithmetic never wraps. The `acked` array is left to the selective loop.
-/
namespace NetworkingLabs.Rtp
open NumberedChunks

variable {file : List UInt8} {window window' : ℕ} {s : Sender}

/-- A turn of the loop that reads goes on to the test or appends a packet. -/
theorem readStep_cases (window : ℕ) (s : Sender) :
    readStep window s = { s with pc := .test } ∨ readStep window s = { s with
      fp := s.fp.drop freadSize
      packs := s.packs ++ [some (.data s.seqNum (s.fp.take freadSize))]
      seqNum := u32 (s.seqNum + 1)
      totseq := u32 (s.totseq + 1) } := by
  unfold readStep
  split
  · cases hbuf : s.fp.take freadSize with
    | nil => exact .inl rfl
    | cons b bs => exact .inr rfl
  · exact .inl rfl

@[simp] theorem readStep_base (window : ℕ) (s : Sender) : (readStep window s).base = s.base := by
  rcases readStep_cases window s with h | h <;> rw [h]

@[simp] theorem readStep_nextseqnum (window : ℕ) (s : Sender) :
    (readStep window s).nextseqnum = s.nextseqnum := by
  rcases readStep_cases window s with h | h <;> rw [h]

@[simp] theorem readStep_acked (window : ℕ) (s : Sender) :
    (readStep window s).acked = s.acked := by
  rcases readStep_cases window s with h | h <;> rw [h]

theorem readStep_pc (window : ℕ) (s : Sender) :
    (readStep window s).pc = s.pc ∨ (readStep window s).pc = .test := by
  rcases readStep_cases window s with h | h
  · rw [h]
    exact .inr rfl
  · rw [h]
    exact .inl rfl

theorem readStep_packs_length (window : ℕ) (s : Sender) :
    s.packs.length ≤ (readStep window s).packs.length := by
  rcases readStep_cases window s with h | h
  · rw [h]
  · rw [h, List.length_append]
    exact Nat.le_add_right _ _

/-- The sizes for which the 32-bit arithmetic and the arrays of both sides are exact. -/
structure Fits (file : List UInt8) (window window' : ℕ) : Prop where
  sender_pos : 1 ≤ window
  sender_lt : window < 2 ^ 30
  receiver_pos : 1 ≤ window'
  receiver_lt : window' < 2 ^ 30
  count_lt : packetCount file + window < 2 ^ 31

structure SenderInv (file : List UInt8) (window : ℕ) (s : Sender) : Prop where
  fp : s.fp = file.drop (freadSize * s.totseq)
  length : s.packs.length = s.totseq
  packs : ∀ i < s.totseq,
    s.packs[i]? = some (if i < s.base then none else some (dataPacket file i))
  seq : s.seqNum = s.totseq
  tot : s.totseq ≤ packetCount file
  low : s.base ≤ s.nextseqnum
  next : s.nextseqnum ≤ s.totseq
  win : s.totseq ≤ s.base + window
  defined : s.pc ≠ .undefined
  full : s.pc = .test → s.totseq = s.base + window ∨ s.totseq = packetCount file
  busy : s.pc = .send ∨ s.pc = .wait → s.base < s.totseq
  sent : s.pc = .wait → s.nextseqnum = s.totseq
  exit : s.hasLeft → s.base = packetCount file

theorem senderInv_init {pc : SenderPC} (startSeq : ℕ)
    (hpc : pc = .start ∨ pc = .read) : SenderInv file window (.init pc startSeq file) := by
  constructor <;> rcases hpc with rfl | rfl <;> simp [Sender.init, Sender.hasLeft]

theorem SenderInv.goto (h : SenderInv file window s) {pc : SenderPC}
    (hpc : pc = .read ∨ pc = .clock ∨ pc = .connecting ∨ pc = .refused) :
    SenderInv file window { s with pc := pc } := by
  obtain ⟨h1, h2, h3, h4, h5, h6, h7, h8, -, -, -, -, -⟩ := h
  refine ⟨h1, h2, h3, h4, h5, h6, h7, h8, ?_, ?_, ?_, ?_, ?_⟩ <;>
    rcases hpc with rfl | rfl | rfl | rfl <;> simp [Sender.hasLeft]

theorem SenderInv.packs_live (h : SenderInv file window s) {i : ℕ} (hlo : s.base ≤ i)
    (hhi : i < s.totseq) : s.packs[i]? = some (some (dataPacket file i)) := by
  rw [h.packs i hhi, if_neg (by omega)]

theorem SenderInv.done (h : SenderInv file window s) (hleft : s.hasLeft) :
    s.base = packetCount file ∧ s.nextseqnum = packetCount file ∧ s.totseq = packetCount file := by
  have hexit := h.exit hleft
  have hlow := h.low
  have hnext := h.next
  have htot := h.tot
  omega

section Fits

variable (hf : Fits file window window')
include hf

theorem SenderInv.u32_win (h : SenderInv file window s) :
    u32 (s.base + window) = s.base + window := by
  have := hf.count_lt
  have := h.low
  have := h.next
  have := h.tot
  exact u32_eq (by omega)

theorem SenderInv.readStep (h : SenderInv file window s) (hpc : s.pc = .read) :
    SenderInv file window (readStep window s) := by
  have hcount := hf.count_lt
  have htot := h.tot
  by_cases hwin : s.totseq < s.base + window
  · cases hbuf : s.fp.take freadSize with
    | nil =>
      have he : Rtp.readStep window s = { s with pc := .test } := by
        simp [Rtp.readStep, h.u32_win hf, hwin, hbuf]
      have hend : s.totseq = packetCount file := by
        have hnil : chunk freadSize file s.totseq = [] := by rw [chunk, ← h.fp, hbuf]
        have hle := (chunk_eq_nil_iff freadSize_pos).mp hnil
        exact le_antisymm htot hle
      rw [he]
      exact ⟨h.fp, h.length, h.packs, h.seq, h.tot, h.low, h.next, h.win, by simp,
        fun _ => Or.inr hend, by simp, by simp, by simp [Sender.hasLeft]⟩
    | cons b bs =>
      have hlt : s.totseq < packetCount file := by
        rw [packetCount, ← not_le, ← chunk_eq_nil_iff freadSize_pos, chunk, ← h.fp, hbuf]
        simp
      have hu : u32 (s.totseq + 1) = s.totseq + 1 := u32_eq (by omega)
      have he : Rtp.readStep window s = { s with
          fp := s.fp.drop freadSize
          packs := s.packs ++ [some (dataPacket file s.totseq)]
          seqNum := s.totseq + 1
          totseq := s.totseq + 1 } := by
        simp [Rtp.readStep, h.u32_win hf, hwin, hbuf, h.seq, hu, dataPacket, chunk, ← h.fp]
      rw [he]
      refine ⟨?_, by simp [h.length], ?_, rfl, hlt, h.low, h.next.trans (Nat.le_succ _), hwin,
        by simp [hpc], by simp [hpc], by simp [hpc], by simp [hpc], by simp [hpc, Sender.hasLeft]⟩
      · simp [h.fp, List.drop_drop, Nat.mul_succ]
      · intro i hi
        have hb := h.low.trans h.next
        rcases Nat.lt_succ_iff_lt_or_eq.mp hi with hi | rfl
        · rw [List.getElem?_append_left (by rw [h.length]; exact hi)]
          exact h.packs i hi
        · rw [List.getElem?_append_right (by rw [h.length]), if_neg (by simp; omega)]
          simp [h.length]
  · have he : Rtp.readStep window s = { s with pc := .test } := by
      simp [Rtp.readStep, h.u32_win hf, hwin]
    have hw := h.win
    rw [he]
    exact ⟨h.fp, h.length, h.packs, h.seq, h.tot, h.low, h.next, h.win, by simp,
      fun _ => Or.inl (by show s.totseq = s.base + window; omega), by simp, by simp,
      by simp [Sender.hasLeft]⟩

theorem SenderInv.testStep (h : SenderInv file window s) (hpc : s.pc = .test) :
    SenderInv file window { s with pc := if s.base = s.totseq then .left else .send } := by
  have hfull := h.full hpc
  have hpos := hf.sender_pos
  have hb := h.low.trans h.next
  refine ⟨h.fp, h.length, h.packs, h.seq, h.tot, h.low, h.next, h.win, ?_, ?_, ?_, ?_, ?_⟩
  all_goals by_cases hbt : s.base = s.totseq <;> simp [hbt, Sender.hasLeft]
  · omega
  · omega

/-- The next packet goes out for the first time. -/
theorem SenderInv.sendStep_eq (h : SenderInv file window s) (L : SenderLoop)
    (hlt : s.nextseqnum < s.totseq) : L.sendStep window s =
      ({ L.onSend window s with nextseqnum := s.nextseqnum + 1 },
        [dataPacket file s.nextseqnum]) := by
  have hcount := hf.count_lt
  have htot := h.tot
  have hwin : s.nextseqnum < s.base + window := hlt.trans_le h.win
  have hu : u32 (s.nextseqnum + 1) = s.nextseqnum + 1 := u32_eq (by omega)
  simp [SenderLoop.sendStep, h.u32_win hf, hlt, hwin, h.packs_live h.low hlt, hu]

end Fits

theorem sendStep_done (L : SenderLoop) (window : ℕ) (hge : s.totseq ≤ s.nextseqnum) :
    L.sendStep window s = ({ s with pc := .wait }, []) := by
  have hdone : ¬ (s.nextseqnum < s.totseq ∧ s.nextseqnum < u32 (s.base + window)) :=
    fun h => absurd h.1 (not_lt.mpr hge)
  rw [SenderLoop.sendStep, if_neg hdone]

theorem SenderInv.endStep (h : SenderInv file window s) (hpc : s.pc = .left) :
    SenderInv file window { s with pc := .ended } :=
  ⟨h.fp, h.length, h.packs, h.seq, h.tot, h.low, h.next, h.win, by simp, by simp, by simp,
    by simp, fun _ => h.exit (Or.inl hpc)⟩

theorem SenderInv.sendOne (h : SenderInv file window s) (hpc : s.pc = .send)
    (hlt : s.nextseqnum < s.totseq) (acked : ℕ → Option Bool) :
    SenderInv file window { s with acked := acked, nextseqnum := s.nextseqnum + 1 } :=
  ⟨h.fp, h.length, h.packs, h.seq, h.tot, h.low.trans (Nat.le_succ _), hlt, h.win, h.defined,
    h.full, h.busy, by simp [hpc], h.exit⟩

theorem SenderInv.sendDone (h : SenderInv file window s) (hpc : s.pc = .send)
    (hge : s.totseq ≤ s.nextseqnum) : SenderInv file window { s with pc := .wait } :=
  ⟨h.fp, h.length, h.packs, h.seq, h.tot, h.low, h.next, h.win, by simp, by simp,
    fun _ => h.busy (Or.inl hpc), fun _ => le_antisymm h.next hge, by simp [Sender.hasLeft]⟩

/-- Deleting a run of live packets succeeds and touches nothing else. -/
theorem deletePacks_spec (k : ℕ) (packs : List (Option RtpPacket)) (i : ℕ)
    (h : ∀ j, i ≤ j → j < i + k → ∃ p, packs[j]? = some (some p)) :
    ∃ packs', deletePacks packs i k = some packs' ∧ packs'.length = packs.length ∧
      ∀ j, packs'[j]? = if i ≤ j ∧ j < i + k then some none else packs[j]? := by
  induction k generalizing packs i with
  | zero => exact ⟨packs, rfl, rfl, fun j => by simp⟩
  | succ k ih =>
    obtain ⟨p, hp⟩ := h i le_rfl (by omega)
    have hi : i < packs.length := (List.getElem?_eq_some_iff.mp hp).1
    have hset : ∀ j, i + 1 ≤ j → (packs.set i none)[j]? = packs[j]? := fun j hj =>
      List.getElem?_set_ne (by omega)
    obtain ⟨packs', he, hl, hg⟩ := ih (packs.set i none) (i + 1) (by
      intro j hj hj'
      rw [hset j hj]
      exact h j (by omega) (by omega))
    refine ⟨packs', by simp [deletePacks, hp, he], by simpa using hl, ?_⟩
    intro j
    rw [hg j]
    by_cases hj : i + 1 ≤ j ∧ j < i + 1 + k
    · rw [if_pos hj, if_pos (by omega)]
    · rw [if_neg hj]
      by_cases hji : j = i
      · subst hji
        rw [if_pos (by omega)]
        simp [hi]
      · rw [if_neg (by omega), List.getElem?_set_ne (Ne.symm hji)]

theorem deletePacks_past (k : ℕ) (packs : List (Option RtpPacket)) (i : ℕ) (hi : i ≤ packs.length)
    (h : packs.length < i + k) : deletePacks packs i k = none := by
  induction k generalizing packs i with
  | zero => omega
  | succ k ih =>
    rw [deletePacks]
    by_cases hlt : i < packs.length
    · split
      · exact ih _ _ (by rwa [List.length_set]) (by rw [List.length_set]; omega)
      · rfl
    · rw [List.getElem?_eq_none (not_lt.mp hlt)]

/-- What a timeout sends again: the packets of `[base, nextseqnum)` that are due. -/
theorem resendFrom_eq {due : ℕ → Option Bool} {d : ℕ → Bool} {packs : List (Option RtpPacket)}
    (k : ℕ) {i : ℕ}
    (hp : ∀ j, i ≤ j → j < i + k → packs[j]? = some (some (dataPacket file j)))
    (hd : ∀ j, i ≤ j → j < i + k → due j = some (d j)) :
    resendFrom due packs i k = some (((List.range' i k).filter d).map (dataPacket file)) := by
  induction k generalizing i with
  | zero => rfl
  | succ k ih =>
    have hrec := ih (i := i + 1) (fun j h1 h2 => hp j (by omega) (by omega))
      (fun j h1 h2 => hd j (by omega) (by omega))
    have hpi := hp i le_rfl (by omega)
    have hdi := hd i le_rfl (by omega)
    cases hdv : d i with
    | false => simp [resendFrom, hdi, hdv, hrec, List.range'_succ]
    | true => simp [resendFrom, hdi, hdv, hrec, hpi, List.range'_succ]

theorem SenderInv.resend_eq (h : SenderInv file window s) (L : SenderLoop) {d : ℕ → Bool}
    (hd : ∀ j, s.base ≤ j → j < s.nextseqnum → L.due window s j = some (d j)) :
    L.resend window s = some
      (((List.range' s.base (s.nextseqnum - s.base)).filter d).map (dataPacket file)) := by
  have hlow := h.low
  have hnext := h.next
  refine resendFrom_eq _ (fun j h1 h2 => h.packs_live h1 (by omega)) fun j h1 h2 => ?_
  exact hd j h1 (by omega)

theorem SenderInv.clockStep_eq (h : SenderInv file window s) (L : SenderLoop) {d : ℕ → Bool}
    (hd : ∀ j, s.base ≤ j → j < s.nextseqnum → L.due window s j = some (d j)) :
    L.clockStep window s true = ({ s with pc := .read },
      ((List.range' s.base (s.nextseqnum - s.base)).filter d).map (dataPacket file)) := by
  simp [SenderLoop.clockStep, h.resend_eq L hd]

end NetworkingLabs.Rtp
