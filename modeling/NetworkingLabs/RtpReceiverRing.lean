import NetworkingLabs.RtpReceiver

/-!
# The receiver's ring of slots

The contents of the ring are described by a function from sequence numbers to
payloads: every slot holds the packet of a number of the window at its residue, and
the file holds the payloads of all smaller numbers.
-/
namespace NetworkingLabs.Rtp
open NumberedChunks

variable {f : ℕ → List UInt8} {m hi next window k : ℕ} {r : Receiver} {p : RtpPacket}

/-- The ring below the bound `hi`, and the file. -/
structure Ring (f : ℕ → List UInt8) (m hi : ℕ) (r : Receiver) : Prop where
  payload : ∀ j p, r.packBuf j = some p → p.payload = f p.seqNum
  slot : ∀ j p, r.packBuf j = some p → p.seqNum % m = j
  lower : ∀ j p, r.packBuf j = some p → r.firstneedrecv ≤ p.seqNum
  upper : ∀ j p, r.packBuf j = some p → p.seqNum < hi
  bytes : r.written = (List.range r.firstneedrecv).flatMap f

/-- The receiver between two packets: all it holds lies in its window and below `next`. -/
structure RingInv (f : ℕ → List UInt8) (m window next : ℕ) (r : Receiver) : Prop where
  ring : Ring f m (min (r.firstneedrecv + window) next) r
  head : r.packBuf (r.firstneedrecv % m) = none
  below : r.firstneedrecv ≤ next

theorem ringInv_init (pc : ReceiverPC) : RingInv f m window next (.init pc) := by
  refine ⟨⟨?_, ?_, ?_, ?_, rfl⟩, rfl, Nat.zero_le _⟩ <;> simp [Receiver.init]

theorem Ring.mono {hi' : ℕ} (h : Ring f m hi r) (hle : hi ≤ hi') : Ring f m hi' r :=
  ⟨h.payload, h.slot, h.lower, fun j p hp => (h.upper j p hp).trans_le hle, h.bytes⟩

theorem RingInv.mono {next' : ℕ} (h : RingInv f m window next r) (hle : next ≤ next') :
    RingInv f m window next' r :=
  ⟨h.ring.mono (by omega), h.head, h.below.trans hle⟩

theorem Ring.head_seqNum (h : Ring f m hi r) (hm : hi ≤ r.firstneedrecv + m)
    (hp : r.packBuf (r.firstneedrecv % m) = some p) : p.seqNum = r.firstneedrecv := by
  have hlo := h.lower _ p hp
  have hhi := h.upper _ p hp
  exact eq_of_mod_eq r.firstneedrecv hlo (by omega) le_rfl (by omega) (h.slot _ p hp)

theorem update_none_eq_some {j : ℕ} {q : RtpPacket} {buf : ℕ → Option RtpPacket} {i : ℕ}
    (h : Function.update buf i none j = some q) : j ≠ i ∧ buf j = some q := by
  by_cases hj : j = i
  · subst hj
    simp at h
  · exact ⟨hj, by simpa [hj] using h⟩

theorem update_some_eq_some {j : ℕ} {q : RtpPacket} {buf : ℕ → Option RtpPacket} {i : ℕ}
    (h : Function.update buf i (some p) j = some q) : (j = i ∧ q = p) ∨ buf j = some q := by
  by_cases hj : j = i
  · subst hj
    left
    simpa [eq_comm] using h
  · right
    simpa [hj] using h

theorem Ring.download (h : Ring f m hi r) (hm : hi ≤ r.firstneedrecv + m)
    (hp : r.packBuf (r.firstneedrecv % m) = some p) : Ring f m hi (r.download m p) := by
  have hseq := h.head_seqNum hm hp
  refine ⟨?_, ?_, ?_, ?_, ?_⟩
  · intro j q hq
    exact h.payload j q (update_none_eq_some hq).2
  · intro j q hq
    exact h.slot j q (update_none_eq_some hq).2
  · intro j q hq
    obtain ⟨hj, hq⟩ := update_none_eq_some hq
    have hlo := h.lower j q hq
    have hne : q.seqNum ≠ r.firstneedrecv := fun he => hj ((h.slot j q hq).symm.trans (he ▸ rfl))
    show r.firstneedrecv + 1 ≤ q.seqNum
    omega
  · intro j q hq
    exact h.upper j q (update_none_eq_some hq).2
  · show r.written ++ p.payload = (List.range (r.firstneedrecv + 1)).flatMap f
    rw [h.bytes, h.payload _ p hp, hseq]
    simp [List.range_succ]

theorem Ring.download_accepted (h : Ring f m hi r) (hm : hi ≤ r.firstneedrecv + m)
    (hk : r.Accepted m k) : (r.download m p).Accepted m k := by
  rcases hk with hk | ⟨q, hq, rfl⟩
  · exact Or.inl (Nat.lt_succ_of_lt hk)
  · by_cases he : q.seqNum = r.firstneedrecv
    · exact Or.inl (Nat.lt_succ_of_le he.le)
    · right
      refine ⟨q, ?_, rfl⟩
      have hlo := h.lower _ q hq
      have hhi := h.upper _ q hq
      have hne : q.seqNum % m ≠ r.firstneedrecv % m :=
        mod_ne_mod_of_ne r.firstneedrecv hlo (by omega) le_rfl (by omega) he
      simpa [Receiver.download, hne] using hq

/-- The delivery loop ends with the slot of the first needed number empty; it moves
packets from the ring to the file and forgets none. -/
theorem deliver_spec (n : ℕ) (h : Ring f m hi r) (hlo : r.firstneedrecv ≤ hi)
    (hm : hi ≤ r.firstneedrecv + m) (hn : hi ≤ r.firstneedrecv + n) :
    Ring f m hi (deliver m n r) ∧
    r.firstneedrecv ≤ (deliver m n r).firstneedrecv ∧ (deliver m n r).firstneedrecv ≤ hi ∧
    (deliver m n r).packBuf ((deliver m n r).firstneedrecv % m) = none ∧
    (deliver m n r).pc = r.pc ∧
    ∀ k, r.Accepted m k → (deliver m n r).Accepted m k := by
  induction n generalizing r with
  | zero =>
    refine ⟨h, le_rfl, hlo, ?_, rfl, fun _ hk => hk⟩
    cases hp : (deliver m 0 r).packBuf ((deliver m 0 r).firstneedrecv % m) with
    | none => rfl
    | some p =>
      have hp' := h.lower _ p hp
      have hp'' := h.upper _ p hp
      omega
  | succ n ih =>
    cases hp : r.packBuf (r.firstneedrecv % m) with
    | none =>
      rw [deliver_of_none _ hp]
      exact ⟨h, le_rfl, hlo, hp, rfl, fun _ hk => hk⟩
    | some p =>
      have hseq := h.head_seqNum hm hp
      have hup := h.upper _ p hp
      have hfst : (r.download m p).firstneedrecv = r.firstneedrecv + 1 := rfl
      obtain ⟨h1, h2, h3, h4, h5, h6⟩ :=
        ih (h.download hm hp) (by omega) (by omega) (by omega)
      rw [deliver_of_some n hp]
      exact ⟨h1, by omega, h3, h4, h5, fun k hk => h6 k (h.download_accepted hm hk)⟩

private theorem deliver_progress {n : ℕ} (h : Ring f m hi r) (hm : hi ≤ r.firstneedrecv + m)
    (hn : hi ≤ r.firstneedrecv + (n + 1)) (hp : r.packBuf (r.firstneedrecv % m) = some p) :
    r.firstneedrecv < (deliver m (n + 1) r).firstneedrecv := by
  have hseq := h.head_seqNum hm hp
  have hup := h.upper _ p hp
  have hfst : (r.download m p).firstneedrecv = r.firstneedrecv + 1 := rfl
  obtain ⟨-, h2, -⟩ := deliver_spec n (h.download hm hp) (by omega) (by omega) (by omega)
  rw [deliver_of_some n hp]
  omega

section Accept

variable (h : RingInv f m window next r) (hm : window ≤ m)
  (hlo : r.firstneedrecv ≤ p.seqNum) (hhi : p.seqNum < r.firstneedrecv + window)
  (hpay : p.payload = f p.seqNum) (hnext : p.seqNum < next)

include h hm hlo hhi in
/-- An occupied slot holds the very number that is looked up. -/
theorem RingInv.slot_occupied {q : RtpPacket} (hq : r.packBuf (p.seqNum % m) = some q) :
    q.seqNum = p.seqNum := by
  have hql := h.ring.lower _ q hq
  have hqu := h.ring.upper _ q hq
  exact eq_of_mod_eq r.firstneedrecv hql (by omega) hlo (by omega) (h.ring.slot _ q hq)

include h hm hlo hhi in
theorem RingInv.store_slot : ∃ q, (r.store m p).packBuf (p.seqNum % m) = some q ∧
    q.seqNum = p.seqNum := by
  cases hq : r.packBuf (p.seqNum % m) with
  | none => exact ⟨p, by simp [store_of_none hq], rfl⟩
  | some q => exact ⟨q, by rw [store_of_some hq, hq], h.slot_occupied hm hlo hhi hq⟩

include h hlo hhi hpay hnext in
theorem RingInv.store_ring :
    Ring f m (min (r.firstneedrecv + window) next) (r.store m p) := by
  cases hq : r.packBuf (p.seqNum % m) with
  | some q =>
    rw [store_of_some hq]
    exact h.ring
  | none =>
    rw [store_of_none hq]
    refine ⟨?_, ?_, ?_, ?_, h.ring.bytes⟩ <;> intro j q hj <;>
      rcases update_some_eq_some hj with ⟨rfl, rfl⟩ | hj
    · exact hpay
    · exact h.ring.payload j q hj
    · rfl
    · exact h.ring.slot j q hj
    · exact hlo
    · exact h.ring.lower j q hj
    · exact lt_min hhi hnext
    · exact h.ring.upper j q hj

private theorem store_accepted (hk : r.Accepted m k) : (r.store m p).Accepted m k := by
  cases hq : r.packBuf (p.seqNum % m) with
  | some q =>
    rwa [store_of_some hq]
  | none =>
    rcases hk with hk | ⟨q, hkq, rfl⟩
    · left
      rwa [store_firstneedrecv]
    · right
      have hne : q.seqNum % m ≠ p.seqNum % m := by
        intro he
        simp [he, hq] at hkq
      exact ⟨q, by simp [store_of_none hq, hne, hkq], rfl⟩

include h hm hlo hhi hpay hnext in
/-- Accepting a packet of the window keeps the invariant, forgets nothing and takes it. -/
theorem RingInv.accept_spec : RingInv f m window next (r.accept m p) ∧
    r.firstneedrecv ≤ (r.accept m p).firstneedrecv ∧ (r.accept m p).pc = r.pc ∧
    (∀ k, r.Accepted m k → (r.accept m p).Accepted m k) ∧
    (r.accept m p).Accepted m p.seqNum := by
  obtain ⟨h1, h2, h3, h4, h5, h6⟩ :=
    deliver_spec m (h.store_ring hlo hhi hpay hnext) (by have := h.below; simp; omega)
      (by simp; omega) (by simp; omega)
  simp only [store_firstneedrecv, store_pc] at h2 h5
  refine ⟨⟨h1.mono ?_, h4, ?_⟩, h2, h5, fun k hk => h6 k (store_accepted hk), h6 _ ?_⟩
  · show _ ≤ min ((r.accept m p).firstneedrecv + window) next
    have : r.firstneedrecv ≤ (r.accept m p).firstneedrecv := h2
    omega
  · exact h3.trans (min_le_right _ _)
  · exact Or.inr (h.store_slot hm hlo hhi)

include h hm hhi hpay hnext in
/-- Accepting the needed packet moves the window. -/
theorem RingInv.accept_progress (heq : p.seqNum = r.firstneedrecv) :
    r.firstneedrecv < (r.accept m p).firstneedrecv := by
  obtain ⟨q, hq, -⟩ := h.store_slot hm heq.ge hhi
  obtain ⟨n, rfl⟩ : ∃ n, m = n + 1 := ⟨m - 1, by omega⟩
  have hq' : (r.store (n + 1) p).packBuf ((r.store (n + 1) p).firstneedrecv % (n + 1)) =
      some q := by
    rw [store_firstneedrecv, ← heq]
    exact hq
  have hlt := deliver_progress (n := n) (h.store_ring heq.ge hhi hpay hnext)
    (by simp; omega) (by simp; omega) hq'
  rwa [store_firstneedrecv] at hlt

end Accept

/-- All numbers below the first needed one have been accepted, and no later one has
unless its packet is held. -/
theorem RingInv.not_accepted_head (h : RingInv f m window next r) :
    ¬ r.Accepted m r.firstneedrecv := by
  rintro (hk | ⟨q, hq, -⟩)
  · exact lt_irrefl _ hk
  · rw [h.head] at hq
    cases hq

end NetworkingLabs.Rtp
