import NetworkingLabs.ReorderBuffer
import NetworkingLabs.RtpReceiverRing

/-!
# The ring of slots is a reorder buffer

Whatever DATA packets arrive, the receiver with its `BUFFSIZE` slots writes what an unbounded
reorder buffer hands over, needs the same number next and sends the same ACKs.
-/
namespace NetworkingLabs.Rtp
open NumberedChunks

section Slots

/-- The slots hold, below the bound `hi`, what the buffer holds and has not handed over. -/
structure Mirrors (m hi : ℕ) (b : ReorderBuffer (List UInt8)) (r : Receiver) : Prop where
  first : r.firstneedrecv = b.next
  bytes : r.written = b.delivered.flatten
  slot : ∀ j p, r.packBuf j = some p → p.seqNum % m = j
  lower : ∀ j p, r.packBuf j = some p → b.next ≤ p.seqNum
  upper : ∀ j p, r.packBuf j = some p → p.seqNum < hi
  payload : ∀ j p, r.packBuf j = some p → b.held.lookup p.seqNum = some p.payload
  held : ∀ k x, b.next ≤ k → b.held.lookup k = some x → k < hi ∧ ∃ p, r.packBuf (k % m) = some p

variable {m hi window k n : ℕ} {b : ReorderBuffer (List UInt8)} {r : Receiver} {p : RtpPacket}

theorem mirrors_init (pc : ReceiverPC) : Mirrors m hi .empty (.init pc) := by
  constructor <;> simp [ReorderBuffer.empty, Receiver.init]

theorem Mirrors.mono {hi' : ℕ} (h : Mirrors m hi b r) (hle : hi ≤ hi') : Mirrors m hi' b r where
  first := h.first
  bytes := h.bytes
  slot := h.slot
  lower := h.lower
  upper j p hp := (h.upper j p hp).trans_le hle
  payload := h.payload
  held k x hk hx := ⟨(h.held k x hk hx).1.trans_le hle, (h.held k x hk hx).2⟩

/-- An occupied slot holds the very number that belongs there. -/
theorem Mirrors.slot_seqNum (h : Mirrors m hi b r) (hm : hi ≤ b.next + m) (hlo : b.next ≤ k)
    (hhi : k < hi) (hp : r.packBuf (k % m) = some p) : p.seqNum = k :=
  have hup := h.upper _ p hp
  eq_of_mod_eq b.next (h.lower _ p hp) (by omega) hlo (by omega) (h.slot _ p hp)

theorem Mirrors.lookup_eq_none (h : Mirrors m hi b r) {n : ℕ} (hlo : b.next ≤ n)
    (hn : r.packBuf (n % m) = none) : b.held.lookup n = none := by
  cases hx : b.held.lookup n with
  | none => rfl
  | some x =>
    obtain ⟨-, q, hq⟩ := h.held n x hlo hx
    rw [hn] at hq
    cases hq

/-- `if (pack_buf[buffidx] == nullptr)` asks whether the number has been accepted before. -/
theorem Mirrors.store (h : Mirrors m hi b r) (hm : hi ≤ b.next + m) (hlo : b.next ≤ p.seqNum)
    (hhi : p.seqNum < hi) : Mirrors m hi (b.hold p.seqNum p.payload) (r.store m p) := by
  cases hq : r.packBuf (p.seqNum % m) with
  | some q =>
    have hseq := h.slot_seqNum hm hlo hhi hq
    have hheld : b.held.lookup p.seqNum = some q.payload := by
      rw [← hseq]
      exact h.payload _ q hq
    have hb : b.hold p.seqNum p.payload = b := by simp [ReorderBuffer.hold, hheld]
    rw [hb, store_of_some hq]
    exact h
  | none =>
    have hheld := h.lookup_eq_none hlo hq
    rw [store_of_none hq]
    constructor
    case first =>
      rw [ReorderBuffer.hold_next]
      exact h.first
    case bytes =>
      rw [ReorderBuffer.hold_delivered]
      exact h.bytes
    case slot =>
      intro j q hj
      rcases update_some_eq_some hj with ⟨rfl, rfl⟩ | hj
      · rfl
      · exact h.slot j q hj
    case lower =>
      intro j q hj
      rw [ReorderBuffer.hold_next]
      rcases update_some_eq_some hj with ⟨rfl, rfl⟩ | hj
      · exact hlo
      · exact h.lower j q hj
    case upper =>
      intro j q hj
      rcases update_some_eq_some hj with ⟨rfl, rfl⟩ | hj
      · exact hhi
      · exact h.upper j q hj
    case payload =>
      intro j q hj
      rw [ReorderBuffer.lookup_hold]
      rcases update_some_eq_some hj with ⟨rfl, rfl⟩ | hj
      · rw [if_pos ⟨rfl, hheld⟩]
      · have hpay := h.payload j q hj
        rw [if_neg, hpay]
        rintro ⟨heq, -⟩
        rw [heq, hheld] at hpay
        cases hpay
    case held =>
      intro k x hk hx
      rw [ReorderBuffer.hold_next] at hk
      rw [ReorderBuffer.lookup_hold] at hx
      by_cases heq : k = p.seqNum
      · exact ⟨heq ▸ hhi, p, by simp [heq]⟩
      · rw [if_neg fun hc => heq hc.1] at hx
        obtain ⟨hlt, q, hq'⟩ := h.held k x hk hx
        refine ⟨hlt, q, ?_⟩
        have hne : k % m ≠ p.seqNum % m := mod_ne_mod_of_ne b.next hk (by omega) hlo (by omega) heq
        rw [← hq']
        exact Function.update_of_ne hne _ _

theorem Mirrors.download (h : Mirrors m hi b r) (hm : hi ≤ b.next + m)
    (hp : r.packBuf (b.next % m) = some p) (hseq : p.seqNum = b.next) :
    Mirrors m hi { b with next := b.next + 1, delivered := b.delivered ++ [p.payload] }
      (r.download m p) := by
  have hup : b.next < hi := hseq ▸ h.upper _ p hp
  have hold : ∀ {j q}, (r.download m p).packBuf j = some q →
      j ≠ b.next % m ∧ r.packBuf j = some q := by
    intro j q hq
    rw [← h.first]
    exact update_none_eq_some hq
  constructor
  · show r.firstneedrecv + 1 = b.next + 1
    rw [h.first]
  · show r.written ++ p.payload = (b.delivered ++ [p.payload]).flatten
    rw [h.bytes, List.flatten_append]
    simp
  · intro j q hq
    exact h.slot j q (hold hq).2
  · intro j q hq
    obtain ⟨hj, hq⟩ := hold hq
    have hlo := h.lower j q hq
    have hne : q.seqNum ≠ b.next := fun he => hj ((h.slot j q hq).symm.trans (he ▸ rfl))
    show b.next + 1 ≤ q.seqNum
    omega
  · intro j q hq
    exact h.upper j q (hold hq).2
  · intro j q hq
    exact h.payload j q (hold hq).2
  · intro k x hk hx
    have hk' : b.next + 1 ≤ k := hk
    obtain ⟨hlt, q, hq⟩ := h.held k x (Nat.le_of_succ_le hk') hx
    refine ⟨hlt, q, ?_⟩
    have hne : k % m ≠ r.firstneedrecv % m := by
      rw [h.first]
      exact mod_ne_mod_of_ne b.next (Nat.le_of_succ_le hk') (by omega) le_rfl (by omega) (by omega)
    rw [← hq]
    exact Function.update_of_ne hne _ _

/-- The two delivery loops take the same turns, and the ring's ends with an empty slot. -/
theorem Mirrors.deliver_turns (h : Mirrors m hi b r) (hm : hi ≤ b.next + m)
    (hn : hi ≤ b.next + n) : ∃ turns, Mirrors m hi (b.deliver turns) (deliver m n r) ∧
      (deliver m n r).packBuf ((deliver m n r).firstneedrecv % m) = none := by
  induction n generalizing b r with
  | zero =>
    refine ⟨0, h, ?_⟩
    cases hp : (deliver m 0 r).packBuf ((deliver m 0 r).firstneedrecv % m) with
    | none => rfl
    | some p =>
      have hlo := h.lower _ p hp
      have hup := h.upper _ p hp
      omega
  | succ n ih =>
    cases hp : r.packBuf (r.firstneedrecv % m) with
    | none =>
      rw [deliver_of_none _ hp]
      exact ⟨0, h, hp⟩
    | some p =>
      rw [deliver_of_some n hp]
      rw [h.first] at hp
      have hlo := h.lower _ p hp
      have hup := h.upper _ p hp
      have hseq : p.seqNum = b.next := h.slot_seqNum hm le_rfl (by omega) hp
      have hheld : b.held.lookup b.next = some p.payload := hseq ▸ h.payload _ p hp
      obtain ⟨turns, hmirrors, hhead⟩ := ih (h.download hm hp hseq)
        (by show hi ≤ b.next + 1 + m; omega) (by show hi ≤ b.next + 1 + n; omega)
      refine ⟨turns + 1, ?_, hhead⟩
      simpa only [ReorderBuffer.deliver, hheld] using hmirrors

/-- The delivery loop does what the reorder buffer does, and ends with an empty slot. -/
theorem Mirrors.deliver (h : Mirrors m hi b r) (hm : hi ≤ b.next + m) (hn : hi ≤ b.next + n) :
    Mirrors m hi b.settle (deliver m n r) ∧
      (deliver m n r).packBuf ((deliver m n r).firstneedrecv % m) = none := by
  obtain ⟨turns, hmirrors, hhead⟩ := h.deliver_turns hm hn
  have hended : (b.deliver turns).held.lookup (b.deliver turns).next = none := by
    cases hx : (b.deliver turns).held.lookup (b.deliver turns).next with
    | none => rfl
    | some x =>
      obtain ⟨-, p, hp⟩ := hmirrors.held _ x le_rfl hx
      rw [← hmirrors.first, hhead] at hp
      cases hp
  rw [b.settle_eq hended]
  exact ⟨hmirrors, hhead⟩

theorem Mirrors.accept (h : Mirrors m (b.next + window) b r) (hm : window ≤ m)
    (hin : b.next ≤ p.seqNum ∧ p.seqNum < b.next + window) :
    Mirrors m ((b.accept window p.seqNum p.payload).next + window)
      (b.accept window p.seqNum p.payload) (r.accept m p) ∧
    (r.accept m p).packBuf ((r.accept m p).firstneedrecv % m) = none := by
  have hstore := h.store (by omega) hin.1 hin.2
  have hnext : (b.hold p.seqNum p.payload).next = b.next := b.hold_next _ _
  obtain ⟨hmirrors, hhead⟩ := hstore.deliver (n := m) (by omega) (by omega)
  rw [ReorderBuffer.accept, if_pos hin]
  refine ⟨hmirrors.mono ?_, hhead⟩
  have hle := (b.hold p.seqNum p.payload).next_le_settle
  omega

end Slots

section Runs

def receive (L : ReceiverLoop) (window : ℕ) (r : Receiver) :
    List RtpPacket → Receiver × List RtpPacket
  | [] => (r, [])
  | p :: ps =>
    let out := L.step window r (some p) false
    let rest := receive L window out.1 ps
    (rest.1, out.2 ++ rest.2)

/-- What a reference receiver names in its ACK, from the buffer and the number that arrived. -/
abbrev Naming := ReorderBuffer (List UInt8) → ℕ → ℕ

def nextNaming : Naming := fun b _ => b.next
def ownNaming : Naming := fun _ s => s

def reference (naming : Naming) (window : ℕ) (b : ReorderBuffer (List UInt8)) :
    List RtpPacket → ReorderBuffer (List UInt8) × List ℕ
  | [] => (b, [])
  | p :: ps =>
    let b' := b.accept window p.seqNum p.payload
    let rest := reference naming window b' ps
    (rest.1, if b.next ≤ p.seqNum ∧ p.seqNum < b.next + window then
      naming b' p.seqNum :: rest.2 else rest.2)

def ReceiverLoop.Names (L : ReceiverLoop) (naming : Naming) : Prop :=
  ∀ r b p, r.firstneedrecv = b.next → L r p = naming b p.seqNum

def Naming.InWindow (naming : Naming) : Prop := ∀ b s, naming b s = b.next ∨ naming b s = s

private theorem recvMessage_names : recvMessage.Names nextNaming := fun _ _ _ h => h
private theorem recvMessageOpt_names : recvMessageOpt.Names ownNaming := fun _ _ _ _ => rfl

variable {L : ReceiverLoop} {naming : Naming} {m window : ℕ} {b : ReorderBuffer (List UInt8)}
  {r : Receiver} {p : RtpPacket} {ps : List RtpPacket}

/-- The receiver between two packets, and the reference that is as far. -/
structure Follows (window : ℕ) (b : ReorderBuffer (List UInt8)) (r : Receiver) : Prop where
  mirrors : Mirrors (2 * window) (b.next + window) b r
  head : r.packBuf (r.firstneedrecv % (2 * window)) = none
  counted : b.Counted
  pc : r.pc = .loop

private theorem follows_init : Follows window .empty (.init .loop) :=
  ⟨mirrors_init _, rfl, ReorderBuffer.counted_empty, rfl⟩

theorem Follows.step (h : Follows window b r) (hnames : L.Names naming) (hwindow : window < 2 ^ 30)
    (hdata : p.type = rtpData) :
    Follows window (b.accept window p.seqNum p.payload) (L.step window r (some p) false).1 ∧
    (L.step window r (some p) false).2 =
      if b.next ≤ p.seqNum ∧ p.seqNum < b.next + window then
        [.bare rtpAck (naming (b.accept window p.seqNum p.payload) p.seqNum)] else [] := by
  have hbuff : buffSize window = 2 * window := buffSize_eq (by omega)
  have hstep : L.step window r (some p) false = L.onData window r p :=
    L.step_data window false h.pc hdata
  obtain ⟨hcounted, -⟩ := h.counted.accept window p.seqNum p.payload
  rw [hstep]
  by_cases hin : b.next ≤ p.seqNum ∧ p.seqNum < b.next + window
  · obtain ⟨hmirrors, hhead⟩ := h.mirrors.accept (by omega) hin
    have hdo : L.onData window r p = (r.accept (2 * window) p,
        [.bare rtpAck (L (r.accept (2 * window) p) p)]) := by
      rw [L.onData_inside (by rwa [h.mirrors.first]), hbuff]
    rw [hdo, if_pos hin, hnames _ _ p hmirrors.first]
    refine ⟨⟨hmirrors, hhead, hcounted, ?_⟩, rfl⟩
    rw [accept_pc]
    exact h.pc
  · have hdo : L.onData window r p = (r, []) := L.onData_outside (by rwa [h.mirrors.first])
    have hb : b.accept window p.seqNum p.payload = b := if_neg hin
    rw [hdo, if_neg hin, hb]
    exact ⟨h, rfl⟩

/-- A whole run, as long as the numbers fit into 32 bits. -/
theorem Follows.receive (h : Follows window b r) (hnames : L.Names naming)
    (hnaming : naming.InWindow) (hwindow : window < 2 ^ 30) (hdata : ∀ p ∈ ps, p.type = rtpData)
    (hlen : b.held.length + ps.length ≤ 2 ^ 31) :
    Follows window (reference naming window b ps).1 (receive L window r ps).1 ∧
    (receive L window r ps).2 =
      (reference naming window b ps).2.map fun n => ⟨rtpAck, n, []⟩ := by
  induction ps generalizing b r with
  | nil => exact ⟨h, rfl⟩
  | cons p ps ih =>
    obtain ⟨hnext, hout⟩ := h.step hnames hwindow (hdata p List.mem_cons_self)
    obtain ⟨hcounted, hheld⟩ := h.counted.accept window p.seqNum p.payload
    rw [List.length_cons] at hlen
    obtain ⟨hrest, hacks⟩ := ih hnext (fun q hq => hdata q (List.mem_cons_of_mem p hq)) (by omega)
    refine ⟨hrest, ?_⟩
    rw [Rtp.receive, reference]
    simp only [hout, hacks]
    by_cases hin : b.next ≤ p.seqNum ∧ p.seqNum < b.next + window
    · have hfits : naming (b.accept window p.seqNum p.payload) p.seqNum < 2 ^ 32 := by
        have hle := h.counted.next_le
        have hle' := hcounted.next_le
        rcases hnaming (b.accept window p.seqNum p.payload) p.seqNum with he | he <;> omega
      rw [if_pos hin, if_pos hin, RtpPacket.bare, u32_eq hfits]
      rfl
    · rw [if_neg hin, if_neg hin]
      rfl

/-- What the receiver has written, needs next and has sent, and the state of its ring, against
what the reference has handed over, needs next and has named. -/
structure Refines (L : ReceiverLoop) (naming : Naming) (window : ℕ) (ps : List RtpPacket) :
    Prop where
  bytes : (receive L window (.init .loop) ps).1.written =
    (reference naming window .empty ps).1.delivered.flatten
  first : (receive L window (.init .loop) ps).1.firstneedrecv =
    (reference naming window .empty ps).1.next
  acks : (receive L window (.init .loop) ps).2 =
    (reference naming window .empty ps).2.map fun n => ⟨rtpAck, n, []⟩
  slot : ∀ j p, (receive L window (.init .loop) ps).1.packBuf j = some p →
    (receive L window (.init .loop) ps).1.firstneedrecv ≤ p.seqNum ∧
    p.seqNum < (receive L window (.init .loop) ps).1.firstneedrecv + window ∧
    p.seqNum % (2 * window) = j
  head : (receive L window (.init .loop) ps).1.packBuf
    ((receive L window (.init .loop) ps).1.firstneedrecv % (2 * window)) = none

private theorem refines_of_names (hnames : L.Names naming) (hnaming : naming.InWindow)
    (hwindow : window < 2 ^ 30) (hdata : ∀ p ∈ ps, p.type = rtpData) (hlen : ps.length ≤ 2 ^ 31) :
    Refines L naming window ps := by
  have hlen' : (ReorderBuffer.empty : ReorderBuffer (List UInt8)).held.length + ps.length ≤
      2 ^ 31 := by simpa [ReorderBuffer.empty] using hlen
  obtain ⟨hrun, hacks⟩ := follows_init.receive hnames hnaming hwindow hdata hlen'
  have hfirst := hrun.mirrors.first
  refine ⟨hrun.mirrors.bytes, hfirst, hacks, ?_, hrun.head⟩
  intro j p hp
  rw [hfirst]
  exact ⟨hrun.mirrors.lower j p hp, hrun.mirrors.upper j p hp, hrun.mirrors.slot j p hp⟩

/-- Both receivers are the reference receiver with their own naming of ACKs, whatever DATA
packets they get. -/
theorem ring_refines_reorderBuffer (hwindow : window < 2 ^ 30)
    (hdata : ∀ p ∈ ps, p.type = rtpData) (hlen : ps.length ≤ 2 ^ 31) :
    Refines recvMessage nextNaming window ps ∧ Refines recvMessageOpt ownNaming window ps :=
  ⟨refines_of_names recvMessage_names (fun _ _ => Or.inl rfl) hwindow hdata hlen,
    refines_of_names recvMessageOpt_names (fun _ _ => Or.inr rfl) hwindow hdata hlen⟩

/-- The second packet comes first, and once more with another payload. -/
def threeArrivals : List RtpPacket := [⟨rtpData, 1, [8]⟩, ⟨rtpData, 1, [9]⟩, ⟨rtpData, 0, [7]⟩]

theorem ring_refines_threeArrivals :
    (receive recvMessageOpt 2 (.init .loop) threeArrivals).1.written = [7, 8] := by
  have hrun : Refines recvMessage nextNaming 2 threeArrivals ∧
      Refines recvMessageOpt ownNaming 2 threeArrivals :=
    ring_refines_reorderBuffer (by decide) (by decide) (by decide)
  exact hrun.2.bytes.trans (by decide)

end Runs

end NetworkingLabs.Rtp
