import NetworkingLabs.RtpReorder
import NetworkingLabs.TransitionSystem
import Mathlib.Data.List.Pairwise

/-!
# The byte count of the RTP receiver

`recvMessage` and `recvMessageOpt` return `total_recv_bytes`, which nothing is added to. What they
would have to return is described by the packets handed to `Download`.
-/
namespace NetworkingLabs.Rtp
open NumberedChunks

section Count

def due (m : ℕ) (packBuf : ℕ → Option RtpPacket) (first : ℕ) : ℕ → List RtpPacket
  | 0 => []
  | n + 1 => match packBuf (first % m) with
    | none => []
    | some p => p :: due m packBuf (first + 1) n

def Receiver.Takes (window : ℕ) (r : Receiver) (p : RtpPacket) : Prop :=
  r.pc = .loop ∧ p.type = rtpData ∧ r.firstneedrecv ≤ p.seqNum ∧
    p.seqNum < r.firstneedrecv + window

instance (window : ℕ) (r : Receiver) (p : RtpPacket) : Decidable (r.Takes window p) :=
  inferInstanceAs (Decidable (_ ∧ _))

/-- The packets needed next without a gap, once the one that arrived is in its slot. -/
def Receiver.completed (window : ℕ) (r : Receiver) : Option RtpPacket → List RtpPacket
  | none => []
  | some p => if r.Takes window p then
      due (buffSize window) (r.store (buffSize window) p).packBuf r.firstneedrecv (buffSize window)
    else []

/-- A receiver with its `total_recv_bytes`, and beside it the packets that `Download` was called
for. -/
structure Reception where
  receiver : Receiver
  totalRecvBytes : ℤ
  delivered : List RtpPacket

namespace Reception

def start : Reception := ⟨.init .loop, 0, []⟩

def next (L : ReceiverLoop) (window : ℕ) (st : Reception) (i : Option RtpPacket × Bool) :
    Reception where
  receiver := (L.step window st.receiver i.1 i.2).1
  totalRecvBytes := st.totalRecvBytes
  delivered := st.delivered ++ st.receiver.completed window i.1

def returned (st : Reception) : Option ℤ :=
  if st.receiver.pc = .closed then some st.totalRecvBytes else none

/-- The lengths of the delivered packets, each number counted once. -/
def counted (st : Reception) : ℕ :=
  ((st.delivered.pwFilter (·.seqNum ≠ ·.seqNum)).map (·.payload.length)).sum

/-- The returned value is the number of bytes in the file, and that of the delivered packets. -/
def Reported (st : Reception) : Prop :=
  st.returned = some (st.receiver.written.length : ℤ) ∧ st.receiver.written.length = st.counted

instance (st : Reception) : Decidable st.Reported := inferInstanceAs (Decidable (_ ∧ _))

/-- The packets that are needed next without a gap are empty ones, if there are any. -/
def NothingDue (window : ℕ) (st : Reception) (i : Option RtpPacket × Bool) : Prop :=
  ∀ q ∈ st.receiver.completed window i.1, q.payload = []

instance (window : ℕ) (st : Reception) (i : Option RtpPacket × Bool) :
    Decidable (st.NothingDue window i) :=
  inferInstanceAs (Decidable (∀ q ∈ _, _))

end Reception

/-- Any packets may come in any order, and silence at any time; `packseq % BUFFSIZE` with no slots
ends the program. -/
def receptions (L : ReceiverLoop) (window : ℕ) :
    TransitionSystem Reception (Option RtpPacket × Bool) where
  init st := st = .start
  enabled st i := ∀ p ∈ i.1, st.receiver.Takes window p → buffSize window ≠ 0
  next := Reception.next L window

instance (L : ReceiverLoop) (window : ℕ) (st : Reception) (i : Option RtpPacket × Bool) :
    Decidable ((receptions L window).enabled st i) :=
  inferInstanceAs (Decidable (∀ p ∈ i.1, st.receiver.Takes window p → buffSize window ≠ 0))

end Count

section Delivery

variable {m n window first : ℕ} {packBuf : ℕ → Option RtpPacket} {r : Receiver} {p : RtpPacket}
  {inp : Option RtpPacket}

private theorem due_of_none (n : ℕ) (h : packBuf (first % m) = none) :
    due m packBuf first n = [] := by
  cases n with
  | zero => rfl
  | succ n => simp only [due, h]

private theorem due_of_some (n : ℕ) (h : packBuf (first % m) = some p) :
    due m packBuf first (n + 1) = p :: due m packBuf (first + 1) n := by
  simp only [due, h]

/-- Emptying the slot in front of as many as there are changes nothing. -/
theorem due_update (hn : n < m) (j : ℕ) (hj : j < first) (hfirst : first + n ≤ j + m) :
    due m (Function.update packBuf (j % m) none) first n = due m packBuf first n := by
  induction n generalizing first with
  | zero => rfl
  | succ n ih =>
    have hne : first % m ≠ j % m :=
      mod_ne_mod_of_ne j hj.le (by omega) le_rfl (by omega) (by omega)
    have hslot : Function.update packBuf (j % m) none (first % m) = packBuf (first % m) :=
      Function.update_of_ne hne _ _
    cases hp : packBuf (first % m) with
    | none => rw [due_of_none _ (hslot.trans hp), due_of_none _ hp]
    | some p =>
      rw [due_of_some n (hslot.trans hp), due_of_some n hp, ih (by omega) (by omega) (by omega)]

/-- The delivery loop goes through the packets that are due. -/
theorem deliver_due (hn : n ≤ m) :
    (deliver m n r).written =
        r.written ++ (due m r.packBuf r.firstneedrecv n).flatMap RtpPacket.payload ∧
      (deliver m n r).firstneedrecv =
        r.firstneedrecv + (due m r.packBuf r.firstneedrecv n).length := by
  induction n generalizing r with
  | zero => exact ⟨(List.append_nil _).symm, rfl⟩
  | succ n ih =>
    cases hp : r.packBuf (r.firstneedrecv % m) with
    | none =>
      rw [deliver_of_none _ hp, due_of_none _ hp]
      exact ⟨(List.append_nil _).symm, rfl⟩
    | some p =>
      have hrest : due m (r.download m p).packBuf (r.download m p).firstneedrecv n =
          due m r.packBuf (r.firstneedrecv + 1) n :=
        due_update (by omega) r.firstneedrecv (Nat.lt_succ_self _)
          (by show r.firstneedrecv + 1 + n ≤ _; omega)
      obtain ⟨hwritten, hfirst⟩ := ih (r := r.download m p) (by omega)
      rw [hrest] at hwritten hfirst
      rw [deliver_of_some n hp, due_of_some n hp, hwritten, hfirst]
      constructor
      · simp [Receiver.download]
      · show r.firstneedrecv + 1 + _ = _
        rw [List.length_cons]
        omega

private theorem step_of_takes (L : ReceiverLoop) (silent : Bool) (h : r.Takes window p) :
    (L.step window r (some p) silent).1 = r.accept (buffSize window) p := by
  obtain ⟨hpc, hdata, hin⟩ := h
  rw [L.step_data window silent hpc hdata, L.onData_inside hin]

private theorem step_of_not_takes (L : ReceiverLoop) (silent : Bool)
    (h : ∀ p ∈ inp, ¬ r.Takes window p) : (L.step window r inp silent).1.packBuf = r.packBuf ∧
      (L.step window r inp silent).1.firstneedrecv = r.firstneedrecv ∧
      (L.step window r inp silent).1.written = r.written := by
  cases hpc : r.pc with
  | listen =>
    cases inp with
    | none => simp [ReceiverLoop.step, hpc]
    | some p => by_cases hstart : p.type = rtpStart <;> simp [ReceiverLoop.step, hpc, hstart]
  | loop =>
    cases inp with
    | none => cases silent <;> simp [ReceiverLoop.step, hpc]
    | some p =>
      by_cases hend : p.type = rtpEnd
      · simp [ReceiverLoop.step, hpc, hend]
      · by_cases hdata : p.type = rtpData
        · have hkept : L.onData window r p = (r, []) :=
            L.onData_outside fun hin => h p rfl ⟨hpc, hdata, hin⟩
          simp [ReceiverLoop.step, hpc, hend, hkept]
        · simp [ReceiverLoop.step, hpc, hend, hdata]
  | closed => simp [ReceiverLoop.step, hpc]

/-- Either a packet is accepted, or the slots and the file stay as they are. -/
theorem step_cases (L : ReceiverLoop) (window : ℕ) (r : Receiver) (inp : Option RtpPacket)
    (silent : Bool) :
    (∃ p, inp = some p ∧ r.Takes window p ∧
      (L.step window r inp silent).1 = r.accept (buffSize window) p) ∨
    r.completed window inp = [] ∧
      (L.step window r inp silent).1.packBuf = r.packBuf ∧
      (L.step window r inp silent).1.firstneedrecv = r.firstneedrecv ∧
      (L.step window r inp silent).1.written = r.written := by
  by_cases h : ∀ p ∈ inp, ¬ r.Takes window p
  · refine Or.inr ⟨?_, step_of_not_takes L silent h⟩
    cases inp with
    | none => rfl
    | some p => exact if_neg (h p rfl)
  · obtain ⟨p, rfl, htakes⟩ : ∃ p, inp = some p ∧ r.Takes window p := by simpa using h
    exact Or.inl ⟨p, rfl, htakes, step_of_takes L silent htakes⟩

private theorem step_completed (L : ReceiverLoop) (window : ℕ) (r : Receiver)
    (inp : Option RtpPacket) (silent : Bool) :
    (L.step window r inp silent).1.written =
        r.written ++ (r.completed window inp).flatMap RtpPacket.payload ∧
      (L.step window r inp silent).1.firstneedrecv =
        r.firstneedrecv + (r.completed window inp).length := by
  rcases step_cases L window r inp silent with
    ⟨p, rfl, htakes, haccept⟩ | ⟨hnone, -, hfirst, hwritten⟩
  · have hdeliver := deliver_due (r := r.store (buffSize window) p) (le_refl (buffSize window))
    rw [store_written, store_firstneedrecv] at hdeliver
    rw [haccept, Receiver.completed, if_pos htakes]
    exact hdeliver
  · rw [hnone, hfirst, hwritten]
    exact ⟨(List.append_nil _).symm, rfl⟩

end Delivery

section Runs

variable {L : ReceiverLoop} {window : ℕ} {st : Reception}

structure Uncounted (st : Reception) : Prop where
  bytes : st.receiver.written = st.delivered.flatMap RtpPacket.payload
  total : st.totalRecvBytes = 0

theorem uncounted_of_reachable (h : (receptions L window).Reachable st) : Uncounted st := by
  refine h.invariant ?_ ?_
  · rintro st rfl
    exact ⟨rfl, rfl⟩
  · intro st i hst _
    refine ⟨?_, hst.total⟩
    show (L.step window st.receiver i.1 i.2).1.written =
      (st.delivered ++ st.receiver.completed window i.1).flatMap RtpPacket.payload
    rw [(step_completed L window st.receiver i.1 i.2).1, hst.bytes, List.flatMap_append]

theorem Uncounted.reported_iff_nil (h : Uncounted st) (hend : st.receiver.pc = .closed) :
    st.Reported ↔ st.receiver.written = [] := by
  have hreturned : st.returned = some 0 := by
    rw [Reception.returned, if_pos hend, h.total]
  rw [Reception.Reported, hreturned]
  constructor
  · rintro ⟨hlength, -⟩
    have hzero : (st.receiver.written.length : ℤ) = 0 := (Option.some.inj hlength).symm
    exact List.eq_nil_of_length_eq_zero (Int.natCast_eq_zero.mp hzero)
  · intro hnil
    have hempty : ∀ p ∈ st.delivered, p.payload = [] := by
      rw [h.bytes] at hnil
      exact List.flatMap_eq_nil_iff.mp hnil
    have hcounted : st.counted = 0 := by
      refine List.sum_eq_zero_iff_forall_eq_nat.mpr fun l hl => ?_
      obtain ⟨p, hp, rfl⟩ := List.mem_map.mp hl
      rw [hempty p (List.pwFilter_subset _ hp), List.length_nil]
    rw [hnil, hcounted]
    exact ⟨rfl, rfl⟩

private theorem next_written_eq_nil (L : ReceiverLoop) (window : ℕ) (st : Reception)
    (i : Option RtpPacket × Bool) :
    (st.next L window i).receiver.written = [] ↔
      st.receiver.written = [] ∧ st.NothingDue window i := by
  have hstep := (step_completed L window st.receiver i.1 i.2).1
  rw [Reception.next, hstep, List.append_eq_nil_iff, List.flatMap_eq_nil_iff, Reception.NothingDue]

/-- Once the loop has ended, the value returned is right exactly if the file has been empty all
along. -/
theorem reported_iff_throughout {is : List (Option RtpPacket × Bool)}
    (h : (receptions L window).Playable .start is)
    (hend : ((receptions L window).play .start is).receiver.pc = .closed) :
    ((receptions L window).play .start is).Reported ↔
      (receptions L window).Throughout (·.receiver.written = []) .start is := by
  have hreach : (receptions L window).Reachable ((receptions L window).play .start is) :=
    (TransitionSystem.Reachable.init rfl).play h
  rw [(uncounted_of_reachable hreach).reported_iff_nil hend]
  exact (TransitionSystem.throughout_iff_play
    (fun st i hs => ((next_written_eq_nil L window st i).mp hs).1) _ _).symm

/-- Over any packets in any order, and whichever way the loop ends, the value returned is the
number of bytes in the file exactly if every packet that was due on the way was empty. -/
theorem reported_iff_nothingDue (L : ReceiverLoop) (window : ℕ)
    {is : List (Option RtpPacket × Bool)} (h : (receptions L window).Playable .start is)
    (hend : ((receptions L window).play .start is).receiver.pc = .closed) :
    ((receptions L window).play .start is).Reported ↔
      (receptions L window).Meets (Reception.NothingDue window) .start is := by
  rw [reported_iff_throughout h hend]
  exact TransitionSystem.throughout_iff_meets (S := receptions L window)
    (I := (·.receiver.written = [])) (fun _ hs => hs)
    (fun st i hs hdue => (next_written_eq_nil L window st i).mpr ⟨hs, hdue⟩)
    (fun st i _ hs => ((next_written_eq_nil L window st i).mp hs).2) rfl is

/-- The connection ends with a packet missing, after a later one and a repetition of it. -/
def headMissing : List (Option RtpPacket × Bool) :=
  [(some ⟨rtpData, 1, [7]⟩, false), (some ⟨rtpData, 1, [7]⟩, false), (none, true)]

theorem reported_headMissing :
    ((receptions recvMessage 2).play .start headMissing).Reported ∧
      ((receptions recvMessageOpt 2).play .start headMissing).Reported :=
  ⟨(reported_iff_nothingDue recvMessage 2 (by decide) (by decide)).mpr (by decide),
    (reported_iff_nothingDue recvMessageOpt 2 (by decide) (by decide)).mpr (by decide)⟩

def oneByte : List (Option RtpPacket × Bool) :=
  [(some ⟨rtpData, 0, [7]⟩, false), (some ⟨rtpEnd, 1, []⟩, false)]

/-- One byte is written and zero is returned. -/
theorem oneByte_not_reported :
    ((receptions recvMessage 2).Playable .start oneByte ∧
      ((receptions recvMessage 2).play .start oneByte).receiver.written = [7] ∧
      ((receptions recvMessage 2).play .start oneByte).returned = some 0 ∧
      ¬ ((receptions recvMessage 2).play .start oneByte).Reported) ∧
    (receptions recvMessageOpt 2).Playable .start oneByte ∧
      ((receptions recvMessageOpt 2).play .start oneByte).receiver.written = [7] ∧
      ((receptions recvMessageOpt 2).play .start oneByte).returned = some 0 ∧
      ¬ ((receptions recvMessageOpt 2).play .start oneByte).Reported := by
  decide

end Runs

section Head

variable {L : ReceiverLoop} {window : ℕ} {st : Reception} {i : Option RtpPacket × Bool}

def Carries (_ : Reception) (i : Option RtpPacket × Bool) : Prop :=
  ∀ p ∈ i.1, p.type = rtpData → p.payload ≠ []

def HeadMissing (window : ℕ) (st : Reception) (i : Option RtpPacket × Bool) : Prop :=
  ∀ p ∈ i.1, st.receiver.Takes window p → p.seqNum ≠ 0

structure Headless (st : Reception) : Prop where
  first : st.receiver.firstneedrecv = 0
  slot : st.receiver.packBuf 0 = none
  written : st.receiver.written = []

theorem Headless.next (L : ReceiverLoop) (h : Headless st) (hwindow : window ≤ buffSize window)
    (hi : HeadMissing window st i) : Headless (st.next L window i) := by
  obtain ⟨inp, silent⟩ := i
  rcases step_cases L window st.receiver inp silent with
    ⟨p, rfl, htakes, haccept⟩ | ⟨-, hbuf, hfirst, hwritten⟩
  · have hne : p.seqNum ≠ 0 := hi p rfl htakes
    have hhi : p.seqNum < st.receiver.firstneedrecv + window := htakes.2.2.2
    rw [h.first] at hhi
    have hmod : p.seqNum % buffSize window = p.seqNum := Nat.mod_eq_of_lt (by omega)
    have hslot : (st.receiver.store (buffSize window) p).packBuf 0 = none := by
      rw [Receiver.store, hmod]
      split
      · exact (Function.update_of_ne hne.symm _ _).trans h.slot
      · exact h.slot
    -- nothing is due while the slot of the first packet is empty
    have hkept : st.receiver.accept (buffSize window) p =
        st.receiver.store (buffSize window) p := by
      refine deliver_of_none _ ?_
      rw [store_firstneedrecv, h.first, Nat.zero_mod]
      exact hslot
    have hreceiver : (st.next L window (some p, silent)).receiver =
        st.receiver.store (buffSize window) p := haccept.trans hkept
    refine ⟨?_, ?_, ?_⟩ <;> rw [hreceiver]
    · rw [store_firstneedrecv, h.first]
    · exact hslot
    · rw [store_written, h.written]
  · exact ⟨hfirst.trans h.first, (congrFun hbuf 0).trans h.slot, hwritten.trans h.written⟩

/-- The first packet is due as soon as it is taken. -/
theorem Headless.headMissing (h : Headless st) (hwindow : window ≤ buffSize window)
    (hi : Carries st i) (hdue : st.NothingDue window i) : HeadMissing window st i := by
  intro p hp htakes hzero
  have hhi : p.seqNum < st.receiver.firstneedrecv + window := htakes.2.2.2
  rw [h.first] at hhi
  obtain ⟨n, hn⟩ : ∃ n, buffSize window = n + 1 := ⟨buffSize window - 1, by omega⟩
  have hslot : (st.receiver.store (buffSize window) p).packBuf
      (st.receiver.firstneedrecv % buffSize window) = some p := by
    simp [Receiver.store, hzero, h.first, h.slot]
  refine hi p hp htakes.2.1 (hdue p ?_)
  rw [Option.mem_def.mp hp, Receiver.completed, if_pos htakes, hn]
  rw [hn] at hslot
  rw [due_of_some n hslot]
  exact List.mem_cons_self

/-- Where every DATA packet carries bytes, the value returned is right exactly if the first packet
never arrives while the loop runs. -/
theorem reported_iff_headMissing (hwindow : window < 2 ^ 31)
    {is : List (Option RtpPacket × Bool)} (h : (receptions L window).Playable .start is)
    (hbytes : (receptions L window).Meets Carries .start is)
    (hend : ((receptions L window).play .start is).receiver.pc = .closed) :
    ((receptions L window).play .start is).Reported ↔
      (receptions L window).Meets (HeadMissing window) .start is := by
  have hbuff : window ≤ buffSize window := by
    rw [buffSize_eq hwindow]
    omega
  rw [reported_iff_throughout h hend]
  exact TransitionSystem.Meets.throughout_iff_meets (I := Headless) (fun _ hs => hs.written)
    (fun _ _ hs _ hi => hs.next L hbuff hi)
    (fun st i hs hi hnil =>
      hs.headMissing hbuff hi ((next_written_eq_nil L window st i).mp hnil).2)
    ⟨rfl, rfl, rfl⟩ hbytes

end Head

section Numbers

variable {L : ReceiverLoop} {m hi window k n : ℕ} {b : ReorderBuffer (List UInt8)}
  {r r' : Receiver} {st : Reception}

theorem Mirrors.due_seqNum (h : Mirrors m hi b r) (hm : hi ≤ b.next + m) (hlo : b.next ≤ k)
    (hn : k + n ≤ b.next + m) : (due m r.packBuf k n).map RtpPacket.seqNum =
      List.range' k (due m r.packBuf k n).length := by
  induction n generalizing k with
  | zero => rfl
  | succ n ih =>
    cases hp : r.packBuf (k % m) with
    | none => rw [due_of_none _ hp]; rfl
    | some p =>
      have hup := h.upper _ p hp
      have hseq : p.seqNum = k :=
        eq_of_mod_eq b.next (h.lower _ p hp) (by omega) hlo (by omega) (h.slot _ p hp)
      rw [due_of_some n hp, List.map_cons, ih (by omega) (by omega), hseq, List.length_cons,
        List.range'_succ]

theorem Mirrors.congr (h : Mirrors m hi b r) (hbuf : r'.packBuf = r.packBuf)
    (hfirst : r'.firstneedrecv = r.firstneedrecv) (hwritten : r'.written = r.written) :
    Mirrors m hi b r' where
  first := hfirst.trans h.first
  bytes := hwritten.trans h.bytes
  slot := hbuf ▸ h.slot
  lower := hbuf ▸ h.lower
  upper := hbuf ▸ h.upper
  payload := hbuf ▸ h.payload
  held := hbuf ▸ h.held

theorem Mirrors.completed_seqNum (h : Mirrors (buffSize window) (b.next + window) b r)
    (hwindow : window ≤ buffSize window) (inp : Option RtpPacket) :
    (r.completed window inp).map RtpPacket.seqNum =
      List.range' r.firstneedrecv (r.completed window inp).length := by
  cases inp with
  | none => rfl
  | some p =>
    rw [Receiver.completed]
    split
    · next htakes =>
      obtain ⟨-, -, hlo, hhi⟩ := htakes
      rw [h.first] at hlo hhi
      have hstore := h.store (by omega) hlo hhi
      rw [h.first]
      exact hstore.due_seqNum (by rw [b.hold_next]; omega) (b.hold_next _ _).le
        (by rw [b.hold_next])
    · rfl

theorem Mirrors.step (L : ReceiverLoop) (h : Mirrors (buffSize window) (b.next + window) b r)
    (hwindow : window ≤ buffSize window) (inp : Option RtpPacket) (silent : Bool) :
    ∃ b', Mirrors (buffSize window) (b'.next + window) b' (L.step window r inp silent).1 := by
  rcases step_cases L window r inp silent with
    ⟨p, rfl, htakes, haccept⟩ | ⟨-, hbuf, hfirst, hwritten⟩
  · have hin : b.next ≤ p.seqNum ∧ p.seqNum < b.next + window := h.first ▸ htakes.2.2
    rw [haccept]
    exact ⟨_, (h.accept hwindow hin).1⟩
  · exact ⟨b, h.congr hbuf hfirst hwritten⟩

structure Numbered (window : ℕ) (st : Reception) : Prop where
  mirrors : ∃ b, Mirrors (buffSize window) (b.next + window) b st.receiver
  delivered : st.delivered.map RtpPacket.seqNum = List.range st.receiver.firstneedrecv

theorem Numbered.next (L : ReceiverLoop) (h : Numbered window st)
    (hwindow : window ≤ buffSize window) (i : Option RtpPacket × Bool) :
    Numbered window (st.next L window i) := by
  obtain ⟨⟨b, hb⟩, hdelivered⟩ := h
  have hfirst := (step_completed L window st.receiver i.1 i.2).2
  refine ⟨hb.step L hwindow i.1 i.2, ?_⟩
  rw [Reception.next, List.map_append, hdelivered, hb.completed_seqNum hwindow, hfirst,
    List.range_eq_range', List.range_eq_range', ← List.range'_append_1, Nat.zero_add]

/-- As long as `2 * window_size` does not wrap, no number is delivered twice, so the bytes in the
file are those of the delivered packets, each number counted once. -/
theorem counted_eq_length_written (hwindow : window < 2 ^ 31)
    (h : (receptions L window).Reachable st) : st.counted = st.receiver.written.length := by
  have hbuff : buffSize window = 2 * window := buffSize_eq hwindow
  have hnumbered : Numbered window st := by
    refine h.invariant ?_ fun st i hst _ => hst.next L (by omega) i
    rintro st rfl
    exact ⟨⟨.empty, mirrors_init _⟩, rfl⟩
  have hpairwise : st.delivered.Pairwise (·.seqNum ≠ ·.seqNum) := by
    rw [← List.pairwise_map (f := RtpPacket.seqNum) (R := (· ≠ ·)), hnumbered.delivered]
    exact List.nodup_range
  rw [Reception.counted, List.pwFilter_eq_self.mpr hpairwise, (uncounted_of_reachable h).bytes,
    List.length_flatMap]

end Numbers

end NetworkingLabs.Rtp
