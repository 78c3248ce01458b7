import NetworkingLabs.CountingLoop
import NetworkingLabs.FtpDatagram

/-!
# Sockets that fail

The loops of `readBuf` and `writeBuf` over calls of `read` and `write` that may return an error or
meet the end of the stream, both of which are added to `ret` like a count.
-/
namespace NetworkingLabs.Ftp
open CountingLoop

section Buffers

/-- A socket that is read from, with its place in what comes in, and the buffer for it. -/
structure Incoming where
  stream : ℕ → UInt8
  pos : ℕ
  buf : List UInt8

instance : Inhabited Incoming := ⟨⟨fun _ ↦ 0, 0, []⟩⟩

def Incoming.next (s : Incoming) (count : ℕ) : List UInt8 :=
  (List.range' s.pos count).map s.stream

/-- `read(src_socket, buf + ret, len - ret)` that returns `count`. -/
def Incoming.read (s : Incoming) (ret count : ℕ) : Incoming :=
  { s with
    pos := s.pos + count
    buf := s.buf.take ret ++ s.next count ++ s.buf.drop (ret + count) }

def Incoming.fill (s : Incoming) (len : ℕ) : Incoming :=
  { s with
    pos := s.pos + len
    buf := s.next len ++ s.buf.drop len }

structure Outgoing where
  buf : List UInt8
  sent : List UInt8
  deriving DecidableEq, Inhabited

/-- `write(tgt_socket, buf + ret, len - ret)` that returns `count`. -/
def Outgoing.write (s : Outgoing) (ret count : ℕ) : Outgoing :=
  { s with sent := s.sent ++ (s.buf.drop ret).take count }

variable (len : UInt64) (results : ℕ → ℤ) (total : Option ℕ)

def readBuf (turns : ℕ) (s : Incoming) : Option Incoming :=
  transfer Incoming.read len results turns s

def writeBuf (turns : ℕ) (s : Outgoing) : Option Outgoing :=
  transfer Outgoing.write len results turns s

/-- `readBuf` ends once the stream has ended, stays within the length, and whenever it returns, the
buffer starts with the next bytes of the stream. -/
def ReadsBuf : Prop :=
  Transfers len results total (readBuf len results) fun s out ↦ len.toNat ≤ s.buf.length →
    out = s.fill len.toNat

/-- `writeBuf` ends once the stream has ended, stays within the length, and whenever it returns, the
start of the buffer has been sent. -/
def WritesBuf : Prop :=
  Transfers len results total (writeBuf len results) fun s out ↦ len.toNat ≤ s.buf.length →
    out = { s with sent := s.sent ++ s.buf.take len.toNat }

end Buffers

section Reading

variable {len : UInt64} {results : ℕ → ℤ} {total : Option ℕ} {s : Incoming} {n j : ℕ}

@[simp] theorem Incoming.length_next (count : ℕ) : (s.next count).length = count := by
  rw [next, List.length_map, List.length_range']

theorem Incoming.next_add (i k : ℕ) : s.next (i + k) = s.next i ++ (s.fill i).next k := by
  rw [next, next, next, fill, ← List.map_append, List.range'_append_1]

theorem Incoming.read_pos : (dataAt read results s n).pos = s.pos + moved results n := by
  induction n with
  | zero => rfl
  | succ n ih =>
    rw [moved_succ, ← Nat.add_assoc, ← ih]
    rfl

theorem Incoming.read_stream : (dataAt read results s n).stream = s.stream := by
  induction n with
  | zero => rfl
  | succ n ih => exact ih

theorem Incoming.read_behind (h : ∀ k < n, (ret results k).toNat + (results k).toNat ≤ j)
    (hj : j < s.buf.length) :
    (dataAt read results s n).buf.length = s.buf.length ∧
      (dataAt read results s n).buf[j]? = s.buf[j]? := by
  induction n with
  | zero => exact ⟨rfl, rfl⟩
  | succ n ih =>
    obtain ⟨hlen, hget⟩ := ih fun k hk ↦ h k (by omega)
    have hn := h n (Nat.lt_succ_self n)
    have hfront : ((dataAt read results s n).buf.take (ret results n).toNat ++
        (dataAt read results s n).next (results n).toNat).length =
        (ret results n).toNat + (results n).toNat := by
      rw [List.length_append, List.length_take, length_next]
      omega
    rw [dataAt, read]
    constructor
    · rw [List.length_append, hfront, List.length_drop]
      omega
    · rw [List.getElem?_append_right (by rw [hfront]; exact hn), hfront, List.getElem?_drop, ← hget]
      congr 1
      omega

/-- Calls that follow each other fill the buffer from the start. -/
theorem Incoming.read_front (h : ∀ k ≤ n, (ret results k).toNat = moved results k)
    (hlen : moved results n ≤ s.buf.length) :
    (dataAt read results s n).buf = s.next (moved results n) ++ s.buf.drop (moved results n) := by
  induction n with
  | zero => rfl
  | succ n ih =>
    rw [moved_succ] at hlen
    have hbuf := ih (fun k hk ↦ h k (by omega)) (by omega)
    have hret := h n (Nat.le_succ n)
    have hsplit : s.next (moved results n) ++ (dataAt read results s n).next (results n).toNat =
        s.next (moved results n + (results n).toNat) := by
      rw [next_add, next, next, next, read_pos, read_stream, fill]
    rw [dataAt, read, hret, hbuf, moved_succ, List.take_left' (length_next _), hsplit,
      List.drop_append, length_next, List.drop_eq_nil_of_le (by rw [length_next]; omega),
      List.nil_append, Nat.add_sub_cancel_left, List.drop_drop]

theorem Incoming.read_fill (h : ∀ k ≤ n, (ret results k).toNat = moved results k)
    (hlen : moved results n ≤ s.buf.length) :
    dataAt read results s n = s.fill (moved results n) := by
  have hpos : (dataAt read results s n).pos = s.pos + moved results n := read_pos
  have hstream : (dataAt read results s n).stream = s.stream := read_stream
  rw [fill, ← read_front h hlen, ← hpos, ← hstream]

theorem readBuf_steady (h : Allowed len results total) (hsteady : Steady len results) :
    ∃ n, ∀ (s : Incoming) (turns : ℕ), len.toNat ≤ s.buf.length →
      readBuf len results turns s = if n < turns then some (s.fill len.toNat) else none := by
  obtain ⟨n, hpos, hall⟩ := hsteady
  obtain ⟨hrun, hexit, hret⟩ := h.steady_runs hpos hall
  refine ⟨n, fun s turns hroom ↦ ?_⟩
  rw [← hall] at hroom ⊢
  rw [readBuf, transfer_exit s hrun hexit, Incoming.read_fill hret hroom]

/-- `readBuf` does what it should exactly in these cases. -/
theorem readsBuf_iff (h : Allowed len results total) :
    ReadsBuf len results total ↔ Steady len results ∨ Endless len results := by
  refine transfers_iff h ?_ ?_ ?_
  · intro n hret hall s hroom
    rw [← hall] at hroom ⊢
    exact Incoming.read_fill hret hroom
  · intro n _ hne
    refine ⟨⟨fun _ ↦ 0, 0, List.replicate len.toNat 0⟩, fun hout ↦ hne ?_⟩
    have hpos := congrArg Incoming.pos (hout List.length_replicate.ge)
    rw [Incoming.read_pos] at hpos
    exact Nat.add_left_cancel hpos
  · -- The last place of the buffer keeps what it had.
    intro n hlast hlen
    refine ⟨⟨fun _ ↦ 1, 0, List.replicate len.toNat 0⟩, fun hout ↦ ?_⟩
    have hbuf := congrArg Incoming.buf (hout List.length_replicate.ge)
    have hlast' : len.toNat - 1 < len.toNat := by omega
    obtain ⟨-, hget⟩ := Incoming.read_behind (s := ⟨fun _ ↦ 1, 0, List.replicate len.toNat 0⟩)
      (j := len.toNat - 1) (fun k hk ↦ Nat.le_sub_one_of_lt (hlast k hk))
      (by rwa [List.length_replicate])
    rw [hbuf] at hget
    simp [Incoming.fill, Incoming.next, hlast'] at hget

end Reading

section Writing

variable {len : UInt64} {results : ℕ → ℤ} {total : Option ℕ} {s : Outgoing} {n j : ℕ}

@[simp] theorem Outgoing.write_buf : (dataAt write results s n).buf = s.buf := by
  induction n with
  | zero => rfl
  | succ n ih => exact ih

theorem Outgoing.length_sent
    (h : ∀ k < n, (ret results k).toNat + (results k).toNat ≤ s.buf.length) :
    (dataAt write results s n).sent.length = s.sent.length + moved results n := by
  induction n with
  | zero => rfl
  | succ n ih =>
    have hn := h n (Nat.lt_succ_self n)
    rw [dataAt, write, List.length_append, ih fun k hk ↦ h k (by omega), write_buf,
      List.length_take, List.length_drop, moved_succ]
    omega

theorem Outgoing.sent_subset (h : ∀ k < n, (ret results k).toNat + (results k).toNat ≤ j)
    {b : UInt8} (hb : b ∈ (dataAt write results s n).sent) : b ∈ s.sent ∨ b ∈ s.buf.take j := by
  induction n with
  | zero => exact .inl hb
  | succ n ih =>
    rw [dataAt, write, List.mem_append, write_buf, List.take_drop] at hb
    rcases hb with hb | hb
    · exact ih (fun k hk ↦ h k (by omega)) hb
    · right
      exact List.take_subset_take_left _ (h n (Nat.lt_succ_self n)) (List.mem_of_mem_drop hb)

theorem Outgoing.write_front (h : ∀ k ≤ n, (ret results k).toNat = moved results k) :
    (dataAt write results s n).sent = s.sent ++ s.buf.take (moved results n) := by
  induction n with
  | zero => exact (List.append_nil _).symm
  | succ n ih =>
    rw [dataAt, write, ih fun k hk ↦ h k (by omega), h n (Nat.le_succ n), write_buf, moved_succ,
      List.take_add, List.append_assoc]

/-- `writeBuf` does what it should exactly in these cases. -/
theorem writesBuf_iff (h : Allowed len results total) :
    WritesBuf len results total ↔ Steady len results ∨ Endless len results := by
  refine transfers_iff h ?_ ?_ ?_
  · intro n hret hall s _
    have hsent : (dataAt Outgoing.write results s n).sent = _ := Outgoing.write_front hret
    have hbuf : (dataAt Outgoing.write results s n).buf = s.buf := Outgoing.write_buf
    rw [← hall, ← hsent, ← hbuf]
  · intro n hin hne
    refine ⟨⟨List.replicate len.toNat 0, []⟩, fun hout ↦ hne ?_⟩
    have hsent := congrArg List.length (congrArg Outgoing.sent (hout List.length_replicate.ge))
    rw [Outgoing.length_sent (by rwa [List.length_replicate])] at hsent
    simpa using hsent
  · -- The last byte of the buffer is never sent.
    intro n hlast hlen
    refine ⟨⟨List.replicate (len.toNat - 1) 0 ++ [1], []⟩, fun hout ↦ ?_⟩
    have hlen' : (List.replicate (len.toNat - 1) (0 : UInt8) ++ [1]).length = len.toNat := by
      rw [List.length_append, List.length_replicate]
      exact Nat.sub_add_cancel hlen
    have hsent := congrArg Outgoing.sent (hout hlen'.ge)
    have hone : 1 ∈ (dataAt Outgoing.write results
        ⟨List.replicate (len.toNat - 1) 0 ++ [1], []⟩ n).sent := by
      rw [hsent, List.nil_append, List.take_of_length_le hlen'.le]
      exact List.mem_append_right _ (List.mem_singleton_self 1)
    rcases Outgoing.sent_subset (fun k hk ↦ Nat.le_sub_one_of_lt (hlast k hk)) hone with hb | hb
    · exact List.not_mem_nil hb
    · rw [List.take_left' List.length_replicate] at hb
      exact absurd (List.eq_of_mem_replicate hb) (by decide)

end Writing

section Transfers

/-- `readBuf` and `writeBuf` do what they should exactly if the first calls all transfer something
until all has been transferred, or errors keep them going for ever. -/
theorem buf_transfers_iff (len : UInt64) (results : ℕ → ℤ) (total : Option ℕ)
    (h : Allowed len results total) :
    (ReadsBuf len results total ↔ Steady len results ∨ Endless len results) ∧
      (WritesBuf len results total ↔ Steady len results ∨ Endless len results) :=
  ⟨readsBuf_iff h, writesBuf_iff h⟩

/-- A header that comes in two pieces. -/
theorem buf_transfers_two :
    ReadsBuf 12 ([5, 7].getD · 0) (some 12) ∧ WritesBuf 12 ([5, 7].getD · 0) (some 12) := by
  have hallowed : Allowed 12 ([5, 7].getD · 0) (some 12) := by
    intro k hrun
    match k with
    | 0 => exact .inr (.inr (by decide))
    | 1 => exact .inr (.inr (by decide))
    | k + 2 => exact absurd (hrun 2 (by omega)) (by decide)
  have hsteady : Steady 12 ([5, 7].getD · 0) := ⟨2, by decide⟩
  obtain ⟨hread, hwrite⟩ := buf_transfers_iff 12 ([5, 7].getD · 0) (some 12) hallowed
  exact ⟨hread.mpr (.inl hsteady), hwrite.mpr (.inl hsteady)⟩

/-- After an error at the start `readBuf` returns, and nothing has been read. -/
theorem not_readsBuf_error :
    Allowed 12 (fun _ ↦ -1) (some 12) ∧ ¬ ReadsBuf 12 (fun _ ↦ -1) (some 12) := by
  refine ⟨fun _ _ ↦ .inl rfl, fun h ↦ ?_⟩
  have hout := h.right ⟨fun _ ↦ 1, 0, List.replicate 12 0⟩ 2 _ rfl (by decide)
  exact absurd (congrArg Incoming.pos hout) (by decide)

end Transfers

end NetworkingLabs.Ftp
