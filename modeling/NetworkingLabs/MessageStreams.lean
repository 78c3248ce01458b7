import Mathlib.Data.List.Basic

/-!
# Messages on a byte stream

Messages are written one after the other on a stream of bytes. They are taken off it in pieces
of any size, by a reader that sees from the front of a message how much of it is still to come.
-/
namespace NetworkingLabs

universe u

structure Framing (μ : Type u) where
  encode : μ → List UInt8
  need : List UInt8 → ℕ  -- how much the reader asks for next, nothing after a whole message
  decode : List UInt8 → μ
  Valid : μ → Prop
  encode_ne_nil : ∀ {m}, Valid m → encode m ≠ []
  need_front : ∀ {m got rest}, Valid m → encode m = got ++ rest → rest ≠ [] →
    0 < need got ∧ need got ≤ rest.length
  need_encode : ∀ {m}, Valid m → need (encode m) = 0
  decode_encode : ∀ {m}, Valid m → decode (encode m) = m

namespace Framing

variable {μ : Type u} (F : Framing μ) {m : μ} {ms : List μ} {got bytes chunk rest : List UInt8}

/-- What the reader has got of a message after a piece, and the message once it is whole. -/
def receive (got chunk : List UInt8) : List UInt8 × Option μ :=
  if F.need (got ++ chunk) = 0 then ([], some (F.decode (got ++ chunk))) else (got ++ chunk, none)

/-- Some messages are on their way: the reader has got the front of the first one, and the
bytes that follow are the rest of it and the other ones. -/
structure InTransit (ms : List μ) (got bytes : List UInt8) : Prop where
  valid : ∀ m ∈ ms, F.Valid m
  flat : got ++ bytes = ms.flatMap F.encode
  unfinished : ∀ m ∈ ms.head?, got.length < (F.encode m).length

variable {F}

theorem InTransit.all (h : ∀ m ∈ ms, F.Valid m) : F.InTransit ms [] (ms.flatMap F.encode) where
  valid := h
  flat := rfl
  unfinished := by
    intro m hm
    exact List.length_pos_iff.mpr (F.encode_ne_nil (h m (List.mem_of_mem_head? hm)))

theorem InTransit.eq_nil (h : F.InTransit [] got bytes) : got = [] ∧ bytes = [] :=
  List.append_eq_nil_iff.mp h.flat

theorem InTransit.head (h : F.InTransit (m :: ms) got bytes) : ∃ rest, rest ≠ [] ∧
    F.encode m = got ++ rest ∧ bytes = rest ++ ms.flatMap F.encode := by
  have hlen : got.length < (F.encode m).length := h.unfinished m rfl
  have hflat : got ++ bytes = F.encode m ++ ms.flatMap F.encode := h.flat
  rcases List.append_eq_append_iff.mp hflat with ⟨rest, henc, hbytes⟩ | ⟨rest, hgot, -⟩
  · refine ⟨rest, ?_, henc, hbytes⟩
    rintro rfl
    rw [henc, List.append_nil] at hlen
    exact Nat.lt_irrefl _ hlen
  · rw [hgot, List.length_append] at hlen
    omega

/-- As long as there is a message on its way, the reader asks for bytes that will come. -/
theorem InTransit.need_pos (h : F.InTransit (m :: ms) got bytes) :
    0 < F.need got ∧ F.need got ≤ bytes.length := by
  obtain ⟨rest, hne, henc, hbytes⟩ := h.head
  have hneed := F.need_front (h.valid m (.head _)) henc hne
  rw [hbytes, List.length_append]
  omega

theorem InTransit.concat (h : F.InTransit ms got bytes) (hm : F.Valid m) :
    F.InTransit (ms ++ [m]) got (bytes ++ F.encode m) where
  valid := by
    intro m' hm'
    rcases List.mem_append.mp hm' with hm' | hm'
    · exact h.valid m' hm'
    · cases List.mem_singleton.mp hm'
      exact hm
  flat := by
    rw [← List.append_assoc, h.flat, List.flatMap_append, List.flatMap_singleton]
  unfinished := by
    intro m' hm'
    cases ms with
    | nil =>
      cases hm'
      rw [h.eq_nil.1]
      exact List.length_pos_iff.mpr (F.encode_ne_nil hm)
    | cons m₀ ms => exact h.unfinished m' hm'

/-- A piece that is no larger than asked for either completes the first message or leaves it
unfinished. -/
theorem InTransit.receive (h : F.InTransit ms got (chunk ++ rest)) (hne : chunk ≠ [])
    (hlen : chunk.length ≤ F.need got) :
    (∃ m ms', ms = m :: ms' ∧ F.receive got chunk = ([], some m) ∧ F.InTransit ms' [] rest) ∨
      F.receive got chunk = (got ++ chunk, none) ∧ F.InTransit ms (got ++ chunk) rest := by
  cases ms with
  | nil => exact absurd (List.append_eq_nil_iff.mp h.eq_nil.2).1 hne
  | cons m ms =>
    have hm : F.Valid m := h.valid m (.head _)
    obtain ⟨tail, htail, henc, hbytes⟩ := h.head
    -- the reader never asks for more than the rest of its message
    have hasked : chunk.length ≤ tail.length := Nat.le_trans hlen (F.need_front hm henc htail).2
    have hfront : chunk <+: tail ++ ms.flatMap F.encode := hbytes ▸ List.prefix_append chunk rest
    obtain ⟨more, rfl⟩ :=
      List.prefix_of_prefix_length_le hfront (List.prefix_append tail _) hasked
    have hrest : rest = more ++ ms.flatMap F.encode := by
      rw [List.append_assoc] at hbytes
      exact List.append_cancel_left hbytes
    rw [← List.append_assoc] at henc
    cases more with
    | nil =>
      rw [List.append_nil] at henc
      refine .inl ⟨m, ms, rfl, ?_, ?_⟩
      · rw [Framing.receive, ← henc, F.need_encode hm, if_pos rfl, F.decode_encode hm]
      · rw [hrest]
        exact .all fun m' hm' ↦ h.valid m' (.tail _ hm')
    | cons b more =>
      have hmore := F.need_front hm henc (List.cons_ne_nil b more)
      refine .inr ⟨if_neg (by omega), h.valid, ?_, ?_⟩
      · rw [List.append_assoc]
        exact h.flat
      · intro m' hm'
        cases hm'
        rw [henc]
        simp only [List.length_append, List.length_cons]
        omega

end Framing

/-- One direction of a connection: the buffers that the writing loop works through, the bytes
on the wire, and what the reading loop has got of a message. -/
@[ext] structure Channel where
  outbox : List (List UInt8)
  wire : List UInt8
  got : List UInt8
  deriving DecidableEq

namespace Channel

variable {μ : Type u} (F : Framing μ) {m : μ} {ms : List μ} {c : Channel} {b : ℕ}

def CanWrite (c : Channel) (b : ℕ) : Prop := 0 < b ∧ b ≤ (c.outbox.headD []).length

instance (c : Channel) (b : ℕ) : Decidable (c.CanWrite b) :=
  inferInstanceAs (Decidable (_ ∧ _))

/-- The loop is over once the whole buffer is written. -/
def write (c : Channel) (b : ℕ) : Channel where
  outbox := match c.outbox with
    | [] => []
    | buf :: bufs => if b < buf.length then buf.drop b :: bufs else bufs
  wire := c.wire ++ (c.outbox.headD []).take b
  got := c.got

def CanRead (c : Channel) (b : ℕ) : Prop := 0 < b ∧ b ≤ F.need c.got ∧ b ≤ c.wire.length

instance (c : Channel) (b : ℕ) : Decidable (c.CanRead F b) :=
  inferInstanceAs (Decidable (_ ∧ _))

def arrives (c : Channel) (b : ℕ) : Option μ := (F.receive c.got (c.wire.take b)).2

def read (c : Channel) (b : ℕ) : Channel :=
  { c with wire := c.wire.drop b, got := (F.receive c.got (c.wire.take b)).1 }

def send (c : Channel) (buf : List UInt8) : Channel := { c with outbox := c.outbox ++ [buf] }

def empty : Channel := ⟨[], [], []⟩

structure Carries (c : Channel) (ms : List μ) : Prop where
  inTransit : F.InTransit ms c.got (c.wire ++ c.outbox.flatten)
  unwritten : [] ∉ c.outbox

variable {F}

theorem Carries.all (h : ∀ m ∈ ms, F.Valid m) : Carries F ⟨ms.map F.encode, [], []⟩ ms where
  inTransit := by
    rw [List.nil_append, ← List.flatMap_def]
    exact .all h
  unwritten := by
    intro hnil
    obtain ⟨m, hm, hempty⟩ := List.mem_map.mp hnil
    exact F.encode_ne_nil (h m hm) hempty

theorem Carries.eq_empty (h : c.Carries F []) : c = .empty := by
  obtain ⟨hgot, hrest⟩ := h.inTransit.eq_nil
  obtain ⟨hwire, hflat⟩ := List.append_eq_nil_iff.mp hrest
  have hout : c.outbox = [] := by
    cases hc : c.outbox with
    | nil => rfl
    | cons buf bufs =>
      have hbuf : buf = [] := List.flatten_eq_nil_iff.mp hflat buf (by simp [hc])
      exact absurd (by simp [hc, hbuf]) h.unwritten
  ext1
  · exact hout
  · exact hwire
  · exact hgot

theorem Carries.send (h : c.Carries F ms) (hm : F.Valid m) :
    (c.send (F.encode m)).Carries F (ms ++ [m]) where
  inTransit := by
    have hflat : (c.send (F.encode m)).wire ++ (c.send (F.encode m)).outbox.flatten =
        c.wire ++ c.outbox.flatten ++ F.encode m := by
      simp [Channel.send]
    rw [hflat]
    exact h.inTransit.concat hm
  unwritten := by
    intro hnil
    rcases List.mem_append.mp hnil with hnil | hnil
    · exact h.unwritten hnil
    · exact F.encode_ne_nil hm (List.mem_singleton.mp hnil).symm

private theorem write_flat (c : Channel) (b : ℕ) :
    (c.write b).wire ++ (c.write b).outbox.flatten = c.wire ++ c.outbox.flatten := by
  obtain ⟨outbox, wire, got⟩ := c
  cases outbox with
  | nil => simp [Channel.write]
  | cons buf bufs =>
    by_cases hpart : b < buf.length
    · simp only [Channel.write, List.headD_cons, if_pos hpart, List.flatten_cons,
        List.append_assoc]
      rw [← List.append_assoc (buf.take b), List.take_append_drop]
    · have hall : buf.take b = buf := List.take_of_length_le (by omega)
      simp [Channel.write, hpart, hall]

private theorem write_unwritten (h : [] ∉ c.outbox) (b : ℕ) : [] ∉ (c.write b).outbox := by
  obtain ⟨outbox, wire, got⟩ := c
  cases outbox with
  | nil => exact h
  | cons buf bufs =>
    have hbufs : [] ∉ bufs := fun hnil ↦ h (.tail _ hnil)
    by_cases hpart : b < buf.length
    · have hdrop : [] ≠ buf.drop b := by
        intro hnil
        have hlen := congrArg List.length hnil
        rw [List.length_nil, List.length_drop] at hlen
        omega
      simp [Channel.write, hpart, hdrop, hbufs]
    · simp [Channel.write, hpart, hbufs]

theorem Carries.write (h : c.Carries F ms) (b : ℕ) : (c.write b).Carries F ms where
  inTransit := by
    rw [c.write_flat b]
    exact h.inTransit
  unwritten := write_unwritten h.unwritten b

/-- Reading either completes the first message or leaves all of them on their way. -/
theorem Carries.read (h : c.Carries F ms) (hb : c.CanRead F b) :
    (∃ m ms', ms = m :: ms' ∧ c.arrives F b = some m ∧ (c.read F b).Carries F ms') ∨
      c.arrives F b = none ∧ (c.read F b).Carries F ms := by
  obtain ⟨hpos, hneed, hwire⟩ := hb
  have hlen : (c.wire.take b).length = b := by rw [List.length_take]; omega
  have hne : c.wire.take b ≠ [] := by
    intro hnil
    rw [hnil, List.length_nil] at hlen
    omega
  have htransit : F.InTransit ms c.got
      (c.wire.take b ++ (c.wire.drop b ++ c.outbox.flatten)) := by
    rw [← List.append_assoc, List.take_append_drop]
    exact h.inTransit
  rcases htransit.receive hne (by omega) with ⟨m, ms', rfl, hrec, hrest⟩ | ⟨hrec, hrest⟩
  · refine .inl ⟨m, ms', rfl, by rw [arrives, hrec], ?_, h.unwritten⟩
    simpa [Channel.read, hrec] using hrest
  · refine .inr ⟨by rw [arrives, hrec], ?_, h.unwritten⟩
    simpa [Channel.read, hrec] using hrest

/-- While a message is on its way, one of the two loops can go on. -/
theorem Carries.canMove (h : c.Carries F (m :: ms)) : c.CanWrite 1 ∨ c.CanRead F 1 := by
  obtain ⟨hpos, hneed⟩ := h.inTransit.need_pos
  cases hw : c.wire with
  | cons x wire => exact .inr ⟨Nat.one_pos, hpos, by rw [hw]; exact Nat.le_add_left 1 _⟩
  | nil =>
    cases hout : c.outbox with
    | nil =>
      rw [hw, hout] at hneed
      exact absurd hpos (Nat.not_lt.mpr hneed)
    | cons buf bufs =>
      have hbuf : buf ≠ [] := fun hnil ↦ h.unwritten (by simp [hout, hnil])
      exact .inl ⟨Nat.one_pos, by rw [hout]; exact List.length_pos_iff.mpr hbuf⟩

/-- How many bytes are still to be written and read, each counted once for either. -/
def work (c : Channel) : ℕ := 2 * c.outbox.flatten.length + c.wire.length

theorem work_send (c : Channel) (buf : List UInt8) :
    (c.send buf).work = c.work + 2 * buf.length := by
  simp [Channel.send, work]
  omega

theorem work_write (hb : c.CanWrite b) : (c.write b).work < c.work := by
  obtain ⟨hpos, hle⟩ := hb
  obtain ⟨outbox, wire, got⟩ := c
  cases outbox with
  | nil => exact absurd hle (by simp; omega)
  | cons buf bufs =>
    have hle : b ≤ buf.length := hle
    by_cases hpart : b < buf.length
    · simp [Channel.write, work, hpart]
      omega
    · simp [Channel.write, work, hpart]
      omega

theorem work_read (hb : c.CanRead F b) : (c.read F b).work < c.work := by
  obtain ⟨hpos, -, hwire⟩ := hb
  simp [Channel.read, work]
  omega

end Channel

end NetworkingLabs
