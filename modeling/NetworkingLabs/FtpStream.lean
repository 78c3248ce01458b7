import NetworkingLabs.FtpDatagram
import NetworkingLabs.TransitionSystem

/-!
# Streams of FTP datagrams

`writeDgram` for a list of datagrams on one side of a connection and `readDgram` as often on the
other one, where `write` and `read` transfer what they like.
-/
namespace NetworkingLabs.Ftp

/-- Both sides of a connection on which only one writes. -/
structure Transfer where
  channel : Channel
  received : List Datagram
  left : ℕ  -- the calls of readDgram that have not returned
  deriving DecidableEq

inductive Call
  | write (b : ℕ)
  | read (b : ℕ)

namespace Transfer

variable {ds : List Datagram} {t : Transfer} {b : ℕ}

def start (ds : List Datagram) : Option Transfer := do
  let bufs ← ds.mapM writeDgram
  some ⟨⟨bufs, [], []⟩, [], ds.length⟩

def Enabled (t : Transfer) : Call → Prop
  | .write b => t.channel.CanWrite b
  | .read b => 0 < t.left ∧ t.channel.CanRead dgrams b

instance (t : Transfer) (i : Call) : Decidable (t.Enabled i) := by
  cases i <;> unfold Enabled <;> infer_instance

def next (t : Transfer) : Call → Transfer
  | .write b => { t with channel := t.channel.write b }
  | .read b => match t.channel.arrives dgrams b with
    | none => { t with channel := t.channel.read dgrams b }
    | some d => ⟨t.channel.read dgrams b, t.received ++ [d], t.left - 1⟩

end Transfer

def transfers (ds : List Datagram) : TransitionSystem Transfer Call where
  init t := Transfer.start ds = some t
  enabled := Transfer.Enabled
  next := Transfer.next

instance (ds : List Datagram) (t : Transfer) (i : Call) : Decidable ((transfers ds).enabled t i) :=
  inferInstanceAs (Decidable (t.Enabled i))

section RoundTrip

variable {ds ms : List Datagram} {t : Transfer} {i : Call}

private theorem mapM_writeDgram (h : ∀ d ∈ ds, d.Fits) :
    ds.mapM writeDgram = some (ds.map Datagram.bytes) := by
  induction ds with
  | nil => rfl
  | cons d ds ih =>
    have hds : ∀ d' ∈ ds, d'.Fits := fun d' hd' ↦ h d' (.tail _ hd')
    rw [List.mapM_cons, writeDgram_eq (h d (.head _)), ih hds]
    rfl

/-- What has been received and what is on its way are the datagrams in their order. -/
def TransferInv (ds : List Datagram) (t : Transfer) : Prop :=
  ∃ ms, t.channel.Carries dgrams ms ∧ ds = t.received ++ ms ∧ t.left = ms.length

private theorem start_inv (h : ∀ d ∈ ds, d.Fits) :
    Transfer.start ds = some ⟨⟨ds.map Datagram.bytes, [], []⟩, [], ds.length⟩ ∧
      TransferInv ds ⟨⟨ds.map Datagram.bytes, [], []⟩, [], ds.length⟩ := by
  refine ⟨?_, ds, .all h, rfl, rfl⟩
  rw [Transfer.start, mapM_writeDgram h]
  rfl

theorem TransferInv.next (h : TransferInv ds t) (hi : t.Enabled i) : TransferInv ds (t.next i) := by
  obtain ⟨ms, hcarries, hds, hleft⟩ := h
  cases i with
  | write b => exact ⟨ms, hcarries.write b, hds, hleft⟩
  | read b =>
    rcases hcarries.read hi.2 with ⟨d, ms', rfl, harr, hrest⟩ | ⟨harr, hrest⟩
    · have hnext : t.next (.read b) =
          ⟨t.channel.read dgrams b, t.received ++ [d], t.left - 1⟩ := by
        simp only [Transfer.next, harr]
      rw [hnext]
      refine ⟨ms', hrest, ?_, ?_⟩
      · rw [hds, List.append_assoc]
        rfl
      · rw [hleft, List.length_cons, Nat.add_sub_cancel]
    · have hnext : t.next (.read b) = { t with channel := t.channel.read dgrams b } := by
        simp only [Transfer.next, harr]
      rw [hnext]
      exact ⟨ms, hrest, hds, hleft⟩

/-- Every call that returns leaves less to transfer. -/
theorem work_next (hi : t.Enabled i) : (t.next i).channel.work < t.channel.work := by
  cases i with
  | write b => exact Channel.work_write hi
  | read b =>
    have hread := Channel.work_read hi.2
    cases harr : t.channel.arrives dgrams b with
    | none => simpa only [Transfer.next, harr] using hread
    | some d => simpa only [Transfer.next, harr] using hread

/-- Until every `readDgram` has returned, one of the two sides can go on. -/
theorem TransferInv.enabled (h : TransferInv ds t) (hleft : t.left ≠ 0) : ∃ i, t.Enabled i := by
  obtain ⟨ms, hcarries, -, hlen⟩ := h
  cases ms with
  | nil => exact absurd hlen hleft
  | cons d ms =>
    rcases hcarries.canMove with hwrite | hread
    · exact ⟨.write 1, hwrite⟩
    · exact ⟨.read 1, Nat.pos_of_ne_zero hleft, hread⟩

/-- Once they have, they have returned the datagrams, and not a byte is left. -/
theorem TransferInv.done (h : TransferInv ds t) (hleft : t.left = 0) :
    t.received = ds ∧ t.channel = .empty := by
  obtain ⟨ms, hcarries, hds, hlen⟩ := h
  rw [hleft] at hlen
  cases List.eq_nil_of_length_eq_zero hlen.symm
  exact ⟨by rw [hds, List.append_nil], hcarries.eq_empty⟩

/-- However the bytes are cut into pieces, the calls of `readDgram` return after finitely many
pieces, with the datagrams that were written and in their order, and take every byte. -/
theorem dgram_round_trip (h : ∀ d ∈ ds, d.Fits) : ∃ t, Transfer.start ds = some t ∧
    ∀ is, (transfers ds).Playable t is →
      is.length ≤ 2 * (ds.flatMap Datagram.bytes).length ∧
      ((transfers ds).play t is).received <+: ds ∧
      ((∀ i, ¬ (transfers ds).enabled ((transfers ds).play t is) i) →
        ((transfers ds).play t is).left = 0) ∧
      (((transfers ds).play t is).left = 0 →
        ((transfers ds).play t is).received = ds ∧
          ((transfers ds).play t is).channel = .empty) := by
  obtain ⟨hstart, hinv0⟩ := start_inv h
  refine ⟨_, hstart, fun is his ↦ ?_⟩
  have hreach := (TransitionSystem.Reachable.init (S := transfers ds) hstart).play his
  have hinv : TransferInv ds ((transfers ds).play _ is) :=
    hreach.invariant (fun t ht ↦ by cases hstart.symm.trans ht; exact hinv0)
      (fun _ _ ht hi ↦ ht.next hi)
  have hwork := his.measure_le (f := fun t ↦ t.channel.work) (fun _ _ ↦ work_next)
  refine ⟨?_, ?_, ?_, hinv.done⟩
  · simp only [Channel.work, List.length_nil, Nat.add_zero, ← List.flatMap_def] at hwork
    omega
  · obtain ⟨ms, -, hds, -⟩ := hinv
    exact ⟨ms, hds.symm⟩
  · intro hstuck
    by_contra hleft
    obtain ⟨i, hi⟩ := hinv.enabled hleft
    exact hstuck i hi

/-- Two datagrams whose bytes are read across the border between them. -/
theorem dgram_round_trip_twoDatagrams : ∃ t,
    Transfer.start [⟨0xa1, 0, []⟩, ⟨0xff, 0, [7, 8]⟩] = some t ∧
      ((transfers [⟨0xa1, 0, []⟩, ⟨0xff, 0, [7, 8]⟩]).play t [.write 5, .write 7, .write 14,
        .read 11, .read 1, .read 12, .read 1, .read 1]).received =
          [⟨0xa1, 0, []⟩, ⟨0xff, 0, [7, 8]⟩] := by
  have hfits : ∀ d ∈ ([⟨0xa1, 0, []⟩, ⟨0xff, 0, [7, 8]⟩] : List Datagram), d.Fits := by decide
  obtain ⟨t, hstart, hall⟩ := dgram_round_trip hfits
  refine ⟨t, hstart, ?_⟩
  cases hstart
  exact ((hall _ (by decide)).2.2.2 (by decide)).1

end RoundTrip

end NetworkingLabs.Ftp
