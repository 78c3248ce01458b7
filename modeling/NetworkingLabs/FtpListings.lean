import NetworkingLabs.FtpAccess

/-!
# The listings of the FTP server

`getFileList` reads what `ls` prints into `buff`, without a zero behind it, and LIST_REPLY carries
`buff` up to its first zero. What is left there from earlier listings decides where that is.
-/
namespace NetworkingLabs.Ftp

section Replies

/-- `ls` prints at most 2047 bytes, none of them zero. -/
def Prints (listing : Option (List UInt8)) : Prop :=
  ∃ out ∈ listing, out.length ≤ 2047 ∧ (0 : UInt8) ∉ out

instance (listing : Option (List UInt8)) : Decidable (Prints listing) :=
  inferInstanceAs (Decidable (∃ out ∈ listing, out.length ≤ 2047 ∧ (0 : UInt8) ∉ out))

/-- The server, and beside it what `ls` has printed for each LIST_REQUEST with what was sent. -/
structure Listings where
  server : Server
  listed : List (List UInt8 × List Datagram)

namespace Listings

def Lists (st : Listings) (i : Arrival) : Prop :=
  st.server.phase = .request ∧ i.2.type = listRequest

instance (st : Listings) (i : Arrival) : Decidable (st.Lists i) :=
  inferInstanceAs (Decidable (_ ∧ _))

def next (st : Listings) (i : Arrival) : Listings :=
  let turn := st.server.handle i.1 i.2
  { server := if turn.party.initDue then turn.party.initConn else turn.party
    listed := if st.Lists i then st.listed ++ [(i.1.listing.getD [], turn.sends)] else st.listed }

def start (buff : Buffer 4096) : Listings := ⟨.start buff, []⟩

/-- Every LIST_REPLY carries what `ls` has printed for it, and a zero. -/
def Current (st : Listings) : Prop :=
  ∀ x ∈ st.listed, x.2 = [⟨listReply, 0, x.1 ++ [0]⟩]

/-- No earlier listing was longer than the present one, and `buff` had a zero at its end before the
first one. -/
def Fresh (buff : Buffer 4096) (st : Listings) (i : Arrival) : Prop :=
  st.Lists i → ∀ out ∈ i.1.listing,
    buff.bytes[out.length]? = some 0 ∧ ∀ x ∈ st.listed, x.1.length ≤ out.length

end Listings

def listings : TransitionSystem Listings Arrival where
  init st := ∃ buff, st = .start buff
  enabled st i := st.Lists i → Prints i.1.listing
  next := Listings.next

instance (st : Listings) (i : Arrival) : Decidable (listings.enabled st i) :=
  inferInstanceAs (Decidable (_ → _))

instance (buff : Buffer 4096) (st : Listings) (i : Arrival) : Decidable (st.Fresh buff i) :=
  inferInstanceAs (Decidable (_ → _))

instance (st : Listings) : Decidable st.Current :=
  inferInstanceAs (Decidable (∀ x ∈ st.listed, _))

end Replies

section Strings

variable {xs ys : List UInt8} {buff : Buffer 4096} {s : Server} {e : Surroundings} {rev : Datagram}
  {out : List UInt8}

private theorem cString_append_iff (h : (0 : UInt8) ∉ xs) :
    cString (xs ++ ys) = xs ↔ ∀ b ∈ ys.head?, b = 0 := by
  have hxs : ∀ b ∈ xs, decide (b ≠ 0) = true := fun b hb ↦ decide_eq_true fun h0 ↦ h (h0 ▸ hb)
  rw [cString, List.takeWhile_append_of_pos hxs, List.append_right_eq_self]
  cases ys with
  | nil => simp
  | cons b ys => by_cases hb : b = 0 <;> simp [hb]

private theorem getElem?_getFileList {p : ℕ} (hout : out.length ≤ 2047) (hp : p < 4096) :
    (getFileList buff (some out)).bytes[p]? =
      if p < out.length then out[p]? else buff.bytes[p]? := by
  rw [getFileList, List.take_of_length_le (by omega), Buffer.getElem?_fill _ hp]

/-- The string in `buff` is the listing exactly if there was a zero at its end. -/
theorem cString_getFileList (hout : out.length ≤ 2047) (h : (0 : UInt8) ∉ out) :
    cString (getFileList buff (some out)).bytes = out ↔ buff.bytes[out.length]? = some 0 := by
  have hsize := buff.size
  have hbytes : (getFileList buff (some out)).bytes = out ++ buff.bytes.drop out.length := by
    simp only [getFileList, Buffer.fill, List.take_of_length_le (show out.length ≤ 2048 by omega),
      List.take_of_length_le (show out.length ≤ 4096 by omega)]
  have hlt : out.length < buff.bytes.length := by omega
  rw [hbytes, cString_append_iff h, List.head?_drop, List.getElem?_eq_getElem hlt]
  simp

/-- The reply to a LIST_REQUEST is the listing exactly if there was a zero at its end. -/
theorem sends_listRequest_iff (hs : s.phase = .request) (hrev : rev.type = listRequest)
    (hlisting : e.listing = some out) (hout : out.length ≤ 2047) (h : (0 : UInt8) ∉ out) :
    (s.handle e rev).sends = [⟨listReply, 0, out ++ [0]⟩] ↔
      s.buff.bytes[out.length]? = some 0 := by
  rw [Server.handle_listRequest hs hrev, hlisting]
  split
  · rw [← cString_getFileList hout h]
    simp [Datagram.listReply, Datagram.ofString]
  · next hzero =>
    refine iff_of_false (by simp) fun hend ↦ hzero ?_
    have hat : (getFileList s.buff (some out)).bytes[out.length]? = some 0 := by
      rw [getElem?_getFileList hout (by omega), if_neg (Nat.lt_irrefl _), hend]
    exact List.mem_of_getElem? hat

end Strings

section History

variable {buff : Buffer 4096} {s : Server} {st : Listings} {i : Arrival} {e : Surroundings}
  {rev : Datagram} {out : List UInt8}

private theorem handle_buff (h : ¬ (s.phase = .request ∧ rev.type = listRequest)) :
    (s.handle e rev).party.buff = s.buff := by
  rw [Server.handle_party]
  by_cases hs : s.phase = .request
  · have hlist : rev.type ≠ listRequest := fun hrev ↦ h ⟨hs, hrev⟩
    simp only [if_neg (not_not.mpr hs), if_neg hlist]
    split_ifs <;> rfl
  · simp only [if_pos hs]

namespace Listings

private theorem next_buff (st : Listings) (i : Arrival) :
    (st.next i).server.buff = (st.server.handle i.1 i.2).party.buff := by
  rw [next]
  split <;> rfl

private theorem next_lists_buff (hi : st.Lists i) :
    (st.next i).server.buff = getFileList st.server.buff i.1.listing := by
  rw [next_buff, Server.handle_listRequest hi.1 hi.2]
  split <;> rfl

private theorem forall_listed_next {P : List UInt8 × List Datagram → Prop} (hi : st.Lists i)
    (hlisting : i.1.listing = some out) : (∀ x ∈ (st.next i).listed, P x) ↔
      (∀ x ∈ st.listed, P x) ∧ P (out, (st.server.handle i.1 i.2).sends) := by
  have hlisted : (st.next i).listed = st.listed ++ [(out, (st.server.handle i.1 i.2).sends)] := by
    simp only [next, if_pos hi, hlisting, Option.getD_some]
  rw [hlisted, List.forall_mem_append, List.forall_mem_singleton]

private theorem next_other (hi : ¬ st.Lists i) :
    (st.next i).server.buff = st.server.buff ∧ (st.next i).listed = st.listed :=
  ⟨(next_buff st i).trans (handle_buff hi), if_neg hi⟩

/-- The zeros left in `buff` are those it had from the start behind every listing so far. -/
def Kept (buff : Buffer 4096) (st : Listings) : Prop :=
  ∀ p : ℕ, st.server.buff.bytes[p]? = some 0 ↔
    buff.bytes[p]? = some 0 ∧ ∀ x ∈ st.listed, x.1.length ≤ p

private theorem kept_start (buff : Buffer 4096) : Kept buff (.start buff) := by
  intro p
  simp [start, Server.start]

/-- A listing writes over the zeros in front of its end and no others. -/
theorem Kept.next (h : Kept buff st) (hi : listings.enabled st i) : Kept buff (st.next i) := by
  intro p
  by_cases hlists : st.Lists i
  · obtain ⟨out, hlisting, hout, hzero⟩ := hi hlists
    have hbound : (∀ x ∈ (st.next i).listed, x.1.length ≤ p) ↔
        (∀ x ∈ st.listed, x.1.length ≤ p) ∧ out.length ≤ p := forall_listed_next hlists hlisting
    rw [hbound, next_lists_buff hlists, hlisting, ← and_assoc, ← h p]
    rcases Nat.lt_or_ge p 4096 with hp | hp
    · rw [getElem?_getFileList hout hp]
      split
      · next hlt =>
        exact iff_of_false (fun hat ↦ hzero (List.mem_of_getElem? hat)) fun hat ↦ by omega
      · next hge => simp [Nat.le_of_not_lt hge]
    · -- past the end of the buffer there is nothing on either side
      have hnone (b : Buffer 4096) : b.bytes[p]? = none :=
        List.getElem?_eq_none (by rw [b.size]; exact hp)
      simp [hnone]
  · obtain ⟨hbuff, hlisted⟩ := next_other hlists
    rw [hbuff, hlisted]
    exact h p

/-- A reply is current exactly if the listing is not shorter than an earlier one and `buff` had a
zero at its end from the start. -/
theorem Kept.next_current_iff (h : Kept buff st) (hi : listings.enabled st i) :
    (st.next i).Current ↔ st.Current ∧ Fresh buff st i := by
  by_cases hlists : st.Lists i
  · obtain ⟨out, hlisting, hout, hzero⟩ := hi hlists
    have hreply := sends_listRequest_iff hlists.1 hlists.2 hlisting hout hzero
    have hfresh : Fresh buff st i ↔
        buff.bytes[out.length]? = some 0 ∧ ∀ x ∈ st.listed, x.1.length ≤ out.length := by
      rw [Fresh, hlisting]
      simp only [hlists, Option.mem_some_iff, forall_eq', true_imp_iff]
    rw [Current, forall_listed_next hlists hlisting, hreply, h out.length, hfresh, Current]
  · have hfresh : Fresh buff st i := fun hi ↦ absurd hi hlists
    rw [Current, (next_other hlists).2, and_iff_left hfresh, Current]

/-- No later reply makes up for one that was not current. -/
theorem current_of_next (h : (st.next i).Current) : st.Current := by
  intro x hx
  apply h x
  by_cases hi : st.Lists i
  · simp only [next, if_pos hi]
    exact List.mem_append_left _ hx
  · rw [(next_other hi).2]
    exact hx

end Listings

end History

section Replies

open Listings

/-- Over any datagrams and any listings, every LIST_REPLY is the present listing with a zero
exactly if no listing is shorter than an earlier one and `buff` had zeros where they end from the
start. -/
theorem listings_current_iff (buff : Buffer 4096) {is : List Arrival}
    (h : listings.Playable (.start buff) is) :
    (listings.play (.start buff) is).Current ↔ listings.Meets (Fresh buff) (.start buff) is := by
  have hthroughout : listings.Throughout Current (.start buff) is ↔
      listings.Meets (Fresh buff) (.start buff) is :=
    TransitionSystem.Meets.throughout_iff_meets (I := fun st ↦ Kept buff st ∧ st.Current)
      (fun _ h ↦ h.2) (fun _ _ h hi hC ↦ ⟨h.1.next hi, (h.1.next_current_iff hi).mpr ⟨h.2, hC⟩⟩)
      (fun _ _ h hi hP ↦ ((h.1.next_current_iff hi).mp hP).2)
      ⟨kept_start buff, fun x hx ↦ absurd hx List.not_mem_nil⟩ h.meets
  rw [← hthroughout]
  exact (TransitionSystem.throughout_iff_play (fun _ _ ↦ current_of_next) _ _).symm

def request (listing : List UInt8) : Arrival := (⟨fun _ ↦ none, some listing, []⟩, .listRequest)

def growing : List Arrival :=
  [request [], request [0x61, 0x0a], request [0x61, 0x0a, 0x62, 0x0a]]

def shrinking : List Arrival := [request [0x61, 0x0a, 0x62, 0x0a], request [0x61, 0x0a]]

theorem listings_current_growing : (listings.play (.start (.zeroed 4096)) growing).Current :=
  (listings_current_iff (.zeroed 4096) (by decide)).mpr (by decide)

/-- The second reply still names the file that was removed. -/
theorem listings_stale : listings.Playable (.start (.zeroed 4096)) shrinking ∧
    (listings.play (.start (.zeroed 4096)) shrinking).listed =
      [([0x61, 0x0a, 0x62, 0x0a], [⟨listReply, 0, [0x61, 0x0a, 0x62, 0x0a, 0]⟩]),
        ([0x61, 0x0a], [⟨listReply, 0, [0x61, 0x0a, 0x62, 0x0a, 0]⟩])] ∧
    ¬ (listings.play (.start (.zeroed 4096)) shrinking).Current := by
  decide

end Replies

end NetworkingLabs.Ftp
