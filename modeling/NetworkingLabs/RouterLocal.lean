import NetworkingLabs.NewestVersion
import NetworkingLabs.RouterDVInvariant
import NetworkingLabs.TransitionSystem

/-!
# The vectors of one router under any calls

Nothing is assumed of the other routers: `updateC` and `updateDV` are called in any order, with
any rows and any versions. The sums that the loops compute are recorded.
-/
namespace NetworkingLabs.Routing
open TransitionSystem

namespace DV

section Sums

variable {tot tgt : ℕ} {v : DV}

def passOffers (cand : DV → ℕ → ℤ) (hop : ℕ → ℕ) : List ℕ → DV → List ℤ
  | [], _ => []
  | i :: is, v => cand v i :: passOffers cand hop is (v.offer (cand v i) (hop i) i).1

def updateDVSums (tot tgt : ℕ) (v : DV) : List ℤ :=
  passOffers (fun v i => v.c tgt + v.d tgt i) (fun _ => tgt) (List.range' 1 tot)
    (pass (fun v i => v.c i) id (List.range' 1 tot) v).1

def updateDVFromSums (tot exRID : ℕ) (exDV : ℕ → ℤ) (version : ℤ) (v : DV) : List ℤ :=
  if version < v.version then []
  else
    let w := if v.version < version then { v with version := version }.reset else v
    updateDVSums tot exRID { w with d := Function.update w.d exRID exDV }

def updateCSums (tot : ℕ) (lst : ℤ) (tgt : ℕ) (value : ℤ) (v : DV) : List ℤ :=
  let value := if value = -1 then inf else value
  if v.c tgt = value then []
  else if value < v.c tgt then updateDVSums tot tgt { v with c := Function.update v.c tgt value }
  else
    let w := { v with version := lst + 1 }.reset
    updateDVSums tot tgt { w with c := Function.update w.c tgt value }

private theorem passOffers_eq {cand : DV → ℕ → ℤ} (hop : ℕ → ℕ) (is : List ℕ)
    (hcand : Steady cand v) : passOffers cand hop is v = is.map (cand v) := by
  induction is generalizing v with
  | nil => rfl
  | cons i is ih =>
    obtain ⟨hsame, hsteady⟩ := hcand.offer (cand v i) (hop i) i
    rw [passOffers, ih hsteady, hsame, List.map_cons]

private theorem updateDVSums_eq (tot : ℕ) (htgt : tgt ≠ v.routerID) :
    updateDVSums tot tgt v = (List.range' 1 tot).map fun i => v.c tgt + v.d tgt i := by
  have hdirect : Steady (fun v i => v.c i) v := fun _ _ => rfl
  have hpass := pass_eq id (List.nodup_range' (s := 1) (n := tot)) hdirect
  have hsteady := steady_jump v.c id (List.range' 1 tot) htgt
  rw [updateDVSums, hpass, passOffers_eq _ _ hsteady]
  simp only [takeAll_c, takeAll_d _ _ _ htgt]

def SumsFit (sums : List ℤ) : Prop := ∀ x ∈ sums, 0 ≤ x ∧ x < 2 ^ 31

private theorem sumsFit_nil : SumsFit [] := nofun

theorem WF.sumsFit (h : WF tot v) (htgt : tgt ≠ v.routerID) : SumsFit (updateDVSums tot tgt v) := by
  rw [updateDVSums_eq tot htgt]
  intro x hx
  obtain ⟨i, hi, rfl⟩ := List.mem_map.mp hx
  have hc := h.c_range tgt
  have hd := h.d_range tgt i (mem_range'.mp hi)
  simp only [inf] at hc hd
  omega

end Sums

section Relaxed

variable {tot tgt ex : ℕ} {v : DV} {lst value version : ℤ} {row : ℕ → ℤ}

/-- No neighbour offers less than the own row, and every hop is a neighbour that offers no more. -/
structure Relaxed (tot : ℕ) (v : DV) : Prop where
  via : ∀ t i, 1 ≤ t ∧ t ≤ tot → 1 ≤ i ∧ i ≤ tot → v.own i ≤ v.c t + v.d t i
  next : ∀ i, 1 ≤ i ∧ i ≤ tot → v.nextRouter i ≠ 0 →
    (1 ≤ v.nextRouter i ∧ v.nextRouter i ≤ tot) ∧ v.nextRouter i ≠ v.routerID ∧
      v.c (v.nextRouter i) ≤ v.own i ∧ v.own i < inf

private theorem relaxed_empty (hc : ∀ t, 0 ≤ v.c t) (hd : v.d = emptyTable v.routerID)
    (hn : ∀ i, v.nextRouter i = 0) : Relaxed tot v := by
  refine ⟨?_, fun i _ h => absurd (hn i) h⟩
  intro t i _ _
  have hct := hc t
  rw [own, hd]
  by_cases ht : t = v.routerID
  · rw [ht] at hct ⊢
    omega
  · have hti : emptyTable v.routerID t i = inf := if_neg fun h => ht h.1
    have hle := (emptyTable_range v.routerID v.routerID i).2
    omega

/-- The loops close the table again, if only the offers of one neighbour were missing. -/
theorem Relaxed.updateDV (hwf : WF tot v) (htgt : tgt ≠ v.routerID) (hid : 1 ≤ tgt ∧ tgt ≤ tot)
    (hover : ∀ t i, t ≠ tgt → 1 ≤ t ∧ t ≤ tot → 1 ≤ i ∧ i ≤ tot → v.own i ≤ v.c t + v.d t i)
    (hnext : ∀ i, 1 ≤ i ∧ i ≤ tot → v.nextRouter i ≠ 0 →
      (1 ≤ v.nextRouter i ∧ v.nextRouter i ≤ tot) ∧ v.nextRouter i ≠ v.routerID ∧
        v.c (v.nextRouter i) ≤ v.own i ∧ v.own i < inf) :
    Relaxed tot (updateDV tot tgt v).1 := by
  have hown : ∀ i, 1 ≤ i ∧ i ≤ tot → v.own i ≤ inf := fun i hi => (hwf.d_range _ i hi).2
  have hct := hwf.c_range tgt
  refine ⟨?_, ?_⟩
  · intro t i ht hi
    rw [updateDV_c tot htgt]
    have hcases := updateDV_cases htgt hi
    by_cases hme : t = v.routerID
    · have hrow : (DV.updateDV tot tgt v).1.d t i = (DV.updateDV tot tgt v).1.own i := by
        rw [own, updateDV_routerID tot htgt, hme]
      rw [hrow, hme, hwf.c_self]
      omega
    · rw [updateDV_d tot htgt hme]
      by_cases hlast : t = tgt
      · rw [hlast]
        omega
      · have hti := hover t i hlast ht hi
        omega
  · intro i hi
    rw [updateDV_c tot htgt, updateDV_routerID tot htgt]
    have hi' := hown i hi
    rcases updateDV_cases htgt hi with ⟨ho, hn, -⟩ | ⟨ho, hn, hlt, -⟩ | ⟨ho, hn, hlt, -⟩ <;>
      rw [ho, hn]
    · exact hnext i hi
    · refine fun _ => ⟨hi, ?_, le_rfl, hlt.trans_le hi'⟩
      rintro rfl
      rw [hwf.c_self, hwf.own_self] at hlt
      exact lt_irrefl _ hlt
    · have hd := hwf.d_range tgt i hi
      exact fun _ => ⟨hid, htgt, by omega, hlt.trans_le hi'⟩

private theorem relaxed_init (r : ℕ) : Relaxed tot (init r) := by
  refine relaxed_empty ?_ rfl fun _ => rfl
  intro t
  have := inf_pos
  by_cases ht : t = r
  · simp [init, ht]
  · simp [init, ht, inf_pos.le]

theorem Relaxed.updateC (h : Relaxed tot v) (lst : ℤ) (hwf : WF tot v) (htgt : tgt ≠ v.routerID)
    (hid : 1 ≤ tgt ∧ tgt ≤ tot) (hv : value = -1 ∨ 0 ≤ value ∧ value < inf) :
    Relaxed tot (updateC tot lst tgt value v).1 := by
  have hset := hwf.setC htgt (linkLen_range hv)
  rcases updateC_cases tot lst tgt value v with ⟨-, he⟩ | ⟨hlt, he⟩ | ⟨-, he⟩ <;> rw [he]
  · exact h
  · -- a shorter link leaves the other offers and makes no hop worse
    refine .updateDV hset htgt hid ?_ ?_
    · intro t i ht htr hi
      show v.own i ≤ Function.update v.c tgt (linkLen value) t + v.d t i
      rw [Function.update_of_ne ht]
      exact h.via t i htr hi
    · intro i hi hn
      obtain ⟨h1, h2, h3, h4⟩ := h.next i hi hn
      refine ⟨h1, h2, ?_, h4⟩
      show Function.update v.c tgt (linkLen value) (v.nextRouter i) ≤ v.own i
      by_cases hhop : v.nextRouter i = tgt
      · rw [hhop] at h3 ⊢
        rw [Function.update_self]
        exact hlt.le.trans h3
      · rwa [Function.update_of_ne hhop]
  · have hempty : Relaxed tot ({ v with
        version := lst + 1
        c := Function.update v.c tgt (linkLen value) } : DV).reset :=
      relaxed_empty (fun t => (hset.c_range t).1) rfl fun _ => rfl
    exact .updateDV (hset.setVersion _).reset htgt hid (fun t i _ => hempty.via t i) hempty.next

theorem Relaxed.updateDVFrom (h : Relaxed tot v) (version : ℤ) (hwf : WF tot v)
    (hex : ex ≠ v.routerID) (hid : 1 ≤ ex ∧ ex ≤ tot)
    (hrow : ∀ i, 1 ≤ i ∧ i ≤ tot → 0 ≤ row i ∧ row i ≤ inf) :
    Relaxed tot (updateDVFrom tot ex row version v).1 := by
  -- the stored row only changes what this neighbour offers
  have hstore : ∀ {w : DV}, WF tot w → Relaxed tot w → ex ≠ w.routerID →
      Relaxed tot (DV.updateDV tot ex { w with d := Function.update w.d ex row }).1 := by
    intro w hw hr hexw
    have hown : own { w with d := Function.update w.d ex row } = w.own := by
      simp [own, hexw.symm]
    refine .updateDV (hw.store hexw hrow) hexw hid ?_ ?_
    · intro t i ht htr hi
      rw [hown]
      simpa [Function.update_of_ne ht] using hr.via t i htr hi
    · rw [hown]
      exact hr.next
  rcases updateDVFrom_cases tot ex row version v with ⟨-, he⟩ | ⟨-, he⟩ | ⟨-, he⟩ <;> rw [he]
  · exact h
  · exact hstore hwf h hex
  · exact hstore (hwf.setVersion version).reset
      (relaxed_empty (fun t => (hwf.c_range t).1) rfl fun _ => rfl) hex

end Relaxed

section Calls

/-- The calls that change the vectors; the static counter changes with the calls of others too. -/
inductive Call
  | updateC (tgtRID : ℕ) (value : ℤ)
  | updateDV (exRID : ℕ) (exDV : ℕ → ℤ) (version : ℤ)
  | elsewhere (lstChangeVersion : ℤ)

def RowInRange (tot : ℕ) (row : ℕ → ℤ) : Prop := ∀ i, 1 ≤ i ∧ i ≤ tot → 0 ≤ row i ∧ row i ≤ inf

def Call.Valid (tot me : ℕ) : Call → Prop
  | updateC tgtRID value =>
    ((1 ≤ tgtRID ∧ tgtRID ≤ tot) ∧ tgtRID ≠ me) ∧ (value = -1 ∨ 0 ≤ value ∧ value < inf)
  | updateDV exRID exDV _ => ((1 ≤ exRID ∧ exRID ≤ tot) ∧ exRID ≠ me) ∧ RowInRange tot exDV
  | elsewhere _ => True

/-- The vectors, the counter, and the sums computed so far. -/
structure Called where
  dv : DV
  lstChangeVersion : ℤ
  sums : List ℤ

def Called.call (tot : ℕ) (s : Called) : Call → Called
  | .updateC tgtRID value =>
    let out := DV.updateC tot s.lstChangeVersion tgtRID value s.dv
    ⟨out.1, out.2.1, s.sums ++ updateCSums tot s.lstChangeVersion tgtRID value s.dv⟩
  | .updateDV exRID exDV version =>
    ⟨(updateDVFrom tot exRID exDV version s.dv).1, s.lstChangeVersion,
      s.sums ++ updateDVFromSums tot exRID exDV version s.dv⟩
  | .elsewhere lst => { s with lstChangeVersion := lst }

def calls (tot me : ℕ) : TransitionSystem Called Call where
  init s := (1 ≤ me ∧ me ≤ tot) ∧ ∃ lst, s = ⟨.init me, lst, []⟩
  enabled _ c := c.Valid tot me
  next s c := s.call tot c

structure CalledInv (tot me : ℕ) (s : Called) : Prop where
  routerID : s.dv.routerID = me
  wf : WF tot s.dv
  direct : Direct tot s.dv
  relaxed : Relaxed tot s.dv
  sums : SumsFit s.sums

variable {tot me : ℕ} {s : Called}

private theorem calledInv_init (hme : 1 ≤ me ∧ me ≤ tot) (lst : ℤ) :
    CalledInv tot me ⟨.init me, lst, []⟩ :=
  ⟨rfl, wf_init hme, direct_init me, relaxed_init me, sumsFit_nil⟩

/-- What `updateDV(exRID, exDV, version)` stores first keeps the numbers in range. -/
theorem WF.sumsFit_updateDVFrom {v : DV} {ex : ℕ} {row : ℕ → ℤ} (h : WF tot v)
    (hex : ex ≠ v.routerID) (hrow : RowInRange tot row) (version : ℤ) :
    SumsFit (updateDVFromSums tot ex row version v) := by
  unfold updateDVFromSums
  split_ifs
  · exact sumsFit_nil
  · exact ((h.setVersion version).reset.store hex hrow).sumsFit hex
  · exact (h.store hex hrow).sumsFit hex

theorem WF.sumsFit_updateC {v : DV} {tgt : ℕ} {value : ℤ} (h : WF tot v) (lst : ℤ)
    (htgt : tgt ≠ v.routerID) (hv : value = -1 ∨ 0 ≤ value ∧ value < inf) :
    SumsFit (updateCSums tot lst tgt value v) := by
  have hset := h.setC htgt (linkLen_range hv)
  have hlen : (if value = -1 then inf else value) = linkLen value := rfl
  simp only [updateCSums, hlen]
  split_ifs
  · exact sumsFit_nil
  · exact hset.sumsFit htgt
  · exact (hset.setVersion (lst + 1)).reset.sumsFit htgt

theorem SumsFit.append {xs ys : List ℤ} (hx : SumsFit xs) (hy : SumsFit ys) :
    SumsFit (xs ++ ys) := by
  intro x h
  rcases List.mem_append.mp h with h | h
  · exact hx x h
  · exact hy x h

theorem CalledInv.call (h : CalledInv tot me s) {c : Call} (hc : c.Valid tot me) :
    CalledInv tot me (s.call tot c) := by
  have hwf := h.wf
  cases c with
  | updateC tgtRID value =>
    obtain ⟨⟨hid, hne⟩, hv⟩ := hc
    rw [← h.routerID] at hne
    have hpos : tgtRID ≠ 0 := by omega
    obtain ⟨h1, h2⟩ := wf_updateC s.lstChangeVersion hwf h.direct hne hpos hv
    refine ⟨(updateC_routerID tot s.lstChangeVersion value hne).trans h.routerID, h1, h2,
      h.relaxed.updateC _ hwf hne hid hv, ?_⟩
    exact h.sums.append (hwf.sumsFit_updateC _ hne hv)
  | updateDV exRID exDV version =>
    obtain ⟨⟨hid, hne⟩, hrow⟩ := hc
    rw [← h.routerID] at hne
    have hpos : exRID ≠ 0 := by omega
    obtain ⟨h1, h2⟩ := wf_updateDVFrom version hwf h.direct hne hpos hrow
    have hadvances : Advances tot s.dv (updateDVFrom tot exRID exDV version s.dv).1 :=
      advances_updateDVFrom hne
    refine ⟨hadvances.routerID.trans h.routerID, h1, h2,
      h.relaxed.updateDVFrom version hwf hne hid hrow, ?_⟩
    exact h.sums.append (hwf.sumsFit_updateDVFrom hne hrow version)
  | elsewhere lst => exact ⟨h.routerID, hwf, h.direct, h.relaxed, h.sums⟩

theorem calledInv_of_reachable (h : (calls tot me).Reachable s) : CalledInv tot me s := by
  apply h.invariant
  · rintro s ⟨hme, lst, rfl⟩
    exact calledInv_init hme lst
  · intro s c hs hc
    exact hs.call hc

structure Consistent (tot : ℕ) (v : DV) : Prop where
  c_range : ∀ i, 1 ≤ i ∧ i ≤ tot → 0 ≤ v.c i ∧ v.c i ≤ inf
  d_range : ∀ t i, 1 ≤ t ∧ t ≤ tot → 1 ≤ i ∧ i ≤ tot → 0 ≤ v.d t i ∧ v.d t i ≤ inf
  zero : v.c v.routerID = 0 ∧ v.d v.routerID v.routerID = 0
  direct : ∀ i, 1 ≤ i ∧ i ≤ tot → v.d v.routerID i ≤ v.c i
  via : ∀ t i, 1 ≤ t ∧ t ≤ tot → 1 ≤ i ∧ i ≤ tot → v.d v.routerID i ≤ v.c t + v.d t i
  unreached : ∀ i, 1 ≤ i ∧ i ≤ tot → i ≠ v.routerID →
    (v.nextRouter i = 0 ↔ v.d v.routerID i = inf)
  hop : ∀ i, 1 ≤ i ∧ i ≤ tot → i ≠ v.routerID → v.nextRouter i ≠ 0 →
    (1 ≤ v.nextRouter i ∧ v.nextRouter i ≤ tot) ∧ v.nextRouter i ≠ v.routerID ∧
      v.c (v.nextRouter i) ≤ v.d v.routerID i ∧ v.c (v.nextRouter i) < inf

theorem CalledInv.consistent (h : CalledInv tot me s) : Consistent tot s.dv := by
  have hwf := h.wf
  refine ⟨fun i _ => hwf.c_range i, fun t i _ => hwf.d_range t i, ⟨hwf.c_self, hwf.own_self⟩,
    h.direct, h.relaxed.via, ?_, ?_⟩
  · intro i hi hne
    constructor
    · intro hn
      by_contra hlt
      have hle := (hwf.d_range s.dv.routerID i hi).2
      exact hwf.reached i hi hne (lt_of_le_of_ne hle hlt) hn
    · intro hinf
      by_contra hn
      exact (h.relaxed.next i hi hn).2.2.2.ne hinf
  · intro i hi _ hn
    obtain ⟨h1, h2, h3, h4⟩ := h.relaxed.next i hi hn
    exact ⟨h1, h2, h3, h3.trans_lt h4⟩

/-- After any calls the vectors are closed under relaxation through every neighbour, the hops
lead over links that are up, and no sum has left `int`. -/
theorem calls_consistent (h : (calls tot me).Reachable s) :
    Consistent tot s.dv ∧ ∀ x ∈ s.sums, 0 ≤ x ∧ x < 2 ^ 31 :=
  ⟨(calledInv_of_reachable h).consistent, (calledInv_of_reachable h).sums⟩

def firstCalls : List Call := [.updateC 2 5, .updateDV 2 (fun i => if i = 3 then 7 else 0) 0]

private theorem firstCalls_reachable :
    (calls 3 1).Reachable ((calls 3 1).play ⟨.init 1, 0, []⟩ firstCalls) := by
  have h0 : (calls 3 1).Reachable ⟨.init 1, 0, []⟩ := .init ⟨by decide, 0, rfl⟩
  apply h0.play
  refine ⟨by simp [calls, Call.Valid, inf], ⟨by decide, ?_⟩, trivial⟩
  intro i _
  dsimp only
  split_ifs <;> simp [inf]

theorem calls_consistent_first :
    Consistent 3 ((calls 3 1).play ⟨.init 1, 0, []⟩ firstCalls).dv :=
  (calls_consistent firstCalls_reachable).1

end Calls

section Order

structure Update where
  exRID : ℕ
  exDV : ℕ → ℤ
  version : ℤ

def Update.Valid (tot me : ℕ) (a : Update) : Prop :=
  (Call.updateDV a.exRID a.exDV a.version).Valid tot me

/-- `updateDV` for several packets, without an `updateC` in between. -/
def updateDVAll (tot : ℕ) (v : DV) (as : List Update) : DV :=
  as.foldl (fun v a => (updateDVFrom tot a.exRID a.exDV a.version v).1) v

abbrev Target (tot : ℕ) := { i : ℕ // 1 ≤ i ∧ i ≤ tot }

/-- The version and the own row, what `toString` sends. -/
def known (tot : ℕ) (v : DV) : Versioned ℤ (Target tot → ℤ) := ⟨v.version, fun i => v.own i⟩

def directRow (v : DV) (i : ℕ) : ℤ := min (emptyTable v.routerID v.routerID i) (v.c i)

/-- What a packet tells a router with these links. -/
def Update.told (tot : ℕ) (v : DV) (a : Update) : Versioned ℤ (Target tot → ℤ) :=
  ⟨a.version, fun i => min (v.directRow i) (v.c a.exRID + a.exDV i)⟩

variable {tot tgt ex i : ℕ} {v : DV} {a : Update} {as bs : List Update}

private theorem updateDV_own (htgt : tgt ≠ v.routerID) (hi : 1 ≤ i ∧ i ≤ tot) :
    (updateDV tot tgt v).1.own i = min (min (v.own i) (v.c i)) (v.c tgt + v.d tgt i) := by
  have hcases := updateDV_cases htgt hi
  omega

private theorem updateDV_store_own (hex : ex ≠ v.routerID) (row : ℕ → ℤ) (hi : 1 ≤ i ∧ i ≤ tot) :
    (updateDV tot ex { v with d := Function.update v.d ex row }).1.own i =
      min (min (v.own i) (v.c i)) (v.c ex + row i) := by
  have hown : own { v with d := Function.update v.d ex row } = v.own := by
    simp [own, hex.symm]
  have hex' : ex ≠ ({ v with d := Function.update v.d ex row } : DV).routerID := hex
  rw [updateDV_own hex' hi, hown]
  show min _ (v.c ex + Function.update v.d ex row ex i) = _
  rw [Function.update_self]

structure Knows (tot me : ℕ) (c : ℕ → ℤ) (v : DV) : Prop where
  routerID : v.routerID = me
  c : v.c = c
  wf : WF tot v
  direct : Direct tot v

theorem Knows.own_le_directRow {me : ℕ} {c : ℕ → ℤ} (h : Knows tot me c v)
    (hi : 1 ≤ i ∧ i ≤ tot) : v.own i ≤ v.directRow i := by
  refine le_min ?_ (h.direct i hi)
  by_cases hme : i = v.routerID
  · rw [hme, h.wf.own_self]
    exact (emptyTable_range _ _ _).1
  · rw [emptyTable, if_neg fun he => hme he.2]
    exact (h.wf.d_range v.routerID i hi).2

private theorem known_updateDVFrom (hle : ∀ i, 1 ≤ i ∧ i ≤ tot → v.own i ≤ v.directRow i)
    (hex : a.exRID ≠ v.routerID) :
    known tot (updateDVFrom tot a.exRID a.exDV a.version v).1 = known tot v ⊔ a.told tot v := by
  rw [Versioned.sup_eq_merge]
  rcases updateDVFrom_cases tot a.exRID a.exDV a.version v with ⟨h, he⟩ | ⟨h, he⟩ | ⟨h, he⟩ <;>
    rw [he]
  · exact (Versioned.merge_of_gt h).symm
  · rw [Versioned.merge_of_eq h.symm]
    ext i
    · exact updateDV_version tot hex
    · have hi := hle i i.2
      have hc : v.own i ≤ v.c i := hi.trans (min_le_right _ _)
      calc (updateDV tot a.exRID { v with d := Function.update v.d a.exRID a.exDV }).1.own i
          = min (v.own i) (v.c a.exRID + a.exDV i) := by
            rw [updateDV_store_own hex a.exDV i.2, min_eq_left hc]
        _ = min (v.own i) (min (v.directRow i) (v.c a.exRID + a.exDV i)) := by
            rw [← min_assoc, min_eq_left hi]
  · rw [Versioned.merge_of_lt h]
    ext i
    · exact updateDV_version tot hex
    · have hreset : a.exRID ≠ ({ v with version := a.version } : DV).reset.routerID := hex
      exact updateDV_store_own hreset a.exDV i.2

private theorem learns_updateDVFrom (tot : ℕ) (v : DV) :
    Learns (fun w a => (updateDVFrom tot a.exRID a.exDV a.version w).1) (known tot)
      (Update.told tot v) (Knows tot v.routerID v.c) (Update.Valid tot v.routerID) where
  keeps w a hw ha := by
    obtain ⟨⟨hid, hne⟩, hrow⟩ := ha
    rw [← hw.routerID] at hne
    have hadvances : Advances tot w (updateDVFrom tot a.exRID a.exDV a.version w).1 :=
      advances_updateDVFrom hne
    obtain ⟨h1, h2⟩ := wf_updateDVFrom a.version hw.wf hw.direct hne (by omega) hrow
    exact ⟨hadvances.routerID.trans hw.routerID, (updateDVFrom_c tot hne _ _).trans hw.c, h1, h2⟩
  joins w a hw ha := by
    have hne : a.exRID ≠ w.routerID := hw.routerID.symm ▸ ha.1.2
    have htold : a.told tot v = a.told tot w := by
      simp only [Update.told, directRow, hw.routerID, hw.c]
    rw [htold]
    exact known_updateDVFrom (fun i hi => hw.own_le_directRow hi) hne

/-- In which order some packets arrive does not matter for what the router sends afterwards. -/
theorem updateDVAll_perm {me : ℕ} {s : Called} (h : (calls tot me).Reachable s)
    (hvalid : ∀ a ∈ as, a.Valid tot me) (hperm : as.Perm bs) :
    (updateDVAll tot s.dv as).version = (updateDVAll tot s.dv bs).version ∧
    ∀ i, 1 ≤ i ∧ i ≤ tot →
      (updateDVAll tot s.dv as).own i = (updateDVAll tot s.dv bs).own i := by
  have hs := calledInv_of_reachable h
  rw [← hs.routerID] at hvalid
  have hknown : known tot (updateDVAll tot s.dv as) = known tot (updateDVAll tot s.dv bs) :=
    (learns_updateDVFrom tot s.dv).perm ⟨rfl, rfl, hs.wf, hs.direct⟩ hvalid hperm
  exact ⟨congrArg Versioned.version hknown,
    fun i hi => congrFun (congrArg Versioned.value hknown) ⟨i, hi⟩⟩

/-- An equal and a newer version, one before the other. -/
theorem updateDVAll_perm_two :
    let v := ((calls 3 1).play ⟨.init 1, 0, []⟩ firstCalls).dv
    let a : Update := ⟨3, fun _ => 4, 0⟩
    let b : Update := ⟨2, fun _ => 9, 1⟩
    (updateDVAll 3 v [a, b]).version = (updateDVAll 3 v [b, a]).version := by
  refine (updateDVAll_perm firstCalls_reachable ?_ (.swap _ _ [])).1
  intro a ha
  rcases List.mem_pair.mp ha with rfl | rfl
  · exact ⟨by decide, fun i _ => ⟨by simp, by simp [inf]⟩⟩
  · exact ⟨by decide, fun i _ => ⟨by simp, by simp [inf]⟩⟩

end Order

end DV
end NetworkingLabs.Routing
