import NetworkingLabs.RouterQuiescence
import Mathlib.Algebra.BigOperators.Group.Finset.Piecewise
import Mathlib.Algebra.Module.NatInt
import Mathlib.Algebra.Order.BigOperators.Group.Finset
import Mathlib.Algebra.Order.Ring.Int
import Mathlib.Tactic.Positivity

/-!
# Convergence

As long as the controller changes nothing, the packets die out: every router broadcasts only
after its vectors have gone down, and there is a bottom. What is left then are the exact
distances.
-/
namespace NetworkingLabs.Routing
open WeightedWalks TransitionSystem

namespace DV

variable {tot tgt ex : ℕ} {v v' : DV} {lst version : ℤ} {row : ℕ → ℤ}

/-- How far the vectors can still go down: a later version counts for more than everything
that may be forgotten with the earlier one. -/
def height (tot : ℕ) (lst : ℤ) (v : DV) : ℤ :=
  (lst - v.version) * (tot * inf + 1) + ∑ i ∈ Finset.Icc 1 tot, (v.own i + v.c i)

def Drops (tot : ℕ) (v v' : DV) : Prop :=
  v.version < v'.version ∨ ∃ i, (1 ≤ i ∧ i ≤ tot) ∧ (v'.own i < v.own i ∨ v'.c i < v.c i)

theorem WF.own_range (h : WF tot v) {i : ℕ} (hi : 1 ≤ i ∧ i ≤ tot) :
    0 ≤ v.own i ∧ v.own i ≤ inf :=
  h.d_range v.routerID i hi

theorem WF.height_nonneg (h : WF tot v) (hver : v.version ≤ lst) : 0 ≤ v.height tot lst := by
  have hinf := inf_pos
  have hfactor : 0 ≤ (tot : ℤ) * inf + 1 := by positivity
  have hsum : 0 ≤ ∑ i ∈ Finset.Icc 1 tot, (v.own i + v.c i) := by
    apply Finset.sum_nonneg
    intro i hi
    have hown := h.own_range (Finset.mem_Icc.mp hi)
    have hc := h.c_range i
    omega
  have hprod : 0 ≤ (lst - v.version) * (tot * inf + 1) := mul_nonneg (by omega) hfactor
  exact add_nonneg hprod hsum

/-- A new version makes up for all that is forgotten. -/
theorem WF.height_lt_of_version (h : WF tot v) (h' : WF tot v') (hc : ∀ t, v'.c t ≤ v.c t)
    (hver : v.version < v'.version) : v'.height tot lst < v.height tot lst := by
  have hfactor : 0 ≤ (tot : ℤ) * inf + 1 := by
    have hinf := inf_pos
    positivity
  have hsum : ∑ i ∈ Finset.Icc 1 tot, (v'.own i + v'.c i) ≤
      ∑ i ∈ Finset.Icc 1 tot, (v.own i + v.c i) + tot * inf := by
    calc ∑ i ∈ Finset.Icc 1 tot, (v'.own i + v'.c i)
        ≤ ∑ i ∈ Finset.Icc 1 tot, ((v.own i + v.c i) + inf) := by
          apply Finset.sum_le_sum
          intro i hi
          have hown := h.own_range (Finset.mem_Icc.mp hi)
          have hown' := h'.own_range (Finset.mem_Icc.mp hi)
          have hci := hc i
          omega
      _ = ∑ i ∈ Finset.Icc 1 tot, (v.own i + v.c i) + tot * inf := by
          rw [Finset.sum_add_distrib (g := fun _ => inf), Finset.sum_const, Nat.card_Icc,
            nsmul_eq_mul, Nat.add_sub_cancel]
  have hprod : (lst - v'.version) * ((tot : ℤ) * inf + 1) ≤
      (lst - v.version - 1) * ((tot : ℤ) * inf + 1) :=
    mul_le_mul_of_nonneg_right (by omega) hfactor
  rw [sub_mul _ 1, one_mul] at hprod
  unfold height
  omega

theorem Advances.height_le (h : Advances tot v v') (hwf : WF tot v) (hwf' : WF tot v')
    (hc : ∀ t, v'.c t ≤ v.c t) : v'.height tot lst ≤ v.height tot lst := by
  rcases h.version.lt_or_eq with hver | hver
  · exact (hwf.height_lt_of_version hwf' hc hver).le
  · unfold height
    rw [hver]
    gcongr with i hi
    · exact h.own_le hver.symm i (Finset.mem_Icc.mp hi)
    · exact hc i

theorem Advances.height_lt (h : Advances tot v v') (hwf : WF tot v) (hwf' : WF tot v')
    (hc : ∀ t, v'.c t ≤ v.c t) (hdrops : Drops tot v v') :
    v'.height tot lst < v.height tot lst := by
  rcases h.version.lt_or_eq with hver | hver
  · exact hwf.height_lt_of_version hwf' hc hver
  · obtain ⟨i, hi, hlt⟩ := hdrops.resolve_left hver.not_lt
    unfold height
    rw [hver]
    refine Int.add_lt_add_left (Finset.sum_lt_sum ?_ ⟨i, Finset.mem_Icc.mpr hi, ?_⟩) _
    · intro j hj
      exact add_le_add (h.own_le hver.symm j (Finset.mem_Icc.mp hj)) (hc j)
    · have hown := h.own_le hver.symm i hi
      have hci := hc i
      omega

theorem updateDV_true (htgt : tgt ≠ v.routerID) (h : (updateDV tot tgt v).2 = true) :
    ∃ i, (1 ≤ i ∧ i ≤ tot) ∧ (updateDV tot tgt v).1.own i < v.own i := by
  have hnot : ¬ (updateDV tot tgt v).2 = false := by simp [h]
  rw [updateDV_false] at hnot
  push Not at hnot
  obtain ⟨i, hi, hlt⟩ := hnot
  refine ⟨i, hi, ?_⟩
  have hcases := updateDV_cases htgt hi
  by_cases hle : v.own i ≤ v.c i
  · have := hlt hle
    omega
  · omega

theorem updateDVFrom_true (hex : ex ≠ v.routerID)
    (h : (updateDVFrom tot ex row version v).2 = true) :
    Drops tot v (updateDVFrom tot ex row version v).1 := by
  rcases updateDVFrom_cases tot ex row version v with ⟨-, he⟩ | ⟨-, he⟩ | ⟨hlt, he⟩ <;>
    rw [he] at h ⊢
  · cases h
  · obtain ⟨i, hi, hown⟩ := updateDV_true (by exact hex) h
    refine Or.inr ⟨i, hi, Or.inl ?_⟩
    simpa [own, hex.symm] using hown
  · left
    rw [updateDV_version tot (by exact hex)]
    exact hlt

private theorem updateC_of_zero {value : ℤ} (h : (updateC tot lst tgt value v).2.2 = 0) :
    (updateC tot lst tgt value v).1 = v := by
  rcases updateC_cases tot lst tgt value v with ⟨-, he⟩ | ⟨-, he⟩ | ⟨-, he⟩ <;> rw [he] at h ⊢
  · exact absurd (show (-1 : ℤ) = 0 from h) (by decide)
  · exact absurd (show (1 : ℤ) = 0 from h) (by decide)

theorem Drops.of_advances {w : DV} (h : Drops tot w v') (hadv : Advances tot v w)
    (hver : w.version = v.version) : Drops tot v v' := by
  rcases h with hlt | ⟨i, hi, hlt⟩
  · exact Or.inl (hver ▸ hlt)
  · have hown := hadv.own_le hver i hi
    have hc := hadv.c_le hver i
    exact Or.inr ⟨i, hi, by omega⟩

/-- `updateC` with a length that is no longer than before makes no version, and reports a change
only if the link has become shorter. -/
theorem updateC_of_le {value : ℤ} (htgt : tgt ≠ v.routerID) (hle : linkLen value ≤ v.c tgt) :
    (updateC tot lst tgt value v).2.1 = lst ∧
    (updateC tot lst tgt value v).1.version = v.version ∧
    ((updateC tot lst tgt value v).2.2 = 0 ∨ linkLen value < v.c tgt) := by
  rcases updateC_cases tot lst tgt value v with ⟨-, he⟩ | ⟨hlt, he⟩ | ⟨hlt, -⟩
  · rw [he]
    exact ⟨rfl, rfl, Or.inl rfl⟩
  · rw [he]
    exact ⟨rfl, updateDV_version tot (by exact htgt), Or.inr hlt⟩
  · omega

end DV

variable {C : Cabling} {st : Fifo} {lossySt : Lossy} {lo : ℤ → ℕ → ℕ → ℤ} {r s t : ℕ} {p : ℤ}
  {inPort : ℤ} {pk : Packet} {lucky : List ℕ} {a : Advert} {w : Routers}

section Height

def Routers.height (C : Cabling) (w : Routers) : ℤ :=
  ∑ r ∈ Finset.Icc 1 C.n, (w.dv r).height C.n w.shared.lstChangeVersion

/-- A finite cost is the length of the port that the router is heard through, so that a
delivery never makes a link longer. -/
theorem NetInv.linkLen_le (h : NetInv C lo lossySt) (hp : C.port r s = some p) :
    DV.linkLen ((lossySt.w.routers r).lenOf p) ≤ (lossySt.w.dv r).c s := by
  obtain ⟨hr, -, hne⟩ := C.ids hp
  have hl := h.linked r hr
  have hc := (h.versions.wf r hr).c_range s
  by_cases hlt : (lossySt.w.dv r).c s < inf
  · obtain ⟨q, hq, hs, hlen⟩ := hl.finite s hne.symm hlt
    have hport := (hl.learned q s hq hs).1
    obtain rfl : q = p := by simpa [hp] using hport.symm
    have hlenOf : (lossySt.w.routers r).lenOf q = (lossySt.w.dv r).c s := by
      rw [Router.lenOf, hlen]
      rfl
    rw [DV.linkLen, hlenOf, if_neg (by omega)]
  · have hrange := DV.linkLen_range (linkValue_lenOf hl.lens p)
    omega

/-- What a delivery does to the heights: the receiver makes no version, nothing goes up, and if
it broadcasts something has gone down. -/
theorem NetInv.deliver_drops (h : NetInv C lo lossySt) (hp : C.port r s = some p)
    (hmem : (s, a) ∈ lossySt.sent) :
    (lossySt.w.call r p a.packet).1.shared.lstChangeVersion =
      lossySt.w.shared.lstChangeVersion ∧
    (∀ t, ((lossySt.w.call r p a.packet).1.dv r).c t ≤ (lossySt.w.dv r).c t) ∧
    ((lossySt.w.call r p a.packet).2 = none ∨
      DV.Drops C.n (lossySt.w.dv r) ((lossySt.w.call r p a.packet).1.dv r)) := by
  obtain ⟨hr, hs, hne⟩ := C.ids hp
  obtain rfl : a.sender = s := (h.versions.sent _ hmem).2.1
  have hne' : a.sender ≠ (lossySt.w.routers r).routerID := by
    rw [(h.linked r hr).routerID]
    exact hne.symm
  have hne1 : a.sender ≠ (lossySt.w.dv r).routerID := by
    rw [h.versions.routerID r hr]
    exact hne.symm
  have hle := h.linkLen_le hp
  -- what `updateC` makes of the length of the port, and then `updateDV` of the row
  let E := (lossySt.w.routers r).edgeOf lossySt.w.shared p a.sender
  obtain ⟨hlst, hver, hedge⟩ : E.2.1 = lossySt.w.shared.lstChangeVersion ∧
      E.1.version = (lossySt.w.dv r).version ∧ (E.2.2 = 0 ∨ _) :=
    DV.updateC_of_le hne1 hle
  have hadv : DV.Advances lossySt.w.shared.totRouterNum (lossySt.w.dv r) E.1 :=
    DV.advances_updateC hne1 (h.versions.version_le r hr)
  have hne2 : a.sender ≠ E.1.routerID := by rwa [hadv.routerID]
  obtain ⟨hrouter, hshared, hret⟩ := onDV_spec lossySt.w.shared p a.packet a.version a.row hne'
  have hdv : (lossySt.w.call r p a.packet).1.dv r =
      ((lossySt.w.routers r).vecOf lossySt.w.shared p a.sender a.version a.row).1 := by
    rw [call_dv_self]
    exact congrArg Router.dv hrouter
  have hc : (((lossySt.w.routers r).vecOf lossySt.w.shared p a.sender a.version a.row).1).c =
      E.1.c := DV.updateDVFrom_c _ hne2 _ _
  have hedgec : E.1.c = Function.update (lossySt.w.dv r).c a.sender
      (DV.linkLen ((lossySt.w.routers r).lenOf p)) := DV.updateC_c _ hne1 _
  refine ⟨(congrArg Shared.lstChangeVersion hshared).trans hlst, ?_, ?_⟩
  · intro t
    rw [hdv, hc]
    exact hadv.c_le hver t
  · rcases hret with ⟨hret, -⟩ | ⟨-, hchanged, -⟩
    · left
      show Outcome.advert _ = none
      unfold Outcome.advert
      split
      · rename_i hzero _
        exact absurd (hret.symm.trans hzero) (by decide)
      · rfl
    · right
      have hvec : ((lossySt.w.routers r).vecOf lossySt.w.shared p a.sender a.version a.row).2 =
          true ∨ DV.linkLen ((lossySt.w.routers r).lenOf p) < (lossySt.w.dv r).c a.sender := by
        rcases hedge with hedge | hedge
        · left
          by_contra hvec
          exact hchanged ⟨by simpa using hvec, hedge⟩
        · exact Or.inr hedge
      rw [hdv, ← h.tot]
      rcases hvec with hvec | hlt
      · exact (DV.updateDVFrom_true hne2 hvec).of_advances hadv hver
      · rw [← h.tot] at hs
        refine Or.inr ⟨a.sender, hs, Or.inr ?_⟩
        rw [hc, hedgec, Function.update_self]
        exact hlt

theorem NetInv.height_nonneg (h : NetInv C lo lossySt) : 0 ≤ lossySt.w.height C := by
  apply Finset.sum_nonneg
  intro r hr
  have hr' := Finset.mem_Icc.mp hr
  exact (h.versions.wf r hr').height_nonneg (h.versions.version_le r hr')

theorem NetInv.height_deliver (h : NetInv C lo lossySt) (hp : C.port r s = some p)
    (hmem : (s, a) ∈ lossySt.sent) :
    (lossySt.w.call r p a.packet).1.height C ≤ lossySt.w.height C ∧
    ((lossySt.w.call r p a.packet).2 = none ∨
      (lossySt.w.call r p a.packet).1.height C < lossySt.w.height C) := by
  have hr := (C.ids hp).1
  obtain ⟨lo', h'⟩ := h.deliver hp hmem
  obtain ⟨hlst, hc, hdrops⟩ := h.deliver_drops hp hmem
  obtain ⟨-, hadv, -, -⟩ := h.heard_deliver hp hmem
  have hwf := h.versions.wf r hr
  have hwf' : DV.WF C.n ((lossySt.w.call r p a.packet).1.dv r) := h'.versions.wf r hr
  have hpoint : ∀ x ∈ Finset.Icc 1 C.n,
      ((lossySt.w.call r p a.packet).1.dv x).height C.n lossySt.w.shared.lstChangeVersion ≤
        (lossySt.w.dv x).height C.n lossySt.w.shared.lstChangeVersion := by
    intro x _
    by_cases hx : x = r
    · subst hx
      exact hadv.height_le hwf hwf' hc
    · rw [call_dv_of_ne _ _ _ hx]
  unfold Routers.height
  rw [hlst]
  refine ⟨Finset.sum_le_sum hpoint, hdrops.imp_right fun hdrops => ?_⟩
  exact Finset.sum_lt_sum hpoint
    ⟨r, Finset.mem_Icc.mpr hr, hadv.height_lt hwf hwf' hc hdrops⟩

end Height

section Budget

def Fifo.pending (C : Cabling) (st : Fifo) : ℕ :=
  ∑ s ∈ Finset.Icc 1 C.n, ∑ r ∈ Finset.Icc 1 C.n, (st.queue s r).length

/-- A bound for the number of deliveries that are still possible. -/
def Fifo.budget (C : Cabling) (st : Fifo) : ℕ :=
  (C.n + 1) * (st.w.height C).toNat + st.pending C

def FifoMove.isCommand : FifoMove → Bool
  | .portValue _ _ _ | .trigger _ _ => true
  | .deliver _ _ _ | .drop _ _ _ | .plain _ _ _ => false

def FifoMove.isDeliver : FifoMove → Bool
  | .deliver _ _ _ => true
  | .portValue _ _ _ | .trigger _ _ | .drop _ _ _ | .plain _ _ _ => false

private theorem pending_mono {st' : Fifo}
    (h : ∀ x y, (st'.queue x y).length ≤ (st.queue x y).length) : st'.pending C ≤ st.pending C :=
  Finset.sum_le_sum fun x _ => Finset.sum_le_sum fun y _ => h x y

private theorem pending_tail {rest : List Advert} (hs : 1 ≤ s ∧ s ≤ C.n) (hr : 1 ≤ r ∧ r ≤ C.n)
    (hq : st.queue s r = a :: rest) : (st.setQueue s r rest).pending C < st.pending C := by
  have hpoint : ∀ x y, ((st.setQueue s r rest).queue x y).length ≤ (st.queue x y).length := by
    intro x y
    simp only [Fifo.setQueue]
    split
    · rename_i hxy
      obtain ⟨rfl, rfl⟩ := hxy
      simp [hq]
    · exact le_rfl
  refine Finset.sum_lt_sum (fun x _ => Finset.sum_le_sum fun y _ => hpoint x y)
    ⟨s, Finset.mem_Icc.mpr hs, Finset.sum_lt_sum (fun y _ => hpoint s y)
      ⟨r, Finset.mem_Icc.mpr hr, ?_⟩⟩
  simp [Fifo.setQueue, hq]

private theorem pending_broadcast (st : Fifo) (r : ℕ) (lucky : List ℕ) (o : Option Advert) :
    (st.broadcast C r lucky o).pending C ≤ st.pending C + C.n := by
  cases o with
  | none => exact Nat.le_add_right _ _
  | some a =>
    have hpoint : ∀ x y, ((st.broadcast C r lucky (some a)).queue x y).length ≤
        (st.queue x y).length + if x = r then 1 else 0 := by
      intro x y
      simp only [Fifo.broadcast, Fifo.enqueue]
      split
      · rename_i hxy
        simp [hxy.1]
      · exact Nat.le_add_right _ _
    calc (st.broadcast C r lucky (some a)).pending C
        ≤ ∑ x ∈ Finset.Icc 1 C.n, ∑ y ∈ Finset.Icc 1 C.n,
            ((st.queue x y).length + if x = r then 1 else 0) :=
          Finset.sum_le_sum fun x _ => Finset.sum_le_sum fun y _ => hpoint x y
      _ = st.pending C + ∑ x ∈ Finset.Icc 1 C.n, if x = r then C.n else 0 := by
          simp only [Finset.sum_add_distrib, Finset.sum_const, Nat.card_Icc, smul_eq_mul,
            Nat.add_sub_cancel, mul_ite, mul_one, mul_zero]
          rfl
      _ ≤ st.pending C + C.n := by
          rw [Finset.sum_ite_eq']
          split <;> omega

/-- A broadcast costs less than the height that has been lost before it. -/
theorem budget_call {st' : Fifo} (h' : 0 ≤ (st'.w.call r inPort pk).1.height C)
    (hle : (st'.w.call r inPort pk).1.height C ≤ st.w.height C)
    (hdrops : (st'.w.call r inPort pk).2 = none ∨
      (st'.w.call r inPort pk).1.height C < st.w.height C)
    (hpending : st'.pending C < st.pending C) :
    (st'.call C r inPort pk lucky).budget C < st.budget C := by
  unfold Fifo.budget
  rw [call_w]
  rcases hdrops with hnone | hlt
  · have hcall : (st'.call C r inPort pk lucky).pending C = st'.pending C := by
      simp only [Fifo.call, hnone]
      rfl
    rw [hcall]
    have hheight := Nat.mul_le_mul_left (C.n + 1) (Int.toNat_le_toNat hle)
    omega
  · have hcall : (st'.call C r inPort pk lucky).pending C ≤ st'.pending C + C.n :=
      pending_broadcast { st' with w := (st'.w.call r inPort pk).1 } r lucky _
    have hsucc : (st'.w.call r inPort pk).1.height C + 1 ≤ st.w.height C := hlt
    have hheight := Nat.mul_le_mul_left (C.n + 1) (Int.toNat_le_toNat hsucc)
    rw [Int.toNat_add h' (by decide), Nat.mul_add] at hheight
    have hone : (1 : ℤ).toNat = 1 := rfl
    rw [hone] at hheight
    omega

/-- A packet that is not about distance vectors is followed by no broadcast. -/
theorem plain_move (h : st.Allowed C (.plain r inPort pk)) :
    st.move C (.plain r inPort pk) = { st with w := (st.w.call r inPort pk).1 } := by
  obtain ⟨-, -, -, -, -, -, -, hnone⟩ := router_plain (st.w.routers r) st.w.shared inPort h.2
  show Fifo.broadcast C { st with w := (st.w.call r inPort pk).1 } r []
    ((st.w.routers r).router st.w.shared inPort pk).advert = _
  rw [hnone]
  rfl

theorem Fifo.Refines.deliver_move (h : st.Refines C lossySt) {rest : List Advert}
    (hq : st.queue s r = a :: rest) (lucky : List ℕ) :
    ∃ q, C.port r s = some q ∧ (s, a) ∈ lossySt.sent ∧
      st.move C (.deliver s r lucky) = (st.setQueue s r rest).call C r q a.packet lucky := by
  have ha := h.queue s r a (by simp [hq])
  obtain ⟨p, hp⟩ := Option.isSome_iff_exists.mp ha.1
  obtain ⟨q, hback⟩ := C.both hp
  exact ⟨q, hback, ha.2, by simp [Fifo.move, hq, hback]⟩

/-- No move but a command makes the budget larger, and a delivery makes it smaller. -/
theorem budget_move (hreach : (fifo C).Reachable st) {mv : FifoMove}
    (hin : mv.isCommand = false) (hmv : st.Allowed C mv) :
    (st.move C mv).budget C + (if mv.isDeliver then 1 else 0) ≤ st.budget C := by
  obtain ⟨lo, lossySt, href, hinv⟩ := netInv_fifo hreach
  cases mv with
  | portValue r t value => cases hin
  | trigger r lucky => cases hin
  | plain r inPort pk =>
    obtain ⟨hdv, -, -, -, -, -, hlst, -⟩ :=
      router_plain (st.w.routers r) st.w.shared inPort hmv.2
    have hheight : (st.w.call r inPort pk).1.height C = st.w.height C := by
      have hlst' : (st.w.call r inPort pk).1.shared.lstChangeVersion =
          st.w.shared.lstChangeVersion := hlst
      simp only [Routers.height, call_dv_eq hdv, hlst']
    rw [plain_move hmv]
    show (C.n + 1) * ((st.w.call r inPort pk).1.height C).toNat + st.pending C ≤ _
    rw [hheight]
    exact le_rfl
  | drop s r k =>
    have hmono : (st.setQueue s r ((st.queue s r).eraseIdx k)).pending C ≤ st.pending C := by
      apply pending_mono
      intro x y
      simp only [Fifo.setQueue]
      split
      · rename_i hxy
        obtain ⟨rfl, rfl⟩ := hxy
        exact List.length_eraseIdx_le _ _
      · exact le_rfl
    exact Nat.add_le_add_left hmono _
  | deliver s r lucky =>
    cases hq : st.queue s r with
    | nil => exact absurd hq hmv
    | cons a rest =>
      obtain ⟨q, hback, ha, hmove⟩ := href.deliver_move hq lucky
      obtain ⟨hr, hs, -⟩ := C.ids hback
      obtain ⟨hle, hdrops⟩ := hinv.height_deliver hback ha
      obtain ⟨lo', hinv'⟩ := hinv.deliver hback ha
      have hnonneg := hinv'.height_nonneg
      rw [← href.routers] at hle hdrops
      have hnonneg' : 0 ≤ (st.w.call r q a.packet).1.height C := by
        rw [href.routers]
        exact hnonneg
      rw [hmove]
      exact budget_call hnonneg' hle hdrops (pending_tail hs hr hq)

def Fifo.Delivered (st : Fifo) : Prop := ∀ s r, st.queue s r = []

/-- Without commands of the controller at most `budget` deliveries happen, whatever is lost on
links that are down, and some deliveries leave nothing under way. -/
theorem deliveries_end (h : (fifo C).Reachable st) {mvs : List FifoMove}
    (hrun : (fifo C).Playable st mvs) (hin : ∀ mv ∈ mvs, mv.isCommand = false) :
    mvs.countP FifoMove.isDeliver ≤ st.budget C ∧
    ∃ more, (∀ mv ∈ more, FifoMove.isDeliver mv = true) ∧
      (fifo C).Playable ((fifo C).play st mvs) more ∧
      ((fifo C).play st (mvs ++ more)).Delivered := by
  constructor
  · have hcount := hrun.countP_le (I := (fifo C).Reachable) (p := FifoMove.isDeliver)
      (K := fun mv => mv.isCommand = false) (f := Fifo.budget C)
      (fun st mv hst hmv => hst.step mv hmv)
      (fun st mv hst hin hmv => budget_move hst hin hmv) h hin
    omega
  · have hend := h.play hrun
    obtain ⟨more, hall, hplay, -, hdone⟩ := exists_play (S := fifo C)
      (I := (fifo C).Reachable) (K := fun mv => FifoMove.isDeliver mv = true)
      (P := Fifo.Delivered) (f := Fifo.budget C) (by
        intro st hst hnot
        simp only [Fifo.Delivered, not_forall] at hnot
        obtain ⟨s, r, hq⟩ := hnot
        have hmv : st.Allowed C (.deliver s r []) := hq
        have hin : FifoMove.isCommand (.deliver s r []) = false := rfl
        have hle := budget_move hst hin hmv
        exact ⟨.deliver s r [], rfl, hmv, hst.step _ hmv, hle⟩) hend
    refine ⟨more, hall, hplay, ?_⟩
    rwa [play_append]

def pairTriggered : Fifo :=
  (fifo pairCabling).play ⟨pairRouters, fun _ _ => [], fun _ => none, fun _ => false⟩
    (pairFifoRun.take 4)

private theorem pairTriggered_reachable : (fifo pairCabling).Reachable pairTriggered := by
  have h0 : (fifo pairCabling).Reachable
      ⟨pairRouters, fun _ _ => [], fun _ => none, fun _ => false⟩ :=
    .init ⟨pairRouters_fresh, fun _ _ => rfl, fun _ => rfl, fun _ => rfl⟩
  exact h0.play (by decide)

theorem deliveries_end_pair :
    4 ≤ pairTriggered.budget pairCabling ∧
    ∃ more, (∀ mv ∈ more, FifoMove.isDeliver mv = true) ∧
      (fifo pairCabling).Playable
        ((fifo pairCabling).play pairTriggered (pairFifoRun.drop 4)) more ∧
      ((fifo pairCabling).play pairTriggered (pairFifoRun.drop 4 ++ more)).Delivered := by
  have hrun : (fifo pairCabling).Playable pairTriggered (pairFifoRun.drop 4) := by decide
  exact deliveries_end pairTriggered_reachable hrun (by decide)

end Budget

section Settled

def Routers.Lonely (C : Cabling) (w : Routers) (r : ℕ) : Prop :=
  ∀ t, 1 ≤ t ∧ t ≤ C.n → t ≠ r → (w.dv r).c t = inf

/-- A triggered router has last broadcast the row it has now, or it has no links: then a row
that makes it go on to a later version changes none of its distances. -/
def Fifo.Told (C : Cabling) (st : Fifo) (r : ℕ) : Prop :=
  st.triggered r = true →
    st.lastSent r = some ((st.w.routers r).advert C.n) ∨ st.w.Lonely C r

theorem Fifo.Told.congr {st' : Fifo} (h : st.Told C r) (htrig : st'.triggered r = st.triggered r)
    (hlast : st'.lastSent r = st.lastSent r)
    (hadv : (st'.w.routers r).advert C.n = (st.w.routers r).advert C.n)
    (hc : (st'.w.dv r).c = (st.w.dv r).c) : st'.Told C r := by
  intro ht
  rw [htrig] at ht
  rw [hlast, hadv]
  refine (h ht).imp_right fun hlonely t => ?_
  rw [hc]
  exact hlonely t

theorem DV.row_congr {tot : ℕ} {v v' : DV} (h : ∀ i, 1 ≤ i ∧ i ≤ tot → v'.own i = v.own i) :
    v'.row tot = v.row tot :=
  List.map_congr_left fun i hi => h i (DV.mem_range'.mp hi)

/-- A row that `updateDV` takes in silence leaves the own row, unless it is of a later version:
then there are no links. -/
theorem DV.updateDVFrom_false {tot ex : ℕ} {row : ℕ → ℤ} {version : ℤ} {v : DV} (hwf : v.WF tot)
    (hex : ex ≠ v.routerID) (h : (updateDVFrom tot ex row version v).2 = false) :
    (∀ i, (updateDVFrom tot ex row version v).1.own i = v.own i) ∧
      (updateDVFrom tot ex row version v).1.version = v.version ∨
    ∀ t, 1 ≤ t ∧ t ≤ tot → t ≠ v.routerID → v.c t = inf := by
  rcases updateDVFrom_cases tot ex row version v with ⟨-, he⟩ | ⟨-, he⟩ | ⟨-, he⟩
  · rw [he]
    exact Or.inl ⟨fun _ => rfl, rfl⟩
  · rw [he] at h ⊢
    left
    rw [updateDV_of_false h]
    exact ⟨fun i => by simp [own, hex.symm], rfl⟩
  · rw [he] at h
    right
    intro t ht hne
    have hle := (updateDV_false.mp h t ht).1
    have hreset : inf ≤ v.c t := by
      simpa [own, DV.reset, hex.symm, emptyTable, hne] using hle
    exact le_antisymm (hwf.c_range t).2 hreset

private theorem advert_congr {R R' : Router} {tot : ℕ} (hid : R'.dv.routerID = R.dv.routerID)
    (hver : R'.dv.version = R.dv.version) (hrow : R'.dv.row tot = R.dv.row tot) :
    R'.advert tot = R.advert tot := by
  simp only [Router.advert, hid, hver, hrow]

theorem NetInv.deliver_silent (h : NetInv C lo lossySt) (hp : C.port r s = some p)
    (hmem : (s, a) ∈ lossySt.sent) (hnone : (lossySt.w.call r p a.packet).2 = none) :
    ((lossySt.w.call r p a.packet).1.dv r).c = (lossySt.w.dv r).c ∧
    (((lossySt.w.call r p a.packet).1.routers r).advert C.n =
        (lossySt.w.routers r).advert C.n ∨
      (lossySt.w.call r p a.packet).1.Lonely C r) := by
  obtain ⟨hr, -, hne⟩ := C.ids hp
  obtain rfl : a.sender = s := (h.versions.sent _ hmem).2.1
  have hne' : a.sender ≠ (lossySt.w.routers r).routerID := by
    rw [(h.linked r hr).routerID]
    exact hne.symm
  have hne1 : a.sender ≠ (lossySt.w.dv r).routerID := by
    rw [h.versions.routerID r hr]
    exact hne.symm
  obtain ⟨hrouter, -, hret⟩ := onDV_spec lossySt.w.shared p a.packet a.version a.row hne'
  obtain ⟨hvec, hedge⟩ : ((lossySt.w.routers r).vecOf lossySt.w.shared p a.sender a.version
      a.row).2 = false ∧
      ((lossySt.w.routers r).edgeOf lossySt.w.shared p a.sender).2.2 = 0 := by
    rcases hret with ⟨-, hquiet⟩ | ⟨hret, -, hpacket⟩
    · exact hquiet
    · have hsome : (lossySt.w.call r p a.packet).2 ≠ none := by
        show Outcome.advert ((lossySt.w.routers r).onDV lossySt.w.shared p a.packet a.sender
          a.version a.row) ≠ none
        rw [Outcome.advert, hret, hpacket]
        exact Option.some_ne_none _
      exact absurd hnone hsome
  have hsame : ((lossySt.w.routers r).edgeOf lossySt.w.shared p a.sender).1 =
      lossySt.w.dv r := DV.updateC_of_zero hedge
  have hdv : (lossySt.w.call r p a.packet).1.dv r = ((lossySt.w.dv r).updateDVFrom
      lossySt.w.shared.totRouterNum a.sender (temdv lossySt.w.shared.totRouterNum a.row)
        a.version).1 := by
    rw [call_dv_self, ← hsame]
    exact congrArg Router.dv hrouter
  have hc : ((lossySt.w.call r p a.packet).1.dv r).c = (lossySt.w.dv r).c := by
    rw [hdv]
    exact DV.updateDVFrom_c _ hne1 _ _
  refine ⟨hc, ?_⟩
  rw [Router.vecOf, hsame, h.tot] at hvec
  rw [h.tot] at hdv
  have hid : ((lossySt.w.call r p a.packet).1.dv r).routerID = (lossySt.w.dv r).routerID := by
    rw [hdv]
    exact (DV.advances_updateDVFrom hne1).routerID
  refine (DV.updateDVFrom_false (h.versions.wf r hr) hne1 hvec).imp ?_ ?_
  · rintro ⟨hown, hver⟩
    rw [← hdv] at hown hver
    have hrow : ((lossySt.w.call r p a.packet).1.dv r).row C.n = (lossySt.w.dv r).row C.n :=
      DV.row_congr fun i _ => hown i
    exact advert_congr hid hver hrow
  · intro hlonely t ht htr
    rw [h.versions.routerID r hr] at hlonely
    rw [hc]
    exact hlonely t ht htr

@[simp] theorem broadcast_triggered (C : Cabling) (st : Fifo) (r : ℕ) (lucky : List ℕ)
    (o : Option Advert) : (st.broadcast C r lucky o).triggered = st.triggered := by
  cases o <;> rfl

private theorem broadcast_lastSent_of_ne {x : ℕ} (hx : x ≠ r) (o : Option Advert) :
    (st.broadcast C r lucky o).lastSent x = st.lastSent x := by
  cases o with
  | none => rfl
  | some a => exact Function.update_of_ne hx _ _

/-- What is broadcast last is what the router has then. -/
theorem Fifo.Told.broadcast {o : Option Advert}
    (ho : o = none ∧ st.Told C r ∨ o = some ((st.w.routers r).advert C.n)) :
    (st.broadcast C r lucky o).Told C r := by
  rcases ho with ⟨rfl, h⟩ | rfl
  · exact h
  · intro _
    left
    simp [Fifo.broadcast]

theorem Fifo.Told.call_of_ne {x : ℕ} (h : st.Told C x) (hx : x ≠ r) :
    (st.call C r inPort pk lucky).Told C x := by
  have hdv : (st.call C r inPort pk lucky).w.dv x = st.w.dv x := by
    rw [call_w]
    exact call_dv_of_ne _ _ _ hx
  have hrouter : (st.call C r inPort pk lucky).w.routers x = st.w.routers x := by
    rw [call_w]
    exact Function.update_of_ne hx _ _
  exact h.congr (congrFun (broadcast_triggered ..) x) (broadcast_lastSent_of_ne hx _)
    (by rw [hrouter]) (by rw [hdv])

theorem Fifo.Told.trigger (htot : st.w.shared.totRouterNum = C.n) (h : ∀ x, st.Told C x) (x : ℕ) :
    (st.move C (.trigger r lucky)).Told C x := by
  by_cases hxr : x = r
  · subst hxr
    intro _
    left
    show Function.update st.lastSent x (some ((st.w.routers x).advert
      st.w.shared.totRouterNum)) x = _
    rw [Function.update_self, htot]
    simp [Fifo.move, Routers.call, (router_trigger (st.w.routers x) st.w.shared 1).1]
  · intro htrig
    have htrig' : (st.call C r 1 triggerPacket lucky).triggered x = true := by
      simpa [Fifo.move, Fifo.call, hxr] using htrig
    exact (h x).call_of_ne hxr htrig'

/-- A router that broadcasts nothing on a delivery has heard nothing new. -/
theorem Fifo.Told.deliver (hinv : NetInv C lo lossySt) (hst : st.w = lossySt.w)
    (h : ∀ x, st.Told C x) (hp : C.port r s = some p) (hmem : (s, a) ∈ lossySt.sent)
    (rest : List Advert) (x : ℕ) :
    ((st.setQueue s r rest).call C r p a.packet lucky).Told C x := by
  by_cases hxr : x = r
  · subst hxr
    obtain ⟨-, -, -, hsent⟩ := hinv.router_deliver hp hmem
    have hsilent := hinv.deliver_silent hp hmem
    rw [← hst] at hsent hsilent
    apply Fifo.Told.broadcast
    rcases hsent with hnone | hsome
    · refine Or.inl ⟨hnone, ?_⟩
      obtain ⟨hc, hadv⟩ := hsilent hnone
      intro htrig
      rcases h x htrig with hlast | hlonely
      · exact hadv.imp_left fun hadv => hlast.trans (congrArg some hadv.symm)
      · right
        intro t ht hne
        exact (congrFun hc t).trans (hlonely t ht hne)
    · right
      simpa [Fifo.setQueue, Routers.call] using hsome
  · have hset : (st.setQueue s r rest).Told C x := h x
    exact hset.call_of_ne hxr

theorem Fifo.Told.move (hreach : (fifo C).Reachable st) (h : ∀ x, st.Told C x) (mv : FifoMove)
    (hmv : st.Allowed C mv) (x : ℕ) : (st.move C mv).Told C x := by
  obtain ⟨lo, lossySt, href, hinv⟩ := netInv_fifo hreach
  cases mv with
  | portValue r t value =>
    intro htrig
    cases htrig
  | drop s r k => exact (h x).congr rfl rfl rfl rfl
  | plain r inPort pk =>
    by_cases hxr : x = r
    · subst hxr
      obtain ⟨hdv, -, -, -, -, -, -, hnone⟩ :=
        router_plain (st.w.routers x) st.w.shared inPort hmv.2
      refine Fifo.Told.broadcast (Or.inl ⟨hnone, (h x).congr rfl rfl ?_ ?_⟩)
      · have hdv' : ((st.w.call x inPort pk).1.routers x).dv = (st.w.routers x).dv := by
          have hself := call_dv_self st.w x inPort pk
          rw [hdv] at hself
          exact hself
        simp only [Router.advert, hdv']
      · rw [call_dv_eq hdv]
    · exact (h x).call_of_ne hxr
  | trigger r lucky =>
    have htot : st.w.shared.totRouterNum = C.n := by
      rw [href.routers]
      exact hinv.tot
    exact Fifo.Told.trigger htot h x
  | deliver s r lucky =>
    cases hq : st.queue s r with
    | nil => exact absurd hq hmv
    | cons a rest =>
      obtain ⟨q, hback, ha, hmove⟩ := href.deliver_move hq lucky
      rw [hmove]
      exact Fifo.Told.deliver hinv href.routers h hback ha rest x

theorem told_fifo (h : (fifo C).Reachable st) (x : ℕ) : st.Told C x := by
  induction h generalizing x with
  | init h =>
    intro htrig
    rw [h.2.2.2 x] at htrig
    cases htrig
  | step h mv hmv ih => exact Fifo.Told.move h ih mv hmv x

/-- Both ends of every cable have been told the same, every router has been triggered since, and
nothing is under way. -/
structure Fifo.Settled (C : Cabling) (st : Fifo) : Prop where
  told : ∀ r t, (C.port r t).isSome → st.w.told C r t = st.w.told C t r
  triggered : ∀ r, 1 ≤ r ∧ r ≤ C.n → st.triggered r = true
  delivered : st.Delivered

def Fifo.assumeSent (C : Cabling) (st : Fifo) : Fifo :=
  { st with lastSent := fun r => some ((st.w.routers r).advert C.n) }

theorem Fifo.Settled.quiescent (h : st.Settled C) : (st.assumeSent C).Quiescent C :=
  ⟨h.told, h.triggered, fun r t _ => h.delivered r t, fun _ _ => rfl⟩

/-- A router with a link has been heard of over it, so that it is not lonely. -/
theorem Fifo.Settled.synced (h : st.Settled C) (hreach : (fifo C).Reachable st) (x y : ℕ) :
    (st.assumeSent C).Synced C x y := by
  intro htrig hup
  have hsync := synced_fifo hreach
  obtain ⟨a, hlast, hqueue⟩ := hsync x y htrig hup
  refine ⟨_, rfl, ?_⟩
  rcases told_fifo hreach x htrig with hsent | hlonely
  · rw [hsent] at hlast
    cases hlast
    exact hqueue
  · exfalso
    obtain ⟨p, hp⟩ := linkArc_port (w := st.w) ⟨rfl, hup.1⟩
    obtain ⟨hx, hy, hne⟩ := C.ids hp
    obtain ⟨b, -, hback⟩ := hsync y x (h.triggered y hy) ⟨hup.2, hup.1⟩
    rcases hback with hback | ⟨-, hheard⟩
    · rw [h.delivered y x] at hback
      cases hback
    · obtain ⟨lo, lossySt, href, hinv⟩ := netInv_fifo hreach
      have hlen : st.w.told C x y = (lossySt.w.routers x).lenOf p := by
        rw [href.routers]
        simp only [Routers.told, hp]
      have hcost := hheard.cost
      rw [hlonely y hy hne.symm, hlen] at hcost
      rcases linkValue_lenOf (hinv.linked x hx).lens p with hdown | hup'
      · rw [hdown] at hcost
        exact absurd hcost (by decide)
      · omega

/-- Without commands nobody is told anything, and who has been triggered stays so. -/
theorem told_move (hreach : (fifo C).Reachable st) {mv : FifoMove} (hin : mv.isCommand = false)
    (hmv : st.Allowed C mv) :
    (st.move C mv).w.told C = st.w.told C ∧ (st.move C mv).triggered = st.triggered := by
  obtain ⟨lo, lossySt, href, hinv⟩ := netInv_fifo hreach
  cases mv with
  | portValue r t value => cases hin
  | trigger r lucky => cases hin
  | drop s r k => exact ⟨rfl, rfl⟩
  | plain r inPort pk =>
    obtain ⟨-, -, -, -, hlen, -⟩ := router_plain (st.w.routers r) st.w.shared inPort hmv.2
    refine ⟨?_, broadcast_triggered ..⟩
    show (st.call C r inPort pk []).w.told C = st.w.told C
    rw [call_w]
    exact told_call C hlen
  | deliver s r lucky =>
    cases hq : st.queue s r with
    | nil => exact absurd hq hmv
    | cons a rest =>
      obtain ⟨q, hback, ha, hmove⟩ := href.deliver_move hq lucky
      obtain ⟨htold, -, -, -⟩ := hinv.heard_deliver hback ha
      rw [← href.routers] at htold
      rw [hmove]
      refine ⟨?_, broadcast_triggered ..⟩
      rw [call_w]
      exact htold

theorem told_play (hreach : (fifo C).Reachable st) {mvs : List FifoMove}
    (hrun : (fifo C).Playable st mvs) (hin : ∀ mv ∈ mvs, mv.isCommand = false) :
    ((fifo C).play st mvs).w.told C = st.w.told C ∧
      ((fifo C).play st mvs).triggered = st.triggered := by
  induction mvs generalizing st with
  | nil => exact ⟨rfl, rfl⟩
  | cons mv mvs ih =>
    obtain ⟨hmv, hrun⟩ := hrun
    rw [List.forall_mem_cons] at hin
    obtain ⟨htold, htrig⟩ := told_move hreach hin.1 hmv
    obtain ⟨htold', htrig'⟩ := ih (hreach.step mv hmv) hrun hin.2
    exact ⟨htold'.trans htold, htrig'.trans htrig⟩

theorem linkArc_congr {w w' : Routers} (h : w'.told C = w.told C) :
    w'.linkArc C = w.linkArc C := by
  funext r t a
  simp only [Routers.linkArc, h]

theorem total_congr {w w' : Routers} (h : w'.told C = w.told C) : w'.total C = w.total C := by
  simp only [Routers.total, Routers.len, h]

/-- The distances of a settled network. -/
theorem Fifo.Settled.isDistance (h : st.Settled C) (hreach : (fifo C).Reachable st)
    (htotal : st.w.total C < inf) {i : ℕ} (hr : 1 ≤ r ∧ r ≤ C.n) (hi : 1 ≤ i ∧ i ≤ C.n) :
    IsDistance (st.w.linkArc C) inf r i ((st.w.dv r).d r i) ∧
      ((st.w.dv r).d r i = inf ↔ ¬ ∃ x, Walk (st.w.linkArc C) r i x) := by
  obtain ⟨lo, lossySt, href, hinv⟩ := netInv_fifo hreach
  have hq := h.quiescent
  have hsync := h.synced hreach
  have href' : (st.assumeSent C).Refines C lossySt := ⟨href.routers, href.queue⟩
  have hle : (st.w.dv r).own i ≤ inf := by
    rw [href.routers]
    exact ((hinv.versions.wf r hr).own_range hi).2
  have hleast : (st.w.dv r).own i < inf →
      IsLeast {x | Walk (st.w.linkArc C) r i x} ((st.w.dv r).own i) :=
    hq.isLeast hsync hinv href' hr hi
  have hlt : ∀ x, Walk (st.w.linkArc C) r i x → (st.w.dv r).own i < inf :=
    fun x hx => hq.own_lt hsync hinv href' htotal hi hx
  rw [hinv.own_eq href hr i]
  rcases hle.lt_or_eq with hfinite | heq
  · have hwalk := (hleast hfinite).1
    exact ⟨Or.inl (hleast hfinite), fun heq => absurd heq hfinite.ne,
      fun hnone => absurd ⟨_, hwalk⟩ hnone⟩
  · have hnone : ¬ ∃ x, Walk (st.w.linkArc C) r i x := by
      rintro ⟨x, hx⟩
      exact (hlt x hx).ne heq
    exact ⟨Or.inr ⟨hnone, heq⟩, fun _ => hnone, fun _ => heq⟩

/-- After the last change of the links and the triggering of all routers: wherever a run without
commands ends with nothing under way, the rows are the distances. -/
theorem distances_once_delivered (h : (fifo C).Reachable st)
    (htold : ∀ r t, (C.port r t).isSome → st.w.told C r t = st.w.told C t r)
    (htrig : ∀ r, 1 ≤ r ∧ r ≤ C.n → st.triggered r = true) (htotal : st.w.total C < inf)
    {mvs : List FifoMove} (hrun : (fifo C).Playable st mvs)
    (hin : ∀ mv ∈ mvs, mv.isCommand = false) (hend : ((fifo C).play st mvs).Delivered) :
    ∀ r i, 1 ≤ r ∧ r ≤ C.n → 1 ≤ i ∧ i ≤ C.n →
      IsDistance (st.w.linkArc C) inf r i ((((fifo C).play st mvs).w.dv r).d r i) ∧
      ((((fifo C).play st mvs).w.dv r).d r i = inf ↔ ¬ ∃ x, Walk (st.w.linkArc C) r i x) := by
  intro r i hr hi
  obtain ⟨hsame, hsame'⟩ := told_play h hrun hin
  have hsettled : ((fifo C).play st mvs).Settled C := by
    refine ⟨?_, ?_, hend⟩
    · rw [hsame]
      exact htold
    · rw [hsame']
      exact htrig
  have hdist := hsettled.isDistance (h.play hrun) (by rwa [total_congr hsame]) hr hi
  rwa [linkArc_congr hsame] at hdist

theorem delivered_of_cables (h : (fifo C).Reachable st)
    (hq : ∀ s r, (C.port s r).isSome → st.queue s r = []) : st.Delivered := by
  intro s r
  obtain ⟨lo, lossySt, href, -⟩ := netInv_fifo h
  refine List.eq_nil_iff_forall_not_mem.mpr fun a ha => ?_
  rw [hq s r (href.queue s r a ha).1] at ha
  cases ha

theorem distances_once_delivered_pair :
    IsDistance (pairTriggered.w.linkArc pairCabling) inf 1 2 5 ∧
      (5 = inf ↔ ¬ ∃ x, Walk (pairTriggered.w.linkArc pairCabling) 1 2 x) := by
  have hrun : (fifo pairCabling).Playable pairTriggered (pairFifoRun.drop 4) := by decide
  refine distances_once_delivered pairTriggered_reachable ?_ ?_ (by decide) hrun (by decide) ?_
    1 2 (by decide) (by decide)
  · intro r t h
    rcases pairCabling_port h with ⟨rfl, rfl⟩ | ⟨rfl, rfl⟩ <;> decide
  · intro r hr
    have hn : pairCabling.n = 2 := rfl
    obtain rfl | rfl : r = 1 ∨ r = 2 := by omega
    · decide
    · decide
  · refine delivered_of_cables (pairTriggered_reachable.play hrun) fun s r h => ?_
    rcases pairCabling_port h with ⟨rfl, rfl⟩ | ⟨rfl, rfl⟩ <;> decide

end Settled

section Lossy

/-- A command of the controller that makes a known link longer, or takes it away. -/
def Lossy.Lengthens (C : Cabling) (st : Lossy) : LossyMove → Prop
  | .portValue r t value => (st.w.routers r).port2RouterID ((C.port r t).getD 0) = t ∧ t ≠ 0 ∧
    (st.w.dv r).c t < DV.linkLen value
  | .trigger _ | .deliver _ _ _ | .plain _ _ _ => False

instance (C : Cabling) (st : Lossy) : (mv : LossyMove) → Decidable (st.Lengthens C mv)
  | .portValue _ _ _ => inferInstanceAs (Decidable (_ ∧ _ ∧ _))
  | .trigger _ | .deliver _ _ _ | .plain _ _ _ => .isFalse id

def Lossy.lengthenings (C : Cabling) (st : Lossy) : List LossyMove → ℕ
  | [] => 0
  | mv :: mvs => (if st.Lengthens C mv then 1 else 0) + Lossy.lengthenings C (st.move C mv) mvs

variable {lossyMvs : List LossyMove}

private theorem updateC_lst {tot : ℕ} {lst value : ℤ} {tgt : ℕ} {v : DV} :
    (v.updateC tot lst tgt value).2.1 = if v.c tgt < DV.linkLen value then lst + 1 else lst := by
  rcases DV.updateC_cases tot lst tgt value v with ⟨h, he⟩ | ⟨h, he⟩ | ⟨h, he⟩ <;> rw [he]
  · rw [if_neg h.not_lt]
  · rw [if_neg h.not_gt]
  · rw [if_pos h]

private theorem call_advances
    (hr : DV.Advances C.n (lossySt.w.dv r) ((lossySt.w.call r inPort pk).1.dv r))
    (x : ℕ) : DV.Advances C.n (lossySt.w.dv x) ((lossySt.w.call r inPort pk).1.dv x) := by
  by_cases hx : x = r
  · subst hx
    exact hr
  · rw [call_dv_of_ne _ _ _ hx]
    exact .refl C.n _

/-- A command makes a version if and only if it makes a known link longer. -/
theorem NetInv.portValue_advances (h : NetInv C lo lossySt) (hp : C.port r t = some p) (value : ℤ) :
    DV.Advances C.n (lossySt.w.dv r)
      ((lossySt.w.call r 1 ⟨0, 0, .portValueChange p value⟩).1.dv r) ∧
    (lossySt.w.call r 1 ⟨0, 0, .portValueChange p value⟩).1.shared.lstChangeVersion =
      lossySt.w.shared.lstChangeVersion +
        if (lossySt.w.routers r).port2RouterID p = t ∧ (lossySt.w.dv r).c t < DV.linkLen value
        then 1 else 0 := by
  obtain ⟨hr, ht, hne⟩ := C.ids hp
  have ht0 : t ≠ 0 := by omega
  have hlst : (lossySt.w.call r 1 ⟨0, 0, .portValueChange p value⟩).1.shared.lstChangeVersion =
      ((lossySt.w.routers r).onPortValueChange lossySt.w.shared p value).2.lstChangeVersion := rfl
  by_cases hrid : (lossySt.w.routers r).port2RouterID p = 0
  · have hout := onPortValueChange_host lossySt.w.shared value hrid
    constructor
    · rw [call_dv_eq (by simp only [Router.router, hout])]
      exact .refl C.n _
    · rw [hlst, hout, hrid, if_neg fun h => ht0 h.1.symm, add_zero]
  · have hrid' : (lossySt.w.routers r).port2RouterID p = t :=
      C.inj ((h.linked r hr).learned p _ rfl hrid).1 hp
    have hout := onPortValueChange_link lossySt.w.shared value hrid' ht0
    have hne1 : t ≠ (lossySt.w.dv r).routerID := by
      rw [h.versions.routerID r hr]
      exact hne.symm
    constructor
    · rw [call_dv_self]
      simp only [Router.router, hout]
      rw [h.tot]
      exact DV.advances_updateC hne1 (h.versions.version_le r hr)
    · rw [hlst, hout]
      show ((lossySt.w.dv r).updateC lossySt.w.shared.totRouterNum
        lossySt.w.shared.lstChangeVersion t value).2.1 = _
      rw [updateC_lst]
      simp only [hrid', true_and]
      split_ifs
      · rfl
      · rw [add_zero]

/-- One move: every router's vectors stay in their version and get no longer, or go on to a later
one, and there is a new version exactly if a known link has become longer. -/
theorem NetInv.move_advances (h : NetInv C lo lossySt) {mv : LossyMove}
    (hmv : lossySt.Allowed C mv) :
    (∀ x, DV.Advances C.n (lossySt.w.dv x) ((lossySt.move C mv).w.dv x)) ∧
    (lossySt.move C mv).w.shared.lstChangeVersion = lossySt.w.shared.lstChangeVersion +
      if lossySt.Lengthens C mv then 1 else 0 := by
  cases mv with
  | plain r inPort pk =>
    obtain ⟨hdv, -, -, -, -, -, hlst, -⟩ :=
      router_plain (lossySt.w.routers r) lossySt.w.shared inPort hmv.2
    refine ⟨call_advances ?_, ?_⟩
    · rw [call_dv_eq hdv]
      exact .refl C.n _
    · have hnot : ¬ lossySt.Lengthens C (.plain r inPort pk) := not_false
      rw [if_neg hnot, add_zero]
      exact hlst
  | trigger r =>
    refine ⟨call_advances ?_, ?_⟩
    · rw [call_dv_eq (by rw [(router_trigger _ _ _).1])]
      exact .refl C.n _
    · have hnot : ¬ lossySt.Lengthens C (.trigger r) := not_false
      rw [if_neg hnot, add_zero]
      rfl
  | deliver s r a =>
    obtain ⟨p, hp⟩ := Option.isSome_iff_exists.mp hmv.1
    obtain ⟨-, hadv, -, -⟩ := h.heard_deliver hp hmv.2
    obtain ⟨hlst, -, -⟩ := h.deliver_drops hp hmv.2
    have hmove : lossySt.move C (.deliver s r a) = lossySt.call r p a.packet := by
      simp [Lossy.move, hp]
    have hnot : ¬ lossySt.Lengthens C (.deliver s r a) := not_false
    rw [hmove, if_neg hnot, add_zero]
    exact ⟨call_advances hadv, hlst⟩
  | portValue r t value =>
    obtain ⟨p, hp⟩ := Option.isSome_iff_exists.mp hmv.1
    obtain ⟨-, ht, -⟩ := C.ids hp
    have hmove : lossySt.move C (.portValue r t value) =
        lossySt.call r 1 ⟨0, 0, .portValueChange p value⟩ := by
      simp [Lossy.move, Cabling.portValue, hp]
    have hlengthens : lossySt.Lengthens C (.portValue r t value) ↔
        (lossySt.w.routers r).port2RouterID p = t ∧ (lossySt.w.dv r).c t < DV.linkLen value := by
      have ht0 : t ≠ 0 := by omega
      simp [Lossy.Lengthens, hp, ht0]
    obtain ⟨hadv, hlst⟩ := h.portValue_advances hp value
    rw [hmove]
    refine ⟨call_advances hadv, ?_⟩
    simp only [hlengthens]
    exact hlst

/-- Whatever is lost, repeated, delayed or overtaken: the vectors of every router only improve
within a version and never fall back to an earlier one, and the number of versions is the number
of times that the controller has made a known link longer. -/
theorem vectors_improve (h : (lossy C).Reachable lossySt)
    (hrun : (lossy C).Playable lossySt lossyMvs) :
    (∀ r, DV.Advances C.n (lossySt.w.dv r) (((lossy C).play lossySt lossyMvs).w.dv r)) ∧
    ((lossy C).play lossySt lossyMvs).w.shared.lstChangeVersion =
      lossySt.w.shared.lstChangeVersion + lossySt.lengthenings C lossyMvs := by
  induction lossyMvs generalizing lossySt with
  | nil => exact ⟨fun r => .refl C.n _, (add_zero _).symm⟩
  | cons mv mvs ih =>
    obtain ⟨hmv, hrun⟩ := hrun
    obtain ⟨lo, hinv⟩ := netInv_lossy h
    obtain ⟨hadv, hlst⟩ := hinv.move_advances hmv
    obtain ⟨hadv', hlst'⟩ := ih (h.step mv hmv) hrun
    refine ⟨fun r => (hadv r).trans (hadv' r), hlst'.trans ?_⟩
    change (lossySt.move C mv).w.shared.lstChangeVersion +
      (Lossy.lengthenings C (lossySt.move C mv) mvs : ℤ) = _
    rw [hlst, Lossy.lengthenings]
    split_ifs <;> push_cast <;> omega

/-- The run of `pairRun`, and then the link is made longer at router 2, which knows it. -/
theorem vectors_improve_pair :
    let mvs := pairRun ++ [.portValue 2 1 7]
    (∀ r, DV.Advances 2 (pairRouters.dv r)
      (((lossy pairCabling).play ⟨pairRouters, []⟩ mvs).w.dv r)) ∧
    ((lossy pairCabling).play ⟨pairRouters, []⟩ mvs).w.shared.lstChangeVersion = 1 := by
  intro mvs
  have h0 : (lossy pairCabling).Reachable ⟨pairRouters, []⟩ := .init ⟨pairRouters_fresh, rfl⟩
  have hrun : (lossy pairCabling).Playable ⟨pairRouters, []⟩ mvs := by decide
  obtain ⟨hadv, hlst⟩ := vectors_improve h0 hrun
  have hone : Lossy.lengthenings pairCabling ⟨pairRouters, []⟩ mvs = 1 := by decide
  rw [hone] at hlst
  exact ⟨hadv, hlst⟩

end Lossy
end NetworkingLabs.Routing
