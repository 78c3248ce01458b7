import NetworkingLabs.RouterNetwork
import Mathlib.Order.Interval.Finset.Nat

/-!
# No count to infinity

The graph of the current costs, and that no router in the newest version is nearer to
anything than this graph allows, whatever has been lost, repeated or delayed.
-/
namespace NetworkingLabs.Routing
open WeightedWalks TransitionSystem

variable {C : Cabling} {st : Lossy} {lo : ℤ → ℕ → ℕ → ℤ} {w : Routers} {r t i : ℕ} {x a : ℤ}

/-- The length an end of a cable was last told, -1 if there is none. -/
def Routers.told (C : Cabling) (w : Routers) (r t : ℕ) : ℤ :=
  match C.port r t with
  | some p => (w.routers r).lenOf p
  | none => -1

def Routers.len (C : Cabling) (w : Routers) (r t : ℕ) : ℤ :=
  if w.told C r t = -1 then 0 else w.told C r t

/-- The total of all link lengths; of two ends that were told differently the longer counts. -/
def Routers.total (C : Cabling) (w : Routers) : ℤ :=
  ∑ r ∈ Finset.Icc 1 C.n, ∑ t ∈ Finset.Icc 1 C.n,
    if r < t then max (w.len C r t) (w.len C t r) else 0

def Routers.costArc (C : Cabling) (w : Routers) (r t : ℕ) (a : ℤ) : Prop :=
  (1 ≤ r ∧ r ≤ C.n) ∧ (1 ≤ t ∧ t ≤ C.n) ∧ r ≠ t ∧ (w.dv r).c t = a ∧ a < inf

section Total

private theorem len_nonneg (hl : ∀ r, 1 ≤ r ∧ r ≤ C.n → Linked C r (w.routers r)) (r t : ℕ) :
    0 ≤ w.len C r t := by
  unfold Routers.len
  split
  · exact le_rfl
  · rename_i hne
    unfold Routers.told at hne ⊢
    cases hp : C.port r t with
    | none => simp [hp] at hne
    | some p =>
      simp only [hp] at hne ⊢
      rcases linkValue_lenOf (hl r (C.ids hp).1).lens p with h | h
      · exact absurd h hne
      · exact h.1

/-- A finite cost is the length that the router's end of the cable was told. -/
theorem Linked.told_eq {w : Routers} (h : Linked C r (w.routers r)) (hrt : r ≠ t)
    (hlt : (w.dv r).c t < inf) : w.told C r t = (w.dv r).c t ∧ ∃ p, C.port r t = some p := by
  obtain ⟨p, hp, ht, hlen⟩ := h.finite t hrt.symm hlt
  have hport := (h.learned p t hp ht).1
  refine ⟨?_, p, hport⟩
  simp only [Routers.told, hport, Router.lenOf, hlen]
  rfl

variable (hl : ∀ r, 1 ≤ r ∧ r ≤ C.n → Linked C r (w.routers r))
  (hwf : ∀ r, 1 ≤ r ∧ r ≤ C.n → (w.dv r).WF C.n)
include hl hwf

private theorem costArc_le_len (h : w.costArc C r t a) : a ≤ w.len C r t := by
  obtain ⟨hr, -, hne, rfl, hlt⟩ := h
  have htold := ((hl r hr).told_eq hne hlt).1
  have hnonneg := ((hwf r hr).c_range t).1
  rw [Routers.len, htold, if_neg (by omega)]

theorem costWalk_le_total (h : Walk (w.costArc C) r t x) :
    ∃ y, Walk (w.costArc C) r t y ∧ y ≤ w.total C := by
  let m : ℕ → ℕ → ℤ := fun r t => max (w.len C r t) (w.len C t r)
  have hm : ∀ r t, 0 ≤ m r t := fun r t => (len_nonneg hl r t).trans (le_max_left _ _)
  have hsymm : ∀ r t, m r t = m t r := fun r t => max_comm _ _
  have hdiag : ∀ r, m r r = 0 := by
    intro r
    have hnone : C.port r r = none := by
      cases hp : C.port r r with
      | none => rfl
      | some p => exact absurd rfl (C.ids hp).2.2
    simp [m, Routers.len, Routers.told, hnone]
  have hE : ∀ r t a, w.costArc C r t a → a ≤ m r t ∧ a ≤ m t r := by
    intro r t a ha
    have hle := costArc_le_len hl hwf ha
    exact ⟨hle.trans (le_max_left _ _), hle.trans (le_max_right _ _)⟩
  have hin : ∀ r t a, w.costArc C r t a →
      ∃ b ≤ a, Within (w.costArc C) (Finset.Icc 1 C.n) r t b := fun r t a ha =>
    ⟨a, le_rfl, Finset.mem_Icc.mpr ha.1, Finset.mem_Icc.mpr ha.2.1, ha⟩
  obtain ⟨y, -, hy⟩ := h.mono hin
  obtain ⟨z, hz, hle⟩ := hy.exists_le_total hm hE
  have hout : ∀ r t a, Within (w.costArc C) (Finset.Icc 1 C.n) r t a →
      ∃ b ≤ a, w.costArc C r t b := fun r t a ha => ⟨a, le_rfl, ha.2.2⟩
  obtain ⟨z', hz', hwalk⟩ := hz.mono hout
  refine ⟨z', hwalk, ?_⟩
  rw [sum_pairs_eq hsymm hdiag] at hle
  have htot : w.total C = ∑ r ∈ Finset.Icc 1 C.n, ∑ t ∈ Finset.Icc 1 C.n,
      (if r < t then m r t else 0) := rfl
  omega

private theorem isDistance_le_inf (htotal : w.total C < inf)
    (h : IsDistance (w.costArc C) inf r t x) : x ≤ inf := by
  rcases h with h | ⟨-, rfl⟩
  · obtain ⟨y, hy, hle⟩ := costWalk_le_total hl hwf h.1
    exact (h.2 hy).trans (hle.trans htotal.le)
  · exact le_rfl

end Total

section Newest

/-- The graph of the newest version has nothing but current costs in it: who has not come to
the version contributes nothing. -/
theorem Versions.arcs_newest {sent : List (ℕ × Advert)} {lst : ℤ} {w : Routers}
    (h : Versions C.n lo w.dv lst sent) :
    ∀ r t a, arcs C.n lo lst r t a → ∃ b ≤ a, Walk (w.costArc C) r t b := by
  rintro r t a ⟨hr, ht, ha, hlt⟩
  rcases (h.version_le r hr).lt_or_eq with hver | hver
  · rw [h.later r hr _ hver t] at ha
    exact absurd ha hlt.ne'
  · have hc := h.now r hr t
    rw [hver, ha] at hc
    by_cases hrt : r = t
    · subst hrt
      have hself := (h.wf r hr).c_self
      rw [h.routerID r hr, ← hc] at hself
      exact ⟨0, hself.ge, .nil r⟩
    · exact ⟨a, le_rfl, .single ⟨hr, ht, hrt, hc.symm, hlt⟩⟩

private theorem costArc_nonneg (hwf : ∀ r, 1 ≤ r ∧ r ≤ C.n → (w.dv r).WF C.n) :
    ∀ r t a, w.costArc C r t a → 0 ≤ a := by
  rintro r t a ⟨hr, -, -, rfl, -⟩
  exact ((hwf r hr).c_range t).1

/-- A row of the newest version is nowhere shorter than the distances. -/
theorem NetInv.distance_le (h : NetInv C lo st) (htotal : st.w.total C < inf) {row : ℕ → ℤ}
    (hrow : TrueRow C.n (arcs C.n lo st.w.shared.lstChangeVersion) r row)
    (hi : 1 ≤ i ∧ i ≤ C.n) : ∃ x, IsDistance (st.w.costArc C) inf r i x ∧ x ≤ row i := by
  obtain ⟨x, hx⟩ := exists_isDistance (costArc_nonneg h.versions.wf) inf r i
  obtain ⟨⟨-, hle⟩, hwalk⟩ := hrow i hi
  refine ⟨x, hx, ?_⟩
  by_cases hlt : row i < inf
  · obtain ⟨y, hy, hwalk⟩ := hwalk hlt
    obtain ⟨z, hz, hwalk'⟩ := hwalk.refine (S := Set.univ)
      (fun r _ t a ha => ⟨trivial, h.versions.arcs_newest r t a ha⟩) trivial
    exact (hx.le hwalk').trans (hz.trans hy)
  · exact (isDistance_le_inf h.linked h.versions.wf htotal hx).trans (not_lt.mp hlt)

/-- In the newest version neither a router nor a packet under way has an entry below the
distance in the graph of the current costs. -/
theorem no_count_to_infinity (h : (lossy C).Reachable st) (htotal : st.w.total C < inf) :
    (∀ r i, 1 ≤ r ∧ r ≤ C.n → 1 ≤ i ∧ i ≤ C.n →
      (st.w.dv r).version = st.w.shared.lstChangeVersion →
      ∃ x, IsDistance (st.w.costArc C) inf r i x ∧ x ≤ (st.w.dv r).d r i) ∧
    (∀ s a i, (s, a) ∈ st.sent → 1 ≤ i ∧ i ≤ C.n →
      a.version = st.w.shared.lstChangeVersion →
      ∃ x, IsDistance (st.w.costArc C) inf a.sender i x ∧ x ≤ temdv C.n a.row i) := by
  obtain ⟨lo, hinv⟩ := netInv_lossy h
  constructor
  · intro r i hr hi hver
    apply hinv.distance_le htotal _ hi
    intro j hj
    refine ⟨(hinv.versions.wf r hr).d_range r j hj, ?_⟩
    rw [← hver]
    exact (hinv.versions.sound r hr).row r j hj
  · intro s a i hmem hi hver
    obtain ⟨-, hsender, -, hrow⟩ := hinv.versions.sent _ hmem
    rw [hver, ← hsender] at hrow
    exact hinv.distance_le htotal hrow hi

def pairCabling : Cabling where
  n := 2
  lt_maxn := by decide
  port r t := if (r = 1 ∧ t = 2) ∨ (r = 2 ∧ t = 1) then some 2 else none
  ids {r t p} h := by
    by_cases hrt : (r = 1 ∧ t = 2) ∨ (r = 2 ∧ t = 1)
    · omega
    · rw [if_neg hrt] at h
      cases h
  both {r t p} h := by
    by_cases hrt : (r = 1 ∧ t = 2) ∨ (r = 2 ∧ t = 1)
    · exact ⟨2, if_pos (by omega)⟩
    · rw [if_neg hrt] at h
      cases h
  inj {r t u p} h h' := by
    by_cases hrt : (r = 1 ∧ t = 2) ∨ (r = 2 ∧ t = 1)
    · by_cases hru : (r = 1 ∧ u = 2) ∨ (r = 2 ∧ u = 1)
      · omega
      · rw [if_neg hru] at h'
        cases h'
    · rw [if_neg hrt] at h
      cases h
  proper {r t p} h := by
    by_cases hrt : (r = 1 ∧ t = 2) ∨ (r = 2 ∧ t = 1)
    · rw [if_pos hrt] at h
      cases h
      decide
    · rw [if_neg hrt] at h
      cases h

def pairRouters : Routers := ⟨fun r => .init r 0 0 0 [], 2, 0, fun _ => 0, []⟩

theorem pairRouters_fresh : pairRouters.Fresh pairCabling :=
  ⟨rfl, rfl, fun _ _ => ⟨0, 0, 0, [], rfl⟩⟩

def pairRun : List LossyMove :=
  [.portValue 1 2 5, .portValue 2 1 5, .trigger 1, .deliver 1 2 ⟨1, 0, [0, inf]⟩]

theorem no_count_to_infinity_pair : ∃ x, IsDistance
    (((lossy pairCabling).play ⟨pairRouters, []⟩ pairRun).w.costArc pairCabling) inf 2 1 x ∧
    x ≤ 5 := by
  have h0 : (lossy pairCabling).Reachable ⟨pairRouters, []⟩ := .init ⟨pairRouters_fresh, rfl⟩
  have hrun : (lossy pairCabling).Playable ⟨pairRouters, []⟩ pairRun := by decide
  exact (no_count_to_infinity (h0.play hrun) (by decide)).1 2 1 (by decide) (by decide) (by decide)

end Newest
end NetworkingLabs.Routing
