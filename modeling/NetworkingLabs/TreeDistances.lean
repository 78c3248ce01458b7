import Mathlib.Combinatorics.SimpleGraph.Acyclic

/-!
# Directions on trees

Every edge of a tree leads nearer to a given vertex in exactly one of its two directions, and
only one edge at each vertex does. So what is passed on from a vertex to all of its other
neighbours comes nearer to a target at most once. On a connected graph with a cycle there are
walks without end that never turn back.
-/
namespace NetworkingLabs.TreeDistances

universe u

variable {V : Type u} {G : SimpleGraph V} {a t x y z : V}

def Nearer (G : SimpleGraph V) (t x y : V) : Prop := G.dist y t < G.dist x t

section Edges

theorem Nearer.asymm (h : Nearer G t x y) : ¬ Nearer G t y x := Nat.lt_asymm h

theorem not_nearer_self : ¬ Nearer G x x y := by
  rw [Nearer, SimpleGraph.dist_self]
  exact Nat.not_lt_zero _

theorem nearer_end (hxy : G.Adj x y) : Nearer G y x y := by
  rw [Nearer, SimpleGraph.dist_self, SimpleGraph.dist_eq_one_iff_adj.mpr hxy]
  exact Nat.one_pos

theorem nearer_or_nearer (hG : G.IsTree) (hxy : G.Adj x y) (t : V) :
    Nearer G t x y ∨ Nearer G t y x := by
  have hne := hG.dist_ne_of_adj t hxy
  rw [G.dist_comm, G.dist_comm (v := y)] at hne
  rw [Nearer, Nearer]
  omega

theorem exists_nearer (hG : G.Connected) (hne : x ≠ t) : ∃ y, G.Adj x y ∧ Nearer G t x y := by
  obtain ⟨p, hp⟩ := hG.exists_walk_length_eq_dist x t
  cases p with
  | nil => exact absurd rfl hne
  | cons hxy p =>
    refine ⟨_, hxy, ?_⟩
    have hle := SimpleGraph.dist_le p
    rw [SimpleGraph.Walk.length_cons] at hp
    rw [Nearer]
    omega

theorem exists_path_cons (hG : G.Connected) (hxy : G.Adj x y) (h : Nearer G t x y) :
    ∃ p : G.Walk y t, (SimpleGraph.Walk.cons hxy p).IsPath := by
  obtain ⟨p, hp⟩ := hG.exists_walk_length_eq_dist y t
  refine ⟨p, SimpleGraph.Walk.isPath_of_length_eq_dist _ ?_⟩
  have hle := SimpleGraph.dist_le (.cons hxy p)
  rw [SimpleGraph.Walk.length_cons] at hle ⊢
  rw [Nearer] at h
  omega

theorem Nearer.unique (hG : G.IsTree) (hxy : G.Adj x y) (hxz : G.Adj x z)
    (hy : Nearer G t x y) (hz : Nearer G t x z) : y = z := by
  obtain ⟨p, hp⟩ := exists_path_cons hG.connected hxy hy
  obtain ⟨q, hq⟩ := exists_path_cons hG.connected hxz hz
  have hpath := (hG.existsUnique_path x t).unique hp hq
  exact (SimpleGraph.Walk.cons.inj hpath).1

end Edges

section Copies

open scoped Classical

variable {ys : List V}

theorem countP_nearer_le_one (hG : G.IsTree) (hys : ∀ y ∈ ys, G.Adj x y) (hnodup : ys.Nodup) :
    ys.countP (fun y => Nearer G t x y) ≤ 1 := by
  by_cases hex : ∃ y ∈ ys, Nearer G t x y
  · obtain ⟨z, hz, hnear⟩ := hex
    calc ys.countP (fun y => Nearer G t x y) ≤ ys.countP (· == z) := by
          apply List.countP_mono_left
          intro y hy hynear
          have hyz := Nearer.unique hG (hys y hy) (hys z hz) (of_decide_eq_true hynear) hnear
          rw [hyz]
          exact beq_self_eq_true z
      _ ≤ 1 := List.nodup_iff_count_le_one.mp hnodup z
  · rw [List.countP_eq_zero.mpr fun y hy hynear => hex ⟨y, hy, of_decide_eq_true hynear⟩]
    exact Nat.zero_le 1

/-- Something arrives from `x` at `y` and is passed on to other neighbours: what comes nearer
to `t` becomes no more. -/
theorem countP_nearer_le [DecidableEq V] (hG : G.IsTree) (hxy : G.Adj x y)
    (hys : ∀ z ∈ ys, G.Adj y z ∧ z ≠ x) (hnodup : ys.Nodup) :
    ys.countP (fun z => Nearer G t y z) + (if y = t then 1 else 0) ≤
      if Nearer G t x y then 1 else 0 := by
  by_cases hyt : y = t
  · subst hyt
    rw [if_pos rfl, if_pos (nearer_end hxy),
      List.countP_eq_zero.mpr fun z _ hz => not_nearer_self (of_decide_eq_true hz)]
  · rw [if_neg hyt, Nat.add_zero]
    by_cases hnear : Nearer G t x y
    · rw [if_pos hnear]
      exact countP_nearer_le_one hG (fun z hz => (hys z hz).1) hnodup
    · have hback := (nearer_or_nearer hG hxy t).resolve_left hnear
      rw [List.countP_eq_zero.mpr]
      · exact Nat.zero_le _
      · intro z hz hznear
        have hznear := of_decide_eq_true hznear
        exact (hys z hz).2 (Nearer.unique hG (hys z hz).1 hxy.symm hznear hback)

theorem countP_nearer_ge [DecidableEq V] (hG : G.Connected)
    (hys : ∀ z, G.Adj y z → z ≠ x → Nearer G t y z → z ∈ ys) :
    (if Nearer G t x y then 1 else 0) ≤
      ys.countP (fun z => Nearer G t y z) + if y = t then 1 else 0 := by
  by_cases hnear : Nearer G t x y
  · rw [if_pos hnear]
    by_cases hyt : y = t
    · rw [if_pos hyt]
      exact Nat.le_add_left _ _
    · obtain ⟨z, hyz, hznear⟩ := exists_nearer hG hyt
      have hzx : z ≠ x := by
        rintro rfl
        exact hnear.asymm hznear
      have hpos : 0 < ys.countP (fun z => Nearer G t y z) :=
        List.countP_pos_iff.mpr ⟨z, hys z hyz hzx hznear, decide_eq_true hznear⟩
      omega
  · rw [if_neg hnear]
    exact Nat.zero_le _

end Copies

section Between

def Between (G : SimpleGraph V) (a t x : V) : Prop := G.dist a x + G.dist x t = G.dist a t

theorem Between.start : Between G a t a := by
  rw [Between, SimpleGraph.dist_self, Nat.zero_add]

/-- A step nearer to the end stays between. -/
theorem Between.step (hG : G.Connected) (h : Between G a t x) (hxy : G.Adj x y)
    (hnear : Nearer G t x y) : Between G a t y := by
  have hfar := hG.dist_triangle (u := a) (v := x) (w := y)
  have hall := hG.dist_triangle (u := a) (v := y) (w := t)
  rw [SimpleGraph.dist_eq_one_iff_adj.mpr hxy] at hfar
  rw [Between] at h ⊢
  rw [Nearer] at hnear
  omega

end Between

section Loops

/-- A walk without end that never turns back. -/
def NeverBack (G : SimpleGraph V) (g : ℕ → V) : Prop :=
  ∀ i, G.Adj (g i) (g (i + 1)) ∧ g (i + 2) ≠ g i

private theorem neverBack_cycle {c : G.Walk x x} (hc : c.IsCycle) :
    NeverBack G fun i => c.getVert (i % c.length) := by
  have hlen := hc.three_le_length
  intro i
  have hi : i % c.length < c.length := Nat.mod_lt _ (by omega)
  constructor
  · have hadj := c.adj_getVert_succ hi
    by_cases hlast : i % c.length + 1 = c.length
    · rw [hlast, c.getVert_length] at hadj
      have hzero : (i + 1) % c.length = 0 := by
        rw [Nat.add_mod, Nat.mod_eq_of_lt (a := 1) (by omega), hlast, Nat.mod_self]
      simp only [hzero, c.getVert_zero]
      exact hadj
    · have hsucc : (i + 1) % c.length = i % c.length + 1 := by
        rw [Nat.add_mod, Nat.mod_eq_of_lt (a := 1) (by omega), Nat.mod_eq_of_lt (by omega)]
      simp only [hsucc]
      exact hadj
  · intro heq
    have hi2 : (i + 2) % c.length < c.length := Nat.mod_lt _ (by omega)
    have hmod : (i + 2) % c.length = i % c.length :=
      hc.getVert_injOn' (Nat.le_sub_one_of_lt hi2) (Nat.le_sub_one_of_lt hi) heq
    have hdvd : c.length ∣ i + 2 - i := (Nat.modEq_iff_dvd' (by omega)).mp hmod.symm
    have hle := Nat.le_of_dvd (by omega) hdvd
    omega

/-- A walk that does not begin by coming nearer can be reached from anywhere. -/
theorem NeverBack.reach (hG : G.Connected) {g : ℕ → V} (hg : NeverBack G g)
    (hfar : ¬ Nearer G a (g 0) (g 1)) : ∃ h, NeverBack G h ∧ h 0 = a := by
  induction hd : G.dist (g 0) a using Nat.strong_induction_on generalizing g with
  | _ d ih =>
    by_cases hend : g 0 = a
    · exact ⟨g, hg, hend⟩
    · obtain ⟨y, hadj, hnear⟩ := exists_nearer hG hend
      have hne : g 1 ≠ y := by
        rintro rfl
        exact hfar hnear
      have hstep : NeverBack G fun i => Nat.casesOn i y g := by
        intro i
        cases i with
        | zero => exact ⟨hadj.symm, hne⟩
        | succ i => exact hg i
      exact ih _ (hd ▸ hnear) hstep hnear.asymm rfl

/-- On a connected graph with a cycle some walk from anywhere never ends and never turns
back. -/
theorem exists_neverBack (hG : G.Connected) (hcycle : ¬ G.IsAcyclic) (a : V) :
    ∃ g, NeverBack G g ∧ g 0 = a := by
  rw [SimpleGraph.IsAcyclic] at hcycle
  push Not at hcycle
  obtain ⟨x, c, hc⟩ := hcycle
  have hround := neverBack_cycle hc
  generalize (fun i => c.getVert (i % c.length)) = g at hround
  obtain ⟨i, hmin⟩ : ∃ i, ∀ j, G.dist (g i) a ≤ G.dist (g j) a :=
    ⟨_, fun j => Function.argmin_le (fun i => G.dist (g i) a) j⟩
  have hshift : NeverBack G fun j => g (i + j) := fun j => hround (i + j)
  exact hshift.reach hG (Nat.not_lt_of_le (hmin (i + 1)))

end Loops

end NetworkingLabs.TreeDistances
