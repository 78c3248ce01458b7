import Mathlib.Algebra.Order.BigOperators.Group.Finset
import Mathlib.Order.Bounds.Basic
import Mathlib.Algebra.Order.Group.Int
import Mathlib.Data.Int.LeastGreatest
import Mathlib.Tactic.Abel

/-!
# Walks with costs

A graph is given by its weighted arcs. A walk carries the sum of the costs of its
arcs; the distance of two vertices is the least cost of a walk, or a given top value
if there is no walk at all.
-/
namespace NetworkingLabs.WeightedWalks

universe u v

variable {V : Type u} {A : Type v}

inductive Walk [AddCommMonoid A] (E : V → V → A → Prop) : V → V → A → Prop
  | nil (v : V) : Walk E v v 0
  | cons {u v t : V} {a x : A} (h : E u v a) (ht : Walk E v t x) : Walk E u t (a + x)

def IsDistance [AddCommMonoid A] [LE A] (E : V → V → A → Prop) (top : A) (u t : V) (x : A) :
    Prop :=
  IsLeast {y | Walk E u t y} x ∨ (¬ ∃ y, Walk E u t y) ∧ x = top

section Basic

variable [AddCommMonoid A] {E E' : V → V → A → Prop} {u v t : V} {a x y : A}

theorem Walk.single (h : E u v a) : Walk E u v a := by
  simpa using Walk.cons h (.nil v)

theorem Walk.append (h : Walk E u v x) (h' : Walk E v t y) : Walk E u t (x + y) := by
  induction h with
  | nil v => simpa using h'
  | cons he _ ih => simpa [add_assoc] using Walk.cons he (ih h')

theorem Walk.reverse (hE : ∀ u v a, E u v a → E v u a) (h : Walk E u t x) : Walk E t u x := by
  induction h with
  | nil v => exact .nil v
  | cons he _ ih =>
    rw [add_comm]
    exact ih.append (.single (hE _ _ _ he))

variable [LinearOrder A]

theorem IsDistance.le {top : A} (h : IsDistance E top u t x) (hy : Walk E u t y) : x ≤ y := by
  rcases h with h | ⟨h, -⟩
  · exact h.2 hy
  · exact absurd ⟨y, hy⟩ h

variable [IsOrderedAddMonoid A]

theorem Walk.nonneg (hE : ∀ u v a, E u v a → 0 ≤ a) (h : Walk E u t x) : 0 ≤ x := by
  induction h with
  | nil v => exact le_rfl
  | cons he _ ih => exact add_nonneg (hE _ _ _ he) ih

/-- Walks carry over to a graph that has a walk no dearer for every arc met. `S` is closed
under the arcs, and the arcs that leave it do not matter. -/
theorem Walk.refine {S : Set V} (hS : ∀ u ∈ S, ∀ v a, E u v a →
    v ∈ S ∧ ∃ b ≤ a, Walk E' u v b) (hu : u ∈ S) (h : Walk E u t x) :
    ∃ y ≤ x, Walk E' u t y := by
  induction h with
  | nil v => exact ⟨0, le_rfl, .nil v⟩
  | cons he _ ih =>
    obtain ⟨hv, b, hb, hwalk⟩ := hS _ hu _ _ he
    obtain ⟨y, hy, hwalk'⟩ := ih hv
    exact ⟨b + y, add_le_add hb hy, hwalk.append hwalk'⟩

theorem Walk.mono (hE : ∀ u v a, E u v a → ∃ b ≤ a, E' u v b) (h : Walk E u t x) :
    ∃ y ≤ x, Walk E' u t y := by
  refine h.refine (S := Set.univ) (fun u _ v a he => ⟨trivial, ?_⟩) trivial
  obtain ⟨b, hb, he'⟩ := hE u v a he
  exact ⟨b, hb, .single he'⟩

/-- A labelling that no arc violates bounds the cost of every walk from below. -/
theorem Walk.potential_le {p : V → A} (hp : ∀ u v a, E u v a → p u ≤ a + p v)
    (h : Walk E u t x) : p u ≤ x + p t := by
  induction h with
  | nil v => rw [zero_add]
  | cons he _ ih =>
    rw [add_assoc]
    exact (hp _ _ _ he).trans (add_le_add_right ih _)

end Basic

section Total

variable [AddCommMonoid A] [DecidableEq V] {E : V → V → A → Prop} {u t : V} {x : A}
  {S : Finset V}

def Within (E : V → V → A → Prop) (S : Finset V) (u v : V) (a : A) : Prop :=
  u ∈ S ∧ v ∈ S ∧ E u v a

/-- A walk to `t` either avoids `r`, or leaves `r` a last time. -/
theorem Walk.last_visit {r : V} (hr : r ≠ t) (h : Walk (Within E S) u t x) :
    (u ≠ r ∧ ∃ y, Walk (Within E (S.erase r)) u t y) ∨
    ∃ v a y, Within E S r v a ∧ v ≠ r ∧ Walk (Within E (S.erase r)) v t y := by
  induction h with
  | nil t => exact Or.inl ⟨hr.symm, 0, .nil t⟩
  | @cons u v t a x he _ ih =>
    rcases ih hr with ⟨hv, y, hy⟩ | hlast
    · by_cases hu : u = r
      · subst hu
        exact Or.inr ⟨v, a, y, he, hv, hy⟩
      · have he' : Within E (S.erase r) u v a :=
          ⟨Finset.mem_erase.mpr ⟨hu, he.1⟩, Finset.mem_erase.mpr ⟨hv, he.2.1⟩, he.2.2⟩
        exact Or.inl ⟨hu, a + y, .cons he' hy⟩
    · exact Or.inr hlast

variable [LinearOrder A] [IsOrderedAddMonoid A]

private theorem sum_pairs_erase {m : V → V → A} (hm : ∀ u v, 0 ≤ m u v) {v : V} (hu : u ∈ S)
    (hv : v ∈ S.erase u) :
    m u v + m v u + ∑ i ∈ S.erase u, ∑ j ∈ S.erase u, m i j ≤ ∑ i ∈ S, ∑ j ∈ S, m i j := by
  have hrow : m u v ≤ ∑ j ∈ S, m u j :=
    Finset.single_le_sum (fun j _ => hm u j) (Finset.mem_of_mem_erase hv)
  have hcol : m v u ≤ ∑ i ∈ S.erase u, m i u := Finset.single_le_sum (fun i _ => hm i u) hv
  calc m u v + m v u + ∑ i ∈ S.erase u, ∑ j ∈ S.erase u, m i j
      ≤ ∑ j ∈ S, m u j + ∑ i ∈ S.erase u, m i u + ∑ i ∈ S.erase u, ∑ j ∈ S.erase u, m i j :=
        add_le_add_left (add_le_add hrow hcol) _
    _ = ∑ j ∈ S, m u j + ∑ i ∈ S.erase u, (m i u + ∑ j ∈ S.erase u, m i j) := by
        rw [Finset.sum_add_distrib, add_assoc]
    _ = ∑ j ∈ S, m u j + ∑ i ∈ S.erase u, ∑ j ∈ S, m i j := by
        congr 1
        apply Finset.sum_congr rfl
        intro i _
        exact Finset.add_sum_erase S (m i) hu
    _ = ∑ i ∈ S, ∑ j ∈ S, m i j := Finset.add_sum_erase S (fun i => ∑ j ∈ S, m i j) hu

omit [LinearOrder A] [IsOrderedAddMonoid A] [DecidableEq V] in
/-- The sum over all ordered pairs is twice the sum over the unordered ones. -/
theorem sum_pairs_eq [LinearOrder V] {m : V → V → A} (hsymm : ∀ u v, m u v = m v u)
    (hdiag : ∀ u, m u u = 0) :
    ∑ i ∈ S, ∑ j ∈ S, m i j = ∑ i ∈ S, ∑ j ∈ S, (if i < j then m i j else 0) +
      ∑ i ∈ S, ∑ j ∈ S, (if i < j then m i j else 0) := by
  have hswap : ∑ i ∈ S, ∑ j ∈ S, (if i < j then m i j else 0) =
      ∑ i ∈ S, ∑ j ∈ S, (if j < i then m i j else 0) := by
    rw [Finset.sum_comm]
    simp only [hsymm]
  have hsplit : ∀ i j, m i j = (if i < j then m i j else 0) + (if j < i then m i j else 0) := by
    intro i j
    rcases lt_trichotomy i j with h | rfl | h
    · simp [h, h.asymm]
    · simp [hdiag]
    · simp [h, h.asymm]
  calc ∑ i ∈ S, ∑ j ∈ S, m i j
      = ∑ i ∈ S, ∑ j ∈ S, ((if i < j then m i j else 0) + (if j < i then m i j else 0)) := by
        simp only [← hsplit]
    _ = ∑ i ∈ S, ∑ j ∈ S, (if i < j then m i j else 0) +
        ∑ i ∈ S, ∑ j ∈ S, (if j < i then m i j else 0) := by
        simp only [Finset.sum_add_distrib]
    _ = _ := by rw [← hswap]

/-- Two vertices that are connected have a walk that uses no pair of vertices twice: twice
its cost is at most the sum of a bound over all ordered pairs. -/
theorem Walk.exists_le_total {m : V → V → A} (hm : ∀ u v, 0 ≤ m u v)
    (hE : ∀ u v a, E u v a → a ≤ m u v ∧ a ≤ m v u) (h : Walk (Within E S) u t x) :
    ∃ y, Walk (Within E S) u t y ∧ y + y ≤ ∑ i ∈ S, ∑ j ∈ S, m i j := by
  induction S using Finset.strongInduction generalizing u x with
  | H S ih =>
    by_cases hut : u = t
    · subst hut
      refine ⟨0, .nil u, ?_⟩
      rw [add_zero]
      exact Finset.sum_nonneg fun i _ => Finset.sum_nonneg fun j _ => hm i j
    · rcases h.last_visit hut with ⟨hu, -⟩ | ⟨v, a, y, he, hv, hy⟩
      · exact absurd rfl hu
      · obtain ⟨z, hz, hle⟩ := ih _ (Finset.erase_ssubset he.1) hy
        have hmono : ∀ i j b, Within E (S.erase u) i j b → ∃ c ≤ b, Within E S i j c :=
          fun i j b hb => ⟨b, le_rfl, Finset.mem_of_mem_erase hb.1,
            Finset.mem_of_mem_erase hb.2.1, hb.2.2⟩
        obtain ⟨w, hw, hwalk⟩ := hz.mono hmono
        have ha := hE _ _ _ he.2.2
        refine ⟨a + w, .cons he hwalk, ?_⟩
        calc a + w + (a + w) = a + a + (w + w) := by abel
          _ ≤ m u v + m v u + ∑ i ∈ S.erase u, ∑ j ∈ S.erase u, m i j :=
            add_le_add (add_le_add ha.1 ha.2) ((add_le_add hw hw).trans hle)
          _ ≤ _ := sum_pairs_erase hm he.1 (Finset.mem_erase.mpr ⟨hv, he.2.1⟩)

end Total

/-- With integer costs from zero up every pair of vertices has a distance. -/
theorem exists_isDistance {E : V → V → ℤ → Prop} (hE : ∀ u v a, E u v a → 0 ≤ a) (top : ℤ)
    (u t : V) : ∃ x, IsDistance E top u t x := by
  by_cases h : ∃ y, Walk E u t y
  · have hbdd : ∃ b : ℤ, ∀ y, Walk E u t y → b ≤ y := ⟨0, fun _ hy => hy.nonneg hE⟩
    obtain ⟨x, hx, hle⟩ := Int.exists_least_of_bdd hbdd h
    exact ⟨x, Or.inl ⟨hx, hle⟩⟩
  · exact ⟨top, Or.inr ⟨h, rfl⟩⟩

end NetworkingLabs.WeightedWalks
