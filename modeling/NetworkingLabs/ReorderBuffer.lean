import Mathlib.Data.List.Basic
import Mathlib.Data.List.Count

/-!
# An unbounded reorder buffer

Items arrive under numbers, in any order and more than once. The buffer keeps the first item
of every number of its window and hands items over in the order of their numbers, as long as
it has the next one.
-/
namespace NetworkingLabs

universe u

structure ReorderBuffer (α : Type u) where
  next : ℕ
  /-- The first item accepted for each number. -/
  held : List (ℕ × α)
  delivered : List α

namespace ReorderBuffer

variable {α : Type u}

def empty : ReorderBuffer α := ⟨0, [], []⟩

def deliver : ℕ → ReorderBuffer α → ReorderBuffer α
  | 0, b => b
  | n + 1, b => match b.held.lookup b.next with
    | none => b
    | some x => deliver n { b with next := b.next + 1, delivered := b.delivered ++ [x] }

/-- Hands over while the next item is there; there are no more than `held` (`settle_ended`). -/
def settle (b : ReorderBuffer α) : ReorderBuffer α := deliver b.held.length b

def hold (b : ReorderBuffer α) (s : ℕ) (x : α) : ReorderBuffer α :=
  match b.held.lookup s with
  | some _ => b
  | none => { b with held := (s, x) :: b.held }

def accept (window : ℕ) (b : ReorderBuffer α) (s : ℕ) (x : α) : ReorderBuffer α :=
  if b.next ≤ s ∧ s < b.next + window then (b.hold s x).settle else b

variable {b : ReorderBuffer α} {s k n window : ℕ} {x y : α}

def pending (b : ReorderBuffer α) : ℕ := b.held.countP fun e => b.next ≤ e.1

private theorem pending_le (b : ReorderBuffer α) :
    b.pending ≤ b.held.length := List.countP_le_length

private theorem countP_next_lt {held : List (ℕ × α)} {next : ℕ} (h : held.lookup next = some x) :
    (held.countP fun e => next + 1 ≤ e.1) < held.countP fun e => next ≤ e.1 := by
  induction held with
  | nil => cases h
  | cons e held ih =>
    obtain ⟨j, y⟩ := e
    rw [List.countP_cons, List.countP_cons]
    by_cases hj : next = j
    · have hle : (held.countP fun e => next + 1 ≤ e.1) ≤ held.countP fun e => next ≤ e.1 :=
        List.countP_mono_left fun e _ h => by
          simp only [decide_eq_true_eq] at h ⊢
          omega
      rw [if_neg (by simp [hj]), if_pos (by simp [hj])]
      exact Nat.lt_succ_of_le hle
    · have hlt := ih (by simpa [List.lookup_cons, beq_eq_false_iff_ne.mpr hj] using h)
      by_cases h1 : next + 1 ≤ j
      · rw [if_pos (by simpa using h1), if_pos (by simpa using Nat.le_of_succ_le h1)]
        omega
      · rw [if_neg (by simpa using h1), if_neg (by simp; omega)]
        omega

/-- With enough turns the delivery stops because the next item is missing. -/
theorem deliver_ended (h : b.pending ≤ n) :
    (deliver n b).held.lookup (deliver n b).next = none := by
  induction n generalizing b with
  | zero =>
    cases hx : b.held.lookup b.next with
    | none => exact hx
    | some x =>
      have hlt := countP_next_lt hx
      rw [pending] at h
      omega
  | succ n ih =>
    cases hx : b.held.lookup b.next with
    | none => simp [deliver, hx]
    | some x =>
      have hlt := countP_next_lt hx
      simp only [deliver, hx]
      apply ih
      show b.held.countP (fun e => b.next + 1 ≤ e.1) ≤ n
      rw [pending] at h
      omega

private theorem settle_ended (b : ReorderBuffer α) : b.settle.held.lookup b.settle.next = none :=
  deliver_ended b.pending_le

/-- More turns than are needed change nothing. -/
theorem deliver_add (h : (deliver n b).held.lookup (deliver n b).next = none) (k : ℕ) :
    deliver (n + k) b = deliver n b := by
  induction n generalizing b with
  | zero =>
    have hnone : b.held.lookup b.next = none := h
    cases k with
    | zero => rfl
    | succ k => simp [deliver, hnone]
  | succ n ih =>
    rw [Nat.succ_add]
    cases hx : b.held.lookup b.next with
    | none => simp [deliver, hx]
    | some x =>
      simp only [deliver, hx] at h ⊢
      exact ih h

/-- Any number of turns after which the next item is missing gives the same buffer. -/
theorem settle_eq (b : ReorderBuffer α) (h : (deliver n b).held.lookup (deliver n b).next = none) :
    b.settle = deliver n b := by
  rw [settle, ← deliver_add b.settle_ended n, Nat.add_comm]
  exact deliver_add h _

private theorem next_le_deliver (n : ℕ) (b : ReorderBuffer α) : b.next ≤ (deliver n b).next := by
  induction n generalizing b with
  | zero => exact Nat.le_refl _
  | succ n ih =>
    cases hx : b.held.lookup b.next with
    | none =>
      simp only [deliver, hx]
      exact Nat.le_refl _
    | some x =>
      simp only [deliver, hx]
      have hle := ih { b with next := b.next + 1, delivered := b.delivered ++ [x] }
      exact Nat.le_of_succ_le hle

theorem next_le_settle (b : ReorderBuffer α) : b.next ≤ b.settle.next := next_le_deliver _ _

theorem lookup_hold (b : ReorderBuffer α) (s k : ℕ) (x : α) : (b.hold s x).held.lookup k =
    if k = s ∧ b.held.lookup s = none then some x else b.held.lookup k := by
  cases hs : b.held.lookup s with
  | some y => simp [hold, hs]
  | none =>
    by_cases hk : k = s
    · simp [hold, hs, hk]
    · simp [hold, hs, hk, List.lookup_cons, beq_eq_false_iff_ne.mpr hk]

@[simp] theorem hold_next (b : ReorderBuffer α) (s : ℕ) (x : α) : (b.hold s x).next = b.next := by
  unfold hold
  split <;> rfl

@[simp] theorem hold_delivered (b : ReorderBuffer α) (s : ℕ) (x : α) :
    (b.hold s x).delivered = b.delivered := by
  unfold hold
  split <;> rfl

/-- Everything handed over has been held, so there is room below the length of `held`. -/
def Counted (b : ReorderBuffer α) : Prop := b.next + b.pending ≤ b.held.length

theorem counted_empty : Counted (empty : ReorderBuffer α) := Nat.le_refl 0

theorem Counted.deliver (h : Counted b) (n : ℕ) :
    Counted (deliver n b) ∧ (deliver n b).held = b.held := by
  induction n generalizing b with
  | zero => exact ⟨h, rfl⟩
  | succ n ih =>
    cases hx : b.held.lookup b.next with
    | none =>
      simp only [ReorderBuffer.deliver, hx, and_true]
      exact h
    | some x =>
      have hlt := countP_next_lt hx
      simp only [ReorderBuffer.deliver, hx]
      apply ih
      show b.next + 1 + b.held.countP (fun e => b.next + 1 ≤ e.1) ≤ b.held.length
      rw [Counted, pending] at h
      omega

theorem Counted.hold (h : Counted b) (s : ℕ) (x : α) :
    Counted (b.hold s x) ∧ (b.hold s x).held.length ≤ b.held.length + 1 := by
  cases hs : b.held.lookup s with
  | some y =>
    simp only [ReorderBuffer.hold, hs]
    exact ⟨h, Nat.le_succ _⟩
  | none =>
    simp only [ReorderBuffer.hold, hs, List.length_cons, Nat.le_refl, and_true]
    simp only [Counted, pending, List.countP_cons, List.length_cons] at h ⊢
    split <;> omega

/-- An arrival adds at most one item. -/
theorem Counted.accept (h : Counted b) (window s : ℕ) (x : α) :
    Counted (b.accept window s x) ∧ (b.accept window s x).held.length ≤ b.held.length + 1 := by
  by_cases hs : b.next ≤ s ∧ s < b.next + window
  · obtain ⟨h1, h2⟩ := h.hold s x
    obtain ⟨h3, h4⟩ := h1.deliver (b.hold s x).held.length
    rw [ReorderBuffer.accept, if_pos hs, settle]
    exact ⟨h3, by rw [h4]; exact h2⟩
  · rw [ReorderBuffer.accept, if_neg hs]
    exact ⟨h, Nat.le_succ _⟩

theorem Counted.next_le (h : Counted b) : b.next ≤ b.held.length :=
  Nat.le_trans (Nat.le_add_right _ _) h

end ReorderBuffer
end NetworkingLabs
