import Mathlib.Data.List.Perm.Basic
import Mathlib.Order.Lattice

/-!
# What is learned in the newest version

Values come with versions. A newer version replaces all that was known before, and what is known
in one version is combined. This is a semilattice, so what is learned from some messages does not
depend on their order.
-/
namespace NetworkingLabs

universe u v w

@[ext] structure Versioned (α : Type u) (β : Type v) where
  version : α
  value : β

namespace Versioned

variable {α : Type u} {β : Type v} [LinearOrder α] [SemilatticeInf β] {p q : Versioned α β}

/-- The newer one, or both together. -/
def merge (p q : Versioned α β) : Versioned α β :=
  if p.version < q.version then q
  else if q.version < p.version then p
  else ⟨p.version, p.value ⊓ q.value⟩

theorem merge_of_lt (h : p.version < q.version) : p.merge q = q := if_pos h

theorem merge_of_gt (h : q.version < p.version) : p.merge q = p := by
  rw [merge, if_neg h.asymm, if_pos h]

theorem merge_of_eq (h : p.version = q.version) :
    p.merge q = ⟨p.version, p.value ⊓ q.value⟩ := by
  rw [merge, if_neg h.not_lt, if_neg h.not_gt]

theorem merge_version (p q : Versioned α β) : (p.merge q).version = max p.version q.version := by
  rcases lt_trichotomy p.version q.version with h | h | h
  · rw [merge_of_lt h, max_eq_right h.le]
  · rw [merge_of_eq h, h, max_self]
  · rw [merge_of_gt h, max_eq_left h.le]

private theorem merge_comm (p q : Versioned α β) : p.merge q = q.merge p := by
  rcases lt_trichotomy p.version q.version with h | h | h
  · rw [merge_of_lt h, merge_of_gt h]
  · rw [merge_of_eq h, merge_of_eq h.symm, inf_comm, h]
  · rw [merge_of_gt h, merge_of_lt h]

private theorem merge_self (p : Versioned α β) : p.merge p = p := by
  rw [merge_of_eq rfl, inf_idem]

private theorem merge_assoc (p q r : Versioned α β) :
    (p.merge q).merge r = p.merge (q.merge r) := by
  rcases lt_trichotomy p.version q.version with h | h | h <;>
    rcases lt_trichotomy q.version r.version with h' | h' | h'
  · rw [merge_of_lt h, merge_of_lt h', merge_of_lt (h.trans h')]
  · have hpr : p.version < (q.merge r).version := by rwa [merge_version, h', max_self, ← h']
    rw [merge_of_lt h, merge_of_lt hpr]
  · rw [merge_of_lt h, merge_of_gt h', merge_of_lt h]
  · have hpq : (p.merge q).version < r.version := by rwa [merge_version, h, max_self]
    rw [merge_of_lt h', merge_of_lt hpq, merge_of_lt (h.trans_lt h')]
  · have hpq : (⟨p.version, p.value ⊓ q.value⟩ : Versioned α β).version = r.version := h.trans h'
    have hqr : p.version = (⟨q.version, q.value ⊓ r.value⟩ : Versioned α β).version := h
    rw [merge_of_eq h, merge_of_eq h', merge_of_eq hpq, merge_of_eq hqr, inf_assoc]
  · have hpq : r.version < (p.merge q).version := by rwa [merge_version, h, max_self]
    rw [merge_of_gt h', merge_of_gt hpq]
  · rw [merge_of_gt h, merge_of_lt h']
  · have hpr : (q.merge r).version < p.version := by rwa [merge_version, ← h', max_self]
    rw [merge_of_gt h, merge_of_gt hpr, merge_of_gt (h' ▸ h)]
  · rw [merge_of_gt h, merge_of_gt h', merge_of_gt h, merge_of_gt (h'.trans h)]

/-- Above is what has learned more. -/
instance : SemilatticeSup (Versioned α β) :=
  letI : Max (Versioned α β) := ⟨merge⟩
  SemilatticeSup.mk' merge_comm merge_assoc merge_self

theorem sup_eq_merge (p q : Versioned α β) : p ⊔ q = p.merge q := rfl

end Versioned

section Learning

variable {σ : Type u} {ι : Type v} {γ : Type w} [SemilatticeSup γ] {step : σ → ι → σ}
  {know : σ → γ} {msg : ι → γ} {I : σ → Prop} {ok : ι → Prop} {s : σ} {l l₁ l₂ : List ι}

/-- A step joins what a message says to what is known. -/
structure Learns (step : σ → ι → σ) (know : σ → γ) (msg : ι → γ) (I : σ → Prop) (ok : ι → Prop) :
    Prop where
  keeps : ∀ s i, I s → ok i → I (step s i)
  joins : ∀ s i, I s → ok i → know (step s i) = know s ⊔ msg i

theorem Learns.foldl (h : Learns step know msg I ok) (hs : I s) (hl : ∀ i ∈ l, ok i) :
    know (l.foldl step s) = (l.map msg).foldl (· ⊔ ·) (know s) := by
  induction l generalizing s with
  | nil => rfl
  | cons i l ih =>
    have hi := hl i List.mem_cons_self
    rw [List.foldl_cons, List.map_cons, List.foldl_cons, ← h.joins s i hs hi]
    exact ih (h.keeps s i hs hi) fun j hj => hl j (List.mem_cons_of_mem i hj)

theorem Learns.perm (h : Learns step know msg I ok) (hs : I s) (hl : ∀ i ∈ l₁, ok i)
    (hperm : l₁.Perm l₂) : know (l₁.foldl step s) = know (l₂.foldl step s) := by
  have hl' : ∀ i ∈ l₂, ok i := fun i hi => hl i (hperm.mem_iff.mpr hi)
  rw [h.foldl hs hl, h.foldl hs hl']
  exact (hperm.map msg).foldl_op_eq

end Learning

end NetworkingLabs
