import Mathlib.Data.PEquiv
import Mathlib.Data.List.Nodup

/-!
# Leases

A stock of addresses, each of which is free or leased to one holder. The leases are a
partial bijection; the free addresses form a stack. That an address is never both is part
of the structure.
-/
namespace NetworkingLabs

universe u v

structure Leases (H : Type u) (A : Type v) where
  table : H ≃. A
  free : List A
  nodup : free.Nodup
  apart : ∀ a ∈ free, table.symm a = none

namespace Leases

variable {H : Type u} {A : Type v}

def Managed (l : Leases H A) (a : A) : Prop := a ∈ l.free ∨ ∃ h, l.table h = some a

def unleased (free : List A) (nodup : free.Nodup) : Leases H A := ⟨⊥, free, nodup, fun _ _ => rfl⟩

theorem managed_unleased {free : List A} (nodup : free.Nodup) (a : A) :
    (unleased free nodup : Leases H A).Managed a ↔ a ∈ free := by
  simp [Managed, unleased]

theorem table_ne_of_free {l : Leases H A} {a : A} (ha : a ∈ l.free) (h : H) :
    l.table h ≠ some a := by
  intro hh
  have hnone := l.apart a ha
  rw [l.table.eq_some_iff.mpr hh] at hnone
  cases hnone

/-- Two holders never have one address. -/
theorem holder_unique (l : Leases H A) {h h' : H} {a : A} (hh : l.table h = some a)
    (hh' : l.table h' = some a) : h = h' := l.table.inj hh hh'

theorem free_eq_nil_iff (l : Leases H A) :
    l.free = [] ↔ ∀ a, l.Managed a → ∃ h, l.table h = some a := by
  constructor
  · rintro hnil a (ha | ha)
    · rw [hnil] at ha
      cases ha
    · exact ha
  · intro hall
    cases hfree : l.free with
    | nil => rfl
    | cons a free =>
      have ha : a ∈ l.free := by simp [hfree]
      obtain ⟨h, hh⟩ := hall a (Or.inl ha)
      exact absurd hh (table_ne_of_free ha h)

section Operations

variable [DecidableEq H] [DecidableEq A]

def extend (e : H ≃. A) (h : H) (a : A) (hh : e h = none) (ha : e.symm a = none) : H ≃. A where
  toFun := Function.update e h (some a)
  invFun := Function.update e.symm a (some h)
  inv x b := by
    show Function.update e.symm a (some h) b = some x ↔ Function.update e h (some a) x = some b
    by_cases hx : x = h
    · subst hx
      by_cases hb : b = a
      · subst hb
        simp
      · have hne : e.symm b ≠ some x := by
          intro hb'
          rw [e.eq_some_iff, hh] at hb'
          cases hb'
        simp [hb, hne, Ne.symm hb]
    · by_cases hb : b = a
      · subst hb
        have hne : e x ≠ some b := by
          intro hx'
          rw [← e.eq_some_iff, ha] at hx'
          cases hx'
        simp [hx, hne, Ne.symm hx]
      · simp [hx, hb, e.eq_some_iff]

def erase (e : H ≃. A) (h : H) (a : A) (ha : e h = some a) : H ≃. A where
  toFun := Function.update e h none
  invFun := Function.update e.symm a none
  inv x b := by
    show Function.update e.symm a none b = some x ↔ Function.update e h none x = some b
    by_cases hx : x = h
    · subst hx
      by_cases hb : b = a
      · subst hb
        simp
      · have hne : e.symm b ≠ some x := by
          intro hb'
          rw [e.eq_some_iff, ha] at hb'
          exact hb (Option.some.inj hb').symm
        simp [hb, hne]
    · by_cases hb : b = a
      · subst hb
        have hne : e x ≠ some b := fun hx' => hx (e.inj hx' ha)
        simp [hx, hne]
      · simp [hx, hb, e.eq_some_iff]

/-- The address on top of the stack is leased to a holder that has none. -/
def grant (l : Leases H A) (h : H) (a : A) (free : List A) (hfree : l.free = a :: free)
    (hh : l.table h = none) : Leases H A where
  table := extend l.table h a hh (l.apart a (by simp [hfree]))
  free := free
  nodup := by
    have hnodup := l.nodup
    rw [hfree] at hnodup
    exact (List.nodup_cons.mp hnodup).2
  apart b hb := by
    have hnodup := l.nodup
    rw [hfree] at hnodup
    have hne : b ≠ a := by
      rintro rfl
      exact (List.nodup_cons.mp hnodup).1 hb
    show Function.update l.table.symm a (some h) b = none
    rw [Function.update_of_ne hne]
    exact l.apart b (by simp [hfree, hb])

def revoke (l : Leases H A) (h : H) (a : A) (ha : l.table h = some a) : Leases H A where
  table := erase l.table h a ha
  free := a :: l.free
  nodup := List.nodup_cons.mpr ⟨fun hmem => table_ne_of_free hmem h ha, l.nodup⟩
  apart b hb := by
    show Function.update l.table.symm a none b = none
    by_cases hba : b = a
    · rw [hba, Function.update_self]
    · rw [Function.update_of_ne hba]
      exact l.apart b ((List.mem_cons.mp hb).resolve_left hba)

theorem managed_grant {l : Leases H A} {h : H} {a : A} {free : List A}
    (hfree : l.free = a :: free) (hh : l.table h = none) (b : A) :
    (l.grant h a free hfree hh).Managed b ↔ l.Managed b := by
  have htable : (l.grant h a free hfree hh).table = Function.update l.table h (some a) := rfl
  have hstack : (l.grant h a free hfree hh).free = free := rfl
  rw [Managed, Managed, htable, hstack, hfree]
  constructor
  · rintro (hb | ⟨x, hx⟩)
    · exact Or.inl (List.mem_cons_of_mem a hb)
    · by_cases hxh : x = h
      · subst hxh
        rw [Function.update_self] at hx
        left
        rw [← Option.some.inj hx]
        exact List.mem_cons_self
      · rw [Function.update_of_ne hxh] at hx
        exact Or.inr ⟨x, hx⟩
  · rintro (hb | ⟨x, hx⟩)
    · rcases List.mem_cons.mp hb with rfl | hb
      · exact Or.inr ⟨h, Function.update_self ..⟩
      · exact Or.inl hb
    · have hxh : x ≠ h := by
        rintro rfl
        rw [hh] at hx
        cases hx
      exact Or.inr ⟨x, by rwa [Function.update_of_ne hxh]⟩

theorem managed_revoke {l : Leases H A} {h : H} {a : A} (ha : l.table h = some a) (b : A) :
    (l.revoke h a ha).Managed b ↔ l.Managed b := by
  have htable : (l.revoke h a ha).table = Function.update l.table h none := rfl
  have hstack : (l.revoke h a ha).free = a :: l.free := rfl
  rw [Managed, Managed, htable, hstack]
  constructor
  · rintro (hb | ⟨x, hx⟩)
    · rcases List.mem_cons.mp hb with rfl | hb
      · exact Or.inr ⟨h, ha⟩
      · exact Or.inl hb
    · have hxh : x ≠ h := by
        rintro rfl
        rw [Function.update_self] at hx
        cases hx
      rw [Function.update_of_ne hxh] at hx
      exact Or.inr ⟨x, hx⟩
  · rintro (hb | ⟨x, hx⟩)
    · exact Or.inl (List.mem_cons_of_mem a hb)
    · by_cases hxh : x = h
      · subst hxh
        rw [ha] at hx
        left
        rw [Option.some.inj hx]
        exact List.mem_cons_self
      · exact Or.inr ⟨x, by rwa [Function.update_of_ne hxh]⟩

end Operations
end Leases
end NetworkingLabs
