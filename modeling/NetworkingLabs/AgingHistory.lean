import Mathlib.Data.List.Basic
import Mathlib.Data.List.Count

/-!
# What is remembered for a while

A value is put under a key, and every tick makes all values older. What a key still
remembers can be read off the history alone: what was put last, and the ticks since.
-/
namespace NetworkingLabs

universe u v

inductive AgingEvent (κ : Type u) (ν : Type v) where
  | put (key : κ) (value : ν)
  | tick
  deriving DecidableEq

namespace AgingHistory

variable {κ : Type u} {ν : Type v}

abbrev History (κ : Type u) (ν : Type v) := List (AgingEvent κ ν)

def ticks : History κ ν → ℕ
  | [] => 0
  | .put _ _ :: h => ticks h
  | .tick :: h => ticks h + 1

variable [DecidableEq κ]

/-- What was put last under a key, and the ticks since. -/
def last (key : κ) : History κ ν → Option (ν × ℕ)
  | [] => none
  | .put key' value :: h => if key' = key then some (value, 0) else last key h
  | .tick :: h => (last key h).map fun p => (p.1, p.2 + 1)

/-- What is left of a value that lives for `lifeTime` ticks, with the ticks left to it. -/
def remembered (lifeTime : ℕ) (key : κ) (h : History κ ν) : Option (ν × ℕ) :=
  (last key h).bind fun p => if p.2 < lifeTime then some (p.1, lifeTime - p.2) else none

variable {lifeTime : ℕ} {key key' : κ} {value : ν} {h newer older : History κ ν} {n : ℕ}

theorem remembered_put (hpos : 0 < lifeTime) : remembered lifeTime key (.put key' value :: h) =
    if key' = key then some (value, lifeTime) else remembered lifeTime key h := by
  by_cases hkey : key' = key
  · simp [remembered, last, hkey, hpos]
  · simp [remembered, last, hkey]

theorem remembered_tick : remembered lifeTime key (.tick :: h) =
    (remembered lifeTime key h).bind fun p => if p.2 = 1 then none else some (p.1, p.2 - 1) := by
  cases hlast : last key h with
  | none => simp [remembered, last, hlast]
  | some p =>
    simp only [remembered, last, hlast, Option.map_some, Option.bind_some]
    by_cases hlt : p.2 < lifeTime
    · rw [if_pos hlt, Option.bind_some]
      by_cases hlast : lifeTime - p.2 = 1
      · rw [if_pos hlast, if_neg (by omega)]
      · rw [if_neg hlast, if_pos (by omega), Nat.sub_sub]
    · rw [if_neg hlt, if_neg (by omega), Option.bind_none]

theorem pos_of_remembered (hrem : remembered lifeTime key h = some (value, n)) : 0 < n := by
  obtain ⟨p, -, hp⟩ := Option.bind_eq_some_iff.mp hrem
  by_cases hlt : p.2 < lifeTime
  · rw [if_pos hlt] at hp
    cases hp
    omega
  · rw [if_neg hlt] at hp
    cases hp

private theorem last_of_not_put (hnew : ∀ value, .put key value ∉ newer) :
    last key (newer ++ older) = (last key older).map fun p => (p.1, p.2 + ticks newer) := by
  induction newer with
  | nil => simp [ticks]
  | cons e newer ih =>
    have hrest := ih fun value hmem => hnew value (List.mem_cons_of_mem e hmem)
    cases e with
    | put key' value =>
      have hkey : key' ≠ key := by
        rintro rfl
        exact hnew value List.mem_cons_self
      rw [List.cons_append, last, if_neg hkey, hrest, ticks]
    | tick =>
      rw [List.cons_append, last, hrest, Option.map_map, ticks]
      rfl

/-- The last value of a key is found where nothing was put under that key afterwards. -/
theorem last_eq_of_put (hnew : ∀ value, .put key value ∉ newer) :
    last key (newer ++ .put key value :: older) = some (value, ticks newer) := by
  rw [last_of_not_put hnew, last, if_pos rfl]
  simp

theorem last_eq_none (hnone : ∀ value, .put key value ∉ h) : last key h = none := by
  have hlast : last key (h ++ []) = _ := last_of_not_put hnone
  rw [List.append_nil] at hlast
  exact hlast

end AgingHistory
end NetworkingLabs
