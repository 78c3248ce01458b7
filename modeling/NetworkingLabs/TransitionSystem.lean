import Mathlib.Data.Nat.Notation
import Mathlib.Logic.Basic

/-!
# Transition systems, reachable states and the invariant rule

A system is given by its events: when an event may happen and what it makes of the
state. Both are ordinary functions, so a run can be played.
-/
namespace NetworkingLabs

universe u v w x

structure TransitionSystem (σ : Type u) (ι : Type v) where
  init : σ → Prop
  enabled : σ → ι → Prop
  next : σ → ι → σ

namespace TransitionSystem

variable {σ : Type u} {ι : Type v} {S : TransitionSystem σ ι}

inductive Reachable (S : TransitionSystem σ ι) : σ → Prop
  | init {s : σ} (h : S.init s) : Reachable S s
  | step {s : σ} (h : Reachable S s) (i : ι) (hi : S.enabled s i) : Reachable S (S.next s i)

/-- What holds initially and is kept by every event holds in every reachable state. -/
theorem Reachable.invariant {P : σ → Prop} (h0 : ∀ s, S.init s → P s)
    (h1 : ∀ s i, P s → S.enabled s i → P (S.next s i)) {s : σ} (h : S.Reachable s) : P s := by
  induction h with
  | init h => exact h0 _ h
  | step _ i hi ih => exact h1 _ i ih hi

def play (S : TransitionSystem σ ι) (s : σ) : List ι → σ
  | [] => s
  | i :: is => S.play (S.next s i) is

def Playable (S : TransitionSystem σ ι) (s : σ) : List ι → Prop
  | [] => True
  | i :: is => S.enabled s i ∧ S.Playable (S.next s i) is

def decidablePlayable [∀ s i, Decidable (S.enabled s i)] (s : σ) :
    (is : List ι) → Decidable (S.Playable s is)
  | [] => .isTrue trivial
  | i :: is =>
    have : Decidable (S.Playable (S.next s i) is) := decidablePlayable _ is
    inferInstanceAs (Decidable (_ ∧ _))

instance [∀ s i, Decidable (S.enabled s i)] (s : σ) (is : List ι) :
    Decidable (S.Playable s is) := decidablePlayable s is

theorem Reachable.play {s : σ} (h : S.Reachable s) {is : List ι} (his : S.Playable s is) :
    S.Reachable (S.play s is) := by
  induction is generalizing s with
  | nil => exact h
  | cons i is ih => exact ih (h.step i his.1) his.2

theorem play_append (s : σ) (is js : List ι) :
    S.play s (is ++ js) = S.play (S.play s is) js := by
  induction is generalizing s with
  | nil => rfl
  | cons i is ih => exact ih (S.next s i)

theorem playable_append {s : σ} {is js : List ι} :
    S.Playable s (is ++ js) ↔ S.Playable s is ∧ S.Playable (S.play s is) js := by
  induction is generalizing s with
  | nil => exact ⟨fun h ↦ ⟨trivial, h⟩, And.right⟩
  | cons i is ih => exact (and_congr_right fun _ ↦ ih).trans and_assoc.symm

/-- If every event makes a measure smaller, no run is longer than the measure. -/
theorem Playable.measure_le {f : σ → ℕ} (h : ∀ s i, S.enabled s i → f (S.next s i) < f s) {s : σ}
    {is : List ι} (his : S.Playable s is) : f (S.play s is) + is.length ≤ f s := by
  induction is generalizing s with
  | nil => exact Nat.le_refl _
  | cons i is ih =>
    have hrest : f (S.play (S.next s i) is) + is.length ≤ f (S.next s i) := ih his.2
    have hfirst := h s i his.1
    rw [play, List.length_cons]
    omega

/-- Among events of one kind, a measure that some make smaller and none makes larger bounds the
number of those. -/
theorem Playable.countP_le {I : σ → Prop} {K : ι → Prop} {p : ι → Bool} {f : σ → ℕ}
    (hI : ∀ s i, I s → S.enabled s i → I (S.next s i))
    (hf : ∀ s i, I s → K i → S.enabled s i → f (S.next s i) + (if p i then 1 else 0) ≤ f s)
    {s : σ} (h : I s) {is : List ι} (his : S.Playable s is) (hK : ∀ i ∈ is, K i) :
    f (S.play s is) + is.countP p ≤ f s := by
  induction is generalizing s with
  | nil => exact Nat.le_refl _
  | cons i is ih =>
    obtain ⟨hi, his⟩ := his
    have hrest := ih (hI s i h hi) his fun j hj ↦ hK j (List.mem_cons_of_mem i hj)
    have hfirst := hf s i h (hK i List.mem_cons_self) hi
    rw [play, List.countP_cons]
    omega

/-- If some event that makes a measure smaller may happen wherever a property does not hold yet,
some run leads to the property. -/
theorem exists_play {I P : σ → Prop} {K : ι → Prop} {f : σ → ℕ}
    (hstep : ∀ s, I s → ¬ P s →
      ∃ i, K i ∧ S.enabled s i ∧ I (S.next s i) ∧ f (S.next s i) < f s) {s : σ} (h : I s) :
    ∃ is, (∀ i ∈ is, K i) ∧ S.Playable s is ∧ I (S.play s is) ∧ P (S.play s is) := by
  obtain ⟨n, hn⟩ : ∃ n, f s ≤ n := ⟨_, Nat.le_refl _⟩
  induction n generalizing s with
  | zero =>
    by_cases hP : P s
    · exact ⟨[], by simp, trivial, h, hP⟩
    · obtain ⟨i, -, -, -, hlt⟩ := hstep s h hP
      omega
  | succ n ih =>
    by_cases hP : P s
    · exact ⟨[], by simp, trivial, h, hP⟩
    · obtain ⟨i, hK, hi, hI, hlt⟩ := hstep s h hP
      obtain ⟨is, hall, his, hend⟩ := ih hI (by omega)
      exact ⟨i :: is, List.forall_mem_cons.mpr ⟨hK, hall⟩, ⟨hi, his⟩, hend⟩

/-- Every event of the sequence meets a condition on it and on the state it happens in. -/
def Meets (S : TransitionSystem σ ι) (C : σ → ι → Prop) (s : σ) : List ι → Prop
  | [] => True
  | i :: is => C s i ∧ S.Meets C (S.next s i) is

def decidableMeets {C : σ → ι → Prop} [∀ s i, Decidable (C s i)] (s : σ) :
    (is : List ι) → Decidable (S.Meets C s is)
  | [] => .isTrue trivial
  | i :: is =>
    have : Decidable (S.Meets C (S.next s i) is) := decidableMeets _ is
    inferInstanceAs (Decidable (_ ∧ _))

instance {C : σ → ι → Prop} [∀ s i, Decidable (C s i)] (s : σ) (is : List ι) :
    Decidable (S.Meets C s is) := decidableMeets s is

def restrict (S : TransitionSystem σ ι) (C : σ → ι → Prop) : TransitionSystem σ ι :=
  { S with enabled := fun s i => S.enabled s i ∧ C s i }

instance {C : σ → ι → Prop} [∀ s i, Decidable (S.enabled s i)] [∀ s i, Decidable (C s i)] (s : σ)
    (i : ι) : Decidable ((S.restrict C).enabled s i) :=
  inferInstanceAs (Decidable (_ ∧ _))

def Throughout (S : TransitionSystem σ ι) (P : σ → Prop) (s : σ) : List ι → Prop
  | [] => P s
  | i :: is => P s ∧ S.Throughout P (S.next s i) is

theorem throughout_iff_play {P : σ → Prop} (h : ∀ s i, P (S.next s i) → P s) (s : σ)
    (is : List ι) : S.Throughout P s is ↔ P (S.play s is) := by
  induction is generalizing s with
  | nil => exact Iff.rfl
  | cons i is ih =>
    constructor
    · rintro ⟨-, hrest⟩
      exact (ih (S.next s i)).mp hrest
    · intro hend
      have hrest := (ih (S.next s i)).mpr hend
      refine ⟨h s i ?_, hrest⟩
      cases is with
      | nil => exact hrest
      | cons j is => exact hrest.1

theorem meets_of_forall {C : σ → ι → Prop} (h : ∀ s i, C s i) (s : σ) (is : List ι) :
    S.Meets C s is := by
  induction is generalizing s with
  | nil => trivial
  | cons i is ih => exact ⟨h s i, ih _⟩

theorem Playable.meets {s : σ} {is : List ι} (h : S.Playable s is) : S.Meets S.enabled s is := by
  induction is generalizing s with
  | nil => trivial
  | cons i is ih => exact ⟨h.1, ih h.2⟩

/-- What a condition implies of every event, while it keeps an invariant. -/
theorem Meets.of_invariant {I : σ → Prop} {C D : σ → ι → Prop}
    (hstep : ∀ s i, I s → C s i → I (S.next s i)) (hD : ∀ s i, I s → C s i → D s i) {s : σ}
    (h : I s) {is : List ι} (his : S.Meets C s is) : S.Meets D s is := by
  induction is generalizing s with
  | nil => trivial
  | cons i is ih => exact ⟨hD s i h his.1, ih (hstep s i h his.1) his.2⟩

/-- Among the runs whose events are all of some kind, a condition on the events is the exact one
for a property of the states, if under it every event keeps an invariant that implies the
property, and no other event leaves the property. -/
theorem Meets.throughout_iff_meets {I P : σ → Prop} {K C : σ → ι → Prop} (hP : ∀ s, I s → P s)
    (hstep : ∀ s i, I s → K s i → C s i → I (S.next s i))
    (hback : ∀ s i, I s → K s i → P (S.next s i) → C s i) {s : σ} (h : I s) {is : List ι}
    (his : S.Meets K s is) : S.Throughout P s is ↔ S.Meets C s is := by
  induction is generalizing s with
  | nil => exact iff_of_true (hP s h) trivial
  | cons i is ih =>
    obtain ⟨hi, his⟩ := his
    constructor
    · rintro ⟨-, hrest⟩
      have hnext : P (S.next s i) := by
        cases is with
        | nil => exact hrest
        | cons j is => exact hrest.1
      have hC := hback s i h hi hnext
      exact ⟨hC, (ih (hstep s i h hi hC) his).mp hrest⟩
    · rintro ⟨hC, hrest⟩
      exact ⟨hP s h, (ih (hstep s i h hi hC) his).mpr hrest⟩

/-- The same among all runs. -/
theorem throughout_iff_meets {I P : σ → Prop} {C : σ → ι → Prop} (hP : ∀ s, I s → P s)
    (hstep : ∀ s i, I s → C s i → I (S.next s i))
    (hback : ∀ s i, I s → P (S.next s i) → C s i) {s : σ} (h : I s) (is : List ι) :
    S.Throughout P s is ↔ S.Meets C s is :=
  Meets.throughout_iff_meets hP (fun s i hs (_ : True) => hstep s i hs)
    (fun s i hs _ => hback s i hs) h (meets_of_forall (fun _ _ => trivial) s is)

/-- A system is simulated by another one that answers each of its events with an event or
with none: whatever it reaches corresponds to something that the other one reaches. -/
theorem Reachable.simulated {τ : Type w} {κ : Type x} {T : TransitionSystem τ κ}
    {R : σ → τ → Prop} (h0 : ∀ s, S.init s → ∃ t, T.init t ∧ R s t)
    (h1 : ∀ s t i, R s t → S.enabled s i →
      R (S.next s i) t ∨ ∃ j, T.enabled t j ∧ R (S.next s i) (T.next t j))
    {s : σ} (h : S.Reachable s) : ∃ t, T.Reachable t ∧ R s t := by
  induction h with
  | init h =>
    obtain ⟨t, ht, hR⟩ := h0 _ h
    exact ⟨t, .init ht, hR⟩
  | step _ i hi ih =>
    obtain ⟨t, ht, hR⟩ := ih
    rcases h1 _ _ i hR hi with hR' | ⟨j, hj, hR'⟩
    · exact ⟨t, ht, hR'⟩
    · exact ⟨T.next t j, ht.step j hj, hR'⟩

end TransitionSystem
end NetworkingLabs
