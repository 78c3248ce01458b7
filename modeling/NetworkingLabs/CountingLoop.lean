import Mathlib.Algebra.BigOperators.Ring.Finset
import Mathlib.Algebra.Order.BigOperators.Group.Finset
import Mathlib.Algebra.Order.Group.Defs
import Mathlib.Algebra.Order.Group.Int
import Mathlib.Data.Nat.Find

/-!
# Loops that count what their calls return

A loop `while(ret < len) ret += call(at + ret, len - ret)` over a counter without a sign, whatever
the calls return: a count, 0 or -1. What a call does to the data is a parameter.
-/
namespace NetworkingLabs.CountingLoop

universe u

section Loop

/-- A result with a sign, added to a counter without one. -/
def sizeT (r : ℤ) : UInt64 := UInt64.ofBitVec (BitVec.ofInt 64 r)

def ret (results : ℕ → ℤ) : ℕ → UInt64
  | 0 => 0
  | k + 1 => ret results k + sizeT (results k)

def moved (results : ℕ → ℤ) (k : ℕ) : ℕ := ∑ i ∈ Finset.range k, (results i).toNat

def balance (results : ℕ → ℤ) (k : ℕ) : ℤ := ∑ i ∈ Finset.range k, results i

variable {σ : Type u} (move : σ → ℕ → ℕ → σ) (len : UInt64) (results : ℕ → ℤ) (total : Option ℕ)

/-- The data before the k-th call, where `move` takes the place and the count of a transfer. -/
def dataAt (s : σ) : ℕ → σ
  | 0 => s
  | k + 1 => move (dataAt s k) (ret results k).toNat (results k).toNat

/-- The loop from the k-th call on, for so many turns; `none` has not ended by then. -/
def loop : ℕ → ℕ → UInt64 → σ → Option σ
  | 0, _, _, _ => none
  | turns + 1, k, r, s =>
    if r < len then loop turns (k + 1) (r + sizeT (results k)) (move s r.toNat (results k).toNat)
    else some s

def transfer (turns : ℕ) (s : σ) : Option σ := loop move len results turns 0 0 s

def Runs (n : ℕ) : Prop := ∀ i < n, ret results i < len

/-- The calls return -1, or a count of at most what was asked for and is there, or 0 once nothing is
there any more. There is no end to what is there if `total` is none. -/
def Allowed : Prop := ∀ k, Runs len results (k + 1) →
  results k = -1 ∨ (results k = 0 ∧ total = some (moved results k)) ∨
    (0 < results k ∧ (ret results k).toNat + (results k).toNat ≤ len.toNat ∧
      ∀ t ∈ total, moved results (k + 1) ≤ t)

/-- The first calls all transfer something, and together what was asked for. -/
def Steady : Prop := ∃ n, (∀ i < n, 0 < results i) ∧ moved results n = len.toNat

/-- There is always something, and errors take it all back before it is enough. -/
def Endless : Prop :=
  ∀ k, results k ≠ 0 ∧ 0 ≤ balance results k ∧ balance results k < len.toNat

/-- Once all that is there has been transferred the loop ends, no call goes past the end, and
whenever the loop ends, the data are related as they should be. -/
structure Transfers (run : ℕ → σ → Option σ) (related : σ → σ → Prop) : Prop where
  ends : ∀ k, Runs len results k → total = some (moved results k) →
    ∀ s, ∃ turns out, run turns s = some out
  inside : ∀ k, Runs len results (k + 1) →
    (ret results k).toNat + (results k).toNat ≤ len.toNat
  right : ∀ s turns out, run turns s = some out → related s out

end Loop

section Counter

variable {len : UInt64} {results : ℕ → ℤ} {total : Option ℕ} {n k m : ℕ}

@[simp] theorem moved_zero : moved results 0 = 0 := rfl

theorem moved_succ : moved results (k + 1) = moved results k + (results k).toNat :=
  Finset.sum_range_succ _ k

@[simp] theorem balance_zero : balance results 0 = 0 := rfl

private theorem balance_succ : balance results (k + 1) = balance results k + results k :=
  Finset.sum_range_succ _ k

private theorem moved_mono : Monotone (moved results) :=
  monotone_nat_of_le_succ fun k ↦ by rw [moved_succ]; omega

theorem balance_eq_moved (h : ∀ i < n, 0 ≤ results i) : balance results n = moved results n := by
  rw [balance, moved, Nat.cast_sum]
  refine Finset.sum_congr rfl fun i hi ↦ ?_
  exact (Int.toNat_of_nonneg (h i (Finset.mem_range.mp hi))).symm

private theorem nonneg_of_balance_eq (h : balance results n = moved results n) (hk : k < n) :
    0 ≤ results k := by
  have hle : ∀ i ∈ Finset.range n, results i ≤ ((results i).toNat : ℤ) :=
    fun i _ ↦ Int.self_le_toNat (results i)
  rw [balance, moved, Nat.cast_sum] at h
  have hall := (Finset.sum_eq_sum_iff_of_le hle).mp h k (Finset.mem_range.mpr hk)
  omega

theorem Runs.of_le (h : Runs len results n) (hm : m ≤ n) : Runs len results m :=
  fun i hi ↦ h i (by omega)

private theorem toNat_sizeT_neg_one : (sizeT (-1)).toNat = 2 ^ 64 - 1 := by decide

private theorem toNat_sizeT {r : ℤ} (h0 : 0 ≤ r) (hlt : r.toNat < 2 ^ 64) :
    (sizeT r).toNat = r.toNat := by
  rw [sizeT, UInt64.toNat_ofBitVec, BitVec.toNat_ofInt]
  omega

private theorem toNat_ret_succ (h0 : 0 ≤ results k)
    (hle : (ret results k).toNat + (results k).toNat ≤ len.toNat) :
    (ret results (k + 1)).toNat = (ret results k).toNat + (results k).toNat := by
  have hlen := len.toNat_lt
  rw [ret, UInt64.toNat_add, toNat_sizeT h0 (by omega)]
  omega

private theorem toNat_ret_error (hr : results k = -1) (hpos : 0 < (ret results k).toNat) :
    (ret results (k + 1)).toNat = (ret results k).toNat - 1 := by
  have hlt := (ret results k).toNat_lt
  rw [ret, hr, UInt64.toNat_add, toNat_sizeT_neg_one]
  omega

private theorem ret_wrap (hr : results k = -1) (h0 : (ret results k).toNat = 0) :
    ¬ ret results (k + 1) < len := by
  have hlen := len.toNat_lt
  rw [ret, hr, UInt64.lt_iff_toNat_lt, UInt64.toNat_add, toNat_sizeT_neg_one, h0]
  omega

/-- No call goes past the end. -/
theorem Allowed.inside (h : Allowed len results total) (hrun : Runs len results (k + 1)) :
    (ret results k).toNat + (results k).toNat ≤ len.toNat := by
  have hlt := UInt64.lt_iff_toNat_lt.mp (hrun k (Nat.lt_succ_self k))
  rcases h k hrun with hr | ⟨hr, -⟩ | ⟨-, hle, -⟩
  · omega
  · omega
  · exact hle

/-- What a call does to the counter: an error at zero ends the loop, and everything else is added
with its sign. -/
theorem Allowed.step (h : Allowed len results total) (hrun : Runs len results (k + 1)) :
    results k = -1 ∧ (ret results k).toNat = 0 ∧ ¬ ret results (k + 1) < len ∨
      ((ret results (k + 1)).toNat : ℤ) = (ret results k).toNat + results k := by
  have hin := h.inside hrun
  have hcount : 0 ≤ results k →
      ((ret results (k + 1)).toNat : ℤ) = (ret results k).toNat + results k := by
    intro h0
    rw [toNat_ret_succ h0 hin]
    omega
  rcases h k hrun with hr | ⟨hr, -⟩ | ⟨hr, -⟩
  · rcases Nat.eq_zero_or_pos (ret results k).toNat with h0 | hpos
    · exact .inl ⟨hr, h0, ret_wrap hr h0⟩
    · rw [toNat_ret_error hr hpos, hr]
      omega
  · exact .inr (hcount hr.ge)
  · exact .inr (hcount hr.le)

theorem Allowed.ret_eq (h : Allowed len results total) (hrun : Runs len results (n + 1)) :
    ((ret results n).toNat : ℤ) = balance results n := by
  induction n with
  | zero => rfl
  | succ n ih =>
    have hrun' := hrun.of_le (Nat.le_succ (n + 1))
    rw [balance_succ, ← ih hrun']
    rcases h.step hrun' with ⟨-, -, hexit⟩ | hret
    · exact absurd (hrun (n + 1) (Nat.lt_succ_self _)) hexit
    · exact hret

theorem Allowed.runs (h : Allowed len results total) (h0 : ∀ k ≤ n, 0 ≤ balance results k)
    (hlt : ∀ k < n, balance results k < len.toNat) :
    Runs len results n ∧ ((ret results n).toNat : ℤ) = balance results n := by
  induction n with
  | zero => exact ⟨fun i hi ↦ absurd hi (Nat.not_lt_zero i), rfl⟩
  | succ n ih =>
    obtain ⟨hrun, hret⟩ := ih (fun k hk ↦ h0 k (by omega)) (fun k hk ↦ hlt k (by omega))
    have hn := hlt n (Nat.lt_succ_self n)
    have hnext := h0 (n + 1) (Nat.le_refl _)
    have hrun' : Runs len results (n + 1) := by
      intro i hi
      rcases Nat.lt_succ_iff_lt_or_eq.mp hi with hi | rfl
      · exact hrun i hi
      · rw [UInt64.lt_iff_toNat_lt]
        omega
    refine ⟨hrun', ?_⟩
    rw [balance_succ] at hnext ⊢
    rcases h.step hrun' with ⟨hr, hzero, -⟩ | hstep
    · omega
    · rw [hstep, hret]

theorem allowed_once (h : results 0 = len.toNat) : Allowed len results none := by
  intro k hrun
  have hcount : (results 0).toNat = len.toNat := by omega
  have hret : (ret results 0).toNat = 0 := rfl
  have hpos := UInt64.lt_iff_toNat_lt.mp (hrun 0 (Nat.succ_pos k))
  cases k with
  | zero => exact .inr (.inr ⟨by omega, by omega, fun _ ht ↦ absurd ht (Option.not_mem_none _)⟩)
  | succ k =>
    have hlt := UInt64.lt_iff_toNat_lt.mp (hrun 1 (by omega))
    rw [toNat_ret_succ (by omega) (by omega : _ ≤ len.toNat)] at hlt
    omega

theorem steady_once (h : results 0 = len.toNat) : Steady len results := by
  have hcount : (results 0).toNat = len.toNat := by omega
  rcases Nat.eq_zero_or_pos len.toNat with hlen | hlen
  · exact ⟨0, fun i hi ↦ absurd hi (Nat.not_lt_zero i), hlen.symm⟩
  · refine ⟨1, fun i hi ↦ ?_, by rw [moved_succ, moved_zero, hcount, Nat.zero_add]⟩
    rw [Nat.lt_one_iff.mp hi]
    omega

end Counter

section Exits

variable {σ : Type u} {move : σ → ℕ → ℕ → σ} {len : UInt64} {results : ℕ → ℤ} {total : Option ℕ}
variable {n k turns : ℕ}

theorem loop_exit (s : σ) (hrun : Runs len results n) (hexit : ¬ ret results n < len)
    (hk : k ≤ n) :
    loop move len results turns k (ret results k) (dataAt move results s k) =
      if n < k + turns then some (dataAt move results s n) else none := by
  induction turns generalizing k with
  | zero => rw [loop, if_neg (by omega)]
  | succ turns ih =>
    rw [loop]
    rcases Nat.eq_or_lt_of_le hk with rfl | hlt
    · rw [if_neg hexit, if_pos (by omega)]
    · rw [if_pos (hrun k hlt), Nat.add_comm turns, ← Nat.add_assoc]
      exact ih hlt

private theorem loop_none (s : σ) (hrun : ∀ n, Runs len results n) :
    loop move len results turns k (ret results k) (dataAt move results s k) = none := by
  induction turns generalizing k with
  | zero => rfl
  | succ turns ih =>
    rw [loop, if_pos (hrun (k + 1) k (Nat.lt_succ_self k))]
    exact ih

theorem exists_exit (h : ¬ ∀ n, Runs len results n) :
    ∃ n, Runs len results n ∧ ¬ ret results n < len := by
  have hsome : ∃ n, ¬ ret results n < len := by
    by_contra hall
    exact h fun n i _ ↦ by_contra fun hi ↦ hall ⟨i, hi⟩
  refine ⟨Nat.find hsome, fun i hi ↦ ?_, Nat.find_spec hsome⟩
  exact not_not.mp (Nat.find_min hsome hi)

theorem transfer_exit (s : σ) (hrun : Runs len results n) (hexit : ¬ ret results n < len) :
    transfer move len results turns s =
      if n < turns then some (dataAt move results s n) else none := by
  have hloop : loop move len results turns 0 (ret results 0) (dataAt move results s 0) =
      if n < 0 + turns then some (dataAt move results s n) else none :=
    loop_exit s hrun hexit (Nat.zero_le n)
  rwa [Nat.zero_add] at hloop

/-- The two ways out: the results add up to the end, or there was an error at zero and no call
got to the end. -/
theorem Allowed.exit_cases (h : Allowed len results total) (hrun : Runs len results n)
    (hexit : ¬ ret results n < len) :
    balance results n = len.toNat ∨
      0 < len.toNat ∧ ∀ k < n, (ret results k).toNat + (results k).toNat < len.toNat := by
  rw [UInt64.lt_iff_toNat_lt, Nat.not_lt] at hexit
  cases n with
  | zero =>
    have hlen : len.toNat = 0 := Nat.le_zero.mp hexit
    exact .inl (by rw [hlen]; rfl)
  | succ n =>
    have hin := h.inside hrun
    have hret := h.ret_eq hrun
    rcases h.step hrun with ⟨hr, hzero, -⟩ | hstep
    · right
      have hn := UInt64.lt_iff_toNat_lt.mp (hrun n (Nat.lt_succ_self n))
      refine ⟨by omega, fun k hk ↦ ?_⟩
      have hk' := UInt64.lt_iff_toNat_lt.mp (hrun k hk)
      by_cases h0 : 0 ≤ results k
      · have hkn : k ≠ n := fun heq ↦ by rw [heq, hr] at h0; exact absurd h0 (by decide)
        have hnext := UInt64.lt_iff_toNat_lt.mp (hrun (k + 1) (by omega))
        rwa [toNat_ret_succ h0 (h.inside (hrun.of_le hk))] at hnext
      · omega
    · left
      rw [balance_succ, ← hret]
      omega

end Exits

section Outcomes

variable {σ : Type u} {move : σ → ℕ → ℕ → σ} {len : UInt64} {results : ℕ → ℤ} {total : Option ℕ}
variable {related : σ → σ → Prop} {n k : ℕ}

theorem Allowed.steady_runs (h : Allowed len results total) (hpos : ∀ i < n, 0 < results i)
    (hall : moved results n = len.toNat) : Runs len results n ∧ ¬ ret results n < len ∧
      ∀ k ≤ n, (ret results k).toNat = moved results k := by
  have hbal : ∀ k ≤ n, balance results k = moved results k :=
    fun k hk ↦ balance_eq_moved fun i hi ↦ (hpos i (by omega)).le
  have hlt : ∀ k < n, moved results k < len.toNat := by
    intro k hk
    have hstep : moved results (k + 1) = moved results k + (results k).toNat := moved_succ
    have hle : moved results (k + 1) ≤ moved results n := moved_mono hk
    have hk' := hpos k hk
    omega
  have hruns : ∀ m ≤ n, Runs len results m ∧ ((ret results m).toNat : ℤ) = balance results m := by
    intro m hm
    refine h.runs (fun k hk ↦ ?_) (fun k hk ↦ ?_)
    · rw [hbal k (by omega)]
      omega
    · rw [hbal k (by omega)]
      exact_mod_cast hlt k (by omega)
  have hret : ∀ k ≤ n, (ret results k).toNat = moved results k := by
    intro k hk
    have hk' := (hruns k hk).2
    rw [hbal k hk] at hk'
    exact_mod_cast hk'
  refine ⟨(hruns n (Nat.le_refl n)).1, ?_, hret⟩
  rw [UInt64.lt_iff_toNat_lt, hret n (Nat.le_refl n)]
  omega

/-- If both the results and what was transferred add up to the end, there was no error, and the end
of what is there was not met either. -/
theorem Allowed.steady (h : Allowed len results total) (hrun : Runs len results n)
    (hbal : balance results n = len.toNat) (hall : moved results n = len.toNat) :
    Steady len results := by
  refine ⟨n, fun i hi ↦ ?_, hall⟩
  have h0 := nonneg_of_balance_eq (hbal.trans (congrArg Nat.cast hall.symm)) hi
  rcases h i (hrun.of_le hi) with hr | ⟨hr, htotal⟩ | ⟨hr, -⟩
  · omega
  · -- The last call has transferred something, after the end of what is there.
    obtain ⟨m, rfl⟩ : ∃ m, n = m + 1 := Nat.exists_eq_add_one.mpr (by omega)
    have hret := h.ret_eq hrun
    have hlt := UInt64.lt_iff_toNat_lt.mp (hrun m (Nat.lt_succ_self m))
    have hmono : moved results i ≤ moved results m := moved_mono (Nat.le_of_lt_succ hi)
    rw [balance_succ] at hbal
    rcases h m hrun with hm | ⟨hm, -⟩ | ⟨hm, -, hle⟩
    · omega
    · omega
    · have hsucc := hle _ htotal
      rw [moved_succ] at hsucc
      omega
  · exact hr

theorem Allowed.endless (h : Allowed len results total) (hrun : ∀ n, Runs len results n)
    (hmore : ∀ k, total ≠ some (moved results k)) : Endless len results := by
  intro k
  have hret := h.ret_eq (hrun (k + 1))
  have hlt := UInt64.lt_iff_toNat_lt.mp (hrun (k + 1) k (Nat.lt_succ_self k))
  refine ⟨?_, by omega, by omega⟩
  rcases h k (hrun (k + 1)) with hr | ⟨-, htotal⟩ | ⟨hr, -⟩
  · omega
  · exact absurd htotal (hmore k)
  · omega

theorem Endless.runs (he : Endless len results) (h : Allowed len results total) (n : ℕ) :
    Runs len results n :=
  (h.runs (fun k _ ↦ (he k).2.1) (fun k _ ↦ (he k).2.2)).1

/-- An endless loop never has all: after that there are only errors, and they do not keep the sum
above zero. -/
theorem Endless.total_ne (he : Endless len results) (h : Allowed len results total) (k : ℕ) :
    total ≠ some (moved results k) := by
  intro htotal
  have hdown : ∀ m : ℕ, balance results (k + m) = balance results k - m := by
    intro m
    induction m with
    | zero => simp
    | succ m ih =>
      have herror : results (k + m) = -1 := by
        rcases h (k + m) (he.runs h _) with hr | ⟨hr, -⟩ | ⟨hr, -, hle⟩
        · exact hr
        · exact absurd hr (he (k + m)).1
        · have hsucc := hle _ htotal
          have hmono : moved results k ≤ moved results (k + m) := moved_mono (Nat.le_add_right k m)
          rw [moved_succ] at hsucc
          omega
      rw [← Nat.add_assoc, balance_succ, ih, herror]
      omega
  have hbelow := hdown ((balance results k).toNat + 1)
  have hpos := (he (k + ((balance results k).toNat + 1))).2.1
  omega

theorem Endless.transfers (he : Endless len results) (h : Allowed len results total) :
    Transfers len results total (transfer move len results) related where
  ends k _ htotal := absurd htotal (he.total_ne h k)
  inside _ hk := h.inside hk
  right := by
    intro s turns out hout
    have hnone : transfer move len results turns s = none := loop_none s (he.runs h)
    exact absurd (hnone.symm.trans hout) (Option.some_ne_none out).symm

theorem Steady.transfers (hs : Steady len results) (h : Allowed len results total)
    (hsteady : ∀ n, (∀ k ≤ n, (ret results k).toNat = moved results k) →
      moved results n = len.toNat → ∀ s, related s (dataAt move results s n)) :
    Transfers len results total (transfer move len results) related := by
  obtain ⟨n, hpos, hall⟩ := hs
  obtain ⟨hrun, hexit, hret⟩ := h.steady_runs hpos hall
  refine ⟨fun _ _ _ s ↦ ⟨n + 1, dataAt move results s n, ?_⟩, fun k hk ↦ h.inside hk, ?_⟩
  · rw [transfer_exit s hrun hexit, if_pos (Nat.lt_succ_self n)]
  · intro s turns out hout
    rw [transfer_exit s hrun hexit] at hout
    split at hout
    · rw [← Option.some.inj hout]
      exact hsteady n hret hall s
    · exact absurd hout (Option.some_ne_none out).symm

/-- A loop that ends where it should has been steady, if too much or too little is not right, and
neither is a last place without a transfer. -/
theorem Transfers.steady (ht : Transfers len results total (transfer move len results) related)
    (h : Allowed len results total) (hrun : Runs len results n) (hexit : ¬ ret results n < len)
    (hmoved : (∀ k < n, (ret results k).toNat + (results k).toNat ≤ len.toNat) →
      moved results n ≠ len.toNat → ∃ s, ¬ related s (dataAt move results s n))
    (hlast : (∀ k < n, (ret results k).toNat + (results k).toNat < len.toNat) →
      0 < len.toNat → ∃ s, ¬ related s (dataAt move results s n)) : Steady len results := by
  have hright : ∀ s, related s (dataAt move results s n) := fun s ↦
    ht.right s (n + 1) _ ((transfer_exit s hrun hexit).trans (if_pos (Nat.lt_succ_self n)))
  rcases h.exit_cases hrun hexit with hbal | ⟨hlen, hshort⟩
  · refine h.steady hrun hbal (by_contra fun hne ↦ ?_)
    obtain ⟨s, hs⟩ := hmoved (fun k hk ↦ ht.inside k (hrun.of_le hk)) hne
    exact hs (hright s)
  · obtain ⟨s, hs⟩ := hlast hshort hlen
    exact absurd (hright s) hs

/-- The loop does what it should exactly if the first calls all transfer something, up to the end,
or errors keep it going for ever; provided that the relation asks for a transfer of the whole
length, and for one at the last place. -/
theorem transfers_iff [Inhabited σ] (h : Allowed len results total)
    (hsteady : ∀ n, (∀ k ≤ n, (ret results k).toNat = moved results k) →
      moved results n = len.toNat → ∀ s, related s (dataAt move results s n))
    (hmoved : ∀ n, (∀ k < n, (ret results k).toNat + (results k).toNat ≤ len.toNat) →
      moved results n ≠ len.toNat → ∃ s, ¬ related s (dataAt move results s n))
    (hlast : ∀ n, (∀ k < n, (ret results k).toNat + (results k).toNat < len.toNat) →
      0 < len.toNat → ∃ s, ¬ related s (dataAt move results s n)) :
    Transfers len results total (transfer move len results) related ↔
      Steady len results ∨ Endless len results := by
  constructor
  · intro ht
    by_cases hrun : ∀ n, Runs len results n
    · right
      refine h.endless hrun fun k htotal ↦ ?_
      obtain ⟨turns, out, hout⟩ := ht.ends k (hrun k) htotal default
      have hnone : transfer move len results turns default = none := loop_none default hrun
      exact absurd (hnone.symm.trans hout) (Option.some_ne_none out).symm
    · left
      obtain ⟨n, hrun, hexit⟩ := exists_exit hrun
      exact ht.steady h hrun hexit (hmoved n) (hlast n)
  · rintro (hs | he)
    · exact hs.transfers h hsteady
    · exact he.transfers h

end Outcomes

end NetworkingLabs.CountingLoop
