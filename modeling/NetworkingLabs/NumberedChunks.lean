import Mathlib.Data.List.Basic
import Mathlib.Data.Nat.ModEq
import Mathlib.Tactic.Ring

/-!
# Numbered chunks of a list, and residues inside a window

A list is cut into chunks of a fixed positive size, numbered from zero; the last
one may be shorter. A number is stored at its residue, and two numbers of one
window no longer than the modulus never share a residue.
-/
namespace NetworkingLabs.NumberedChunks

variable {α : Type*} {k i j : ℕ} {xs : List α}

def chunk (k : ℕ) (xs : List α) (i : ℕ) : List α := (xs.drop (k * i)).take k

def chunkCount (k : ℕ) (xs : List α) : ℕ := (xs.length + k - 1) / k

theorem lt_chunkCount_iff (hk : 0 < k) : i < chunkCount k xs ↔ k * i < xs.length := by
  rw [chunkCount, Nat.lt_iff_add_one_le, Nat.le_div_iff_mul_le hk]
  have : (i + 1) * k = k * i + k := by ring
  omega

private theorem drop_eq_nil_iff_chunkCount_le (hk : 0 < k) :
    xs.drop (k * i) = [] ↔ chunkCount k xs ≤ i := by
  rw [List.drop_eq_nil_iff, ← not_lt, ← not_lt, lt_chunkCount_iff hk]

theorem chunk_eq_nil_iff (hk : 0 < k) : chunk k xs i = [] ↔ chunkCount k xs ≤ i := by
  rw [← drop_eq_nil_iff_chunkCount_le hk, chunk, List.take_eq_nil_iff]
  exact or_iff_right hk.ne'

theorem flatMap_chunk_range (n : ℕ) :
    (List.range n).flatMap (chunk k xs) = xs.take (k * n) := by
  induction n with
  | zero => simp
  | succ n ih =>
    rw [List.range_succ, List.flatMap_append, ih, Nat.mul_succ, List.take_add]
    simp [chunk]

theorem flatMap_chunk_range_chunkCount (hk : 0 < k) :
    (List.range (chunkCount k xs)).flatMap (chunk k xs) = xs := by
  have h : xs.drop (k * chunkCount k xs) = [] := (drop_eq_nil_iff_chunkCount_le hk).mpr le_rfl
  rw [flatMap_chunk_range]
  exact List.take_of_length_le (List.drop_eq_nil_iff.mp h)

/-- Numbers of one window of length `m` are determined by their residues. -/
theorem eq_of_mod_eq {m a b : ℕ} (lo : ℕ) (ha : lo ≤ a) (ha' : a < lo + m) (hb : lo ≤ b)
    (hb' : b < lo + m) (h : a % m = b % m) : a = b := by
  wlog hab : a ≤ b generalizing a b
  · exact (this hb hb' ha ha' h.symm (by omega)).symm
  have hd : m ∣ b - a := (Nat.modEq_iff_dvd' hab).mp h
  have hz : b - a = 0 := Nat.eq_zero_of_dvd_of_lt hd (by omega)
  omega

theorem mod_ne_mod_of_ne {m a b : ℕ} (lo : ℕ) (ha : lo ≤ a) (ha' : a < lo + m) (hb : lo ≤ b)
    (hb' : b < lo + m) (h : a ≠ b) : a % m ≠ b % m :=
  fun he => h (eq_of_mod_eq lo ha ha' hb hb' he)

end NetworkingLabs.NumberedChunks
