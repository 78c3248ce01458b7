import Mathlib.Data.List.Basic
import Mathlib.Logic.Function.Iterate

/-!
# Shift registers with feedback

A register of `w` bits that divides a stream of bits by a polynomial, the lowest bit going out
first. It is linear over exclusive or, and if the polynomial has its highest bit, then no change
of at most `w` consecutive bits of the stream goes unnoticed, and none of two bits within the
time that the register takes to repeat itself.
-/
namespace NetworkingLabs.ShiftRegister

variable {w : ℕ} {poly r s : BitVec w} {bs xs ys : List Bool} {n i k : ℕ}

section Definitions

/-- The register moves down by one place, and the bit that falls out feeds the polynomial back. -/
def shift (poly r : BitVec w) : BitVec w := (if r.getLsbD 0 then poly else 0#w) ^^^ r >>> 1

def lowBit (w : ℕ) (b : Bool) : BitVec w := if b then 1#w else 0#w

def feed (poly r : BitVec w) (b : Bool) : BitVec w := shift poly (r ^^^ lowBit w b)

def run (poly r : BitVec w) (bs : List Bool) : BitVec w := bs.foldl (feed poly) r

/-- The register that holds a stream of at most `w` bits, the first one lowest. -/
def word (w : ℕ) : List Bool → BitVec w
  | [] => 0#w
  | b :: bs => lowBit w b ^^^ word w bs <<< 1

end Definitions

section Bits

@[simp] theorem getLsbD_lowBit (b : Bool) :
    (lowBit w b).getLsbD i = (decide (i < w) && (decide (i = 0) && b)) := by
  cases b with
  | false => simp [lowBit]
  | true =>
    simp only [lowBit, if_true, BitVec.getLsbD_one, Bool.and_true]
    by_cases hi : i = 0
    · simp [hi]
    · simp [hi]

private theorem getLsbD_shift (poly r : BitVec w) (i : ℕ) : (shift poly r).getLsbD i =
    (((r.getLsbD 0) && poly.getLsbD i) ^^ r.getLsbD (i + 1)) := by
  cases h : r.getLsbD 0 <;> simp [shift, h, Nat.add_comm]

theorem getLsbD_word (w : ℕ) (bs : List Bool) (i : ℕ) :
    (word w bs).getLsbD i = (decide (i < w) && bs[i]?.getD false) := by
  induction bs generalizing i with
  | nil => simp [word]
  | cons b bs ih =>
    rw [word, BitVec.getLsbD_xor, getLsbD_lowBit, BitVec.getLsbD_shiftLeft]
    cases i with
    | zero => simp
    | succ i =>
      by_cases hi : i + 1 < w
      · have hi' : i < w := by omega
        simp only [hi, hi', decide_true, Bool.true_and, Nat.add_sub_cancel, ih]
        simp
      · simp [hi]

end Bits

section Linear

private theorem shift_xor (r s : BitVec w) :
    shift poly (r ^^^ s) = shift poly r ^^^ shift poly s := by
  apply BitVec.eq_of_getLsbD_eq
  intro i _
  simp only [getLsbD_shift, BitVec.getLsbD_xor]
  cases r.getLsbD 0 <;> cases s.getLsbD 0 <;> cases poly.getLsbD i <;>
    cases r.getLsbD (i + 1) <;> cases s.getLsbD (i + 1) <;> rfl

@[simp] theorem shift_zero : shift poly 0#w = 0#w := by
  apply BitVec.eq_of_getLsbD_eq
  intro i _
  simp [getLsbD_shift]

theorem iterate_shift_xor (n : ℕ) (r s : BitVec w) :
    (shift poly)^[n] (r ^^^ s) = (shift poly)^[n] r ^^^ (shift poly)^[n] s := by
  induction n generalizing r s with
  | zero => rfl
  | succ n ih => rw [Function.iterate_succ_apply, shift_xor, ih]; rfl

private theorem iterate_shift_zero (n : ℕ) : (shift poly)^[n] 0#w = 0#w :=
  Function.iterate_fixed shift_zero n

private theorem lowBit_xor (b c : Bool) : lowBit w (b ^^ c) = lowBit w b ^^^ lowBit w c := by
  cases b <;> cases c <;> simp [lowBit]

private theorem feed_xor (r s : BitVec w) (b c : Bool) :
    feed poly (r ^^^ s) (b ^^ c) = feed poly r b ^^^ feed poly s c := by
  rw [feed, feed, feed, ← shift_xor, lowBit_xor]
  congr 1
  ac_rfl

theorem run_xor (hlen : xs.length = ys.length) (r s : BitVec w) :
    run poly (r ^^^ s) (List.zipWith xor xs ys) = run poly r xs ^^^ run poly s ys := by
  induction xs generalizing ys r s with
  | nil =>
    cases ys with
    | nil => rfl
    | cons y ys => simp at hlen
  | cons x xs ih =>
    cases ys with
    | nil => simp at hlen
    | cons y ys =>
      have hrest := ih (Nat.succ.inj hlen) (feed poly r x) (feed poly s y)
      rw [← feed_xor] at hrest
      exact hrest

end Linear

section Streams

theorem run_append (r : BitVec w) (xs ys : List Bool) :
    run poly r (xs ++ ys) = run poly (run poly r xs) ys := List.foldl_append

theorem run_replicate (r : BitVec w) (n : ℕ) :
    run poly r (List.replicate n false) = (shift poly)^[n] r := by
  induction n generalizing r with
  | zero => rfl
  | succ n ih =>
    have hfeed : feed poly r false = shift poly r := by simp [feed, lowBit]
    rw [List.replicate_succ, Function.iterate_succ_apply, ← ih, ← hfeed]
    rfl

/-- While the lowest bit is clear, the register only moves down. -/
theorem shift_of_clear (h : r.getLsbD 0 = false) : shift poly r = r >>> 1 := by
  simp [shift, h]

/-- Bits that fit in the register may come in all at once. -/
theorem run_eq_iterate (h : bs.length ≤ w) (r : BitVec w) :
    run poly r bs = (shift poly)^[bs.length] (r ^^^ word w bs) := by
  induction bs generalizing r with
  | nil => simp [run, word]
  | cons b bs ih =>
    rw [List.length_cons] at h
    have hword : shift poly (word w bs <<< 1) = word w bs := by
      rw [shift_of_clear (by simp)]
      apply BitVec.eq_of_getLsbD_eq
      intro i hi
      by_cases hlast : i + 1 < w
      · simp [hi, Nat.add_comm 1, hlast]
      · have hnone : bs[i]? = none := List.getElem?_eq_none (by omega)
        rw [getLsbD_word, hnone]
        simp [Nat.add_comm 1, hlast]
    have hfirst : shift poly (r ^^^ word w (b :: bs)) = feed poly r b ^^^ word w bs := by
      rw [word, ← BitVec.xor_assoc, shift_xor, hword]
      rfl
    rw [List.length_cons, Function.iterate_succ_apply, hfirst, ← ih (by omega)]
    rfl

private theorem iterate_shift_of_clear (h : ∀ i < n, r.getLsbD i = false) :
    (shift poly)^[n] r = r >>> n := by
  induction n generalizing r with
  | zero => simp
  | succ n ih =>
    have hfirst : shift poly r = r >>> 1 := by simp [shift, h 0 (Nat.succ_pos n)]
    have hclear : ∀ i < n, (r >>> 1).getLsbD i = false := by
      intro i hi
      rw [BitVec.getLsbD_ushiftRight]
      exact h (1 + i) (by omega)
    rw [Function.iterate_succ_apply, hfirst, ih hclear, ← BitVec.shiftRight_add, Nat.add_comm]

/-- The lowest bits go through the feedback, and the others move down. -/
theorem iterate_shift_split (n : ℕ) (low high : BitVec w) (h : ∀ i < n, high.getLsbD i = false) :
    (shift poly)^[n] (low ^^^ high) = (shift poly)^[n] low ^^^ high >>> n := by
  rw [iterate_shift_xor, iterate_shift_of_clear h]

end Streams

section Bursts

/-- With the highest bit in the polynomial nothing but zero becomes zero. -/
theorem eq_zero_of_shift (hpoly : poly.msb = true) (h : shift poly r = 0#w) : r = 0#w := by
  have hbit : ∀ i, ((r.getLsbD 0 && poly.getLsbD i) ^^ r.getLsbD (i + 1)) = false := by
    intro i
    rw [← getLsbD_shift, h, BitVec.getLsbD_zero]
  have hlow : r.getLsbD 0 = false := by
    have htop := hbit (w - 1)
    have hbeyond : r.getLsbD (w - 1 + 1) = false := BitVec.getLsbD_of_ge _ _ (by omega)
    rw [← BitVec.msb_eq_getLsbD_last, hpoly, hbeyond] at htop
    simpa using htop
  apply BitVec.eq_of_getLsbD_eq
  intro i _
  rw [BitVec.getLsbD_zero]
  cases i with
  | zero => exact hlow
  | succ i => simpa [hlow] using hbit i

private theorem iterate_shift_ne_zero (hpoly : poly.msb = true) (n : ℕ) (h : r ≠ 0#w) :
    (shift poly)^[n] r ≠ 0#w := by
  induction n generalizing r with
  | zero => exact h
  | succ n ih => exact ih (mt (eq_zero_of_shift hpoly) h)

private theorem word_ne_zero (hbs : bs.length ≤ w) (h : true ∈ bs) : word w bs ≠ 0#w := by
  obtain ⟨i, hi, hbit⟩ := List.mem_iff_getElem.mp h
  intro hzero
  have hbit' := getLsbD_word w bs i
  rw [hzero, BitVec.getLsbD_zero, List.getElem?_eq_getElem hi, hbit] at hbit'
  have hiw : i < w := by omega
  simp [hiw] at hbit'

/-- A stream that is zero except for at most `w` consecutive bits, and not zero there, leaves
something in the register. -/
theorem run_burst_ne_zero (hpoly : poly.msb = true) (m n : ℕ) (hbs : bs.length ≤ w)
    (h : true ∈ bs) :
    run poly 0#w (List.replicate m false ++ bs ++ List.replicate n false) ≠ 0#w := by
  rw [run_append, run_append, run_replicate, run_replicate, iterate_shift_zero, run_eq_iterate hbs,
    BitVec.zero_xor]
  exact iterate_shift_ne_zero hpoly _ (iterate_shift_ne_zero hpoly _ (word_ne_zero hbs h))

private theorem eq_replicate_of_clear (h : ∀ i : ℕ, bs[i]? ≠ some true) :
    bs = List.replicate bs.length false := by
  rw [List.eq_replicate_iff]
  refine ⟨rfl, fun b hb => ?_⟩
  obtain ⟨i, hi⟩ := List.mem_iff_getElem?.mp hb
  cases b with
  | false => rfl
  | true => exact absurd hi (h i)

private theorem getElem?_difference (hlen : xs.length = ys.length) (i : ℕ) :
    (List.zipWith xor xs ys)[i]? = some true ↔ xs[i]? ≠ ys[i]? := by
  rcases Nat.lt_or_ge i xs.length with hi | hi
  · have hi' : i < ys.length := by omega
    rw [List.getElem?_zipWith, List.getElem?_eq_getElem hi, List.getElem?_eq_getElem hi']
    cases xs[i] <;> cases ys[i] <;> simp
  · have hi' : ys.length ≤ i := by omega
    rw [List.getElem?_zipWith, List.getElem?_eq_none hi, List.getElem?_eq_none hi']
    simp

/-- Two streams that differ, but only within `w` consecutive bits, leave different registers. -/
theorem run_ne_of_burst (hpoly : poly.msb = true) (hlen : xs.length = ys.length)
    (hburst : ∀ i : ℕ, xs[i]? ≠ ys[i]? → k ≤ i ∧ i < k + w) (hne : xs ≠ ys) (r : BitVec w) :
    run poly r xs ≠ run poly r ys := by
  intro heq
  have hzero : run poly (r ^^^ r) (List.zipWith xor xs ys) = run poly r xs ^^^ run poly r ys :=
    run_xor hlen r r
  rw [heq, BitVec.xor_self, BitVec.xor_self] at hzero
  have hset := getElem?_difference hlen
  generalize List.zipWith xor xs ys = e at hzero hset
  -- in front of the burst and behind it the difference is zero
  have hfront : e.take k = List.replicate (e.take k).length false := by
    refine eq_replicate_of_clear fun i hi => ?_
    rw [List.getElem?_take] at hi
    split_ifs at hi with hik
    have hwithin := hburst i ((hset i).mp hi)
    omega
  have hback : e.drop (k + w) = List.replicate (e.drop (k + w)).length false := by
    refine eq_replicate_of_clear fun i hi => ?_
    rw [List.getElem?_drop] at hi
    have hwithin := hburst _ ((hset _).mp hi)
    omega
  have hsplit : e = e.take k ++ (e.drop k).take w ++ e.drop (k + w) := by
    rw [← List.drop_drop, List.append_assoc, List.take_append_drop, List.take_append_drop]
  obtain ⟨i, hi⟩ : ∃ i : ℕ, xs[i]? ≠ ys[i]? := by
    by_contra hall
    exact hne (List.ext_getElem? fun i => not_not.mp (not_exists.mp hall i))
  have hwithin := hburst i hi
  have hmem : true ∈ (e.drop k).take w := by
    refine List.mem_iff_getElem?.mpr ⟨i - k, ?_⟩
    rw [List.getElem?_take_of_lt (by omega), List.getElem?_drop, Nat.add_sub_cancel' hwithin.1]
    exact (hset i).mpr hi
  rw [hsplit, hfront, hback] at hzero
  exact run_burst_ne_zero hpoly _ _ (List.length_take_le _ _) hmem hzero

end Bursts

section Pairs

/-- A stream with two bits in it, where the first one alone has not come back when the second one
comes in, leaves something in the register. -/
theorem run_pair_ne_zero (hpoly : poly.msb = true) (m d n : ℕ)
    (hd : (shift poly)^[d + 1] (lowBit w true) ≠ lowBit w true) :
    run poly 0#w (List.replicate m false ++
      true :: (List.replicate d false ++ true :: List.replicate n false)) ≠ 0#w := by
  have hcons : ∀ (r : BitVec w) bs, run poly r (true :: bs) = run poly (feed poly r true) bs :=
    fun _ _ => rfl
  have hfirst : feed poly 0#w true = shift poly (lowBit w true) := by rw [feed, BitVec.zero_xor]
  rw [run_append, run_replicate, iterate_shift_zero, hcons, hfirst, run_append, run_replicate,
    ← Function.iterate_succ_apply, hcons, run_replicate]
  apply iterate_shift_ne_zero hpoly
  intro hzero
  exact hd (BitVec.xor_eq_zero_iff.mp (eq_zero_of_shift hpoly hzero))

private theorem eq_of_pair {e : List Bool} {j : ℕ} (hij : i < j)
    (hset : ∀ l, e[l]? = some true ↔ l = i ∨ l = j) :
    e = List.replicate i false ++ true :: (List.replicate (j - i - 1) false ++
      true :: List.replicate (e.length - j - 1) false) := by
  obtain ⟨hj, htop⟩ := List.getElem?_eq_some_iff.mp ((hset j).mpr (Or.inr rfl))
  have hclear : ∀ l b, e[l]? = some b → l ≠ i → l ≠ j → b = false := by
    intro l b hl hli hlj
    cases b with
    | false => rfl
    | true => exact absurd ((hset l).mp hl) (not_or.mpr ⟨hli, hlj⟩)
  apply List.ext_getElem?
  intro l
  rcases Nat.lt_or_ge l e.length with hl | hl
  · rw [List.getElem?_append, List.getElem?_cons, List.getElem?_append, List.getElem?_cons]
    simp only [List.length_replicate, List.getElem?_replicate]
    by_cases hli : l = i
    · subst hli
      simpa using (hset l).mpr (Or.inl rfl)
    · by_cases hlj : l = j
      · subst hlj
        have hfront : ¬ l < i := by omega
        have hback : l - i ≠ 0 := by omega
        simpa [hfront, hback] using (hset l).mpr (Or.inr rfl)
      · rw [List.getElem?_eq_getElem hl, hclear l _ (List.getElem?_eq_getElem hl) hli hlj]
        split_ifs <;> first | rfl | omega
  · rw [List.getElem?_eq_none hl, eq_comm, List.getElem?_eq_none_iff]
    simp only [List.length_append, List.length_cons, List.length_replicate]
    omega

/-- Two streams that differ in at most two bits leave different registers, if a bit alone does not
come back while the streams go through. -/
theorem run_ne_of_pair (hpoly : poly.msb = true) (hlen : xs.length = ys.length)
    (hperiod : ∀ d, 0 < d → d < xs.length → (shift poly)^[d] (lowBit w true) ≠ lowBit w true)
    {j : ℕ} (hpair : ∀ l : ℕ, xs[l]? ≠ ys[l]? → l = i ∨ l = j) (hne : xs ≠ ys) (r : BitVec w) :
    run poly r xs ≠ run poly r ys := by
  wlog hij : i ≤ j generalizing i j
  · exact this (fun l hl => (hpair l hl).symm) (Nat.le_of_not_le hij)
  by_cases hboth : xs[i]? ≠ ys[i]? ∧ xs[j]? ≠ ys[j]? ∧ i < j
  · obtain ⟨hi, hj, hlt⟩ := hboth
    have hset : ∀ l : ℕ, xs[l]? ≠ ys[l]? ↔ l = i ∨ l = j := by
      refine fun l => ⟨hpair l, ?_⟩
      rintro (rfl | rfl)
      · exact hi
      · exact hj
    have hin : j < xs.length := by
      by_contra hout
      rw [List.getElem?_eq_none (by omega), List.getElem?_eq_none (by omega)] at hj
      exact hj rfl
    intro heq
    have hzero : run poly (r ^^^ r) (List.zipWith xor xs ys) = run poly r xs ^^^ run poly r ys :=
      run_xor hlen r r
    rw [heq, BitVec.xor_self, BitVec.xor_self,
      eq_of_pair hlt fun l => (getElem?_difference hlen l).trans (hset l)] at hzero
    have hback : j - i - 1 + 1 = j - i := by omega
    exact run_pair_ne_zero hpoly _ _ _ (hback ▸ hperiod (j - i) (by omega) (by omega)) hzero
  · -- at most one bit is wrong
    have hpos : 0 < w := by
      rw [Nat.pos_iff_ne_zero]
      rintro rfl
      cases (BitVec.of_length_zero (x := poly)) ▸ hpoly
    by_cases hi : xs[i]? ≠ ys[i]?
    · refine run_ne_of_burst (k := i) hpoly hlen (fun l hl => ?_) hne r
      rcases hpair l hl with rfl | rfl
      · omega
      · have heq : ¬ i < l := fun hlt => hboth ⟨hi, hl, hlt⟩
        omega
    · refine run_ne_of_burst (k := j) hpoly hlen (fun l hl => ?_) hne r
      rcases hpair l hl with rfl | rfl
      · exact absurd hl hi
      · omega

theorem iterate_shift_injective (hpoly : poly.msb = true) (n : ℕ) :
    Function.Injective ((shift poly)^[n]) := by
  intro r s h
  by_contra hne
  apply iterate_shift_ne_zero hpoly n (mt BitVec.xor_eq_zero_iff.mp hne)
  rw [iterate_shift_xor, h, BitVec.xor_self]

end Pairs

end NetworkingLabs.ShiftRegister
