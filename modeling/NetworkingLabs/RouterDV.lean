import Mathlib.Data.List.Nodup
import Mathlib.Logic.Function.Basic
import Mathlib.Order.MinMax
import Mathlib.Data.Int.Order.Basic

/-!
# The distance vectors of a router

`Router::DV`. The arrays are functions of the router numbers `1..totRouterNum`; the
version counter is an unbounded integer, which is exact for fewer than 2^31 versions.
-/
namespace NetworkingLabs.Routing

/-- `0x3f3f3f3f`, the length of what does not exist. -/
def inf : ℤ := 0x3f3f3f3f

structure DV where
  c : ℕ → ℤ
  d : ℕ → ℕ → ℤ
  nextRouter : ℕ → ℕ
  routerID : ℕ
  version : ℤ

namespace DV

/-- The table that `memset` and the entry for the router itself leave. -/
def emptyTable (routerID : ℕ) : ℕ → ℕ → ℤ :=
  fun x i => if x = routerID ∧ i = routerID then 0 else inf

def init (routerID : ℕ) : DV where
  c := Function.update (fun _ => inf) routerID 0
  d := emptyTable routerID
  nextRouter _ := 0
  routerID := routerID
  version := 0

def reset (v : DV) : DV := { v with d := emptyTable v.routerID, nextRouter := fun _ => 0 }

def own (v : DV) : ℕ → ℤ := v.d v.routerID

/-- The body of both loops of `updateDV`: take the offered distance if it is shorter. -/
def offer (v : DV) (cand : ℤ) (hop i : ℕ) : DV × Bool :=
  if cand < v.own i then
    ({ v with
      nextRouter := Function.update v.nextRouter i hop
      d := Function.update v.d v.routerID (Function.update v.own i cand) }, true)
  else (v, false)

def pass (cand : DV → ℕ → ℤ) (hop : ℕ → ℕ) : List ℕ → DV → DV × Bool
  | [], v => (v, false)
  | i :: is, v =>
    let out := v.offer (cand v i) (hop i) i
    let rest := pass cand hop is out.1
    (rest.1, out.2 || rest.2)

def updateDV (tot tgt : ℕ) (v : DV) : DV × Bool :=
  let direct := pass (fun v i => v.c i) id (List.range' 1 tot) v
  let jump := pass (fun v i => v.c tgt + v.d tgt i) (fun _ => tgt) (List.range' 1 tot) direct.1
  (jump.1, direct.2 || jump.2)

/-- `updateDV(exRID, exDV, version)`. -/
def updateDVFrom (tot exRID : ℕ) (exDV : ℕ → ℤ) (version : ℤ) (v : DV) : DV × Bool :=
  if version < v.version then (v, false)
  else
    let w := if v.version < version then { v with version := version }.reset else v
    updateDV tot exRID { w with d := Function.update w.d exRID exDV }

/-- `updateC(tgtRID, value)`, with the counter `lstChangeVersion` before and after. -/
def updateC (tot : ℕ) (lst : ℤ) (tgt : ℕ) (value : ℤ) (v : DV) : DV × ℤ × ℤ :=
  let value := if value = -1 then inf else value
  if v.c tgt = value then (v, lst, 0)
  else if value < v.c tgt then
    ((updateDV tot tgt { v with c := Function.update v.c tgt value }).1, lst, -1)
  else
    let w := { v with version := lst + 1 }.reset
    ((updateDV tot tgt { w with c := Function.update w.c tgt value }).1, lst + 1, 1)

def findNextRouter (v : DV) (dstRouter : ℕ) : ℕ := v.nextRouter dstRouter

/-- The entries of `toString` after the ID and the version. -/
def row (tot : ℕ) (v : DV) : List ℤ := (List.range' 1 tot).map v.own

section Loops

def takeAll (f : ℕ → ℤ) (hop : ℕ → ℕ) (is : List ℕ) (v : DV) : DV := { v with
  nextRouter := fun i => if i ∈ is ∧ f i < v.own i then hop i else v.nextRouter i,
  d := Function.update v.d v.routerID
    (fun i => if i ∈ is ∧ f i < v.own i then f i else v.own i) }

def Steady (cand : DV → ℕ → ℤ) (v : DV) : Prop :=
  ∀ row next, cand { v with d := Function.update v.d v.routerID row, nextRouter := next } = cand v

theorem Steady.offer {cand : DV → ℕ → ℤ} {v : DV} (h : Steady cand v) (a : ℤ) (hop i : ℕ) :
    cand (v.offer a hop i).1 = cand v ∧ Steady cand (v.offer a hop i).1 := by
  unfold DV.offer
  split
  · refine ⟨h _ _, ?_⟩
    intro row next
    simp only [Function.update_idem]
    exact (h row next).trans (h _ _).symm
  · exact ⟨rfl, h⟩

/-- The first of the offers, and then the others. -/
theorem takeAll_cons (f : ℕ → ℤ) (hop : ℕ → ℕ) {i : ℕ} {is : List ℕ} (hi : i ∉ is) (v : DV) :
    takeAll f hop (i :: is) v = takeAll f hop is (v.offer (f i) (hop i) i).1 := by
  unfold DV.offer
  split
  · rename_i hlt
    have hown : ∀ d next, own { v with nextRouter := next, d := Function.update v.d v.routerID d } =
        d := by
      intro d next
      simp [own]
    simp only [takeAll, hown, Function.update_idem]
    congr 1
    · congr 1
      funext j
      by_cases hj : j = i
      · subst hj
        simp [hi, hlt]
      · simp [hj]
    · funext j
      by_cases hj : j = i
      · subst hj
        simp [hi, hlt]
      · simp [hj]
  · rename_i hge
    have hmem : ∀ j, j ∈ i :: is ∧ f j < v.own j ↔ j ∈ is ∧ f j < v.own j := by
      intro j
      rw [List.mem_cons]
      constructor
      · rintro ⟨rfl | hj, hlt⟩
        · exact absurd hlt hge
        · exact ⟨hj, hlt⟩
      · exact fun ⟨hj, hlt⟩ => ⟨Or.inr hj, hlt⟩
    simp only [takeAll, hmem]

theorem pass_eq {cand : DV → ℕ → ℤ} (hop : ℕ → ℕ) {is : List ℕ} (hnodup : is.Nodup) {v : DV}
    (hcand : Steady cand v) : (pass cand hop is v).1 = takeAll (cand v) hop is v := by
  induction is generalizing v with
  | nil => simp [pass, takeAll, own]
  | cons i is ih =>
    obtain ⟨hi, hnodup⟩ := List.nodup_cons.mp hnodup
    obtain ⟨hsame, hsteady⟩ := hcand.offer (cand v i) (hop i) i
    have hrest := ih hnodup hsteady
    rw [hsame] at hrest
    rw [takeAll_cons _ _ hi]
    exact hrest

variable {v : DV} {tot tgt i x : ℕ}

@[simp] theorem takeAll_c (f : ℕ → ℤ) (hop : ℕ → ℕ) (is : List ℕ) (v : DV) :
    (takeAll f hop is v).c = v.c := rfl
@[simp] theorem takeAll_routerID (f : ℕ → ℤ) (hop : ℕ → ℕ) (is : List ℕ) (v : DV) :
    (takeAll f hop is v).routerID = v.routerID := rfl

private theorem takeAll_own (f : ℕ → ℤ) (hop : ℕ → ℕ) (is : List ℕ) (v : DV) (i : ℕ) :
    (takeAll f hop is v).own i = if i ∈ is ∧ f i < v.own i then f i else v.own i := by
  simp [takeAll, own]

theorem takeAll_d (f : ℕ → ℤ) (hop : ℕ → ℕ) (is : List ℕ) (hx : x ≠ v.routerID) :
    (takeAll f hop is v).d x = v.d x := by
  simp [takeAll, hx]

private theorem takeAll_nextRouter (f : ℕ → ℤ) (hop : ℕ → ℕ) (is : List ℕ) (v : DV) (i : ℕ) :
    (takeAll f hop is v).nextRouter i =
      if i ∈ is ∧ f i < v.own i then hop i else v.nextRouter i := rfl

/-- The second loop reads the row of the neighbour, which no loop changes. -/
theorem steady_jump (f : ℕ → ℤ) (hop : ℕ → ℕ) (is : List ℕ) (htgt : tgt ≠ v.routerID) :
    Steady (fun v i => v.c tgt + v.d tgt i) (takeAll f hop is v) := by
  intro row next
  funext i
  simp [htgt]

/-- `updateDV` takes the direct distances, then those over the neighbour. -/
theorem updateDV_eq (tot : ℕ) (htgt : tgt ≠ v.routerID) : (updateDV tot tgt v).1 =
    takeAll (fun i => v.c tgt + v.d tgt i) (fun _ => tgt) (List.range' 1 tot)
      (takeAll v.c id (List.range' 1 tot) v) := by
  have hnodup : (List.range' 1 tot).Nodup := List.nodup_range'
  have hdirect : Steady (fun v i => v.c i) v := fun _ _ => rfl
  have h1 := pass_eq id hnodup hdirect
  have h2 := pass_eq (fun _ => tgt) hnodup (steady_jump v.c id (List.range' 1 tot) htgt)
  rw [updateDV, h1, h2]
  simp only [takeAll_c, takeAll_d _ _ _ htgt]

@[simp] theorem updateDV_c (tot : ℕ) (htgt : tgt ≠ v.routerID) :
    (updateDV tot tgt v).1.c = v.c := by rw [updateDV_eq tot htgt]; rfl

@[simp] theorem updateDV_routerID (tot : ℕ) (htgt : tgt ≠ v.routerID) :
    (updateDV tot tgt v).1.routerID = v.routerID := by rw [updateDV_eq tot htgt]; rfl

@[simp] theorem updateDV_version (tot : ℕ) (htgt : tgt ≠ v.routerID) :
    (updateDV tot tgt v).1.version = v.version := by rw [updateDV_eq tot htgt]; rfl

theorem updateDV_d (tot : ℕ) (htgt : tgt ≠ v.routerID) (hx : x ≠ v.routerID) :
    (updateDV tot tgt v).1.d x = v.d x := by
  have hx' : x ≠ (takeAll v.c id (List.range' 1 tot) v).routerID := hx
  rw [updateDV_eq tot htgt, takeAll_d _ _ _ hx', takeAll_d _ _ _ hx]

theorem mem_range' : i ∈ List.range' 1 tot ↔ 1 ≤ i ∧ i ≤ tot := by
  rw [List.mem_range'_1]
  omega

theorem updateDV_cases (htgt : tgt ≠ v.routerID) (hi : 1 ≤ i ∧ i ≤ tot) :
    ((updateDV tot tgt v).1.own i = v.own i ∧
      (updateDV tot tgt v).1.nextRouter i = v.nextRouter i ∧
      v.own i ≤ v.c i ∧ v.own i ≤ v.c tgt + v.d tgt i) ∨
    ((updateDV tot tgt v).1.own i = v.c i ∧ (updateDV tot tgt v).1.nextRouter i = i ∧
      v.c i < v.own i ∧ v.c i ≤ v.c tgt + v.d tgt i) ∨
    ((updateDV tot tgt v).1.own i = v.c tgt + v.d tgt i ∧
      (updateDV tot tgt v).1.nextRouter i = tgt ∧
      v.c tgt + v.d tgt i < v.own i ∧ v.c tgt + v.d tgt i < v.c i) := by
  have hmem := mem_range'.mpr hi
  rw [updateDV_eq tot htgt, takeAll_own, takeAll_nextRouter, takeAll_own, takeAll_nextRouter]
  simp only [hmem, true_and, id]
  by_cases h1 : v.c i < v.own i
  · by_cases h2 : v.c tgt + v.d tgt i < v.c i
    · simp only [h1, h2, if_true]
      exact Or.inr (Or.inr ⟨trivial, trivial, h2.trans h1, trivial⟩)
    · simp only [h1, h2, if_true, if_false]
      exact Or.inr (Or.inl ⟨trivial, trivial, trivial, not_lt.mp h2⟩)
  · by_cases h2 : v.c tgt + v.d tgt i < v.own i
    · simp only [h1, h2, if_true, if_false]
      exact Or.inr (Or.inr ⟨trivial, trivial, trivial, h2.trans_le (not_lt.mp h1)⟩)
    · simp only [h1, h2, if_false]
      exact Or.inl ⟨trivial, trivial, not_lt.mp h1, not_lt.mp h2⟩

end Loops

section Unchanged

variable {cand : DV → ℕ → ℤ} {hop : ℕ → ℕ} {is : List ℕ} {tot tgt : ℕ} {v : DV}

private theorem offer_of_le {a : ℤ} {hop i : ℕ} (h : v.own i ≤ a) : v.offer a hop i = (v, false) :=
  if_neg h.not_gt

private theorem offer_of_lt {a : ℤ} {hop i : ℕ} (h : a < v.own i) : (v.offer a hop i).2 = true := by
  rw [offer, if_pos h]

/-- A loop reports that it has changed nothing when no offer is shorter, and then it has not. -/
theorem pass_false : (pass cand hop is v).2 = false ↔ ∀ i ∈ is, v.own i ≤ cand v i := by
  induction is generalizing v with
  | nil => simp [pass]
  | cons i is ih =>
    rw [pass, List.forall_mem_cons]
    rcases le_or_gt (v.own i) (cand v i) with h | h
    · simp only [offer_of_le h, Bool.false_or, ih, h, true_and]
    · simp only [offer_of_lt h, Bool.true_or, h.not_ge, false_and]
      simp

private theorem pass_of_false (h : (pass cand hop is v).2 = false) :
    (pass cand hop is v).1 = v := by
  rw [pass_false] at h
  induction is with
  | nil => rfl
  | cons i is ih =>
    rw [List.forall_mem_cons] at h
    simp only [pass, offer_of_le h.1]
    exact ih h.2

private theorem pass_nextRouter_le {b : ℕ} (h : ∀ i, v.nextRouter i ≤ b)
    (hhop : ∀ i ∈ is, hop i ≤ b) (i : ℕ) : (pass cand hop is v).1.nextRouter i ≤ b := by
  induction is generalizing v with
  | nil => exact h i
  | cons j is ih =>
    rw [List.forall_mem_cons] at hhop
    refine ih ?_ hhop.2
    intro k
    unfold offer
    split_ifs
    · by_cases hk : k = j
      · simpa [hk] using hhop.1
      · simpa [hk] using h k
    · exact h k

theorem updateDV_nextRouter_le (h : ∀ i, v.nextRouter i ≤ tot) (htgt : tgt ≤ tot) (i : ℕ) :
    (updateDV tot tgt v).1.nextRouter i ≤ tot :=
  pass_nextRouter_le (pass_nextRouter_le h fun _ hi => (mem_range'.mp hi).2) (fun _ _ => htgt) i

theorem updateDV_false : (updateDV tot tgt v).2 = false ↔
    ∀ i, 1 ≤ i ∧ i ≤ tot → v.own i ≤ v.c i ∧ v.own i ≤ v.c tgt + v.d tgt i := by
  simp only [updateDV, Bool.or_eq_false_iff]
  constructor
  · rintro ⟨h1, h2⟩ i hi
    have hmem := mem_range'.mpr hi
    rw [pass_of_false h1] at h2
    exact ⟨pass_false.mp h1 i hmem, pass_false.mp h2 i hmem⟩
  · intro h
    have h1 : (pass (fun v i => v.c i) id (List.range' 1 tot) v).2 = false :=
      pass_false.mpr fun i hi => (h i (mem_range'.mp hi)).1
    refine ⟨h1, ?_⟩
    rw [pass_of_false h1]
    exact pass_false.mpr fun i hi => (h i (mem_range'.mp hi)).2

theorem updateDV_of_false (h : (updateDV tot tgt v).2 = false) : (updateDV tot tgt v).1 = v := by
  obtain ⟨h1, h2⟩ := Bool.or_eq_false_iff.mp h
  rw [pass_of_false h1] at h2
  simp only [updateDV, pass_of_false h1]
  exact pass_of_false h2

end Unchanged
end DV
end NetworkingLabs.Routing
