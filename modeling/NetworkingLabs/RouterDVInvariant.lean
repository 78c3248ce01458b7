import NetworkingLabs.RouterDV
import NetworkingLabs.WeightedWalks
import Mathlib.Algebra.Order.Group.Int

/-!
# What the vectors of one router keep

`WF` is about the numbers alone. `Sound` says of a graph that every finite entry of the
table is the cost of a walk or more; which graph that is depends on the version.
-/
namespace NetworkingLabs.Routing
open WeightedWalks

namespace DV

/-- What holds of the vectors between the statements of `updateC` and `updateDV` too. -/
structure WF (tot : ℕ) (v : DV) : Prop where
  id : 1 ≤ v.routerID ∧ v.routerID ≤ tot
  c_range : ∀ t, 0 ≤ v.c t ∧ v.c t ≤ inf
  d_range : ∀ x i, 1 ≤ i ∧ i ≤ tot → 0 ≤ v.d x i ∧ v.d x i ≤ inf
  c_self : v.c v.routerID = 0
  own_self : v.own v.routerID = 0
  hop : ∀ i, 1 ≤ i ∧ i ≤ tot → v.nextRouter i ≠ v.routerID ∨ v.nextRouter i = 0
  reached : ∀ i, 1 ≤ i ∧ i ≤ tot → i ≠ v.routerID → v.own i < inf → v.nextRouter i ≠ 0

def Direct (tot : ℕ) (v : DV) : Prop := ∀ i, 1 ≤ i ∧ i ≤ tot → v.own i ≤ v.c i

structure Sound (tot : ℕ) (E : ℕ → ℕ → ℤ → Prop) (v : DV) : Prop where
  edge : ∀ t, 1 ≤ t ∧ t ≤ tot → v.c t < inf → E v.routerID t (v.c t)
  row : ∀ x i, 1 ≤ i ∧ i ≤ tot → v.d x i < inf → ∃ w ≤ v.d x i, Walk E x i w
  next : ∀ i, 1 ≤ i ∧ i ≤ tot → v.nextRouter i ≠ 0 →
    ∃ w, Walk E (v.nextRouter i) i w ∧ v.c (v.nextRouter i) + w ≤ v.own i

variable {tot tgt : ℕ} {v : DV} {E E' : ℕ → ℕ → ℤ → Prop} {value : ℤ}

theorem inf_pos : 0 < inf := by decide

theorem emptyTable_range (r x i : ℕ) : 0 ≤ emptyTable r x i ∧ emptyTable r x i ≤ inf := by
  have := inf_pos
  unfold emptyTable
  split <;> omega

private theorem emptyTable_lt {r x i : ℕ} (h : emptyTable r x i < inf) : x = r ∧ i = r := by
  unfold emptyTable at h
  by_contra hne
  rw [if_neg hne] at h
  exact lt_irrefl _ h

theorem wf_init {r : ℕ} (hr : 1 ≤ r ∧ r ≤ tot) : WF tot (init r) := by
  refine ⟨hr, ?_, fun x i _ => emptyTable_range r x i, ?_, ?_, ?_, ?_⟩
  · intro t
    have := inf_pos
    by_cases ht : t = r
    · subst ht
      simp [init, inf_pos.le]
    · simp [init, ht, inf_pos.le]
  · simp [init]
  · simp [init, own, emptyTable]
  · intro i _
    exact Or.inr rfl
  · intro i _ hi hlt
    exact absurd (emptyTable_lt hlt).2 hi

theorem direct_init (r : ℕ) : Direct tot (init r) := by
  intro i _
  by_cases hi : i = r
  · subst hi
    simp [init, own, emptyTable]
  · simp [init, own, emptyTable, hi]

theorem WF.reset (h : WF tot v) : WF tot v.reset := by
  refine ⟨h.id, h.c_range, fun x i _ => emptyTable_range _ x i, h.c_self, ?_,
    fun i _ => Or.inr rfl, ?_⟩
  · simp [DV.reset, own, emptyTable]
  · intro i _ hi hlt
    exact absurd (emptyTable_lt hlt).2 hi

theorem WF.setVersion (h : WF tot v) (version : ℤ) : WF tot { v with version := version } :=
  ⟨h.id, h.c_range, h.d_range, h.c_self, h.own_self, h.hop, h.reached⟩

theorem WF.setC (h : WF tot v) (htgt : tgt ≠ v.routerID) (hv : 0 ≤ value ∧ value ≤ inf) :
    WF tot { v with c := Function.update v.c tgt value } := by
  refine ⟨h.id, ?_, h.d_range, ?_, h.own_self, h.hop, h.reached⟩
  · intro t
    by_cases ht : t = tgt
    · subst ht
      simpa using hv
    · simpa [ht] using h.c_range t
  · simpa [htgt.symm] using h.c_self

theorem WF.store (h : WF tot v) {ex : ℕ} (hex : ex ≠ v.routerID) {row : ℕ → ℤ}
    (hrow : ∀ i, 1 ≤ i ∧ i ≤ tot → 0 ≤ row i ∧ row i ≤ inf) :
    WF tot { v with d := Function.update v.d ex row } := by
  have hown : own { v with d := Function.update v.d ex row } = v.own := by
    simp [own, hex.symm]
  refine ⟨h.id, h.c_range, ?_, h.c_self, by rw [hown]; exact h.own_self, h.hop, ?_⟩
  · intro x i hi
    by_cases hx : x = ex
    · subst hx
      simpa using hrow i hi
    · simpa [hx] using h.d_range x i hi
  · rw [hown]
    exact h.reached

/-- `updateDV` takes sums of entries, which stay in range because smaller entries win. -/
theorem WF.updateDV (h : WF tot v) (htgt : tgt ≠ v.routerID) (hpos : tgt ≠ 0) :
    WF tot (updateDV tot tgt v).1 ∧ Direct tot (updateDV tot tgt v).1 := by
  have hc := h.c_range
  have hown : ∀ i, 1 ≤ i ∧ i ≤ tot → 0 ≤ v.own i ∧ v.own i ≤ inf := fun i hi => h.d_range _ i hi
  have hself : (DV.updateDV tot tgt v).1.own v.routerID = 0 := by
    have hcases := updateDV_cases htgt h.id
    rw [h.own_self, h.c_self] at hcases
    have hct := hc tgt
    have hd := h.d_range tgt _ h.id
    omega
  constructor
  · refine ⟨by rw [updateDV_routerID tot htgt]; exact h.id, ?_, ?_, ?_, ?_, ?_, ?_⟩
    · rw [updateDV_c tot htgt]
      exact hc
    · intro x i hi
      by_cases hx : x = v.routerID
      · have hd := h.d_range tgt i hi
        have hci := hc i
        have hct := hc tgt
        have hoi := hown i hi
        have hcases := updateDV_cases htgt hi
        rw [own, updateDV_routerID tot htgt, ← hx] at hcases
        omega
      · rw [updateDV_d tot htgt hx]
        exact h.d_range x i hi
    · rw [updateDV_c tot htgt, updateDV_routerID tot htgt]
      exact h.c_self
    · rw [updateDV_routerID tot htgt]
      exact hself
    · intro i hi
      rw [updateDV_routerID tot htgt]
      rcases updateDV_cases htgt hi with ⟨-, hn, -⟩ | ⟨-, hn, hlt, -⟩ | ⟨-, hn, -⟩ <;> rw [hn]
      · exact h.hop i hi
      · left
        rintro rfl
        rw [h.c_self, h.own_self] at hlt
        exact lt_irrefl _ hlt
      · exact Or.inl htgt
    · intro i hi hne hlt
      rw [updateDV_routerID tot htgt] at hne
      rcases updateDV_cases htgt hi with ⟨ho, hn, -⟩ | ⟨-, hn, -⟩ | ⟨-, hn, -⟩ <;> rw [hn]
      · rw [ho] at hlt
        exact h.reached i hi hne hlt
      · omega
      · exact hpos
  · intro i hi
    rw [updateDV_c tot htgt]
    have hcases := updateDV_cases htgt hi
    omega

section Sound

theorem sound_reset (hedge : ∀ t, 1 ≤ t ∧ t ≤ tot → v.c t < inf → E v.routerID t (v.c t)) :
    Sound tot E v.reset := by
  refine ⟨hedge, ?_, ?_⟩
  · intro x i _ hlt
    obtain ⟨rfl, rfl⟩ := emptyTable_lt hlt
    exact ⟨0, by simp [DV.reset, emptyTable], .nil _⟩
  · intro i _ hn
    exact absurd rfl hn

/-- The graph may get new arcs and cheaper ones, and so may the router. -/
theorem Sound.mono (h : Sound tot E v) (hE : ∀ x t a, E x t a → ∃ b ≤ a, E' x t b)
    {c : ℕ → ℤ} (hc : ∀ t, c t ≤ v.c t)
    (hedge : ∀ t, 1 ≤ t ∧ t ≤ tot → c t < inf → E' v.routerID t (c t)) :
    Sound tot E' { v with c := c } := by
  refine ⟨hedge, ?_, ?_⟩
  · intro x i hi hlt
    obtain ⟨w, hw, hwalk⟩ := h.row x i hi hlt
    obtain ⟨w', hw', hwalk'⟩ := hwalk.mono hE
    exact ⟨w', hw'.trans hw, hwalk'⟩
  · intro i hi hn
    obtain ⟨w, hwalk, hw⟩ := h.next i hi hn
    obtain ⟨w', hw', hwalk'⟩ := hwalk.mono hE
    refine ⟨w', hwalk', ?_⟩
    have := hc (v.nextRouter i)
    show c (v.nextRouter i) + w' ≤ v.own i
    omega

theorem Sound.store (h : Sound tot E v) {ex : ℕ} (hex : ex ≠ v.routerID) {row : ℕ → ℤ}
    (hrow : ∀ i, 1 ≤ i ∧ i ≤ tot → row i < inf → ∃ w ≤ row i, Walk E ex i w) :
    Sound tot E { v with d := Function.update v.d ex row } := by
  have hown : own { v with d := Function.update v.d ex row } = v.own := by
    simp [own, hex.symm]
  refine ⟨h.edge, ?_, ?_⟩
  · intro x i hi
    by_cases hx : x = ex
    · subst hx
      simpa using hrow i hi
    · simpa [hx] using h.row x i hi
  · rw [hown]
    exact h.next

/-- A shorter distance comes with the walk over the link it was taken from. -/
theorem Sound.updateDV (h : Sound tot E v) (hwf : WF tot v) (htgt : tgt ≠ v.routerID)
    (hid : 1 ≤ tgt ∧ tgt ≤ tot) : Sound tot E (updateDV tot tgt v).1 := by
  have hd := fun i hi => hwf.d_range tgt i hi
  have hct := hwf.c_range tgt
  have hself := fun i hi => hwf.d_range v.routerID i hi
  refine ⟨?_, ?_, ?_⟩
  · rw [updateDV_c tot htgt, updateDV_routerID tot htgt]
    exact h.edge
  · intro x i hi
    by_cases hx : x = v.routerID
    · subst hx
      have hshow : (DV.updateDV tot tgt v).1.d v.routerID i = (DV.updateDV tot tgt v).1.own i := by
        rw [own, updateDV_routerID tot htgt]
      rw [hshow]
      intro hlt
      rcases updateDV_cases htgt hi with ⟨ho, -⟩ | ⟨ho, -⟩ | ⟨ho, -⟩ <;> rw [ho] at hlt ⊢
      · exact h.row _ i hi hlt
      · exact ⟨_, le_rfl, .single (h.edge i hi hlt)⟩
      · have hdi := hd i hi
        obtain ⟨w, hw, hwalk⟩ := h.row tgt i hi (by omega)
        exact ⟨v.c tgt + w, by omega, .cons (h.edge tgt hid (by omega)) hwalk⟩
    · rw [updateDV_d tot htgt hx]
      exact h.row x i hi
  · intro i hi
    rw [updateDV_c tot htgt]
    rcases updateDV_cases htgt hi with ⟨ho, hn, -⟩ | ⟨ho, hn, -⟩ | ⟨ho, hn, hlt, -⟩ <;> rw [ho, hn]
    · exact h.next i hi
    · intro _
      exact ⟨0, .nil i, by omega⟩
    · intro _
      have hoi : v.own i ≤ inf := (hself i hi).2
      have hdi := hd i hi
      obtain ⟨w, hw, hwalk⟩ := h.row tgt i hi (by omega)
      exact ⟨w, hwalk, by omega⟩

end Sound

section Steps

def linkLen (value : ℤ) : ℤ := if value = -1 then inf else value

theorem linkLen_range (hv : value = -1 ∨ 0 ≤ value ∧ value < inf) :
    0 ≤ linkLen value ∧ linkLen value ≤ inf := by
  have := inf_pos
  unfold linkLen
  split <;> omega

variable {lst : ℤ} {ex : ℕ} {row : ℕ → ℤ} {version : ℤ}

/-- A step keeps the version, and then nothing gets longer, or moves to a later one. -/
structure Advances (tot : ℕ) (v v' : DV) : Prop where
  routerID : v'.routerID = v.routerID
  version : v.version ≤ v'.version
  c_le : v'.version = v.version → ∀ t, v'.c t ≤ v.c t
  own_le : v'.version = v.version → ∀ i, 1 ≤ i ∧ i ≤ tot → v'.own i ≤ v.own i

theorem Advances.refl (tot : ℕ) (v : DV) : Advances tot v v :=
  ⟨rfl, le_rfl, fun _ _ => le_rfl, fun _ _ _ => le_rfl⟩

theorem Advances.trans {v v' w : DV} (h : Advances tot v v') (h' : Advances tot v' w) :
    Advances tot v w := by
  refine ⟨h'.routerID.trans h.routerID, h.version.trans h'.version, ?_, ?_⟩
  · intro he t
    have h1 := h.version
    have h2 := h'.version
    exact (h'.c_le (by omega) t).trans (h.c_le (by omega) t)
  · intro he i hi
    have h1 := h.version
    have h2 := h'.version
    exact (h'.own_le (by omega) i hi).trans (h.own_le (by omega) i hi)

private theorem advances_updateDV (htgt : tgt ≠ v.routerID) :
    Advances tot v (updateDV tot tgt v).1 := by
  refine ⟨updateDV_routerID tot htgt, (updateDV_version tot htgt).ge, ?_, ?_⟩
  · intro _ t
    rw [updateDV_c tot htgt]
  · intro _ i hi
    have hcases := updateDV_cases htgt hi
    omega

private theorem updateDV_own_le (htgt : tgt ≠ v.routerID) {i : ℕ} (hi : 1 ≤ i ∧ i ≤ tot) :
    (updateDV tot tgt v).1.own i ≤ v.c tgt + v.d tgt i := by
  have hcases := updateDV_cases htgt hi
  omega

theorem updateC_cases (tot : ℕ) (lst : ℤ) (tgt : ℕ) (value : ℤ) (v : DV) :
    (v.c tgt = linkLen value ∧ updateC tot lst tgt value v = (v, lst, 0)) ∨
    (linkLen value < v.c tgt ∧ updateC tot lst tgt value v =
      ((updateDV tot tgt { v with c := Function.update v.c tgt (linkLen value) }).1, lst, -1)) ∨
    (v.c tgt < linkLen value ∧ updateC tot lst tgt value v =
      ((updateDV tot tgt { v with
        version := lst + 1
        c := Function.update v.c tgt (linkLen value) }.reset).1, lst + 1, 1)) := by
  have hlen : (if value = -1 then inf else value) = linkLen value := rfl
  simp only [DV.updateC, hlen]
  rcases lt_trichotomy (v.c tgt) (linkLen value) with h | h | h
  · right
    right
    rw [if_neg h.ne, if_neg h.asymm]
    exact ⟨h, rfl⟩
  · left
    rw [if_pos h]
    exact ⟨h, rfl⟩
  · right
    left
    rw [if_neg h.ne', if_pos h]
    exact ⟨h, rfl⟩

theorem updateC_c (lst : ℤ) (htgt : tgt ≠ v.routerID) (value : ℤ) :
    (updateC tot lst tgt value v).1.c = Function.update v.c tgt (linkLen value) := by
  rcases updateC_cases tot lst tgt value v with ⟨h, he⟩ | ⟨-, he⟩ | ⟨-, he⟩ <;> rw [he]
  · rw [← h]
    exact (Function.update_eq_self tgt v.c).symm
  · exact updateDV_c tot htgt
  · exact updateDV_c tot htgt

theorem updateC_version (tot : ℕ) (lst value : ℤ) (htgt : tgt ≠ v.routerID) :
    ((updateC tot lst tgt value v).1.version = v.version ∧
      (updateC tot lst tgt value v).2.1 = lst) ∨
    ((updateC tot lst tgt value v).1.version = lst + 1 ∧
      (updateC tot lst tgt value v).2.1 = lst + 1) := by
  rcases updateC_cases tot lst tgt value v with ⟨-, he⟩ | ⟨-, he⟩ | ⟨-, he⟩ <;> rw [he]
  · exact Or.inl ⟨rfl, rfl⟩
  · exact Or.inl ⟨updateDV_version tot htgt, rfl⟩
  · exact Or.inr ⟨updateDV_version tot htgt, rfl⟩

theorem updateC_routerID (tot : ℕ) (lst value : ℤ) (htgt : tgt ≠ v.routerID) :
    (updateC tot lst tgt value v).1.routerID = v.routerID := by
  rcases updateC_cases tot lst tgt value v with ⟨-, he⟩ | ⟨-, he⟩ | ⟨-, he⟩ <;> rw [he]
  · exact updateDV_routerID tot htgt
  · exact updateDV_routerID tot htgt

theorem advances_updateC (htgt : tgt ≠ v.routerID) (hle : v.version ≤ lst) :
    Advances tot v (updateC tot lst tgt value v).1 := by
  rcases updateC_cases tot lst tgt value v with ⟨-, he⟩ | ⟨hlt, he⟩ | ⟨-, he⟩ <;> rw [he]
  · exact .refl tot v
  · refine .trans ?_ (advances_updateDV (by exact htgt))
    refine ⟨rfl, le_rfl, ?_, fun _ _ _ => le_rfl⟩
    intro _ t
    by_cases ht : t = tgt
    · subst ht
      simpa using hlt.le
    · simp [ht]
  · refine .trans ?_ (advances_updateDV (by exact htgt))
    refine ⟨rfl, ?_, ?_, ?_⟩
    · show v.version ≤ lst + 1
      omega
    · intro h
      have h' : lst + 1 = v.version := h
      omega
    · intro h
      have h' : lst + 1 = v.version := h
      omega

theorem wf_updateC (lst : ℤ) (hwf : WF tot v) (hd : Direct tot v) (htgt : tgt ≠ v.routerID)
    (hpos : tgt ≠ 0) (hv : value = -1 ∨ 0 ≤ value ∧ value < inf) :
    WF tot (updateC tot lst tgt value v).1 ∧ Direct tot (updateC tot lst tgt value v).1 := by
  have hset := hwf.setC htgt (linkLen_range hv)
  rcases updateC_cases tot lst tgt value v with ⟨-, he⟩ | ⟨-, he⟩ | ⟨-, he⟩ <;> rw [he]
  · exact ⟨hwf, hd⟩
  · exact hset.updateDV htgt hpos
  · exact (hset.setVersion _).reset.updateDV htgt hpos

/-- `updateC` keeps the table true of the graph `E'` of the version it ends in, if that graph
has the links of the router itself and all that was known before in the same version. -/
theorem Sound.updateC (h : Sound tot E v) (hwf : WF tot v) (htgt : tgt ≠ v.routerID)
    (hid : 1 ≤ tgt ∧ tgt ≤ tot) (hv : value = -1 ∨ 0 ≤ value ∧ value < inf)
    (hE : (updateC tot lst tgt value v).1.version = v.version →
      ∀ x t a, E x t a → ∃ b ≤ a, E' x t b)
    (hedge : ∀ t, 1 ≤ t ∧ t ≤ tot → (updateC tot lst tgt value v).1.c t < inf →
      E' v.routerID t ((updateC tot lst tgt value v).1.c t)) :
    Sound tot E' (updateC tot lst tgt value v).1 := by
  have hset := hwf.setC htgt (linkLen_range hv)
  rw [updateC_c lst htgt] at hedge
  rcases updateC_cases tot lst tgt value v with ⟨hc, he⟩ | ⟨hlt, he⟩ | ⟨-, he⟩ <;> rw [he] at hE ⊢
  · rw [← hc, Function.update_eq_self] at hedge
    exact h.mono (hE rfl) (fun _ => le_rfl) hedge
  · refine Sound.updateDV (h.mono (hE (updateDV_version tot htgt)) ?_ hedge) hset htgt hid
    intro t
    by_cases ht : t = tgt
    · subst ht
      simpa using hlt.le
    · simp [ht]
  · exact (sound_reset hedge).updateDV (hset.setVersion _).reset htgt hid

theorem updateDVFrom_cases (tot ex : ℕ) (row : ℕ → ℤ) (version : ℤ) (v : DV) :
    (version < v.version ∧ updateDVFrom tot ex row version v = (v, false)) ∨
    (version = v.version ∧ updateDVFrom tot ex row version v =
      updateDV tot ex { v with d := Function.update v.d ex row }) ∨
    (v.version < version ∧ updateDVFrom tot ex row version v = updateDV tot ex
      { ({ v with version := version } : DV).reset with
        d := Function.update (emptyTable v.routerID) ex row }) := by
  unfold updateDVFrom
  rcases lt_trichotomy version v.version with h | h | h
  · left
    rw [if_pos h]
    exact ⟨h, rfl⟩
  · right
    left
    rw [if_neg h.ge.not_gt]
    simp only [h, lt_irrefl, if_false]
    exact ⟨trivial, trivial⟩
  · right
    right
    rw [if_neg h.asymm]
    simp only [h, if_true]
    exact ⟨trivial, rfl⟩

theorem updateDVFrom_c (tot : ℕ) (hex : ex ≠ v.routerID) (row : ℕ → ℤ) (version : ℤ) :
    (updateDVFrom tot ex row version v).1.c = v.c := by
  rcases updateDVFrom_cases tot ex row version v with ⟨-, he⟩ | ⟨-, he⟩ | ⟨-, he⟩ <;> rw [he]
  · exact updateDV_c tot hex
  · exact updateDV_c tot hex

theorem updateDVFrom_version (tot : ℕ) (hex : ex ≠ v.routerID) (row : ℕ → ℤ) (version : ℤ) :
    (updateDVFrom tot ex row version v).1.version = max v.version version := by
  rcases updateDVFrom_cases tot ex row version v with ⟨h, he⟩ | ⟨h, he⟩ | ⟨h, he⟩ <;> rw [he]
  · exact (max_eq_left h.le).symm
  · rw [h, max_self]
    exact updateDV_version tot hex
  · rw [max_eq_right h.le]
    exact updateDV_version tot hex

theorem advances_updateDVFrom (hex : ex ≠ v.routerID) :
    Advances tot v (updateDVFrom tot ex row version v).1 := by
  rcases updateDVFrom_cases tot ex row version v with ⟨-, he⟩ | ⟨-, he⟩ | ⟨hlt, he⟩ <;> rw [he]
  · exact .refl tot v
  · refine .trans ?_ (advances_updateDV (by exact hex))
    refine ⟨rfl, le_rfl, fun _ _ => le_rfl, ?_⟩
    intro _ i _
    simp [own, hex.symm]
  · refine .trans ?_ (advances_updateDV (by exact hex))
    refine ⟨rfl, hlt.le, ?_, ?_⟩
    · intro h
      exact absurd h hlt.ne'
    · intro h
      exact absurd h hlt.ne'

theorem wf_updateDVFrom (version : ℤ) (hwf : WF tot v) (hd : Direct tot v)
    (hex : ex ≠ v.routerID) (hpos : ex ≠ 0)
    (hrow : ∀ i, 1 ≤ i ∧ i ≤ tot → 0 ≤ row i ∧ row i ≤ inf) :
    WF tot (updateDVFrom tot ex row version v).1 ∧
    Direct tot (updateDVFrom tot ex row version v).1 := by
  rcases updateDVFrom_cases tot ex row version v with ⟨-, he⟩ | ⟨-, he⟩ | ⟨-, he⟩ <;> rw [he]
  · exact ⟨hwf, hd⟩
  · exact (hwf.store hex hrow).updateDV hex hpos
  · exact ((hwf.setVersion version).reset.store hex hrow).updateDV hex hpos

theorem Sound.updateDVFrom (h : Sound tot E v) (hwf : WF tot v) (hex : ex ≠ v.routerID)
    (hid : 1 ≤ ex ∧ ex ≤ tot) (hrange : ∀ i, 1 ≤ i ∧ i ≤ tot → 0 ≤ row i ∧ row i ≤ inf)
    (hE : (updateDVFrom tot ex row version v).1.version = v.version →
      ∀ x t a, E x t a → ∃ b ≤ a, E' x t b)
    (hedge : ∀ t, 1 ≤ t ∧ t ≤ tot → v.c t < inf → E' v.routerID t (v.c t))
    (hrow : v.version ≤ version →
      ∀ i, 1 ≤ i ∧ i ≤ tot → row i < inf → ∃ w ≤ row i, Walk E' ex i w) :
    Sound tot E' (updateDVFrom tot ex row version v).1 := by
  rcases updateDVFrom_cases tot ex row version v with ⟨hlt, he⟩ | ⟨heq, he⟩ | ⟨hlt, he⟩ <;>
    rw [he] at hE ⊢
  · exact h.mono (hE rfl) (fun _ => le_rfl) hedge
  · have hmono := h.mono (hE (updateDV_version tot hex)) (fun _ => le_rfl) hedge
    exact (hmono.store hex (hrow heq.ge)).updateDV (hwf.store hex hrange) hex hid
  · have hreset : Sound tot E' ({ v with version := version } : DV).reset := sound_reset hedge
    exact (hreset.store hex (hrow hlt.le)).updateDV
      ((hwf.setVersion version).reset.store hex hrange) hex hid

/-- After a row has been taken in its own version the router is no farther from anything than
over the neighbour. -/
theorem updateDVFrom_own_le (hex : ex ≠ v.routerID)
    (hver : (updateDVFrom tot ex row version v).1.version = version) {i : ℕ}
    (hi : 1 ≤ i ∧ i ≤ tot) :
    (updateDVFrom tot ex row version v).1.own i ≤ v.c ex + row i := by
  rw [updateDVFrom_version tot hex] at hver
  rcases updateDVFrom_cases tot ex row version v with ⟨hlt, -⟩ | ⟨-, he⟩ | ⟨-, he⟩
  · omega
  · rw [he]
    apply (updateDV_own_le (by exact hex) hi).trans
    simp
  · rw [he]
    apply (updateDV_own_le (by exact hex) hi).trans
    simp [DV.reset]

end Steps
end DV
end NetworkingLabs.Routing
