import NetworkingLabs.RouterDVInvariant
import NetworkingLabs.Router

/-!
# One graph for every version

Every version of the distance vectors has its own graph: a router contributes its links at
their present length while it is in the version, at their last length once it has gone on to
a later one, and nothing before it has come to the version. The links of a version only get
shorter, so what has been computed in a version stays true in it.
-/
namespace NetworkingLabs.Routing
open WeightedWalks

structure Advert where
  sender : ℕ
  version : ℤ
  row : List ℤ
  deriving DecidableEq

def Advert.packet (a : Advert) : Packet := ⟨0, 0, .dv a.sender a.version a.row⟩

def Router.advert (R : Router) (tot : ℕ) : Advert := ⟨R.dv.routerID, R.dv.version, R.dv.row tot⟩

theorem temdv_row {tot i : ℕ} (hi : 1 ≤ i ∧ i ≤ tot) (v : DV) :
    temdv tot (v.row tot) i = v.own i := by
  have hlt : i - 1 < tot := by omega
  have hsucc : 1 + (i - 1) = i := by omega
  simp [temdv, hi, DV.row, hlt, hsucc]

/-- The arcs of a version, from the lengths that each router has contributed. -/
def arcs (tot : ℕ) (lo : ℤ → ℕ → ℕ → ℤ) (version : ℤ) (x t : ℕ) (a : ℤ) : Prop :=
  (1 ≤ x ∧ x ≤ tot) ∧ (1 ≤ t ∧ t ≤ tot) ∧ lo version x t = a ∧ a < inf

def contribute (lo : ℤ → ℕ → ℕ → ℤ) (x : ℕ) (v : DV) (version : ℤ) (y t : ℕ) : ℤ :=
  if version = v.version ∧ y = x then v.c t else lo version y t

/-- A row of some version: every entry in range, and no shorter than some walk. -/
def TrueRow (tot : ℕ) (E : ℕ → ℕ → ℤ → Prop) (x : ℕ) (row : ℕ → ℤ) : Prop :=
  ∀ i, 1 ≤ i ∧ i ≤ tot → (0 ≤ row i ∧ row i ≤ inf) ∧
    (row i < inf → ∃ w ≤ row i, Walk E x i w)

/-- The invariant over all routers and all packets ever sent, with the sender of each. -/
structure Versions (tot : ℕ) (lo : ℤ → ℕ → ℕ → ℤ) (dv : ℕ → DV) (lst : ℤ)
    (sent : List (ℕ × Advert)) : Prop where
  routerID : ∀ x, 1 ≤ x ∧ x ≤ tot → (dv x).routerID = x
  nonneg : ∀ version x t, 0 ≤ lo version x t
  wf : ∀ x, 1 ≤ x ∧ x ≤ tot → (dv x).WF tot
  direct : ∀ x, 1 ≤ x ∧ x ≤ tot → (dv x).Direct tot
  version_le : ∀ x, 1 ≤ x ∧ x ≤ tot → (dv x).version ≤ lst
  now : ∀ x, 1 ≤ x ∧ x ≤ tot → ∀ t, lo (dv x).version x t = (dv x).c t
  later : ∀ x, 1 ≤ x ∧ x ≤ tot → ∀ version, (dv x).version < version → ∀ t, lo version x t = inf
  sound : ∀ x, 1 ≤ x ∧ x ≤ tot → (dv x).Sound tot (arcs tot lo (dv x).version)
  sent : ∀ p ∈ sent, (1 ≤ p.1 ∧ p.1 ≤ tot) ∧ p.2.sender = p.1 ∧ p.2.version ≤ lst ∧
    TrueRow tot (arcs tot lo p.2.version) p.1 (temdv tot p.2.row)

variable {tot : ℕ} {lo : ℤ → ℕ → ℕ → ℤ} {dv : ℕ → DV} {lst lst' : ℤ} {sent : List (ℕ × Advert)}
  {x s : ℕ} {v : DV}

theorem TrueRow.mono {E E' : ℕ → ℕ → ℤ → Prop} {row : ℕ → ℤ} (h : TrueRow tot E x row)
    (hE : ∀ x t a, E x t a → ∃ b ≤ a, E' x t b) : TrueRow tot E' x row := by
  intro i hi
  obtain ⟨hrange, hwalk⟩ := h i hi
  refine ⟨hrange, fun hlt => ?_⟩
  obtain ⟨w, hw, hwalk⟩ := hwalk hlt
  obtain ⟨w', hw', hwalk'⟩ := hwalk.mono hE
  exact ⟨w', hw'.trans hw, hwalk'⟩

theorem Versions.walk_nonneg (h : Versions tot lo dv lst sent) {version w : ℤ} {u t : ℕ}
    (hw : Walk (arcs tot lo version) u t w) : 0 ≤ w := by
  apply hw.nonneg
  rintro u v a ⟨-, -, rfl, -⟩
  exact h.nonneg version u v

def firstLinks (version : ℤ) (x : ℕ) : ℕ → ℤ :=
  if version = 0 then (DV.init x).c else fun _ => inf

private theorem firstLinks_nonneg (version : ℤ) (x t : ℕ) : 0 ≤ firstLinks version x t := by
  unfold firstLinks
  split
  · by_cases ht : t = x
    · subst ht
      simp [DV.init]
    · simp [DV.init, ht, DV.inf_pos.le]
  · exact DV.inf_pos.le

theorem versions_init (hdv : ∀ x, 1 ≤ x ∧ x ≤ tot → dv x = .init x) :
    Versions tot firstLinks dv 0 [] := by
  refine ⟨?_, firstLinks_nonneg, ?_, ?_, ?_, ?_, ?_, ?_, by simp⟩ <;> intro x hx <;> rw [hdv x hx]
  · rfl
  · exact DV.wf_init hx
  · exact DV.direct_init x
  · exact le_rfl
  · intro t
    rfl
  · intro version hv t
    have hne : version ≠ 0 := hv.ne'
    simp [firstLinks, hne]
  · have hedge : ∀ t, 1 ≤ t ∧ t ≤ tot → (DV.init x).c t < inf →
        arcs tot firstLinks (DV.init x).version (DV.init x).routerID t ((DV.init x).c t) :=
      fun t ht hlt => ⟨hx, ht, rfl, hlt⟩
    exact DV.sound_reset hedge

section Contribute

private theorem contribute_own (lo : ℤ → ℕ → ℕ → ℤ) (x : ℕ) (v : DV) (t : ℕ) :
    contribute lo x v v.version x t = v.c t := by
  simp [contribute]

private theorem contribute_of_ne {y : ℕ} (hy : y ≠ x) (version : ℤ) (t : ℕ) :
    contribute lo x v version y t = lo version y t := by
  simp [contribute, hy]

private theorem arcs_contribute (h : Versions tot lo dv lst sent) (hx : 1 ≤ x ∧ x ≤ tot)
    (hadv : DV.Advances tot (dv x) v) (hwf : v.WF tot) (version : ℤ) :
    ∀ y t a, arcs tot lo version y t a → ∃ b ≤ a, arcs tot (contribute lo x v) version y t b := by
  rintro y t a ⟨hy, ht, rfl, hlt⟩
  refine ⟨contribute lo x v version y t, ?_, hy, ht, rfl, ?_⟩
  all_goals
    have hle : contribute lo x v version y t ≤ lo version y t := by
      unfold contribute
      split
      · rename_i heq
        obtain ⟨rfl, rfl⟩ := heq
        rcases hadv.version.lt_or_eq with hver | hver
        · rw [h.later y hx _ hver t]
          exact (hwf.c_range t).2
        · rw [← hver, h.now y hx t]
          exact hadv.c_le hver.symm t
      · exact le_rfl
  · exact hle
  · exact hle.trans_lt hlt

theorem forall_update {α : Type} {q : ℕ → Prop} {f : ℕ → α} {a : α} {p : ℕ → α → Prop}
    (ha : p x a) (hf : ∀ y, y ≠ x → q y → p y (f y)) : ∀ y, q y → p y (Function.update f x a y) :=
  (Function.forall_update_iff f fun y b => q y → p y b).mpr ⟨fun _ => ha, hf⟩

theorem Versions.step (h : Versions tot lo dv lst sent) (hx : 1 ≤ x ∧ x ≤ tot)
    (hadv : DV.Advances tot (dv x) v) (hlst : lst ≤ lst') (hver : v.version ≤ lst')
    (hwf : v.WF tot) (hdirect : v.Direct tot)
    (hsound : v.Sound tot (arcs tot (contribute lo x v) v.version)) :
    Versions tot (contribute lo x v) (Function.update dv x v) lst' sent := by
  have hmono := arcs_contribute h hx hadv hwf
  -- nothing changes at the others but the graph, which gets better
  refine ⟨?_, ?_, ?_, ?_, ?_, ?_, ?_, ?_, ?_⟩
  · exact forall_update (p := fun y (w : DV) => w.routerID = y)
      (hadv.routerID.trans (h.routerID x hx)) fun y _ hy => h.routerID y hy
  · intro version y t
    unfold contribute
    split
    · exact (hwf.c_range t).1
    · exact h.nonneg version y t
  · exact forall_update (p := fun _ (w : DV) => w.WF tot) hwf fun y _ hy => h.wf y hy
  · exact forall_update (p := fun _ (w : DV) => w.Direct tot) hdirect fun y _ hy => h.direct y hy
  · exact forall_update (p := fun _ (w : DV) => w.version ≤ lst') hver
      fun y _ hy => (h.version_le y hy).trans hlst
  · refine forall_update (p := fun y (w : DV) => ∀ t, contribute lo x v w.version y t = w.c t)
      (contribute_own lo x v) fun y hyx hy t => ?_
    rw [contribute_of_ne hyx]
    exact h.now y hy t
  · refine forall_update (p := fun y (w : DV) => ∀ version, w.version < version → ∀ t,
      contribute lo x v version y t = inf) ?_ fun y hyx hy version hv t => ?_
    · intro version hv t
      rw [contribute, if_neg (fun heq => hv.ne' heq.1)]
      exact h.later x hx version (hadv.version.trans_lt hv) t
    · rw [contribute_of_ne hyx]
      exact h.later y hy version hv t
  · refine forall_update
      (p := fun _ (w : DV) => w.Sound tot (arcs tot (contribute lo x v) w.version)) hsound
      fun y hyx hy => ?_
    refine (h.sound y hy).mono (hmono _) (fun _ => le_rfl) fun t ht hlt => ⟨?_, ht, ?_, hlt⟩
    · rwa [h.routerID y hy]
    · rw [h.routerID y hy, contribute_of_ne hyx]
      exact h.now y hy t
  · intro p hp
    obtain ⟨h1, h2, h3, h4⟩ := h.sent p hp
    exact ⟨h1, h2, h3.trans hlst, h4.mono (hmono _)⟩

end Contribute

section Calls

private theorem contribute_edge (lo : ℤ → ℕ → ℕ → ℤ) (hx : 1 ≤ x ∧ x ≤ tot) (hid : v.routerID = x) :
    ∀ t, 1 ≤ t ∧ t ≤ tot → v.c t < inf →
      arcs tot (contribute lo x v) v.version v.routerID t (v.c t) := by
  intro t ht hlt
  rw [hid]
  exact ⟨hx, ht, contribute_own lo x v t, hlt⟩

theorem Versions.updateC (h : Versions tot lo dv lst sent) (hx : 1 ≤ x ∧ x ≤ tot) {tgt : ℕ}
    (htgt : 1 ≤ tgt ∧ tgt ≤ tot) (hne : tgt ≠ x) {value : ℤ}
    (hv : value = -1 ∨ 0 ≤ value ∧ value < inf) :
    Versions tot (contribute lo x ((dv x).updateC tot lst tgt value).1)
      (Function.update dv x ((dv x).updateC tot lst tgt value).1)
      ((dv x).updateC tot lst tgt value).2.1 sent := by
  have hne' : tgt ≠ (dv x).routerID := by rwa [h.routerID x hx]
  have hadv : DV.Advances tot (dv x) ((dv x).updateC tot lst tgt value).1 :=
    DV.advances_updateC hne' (h.version_le x hx)
  obtain ⟨hwf, hdirect⟩ := DV.wf_updateC lst (h.wf x hx) (h.direct x hx) hne' (by omega) hv
  have hle := h.version_le x hx
  have hver := DV.updateC_version tot lst value hne'
  apply h.step hx hadv (by omega) (by omega) hwf hdirect
  have hid : ((dv x).updateC tot lst tgt value).1.routerID = x := by
    rw [hadv.routerID, h.routerID x hx]
  have hedge := contribute_edge lo hx hid
  rw [hadv.routerID] at hedge
  refine (h.sound x hx).updateC (h.wf x hx) hne' htgt hv ?_ hedge
  intro hsame
  rw [hsame]
  exact arcs_contribute h hx hadv hwf _

theorem Versions.updateDVFrom (h : Versions tot lo dv lst sent) (hx : 1 ≤ x ∧ x ≤ tot)
    {a : Advert} (hmem : (s, a) ∈ sent) (hne : s ≠ x) :
    Versions tot (contribute lo x ((dv x).updateDVFrom tot s (temdv tot a.row) a.version).1)
      (Function.update dv x ((dv x).updateDVFrom tot s (temdv tot a.row) a.version).1)
      lst sent := by
  obtain ⟨hs, -, hale, hrow⟩ := h.sent _ hmem
  have hne' : s ≠ (dv x).routerID := by rwa [h.routerID x hx]
  have hadv : DV.Advances tot (dv x) ((dv x).updateDVFrom tot s (temdv tot a.row) a.version).1 :=
    DV.advances_updateDVFrom hne'
  have hrange : ∀ i, 1 ≤ i ∧ i ≤ tot → 0 ≤ temdv tot a.row i ∧ temdv tot a.row i ≤ inf :=
    fun i hi => (hrow i hi).1
  obtain ⟨hwf, hdirect⟩ := DV.wf_updateDVFrom a.version (h.wf x hx) (h.direct x hx)
    hne' (by omega) hrange
  have hver := DV.updateDVFrom_version tot hne' (temdv tot a.row) a.version
  apply h.step hx hadv le_rfl (by rw [hver]; exact max_le (h.version_le x hx) hale) hwf hdirect
  have hid : ((dv x).updateDVFrom tot s (temdv tot a.row) a.version).1.routerID = x := by
    rw [hadv.routerID, h.routerID x hx]
  have hedge := contribute_edge lo hx hid
  rw [hadv.routerID, DV.updateDVFrom_c tot hne'] at hedge
  have hmono := arcs_contribute h hx hadv hwf
  refine (h.sound x hx).updateDVFrom (h.wf x hx) hne' hs hrange ?_ hedge ?_
  · intro hsame
    rw [hsame]
    exact hmono _
  · intro hle i hi hlt
    rw [hver, max_eq_right hle]
    exact (hrow.mono (hmono a.version) i hi).2 hlt

theorem Versions.send (h : Versions tot lo dv lst sent) (hx : 1 ≤ x ∧ x ≤ tot) :
    Versions tot lo dv lst
      (sent ++ [(x, ⟨(dv x).routerID, (dv x).version, (dv x).row tot⟩)]) := by
  refine ⟨h.routerID, h.nonneg, h.wf, h.direct, h.version_le, h.now, h.later, h.sound, ?_⟩
  intro p hp
  rcases List.mem_append.mp hp with hp | hp
  · exact h.sent p hp
  · obtain rfl := List.mem_singleton.mp hp
    refine ⟨hx, h.routerID x hx, h.version_le x hx, fun i hi => ?_⟩
    have hsound := (h.sound x hx).row (dv x).routerID i hi
    rw [h.routerID x hx] at hsound
    rw [temdv_row hi]
    refine ⟨(h.wf x hx).d_range _ i hi, ?_⟩
    rw [DV.own, h.routerID x hx]
    exact hsound

end Calls
end NetworkingLabs.Routing
