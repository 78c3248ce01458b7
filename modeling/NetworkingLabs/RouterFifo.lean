import NetworkingLabs.RouterCountToInfinity

/-!
# Routers over FIFO links

The same routers over links that lose nothing while they are up: a broadcast goes into the
queue of every cabled neighbour, and is delivered from its head. What is under way on a link
that is not up may be lost, and a broadcast into such a link need not arrive.
-/
namespace NetworkingLabs.Routing
open TransitionSystem

/-- A link is up once both of its ends have been told a length. -/
def Routers.Up (C : Cabling) (w : Routers) (r t : ℕ) : Prop :=
  w.told C r t ≠ -1 ∧ w.told C t r ≠ -1

instance (C : Cabling) (w : Routers) (r t : ℕ) : Decidable (w.Up C r t) :=
  inferInstanceAs (Decidable (_ ∧ _))

/-- The routers, the queue from each router to each, what each has broadcast last, and who
has been triggered since a length was changed. -/
structure Fifo where
  w : Routers
  queue : ℕ → ℕ → List Advert
  lastSent : ℕ → Option Advert
  triggered : ℕ → Bool

/-- `lucky` are the neighbours that a broadcast reaches although the link is not up. -/
inductive FifoMove
  | portValue (r t : ℕ) (value : ℤ)
  | trigger (r : ℕ) (lucky : List ℕ)
  | deliver (s r : ℕ) (lucky : List ℕ)
  | drop (s r k : ℕ)
  | plain (r : ℕ) (inPort : ℤ) (pk : Packet)

def Fifo.Allowed (C : Cabling) (st : Fifo) : FifoMove → Prop
  | .portValue r t value => (C.port r t).isSome ∧ LinkValue value
  | .trigger r _ => 1 ≤ r ∧ r ≤ C.n
  | .deliver s r _ => st.queue s r ≠ []
  | .drop s r _ => ¬ st.w.Up C s r
  | .plain r _ pk => (1 ≤ r ∧ r ≤ C.n) ∧ pk.body.Plain

instance (C : Cabling) (st : Fifo) : (mv : FifoMove) → Decidable (st.Allowed C mv)
  | .portValue r t value => inferInstanceAs (Decidable ((C.port r t).isSome ∧ LinkValue value))
  | .trigger r _ => inferInstanceAs (Decidable (1 ≤ r ∧ r ≤ C.n))
  | .deliver s r _ => inferInstanceAs (Decidable (st.queue s r ≠ []))
  | .drop s r _ => inferInstanceAs (Decidable (¬ st.w.Up C s r))
  | .plain r _ pk => inferInstanceAs (Decidable ((1 ≤ r ∧ r ≤ C.n) ∧ pk.body.Plain))

def Fifo.enqueue (C : Cabling) (st : Fifo) (r : ℕ) (lucky : List ℕ) (a : Advert) (x t : ℕ) :
    List Advert :=
  if x = r ∧ (C.port r t).isSome ∧ (st.w.Up C r t ∨ t ∈ lucky) then st.queue x t ++ [a]
  else st.queue x t

def Fifo.broadcast (C : Cabling) (st : Fifo) (r : ℕ) (lucky : List ℕ) : Option Advert → Fifo
  | none => st
  | some a => { st with
      queue := st.enqueue C r lucky a
      lastSent := Function.update st.lastSent r (some a) }

def Fifo.call (C : Cabling) (st : Fifo) (r : ℕ) (inPort : ℤ) (pk : Packet) (lucky : List ℕ) :
    Fifo :=
  let out := st.w.call r inPort pk
  Fifo.broadcast C { st with w := out.1 } r lucky out.2

def Fifo.setQueue (st : Fifo) (s r : ℕ) (q : List Advert) : Fifo :=
  { st with queue := fun x t => if x = s ∧ t = r then q else st.queue x t }

def Fifo.move (C : Cabling) (st : Fifo) : FifoMove → Fifo
  | .portValue r t value =>
    { st.call C r 1 (C.portValue r t value) [] with triggered := fun _ => false }
  | .trigger r lucky =>
    { st.call C r 1 triggerPacket lucky with triggered := Function.update st.triggered r true }
  | .deliver s r lucky =>
    match st.queue s r with
    | [] => st
    | a :: rest => (st.setQueue s r rest).call C r ((C.port r s).getD 0) a.packet lucky
  | .drop s r k => st.setQueue s r ((st.queue s r).eraseIdx k)
  | .plain r inPort pk => st.call C r inPort pk []

def fifo (C : Cabling) : TransitionSystem Fifo FifoMove where
  init st := st.w.Fresh C ∧ (∀ s r, st.queue s r = []) ∧ (∀ r, st.lastSent r = none) ∧
    ∀ r, st.triggered r = false
  enabled := Fifo.Allowed C
  next := Fifo.move C

instance (C : Cabling) (st : Fifo) (mv : FifoMove) : Decidable ((fifo C).enabled st mv) :=
  inferInstanceAs (Decidable (st.Allowed C mv))

variable {C : Cabling} {st : Fifo} {lossySt : Lossy} {r s t x y : ℕ} {inPort : ℤ} {pk : Packet}
  {lucky : List ℕ} {a : Advert}

section Simulation

/-- The lossy network has the same routers and has sent all that is in the queues. -/
structure Fifo.Refines (C : Cabling) (st : Fifo) (lossySt : Lossy) : Prop where
  routers : st.w = lossySt.w
  queue : ∀ s r a, a ∈ st.queue s r → (C.port s r).isSome ∧ (s, a) ∈ lossySt.sent

private theorem mem_setQueue {q : List Advert} (hq : ∀ b ∈ q, b ∈ st.queue s r)
    (h : a ∈ (st.setQueue s r q).queue x y) : a ∈ st.queue x y := by
  simp only [Fifo.setQueue] at h
  split at h
  · rename_i hxy
    obtain ⟨rfl, rfl⟩ := hxy
    exact hq a h
  · exact h

@[simp] theorem broadcast_w (C : Cabling) (st : Fifo) (r : ℕ) (lucky : List ℕ)
    (o : Option Advert) : (st.broadcast C r lucky o).w = st.w := by
  cases o <;> rfl

@[simp] theorem call_w (C : Cabling) (st : Fifo) (r : ℕ) (inPort : ℤ) (pk : Packet)
    (lucky : List ℕ) : (st.call C r inPort pk lucky).w = (st.w.call r inPort pk).1 :=
  broadcast_w ..

private theorem mem_broadcast {o : Option Advert} {b : Advert}
    (h : b ∈ (st.broadcast C r lucky o).queue x y) :
    b ∈ st.queue x y ∨ o = some b ∧ x = r ∧ (C.port r y).isSome := by
  cases o with
  | none => exact Or.inl h
  | some a =>
    simp only [Fifo.broadcast, Fifo.enqueue] at h
    split at h
    · rename_i hxy
      rcases List.mem_append.mp h with h | h
      · exact Or.inl h
      · rw [List.mem_singleton.mp h]
        exact Or.inr ⟨rfl, hxy.1, hxy.2.1⟩
    · exact Or.inl h

theorem Fifo.Refines.call (h : st.Refines C lossySt) (r : ℕ) (inPort : ℤ) (pk : Packet)
    (lucky : List ℕ) : (st.call C r inPort pk lucky).Refines C (lossySt.call r inPort pk) := by
  refine ⟨by rw [call_w, h.routers]; rfl, ?_⟩
  intro x y b hb
  rcases mem_broadcast hb with hb | ⟨ho, rfl, hy⟩
  · obtain ⟨h1, h2⟩ := h.queue x y b hb
    exact ⟨h1, List.mem_append_left _ h2⟩
  · refine ⟨hy, List.mem_append_right _ ?_⟩
    rw [← h.routers, ho]
    exact List.mem_singleton_self _

theorem Fifo.Refines.setQueue (h : st.Refines C lossySt) {q : List Advert}
    (hq : ∀ b ∈ q, b ∈ st.queue s r) : (st.setQueue s r q).Refines C lossySt :=
  ⟨h.routers, fun x y b hb => h.queue x y b (mem_setQueue hq hb)⟩

theorem Fifo.Refines.setTriggered (h : st.Refines C lossySt) (triggered : ℕ → Bool) :
    Fifo.Refines C { st with triggered := triggered } lossySt :=
  ⟨h.routers, h.queue⟩

/-- Every move over FIFO links is one of the lossy network, or nothing to it. -/
theorem Fifo.Refines.move (h : st.Refines C lossySt) (mv : FifoMove) (hmv : st.Allowed C mv) :
    (st.move C mv).Refines C lossySt ∨
    ∃ mv', lossySt.Allowed C mv' ∧ (st.move C mv).Refines C (lossySt.move C mv') := by
  cases mv with
  | portValue r t value => exact Or.inr ⟨.portValue r t value, hmv, (h.call _ _ _ _).setTriggered _⟩
  | trigger r lucky => exact Or.inr ⟨.trigger r, hmv, (h.call _ _ _ _).setTriggered _⟩
  | plain r inPort pk => exact Or.inr ⟨.plain r inPort pk, hmv, h.call _ _ _ _⟩
  | drop s r k => exact Or.inl (h.setQueue fun b hb => List.mem_of_mem_eraseIdx hb)
  | deliver s r lucky =>
    cases hq : st.queue s r with
    | nil => exact absurd hq hmv
    | cons a rest =>
      have ha := h.queue s r a (by simp [hq])
      obtain ⟨p, hp⟩ := Option.isSome_iff_exists.mp ha.1
      obtain ⟨q, hback⟩ := C.both hp
      have hrest : ∀ b ∈ rest, b ∈ st.queue s r := by
        intro b hb
        rw [hq]
        exact List.mem_cons_of_mem a hb
      refine Or.inr ⟨.deliver s r a, ⟨by simp [hback], ha.2⟩, ?_⟩
      have hmove : st.move C (.deliver s r lucky) =
          (st.setQueue s r rest).call C r ((C.port r s).getD 0) a.packet lucky := by
        simp [Fifo.move, hq]
      rw [hmove]
      exact (h.setQueue hrest).call _ _ _ _

/-- So the invariant of the lossy network holds of the routers. -/
theorem netInv_fifo (h : (fifo C).Reachable st) :
    ∃ lo lossySt, st.Refines C lossySt ∧ NetInv C lo lossySt := by
  have hsim : ∃ lossySt, (lossy C).Reachable lossySt ∧ st.Refines C lossySt := by
    apply h.simulated (T := lossy C) (R := Fifo.Refines C)
    · intro st hst
      refine ⟨⟨st.w, []⟩, ⟨hst.1, rfl⟩, rfl, ?_⟩
      intro s r a ha
      rw [hst.2.1 s r] at ha
      cases ha
    · exact fun st lossySt mv hst hmv => hst.move mv hmv
  obtain ⟨lossySt, hreach, href⟩ := hsim
  obtain ⟨lo, hinv⟩ := netInv_lossy hreach
  exact ⟨lo, lossySt, href, hinv⟩

end Simulation

section Calls

variable {w w' : Routers} {lo : ℤ → ℕ → ℕ → ℤ} {p : ℤ}

theorem call_dv_of_ne (w : Routers) (inPort : ℤ) (pk : Packet) (hx : x ≠ r) :
    (w.call r inPort pk).1.dv x = w.dv x := by
  simp [Routers.call, Routers.dv, hx]

theorem call_dv_self (w : Routers) (r : ℕ) (inPort : ℤ) (pk : Packet) :
    (w.call r inPort pk).1.dv r = ((w.routers r).router w.shared inPort pk).router.dv := by
  simp [Routers.call, Routers.dv]

theorem call_dv_eq (h : ((w.routers r).router w.shared inPort pk).router.dv = (w.routers r).dv) :
    (w.call r inPort pk).1.dv = w.dv := by
  apply (dv_update w r _ _).trans
  rw [h, update_dv_self]

theorem told_call (C : Cabling)
    (h : ((w.routers r).router w.shared inPort pk).router.portLen = (w.routers r).portLen) :
    (w.call r inPort pk).1.told C = w.told C := by
  funext x t
  have hlen : ((w.call r inPort pk).1.routers x).lenOf = (w.routers x).lenOf := by
    funext q
    by_cases hx : x = r
    · subst hx
      simp [Routers.call, Router.lenOf, h]
    · simp [Routers.call, hx]
  simp only [Routers.told, hlen]

structure Heard (C : Cabling) (w : Routers) (s r : ℕ) (a : Advert) : Prop where
  version : a.version ≤ (w.dv r).version
  cost : (w.dv r).c s = w.told C r s
  own : (w.dv r).version = a.version → ∀ i, 1 ≤ i ∧ i ≤ C.n →
    (w.dv r).own i ≤ (w.dv r).c s + temdv C.n a.row i

theorem Heard.step (h : Heard C w s r a) (htold : w'.told C = w.told C)
    (hadv : DV.Advances C.n (w.dv r) (w'.dv r)) (hc : (w'.dv r).c s = (w.dv r).c s) :
    Heard C w' s r a := by
  refine ⟨h.version.trans hadv.version, ?_, ?_⟩
  · rw [hc, htold]
    exact h.cost
  · intro hver i hi
    have hle := h.version
    have hle' := hadv.version
    have hsame : (w'.dv r).version = (w.dv r).version := by omega
    rw [hc]
    exact (hadv.own_le hsame i hi).trans (h.own (by omega) i hi)

/-- What a delivery does to the vectors of the receiver. -/
theorem NetInv.heard_deliver (h : NetInv C lo lossySt) (hp : C.port r s = some p)
    (hmem : (s, a) ∈ lossySt.sent) :
    (lossySt.w.call r p a.packet).1.told C = lossySt.w.told C ∧
    DV.Advances C.n (lossySt.w.dv r) ((lossySt.w.call r p a.packet).1.dv r) ∧
    (∀ t, t ≠ s → ((lossySt.w.call r p a.packet).1.dv r).c t = (lossySt.w.dv r).c t) ∧
    (lossySt.w.told C r s ≠ -1 → Heard C (lossySt.w.call r p a.packet).1 s r a) := by
  obtain ⟨hr, hs, hne⟩ := C.ids hp
  obtain ⟨hout, -⟩ := h.router_deliver hp hmem
  have hdv : (lossySt.w.call r p a.packet).1.dv r = (((lossySt.w.dv r).updateC C.n
      lossySt.w.shared.lstChangeVersion s ((lossySt.w.routers r).lenOf p)).1.updateDVFrom C.n s
        (temdv C.n a.row) a.version).1 := by
    rw [call_dv_self, hout]
    rfl
  have htold : (lossySt.w.call r p a.packet).1.told C = lossySt.w.told C :=
    told_call C (by rw [hout])
  have hne1 : s ≠ (lossySt.w.dv r).routerID := by
    rw [h.versions.routerID r hr]
    exact hne.symm
  have hadv1 : DV.Advances C.n (lossySt.w.dv r) ((lossySt.w.dv r).updateC C.n
      lossySt.w.shared.lstChangeVersion s ((lossySt.w.routers r).lenOf p)).1 :=
    DV.advances_updateC hne1 (h.versions.version_le r hr)
  have hne2 : s ≠ ((lossySt.w.dv r).updateC C.n lossySt.w.shared.lstChangeVersion s
      ((lossySt.w.routers r).lenOf p)).1.routerID := by
    rwa [hadv1.routerID]
  have hc : ((lossySt.w.call r p a.packet).1.dv r).c =
      Function.update (lossySt.w.dv r).c s (DV.linkLen ((lossySt.w.routers r).lenOf p)) := by
    rw [hdv, DV.updateDVFrom_c _ hne2, DV.updateC_c _ hne1]
  refine ⟨htold, ?_, ?_, ?_⟩
  · rw [hdv]
    exact hadv1.trans (DV.advances_updateDVFrom hne2)
  · intro t ht
    rw [hc, Function.update_of_ne ht]
  · intro hup
    have hlen : lossySt.w.told C r s = (lossySt.w.routers r).lenOf p := by
      simp only [Routers.told, hp]
    refine ⟨?_, ?_, ?_⟩
    · rw [hdv, DV.updateDVFrom_version _ hne2]
      exact le_max_right _ _
    · rw [htold, hc, Function.update_self, DV.linkLen, if_neg (by rwa [← hlen]), hlen]
    · intro hver i hi
      rw [hdv] at hver
      have hown := DV.updateDVFrom_own_le hne2 hver hi
      rw [hdv]
      rwa [DV.updateDVFrom_c _ hne2]

end Calls

section Synced

/-- Over a link that is up, what a triggered router has sent last is either still under way,
behind everything else, or has been taken into account. -/
def Fifo.Synced (C : Cabling) (st : Fifo) (s r : ℕ) : Prop :=
  st.triggered s = true → st.w.Up C s r → ∃ a, st.lastSent s = some a ∧
    ((st.queue s r).getLast? = some a ∨ st.queue s r = [] ∧ Heard C st.w s r a)

private theorem up_congr {w w' : Routers} (h : w'.told C = w.told C) : w'.Up C = w.Up C := by
  funext x y
  simp only [Routers.Up, h]

theorem Fifo.Synced.step (h : st.Synced C x y) {w' : Routers} (htold : w'.told C = st.w.told C)
    (hadv : DV.Advances C.n (st.w.dv y) (w'.dv y)) (hc : (w'.dv y).c x = (st.w.dv y).c x) :
    Fifo.Synced C { st with w := w' } x y := by
  intro htrig hup
  have hup' : st.w.Up C x y := by
    rw [← up_congr htold]
    exact hup
  obtain ⟨a, hlast, hqueue⟩ := h htrig hup'
  refine ⟨a, hlast, ?_⟩
  rcases hqueue with hqueue | ⟨hempty, hheard⟩
  · exact Or.inl hqueue
  · exact Or.inr ⟨hempty, hheard.step htold hadv hc⟩

theorem Fifo.Synced.same (h : st.Synced C x y) {w' : Routers} (htold : w'.told C = st.w.told C)
    (hdv : w'.dv = st.w.dv) : Fifo.Synced C { st with w := w' } x y := by
  apply h.step htold <;> rw [hdv]
  exact .refl C.n _

/-- A broadcast goes behind everything else. -/
theorem queue_broadcast_self (hup : st.w.Up C r y) :
    ((st.broadcast C r lucky (some a)).queue r y).getLast? = some a := by
  have hport : (C.port r y).isSome := by
    cases hp : C.port r y with
    | some p => rfl
    | none =>
      have htold : st.w.told C r y = -1 := by simp [Routers.told, hp]
      exact absurd htold hup.1
  simp [Fifo.broadcast, Fifo.enqueue, hport, hup]

theorem Fifo.Synced.broadcast (h : st.Synced C x y) (r : ℕ) (lucky : List ℕ)
    (o : Option Advert) : (st.broadcast C r lucky o).Synced C x y := by
  cases o with
  | none => exact h
  | some a =>
    intro htrig hup
    rw [broadcast_w] at hup
    by_cases hxr : x = r
    · subst hxr
      refine ⟨a, ?_, Or.inl (queue_broadcast_self hup)⟩
      simp [Fifo.broadcast]
    · obtain ⟨b, hlast, hqueue⟩ := h htrig hup
      refine ⟨b, ?_, ?_⟩
      · simpa [Fifo.broadcast, hxr] using hlast
      · simpa [Fifo.broadcast, Fifo.enqueue, hxr] using hqueue

theorem Fifo.Synced.setQueue (h : st.Synced C x y) {q : List Advert} (hne : ¬ (x = s ∧ y = r)) :
    (st.setQueue s r q).Synced C x y := by
  intro htrig hup
  obtain ⟨a, hlast, hqueue⟩ := h htrig hup
  refine ⟨a, hlast, ?_⟩
  simpa [Fifo.setQueue, hne] using hqueue

/-- Delivery from the head of a queue, before what the receiver broadcasts. -/
theorem Fifo.Synced.deliver {lo : ℤ → ℕ → ℕ → ℤ} (href : st.Refines C lossySt)
    (hinv : NetInv C lo lossySt) {rest : List Advert} (hq : st.queue s r = a :: rest) {p : ℤ}
    (hp : C.port r s = some p) (h : st.Synced C x y) :
    Fifo.Synced C { st.setQueue s r rest with w := (st.w.call r p a.packet).1 } x y := by
  have hmem := (href.queue s r a (by simp [hq])).2
  obtain ⟨htold, hadv, hc, hheard⟩ := hinv.heard_deliver hp hmem
  rw [← href.routers] at htold hadv hc hheard
  by_cases hyr : y = r
  · subst hyr
    by_cases hxs : x = s
    · subst hxs
      -- the packet that is delivered is the last one sent, or it is not the last one under way
      intro htrig hup
      have hup' : st.w.Up C x y := by
        rw [← up_congr htold]
        exact hup
      obtain ⟨b, hlast, hqueue⟩ := h htrig hup'
      refine ⟨b, hlast, ?_⟩
      rcases hqueue with hqueue | ⟨hempty, -⟩
      · rw [hq] at hqueue
        cases rest with
        | nil =>
          obtain rfl : a = b := by simpa using hqueue
          exact Or.inr ⟨by simp [Fifo.setQueue], hheard hup'.2⟩
        | cons a' rest =>
          left
          simpa [Fifo.setQueue] using hqueue
      · rw [hq] at hempty
        cases hempty
    · exact (h.setQueue (by simp [hxs])).step htold hadv (hc x hxs)
  · apply (h.setQueue (by simp [hyr])).step htold <;> rw [call_dv_of_ne _ _ _ hyr]
    · exact .refl C.n _
    · rfl

theorem Fifo.Synced.move (hreach : (fifo C).Reachable st) (h : ∀ x y, st.Synced C x y)
    (mv : FifoMove) (hmv : st.Allowed C mv) (x y : ℕ) : (st.move C mv).Synced C x y := by
  obtain ⟨lo, lossySt, href, hinv⟩ := netInv_fifo hreach
  cases mv with
  | portValue r t value =>
    intro htrig
    cases htrig
  | plain r inPort pk =>
    obtain ⟨hdv, -, -, -, hlen, -⟩ := router_plain (st.w.routers r) st.w.shared inPort hmv.2
    apply Fifo.Synced.broadcast
    exact (h x y).same (told_call C hlen) (call_dv_eq hdv)
  | drop s r k =>
    by_cases hxy : x = s ∧ y = r
    · obtain ⟨rfl, rfl⟩ := hxy
      intro _ hup
      exact absurd hup hmv
    · exact (h x y).setQueue hxy
  | deliver s r lucky =>
    cases hq : st.queue s r with
    | nil => exact absurd hq hmv
    | cons a rest =>
      obtain ⟨p, hp⟩ := Option.isSome_iff_exists.mp (href.queue s r a (by simp [hq])).1
      obtain ⟨q, hback⟩ := C.both hp
      have hmove : st.move C (.deliver s r lucky) =
          (st.setQueue s r rest).call C r q a.packet lucky := by
        simp [Fifo.move, hq, hback]
      rw [hmove]
      apply Fifo.Synced.broadcast
      exact Fifo.Synced.deliver href hinv hq hback (h x y)
  | trigger r lucky =>
    obtain ⟨hrouter, -, -⟩ := router_trigger (st.w.routers r) st.w.shared 1
    have hdv : (st.w.call r 1 triggerPacket).1.dv = st.w.dv := call_dv_eq (by rw [hrouter])
    have htold : (st.w.call r 1 triggerPacket).1.told C = st.w.told C :=
      told_call C (by rw [hrouter])
    have hmove : st.move C (.trigger r lucky) =
        { Fifo.broadcast C { st with w := (st.w.call r 1 triggerPacket).1 } r lucky
            (some ((st.w.routers r).advert st.w.shared.totRouterNum)) with
          triggered := Function.update st.triggered r true } := rfl
    rw [hmove]
    intro htrig hup
    by_cases hxr : x = r
    · subst hxr
      exact ⟨_, by simp [Fifo.broadcast], Or.inl (queue_broadcast_self hup)⟩
    · refine (((h x y).same htold hdv).broadcast r lucky _) ?_ hup
      have htrig' : st.triggered x = true := by simpa [hxr] using htrig
      exact htrig'

theorem synced_fifo (h : (fifo C).Reachable st) (x y : ℕ) : st.Synced C x y := by
  induction h generalizing x y with
  | init h =>
    intro htrig
    rw [h.2.2.2 x] at htrig
    cases htrig
  | step h mv hmv ih => exact Fifo.Synced.move h ih mv hmv x y

end Synced
end NetworkingLabs.Routing
