import NetworkingLabs.RouterFifo

/-!
# Quiescent networks

Once nothing is under way any more and every router has sent its row since the last change,
the distances are exact, and packets go along shortest paths.
-/
namespace NetworkingLabs.Routing
open WeightedWalks TransitionSystem

def Routers.linkArc (C : Cabling) (w : Routers) (r t : ℕ) (a : ℤ) : Prop :=
  w.told C r t = a ∧ a ≠ -1

/-- Both ends of every cable have been told the same, every router has been triggered since,
no packet is under way, and what each router has broadcast last is what it has now. -/
structure Fifo.Quiescent (C : Cabling) (st : Fifo) : Prop where
  told : ∀ r t, (C.port r t).isSome → st.w.told C r t = st.w.told C t r
  triggered : ∀ r, 1 ≤ r ∧ r ≤ C.n → st.triggered r = true
  empty : ∀ r t, (C.port r t).isSome → st.queue r t = []
  lastSent : ∀ r, 1 ≤ r ∧ r ≤ C.n → st.lastSent r = some ((st.w.routers r).advert C.n)

variable {C : Cabling} {st : Fifo} {lossySt : Lossy} {lo : ℤ → ℕ → ℕ → ℤ} {r t i : ℕ} {a x : ℤ}

section Exact

theorem linkArc_port {w : Routers} (h : w.linkArc C r t a) : ∃ p, C.port r t = some p := by
  obtain ⟨rfl, hne⟩ := h
  unfold Routers.told at hne
  cases hp : C.port r t with
  | none => simp [hp] at hne
  | some p => exact ⟨p, rfl⟩

variable (hq : st.Quiescent C) (hsync : ∀ r t, st.Synced C r t)
include hq

theorem Fifo.Quiescent.up (h : st.w.linkArc C r t a) : st.w.Up C r t := by
  obtain ⟨p, hp⟩ := linkArc_port h
  obtain ⟨rfl, hne⟩ := h
  exact ⟨hne, by rwa [← hq.told r t (by simp [hp])]⟩

include hsync

/-- Over every link the receiver has taken the present row of the sender into account. -/
theorem Fifo.Quiescent.heard (h : st.w.linkArc C r t a) :
    Heard C st.w t r ((st.w.routers t).advert C.n) := by
  obtain ⟨p, hp⟩ := linkArc_port h
  obtain ⟨q, hback⟩ := C.both hp
  have hup := hq.up h
  have ht := (C.ids hp).2.1
  obtain ⟨b, hlast, hqueue⟩ := hsync t r (hq.triggered t ht) ⟨hup.2, hup.1⟩
  rw [hq.lastSent t ht] at hlast
  cases hlast
  rcases hqueue with hqueue | ⟨-, hheard⟩
  · rw [hq.empty t r (by simp [hback])] at hqueue
    cases hqueue
  · exact hheard

theorem Fifo.Quiescent.version_eq (h : st.w.linkArc C r t a) :
    (st.w.dv r).version = (st.w.dv t).version := by
  have hback : st.w.linkArc C t r (st.w.told C t r) := ⟨rfl, (hq.up h).2⟩
  exact le_antisymm (hq.heard hsync hback).version (hq.heard hsync h).version

/-- No router is farther from anything than over a neighbour. -/
theorem Fifo.Quiescent.own_le (h : st.w.linkArc C r t a) (hi : 1 ≤ i ∧ i ≤ C.n) :
    (st.w.dv r).own i ≤ a + (st.w.dv t).own i := by
  have hheard := hq.heard hsync h
  have hown := hheard.own (hq.version_eq hsync h) i hi
  rw [hheard.cost, h.1] at hown
  have hrow : temdv C.n ((st.w.routers t).advert C.n).row i = (st.w.dv t).own i :=
    temdv_row hi _
  rwa [hrow] at hown

omit hq hsync in
/-- The links of a router are the finite entries of its costs. -/
theorem costArc_linkArc (hinv : NetInv C lo lossySt) (h : lossySt.w.costArc C r t a) :
    lossySt.w.linkArc C r t a := by
  obtain ⟨hr, -, hrt, rfl, hlt⟩ := h
  have htold := ((hinv.linked r hr).told_eq hrt hlt).1
  have hnonneg := ((hinv.versions.wf r hr).c_range t).1
  exact ⟨htold, by omega⟩

theorem Fifo.Quiescent.linkArc_costArc (href : st.Refines C lossySt) (hinv : NetInv C lo lossySt)
    (h : st.w.linkArc C r t a) : st.w.costArc C r t a := by
  have hheard := hq.heard hsync h
  obtain ⟨p, hp⟩ := linkArc_port h
  obtain ⟨hr, ht, hrt⟩ := C.ids hp
  have hlink : LinkValue a := by
    have hlen : a = (lossySt.w.routers r).lenOf p := by
      rw [← h.1, href.routers]
      simp only [Routers.told, hp]
    rw [hlen]
    exact linkValue_lenOf (hinv.linked r hr).lens _
  refine ⟨hr, ht, hrt, hheard.cost.trans h.1, ?_⟩
  rcases hlink with rfl | hlink
  · exact absurd rfl h.2
  · exact hlink.2

/-- Walks of a version lead along links, since its links end in routers of the same version. -/
theorem Fifo.Quiescent.walk_of_arcs (href : st.Refines C lossySt) (hinv : NetInv C lo lossySt)
    {u v : ℕ} (hu : 1 ≤ u ∧ u ≤ C.n)
    (h : Walk (arcs C.n lo (st.w.dv u).version) u v x) : ∃ y ≤ x, Walk (st.w.linkArc C) u v y := by
  let S : Set ℕ := {z | (1 ≤ z ∧ z ≤ C.n) ∧ (st.w.dv z).version = (st.w.dv u).version}
  refine h.refine (S := S) ?_ ⟨hu, rfl⟩
  rintro y ⟨hy, hver⟩ z b ⟨-, hz, hb, hlt⟩
  have hc := hinv.versions.now y hy z
  rw [← href.routers, hver, hb] at hc
  by_cases hyz : y = z
  · subst hyz
    have hself := (hinv.versions.wf y hy).c_self
    rw [hinv.versions.routerID y hy, ← href.routers, ← hc] at hself
    exact ⟨⟨hy, hver⟩, 0, hself.ge, .nil y⟩
  · have harc : st.w.linkArc C y z b := by
      rw [href.routers]
      refine costArc_linkArc hinv ⟨hy, hz, hyz, ?_, hlt⟩
      rw [← href.routers]
      exact hc.symm
    refine ⟨⟨hz, ?_⟩, b, le_rfl, .single harc⟩
    rw [← hq.version_eq hsync harc, hver]

theorem Fifo.Quiescent.own_le_walk (hinv : NetInv C lo lossySt) (href : st.Refines C lossySt)
    (hi : 1 ≤ i ∧ i ≤ C.n) (h : Walk (st.w.linkArc C) r i x) : (st.w.dv r).own i ≤ x := by
  have hp : ∀ u v b, st.w.linkArc C u v b → (st.w.dv u).own i ≤ b + (st.w.dv v).own i :=
    fun u v b hb => hq.own_le hsync hb hi
  have hself : (st.w.dv i).own i = 0 := by
    have h0 := (hinv.versions.wf i hi).own_self
    rwa [hinv.versions.routerID i hi, ← href.routers] at h0
  have hle := h.potential_le (p := fun u => (st.w.dv u).own i) hp
  simp only [hself] at hle
  omega

theorem Fifo.Quiescent.own_lt (hinv : NetInv C lo lossySt) (href : st.Refines C lossySt)
    (htotal : st.w.total C < inf) (hi : 1 ≤ i ∧ i ≤ C.n) (h : Walk (st.w.linkArc C) r i x) :
    (st.w.dv r).own i < inf := by
  have hcost : ∀ u v b, st.w.linkArc C u v b → ∃ c ≤ b, lossySt.w.costArc C u v c := by
    intro u v b hb
    have hc := hq.linkArc_costArc hsync href hinv hb
    rw [href.routers] at hc
    exact ⟨b, le_rfl, hc⟩
  obtain ⟨y, -, hy⟩ := h.mono hcost
  obtain ⟨z, hz, hle⟩ := costWalk_le_total hinv.linked hinv.versions.wf hy
  have hlink : ∀ u v b, lossySt.w.costArc C u v b → ∃ c ≤ b, st.w.linkArc C u v c := by
    intro u v b hb
    rw [href.routers]
    exact ⟨b, le_rfl, costArc_linkArc hinv hb⟩
  obtain ⟨z', hz', hwalk⟩ := hz.mono hlink
  have hown := hq.own_le_walk hsync hinv href hi hwalk
  rw [← href.routers] at hle
  omega

/-- A finite entry is the cost of a walk along links, and of no longer one than any other. -/
theorem Fifo.Quiescent.isLeast (hinv : NetInv C lo lossySt) (href : st.Refines C lossySt)
    (hr : 1 ≤ r ∧ r ≤ C.n) (hi : 1 ≤ i ∧ i ≤ C.n) (hlt : (st.w.dv r).own i < inf) :
    IsLeast {x | Walk (st.w.linkArc C) r i x} ((st.w.dv r).own i) := by
  have hbelow : ∀ x, Walk (st.w.linkArc C) r i x → (st.w.dv r).own i ≤ x :=
    fun x hx => hq.own_le_walk hsync hinv href hi hx
  have hid : (st.w.dv r).routerID = r := by
    rw [href.routers]
    exact hinv.versions.routerID r hr
  have hsound := (hinv.versions.sound r hr).row r i hi
  rw [← href.routers] at hsound
  rw [DV.own, hid] at hlt hbelow ⊢
  obtain ⟨x, hx, hwalk⟩ := hsound hlt
  obtain ⟨y, hy, hwalk'⟩ := hq.walk_of_arcs hsync href hinv hr hwalk
  have hle := hbelow y hwalk'
  obtain rfl : (st.w.dv r).d r i = y := by omega
  exact ⟨hwalk', hbelow⟩

omit hq hsync

theorem NetInv.own_eq (hinv : NetInv C lo lossySt) (href : st.Refines C lossySt)
    (hr : 1 ≤ r ∧ r ≤ C.n) (i : ℕ) : (st.w.dv r).d r i = (st.w.dv r).own i := by
  rw [DV.own, href.routers, hinv.versions.routerID r hr]

/-- At quiescence every entry of every router's own row is the distance in the graph of the
present lengths, and the great number exactly where there is no walk. -/
theorem exact_at_quiescence (h : (fifo C).Reachable st) (hq : st.Quiescent C)
    (htotal : st.w.total C < inf) : ∀ r i, 1 ≤ r ∧ r ≤ C.n → 1 ≤ i ∧ i ≤ C.n →
      IsDistance (st.w.linkArc C) inf r i ((st.w.dv r).d r i) ∧
      ((st.w.dv r).d r i = inf ↔ ¬ ∃ x, Walk (st.w.linkArc C) r i x) := by
  intro r i hr hi
  obtain ⟨lo, lossySt, href, hinv⟩ := netInv_fifo h
  have hsync := synced_fifo h
  have hown := hinv.own_eq href hr i
  rw [hown]
  have hle : (st.w.dv r).own i ≤ inf := by
    rw [href.routers]
    exact ((hinv.versions.wf r hr).d_range _ i hi).2
  by_cases hwalk : ∃ x, Walk (st.w.linkArc C) r i x
  · obtain ⟨x, hx⟩ := hwalk
    have hlt := hq.own_lt hsync hinv href htotal hi hx
    refine ⟨Or.inl (hq.isLeast hsync hinv href hr hi hlt), ?_⟩
    constructor
    · intro heq
      exact absurd heq hlt.ne
    · intro hnone
      exact absurd ⟨x, hx⟩ hnone
  · have heq : (st.w.dv r).own i = inf := by
      by_contra hne
      have hleast := hq.isLeast hsync hinv href hr hi (lt_of_le_of_ne hle hne)
      exact hwalk ⟨_, hleast.1⟩
    exact ⟨Or.inr ⟨hwalk, heq⟩, fun _ => hwalk, fun _ => heq⟩

def pairFifoRun : List FifoMove :=
  [.portValue 1 2 5, .portValue 2 1 5, .trigger 1 [], .trigger 2 [], .deliver 1 2 [],
    .deliver 2 1 [], .deliver 2 1 [], .deliver 1 2 []]

def pairFifo : Fifo :=
  (fifo pairCabling).play ⟨pairRouters, fun _ _ => [], fun _ => none, fun _ => false⟩ pairFifoRun

private theorem pairFifo_reachable : (fifo pairCabling).Reachable pairFifo := by
  have h0 : (fifo pairCabling).Reachable
      ⟨pairRouters, fun _ _ => [], fun _ => none, fun _ => false⟩ :=
    .init ⟨pairRouters_fresh, fun _ _ => rfl, fun _ => rfl, fun _ => rfl⟩
  exact h0.play (by decide)

theorem pairCabling_port (h : (pairCabling.port r t).isSome) : r = 1 ∧ t = 2 ∨ r = 2 ∧ t = 1 := by
  by_contra hne
  simp [pairCabling, hne] at h

private theorem pairFifo_quiescent : pairFifo.Quiescent pairCabling := by
  have hids : ∀ r, 1 ≤ r ∧ r ≤ pairCabling.n → r = 1 ∨ r = 2 := by
    intro r hr
    have hn : pairCabling.n = 2 := rfl
    omega
  refine ⟨?_, ?_, ?_, ?_⟩
  · intro r t h
    rcases pairCabling_port h with ⟨rfl, rfl⟩ | ⟨rfl, rfl⟩ <;> decide
  · intro r hr
    rcases hids r hr with rfl | rfl <;> decide
  · intro r t h
    rcases pairCabling_port h with ⟨rfl, rfl⟩ | ⟨rfl, rfl⟩ <;> decide
  · intro r hr
    rcases hids r hr with rfl | rfl <;> decide +kernel

theorem exact_at_quiescence_pair :
    IsDistance (pairFifo.w.linkArc pairCabling) inf 1 2 5 ∧
      (5 = inf ↔ ¬ ∃ x, Walk (pairFifo.w.linkArc pairCabling) 1 2 x) :=
  exact_at_quiescence pairFifo_reachable pairFifo_quiescent (by decide) 1 2 (by decide) (by decide)

end Exact

section Forwarding

/-- A packet that router `R` has to get to router `i`, arriving from inside: for a host of `i`,
or for the range that `i` has in the table of external addresses. -/
def Router.Carries (R : Router) (sh : Shared) (inPort : ℤ) (pk : Packet) (i : ℕ) : Prop :=
  pk.body = .data ∧ ipRev pk.dst ≠ 0 ∧ inPort ≠ R.externalPort ∧
  R.isExternalIP (ipRev pk.dst) = false ∧
  if isInternalIP (ipRev pk.dst) then sh.host2Router (ipRev pk.dst) = i
  else sh.exIPMatchRouter (ipRev pk.dst) = some i

/-- Such a packet leaves as it came, by the port that `nextRouter` and `m_routerID2Port` give. -/
theorem router_carries {R : Router} {sh : Shared} {inPort : ℤ} {pk : Packet}
    (h : R.Carries sh inPort pk i) (hne : i ≠ R.routerID) :
    R.router sh inPort pk = ⟨R, sh, pk, some (R.forward i)⟩ := by
  obtain ⟨hbody, hdst, hport, hext, htarget⟩ := h
  have hsend : R.send sh (ipRev pk.dst) = some (R.forward i) := by
    unfold Router.send
    by_cases hint : isInternalIP (ipRev pk.dst)
    · rw [if_pos hint] at htarget ⊢
      simp [htarget, hne]
    · rw [if_neg hint] at htarget ⊢
      simp [htarget, hne]
  rw [Router.router, hbody]
  simp only [Router.onData, if_neg hdst, if_neg hport, hext, hsend, Bool.false_eq_true, if_false]

/-- The way of the packets for router `i`: the routers it visits and the sum of the costs `c`
along it. Each hop is the port that `router()` returns for any such packet, whatever port it
came in by, and the router at the other end of its cable. -/
inductive Forwards (C : Cabling) (w : Routers) (i : ℕ) : ℕ → List ℕ → ℤ → Prop
  | arrived : Forwards C w i i [i] 0
  | hop {r t : ℕ} {p : ℤ} {path : List ℕ} {cost : ℤ} (hne : r ≠ i)
      (hret : ∀ inPort pk, (w.routers r).Carries w.shared inPort pk i →
        ((w.routers r).router w.shared inPort pk).ret = some p)
      (hnext : (w.dv r).findNextRouter i = t) (hout : (w.routers r).routerID2Port t = p)
      (hport : C.port r t = some p) (hrest : Forwards C w i t path cost) :
      Forwards C w i r (r :: path) ((w.dv r).c t + cost)

variable (hq : st.Quiescent C) (hsync : ∀ r t, st.Synced C r t)
include hq hsync

/-- The next router is a neighbour, and the rest of the distance is its distance. -/
theorem Fifo.Quiescent.next_hop (href : st.Refines C lossySt) (hinv : NetInv C lo lossySt)
    (hr : 1 ≤ r ∧ r ≤ C.n) (hi : 1 ≤ i ∧ i ≤ C.n) (hne : r ≠ i)
    (hlt : (st.w.dv r).own i < inf) :
    ∃ t p, (st.w.dv r).findNextRouter i = t ∧ (st.w.routers r).routerID2Port t = p ∧
      C.port r t = some p ∧ (st.w.routers r).forward i = p ∧ (1 ≤ t ∧ t ≤ C.n) ∧
      st.w.linkArc C r t ((st.w.dv r).c t) ∧
      (st.w.dv r).own i = (st.w.dv r).c t + (st.w.dv t).own i := by
  have hwf := hinv.versions.wf r hr
  have hid := hinv.versions.routerID r hr
  have hsound := (hinv.versions.sound r hr).next i hi
  have hlinked := hinv.linked r hr
  rw [← href.routers] at hwf hid hsound hlinked
  obtain ⟨t, hnext⟩ : ∃ t, (st.w.dv r).nextRouter i = t := ⟨_, rfl⟩
  have h0 : t ≠ 0 := by
    rw [← hnext]
    exact hwf.reached i hi (by rw [hid]; exact hne.symm) hlt
  have hself : t ≠ r := by
    have hhop := hwf.hop i hi
    rw [hid, hnext] at hhop
    exact hhop.resolve_right h0
  rw [hnext] at hsound
  obtain ⟨x, hwalk, hx⟩ := hsound h0
  have hx0 : 0 ≤ x := hinv.versions.walk_nonneg hwalk
  have hc : (st.w.dv r).c t < inf := by omega
  -- the link is up, and known at the port that leads to the next router
  obtain ⟨p, hback, -, -⟩ := hlinked.finite t hself hc
  obtain ⟨hp, hout⟩ := hlinked.learned p t hback h0
  obtain ⟨-, ht, -⟩ := C.ids hp
  have hp1 := C.proper hp
  have hforward : (st.w.routers r).forward i = p := by
    have hfind : (st.w.routers r).dv.findNextRouter i = t := hnext
    have hport0 : (st.w.routers r).routerID2Port t ≠ 0 := by omega
    simp only [Router.forward, hfind, h0, hport0, or_self, if_false]
    exact hout
  have harc : st.w.linkArc C r t ((st.w.dv r).c t) := by
    rw [href.routers] at hc ⊢
    exact costArc_linkArc hinv ⟨hr, ht, hself.symm, rfl, hc⟩
  refine ⟨t, p, hnext, hout, hp, hforward, ht, harc, ?_⟩
  have hver := hq.version_eq hsync harc
  rw [hver] at hwalk
  obtain ⟨y, hy, hwalk'⟩ := hq.walk_of_arcs hsync href hinv ht hwalk
  have hle := hq.own_le_walk hsync hinv href hi hwalk'
  have hge := hq.own_le hsync harc hi
  omega

/-- Along the way the distance drops, so that no router is visited twice. -/
theorem Fifo.Quiescent.forwards (href : st.Refines C lossySt) (hinv : NetInv C lo lossySt)
    (hpos : ∀ r t a, st.w.linkArc C r t a → 0 < a) (hi : 1 ≤ i ∧ i ≤ C.n) (n : ℕ)
    (hr : 1 ≤ r ∧ r ≤ C.n) (hlt : (st.w.dv r).own i < inf) (hn : (st.w.dv r).own i ≤ n) :
    ∃ path, Forwards C st.w i r path ((st.w.dv r).own i) ∧ path.Nodup ∧
      ∀ u ∈ path, (st.w.dv u).own i ≤ (st.w.dv r).own i := by
  induction n using Nat.strong_induction_on generalizing r with
  | h n ih =>
    by_cases hne : r = i
    · subst hne
      have hself : (st.w.dv r).own r = 0 := by
        have h0 := (hinv.versions.wf r hr).own_self
        rwa [hinv.versions.routerID r hr, ← href.routers] at h0
      rw [hself]
      refine ⟨[r], .arrived, List.nodup_singleton r, ?_⟩
      intro u hu
      rw [List.mem_singleton.mp hu, hself]
    · obtain ⟨t, p, hnext, hout, hp, hforward, ht, harc, hsum⟩ :=
        hq.next_hop hsync href hinv hr hi hne hlt
      have hc := hpos _ _ _ harc
      have ht0 : 0 ≤ (st.w.dv t).own i := by
        rw [href.routers]
        exact ((hinv.versions.wf t ht).d_range _ i hi).1
      obtain ⟨path, hpath, hnodup, hle⟩ := ih ((st.w.dv t).own i).toNat (by omega) ht (by omega)
        (by omega)
      refine ⟨r :: path, ?_, ?_, ?_⟩
      · rw [hsum]
        refine .hop hne ?_ hnext hout hp hpath
        intro inPort pk hpk
        have hid : i ≠ (st.w.routers r).routerID := by
          rw [href.routers, (hinv.linked r hr).routerID]
          exact fun heq => hne heq.symm
        rw [router_carries hpk hid, hforward]
      · refine List.nodup_cons.mpr ⟨fun hmem => ?_, hnodup⟩
        have hle' := hle r hmem
        omega
      · intro u hu
        rcases List.mem_cons.mp hu with rfl | hu
        · exact le_rfl
        · have hle' := hle u hu
          omega

omit hq hsync

/-- At quiescence, if all lengths are positive, packets for `i` visit no router twice, arrive,
and have gone along costs that add up to the distance. -/
theorem loop_free_forwarding (h : (fifo C).Reachable st) (hq : st.Quiescent C)
    (hpos : ∀ r t a, st.w.linkArc C r t a → 0 < a) (htotal : st.w.total C < inf) :
    ∀ r i, 1 ≤ r ∧ r ≤ C.n → 1 ≤ i ∧ i ≤ C.n → (∃ x, Walk (st.w.linkArc C) r i x) →
      ∃ path, Forwards C st.w i r path ((st.w.dv r).d r i) ∧ path.Nodup := by
  rintro r i hr hi ⟨x, hx⟩
  obtain ⟨lo, lossySt, href, hinv⟩ := netInv_fifo h
  have hsync := synced_fifo h
  have hown := hinv.own_eq href hr i
  have hlt := hq.own_lt hsync hinv href htotal hi hx
  obtain ⟨path, hpath, hnodup, -⟩ := hq.forwards hsync href hinv hpos hi
    ((st.w.dv r).own i).toNat hr hlt (Int.self_le_toNat _)
  rw [hown]
  exact ⟨path, hpath, hnodup⟩

theorem loop_free_forwarding_pair :
    ∃ path, Forwards pairCabling pairFifo.w 2 1 path 5 ∧ path.Nodup := by
  have hpos : ∀ r t a, pairFifo.w.linkArc pairCabling r t a → 0 < a := by
    intro r t a h
    obtain ⟨p, hp⟩ := linkArc_port h
    have hsome : (pairCabling.port r t).isSome := by simp [hp]
    obtain ⟨rfl, -⟩ := h
    rcases pairCabling_port hsome with ⟨rfl, rfl⟩ | ⟨rfl, rfl⟩ <;> decide
  have hwalk : ∃ x, Walk (pairFifo.w.linkArc pairCabling) 1 2 x :=
    ⟨5, .single ⟨by decide, by decide⟩⟩
  exact loop_free_forwarding pairFifo_reachable pairFifo_quiescent hpos (by decide) 1 2 (by decide)
    (by decide) hwalk

end Forwarding
end NetworkingLabs.Routing
