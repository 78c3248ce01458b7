import NetworkingLabs.RouterFlooding

/-!
# Links and the ports they leave by

A router keeps which router was last heard at a port, and at which port a router was last heard.
The metric of a neighbour follows the first of these maps, its traffic the second.
-/
namespace NetworkingLabs.Routing
open TransitionSystem

section Metrics

/-- Every link that is up is as long as the port that the packets over it leave by. -/
def Router.Metrics (tot : ℕ) (R : Router) : Prop :=
  ∀ t, 1 ≤ t ∧ t ≤ tot → t ≠ R.routerID → R.dv.c t < inf →
    R.portLen (R.routerID2Port t) = some (R.dv.c t)

def Routers.Metrics (w : Routers) : Prop :=
  ∀ r, 1 ≤ r ∧ r ≤ w.shared.totRouterNum → (w.routers r).Metrics w.shared.totRouterNum

/-- Where both maps agree about a port, or the lengths are the same anyway. -/
structure Router.Settled (tot : ℕ) (R : Router) (port value : ℤ) : Prop where
  others : ∀ t, 1 ≤ t ∧ t ≤ tot → t ≠ R.routerID → t ≠ R.port2RouterID port →
    R.routerID2Port t = port → R.dv.c t < inf → R.dv.c t = value
  peer : R.port2RouterID port ≠ 0 → DV.linkLen value < inf →
    R.routerID2Port (R.port2RouterID port) = port ∨
      R.portLen (R.routerID2Port (R.port2RouterID port)) = some value

def Settles (w : Routers) (call : ℕ × ℤ × Packet) : Prop :=
  match call.2.2.body with
  | .portValueChange port value => (w.routers call.1).Settled w.shared.totRouterNum port value
  | _ => True

variable {r rid t : ℕ} {lst value version port : ℤ} {R : Router} {sh : Shared} {inPort : ℤ}
  {pk : Packet} {row : List ℤ} {w : Routers}

private theorem linkLen_of_ne (h : value ≠ -1) : DV.linkLen value = value := if_neg h

private theorem ne_of_linkLen_lt (h : DV.linkLen value < inf) : value ≠ -1 := by
  rintro rfl
  exact lt_irrefl _ h

/-- A DV packet sets both maps and the metric at once. -/
theorem Router.Metrics.onDV (hm : R.Metrics sh.totRouterNum)
    (h : RouterInv sh.totRouterNum r R) :
    (R.onDV sh inPort pk rid version row).router.Metrics sh.totRouterNum := by
  by_cases hne : rid = R.routerID
  · simp only [Router.onDV, if_pos hne]
    exact hm
  · have hneDV : rid ≠ R.dv.routerID := by rwa [h.dvID, ← h.routerID]
    have hneEdge : rid ≠ (R.edgeOf sh inPort rid).1.routerID :=
      (DV.updateC_routerID _ _ _ hneDV).symm ▸ hneDV
    have hc : (R.vecOf sh inPort rid version row).1.c =
        Function.update R.dv.c rid (DV.linkLen (R.lenOf inPort)) :=
      (DV.updateDVFrom_c _ hneEdge _ _).trans (DV.updateC_c _ hneDV _)
    rw [(onDV_spec sh inPort pk version row hne).1]
    intro t ht htne hup
    simp only [hc] at hup ⊢
    by_cases hrid : t = rid
    · rw [hrid, Function.update_self] at hup ⊢
      rw [Function.update_self]
      have hopen := ne_of_linkLen_lt hup
      rw [linkLen_of_ne hopen]
      unfold Router.lenOf at hopen ⊢
      cases hport : R.portLen inPort with
      | none => simp [hport] at hopen
      | some len => rfl
    · rw [Function.update_of_ne hrid] at hup ⊢
      rw [Function.update_of_ne hrid]
      exact hm t ht htne hup

/-- What the command does to what the metrics depend on. -/
theorem onPortValueChange_fields (h : RouterInv sh.totRouterNum r R)
    (port value : ℤ) :
    (R.onPortValueChange sh port value).1.routerID = R.routerID ∧
    (R.onPortValueChange sh port value).1.routerID2Port = R.routerID2Port ∧
    (R.onPortValueChange sh port value).1.portLen = Function.update R.portLen port (some value) ∧
    ∀ t, 1 ≤ t → (R.onPortValueChange sh port value).1.dv.c t =
      if t = R.port2RouterID port then DV.linkLen value else R.dv.c t := by
  by_cases hhost : R.port2RouterID port = 0
  · rw [onPortValueChange_host sh value hhost]
    refine ⟨rfl, rfl, rfl, ?_⟩
    intro t ht
    rw [hhost, if_neg (Nat.ne_of_gt ht)]
  · have hne : R.port2RouterID port ≠ R.dv.routerID := by
      rw [h.dvID]
      exact (h.peers port).1
    rw [onPortValueChange_link sh value rfl hhost]
    refine ⟨rfl, rfl, rfl, ?_⟩
    intro t _
    rw [DV.updateC_c _ hne]
    by_cases ht : t = R.port2RouterID port
    · rw [if_pos ht, ht, Function.update_self]
    · rw [if_neg ht, Function.update_of_ne ht]

/-- The command keeps the metrics exactly at settled ports. -/
theorem metrics_onPortValueChange (h : RouterInv sh.totRouterNum r R)
    (hm : R.Metrics sh.totRouterNum) :
    (R.onPortValueChange sh port value).1.Metrics sh.totRouterNum ↔
      R.Settled sh.totRouterNum port value := by
  obtain ⟨hid, hports, hlens, hc⟩ := onPortValueChange_fields h port value
  unfold Router.Metrics
  rw [hid, hports, hlens]
  constructor
  · intro hm'
    refine ⟨?_, ?_⟩
    · intro t ht hne hpeer hport hup
      have hct := (hc t ht.1).trans (if_neg hpeer)
      have hlen := hm' t ht hne (by rwa [hct])
      rw [hct, hport, Function.update_self] at hlen
      exact (Option.some.inj hlen).symm
    · intro hpeer hup
      obtain ⟨hne, hle⟩ := h.peers port
      have hpos : 1 ≤ R.port2RouterID port := Nat.pos_of_ne_zero hpeer
      have hct := (hc _ hpos).trans (if_pos rfl)
      have hlen := hm' _ ⟨hpos, hle⟩ (h.routerID.symm ▸ hne) (by rwa [hct])
      rw [hct, linkLen_of_ne (ne_of_linkLen_lt hup)] at hlen
      by_cases hport : R.routerID2Port (R.port2RouterID port) = port
      · exact Or.inl hport
      · rw [Function.update_of_ne hport] at hlen
        exact Or.inr hlen
  · intro hs t ht hne hup
    rw [hc t ht.1] at hup ⊢
    by_cases hpeer : t = R.port2RouterID port
    · rw [if_pos hpeer] at hup ⊢
      rw [linkLen_of_ne (ne_of_linkLen_lt hup)]
      by_cases hport : R.routerID2Port t = port
      · rw [hport, Function.update_self]
      · rw [Function.update_of_ne hport, hpeer]
        rw [hpeer] at hport
        exact (hs.peer (by omega) hup).resolve_left hport
    · rw [if_neg hpeer] at hup ⊢
      by_cases hport : R.routerID2Port t = port
      · rw [hport, Function.update_self, hs.others t ht hne hpeer hport hup]
      · rw [Function.update_of_ne hport]
        exact hm t ht hne hup

/-- A call at one router keeps its metrics unless it is a command for a port that is not settled. -/
theorem metrics_router (h : RouterInv sh.totRouterNum r R) (inPort : ℤ)
    (hpk : pk.WellFormed sh.totRouterNum) (hm : R.Metrics sh.totRouterNum) :
    (R.router sh inPort pk).router.Metrics sh.totRouterNum ↔
      match pk.body with
      | .portValueChange port value => R.Settled sh.totRouterNum port value
      | _ => True := by
  have hplain : pk.body.Plain → (R.router sh inPort pk).router.Metrics sh.totRouterNum := by
    intro hbody
    obtain ⟨hdv, hid, -, hports, hlens, -⟩ := router_plain R sh inPort hbody
    unfold Router.Metrics
    rw [hdv, hid, hports, hlens]
    exact hm
  obtain ⟨src, dst, body⟩ := pk
  cases body with
  | dv rid version row => exact iff_of_true (hm.onDV h) trivial
  | portValueChange port value => exact metrics_onPortValueChange h hm
  | triggerDVSend => exact iff_of_true hm trivial
  | data | releaseNATItem | addHost => exact iff_of_true (hplain trivial) trivial

theorem Routers.Metrics.call_iff (hm : w.Metrics) (h : RoutersInv w) {call : ℕ × ℤ × Packet}
    (hcall : routerCalls.enabled w call) :
    (routerCalls.next w call).Metrics ↔ Settles w call := by
  obtain ⟨r, inPort, pk⟩ := call
  obtain ⟨hr, hpk⟩ := hcall
  have hlocal : ((w.routers r).router w.shared inPort pk).router.Metrics w.shared.totRouterNum ↔
      Settles w (r, inPort, pk) := metrics_router (h r hr) inPort hpk (hm r hr)
  have hnext : routerCalls.next w (r, inPort, pk) = (w.call r inPort pk).1 := rfl
  rw [← hlocal, hnext, Routers.Metrics, call_totRouterNum]
  constructor
  · intro hall
    have hat := hall r hr
    simpa only [Routers.call, Function.update_self] using hat
  · intro hat
    exact forall_update (p := fun _ (R : Router) => R.Metrics w.shared.totRouterNum) hat
      fun x _ hx => hm x hx

private theorem metrics_init {externalPort : ℤ} {ipMin ipMax : IPAddr} {address : List IPAddr}
    (tot : ℕ) : (Router.init r externalPort ipMin ipMax address).Metrics tot := by
  intro t _ hne hup
  have hinf : Function.update (fun _ => inf) r 0 t = inf := Function.update_of_ne hne _ _
  exact absurd hinf hup.ne

private theorem metrics_installed {blocks : List (ℕ × IPAddr × ℕ)} (h : Installed w blocks) :
    w.Metrics := by
  intro r hr
  obtain ⟨externalPort, ipMin, ipMax, address, hinit⟩ := installed_init h r hr
  rw [hinit]
  exact metrics_init _

/-- In a run the metrics are right throughout if and only if every command comes for a settled
port. -/
theorem metrics_throughout_iff {blocks : List (ℕ × IPAddr × ℕ)} (h : Installed w blocks)
    {calls : List (ℕ × ℤ × Packet)} (hcalls : routerCalls.Playable w calls) :
    routerCalls.Throughout Routers.Metrics w calls ↔ routerCalls.Meets Settles w calls := by
  apply hcalls.meets.throughout_iff_meets (I := fun w => RoutersInv w ∧ w.Metrics)
  · exact fun _ hw => hw.2
  · rintro w call ⟨hinv, hm⟩ hcall hsettles
    exact ⟨hinv.call hcall.1 hcall.2, (hm.call_iff hinv hcall).mpr hsettles⟩
  · rintro w call ⟨hinv, hm⟩ hcall hnext
    exact (hm.call_iff hinv hcall).mp hnext
  · exact ⟨routersInv_installed h, metrics_installed h⟩

/-- Router 1 is given a port of length 5, hears router 2 there, and the length changes to 3. -/
def steadyLink : List (ℕ × ℤ × Packet) :=
  [(1, 1, ⟨0, 0, .portValueChange 2 5⟩), (1, 2, firstRow 0), (1, 1, ⟨0, 0, .portValueChange 2 3⟩)]

/-- Before the length changes, router 2 is heard at another port, of length 7. -/
def movedLink : List (ℕ × ℤ × Packet) :=
  [(1, 1, ⟨0, 0, .portValueChange 2 5⟩), (1, 2, firstRow 0),
    (1, 1, ⟨0, 0, .portValueChange 3 7⟩), (1, 3, firstRow 0),
    (1, 1, ⟨0, 0, .portValueChange 2 3⟩)]

private theorem playable_steadyLink : routerCalls.Playable (plainRouters 2) steadyLink :=
  ⟨⟨by decide, trivial⟩, ⟨by decide, wellFormed_firstRow 0⟩,
    ⟨by decide, trivial⟩, trivial⟩

private theorem playable_movedLink : routerCalls.Playable (plainRouters 2) movedLink :=
  ⟨⟨by decide, trivial⟩, ⟨by decide, wellFormed_firstRow 0⟩,
    ⟨by decide, trivial⟩, ⟨by decide, wellFormed_firstRow 0⟩,
    ⟨by decide, trivial⟩, trivial⟩

/-- The port that router 2 was heard at first is still taken for it, and its length becomes the
metric of the link over the other port. -/
theorem movedLink_unsettled : ∃ w, routerCalls.Reachable w ∧ ¬ w.Metrics := by
  have hinit : routerCalls.Reachable (plainRouters 2) := .init ⟨[], installed_plain 2⟩
  refine ⟨_, hinit.play playable_movedLink, ?_⟩
  intro h
  have hlen := h 1 (by decide) 2 (by decide) (by decide) (by decide)
  exact absurd hlen (by decide)

theorem metrics_throughout_steadyLink :
    routerCalls.Throughout Routers.Metrics (plainRouters 2) steadyLink := by
  refine (metrics_throughout_iff (installed_plain 2) playable_steadyLink).mpr ?_
  have hother : ∀ t, 1 ≤ t ∧ t ≤ 2 → t ≠ 1 → t = 2 := by omega
  refine ⟨⟨?_, by decide⟩, trivial, ⟨?_, by decide⟩, trivial⟩
  · intro t ht hne
    obtain rfl := hother t ht hne
    decide
  · intro t ht hne
    obtain rfl := hother t ht hne
    decide

end Metrics

end NetworkingLabs.Routing
