import NetworkingLabs.RouterInstall
import NetworkingLabs.RouterLocal

/-!
# Which DV packets a router passes on

All routers, called in any order with any well-formed packets at any ports, and with any lengths
for the ports. What is kept whatever the lengths: who a router is, that it is at distance 0 from
itself, and that its hops and the routers behind its ports exist.
-/
namespace NetworkingLabs.Routing
open TransitionSystem

section Calls

/-- Packets as routers and the controller make them; the length of a port may be any number. -/
def Packet.WellFormed (tot : ℕ) (pk : Packet) : Prop :=
  match pk.body with
  | .dv rid _ row => (1 ≤ rid ∧ rid ≤ tot) ∧ row.length = tot ∧ ∀ x ∈ row, 0 ≤ x ∧ x ≤ inf
  | .data | .triggerDVSend | .releaseNATItem _ | .portValueChange _ _ | .addHost _ _ => True

def routerCalls : TransitionSystem Routers (ℕ × ℤ × Packet) where
  init w := ∃ blocks, Installed w blocks
  enabled w call := (1 ≤ call.1 ∧ call.1 ≤ w.shared.totRouterNum) ∧
    call.2.2.WellFormed w.shared.totRouterNum
  next w call := (w.call call.1 call.2.1 call.2.2).1

structure RouterInv (tot r : ℕ) (R : Router) : Prop where
  range : 1 ≤ r ∧ r ≤ tot
  routerID : R.routerID = r
  dvID : R.dv.routerID = r
  c_self : R.dv.c r = 0
  hops : ∀ i, R.dv.nextRouter i ≤ tot
  peers : ∀ port, R.port2RouterID port ≠ r ∧ R.port2RouterID port ≤ tot

variable {tot r rid : ℕ} {lst value version : ℤ} {v : DV} {R : Router} {sh : Shared} {inPort : ℤ}
  {pk : Packet} {row : List ℤ} {w : Routers}

theorem DV.updateC_nextRouter_le (lst value : ℤ) (h : ∀ i, v.nextRouter i ≤ tot) (hid : rid ≤ tot)
    (i : ℕ) : (v.updateC tot lst rid value).1.nextRouter i ≤ tot := by
  rcases DV.updateC_cases tot lst rid value v with ⟨-, he⟩ | ⟨-, he⟩ | ⟨-, he⟩ <;> rw [he]
  · exact h i
  · exact DV.updateDV_nextRouter_le (by exact h) hid i
  · exact DV.updateDV_nextRouter_le (fun _ => Nat.zero_le _) hid i

theorem DV.updateDVFrom_nextRouter_le (exDV : ℕ → ℤ) (version : ℤ) (h : ∀ i, v.nextRouter i ≤ tot)
    (hid : rid ≤ tot) (i : ℕ) : (v.updateDVFrom tot rid exDV version).1.nextRouter i ≤ tot := by
  rcases DV.updateDVFrom_cases tot rid exDV version v with ⟨-, he⟩ | ⟨-, he⟩ | ⟨-, he⟩ <;> rw [he]
  · exact h i
  · exact DV.updateDV_nextRouter_le (by exact h) hid i
  · exact DV.updateDV_nextRouter_le (fun _ => Nat.zero_le _) hid i

/-- `updateC` for another router keeps what the vectors owe to the invariant. -/
theorem RouterInv.updateC (h : RouterInv tot r R) (lst value : ℤ) (hid : rid ≤ tot)
    (hne : rid ≠ r) :
    (R.dv.updateC tot lst rid value).1.routerID = r ∧
    (R.dv.updateC tot lst rid value).1.c r = 0 ∧
    ∀ i, (R.dv.updateC tot lst rid value).1.nextRouter i ≤ tot := by
  have hneDV : rid ≠ R.dv.routerID := h.dvID.symm ▸ hne
  refine ⟨(DV.updateC_routerID _ _ _ hneDV).trans h.dvID, ?_,
    DV.updateC_nextRouter_le lst value h.hops hid⟩
  rw [DV.updateC_c lst hneDV, Function.update_of_ne hne.symm]
  exact h.c_self

private theorem rowInRange_temdv (tot : ℕ) (hrow : ∀ x ∈ row, 0 ≤ x ∧ x ≤ inf) :
    DV.RowInRange tot (temdv tot row) := by
  intro i hi
  rw [temdv, if_pos hi, List.getD_eq_getElem?_getD]
  cases hx : row[i - 1]? with
  | none => exact ⟨le_rfl, by decide⟩
  | some x => exact hrow x (List.mem_of_getElem? hx)

theorem RouterInv.onDV (h : RouterInv sh.totRouterNum r R)
    (hid : 1 ≤ rid ∧ rid ≤ sh.totRouterNum) :
    RouterInv sh.totRouterNum r (R.onDV sh inPort pk rid version row).router := by
  by_cases hne : rid = R.routerID
  · simp only [Router.onDV, if_pos hne]
    exact h
  · have hne' : rid ≠ r := h.routerID ▸ hne
    obtain ⟨hedgeID, hself, hhops⟩ := h.updateC sh.lstChangeVersion (R.lenOf inPort) hid.2 hne'
    have hneEdge : rid ≠ (R.edgeOf sh inPort rid).1.routerID := by
      rw [Router.edgeOf, hedgeID]
      exact hne'
    rw [(onDV_spec sh inPort pk version row hne).1]
    refine ⟨h.range, h.routerID, ?_, ?_, DV.updateDVFrom_nextRouter_le _ _ hhops hid.2, ?_⟩
    · exact (DV.advances_updateDVFrom hneEdge).routerID.trans hedgeID
    · exact (congrFun (DV.updateDVFrom_c _ hneEdge _ _) r).trans hself
    · intro port
      by_cases hport : port = inPort
      · simp [hport, hne', hid.2]
      · simpa [hport] using h.peers port

theorem RouterInv.onPortValueChange (h : RouterInv sh.totRouterNum r R) (port value : ℤ) :
    RouterInv sh.totRouterNum r (R.onPortValueChange sh port value).1 := by
  by_cases hhost : R.port2RouterID port = 0
  · rw [onPortValueChange_host sh value hhost]
    exact ⟨h.range, h.routerID, h.dvID, h.c_self, h.hops, h.peers⟩
  · obtain ⟨hne, hle⟩ := h.peers port
    obtain ⟨hdvID, hself, hhops⟩ := h.updateC sh.lstChangeVersion value hle hne
    rw [onPortValueChange_link sh value rfl hhost]
    refine ⟨h.range, h.routerID, hdvID, hself, hhops, ?_⟩
    have hpos : 0 ≠ r := by
      have hr := h.range.1
      omega
    by_cases hclose : value = -1
    · simp only [if_pos hclose]
      intro port'
      by_cases hport : port' = port
      · simp [hport, hpos]
      · simpa [hport] using h.peers port'
    · simp only [if_neg hclose]
      exact h.peers

/-- A call at the router itself. -/
theorem RouterInv.router (h : RouterInv sh.totRouterNum r R) (inPort : ℤ)
    (hpk : pk.WellFormed sh.totRouterNum) :
    RouterInv sh.totRouterNum r (R.router sh inPort pk).router := by
  have hplain : pk.body.Plain → RouterInv sh.totRouterNum r (R.router sh inPort pk).router := by
    intro hbody
    obtain ⟨hdv, hid, hports, -⟩ := router_plain R sh inPort hbody
    refine ⟨h.range, hid.trans h.routerID, ?_, ?_, ?_, ?_⟩
    · rw [hdv]
      exact h.dvID
    · rw [hdv]
      exact h.c_self
    · rw [hdv]
      exact h.hops
    · rw [hports]
      exact h.peers
  obtain ⟨src, dst, body⟩ := pk
  cases body with
  | dv rid version row => exact h.onDV hpk.1
  | portValueChange port value => exact h.onPortValueChange port value
  | triggerDVSend => exact h
  | data | releaseNATItem | addHost => exact hplain trivial

def RoutersInv (w : Routers) : Prop := ∀ r, 1 ≤ r ∧ r ≤ w.shared.totRouterNum →
  RouterInv w.shared.totRouterNum r (w.routers r)

theorem RoutersInv.call (h : RoutersInv w) (hr : 1 ≤ r ∧ r ≤ w.shared.totRouterNum)
    (hpk : pk.WellFormed w.shared.totRouterNum) : RoutersInv (w.call r inPort pk).1 := by
  unfold RoutersInv
  rw [call_totRouterNum]
  exact forall_update (p := fun x R => RouterInv w.shared.totRouterNum x R)
    ((h r hr).router inPort hpk) fun x _ hx => h x hx

theorem installed_init {blocks : List (ℕ × IPAddr × ℕ)} (h : Installed w blocks) :
    ∀ r, 1 ≤ r ∧ r ≤ w.shared.totRouterNum → ∃ externalPort ipMin ipMax address,
      w.routers r = .init r externalPort ipMin ipMax address := by
  induction h with
  | start routers =>
    intro r hr
    dsimp only at hr
    omega
  | routerInit h externalPort external available range address table hlen hrange hpool htable ih =>
    refine forall_update (p := fun r R => ∃ externalPort ipMin ipMax address,
      R = Router.init r externalPort ipMin ipMax address) ⟨_, _, _, _, rfl⟩ ?_
    intro y hy hr
    exact ih y (by dsimp only at hr; omega)

theorem routersInv_installed {blocks : List (ℕ × IPAddr × ℕ)} (h : Installed w blocks) :
    RoutersInv w := by
  intro r hr
  obtain ⟨externalPort, ipMin, ipMax, address, hinit⟩ := installed_init h r hr
  rw [hinit]
  exact ⟨hr, rfl, rfl, if_pos rfl, fun _ => Nat.zero_le _,
    fun _ => ⟨(Nat.ne_of_gt hr.1).symm, Nat.zero_le _⟩⟩

theorem routersInv_of_reachable (h : routerCalls.Reachable w) : RoutersInv w := by
  apply h.invariant
  · rintro w ⟨blocks, hw⟩
    exact routersInv_installed hw
  · intro w call hw hcall
    exact hw.call hcall.1 hcall.2

end Calls

section Flooding

variable {tot r rid tgt ex : ℕ} {lst value version : ℤ} {v : DV} {R : Router} {sh : Shared}
  {inPort : ℤ} {pk : Packet} {row : List ℤ} {w : Routers}

namespace DV

def Isolated (tot : ℕ) (v : DV) : Prop := ∀ i, 1 ≤ i ∧ i ≤ tot → i ≠ v.routerID → inf ≤ v.c i

/-- `updateC` returns 0 when the link is as long as before, and then it does nothing. -/
theorem updateC_flag (tot : ℕ) (lst : ℤ) (tgt : ℕ) (value : ℤ) (v : DV) :
    (updateC tot lst tgt value v).2.2 = 0 ↔ v.c tgt = linkLen value := by
  rcases updateC_cases tot lst tgt value v with ⟨h, he⟩ | ⟨h, he⟩ | ⟨h, he⟩ <;> rw [he]
  · exact iff_of_true rfl h
  · exact iff_of_false (by simp) h.ne'
  · exact iff_of_false (by simp) h.ne

private theorem updateC_of_eq (lst : ℤ) (h : v.c tgt = linkLen value) :
    updateC tot lst tgt value v = (v, lst, 0) := if_pos h

private theorem updateDVFrom_of_false {exDV : ℕ → ℤ} (hex : ex ≠ v.routerID)
    (hle : version ≤ v.version) (h : (updateDVFrom tot ex exDV version v).2 = false) :
    (updateDVFrom tot ex exDV version v).1.version = v.version ∧
    (updateDVFrom tot ex exDV version v).1.own = v.own := by
  rcases updateDVFrom_cases tot ex exDV version v with ⟨-, he⟩ | ⟨-, he⟩ | ⟨hlt, -⟩
  · rw [he]
    exact ⟨rfl, rfl⟩
  · rw [he] at h ⊢
    rw [updateDV_of_false h]
    exact ⟨rfl, by simp [own, hex.symm]⟩
  · omega

/-- A newer row that changes nothing is one for a router without links. -/
theorem updateDVFrom_newer {exDV : ℕ → ℤ} (hself : v.c v.routerID = 0) (hid : 1 ≤ ex ∧ ex ≤ tot)
    (hex : ex ≠ v.routerID) (hrow : RowInRange tot exDV) (hlt : v.version < version) :
    (updateDVFrom tot ex exDV version v).2 = false ↔ v.Isolated tot := by
  obtain ⟨-, he⟩ : v.version < version ∧ updateDVFrom tot ex exDV version v = updateDV tot ex
      { ({ v with version := version } : DV).reset with
        d := Function.update (emptyTable v.routerID) ex exDV } := by
    rcases updateDVFrom_cases tot ex exDV version v with ⟨h, -⟩ | ⟨h, -⟩ | h
    · omega
    · omega
    · exact h
  have hown : own { ({ v with version := version } : DV).reset with
      d := Function.update (emptyTable v.routerID) ex exDV } =
        emptyTable v.routerID v.routerID := Function.update_of_ne hex.symm _ _
  have hother : ∀ i, i ≠ v.routerID → emptyTable v.routerID v.routerID i = inf :=
    fun i hi => if_neg fun h => hi h.2
  rw [he, updateDV_false, hown]
  constructor
  · intro h i hi hne
    obtain ⟨hdirect, -⟩ := h i hi
    rwa [hother i hne] at hdirect
  · intro h i hi
    have hrange := emptyTable_range v.routerID v.routerID i
    have hoffer : inf ≤ v.c ex + exDV i :=
      (h ex hid hex).trans (le_add_of_nonneg_right (hrow i hi).1)
    refine ⟨?_, ?_⟩
    · by_cases hne : i = v.routerID
      · rw [emptyTable, if_pos ⟨rfl, hne⟩, hne]
        exact hself.ge
      · exact hrange.2.trans (h i hi hne)
    · show _ ≤ v.c ex + Function.update (emptyTable v.routerID) ex exDV ex i
      rw [Function.update_self]
      exact hrange.2.trans hoffer

end DV

/-- Every change of what the router would send is sent: -1 only if there is none, and 0 with the
new ID, version and row in the packet. -/
def Flooded (R : Router) (sh : Shared) (inPort : ℤ) (pk : Packet) : Prop :=
  let out := R.router sh inPort pk
  (out.ret = some (-1) → out.router.dv.version = R.dv.version ∧
    out.router.dv.row sh.totRouterNum = R.dv.row sh.totRouterNum) ∧
  (out.ret = some 0 → out.packet.body =
    .dv out.router.dv.routerID out.router.dv.version (out.router.dv.row sh.totRouterNum))

/-- A newer version at a port that is as long as the metric of the sender says, while no link is
up: the port has no length, or one of at least `inf`. -/
def Unnoticed (tot : ℕ) (R : Router) (inPort : ℤ) (rid : ℕ) (version : ℤ) : Prop :=
  R.dv.version < version ∧ R.dv.c rid = DV.linkLen (R.lenOf inPort) ∧ R.dv.Isolated tot

private theorem vecOf_of_flag (version : ℤ) (row : List ℤ) (h : (R.edgeOf sh inPort rid).2.2 = 0) :
    R.vecOf sh inPort rid version row =
      R.dv.updateDVFrom sh.totRouterNum rid (temdv sh.totRouterNum row) version := by
  have hedge : R.edgeOf sh inPort rid = (R.dv, sh.lstChangeVersion, 0) :=
    DV.updateC_of_eq _ ((DV.updateC_flag _ _ _ _ _).mp h)
  rw [Router.vecOf, hedge]

/-- Both calls report nothing about a newer version exactly when it goes unnoticed. -/
theorem RouterInv.unnoticed_iff (h : RouterInv sh.totRouterNum r R)
    (hid : 1 ≤ rid ∧ rid ≤ sh.totRouterNum) (hne : rid ≠ R.dv.routerID)
    (hrow : ∀ x ∈ row, 0 ≤ x ∧ x ≤ inf) (hnew : R.dv.version < version) :
    Unnoticed sh.totRouterNum R inPort rid version ↔
      (R.vecOf sh inPort rid version row).2 = false ∧ (R.edgeOf sh inPort rid).2.2 = 0 := by
  have hflag : (R.edgeOf sh inPort rid).2.2 = 0 ↔ R.dv.c rid = DV.linkLen (R.lenOf inPort) :=
    DV.updateC_flag _ _ _ _ _
  have hself : R.dv.c R.dv.routerID = 0 := h.dvID.symm ▸ h.c_self
  have hvec := DV.updateDVFrom_newer hself hid hne (rowInRange_temdv _ hrow) hnew
  constructor
  · rintro ⟨-, hlen, hiso⟩
    have hedge := hflag.mpr hlen
    rw [vecOf_of_flag version row hedge]
    exact ⟨hvec.mpr hiso, hedge⟩
  · rintro ⟨hquiet, hedge⟩
    rw [vecOf_of_flag version row hedge] at hquiet
    exact ⟨hnew, hflag.mp hedge, hvec.mp hquiet⟩

/-- The version changes without the neighbours being told in exactly one case. -/
theorem flooded_iff (h : routerCalls.Reachable w) (hr : 1 ≤ r ∧ r ≤ w.shared.totRouterNum)
    (hpk : pk.WellFormed w.shared.totRouterNum) (hbody : pk.body = .dv rid version row)
    (hne : rid ≠ r) : Flooded (w.routers r) w.shared inPort pk ↔
      ¬ Unnoticed w.shared.totRouterNum (w.routers r) inPort rid version := by
  have hinv := routersInv_of_reachable h r hr
  obtain ⟨src, dst, body⟩ := pk
  obtain rfl : body = .dv rid version row := hbody
  obtain ⟨hid, -, hrow⟩ := hpk
  set R := w.routers r
  have hneR : rid ≠ R.routerID := hinv.routerID.symm ▸ hne
  have hneDV : rid ≠ R.dv.routerID := hinv.dvID.symm ▸ hne
  obtain ⟨hrouter, -, hret⟩ := onDV_spec w.shared inPort ⟨src, dst, .dv rid version row⟩ version
    row hneR
  simp only [Flooded, Router.router]
  constructor
  · rintro ⟨hquiet, -⟩ hun
    have hboth := (hinv.unnoticed_iff hid hneDV hrow hun.1).mp hun
    rcases hret with ⟨hret, -⟩ | ⟨-, hchanged, -⟩
    · -- the version has moved without notice
      have hversion := (hquiet hret).1
      rw [hrouter, vecOf_of_flag version row hboth.2] at hversion
      simp only [DV.updateDVFrom_version _ hneDV] at hversion
      have hnew := hun.1
      omega
    · exact hchanged hboth
  · intro hnoticed
    rcases hret with ⟨hret, hboth⟩ | ⟨hret, -, hpacket⟩
    · refine ⟨fun _ => ?_, fun hzero => absurd (hret.symm.trans hzero) (by decide)⟩
      have hold : version ≤ R.dv.version := by
        by_contra hnew
        exact hnoticed ((hinv.unnoticed_iff hid hneDV hrow (not_le.mp hnew)).mpr hboth)
      rw [vecOf_of_flag version row hboth.2] at hrouter hboth
      obtain ⟨hversion, hown⟩ := DV.updateDVFrom_of_false hneDV hold hboth.1
      rw [hrouter]
      refine ⟨hversion, ?_⟩
      simp only [DV.row, hown]
    · refine ⟨fun hminus => absurd (hret.symm.trans hminus) (by decide), fun _ => ?_⟩
      rw [hpacket]
      rfl

def firstRow (version : ℤ) : Packet := ⟨0, 0, .dv 2 version [inf, 0]⟩

theorem wellFormed_firstRow (version : ℤ) : (firstRow version).WellFormed 2 := by
  refine ⟨by decide, rfl, ?_⟩
  intro x hx
  rcases List.mem_pair.mp hx with rfl | rfl
  · exact ⟨by decide, le_rfl⟩
  · exact ⟨le_rfl, by decide⟩

/-- Nothing is known about the port yet. -/
theorem newVersion_unnoticed : ∃ w, routerCalls.Reachable w ∧ w.shared.totRouterNum = 2 ∧
    (firstRow 1).WellFormed 2 ∧ ¬ Flooded (w.routers 1) w.shared 2 (firstRow 1) := by
  refine ⟨plainRouters 2, .init ⟨[], installed_plain 2⟩, rfl, wellFormed_firstRow 1, ?_⟩
  intro h
  have hversion := (h.1 (by decide)).1
  exact absurd hversion (by decide)

/-- A version that is not newer. -/
theorem flooded_iff_first : Flooded ((plainRouters 2).routers 1) (plainRouters 2).shared 2
    (firstRow 0) :=
  (flooded_iff (.init ⟨[], installed_plain 2⟩) (by decide) (wellFormed_firstRow 0) rfl
    (by decide)).mpr fun h => absurd h.1 (by decide)

end Flooding

end NetworkingLabs.Routing
