import NetworkingLabs.RouterFlooding
import NetworkingLabs.RouterNat

/-!
# The indices of forwarding

The destination router of a DATA packet comes from the table of external blocks, where -1 stands
for none, or from the map of hosts, where 0 does; its next hop comes from `nextRouter`. Each is the
index of a later access.
-/
namespace NetworkingLabs.Routing
open TransitionSystem

section Lookups

def maxn : ℤ := 100

/-- An access to one of the two arrays, with its index. -/
inductive Lookup
  | nextRouter (i : ℤ)
  | routerID2Port (i : ℤ)
  deriving DecidableEq

def Lookup.index : Lookup → ℤ
  | .nextRouter i | .routerID2Port i => i

def Lookup.InTable (l : Lookup) : Prop := 0 ≤ l.index ∧ l.index < maxn

instance (l : Lookup) : Decidable l.InTable := inferInstanceAs (Decidable (_ ∧ _))

/-- The accesses towards another router, the last of them for the port that is returned. -/
def Router.forwardLookups (R : Router) (dstRouterID : ℕ) : List Lookup :=
  let nextRouter := R.dv.findNextRouter dstRouterID
  .nextRouter dstRouterID ::
    if nextRouter = 0 then []
    else if R.routerID2Port nextRouter = 0 then [.routerID2Port nextRouter]
    else [.routerID2Port nextRouter, .routerID2Port nextRouter]

def Router.sendLookups (R : Router) (sh : Shared) (dstIP : IPAddr) : List Lookup :=
  if isInternalIP dstIP then
    let dstRouterID := sh.host2Router dstIP
    if dstRouterID = R.routerID then [] else R.forwardLookups dstRouterID
  else match sh.exIPMatchRouter dstIP with
    | some dstRouterID =>
      if dstRouterID = R.routerID then [] else R.forwardLookups dstRouterID
    -- nothing is defined after the first access
    | none => [.nextRouter (-1)]

/-- The destination after the translation of addresses, unless the packet is answered before. -/
def Router.sentTo (R : Router) (inPort : ℤ) (pk : Packet) : Option IPAddr :=
  let dstIP := ipRev pk.dst
  if dstIP = 0 then none
  else if inPort = R.externalPort then R.externIP2Host dstIP
  else if R.isExternalIP dstIP then
    if R.externalPort = 0 then none
    else if (R.pickExternIP (ipRev pk.src)).1 = 0 then none
    else some dstIP
  else some dstIP

def Router.dataLookups (R : Router) (sh : Shared) (inPort : ℤ) (pk : Packet) : List Lookup :=
  (R.sentTo inPort pk).elim [] (R.sendLookups sh)

variable {tot r i : ℕ} {R : Router} {sh : Shared} {inPort : ℤ} {pk : Packet} {ip : IPAddr}
  {w : Routers}

private theorem onData_ret (R : Router) (sh : Shared) (inPort : ℤ) (pk : Packet) :
    (∀ ip, R.sentTo inPort pk = some ip → (R.onData sh inPort pk).ret = R.send sh ip) ∧
    (R.sentTo inPort pk = none → (R.onData sh inPort pk).ret ≠ none) := by
  simp only [Router.sentTo, Router.onData]
  split_ifs with h1 h2 h3 h4 h5
  · simp
  · cases R.externIP2Host (ipRev pk.dst) <;> simp
  · simp
  · simp
  · refine ⟨?_, False.elim⟩
    intro ip h
    obtain rfl := Option.some.inj h
    rfl
  · refine ⟨?_, False.elim⟩
    intro ip h
    obtain rfl := Option.some.inj h
    rfl

def Shared.Known (sh : Shared) (ip : IPAddr) : Prop :=
  isInternalIP ip ∨ ∃ m ∈ sh.externalIPTable, m.matchIP ip

instance (sh : Shared) (ip : IPAddr) : Decidable (sh.Known ip) :=
  inferInstanceAs (Decidable (_ ∨ _))

theorem not_known_iff :
    ¬ sh.Known ip ↔ isInternalIP ip = false ∧ sh.exIPMatchRouter ip = none := by
  simp [Shared.Known, Shared.exIPMatchRouter, List.find?_eq_none]

private theorem index_forwardLookups {dstRouterID : ℕ} {l : Lookup}
    (h : l ∈ R.forwardLookups dstRouterID) :
    l.index = dstRouterID ∨ l.index = R.dv.nextRouter dstRouterID := by
  unfold Router.forwardLookups at h
  rcases List.mem_cons.mp h with rfl | h
  · exact Or.inl rfl
  · right
    split_ifs at h
    · simp at h
    · obtain rfl := List.mem_singleton.mp h
      rfl
    · obtain rfl | rfl := List.mem_pair.mp h <;> rfl

/-- Known addresses are inside, or some entry matches. -/
theorem Shared.Known.cases (h : sh.Known ip) : isInternalIP ip = true ∨
    isInternalIP ip = false ∧ ∃ m ∈ sh.externalIPTable, sh.exIPMatchRouter ip = some m.id := by
  cases hint : isInternalIP ip with
  | true => exact Or.inl rfl
  | false =>
    right
    have hmatch : sh.exIPMatchRouter ip ≠ none := fun hnone => not_known_iff.mpr ⟨hint, hnone⟩ h
    obtain ⟨id, hid⟩ := Option.ne_none_iff_exists'.mp hmatch
    obtain ⟨m, hm, rfl⟩ := Option.map_eq_some_iff.mp hid
    exact ⟨rfl, m, List.mem_of_find?_eq_some hm, hid⟩

/-- The accesses for a known address are those towards some router. -/
theorem sendLookups_of_known (h : sh.Known ip) :
    R.sendLookups sh ip = [] ∨ R.sendLookups sh ip = R.forwardLookups (sh.host2Router ip) ∨
      ∃ m ∈ sh.externalIPTable, R.sendLookups sh ip = R.forwardLookups m.id := by
  rcases h.cases with hint | ⟨hext, m, hm, hid⟩
  · simp only [Router.sendLookups, hint, if_true]
    split_ifs
    · exact Or.inl rfl
    · exact Or.inr (Or.inl rfl)
  · simp only [Router.sendLookups, hext, Bool.false_eq_true, if_false, hid]
    split_ifs
    · exact Or.inl rfl
    · exact Or.inr (Or.inr ⟨m, hm, rfl⟩)

private theorem send_of_known (h : sh.Known ip) : R.send sh ip ≠ none := by
  rcases h.cases with hint | ⟨hext, m, -, hid⟩
  · simp only [Router.send, hint, if_true]
    split_ifs <;> simp
  · simp only [Router.send, hext, Bool.false_eq_true, if_false, hid]
    split_ifs <;> simp

/-- For an address outside that no block matches the first access is at index -1. -/
theorem sendLookups_of_not_known (h : ¬ sh.Known ip) :
    R.sendLookups sh ip = [.nextRouter (-1)] ∧ R.send sh ip = none := by
  obtain ⟨hext, hmatch⟩ := not_known_iff.mp h
  simp [Router.sendLookups, Router.send, hext, hmatch]

end Lookups

section Directory

structure Directory (w : Routers) : Prop where
  hosts : ∀ ip, w.shared.host2Router ip ≤ w.shared.totRouterNum
  table : ∀ m ∈ w.shared.externalIPTable, m.id ≤ w.shared.totRouterNum

variable {tot me r i : ℕ} {R : Router} {sh : Shared} {inPort : ℤ} {pk : Packet} {ip : IPAddr}
  {w : Routers} {lst : ℤ}

private theorem router_host2Router (R : Router) (sh : Shared) (inPort : ℤ) (pk : Packet)
    (ip : IPAddr) : (R.router sh inPort pk).shared.host2Router ip = sh.host2Router ip ∨
      (R.router sh inPort pk).shared.host2Router ip = R.routerID := by
  obtain ⟨src, dst, body⟩ := pk
  cases body with
  | addHost port hostIP =>
    by_cases hip : ip = hostIP
    · simp [Router.router, hip]
    · simp [Router.router, hip]
  | data =>
    obtain ⟨-, hshared, -⟩ := onData_kept R sh inPort ⟨src, dst, .data⟩
    left
    simp only [Router.router, hshared]
  | dv rid version row =>
    left
    simp only [Router.router, Router.onDV]
    split_ifs <;> rfl
  | portValueChange port value =>
    left
    simp only [Router.router, Router.onPortValueChange]
    split_ifs <;> rfl
  | triggerDVSend | releaseNATItem => exact Or.inl rfl

theorem Directory.call (h : Directory w) (hid : (w.routers r).routerID ≤ w.shared.totRouterNum)
    (inPort : ℤ) (pk : Packet) : Directory (w.call r inPort pk).1 := by
  refine ⟨?_, ?_⟩
  · intro ip
    rw [call_totRouterNum]
    rcases router_host2Router (w.routers r) w.shared inPort pk ip with hip | hip
    · exact hip.trans_le (h.hosts ip)
    · exact hip.trans_le hid
  · rw [call_totRouterNum, call_externalIPTable]
    exact h.table

private theorem installed_ids {blocks : List (ℕ × IPAddr × ℕ)} (h : Installed w blocks) :
    (∀ ip, w.shared.host2Router ip = 0) ∧ ∀ x ∈ blocks, x.1 ≤ w.shared.totRouterNum := by
  induction h with
  | start routers => exact ⟨fun _ => rfl, nofun⟩
  | routerInit h externalPort external available range address table hlen hrange hpool htable ih =>
    refine ⟨ih.1, ?_⟩
    intro x hx
    rcases List.mem_append.mp hx with hx | hx
    · exact (ih.2 x hx).trans (Nat.le_succ _)
    · obtain ⟨block, -, rfl⟩ := List.mem_map.mp hx
      exact le_rfl

private theorem installed_directory {blocks : List (ℕ × IPAddr × ℕ)} (h : Installed w blocks) :
    Directory w := by
  obtain ⟨hhosts, hids⟩ := installed_ids h
  refine ⟨fun ip => (hhosts ip).trans_le (Nat.zero_le _), ?_⟩
  intro m hm
  obtain ⟨x, hx, rfl⟩ := List.mem_map.mp (h.tabled.entries.mem_iff.mp hm)
  exact hids x hx

theorem directory_of_reachable (h : routerCalls.Reachable w) : Directory w := by
  have hboth : RoutersInv w ∧ Directory w := by
    apply h.invariant (P := fun w => RoutersInv w ∧ Directory w)
    · rintro w ⟨blocks, hw⟩
      exact ⟨routersInv_installed hw, installed_directory hw⟩
    · rintro w ⟨r, inPort, pk⟩ ⟨hinv, hdir⟩ ⟨hr, hpk⟩
      exact ⟨hinv.call hr hpk, hdir.call ((hinv r hr).routerID.trans_le hr.2) inPort pk⟩
  exact hboth.2

end Directory

section InTables

variable {tot me r i : ℕ} {R : Router} {sh : Shared} {inPort : ℤ} {pk : Packet} {ip : IPAddr}
  {w : Routers} {lst : ℤ}

/-- The accesses towards any of fewer than 100 routers stay in the arrays. -/
theorem RouterInv.inTable_forwardLookups (h : RouterInv tot r R) (htot : tot < 100)
    (hi : i ≤ tot) : ∀ l ∈ R.forwardLookups i, l.InTable := by
  intro l hl
  have hnext := h.hops i
  simp only [Lookup.InTable, maxn]
  rcases index_forwardLookups hl with hindex | hindex <;> rw [hindex] <;> omega

/-- Every access is in its array, so there is an answer, and the addresses outside that no block
matches go to the controller. -/
def ForwardsInTables (R : Router) (sh : Shared) (inPort : ℤ) (pk : Packet) : Prop :=
  (∀ l ∈ R.dataLookups sh inPort pk, l.InTable) ∧ (R.router sh inPort pk).ret ≠ none ∧
  ∀ ip, R.sentTo inPort pk = some ip → isInternalIP ip = false → sh.exIPMatchRouter ip = none →
    (R.router sh inPort pk).ret = some 1

/-- The packet is answered before its destination is looked up, or the destination is known: the
host behind the address, for a packet from outside, and else the address in the packet. -/
def Covered (R : Router) (sh : Shared) (inPort : ℤ) (pk : Packet) : Prop :=
  let dstIP := ipRev pk.dst
  dstIP = 0 ∨
  (inPort = R.externalPort ∧ ∀ host, R.externIP2Host dstIP = some host → sh.Known host) ∨
  (inPort ≠ R.externalPort ∧
    (sh.Known dstIP ∨
      R.isExternalIP dstIP ∧ (R.externalPort = 0 ∨ (R.pickExternIP (ipRev pk.src)).1 = 0)))

theorem covered_iff : Covered R sh inPort pk ↔
    ∀ ip, R.sentTo inPort pk = some ip → sh.Known ip := by
  simp only [Covered, Router.sentTo]
  -- one case for each way through the translation
  split_ifs with h1 h2 h3 h4 h5 <;> grind

/-- Forwarding stays within its tables exactly for the packets that are covered. -/
theorem forwardsInTables_iff (h : routerCalls.Reachable w) (htot : w.shared.totRouterNum < 100)
    (hr : 1 ≤ r ∧ r ≤ w.shared.totRouterNum) (hbody : pk.body = .data) :
    ForwardsInTables (w.routers r) w.shared inPort pk ↔
      Covered (w.routers r) w.shared inPort pk := by
  have hinv := routersInv_of_reachable h r hr
  have hdir := directory_of_reachable h
  rw [covered_iff, ForwardsInTables, Router.dataLookups]
  constructor
  · rintro ⟨hin, -⟩ ip hip
    by_contra hknown
    rw [hip, Option.elim_some, (sendLookups_of_not_known hknown).1] at hin
    exact absurd (hin _ List.mem_cons_self) (by decide)
  · intro hknown
    obtain ⟨hsent, hanswered⟩ := onData_ret (w.routers r) w.shared inPort pk
    refine ⟨?_, ?_, ?_⟩
    · cases hip : (w.routers r).sentTo inPort pk with
      | none => exact nofun
      | some ip =>
        rw [Option.elim_some]
        rcases sendLookups_of_known (R := w.routers r) (hknown ip hip) with
          he | he | ⟨m, hm, he⟩ <;> rw [he]
        · exact nofun
        · exact hinv.inTable_forwardLookups htot (hdir.hosts ip)
        · exact hinv.inTable_forwardLookups htot (hdir.table m hm)
    · rw [router_data hbody]
      cases hip : (w.routers r).sentTo inPort pk with
      | none => exact hanswered hip
      | some ip =>
        rw [hsent ip hip]
        exact send_of_known (hknown ip hip)
    · intro ip hip hext hmatch
      exact absurd (hknown ip hip) (not_known_iff.mpr ⟨hext, hmatch⟩)

def strayData : Packet := ⟨0, 0x08080808, .data⟩

/-- No block is registered, and the first access is to the entry -1. -/
theorem strayData_outside : ∃ w, routerCalls.Reachable w ∧ w.shared.totRouterNum = 1 ∧
    strayData.body = .data ∧ ¬ ForwardsInTables (w.routers 1) w.shared 2 strayData := by
  refine ⟨plainRouters 1, .init ⟨[], installed_plain 1⟩, rfl, rfl, ?_⟩
  intro h
  exact absurd (h.1 (.nextRouter (-1)) (by decide)) (by decide)

/-- DATA for 10.0.0.1, a host that no router has. -/
theorem forwardsInTables_unknownHost :
    ForwardsInTables ((plainRouters 1).routers 1) (plainRouters 1).shared 2
      ⟨0, 0x0100000a, .data⟩ := by
  have hreach : routerCalls.Reachable (plainRouters 1) := .init ⟨[], installed_plain 1⟩
  refine (forwardsInTables_iff hreach (by decide) (by decide) rfl).mpr ?_
  exact Or.inr (Or.inr ⟨by decide, Or.inl (Or.inl (by decide))⟩)

end InTables

end NetworkingLabs.Routing
