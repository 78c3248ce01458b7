import NetworkingLabs.RouterNetwork

/-!
# Routers without an external address

`router_init` stores an external range only if there is an external address. Without one, the range
is what the memory held, and `isExternalIP` asks it all the same. Two runs are compared that differ
in nothing else.
-/
namespace NetworkingLabs.Routing
open TransitionSystem

section Unset

/-- The memory of `externalIPMin` and `externalIPMax` holds something else. -/
def Router.withRange (R : Router) (range : IPAddr × IPAddr) : Router :=
  { R with externalIPMin := range.1, externalIPMax := range.2 }

def Outcome.seen (o : Outcome) : Option ℤ × Packet := (o.ret, o.packet)

/-- A router called in any way, with whatever is in the static members at each call. -/
def calls : TransitionSystem Router (Shared × ℤ × Packet) where
  init R := ∃ (routerID : ℕ) (range : IPAddr × IPAddr) (address : List IPAddr),
    R = .init routerID 0 range.1 range.2 address
  enabled _ _ := True
  next R call := (R.router call.1 call.2.1 call.2.2).router

def seenCalls (R : Router) : List (Shared × ℤ × Packet) → List (Option ℤ × Packet)
  | [] => []
  | call :: cs =>
    (R.router call.1 call.2.1 call.2.2).seen :: seenCalls (calls.next R call) cs

def Shared.dstRouter (sh : Shared) (dstIP : IPAddr) : Option ℕ :=
  if isInternalIP dstIP then some (sh.host2Router dstIP) else sh.exIPMatchRouter dstIP

/-- The tables lead to the port -1, the number that `router()` returns for what it drops. -/
def Router.LeadsNowhere (R : Router) (sh : Shared) (dstIP : IPAddr) : Prop :=
  match sh.dstRouter dstIP with
  | none => False
  | some dstRouterID =>
    if dstRouterID = R.routerID then isInternalIP dstIP = true ∧ R.host2Port dstIP = -1
    else R.dv.findNextRouter dstRouterID ≠ 0 ∧
      R.routerID2Port (R.dv.findNextRouter dstRouterID) = -1

def SameSide (range range' : IPAddr × IPAddr) (ip : IPAddr) : Prop :=
  (range.1 ≤ ip ∧ ip ≤ range.2) ↔ (range'.1 ≤ ip ∧ ip ≤ range'.2)

instance (range range' : IPAddr × IPAddr) (ip : IPAddr) : Decidable (SameSide range range' ip) :=
  inferInstanceAs (Decidable (_ ↔ _))

/-- What was in the memory does not matter to the call: the packet is no DATA packet for another
address than 0, or comes in at the port 0, or its destination lies in both ranges or in none, or it
would be dropped anyway. -/
def Unmistaken (range range' : IPAddr × IPAddr) (R : Router) (call : Shared × ℤ × Packet) : Prop :=
  call.2.2.body = .data → ipRev call.2.2.dst ≠ 0 → call.2.1 ≠ 0 →
    SameSide range range' (ipRev call.2.2.dst) ∨ R.LeadsNowhere call.1 (ipRev call.2.2.dst)

variable {R : Router} {sh : Shared} {inPort : ℤ} {pk : Packet} {range range' : IPAddr × IPAddr}
  {ip : IPAddr}

private theorem isExternalIP_withRange (R : Router) (range : IPAddr × IPAddr) (ip : IPAddr) :
    (R.withRange range).isExternalIP ip = true ↔ range.1 ≤ ip ∧ ip ≤ range.2 := by
  rw [Router.isExternalIP, Bool.and_eq_true, decide_eq_true_eq, decide_eq_true_eq]
  rfl

private theorem forward_eq_neg_one {dstRouterID : ℕ} : R.forward dstRouterID = -1 ↔
    R.dv.findNextRouter dstRouterID ≠ 0 ∧
      R.routerID2Port (R.dv.findNextRouter dstRouterID) = -1 := by
  simp only [Router.forward]
  split_ifs with h
  · refine iff_of_false (by decide) ?_
    rintro ⟨hnext, hnone⟩
    rcases h with h | h
    · exact hnext h
    · rw [hnone] at h
      exact absurd h (by decide)
  · exact (and_iff_right fun h0 ↦ h (.inl h0)).symm

theorem leadsNowhere_iff (hport : R.externalPort = 0) :
    R.LeadsNowhere sh ip ↔ R.send sh ip = some (-1) := by
  rw [Router.LeadsNowhere, Shared.dstRouter, Router.send]
  cases hin : isInternalIP ip with
  | true =>
    simp only [if_true]
    split_ifs
    · simp
    · rw [Option.some.injEq, forward_eq_neg_one]
  | false =>
    simp only [Bool.false_eq_true, if_false]
    cases hid : sh.exIPMatchRouter ip with
    | none => simp
    | some dstRouterID =>
      simp only
      split_ifs
      · simp [hport]
      · rw [Option.some.injEq, forward_eq_neg_one]

/-- Without an external port, DATA packets leave everything as it is. -/
theorem onData_unset (hport : R.externalPort = 0) :
    (R.onData sh inPort pk).router = R ∧ (R.onData sh inPort pk).shared = sh := by
  simp only [Router.onData, hport, if_true]
  split_ifs
  · exact ⟨rfl, rfl⟩
  · cases R.externIP2Host (ipRev pk.dst) <;> exact ⟨rfl, rfl⟩
  · exact ⟨rfl, rfl⟩
  · exact ⟨rfl, rfl⟩

def Outcome.withRange (o : Outcome) (range : IPAddr × IPAddr) : Outcome :=
  { o with router := o.router.withRange range }

private theorem onDV_withRange {rid : ℕ} {version : ℤ} {row : List ℤ} :
    (R.withRange range).onDV sh inPort pk rid version row =
      (R.onDV sh inPort pk rid version row).withRange range := by
  rw [Router.onDV, Router.onDV, apply_ite (Outcome.withRange · range),
    apply_ite (Outcome.withRange · range)]
  rfl

private theorem releaseNATItem_withRange {hostIP : IPAddr} :
    (R.withRange range).releaseNATItem hostIP = (R.releaseNATItem hostIP).withRange range := by
  simp only [Router.releaseNATItem, Router.withRange]
  cases R.host2ExternIP hostIP <;> rfl

private theorem onPortValueChange_withRange {port value : ℤ} :
    (R.withRange range).onPortValueChange sh port value =
      ((R.onPortValueChange sh port value).1.withRange range,
        (R.onPortValueChange sh port value).2) := by
  by_cases hhost : R.port2RouterID port = 0
  · have hout : R.onPortValueChange sh port value = _ := if_pos hhost
    rw [hout]
    exact if_pos hhost
  · have hout : R.onPortValueChange sh port value = _ := if_neg hhost
    rw [hout]
    exact if_neg hhost

private theorem router_withRange {body : Body} (hbody : body ≠ .data) (R : Router)
    (range : IPAddr × IPAddr) (sh : Shared) (inPort : ℤ) (src dst : IPAddr) :
    (R.withRange range).router sh inPort ⟨src, dst, body⟩ =
      (R.router sh inPort ⟨src, dst, body⟩).withRange range := by
  cases body with
  | data => exact absurd rfl hbody
  | dv rid version row => exact onDV_withRange
  | triggerDVSend => rfl
  | releaseNATItem hostIP =>
    simp only [Router.router, releaseNATItem_withRange, Outcome.withRange]
  | addHost port hostIP => rfl
  | portValueChange port value =>
    simp only [Router.router, onPortValueChange_withRange, Outcome.withRange]

/-- The state and the static members evolve as they would with any other range. -/
theorem next_withRange (hport : R.externalPort = 0) (range : IPAddr × IPAddr)
    (call : Shared × ℤ × Packet) :
    calls.next (R.withRange range) call = (calls.next R call).withRange range ∧
      ((R.withRange range).router call.1 call.2.1 call.2.2).shared =
        (R.router call.1 call.2.1 call.2.2).shared := by
  obtain ⟨sh, inPort, src, dst, body⟩ := call
  by_cases hbody : body = .data
  · subst hbody
    have hport' : (R.withRange range).externalPort = 0 := hport
    obtain ⟨hR, hsh⟩ := @onData_unset R sh inPort ⟨src, dst, .data⟩ hport
    obtain ⟨hR', hsh'⟩ := @onData_unset (R.withRange range) sh inPort ⟨src, dst, .data⟩ hport'
    exact ⟨hR'.trans (congrArg (Router.withRange · range) hR.symm), hsh'.trans hsh.symm⟩
  · have hout := router_withRange hbody R range sh inPort src dst
    have hshared := congrArg Outcome.shared hout
    exact ⟨congrArg Outcome.router hout, hshared⟩

private theorem ite_eq_ite_iff {α : Type} {p q : Prop} [Decidable p] [Decidable q] {x y : α} :
    (if p then x else y) = (if q then x else y) ↔ (p ↔ q) ∨ y = x := by
  by_cases hp : p <;> by_cases hq : q <;> simp [hp, hq, eq_comm]

private theorem seen_data (hport : R.externalPort = 0) {src dst : IPAddr} (hdst : ipRev dst ≠ 0)
    (hin : inPort ≠ 0) : (R.router sh inPort ⟨src, dst, .data⟩).seen =
      (if R.isExternalIP (ipRev dst) = true then some (-1) else R.send sh (ipRev dst),
        ⟨src, dst, .data⟩) := by
  simp only [Router.router, Router.onData, hport, if_neg hdst, if_neg hin, if_true]
  split_ifs <;> rfl

/-- What is seen of other calls does not depend on the range. -/
theorem seen_withRange_of_not (hport : R.externalPort = 0) {src dst : IPAddr} {body : Body}
    (hcall : ¬ (body = .data ∧ ipRev dst ≠ 0 ∧ inPort ≠ 0)) (range : IPAddr × IPAddr) :
    ((R.withRange range).router sh inPort ⟨src, dst, body⟩).seen =
      (R.router sh inPort ⟨src, dst, body⟩).seen := by
  by_cases hbody : body = .data
  · subst hbody
    have hport' : (R.withRange range).externalPort = 0 := hport
    simp only [Router.router, Router.onData, hport, hport']
    by_cases hdst : ipRev dst = 0
    · simp only [if_pos hdst]
      rfl
    · obtain rfl : inPort = 0 := by
        by_contra hin
        exact hcall ⟨rfl, hdst, hin⟩
      simp only [if_neg hdst, if_true, Router.withRange]
      cases R.externIP2Host (ipRev dst) <;> rfl
  · rw [router_withRange hbody]
    rfl

/-- Two ranges make no difference to a call exactly if the packet is not mistaken. -/
theorem seen_withRange_iff (hport : R.externalPort = 0) (range range' : IPAddr × IPAddr)
    (call : Shared × ℤ × Packet) :
    ((R.withRange range).router call.1 call.2.1 call.2.2).seen =
        ((R.withRange range').router call.1 call.2.1 call.2.2).seen ↔
      Unmistaken range range' R call := by
  obtain ⟨sh, inPort, src, dst, body⟩ := call
  simp only [Unmistaken]
  by_cases hcall : body = .data ∧ ipRev dst ≠ 0 ∧ inPort ≠ 0
  · obtain ⟨rfl, hdst, hin⟩ := hcall
    have hR : (R.withRange range).externalPort = 0 := hport
    have hR' : (R.withRange range').externalPort = 0 := hport
    rw [seen_data hR hdst hin, seen_data hR' hdst hin, Prod.mk.injEq, and_iff_left rfl]
    have hsend : ∀ range, (R.withRange range).send sh (ipRev dst) = R.send sh (ipRev dst) :=
      fun _ ↦ rfl
    simp only [isExternalIP_withRange, hsend]
    rw [ite_eq_ite_iff, leadsNowhere_iff hport, SameSide]
    exact ⟨fun h _ _ _ ↦ h, fun h ↦ h trivial hdst hin⟩
  · rw [seen_withRange_of_not hport hcall, seen_withRange_of_not hport hcall]
    exact iff_of_true rfl fun hbody hdst hin ↦ absurd ⟨hbody, hdst, hin⟩ hcall

private theorem externalPort_next (R : Router) (call : Shared × ℤ × Packet) :
    (calls.next R call).externalPort = R.externalPort :=
  (router_fixed R call.1 call.2.1 call.2.2).2.1

/-- Two runs that differ in what was in the memory show the same exactly if no packet is
mistaken. -/
theorem seenCalls_withRange_iff (hport : R.externalPort = 0) (range range' : IPAddr × IPAddr)
    (cs : List (Shared × ℤ × Packet)) :
    seenCalls (R.withRange range) cs = seenCalls (R.withRange range') cs ↔
      calls.Meets (Unmistaken range range') R cs := by
  induction cs generalizing R with
  | nil => exact iff_of_true rfl trivial
  | cons call cs ih =>
    have hnext : (calls.next R call).externalPort = 0 := (externalPort_next R call).trans hport
    rw [seenCalls, seenCalls, List.cons.injEq, seen_withRange_iff hport,
      (next_withRange hport range call).1, (next_withRange hport range' call).1, ih hnext]
    rfl

/-- Of a router without an external address, initialised over any two memories and called in any
way, the same is seen exactly if no DATA packet is mistaken for one that is to leave. -/
theorem unset_range_iff (routerID : ℕ) (address : List IPAddr) (range range' : IPAddr × IPAddr)
    (cs : List (Shared × ℤ × Packet)) :
    seenCalls (.init routerID 0 range.1 range.2 address) cs =
        seenCalls (.init routerID 0 range'.1 range'.2 address) cs ↔
      calls.Meets (Unmistaken range range') (.init routerID 0 0 0 address) cs :=
  seenCalls_withRange_iff (R := .init routerID 0 0 0 address) rfl range range' cs

def toHost : List (Shared × ℤ × Packet) :=
  [(⟨1, 0, fun _ => 0, []⟩, 0, ⟨0, 0, .addHost 2 0x0a000001⟩),
    (⟨1, 0, fun _ => 1, []⟩, 3, ⟨0x0200000a, 0x0100000a, .data⟩)]

/-- A packet for a host is dropped if the memory held a range with its address. -/
theorem toHost_dropped : seenCalls (.init 1 0 0x0a000000 0x0affffff []) toHost ≠
    seenCalls (.init 1 0 0 0 []) toHost := by
  decide

end Unset

end NetworkingLabs.Routing
