import NetworkingLabs.RouterNat
import Mathlib.Tactic.IntervalCases

/-!
# Replies find their host

What a router has given to one host stays that host's until it is released, and replies to
it come back to the same host, whatever calls lie in between.
-/
namespace NetworkingLabs.Routing
open TransitionSystem

section ByteOrder

private theorem ipRev_getLsbD (ip : IPAddr) {i : ℕ} (hi : i < 32) :
    (ipRev ip).getLsbD i = ip.getLsbD (24 - i / 8 * 8 + i % 8) := by
  simp only [ipRev, BitVec.getLsbD_or, BitVec.getLsbD_and, BitVec.getLsbD_shiftLeft,
    BitVec.getLsbD_ushiftRight]
  interval_cases i <;> simp

@[simp] theorem ipRev_ipRev (ip : IPAddr) : ipRev (ipRev ip) = ip := by
  apply BitVec.eq_of_getLsbD_eq
  intro i hi
  rw [ipRev_getLsbD _ hi, ipRev_getLsbD _ (by omega)]
  congr 1
  omega

private theorem ipRev_injective :
    Function.Injective ipRev := Function.LeftInverse.injective ipRev_ipRev

end ByteOrder

section Steps

/-- A call of `router()`: the static members it finds, the port and the packet. -/
abbrev Call := Shared × ℤ × Packet

def Router.answer (R : Router) (c : Call) : Outcome := R.router c.1 c.2.1 c.2.2

/-- What a call does to the addresses of the hosts: nothing, or one host gets an address that
no host had and its packet leaves with it, or one host loses its address. -/
inductive AddressStep (R : Router) (c : Call) : Prop
  | same (hnext : (R.answer c).router.host2ExternIP = R.host2ExternIP)
  | fresh (ip : IPAddr) (hout : R.Outbound c.2.1 c.2.2)
      (hnone : R.host2ExternIP (ipRev c.2.2.src) = none)
      (hfree : ∀ host, R.host2ExternIP host ≠ some ip)
      (hnext : (R.answer c).router.host2ExternIP =
        Function.update R.host2ExternIP (ipRev c.2.2.src) (some ip))
      (hpacket : (R.answer c).packet = { c.2.2 with src := ipRev ip })
  | release (hostIP : IPAddr) (hbody : c.2.2.body = .releaseNATItem hostIP)
      (hnext : (R.answer c).router.host2ExternIP = Function.update R.host2ExternIP hostIP none)

variable {R : Router} {c : Call} {sh : Shared} {inPort : ℤ} {pk : Packet}
  {host ip x ipMin ipMax : IPAddr} {l : Leases IPAddr IPAddr} {k : ℕ}

theorem Represents.mapped (h : Represents l k R) (hs : Stock ipMin ipMax l)
    (hmap : R.host2ExternIP host = some ip) : R.externIP2Host ip = some host ∧ ip ≠ 0 := by
  have ha : l.table host = some ip := by rw [← h.hosts, hmap]
  constructor
  · rw [h.externs]
    exact l.table.eq_some_iff.mpr ha
  · exact ((hs ip).mp (Or.inr ⟨host, ha⟩)).1

/-- A host that has an address sends with it. -/
theorem Represents.answer_mapped (h : Represents l k R) (hs : Stock ipMin ipMax l) (sh : Shared)
    (hout : R.Outbound inPort pk) (hmap : R.host2ExternIP (ipRev pk.src) = some ip) :
    R.router sh inPort pk = ⟨R, sh, { pk with src := ipRev ip }, R.send sh (ipRev pk.dst)⟩ :=
  router_outbound_mapped sh hout hmap (h.mapped hs hmap).1 (h.mapped hs hmap).2

/-- A host without an address is refused one, or gets one that no host has. -/
theorem Represents.answer_unmapped (h : Represents l k R) (hs : Stock ipMin ipMax l) (sh : Shared)
    (hout : R.Outbound inPort pk) (hmap : R.host2ExternIP (ipRev pk.src) = none) :
    ((R.router sh inPort pk).router.host2ExternIP = R.host2ExternIP ∧
      (R.router sh inPort pk).ret = some (-1)) ∨
    ∃ ip, (∀ host, R.host2ExternIP host ≠ some ip) ∧
      (R.router sh inPort pk).router.host2ExternIP =
        Function.update R.host2ExternIP (ipRev pk.src) (some ip) ∧
      (R.router sh inPort pk).packet = { pk with src := ipRev ip } := by
  cases hfree : l.free with
  | nil =>
    rw [router_outbound_exhausted sh hout hmap (h.alloc_zero hfree)]
    exact Or.inl ⟨rfl, rfl⟩
  | cons ip free =>
    have hmem : ip ∈ l.free := by simp [hfree]
    rw [router_outbound_fresh sh hout hmap (h.address_cons hfree) ((hs ip).mp (Or.inl hmem)).1]
    refine Or.inr ⟨ip, ?_, rfl, rfl⟩
    rw [h.hosts]
    exact Leases.table_ne_of_free hmem

private theorem answer_release (hbody : c.2.2.body = .releaseNATItem host) :
    (R.answer c).router.host2ExternIP = Function.update R.host2ExternIP host none := by
  simp only [Router.answer, Router.router, hbody, Router.releaseNATItem]
  cases hmap : R.host2ExternIP host with
  | none => exact (Function.update_eq_self_iff.mpr hmap.symm).symm
  | some ip => rfl

theorem Represents.addressStep (h : Represents l k R) (hs : Stock ipMin ipMax l) (c : Call) :
    AddressStep R c := by
  obtain ⟨sh, inPort, pk⟩ := c
  cases hbody : pk.body with
  | data =>
    by_cases hout : R.Outbound inPort pk
    · cases hmap : R.host2ExternIP (ipRev pk.src) with
      | some ip =>
        apply AddressStep.same
        rw [Router.answer, h.answer_mapped hs sh hout hmap]
      | none =>
        rcases h.answer_unmapped hs sh hout hmap with hsame | ⟨ip, hfree, hnext, hpacket⟩
        · exact .same hsame.1
        · exact .fresh ip hout hmap hfree hnext hpacket
    · apply AddressStep.same
      rw [Router.answer, router_data_router hbody hout]
  | releaseNATItem hostIP =>
    exact .release hostIP hbody (answer_release hbody)
  | dv rid version row =>
    apply AddressStep.same
    simp only [Router.answer, Router.router, hbody, Router.onDV]
    split_ifs <;> rfl
  | triggerDVSend =>
    apply AddressStep.same
    simp only [Router.answer, Router.router, hbody]
  | addHost port hostIP =>
    apply AddressStep.same
    simp only [Router.answer, Router.router, hbody]
  | portValueChange port value =>
    apply AddressStep.same
    simp only [Router.answer, Router.router, hbody, Router.onPortValueChange]
    split_ifs <;> rfl

theorem Represents.answer_inbound (h : Represents l k R) (hs : Stock ipMin ipMax l)
    (hmap : R.host2ExternIP host = some (ipRev pk.dst)) (hbody : pk.body = .data) :
    R.router sh R.externalPort pk = ⟨R, sh, { pk with dst := ipRev host }, R.send sh host⟩ := by
  obtain ⟨hback, hne⟩ := h.mapped hs hmap
  rw [router_data hbody]
  simp only [Router.onData, if_neg hne, if_true, hback]

theorem Represents.answer_inbound_unmapped (h : Represents l k R)
    (hfree : ∀ host, R.host2ExternIP host ≠ some (ipRev pk.dst)) (hne : ipRev pk.dst ≠ 0)
    (hbody : pk.body = .data) :
    R.router sh R.externalPort pk = ⟨R, sh, pk, some (-1)⟩ := by
  have hback : R.externIP2Host (ipRev pk.dst) = none := by
    rw [Option.eq_none_iff_forall_ne_some, h.externs]
    intro host hhost
    apply hfree host
    rw [h.hosts]
    exact l.table.eq_some_iff.mp hhost
  rw [router_data hbody]
  simp only [Router.onData, if_neg hne, if_true, hback]

end Steps

section Runs

def Router.SendsAs (R : Router) (c : Call) (host ip : IPAddr) : Prop :=
  R.Outbound c.2.1 c.2.2 ∧ ipRev c.2.2.src = host ∧ (R.answer c).ret ≠ some (-1) ∧
    (R.answer c).packet = { c.2.2 with src := ipRev ip }

def Router.Gives (R : Router) (c : Call) (host ip : IPAddr) : Prop :=
  R.host2ExternIP host ≠ some ip ∧ (R.answer c).router.host2ExternIP host = some ip

def Unreleased (host : IPAddr) (cs : List Call) : Prop :=
  ∀ c ∈ cs, c.2.2.body ≠ .releaseNATItem host

def Router.Ungiven (R : Router) (ip : IPAddr) : List Call → Prop
  | [] => True
  | c :: cs => (∀ host, ¬ R.Gives c host ip) ∧ (R.answer c).router.Ungiven ip cs

variable {R : Router} {c : Call} {cs : List Call} {host host' ip x ipMin ipMax : IPAddr}

/-- The states of one router are kept together with what they represent. -/
def Leased (ipMin ipMax : IPAddr) (R : Router) : Prop :=
  ∃ l k, Represents l k R ∧ Stock ipMin ipMax l

theorem leased_of_reachable (hmin : ipMin ≤ ipMax) (h : (natCalls ipMin ipMax).Reachable R) :
    Leased ipMin ipMax R := leases_natCalls hmin h

theorem Leased.answer (h : Leased ipMin ipMax R) (c : Call) :
    Leased ipMin ipMax (R.answer c).router := by
  obtain ⟨l, k, hR, hs⟩ := h
  exact hR.router hs c.1 c.2.1 c.2.2

theorem Leased.after (h : Leased ipMin ipMax R) (cs : List Call) :
    Leased ipMin ipMax ((natCalls ipMin ipMax).play R cs) := by
  induction cs generalizing R with
  | nil => exact h
  | cons c cs ih => exact ih (h.answer c)

theorem Leased.addressStep (h : Leased ipMin ipMax R) (c : Call) : AddressStep R c := by
  obtain ⟨l, k, hR, hs⟩ := h
  exact hR.addressStep hs c

/-- An address stays with its host until a call releases it. -/
theorem Leased.keep (h : Leased ipMin ipMax R) (hmap : R.host2ExternIP host = some x)
    (hc : c.2.2.body ≠ .releaseNATItem host) :
    (R.answer c).router.host2ExternIP host = some x := by
  cases h.addressStep c with
  | same hnext => rw [hnext, hmap]
  | fresh ip hout hnone hfree hnext hpacket =>
    have hne : host ≠ ipRev c.2.2.src := by
      rintro rfl
      rw [hnone] at hmap
      cases hmap
    rw [hnext, Function.update_of_ne hne, hmap]
  | release hostIP hbody hnext =>
    have hne : host ≠ hostIP := by
      rintro rfl
      exact hc hbody
    rw [hnext, Function.update_of_ne hne, hmap]

theorem Leased.keep_after (h : Leased ipMin ipMax R) (hmap : R.host2ExternIP host = some x)
    (hcs : Unreleased host cs) :
    ((natCalls ipMin ipMax).play R cs).host2ExternIP host = some x := by
  induction cs generalizing R with
  | nil => exact hmap
  | cons c cs ih =>
    have hstep := h.keep hmap (hcs c List.mem_cons_self)
    exact ih (h.answer c) hstep fun c' hc' => hcs c' (List.mem_cons_of_mem c hc')

/-- An address that is given to nobody stays with nobody. -/
theorem ungiven_after (hfree : ∀ host, R.host2ExternIP host ≠ some x) (hcs : R.Ungiven x cs) :
    ∀ host, ((natCalls ipMin ipMax).play R cs).host2ExternIP host ≠ some x := by
  induction cs generalizing R with
  | nil => exact hfree
  | cons c cs ih =>
    apply ih _ hcs.2
    intro host hgot
    exact hcs.1 host ⟨hfree host, hgot⟩

theorem Leased.gives (h : Leased ipMin ipMax R) (hgive : R.Gives c host x) :
    R.Outbound c.2.1 c.2.2 ∧ ipRev c.2.2.src = host ∧
      (R.answer c).packet = { c.2.2 with src := ipRev x } := by
  obtain ⟨hbefore, hafter⟩ := hgive
  cases h.addressStep c with
  | same hnext =>
    rw [hnext] at hafter
    exact absurd hafter hbefore
  | fresh ip hout hnone hfree hnext hpacket =>
    rw [hnext] at hafter
    by_cases hhost : host = ipRev c.2.2.src
    · rw [hhost, Function.update_self] at hafter
      cases hafter
      exact ⟨hout, hhost.symm, hpacket⟩
    · rw [Function.update_of_ne hhost] at hafter
      exact absurd hafter hbefore
  | release hostIP hbody hnext =>
    rw [hnext] at hafter
    by_cases hhost : host = hostIP
    · rw [hhost, Function.update_self] at hafter
      cases hafter
    · rw [Function.update_of_ne hhost] at hafter
      exact absurd hafter hbefore

theorem Leased.released (h : Leased ipMin ipMax R) (hmap : R.host2ExternIP host = some x)
    (hc : c.2.2.body = .releaseNATItem host) (host' : IPAddr) :
    (R.answer c).router.host2ExternIP host' ≠ some x := by
  rw [answer_release hc]
  by_cases hhost : host' = host
  · rw [hhost, Function.update_self]
    exact nofun
  · rw [Function.update_of_ne hhost]
    intro hmap'
    obtain ⟨l, k, hR, hs⟩ := h
    rw [hR.hosts] at hmap hmap'
    exact hhost (l.holder_unique hmap' hmap)

/-- A host that has sent with an address has it. -/
theorem Leased.sendsAs (h : Leased ipMin ipMax R) (hsend : R.SendsAs c host x) :
    (R.answer c).router.host2ExternIP host = some x := by
  obtain ⟨l, k, hR, hs⟩ := h
  obtain ⟨hout, hsrc, hret, hpacket⟩ := hsend
  subst hsrc
  have hinj : ∀ {ip}, (R.answer c).packet = { c.2.2 with src := ipRev ip } → ip = x := by
    intro ip hip
    exact ipRev_injective (congrArg Packet.src (hip.symm.trans hpacket))
  cases hmap : R.host2ExternIP (ipRev c.2.2.src) with
  | some ip =>
    have heq := hR.answer_mapped hs c.1 hout hmap
    obtain rfl := hinj (congrArg Outcome.packet heq)
    rw [Router.answer, heq]
    exact hmap
  | none =>
    rcases hR.answer_unmapped hs c.1 hout hmap with hsame | ⟨ip, hfree, hnext, hip⟩
    · exact absurd hsame.2 hret
    · obtain rfl := hinj hip
      rw [Router.answer, hnext, Function.update_self]

end Runs

section RoundTrip

/-- Every packet of `host` that leaves does so with the source `ip`, at the external port where
the outside network is this router's. -/
def Router.AlwaysSendsAs (R : Router) (host ip : IPAddr) : Prop :=
  ∀ sh inPort pk, R.Outbound inPort pk → ipRev pk.src = host →
    (R.router sh inPort pk).packet = { pk with src := ipRev ip } ∧
    (isInternalIP (ipRev pk.dst) = false → sh.exIPMatchRouter (ipRev pk.dst) = some R.routerID →
      (R.router sh inPort pk).ret = some R.externalPort)

def Router.RepliesReach (R : Router) (ip host : IPAddr) : Prop :=
  ∀ sh pk, pk.body = .data → ipRev pk.dst = ip →
    (R.router sh R.externalPort pk).packet = { pk with dst := ipRev host } ∧
    (R.router sh R.externalPort pk).ret = R.send sh host

def Router.DropsReplies (R : Router) (ip : IPAddr) : Prop :=
  ∀ sh pk, pk.body = .data → ipRev pk.dst = ip →
    (R.router sh R.externalPort pk).packet = pk ∧
    (R.router sh R.externalPort pk).ret = some (-1)

variable {R : Router} {host ip x ipMin ipMax : IPAddr}

theorem Leased.alwaysSendsAs (h : Leased ipMin ipMax R) (hmap : R.host2ExternIP host = some x) :
    R.AlwaysSendsAs host x := by
  intro sh inPort pk hout hsrc
  obtain ⟨l, k, hR, hs⟩ := h
  rw [hR.answer_mapped hs sh hout (by rw [hsrc, hmap])]
  refine ⟨rfl, ?_⟩
  intro hdst hmatch
  simp [Router.send, hdst, hmatch]

theorem Leased.repliesReach (h : Leased ipMin ipMax R) (hmap : R.host2ExternIP host = some x) :
    R.RepliesReach x host := by
  intro sh pk hbody hdst
  obtain ⟨l, k, hR, hs⟩ := h
  rw [hR.answer_inbound hs (by rw [hdst, hmap]) hbody]
  exact ⟨rfl, rfl⟩

theorem Leased.dropsReplies (h : Leased ipMin ipMax R) (hx : x ≠ 0)
    (hfree : ∀ host, R.host2ExternIP host ≠ some x) : R.DropsReplies x := by
  intro sh pk hbody hdst
  obtain ⟨l, k, hR, hs⟩ := h
  rw [hR.answer_inbound_unmapped (by rwa [hdst]) (by rwa [hdst]) hbody]
  exact ⟨rfl, rfl⟩

/-- Once a packet of a host has left with an address, the host keeps it and replies to it reach
the host, until it is released. From then on replies are dropped until a call gives the address
to some host, with a packet of that host that leaves with it, and then they reach that host. -/
theorem nat_round_trip (hmin : ipMin ≤ ipMax) (h : (natCalls ipMin ipMax).Reachable R)
    {first : Call} (hfirst : R.SendsAs first host x) {cs : List Call} (hcs : Unreleased host cs) :
    let R₁ := (natCalls ipMin ipMax).play R (first :: cs)
    R₁.AlwaysSendsAs host x ∧ R₁.RepliesReach x host ∧
    ∀ release : Call, release.2.2.body = .releaseNATItem host →
      ∀ cs₂, (R₁.answer release).router.Ungiven x cs₂ →
        let R₂ := (natCalls ipMin ipMax).play R₁ (release :: cs₂)
        R₂.DropsReplies x ∧
        ∀ c host₂, R₂.Gives c host₂ x →
          (R₂.Outbound c.2.1 c.2.2 ∧ ipRev c.2.2.src = host₂ ∧
            (R₂.answer c).packet = { c.2.2 with src := ipRev x }) ∧
          ∀ cs₃, Unreleased host₂ cs₃ →
            ((natCalls ipMin ipMax).play R₂ (c :: cs₃)).RepliesReach x host₂ := by
  have hlease := leased_of_reachable hmin h
  have hgot := hlease.sendsAs hfirst
  have hlease₁ := (hlease.answer first).after cs
  have hkept := (hlease.answer first).keep_after hgot hcs
  refine ⟨hlease₁.alwaysSendsAs hkept, hlease₁.repliesReach hkept, ?_⟩
  intro release hrelease cs₂ hungiven
  have hx : x ≠ 0 := by
    obtain ⟨l, k, hR, hs⟩ := hlease₁
    exact (hR.mapped hs hkept).2
  have hfree : ∀ host', ((natCalls ipMin ipMax).play _ cs₂).host2ExternIP host' ≠ some x :=
    ungiven_after (hlease₁.released hkept hrelease) hungiven
  have hlease₂ := (hlease₁.answer release).after cs₂
  refine ⟨hlease₂.dropsReplies hx hfree, ?_⟩
  intro c host₂ hgive
  refine ⟨hlease₂.gives hgive, ?_⟩
  intro cs₃ hcs₃
  have hlease₃ := (hlease₂.answer c).after cs₃
  exact hlease₃.repliesReach ((hlease₂.answer c).keep_after hgive.2 hcs₃)

/-- 10.0.0.1 sends, is released, and 10.0.0.2 sends. -/
def callOut : Call := (noShared, 3, packetOut)
def callRelease : Call := (noShared, 1, ⟨0, 0, .releaseNATItem 0x0a000001⟩)
def callOut₂ : Call := (noShared, 3, { packetOut with src := 0x0200000a })

theorem nat_round_trip_twoAddresses : ((natCalls 0x1e000001 0x1e000002).play twoAddresses
    [callOut, callRelease, callOut₂]).RepliesReach 0x1e000002 0x0a000002 := by
  have hfirst : twoAddresses.SendsAs callOut 0x0a000001 0x1e000002 := by
    refine ⟨by decide, by decide, by decide, by decide⟩
  have hnone : Unreleased 0x0a000001 [] := List.forall_mem_nil _
  have hrun := nat_round_trip (by decide) (.init twoAddresses_init) hfirst hnone
  have hafter := hrun.2.2 callRelease rfl [] trivial
  exact (hafter.2 callOut₂ 0x0a000002 (by constructor <;> decide)).2 [] (List.forall_mem_nil _)

end RoundTrip

end NetworkingLabs.Routing
