import NetworkingLabs.RouterBlocks
import NetworkingLabs.RouterNetwork

/-!
# Address translation and the exit router

Which router a packet leaves at is decided by the table of all external blocks, by the longest
prefix. Whether a router translates the addresses is decided by its own block alone.
-/
namespace NetworkingLabs.Routing
open TransitionSystem

section SetUp

/-- The routers after any number of calls of `router_init`, the n-th of which gets the ID n. -/
inductive SetUp : Routers → Prop
  | start (routers : ℕ → Router) : SetUp ⟨routers, 0, 0, fun _ => 0, []⟩
  | init {w : Routers} (h : SetUp w) (externalPort : ℤ) (external available : Option (IPAddr × ℕ))
      (range : IPAddr × IPAddr) (address : List IPAddr) (table : List ExIPMatcher)
      (hrange : ExternalRange external range) (hpool : AvailablePool available address)
      (htable : RegistersRange (w.shared.totRouterNum + 1) external range
        w.shared.externalIPTable table) :
      SetUp ⟨Function.update w.routers (w.shared.totRouterNum + 1)
          (.init (w.shared.totRouterNum + 1) externalPort range.1 range.2 address),
        { w.shared with
          totRouterNum := w.shared.totRouterNum + 1
          externalIPTable := table }⟩

def exits : TransitionSystem Routers (ℕ × ℤ × Packet) where
  init := SetUp
  enabled w call := 1 ≤ call.1 ∧ call.1 ≤ w.shared.totRouterNum
  next w call := (w.call call.1 call.2.1 call.2.2).1

end SetUp

section Invariant

structure ExitInv (w : Routers) : Prop where
  routerID : ∀ r, 1 ≤ r ∧ r ≤ w.shared.totRouterNum → (w.routers r).routerID = r
  leases : ∀ r, 1 ≤ r ∧ r ≤ w.shared.totRouterNum →
    ∃ ipMin ipMax l k, Represents l k (w.routers r) ∧ Stock ipMin ipMax l
  sorted : w.shared.externalIPTable.Pairwise fun a b => b.musk ≤ a.musk
  outside : ∀ m ∈ w.shared.externalIPTable, ∀ ip, m.matchIP ip → isInternalIP ip = false
  ids : ∀ m ∈ w.shared.externalIPTable, m.id ≤ w.shared.totRouterNum
  own : ∀ r, 1 ≤ r ∧ r ≤ w.shared.totRouterNum → ∀ m ∈ w.shared.externalIPTable, m.id = r →
    ∀ ip, (w.routers r).isExternalIP ip → m.matchIP ip

variable {w : Routers} {r : ℕ} {inPort : ℤ} {pk : Packet}

/-- A router without available addresses manages an empty stock. -/
theorem represents_available {available : Option (IPAddr × ℕ)} {address : List IPAddr}
    (h : AvailablePool available address) (routerID : ℕ) (externalPort : ℤ) (exMin exMax : IPAddr) :
    ∃ ipMin ipMax l k, Represents l k (.init routerID externalPort exMin exMax address) ∧
      Stock ipMin ipMax l := by
  cases available with
  | none =>
    obtain rfl : address = [] := h
    refine ⟨1, 0, .unleased [] List.nodup_nil, 0, ⟨rfl, rfl, rfl⟩, ?_⟩
    intro ip
    rw [Leases.managed_unleased]
    simp only [List.not_mem_nil, false_iff]
    rintro ⟨h0, -, hle⟩
    exact h0 (BitVec.le_zero_iff.mp hle)
  | some block =>
    obtain ⟨l, k, hl⟩ := represents_init (cidr_le block) h routerID externalPort exMin exMax
    exact ⟨_, _, l, k, hl⟩

theorem ExitInv.register (h : ExitInv w) {externalPort : ℤ}
    {external available : Option (IPAddr × ℕ)} {range : IPAddr × IPAddr}
    {address : List IPAddr} {table : List ExIPMatcher}
    (hrange : ExternalRange external range) (hpool : AvailablePool available address)
    (htable : RegistersRange (w.shared.totRouterNum + 1) external range
      w.shared.externalIPTable table) :
    ExitInv ⟨Function.update w.routers (w.shared.totRouterNum + 1)
        (.init (w.shared.totRouterNum + 1) externalPort range.1 range.2 address),
      { w.shared with
        totRouterNum := w.shared.totRouterNum + 1
        externalIPTable := table }⟩ := by
  have hold : ∀ y, y ≠ w.shared.totRouterNum + 1 → 1 ≤ y ∧ y ≤ w.shared.totRouterNum + 1 →
      1 ≤ y ∧ y ≤ w.shared.totRouterNum := by omega
  refine ⟨?_, ?_, registers_sorted htable h.sorted, ?_, ?_, ?_⟩
  · exact forall_update (p := fun r (R : Router) => R.routerID = r) rfl
      fun y hy hr => h.routerID y (hold y hy hr)
  · exact forall_update
      (p := fun _ R => ∃ ipMin ipMax l k, Represents l k R ∧ Stock ipMin ipMax l)
      (represents_available hpool _ _ _ _) fun y hy hr => h.leases y (hold y hy hr)
  · intro m hm ip hmatch
    rcases mem_registers hrange htable hm with hm | ⟨block, hblock, rfl, rfl⟩
    · exact h.outside m hm ip hmatch
    · obtain ⟨hlo, hhi⟩ := (matchIP_iff_range hblock.1.1).mp hmatch
      exact hblock.2 ip hlo hhi
  · intro m hm
    rcases mem_registers hrange htable hm with hm | ⟨block, -, -, rfl⟩
    · exact (h.ids m hm).trans (Nat.le_succ _)
    · exact le_rfl
  · apply forall_update (p := fun r (R : Router) => ∀ m ∈ table, m.id = r → ∀ ip,
      R.isExternalIP ip → m.matchIP ip)
    · intro m hm hid ip hext
      rcases mem_registers hrange htable hm with hm | ⟨block, hblock, rfl, rfl⟩
      · have hle := h.ids m hm
        omega
      · apply (matchIP_iff_range hblock.1.1).mpr
        have hends := (Bool.and_eq_true _ _).mp hext
        exact ⟨of_decide_eq_true hends.1, of_decide_eq_true hends.2⟩
    · intro y hy hr m hm hid ip hext
      rcases mem_registers hrange htable hm with hm | ⟨block, -, -, rfl⟩
      · exact h.own y (hold y hy hr) m hm hid ip hext
      · exact absurd hid.symm hy

private theorem exitInv_setUp (h : SetUp w) : ExitInv w := by
  induction h with
  | start routers =>
    have hnone : ∀ r, ¬ (1 ≤ r ∧ r ≤ 0) := by omega
    exact ⟨fun r hr => absurd hr (hnone r), fun r hr => absurd hr (hnone r), List.Pairwise.nil,
      by simp, by simp, fun r hr => absurd hr (hnone r)⟩
  | init h externalPort external available range address table hrange hpool htable ih =>
    exact ih.register hrange hpool htable

theorem ExitInv.call (h : ExitInv w) (hr : 1 ≤ r ∧ r ≤ w.shared.totRouterNum) (inPort : ℤ)
    (pk : Packet) : ExitInv (w.call r inPort pk).1 := by
  obtain ⟨hid, -, hrange, -⟩ := router_fixed (w.routers r) w.shared inPort pk
  refine ⟨?_, ?_, ?_, ?_, ?_, ?_⟩
  · rw [call_totRouterNum]
    exact forall_update (p := fun x (R : Router) => R.routerID = x) (hid.trans (h.routerID r hr))
      fun y _ hy => h.routerID y hy
  · rw [call_totRouterNum]
    apply forall_update
      (p := fun _ R => ∃ ipMin ipMax l k, Represents l k R ∧ Stock ipMin ipMax l)
    · obtain ⟨ipMin, ipMax, l, k, hrep, hstock⟩ := h.leases r hr
      exact ⟨ipMin, ipMax, hrep.router hstock w.shared inPort pk⟩
    · exact fun y _ hy => h.leases y hy
  · rw [call_externalIPTable]
    exact h.sorted
  · rw [call_externalIPTable]
    exact h.outside
  · rw [call_externalIPTable, call_totRouterNum]
    exact h.ids
  · rw [call_externalIPTable, call_totRouterNum]
    apply forall_update (p := fun x (R : Router) => ∀ m ∈ w.shared.externalIPTable, m.id = x →
      ∀ ip, R.isExternalIP ip → m.matchIP ip)
    · rw [hrange]
      exact h.own r hr
    · exact fun y _ hy => h.own y hy

private theorem exitInv_exits (h : exits.Reachable w) : ExitInv w :=
  h.invariant (P := ExitInv) (fun _ hw => exitInv_setUp hw)
    fun _ call hw hcall => hw.call hcall call.2.1 call.2.2

end Invariant

section Exit

variable {w : Routers} {R : Router} {sh : Shared} {r : ℕ} {inPort : ℤ} {pk : Packet}

/-- A call translates nothing, or the router is the one that the longest prefix leads to and the
packet leaves at its external port. -/
def AtExit (R : Router) (sh : Shared) (inPort : ℤ) (pk : Packet) : Prop :=
  ((R.router sh inPort pk).packet = pk ∧
    (R.router sh inPort pk).router.host2ExternIP = R.host2ExternIP ∧
    (R.router sh inPort pk).router.externIP2Host = R.externIP2Host ∧
    (R.router sh inPort pk).router.address.filter (· ≠ 0) = R.address.filter (· ≠ 0)) ∨
  (sh.exIPMatchRouter (ipRev pk.dst) = some R.routerID ∧
    (∃ m, sh.LongestPrefix (ipRev pk.dst) m ∧ m.id = R.routerID) ∧
    (R.router sh inPort pk).ret = some R.externalPort)

/-- The packet is for the router's own block, but a longer prefix leads elsewhere, and there is
something to translate: an address the host has, other than the one that is in the packet, or one
that is free. -/
def Misled (R : Router) (sh : Shared) (inPort : ℤ) (pk : Packet) : Prop :=
  R.Outbound inPort pk ∧ sh.exIPMatchRouter (ipRev pk.dst) ≠ some R.routerID ∧
  ((∃ ip, R.host2ExternIP (ipRev pk.src) = some ip ∧ ipRev ip ≠ pk.src) ∨
    R.host2ExternIP (ipRev pk.src) = none ∧ ∃ ip address, R.address = ip :: address ∧ ip ≠ 0)

private theorem router_inside_packet (hbody : pk.body = .data) (hport : inPort ≠ R.externalPort)
    (h : ¬ R.Outbound inPort pk) : (R.router sh inPort pk).packet = pk := by
  rw [router_data hbody]
  simp only [Router.onData, if_neg hport]
  split_ifs with h1 h2 h3 h4
  · rfl
  · rfl
  · exact absurd ⟨hbody, h1, hport, h2, h3⟩ h
  · exact absurd ⟨hbody, h1, hport, h2, h3⟩ h
  · rfl

private theorem send_exit {ip : IPAddr} (hext : isInternalIP ip = false)
    (h : sh.exIPMatchRouter ip = some R.routerID) : R.send sh ip = some R.externalPort := by
  simp [Router.send, hext, h]

theorem ExitInv.internal_of_match (h : ExitInv w) {ip : IPAddr} {id : ℕ}
    (hmatch : w.shared.exIPMatchRouter ip = some id) : isInternalIP ip = false := by
  obtain ⟨m, ⟨hm, hmip, -⟩, -⟩ := exIPMatchRouter_longest h.sorted hmatch
  exact h.outside m hm ip hmip

/-- At the router that the longest prefix leads to, a packet that is sent on leaves outside. -/
theorem ExitInv.atExit_of_match (h : ExitInv w)
    (hmatch : w.shared.exIPMatchRouter (ipRev pk.dst) = some (w.routers r).routerID)
    (hret : ((w.routers r).router w.shared inPort pk).ret =
      (w.routers r).send w.shared (ipRev pk.dst)) :
    AtExit (w.routers r) w.shared inPort pk := by
  right
  refine ⟨hmatch, exIPMatchRouter_longest h.sorted hmatch, ?_⟩
  rw [hret]
  exact send_exit (h.internal_of_match hmatch) hmatch

theorem ExitInv.atExit_mapped (h : ExitInv w) (hout : (w.routers r).Outbound inPort pk)
    {ip : IPAddr} (hmap : (w.routers r).host2ExternIP (ipRev pk.src) = some ip)
    (hback : (w.routers r).externIP2Host ip = some (ipRev pk.src)) (hip : ip ≠ 0) :
    AtExit (w.routers r) w.shared inPort pk ↔ ¬ Misled (w.routers r) w.shared inPort pk := by
  have hcall := router_outbound_mapped w.shared hout hmap hback hip
  constructor
  · rintro hat ⟨-, hne, htranslate⟩
    rcases hat with ⟨hsame, -⟩ | ⟨hself, -⟩
    · rw [hcall] at hsame
      have hsrc : ipRev ip = pk.src := congrArg Packet.src hsame
      rcases htranslate with ⟨ip', hmap', hsrc'⟩ | ⟨hnone, -⟩
      · rw [hmap] at hmap'
        cases hmap'
        exact hsrc' hsrc
      · rw [hmap] at hnone
        cases hnone
    · exact hne hself
  · intro hmis
    by_cases hmatch : w.shared.exIPMatchRouter (ipRev pk.dst) = some (w.routers r).routerID
    · exact h.atExit_of_match hmatch (by rw [hcall])
    · have hsrc : ipRev ip = pk.src := by
        by_contra hsrc
        exact hmis ⟨hout, hmatch, Or.inl ⟨ip, hmap, hsrc⟩⟩
      left
      rw [hcall]
      refine ⟨?_, rfl, rfl, rfl⟩
      rw [hsrc]

private theorem atExit_exhausted (sh : Shared) (hout : R.Outbound inPort pk)
    (hmap : R.host2ExternIP (ipRev pk.src) = none) (hzero : (alloc R.address).1 = 0) :
    AtExit R sh inPort pk ∧ ¬ Misled R sh inPort pk := by
  constructor
  · left
    rw [router_outbound_exhausted sh hout hmap hzero]
    refine ⟨rfl, rfl, rfl, ?_⟩
    cases haddr : R.address with
    | nil => rfl
    | cons ip address =>
      rw [haddr] at hzero
      have hip : ip = 0 := hzero
      simp [hip]
  · rintro ⟨-, -, ⟨ip, hsome, -⟩ | ⟨-, ip, address, haddr, hip⟩⟩
    · rw [hmap] at hsome
      cases hsome
    · rw [haddr] at hzero
      exact hip hzero

theorem ExitInv.atExit_fresh (h : ExitInv w) (hout : (w.routers r).Outbound inPort pk)
    (hmap : (w.routers r).host2ExternIP (ipRev pk.src) = none) {ip : IPAddr}
    {address : List IPAddr} (haddr : (w.routers r).address = ip :: address) (hip : ip ≠ 0) :
    AtExit (w.routers r) w.shared inPort pk ↔ ¬ Misled (w.routers r) w.shared inPort pk := by
  have hcall := router_outbound_fresh w.shared hout hmap haddr hip
  constructor
  · rintro hat ⟨-, hne, -⟩
    rcases hat with ⟨-, hhosts, -⟩ | ⟨hself, -⟩
    · have hsome := congrFun hhosts (ipRev pk.src)
      rw [hcall, hmap] at hsome
      simp at hsome
    · exact hne hself
  · intro hmis
    have hmatch : w.shared.exIPMatchRouter (ipRev pk.dst) = some (w.routers r).routerID := by
      by_contra hmatch
      exact hmis ⟨hout, hmatch, Or.inr ⟨hmap, ip, address, haddr, hip⟩⟩
    exact h.atExit_of_match hmatch (by rw [hcall])

/-- Every DATA packet from inside, in every state that the routers can get into: the translation
is the exit router's, unless the router is misled. -/
theorem nat_at_exit_iff (h : exits.Reachable w) (hr : 1 ≤ r ∧ r ≤ w.shared.totRouterNum)
    (hbody : pk.body = .data) (hport : inPort ≠ (w.routers r).externalPort) :
    AtExit (w.routers r) w.shared inPort pk ↔ ¬ Misled (w.routers r) w.shared inPort pk := by
  have hinv := exitInv_exits h
  obtain ⟨ipMin, ipMax, l, k, hrep, hstock⟩ := hinv.leases r hr
  by_cases hout : (w.routers r).Outbound inPort pk
  · cases hmap : (w.routers r).host2ExternIP (ipRev pk.src) with
    | some ip =>
      have ha : l.table (ipRev pk.src) = some ip := by rw [← hrep.hosts, hmap]
      have hback : (w.routers r).externIP2Host ip = some (ipRev pk.src) := by
        rw [hrep.externs]
        exact l.table.eq_some_iff.mpr ha
      exact hinv.atExit_mapped hout hmap hback ((hstock ip).mp (Or.inr ⟨_, ha⟩)).1
    | none =>
      by_cases hzero : (alloc (w.routers r).address).1 = 0
      · obtain ⟨hat, hmis⟩ := atExit_exhausted w.shared hout hmap hzero
        exact ⟨fun _ => hmis, fun _ => hat⟩
      · cases haddr : (w.routers r).address with
        | nil =>
          rw [haddr] at hzero
          exact absurd rfl hzero
        | cons ip address =>
          rw [haddr] at hzero
          exact hinv.atExit_fresh hout hmap haddr hzero
  · refine ⟨fun _ hmis => hout hmis.1, fun _ => Or.inl ?_⟩
    rw [router_data_router hbody hout]
    exact ⟨router_inside_packet hbody hport hout, rfl, rfl, rfl⟩

/-- Blocks that do not meet mislead no router that has one. -/
theorem nat_at_exit_of_disjoint (h : exits.Reachable w)
    (hdisjoint : ∀ m ∈ w.shared.externalIPTable, ∀ m' ∈ w.shared.externalIPTable, ∀ ip,
      m.matchIP ip → m'.matchIP ip → m = m')
    (hr : 1 ≤ r ∧ r ≤ w.shared.totRouterNum) (hown : ∃ m ∈ w.shared.externalIPTable, m.id = r) :
    ¬ Misled (w.routers r) w.shared inPort pk := by
  rintro ⟨hout, hne, -⟩
  have hinv := exitInv_exits h
  obtain ⟨m, hm, hid⟩ := hown
  have hmatch := hinv.own r hr m hm hid _ hout.2.2.2.1
  apply hne
  rw [hinv.routerID r hr, ← hid, Shared.exIPMatchRouter]
  cases hfind : w.shared.externalIPTable.find? (·.matchIP (ipRev pk.dst)) with
  | none => exact absurd hmatch (List.find?_eq_none.mp hfind m hm)
  | some m' =>
    have hmatch' : m'.matchIP (ipRev pk.dst) = true := by simpa using List.find?_some hfind
    rw [hdisjoint m' (List.mem_of_find?_eq_some hfind) m hm _ hmatch' hmatch]
    rfl

/-- Router 1 has 20.0.0.0/8 outside and 30.0.0.0/30 to give, router 2 has 20.1.0.0/16. -/
def nestedRouters : Routers where
  routers := Function.update (Function.update (fun _ => .init 0 0 0 0 []) 1
    (.init 1 2 0x14000000 0x14ffffff
      [0x1e000003, 0x1e000002, 0x1e000001, 0x1e000000, 0, 0, 0, 0])) 2
    (.init 2 2 0x14010000 0x1401ffff [])
  shared := ⟨2, 0, fun _ => 0, [⟨2, 0x14010000, 0xffff0000⟩, ⟨1, 0x14000000, 0xff000000⟩]⟩

private theorem externalBlock_of_lt {block : IPAddr × ℕ} (hlen : 1 ≤ block.2 ∧ block.2 ≤ 32)
    (hlt : internalIPMax < (CIDR2IP block).1) : ExternalBlock block := by
  refine ⟨hlen, fun ip hlo _ => ?_⟩
  have hnot : ¬ ip ≤ internalIPMax := by
    rw [BitVec.le_def] at hlo ⊢
    rw [BitVec.lt_def] at hlt
    omega
  simp [isInternalIP, hnot]

private theorem nestedRouters_setUp : SetUp nestedRouters := by
  have hpool : AvailablePool (some (0x1e000000, 30))
      [0x1e000003, 0x1e000002, 0x1e000001, 0x1e000000, 0, 0, 0, 0] := by
    show addrAllocInit _ _ = _
    decide +kernel
  have h1 := SetUp.init (.start fun _ => .init 0 0 0 0 []) 2 (some (0x14000000, 8))
    (some (0x1e000000, 30)) (0x14000000, 0x14ffffff) _ [⟨1, 0x14000000, 0xff000000⟩]
    ⟨externalBlock_of_lt (by decide) (by decide), by decide⟩ hpool ⟨by decide, by decide⟩
  exact h1.init 2 (some (0x14010000, 16)) none (0x14010000, 0x1401ffff) []
    [⟨2, 0x14010000, 0xffff0000⟩, ⟨1, 0x14000000, 0xff000000⟩]
    ⟨externalBlock_of_lt (by decide) (by decide), by decide⟩ rfl ⟨by decide, by decide⟩

def packetNested : Packet := ⟨0x0100000a, 0x05000114, .data⟩

theorem nat_away_from_exit : ¬ ∀ w, exits.Reachable w → ∀ r inPort pk,
    1 ≤ r ∧ r ≤ w.shared.totRouterNum → pk.body = .data → inPort ≠ (w.routers r).externalPort →
    AtExit (w.routers r) w.shared inPort pk := by
  intro hall
  have hat := hall nestedRouters (.init nestedRouters_setUp) 1 3 packetNested (by decide) rfl
    (by decide)
  rcases hat with ⟨hsame, -⟩ | ⟨hself, -⟩
  · exact absurd hsame (by decide)
  · exact absurd hself (by decide)

theorem nat_at_exit_iff_nested :
    AtExit (nestedRouters.routers 1) nestedRouters.shared 3 packetNested ↔
      ¬ Misled (nestedRouters.routers 1) nestedRouters.shared 3 packetNested :=
  nat_at_exit_iff (.init nestedRouters_setUp) (by decide) rfl (by decide)

end Exit
end NetworkingLabs.Routing
