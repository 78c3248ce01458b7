import NetworkingLabs.TransitionSystem
import NetworkingLabs.Leases
import NetworkingLabs.Router
import Mathlib.Algebra.Group.Nat.Defs
import Mathlib.Data.List.Count

/-!
# Address translation

The two maps of a router and its allocator are a stock of leases, whatever calls of
`router()` there are and in whatever order.
-/
namespace NetworkingLabs.Routing
open TransitionSystem

section Allocator

/-- The loop of `availAddrAllocator::Init`, which never ends for `ipMax` = 2^32 - 1. -/
def pushRange (ipMax : IPAddr) : ℕ → IPAddr → List IPAddr → Option (List IPAddr)
  | 0, _, _ => none
  | fuel + 1, ip, address =>
    if ip ≤ ipMax then pushRange ipMax fuel (ip + 1) (ip :: address) else some address

/-- `availAddrAllocator::Init`: `resize` leaves a zero for every address of the block, and the
addresses go on top. -/
def addrAllocInit (ipMin ipMax : IPAddr) : Option (List IPAddr) :=
  pushRange ipMax (2 ^ 32) ipMin (List.replicate (ipMax - ipMin + 1).toNat 0)

theorem pushRange_eq {ipMax : IPAddr} (hmax : ipMax.toNat + 1 < 2 ^ 32) (fuel : ℕ) (ip : IPAddr)
    (hip : ip.toNat ≤ ipMax.toNat + 1) (hfuel : ipMax.toNat + 1 < ip.toNat + fuel)
    (address : List IPAddr) : ∃ free, pushRange ipMax fuel ip address = some (free ++ address) ∧
      free.Nodup ∧ ∀ x, x ∈ free ↔ ip ≤ x ∧ x ≤ ipMax := by
  induction fuel generalizing ip address with
  | zero => omega
  | succ fuel ih =>
    by_cases hle : ip ≤ ipMax
    · have hle' : ip.toNat ≤ ipMax.toNat := hle
      have hnext : (ip + 1).toNat = ip.toNat + 1 := by
        rw [BitVec.toNat_add]
        exact Nat.mod_eq_of_lt (by simp; omega)
      obtain ⟨free, heq, hnodup, hmem⟩ := ih (ip + 1) (by omega) (by omega) (ip :: address)
      refine ⟨free ++ [ip], ?_, ?_, ?_⟩
      · rw [pushRange, if_pos hle, heq]
        simp
      · refine List.nodup_append.mpr ⟨hnodup, List.nodup_singleton ip, ?_⟩
        rintro x hx y hy rfl
        rw [List.mem_singleton.mp hy] at hx
        have hlt := ((hmem ip).mp hx).1
        rw [BitVec.le_def, hnext] at hlt
        omega
      · intro x
        rw [List.mem_append, hmem, List.mem_singleton]
        simp only [BitVec.le_def, hnext, ← BitVec.toNat_inj]
        omega
    · refine ⟨[], by rw [pushRange, if_neg hle]; rfl, List.nodup_nil, ?_⟩
      intro x
      simp only [List.not_mem_nil, false_iff]
      rintro ⟨h1, h2⟩
      exact hle (BitVec.le_trans h1 h2)

/-- The allocator is the nonzero addresses of the block, over zeros. -/
theorem addrAllocInit_eq {ipMin ipMax : IPAddr} (hmin : ipMin ≤ ipMax)
    (hmax : ipMax.toNat + 1 < 2 ^ 32) :
    ∃ free k, addrAllocInit ipMin ipMax = some (free ++ List.replicate k 0) ∧ free.Nodup ∧
      ∀ x, x ∈ free ↔ x ≠ 0 ∧ ipMin ≤ x ∧ x ≤ ipMax := by
  have hle : ipMin.toNat ≤ ipMax.toNat := hmin
  by_cases hzero : ipMin = 0
  · -- the address zero of the block lies on the zeros that were there before
    subst hzero
    obtain ⟨free, heq, hnodup, hmem⟩ := pushRange_eq hmax (2 ^ 32 - 1) 1 (by simp)
      (by simp; omega) (0 :: List.replicate (ipMax - 0 + 1).toNat 0)
    refine ⟨free, (ipMax - 0 + 1).toNat + 1, ?_, hnodup, ?_⟩
    · rw [List.replicate_succ, ← heq]
      rfl
    · intro x
      rw [hmem, BitVec.le_def, BitVec.le_def, BitVec.le_def, Ne, ← BitVec.toNat_inj]
      simp
      omega
  · obtain ⟨free, heq, hnodup, hmem⟩ := pushRange_eq hmax (2 ^ 32) ipMin (by omega)
      (by omega) (List.replicate (ipMax - ipMin + 1).toNat 0)
    refine ⟨free, _, heq, hnodup, ?_⟩
    intro x
    rw [hmem]
    constructor
    · rintro ⟨h1, h2⟩
      refine ⟨?_, h1, h2⟩
      rintro rfl
      exact hzero (BitVec.le_zero_iff.mp h1)
    · exact fun h => h.2

/-- Where the loop does not end, no number of rounds is enough. -/
theorem pushRange_last {ipMax : IPAddr} (hmax : ipMax.toNat + 1 = 2 ^ 32) (fuel : ℕ) (ip : IPAddr)
    (address : List IPAddr) : pushRange ipMax fuel ip address = none := by
  induction fuel generalizing ip address with
  | zero => rfl
  | succ fuel ih =>
    have hle : ip ≤ ipMax := by
      have hlt := ip.isLt
      rw [BitVec.le_def]
      omega
    rw [pushRange, if_pos hle, ih]

end Allocator

section Calls

def Router.Outbound (R : Router) (inPort : ℤ) (pk : Packet) : Prop :=
  pk.body = .data ∧ ipRev pk.dst ≠ 0 ∧ inPort ≠ R.externalPort ∧
  R.isExternalIP (ipRev pk.dst) = true ∧ R.externalPort ≠ 0

instance (R : Router) (inPort : ℤ) (pk : Packet) : Decidable (R.Outbound inPort pk) :=
  inferInstanceAs (Decidable (_ ∧ _))

variable {R : Router} {sh : Shared} {inPort : ℤ} {pk : Packet} {hostAddr ip : IPAddr}
  {address : List IPAddr}

theorem router_data (hbody : pk.body = .data) : R.router sh inPort pk = R.onData sh inPort pk := by
  simp only [Router.router, hbody]

theorem router_outbound_mapped (sh : Shared) (h : R.Outbound inPort pk)
    (hmap : R.host2ExternIP (ipRev pk.src) = some ip)
    (hback : R.externIP2Host ip = some (ipRev pk.src)) (hip : ip ≠ 0) : R.router sh inPort pk =
      ⟨R, sh, { pk with src := ipRev ip }, R.send sh (ipRev pk.dst)⟩ := by
  obtain ⟨hbody, hdst, hport, hext, hex⟩ := h
  have hself : ∀ (f : IPAddr → Option IPAddr) (x : IPAddr) {y : Option IPAddr}, f x = y →
      Function.update f x y = f := by
    intro f x y hy
    rw [← hy]
    exact Function.update_eq_self x f
  rw [router_data hbody]
  simp only [Router.onData, if_neg hdst, if_neg hport, hext, if_true, if_neg hex,
    Router.pickExternIP, hmap, if_neg hip, hself _ _ hmap, hself _ _ hback]

theorem router_outbound_exhausted (sh : Shared) (h : R.Outbound inPort pk)
    (hmap : R.host2ExternIP (ipRev pk.src) = none) (hzero : (alloc R.address).1 = 0) :
    R.router sh inPort pk = ⟨{ R with address := R.address.tail }, sh, pk, some (-1)⟩ := by
  obtain ⟨hbody, hdst, hport, hext, hex⟩ := h
  have htail : (alloc R.address).2 = R.address.tail := by cases R.address <;> rfl
  rw [router_data hbody]
  simp only [Router.onData, if_neg hdst, if_neg hport, hext, if_true, if_neg hex,
    Router.pickExternIP, hmap, hzero, htail]

theorem router_outbound_fresh (sh : Shared) (h : R.Outbound inPort pk)
    (hmap : R.host2ExternIP (ipRev pk.src) = none) (haddr : R.address = ip :: address)
    (hip : ip ≠ 0) : R.router sh inPort pk =
      ⟨{ R with
          address := address
          externIP2Host := Function.update R.externIP2Host ip (some (ipRev pk.src))
          host2ExternIP := Function.update R.host2ExternIP (ipRev pk.src) (some ip) },
        sh, { pk with src := ipRev ip }, R.send sh (ipRev pk.dst)⟩ := by
  obtain ⟨hbody, hdst, hport, hext, hex⟩ := h
  rw [router_data hbody]
  simp only [Router.onData, if_neg hdst, if_neg hport, hext, if_true, if_neg hex,
    Router.pickExternIP, hmap, haddr, alloc, if_neg hip]
  rfl

/-- DATA packets that do not leave outside change nothing in the router. -/
theorem router_data_router (hbody : pk.body = .data) (h : ¬ R.Outbound inPort pk) :
    (R.router sh inPort pk).router = R := by
  rw [router_data hbody]
  simp only [Router.onData]
  split_ifs with h1 h2 h3 h4
  · rfl
  · cases R.externIP2Host (ipRev pk.dst) <;> rfl
  · rfl
  · exact absurd ⟨hbody, h1, h2, h3, h4⟩ h
  · exact absurd ⟨hbody, h1, h2, h3, h4⟩ h
  · rfl

end Calls

section Leases

/-- The router has the table and the free addresses of `l`, over `k` zeros. -/
structure Represents (l : Leases IPAddr IPAddr) (k : ℕ) (R : Router) : Prop where
  hosts : R.host2ExternIP = l.table
  externs : R.externIP2Host = l.table.symm
  address : R.address = l.free ++ List.replicate k 0

def Stock (ipMin ipMax : IPAddr) (l : Leases IPAddr IPAddr) : Prop :=
  ∀ ip, l.Managed ip ↔ ip ≠ 0 ∧ ipMin ≤ ip ∧ ip ≤ ipMax

variable {R : Router} {sh : Shared} {inPort : ℤ} {pk : Packet} {ip ipMin ipMax : IPAddr}
  {l : Leases IPAddr IPAddr} {k : ℕ}

theorem Represents.congr (h : Represents l k R) {R' : Router}
    (h1 : R'.host2ExternIP = R.host2ExternIP) (h2 : R'.externIP2Host = R.externIP2Host)
    (h3 : R'.address = R.address) : Represents l k R' :=
  ⟨h1.trans h.hosts, h2.trans h.externs, h3.trans h.address⟩

theorem Represents.alloc_zero (h : Represents l k R) (hfree : l.free = []) :
    (alloc R.address).1 = 0 := by
  rw [h.address, hfree, List.nil_append]
  cases k <;> rfl

theorem Represents.address_cons (h : Represents l k R) {free : List IPAddr}
    (hfree : l.free = ip :: free) : R.address = ip :: (free ++ List.replicate k 0) := by
  rw [h.address, hfree, List.cons_append]

/-- `releaseNATItem` is the end of a lease, or nothing. -/
theorem Represents.release (h : Represents l k R) (hs : Stock ipMin ipMax l) (hostIP : IPAddr) :
    ∃ l', Represents l' k (R.releaseNATItem hostIP) ∧ Stock ipMin ipMax l' := by
  unfold Router.releaseNATItem
  cases hmap : R.host2ExternIP hostIP with
  | none => exact ⟨l, h, hs⟩
  | some ip =>
    have ha : l.table hostIP = some ip := by rw [← h.hosts, hmap]
    refine ⟨l.revoke hostIP ip ha, ⟨?_, ?_, ?_⟩, ?_⟩
    · show Function.update R.host2ExternIP hostIP none = _
      rw [h.hosts]
      rfl
    · show Function.update R.externIP2Host ip none = _
      rw [h.externs]
      rfl
    · show ip :: R.address = _
      rw [h.address]
      rfl
    · intro b
      rw [Leases.managed_revoke ha]
      exact hs b

/-- Of a packet that leaves, the host keeps its lease, gets one, or there is none to get. -/
theorem Represents.outbound (h : Represents l k R) (hs : Stock ipMin ipMax l) (sh : Shared)
    (hout : R.Outbound inPort pk) :
    ∃ l' k', Represents l' k' (R.router sh inPort pk).router ∧ Stock ipMin ipMax l' := by
  cases hmap : R.host2ExternIP (ipRev pk.src) with
  | some ip =>
    have ha : l.table (ipRev pk.src) = some ip := by rw [← h.hosts, hmap]
    have hback : R.externIP2Host ip = some (ipRev pk.src) := by
      rw [h.externs]
      exact l.table.eq_some_iff.mpr ha
    have hip : ip ≠ 0 := ((hs ip).mp (Or.inr ⟨_, ha⟩)).1
    rw [router_outbound_mapped sh hout hmap hback hip]
    exact ⟨l, k, h, hs⟩
  | none =>
    have ha : l.table (ipRev pk.src) = none := by rw [← h.hosts, hmap]
    cases hfree : l.free with
    | nil =>
      rw [router_outbound_exhausted sh hout hmap (h.alloc_zero hfree)]
      refine ⟨l, k - 1, ⟨h.hosts, h.externs, ?_⟩, hs⟩
      show R.address.tail = l.free ++ List.replicate (k - 1) 0
      rw [h.address, hfree, List.nil_append, List.nil_append, List.tail_replicate]
    | cons ip free =>
      have hip : ip ≠ 0 := ((hs ip).mp (Or.inl (by simp [hfree]))).1
      rw [router_outbound_fresh sh hout hmap (h.address_cons hfree) hip]
      refine ⟨l.grant (ipRev pk.src) ip free hfree ha, k, ⟨?_, ?_, rfl⟩, ?_⟩
      · show Function.update R.host2ExternIP _ _ = _
        rw [h.hosts]
        rfl
      · show Function.update R.externIP2Host _ _ = _
        rw [h.externs]
        rfl
      · intro b
        rw [Leases.managed_grant hfree ha]
        exact hs b

theorem Represents.router (h : Represents l k R) (hs : Stock ipMin ipMax l) (sh : Shared)
    (inPort : ℤ) (pk : Packet) :
    ∃ l' k', Represents l' k' (R.router sh inPort pk).router ∧ Stock ipMin ipMax l' := by
  cases hbody : pk.body with
  | data =>
    by_cases hout : R.Outbound inPort pk
    · exact h.outbound hs sh hout
    · rw [router_data_router hbody hout]
      exact ⟨l, k, h, hs⟩
  | releaseNATItem hostIP =>
    obtain ⟨l', h', hs'⟩ := h.release hs hostIP
    refine ⟨l', k, ?_, hs'⟩
    simpa only [Router.router, hbody] using h'
  | dv rid version row =>
    refine ⟨l, k, h.congr ?_ ?_ ?_, hs⟩ <;> simp only [Router.router, hbody, Router.onDV] <;>
      split_ifs <;> rfl
  | triggerDVSend =>
    refine ⟨l, k, h.congr ?_ ?_ ?_, hs⟩ <;> simp only [Router.router, hbody]
  | addHost port hostIP =>
    refine ⟨l, k, h.congr ?_ ?_ ?_, hs⟩ <;> simp only [Router.router, hbody]
  | portValueChange port value =>
    refine ⟨l, k, h.congr ?_ ?_ ?_, hs⟩ <;>
      simp only [Router.router, hbody, Router.onPortValueChange] <;> split_ifs <;> rfl

/-- A router with its available block, called in any way: at any port, with any packet, and
with whatever the other routers have made of the static members. -/
def natCalls (ipMin ipMax : IPAddr) : TransitionSystem Router (Shared × ℤ × Packet) where
  init R := ∃ routerID externalPort exMin exMax address,
    addrAllocInit ipMin ipMax = some address ∧ R = .init routerID externalPort exMin exMax address
  enabled _ _ := True
  next R call := (R.router call.1 call.2.1 call.2.2).router

theorem represents_init (hmin : ipMin ≤ ipMax) {address : List IPAddr}
    (h : addrAllocInit ipMin ipMax = some address) (routerID : ℕ) (externalPort : ℤ)
    (exMin exMax : IPAddr) : ∃ l k,
      Represents l k (.init routerID externalPort exMin exMax address) ∧ Stock ipMin ipMax l := by
  have hmax : ipMax.toNat + 1 < 2 ^ 32 := by
    by_contra hge
    have hlt := ipMax.isLt
    rw [addrAllocInit, pushRange_last (by omega)] at h
    cases h
  obtain ⟨free, k, heq, hnodup, hmem⟩ := addrAllocInit_eq hmin hmax
  rw [h] at heq
  refine ⟨.unleased free hnodup, k, ⟨rfl, rfl, Option.some.inj heq⟩, ?_⟩
  intro ip
  rw [Leases.managed_unleased]
  exact hmem ip

theorem leases_natCalls (hmin : ipMin ≤ ipMax) (h : (natCalls ipMin ipMax).Reachable R) :
    ∃ l k, Represents l k R ∧ Stock ipMin ipMax l := by
  apply h.invariant (P := fun R => ∃ l k, Represents l k R ∧ Stock ipMin ipMax l)
  · rintro R ⟨routerID, externalPort, exMin, exMax, address, haddr, rfl⟩
    exact represents_init hmin haddr routerID externalPort exMin exMax
  · rintro R call ⟨l, k, hR, hs⟩ -
    exact hR.router hs call.1 call.2.1 call.2.2

/-- An address of the block is in the allocator once, or is one host's. -/
theorem Represents.count (h : Represents l k R) (hs : Stock ipMin ipMax l) (hip : ip ≠ 0)
    (hblock : ipMin ≤ ip ∧ ip ≤ ipMax) :
    (R.address.count ip = 1 ∧ ∀ host, R.host2ExternIP host ≠ some ip) ∨
    (R.address.count ip = 0 ∧ ∃! host, R.host2ExternIP host = some ip) := by
  have hzeros : (List.replicate k (0 : IPAddr)).count ip = 0 := by
    rw [List.count_eq_zero]
    intro hmem
    exact hip (List.eq_of_mem_replicate hmem)
  rw [h.address, h.hosts, List.count_append, hzeros, Nat.add_zero]
  by_cases hfree : ip ∈ l.free
  · exact Or.inl ⟨List.count_eq_one_of_mem l.nodup hfree, Leases.table_ne_of_free hfree⟩
  · rcases (hs ip).mpr ⟨hip, hblock⟩ with hmem | ⟨host, hhost⟩
    · exact absurd hmem hfree
    · exact Or.inr ⟨List.count_eq_zero_of_not_mem hfree, host, hhost,
        fun host' hhost' => l.holder_unique hhost' hhost⟩

/-- A host without an address is refused one exactly when all have been leased. -/
theorem Represents.refused_iff (h : Represents l k R) (hs : Stock ipMin ipMax l)
    (hout : R.Outbound inPort pk) (hmap : R.host2ExternIP (ipRev pk.src) = none) :
    ((R.router sh inPort pk).ret = some (-1) ∧ (R.router sh inPort pk).packet = pk ∧
      (R.router sh inPort pk).router.host2ExternIP (ipRev pk.src) = none) ↔ l.free = [] := by
  cases hfree : l.free with
  | nil =>
    rw [router_outbound_exhausted sh hout hmap (h.alloc_zero hfree)]
    exact ⟨fun _ => rfl, fun _ => ⟨rfl, rfl, hmap⟩⟩
  | cons ip free =>
    have hip : ip ≠ 0 := ((hs ip).mp (Or.inl (by simp [hfree]))).1
    rw [router_outbound_fresh sh hout hmap (h.address_cons hfree) hip]
    simp

/-- In every state of a router whose block does not contain the address zero: the two maps are
inverse to each other, every address of the block is free once or mapped to one host, nothing
else occurs, and a packet is dropped for want of an address only when all are mapped. -/
theorem nat_partition (h0 : 0 < ipMin) (hmin : ipMin ≤ ipMax)
    (h : (natCalls ipMin ipMax).Reachable R) :
    (∀ host ip, R.host2ExternIP host = some ip ↔ R.externIP2Host ip = some host) ∧
    (∀ host host' ip, R.host2ExternIP host = some ip → R.host2ExternIP host' = some ip →
      host = host') ∧
    (∀ ip, ipMin ≤ ip ∧ ip ≤ ipMax →
      (R.address.count ip = 1 ∧ ∀ host, R.host2ExternIP host ≠ some ip) ∨
      (R.address.count ip = 0 ∧ ∃! host, R.host2ExternIP host = some ip)) ∧
    (∀ ip, ip ≠ 0 → (ip ∈ R.address ∨ ∃ host, R.host2ExternIP host = some ip) →
      ipMin ≤ ip ∧ ip ≤ ipMax) ∧
    (∀ sh inPort pk, R.Outbound inPort pk → R.host2ExternIP (ipRev pk.src) = none →
      (((R.router sh inPort pk).ret = some (-1) ∧ (R.router sh inPort pk).packet = pk ∧
        (R.router sh inPort pk).router.host2ExternIP (ipRev pk.src) = none) ↔
      ∀ ip, ipMin ≤ ip ∧ ip ≤ ipMax → ∃ host, R.host2ExternIP host = some ip)) := by
  obtain ⟨l, k, hR, hs⟩ := leases_natCalls hmin h
  have hne : ∀ ip, ipMin ≤ ip → ip ≠ 0 := by
    rintro ip hip rfl
    obtain rfl := BitVec.le_zero_iff.mp hip
    exact absurd h0 (by decide)
  refine ⟨?_, ?_, ?_, ?_, ?_⟩
  · intro host ip
    rw [hR.hosts, hR.externs]
    exact l.table.eq_some_iff.symm
  · intro host host' ip hhost hhost'
    rw [hR.hosts] at hhost hhost'
    exact l.holder_unique hhost hhost'
  · intro ip hip
    exact hR.count hs (hne ip hip.1) hip
  · intro ip hip hmem
    rw [hR.address, hR.hosts] at hmem
    refine ((hs ip).mp ?_).2
    rcases hmem with hmem | hmem
    · rcases List.mem_append.mp hmem with hmem | hmem
      · exact Or.inl hmem
      · exact absurd (List.eq_of_mem_replicate hmem) hip
    · exact Or.inr hmem
  · intro sh inPort pk hout hmap
    rw [hR.refused_iff hs hout hmap, l.free_eq_nil_iff, hR.hosts]
    constructor
    · intro hall ip hip
      exact hall ip ((hs ip).mpr ⟨hne ip hip.1, hip⟩)
    · intro hall ip hip
      exact hall ip ((hs ip).mp hip).2

def twoAddresses : Router :=
  .init 1 2 0x14000000 0x14ffffff [0x1e000002, 0x1e000001, 0, 0]

theorem twoAddresses_init : (natCalls 0x1e000001 0x1e000002).init twoAddresses :=
  ⟨1, 2, 0x14000000, 0x14ffffff, _, by decide +kernel, rfl⟩

def packetOut : Packet := ⟨0x0100000a, 0x09000014, .data⟩

def noShared : Shared := ⟨1, 0, fun _ => 0, []⟩

theorem nat_partition_twoAddresses :
    let R := (natCalls 0x1e000001 0x1e000002).play twoAddresses [(noShared, 3, packetOut)]
    (R.address.count 0x1e000002 = 1 ∧ ∀ host, R.host2ExternIP host ≠ some 0x1e000002) ∨
    (R.address.count 0x1e000002 = 0 ∧ ∃! host, R.host2ExternIP host = some 0x1e000002) := by
  have hrun : (natCalls 0x1e000001 0x1e000002).Reachable
      ((natCalls 0x1e000001 0x1e000002).play twoAddresses [(noShared, 3, packetOut)]) :=
    Reachable.play (.init twoAddresses_init) ⟨trivial, trivial⟩
  exact (nat_partition (by decide) (by decide) hrun).2.2.1 0x1e000002 (by decide)

end Leases
end NetworkingLabs.Routing
