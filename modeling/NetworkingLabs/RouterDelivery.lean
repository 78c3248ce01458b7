import NetworkingLabs.RouterConvergence
import NetworkingLabs.RouterNatRoundTrip

/-!
# Packets of hosts across the network

A packet is carried from router to router along the cables by the ports that `router()` returns.
In a settled network it reaches the host or the exit router it is for, and the replies to what
has left at an exit router come back.
-/
namespace NetworkingLabs.Routing
open WeightedWalks TransitionSystem

def Cabling.behind (C : Cabling) (r : ℕ) (p : ℤ) : Option ℕ :=
  (List.range' 1 C.n).find? fun t => C.port r t = some p

/-- What is left when a packet is not carried on: the routers, those it has visited, the packet
and what the last of them returned. -/
structure Arrival where
  w : Routers
  path : List ℕ
  packet : Packet
  ret : Option ℤ

/-- Where a packet ends up that comes to router `r` by `inPort`, if that takes no more calls than
`fuel`. -/
def carry (C : Cabling) : ℕ → Routers → ℕ → ℤ → Packet → Option Arrival
  | 0, _, _, _, _ => none
  | fuel + 1, w, r, inPort, pk =>
    let out := (w.routers r).router w.shared inPort pk
    match out.ret.bind (C.behind r) with
    | none => some ⟨(w.call r inPort pk).1, [r], out.packet, out.ret⟩
    | some t => (carry C fuel (w.call r inPort pk).1 t ((C.port t r).getD 0) out.packet).map
      fun a => { a with path := r :: a.path }

variable {C : Cabling} {st : Fifo} {w : Routers} {r t i fuel : ℕ} {p inPort : ℤ} {pk : Packet}
  {path : List ℕ} {cost : ℤ} {R : Router} {sh : Shared} {dst host : IPAddr}

section Carry

private theorem behind_port (h : C.port r t = some p) : C.behind r p = some t := by
  obtain ⟨-, ht, -⟩ := C.ids h
  cases hfind : C.behind r p with
  | none =>
    have hnone := List.find?_eq_none.mp hfind t (DV.mem_range'.mpr ht)
    exact absurd h (by simpa using hnone)
  | some u =>
    have hu : C.port r u = some p := by simpa using List.find?_some hfind
    rw [C.inj hu h]

/-- Ports below 2 lead nowhere. -/
theorem behind_low (h : p ≤ 1) : C.behind r p = none := by
  refine List.find?_eq_none.mpr fun t _ => ?_
  have hne : C.port r t ≠ some p := by
    intro hp
    have := C.proper hp
    omega
  simpa using hne

private theorem carry_stop
    (h : ((w.routers r).router w.shared inPort pk).ret.bind (C.behind r) = none) :
    carry C (fuel + 1) w r inPort pk = some ⟨(w.call r inPort pk).1, [r],
      ((w.routers r).router w.shared inPort pk).packet,
      ((w.routers r).router w.shared inPort pk).ret⟩ := by
  simp only [carry, h]

private theorem carry_hop (hret : ((w.routers r).router w.shared inPort pk).ret = some p)
    (hport : C.port r t = some p) :
    carry C (fuel + 1) w r inPort pk =
      (carry C fuel (w.call r inPort pk).1 t ((C.port t r).getD 0)
        ((w.routers r).router w.shared inPort pk).packet).map
        fun a => { a with path := r :: a.path } := by
  simp only [carry, hret, Option.bind_some, behind_port hport]

private theorem call_same (h : ((w.routers r).router w.shared inPort pk).router = w.routers r)
    (h' : ((w.routers r).router w.shared inPort pk).shared = w.shared) :
    (w.call r inPort pk).1 = w := by
  simp only [Routers.call, h, h', Function.update_eq_self]

theorem Forwards.ids (h : Forwards C w i r path cost) (hi : 1 ≤ i ∧ i ≤ C.n) :
    ∀ u ∈ path, 1 ≤ u ∧ u ≤ C.n := by
  induction h with
  | arrived =>
    intro u hu
    rwa [List.mem_singleton.mp hu]
  | hop hne hret hnext hout hport hrest ih =>
    exact List.forall_mem_cons.mpr ⟨(C.ids hport).1, ih⟩

def ExternalApart (C : Cabling) (w : Routers) : Prop :=
  ∀ r t p, C.port r t = some p → p ≠ (w.routers r).externalPort

/-- A packet that all routers but the last only pass on arrives at the last as it was. -/
theorem Forwards.carry (h : Forwards C w i r path cost) (hapart : ExternalApart C w)
    (hpk : ∀ u, (1 ≤ u ∧ u ≤ C.n) → u ≠ i → ∀ inPort, inPort ≠ (w.routers u).externalPort →
      (w.routers u).Carries w.shared inPort pk i)
    (hid : ∀ u, 1 ≤ u ∧ u ≤ C.n → (w.routers u).routerID = u)
    (hin : inPort ≠ (w.routers r).externalPort) :
    ∃ front inPort', path = front ++ [i] ∧ inPort' ≠ (w.routers i).externalPort ∧
      ∀ fuel, carry C (front.length + fuel) w r inPort pk =
        (carry C fuel w i inPort' pk).map fun a => { a with path := front ++ a.path } := by
  induction h generalizing inPort with
  | arrived => exact ⟨[], inPort, rfl, hin, fun fuel => by simp⟩
  | @hop r t p path cost hne hret hnext hout hport hrest ih =>
    obtain ⟨q, hback⟩ := C.both hport
    obtain ⟨front, inPort', rfl, hin', hrun⟩ := ih (hapart t r q hback)
    refine ⟨r :: front, inPort', rfl, hin', fun fuel => ?_⟩
    have hr := (C.ids hport).1
    have hcarries := hpk r hr hne inPort hin
    have hi : i ≠ (w.routers r).routerID := by
      rw [hid r hr]
      exact fun heq => hne heq.symm
    have hcall := router_carries hcarries hi
    have hsame : (w.call r inPort pk).1 = w := call_same (by rw [hcall]) (by rw [hcall])
    have hlen : (r :: front).length + fuel = front.length + fuel + 1 := by
      rw [List.length_cons]
      omega
    rw [hlen, carry_hop (hret inPort pk hcarries) hport, hsame, hcall, hback]
    show (Routing.carry C (front.length + fuel) w t q pk).map _ = _
    rw [hrun fuel, Option.map_map]
    rfl

/-- No router visits more routers than there are without visiting one twice. -/
theorem Forwards.length_le (h : Forwards C w i r path cost) (hi : 1 ≤ i ∧ i ≤ C.n)
    (hnodup : path.Nodup) : path.length ≤ C.n := by
  have hsub : path ⊆ List.range' 1 C.n := fun u hu => DV.mem_range'.mpr (h.ids hi u hu)
  have hle := (hnodup.subperm hsub).length_le
  rwa [List.length_range'] at hle

/-- A packet that stops at the last router of its way has been carried there by one call for
every router of it. -/
theorem Forwards.carry_stop (h : Forwards C w i r path cost) (hfuel : path.length ≤ fuel)
    (hapart : ExternalApart C w)
    (hpk : ∀ u, (1 ≤ u ∧ u ≤ C.n) → u ≠ i → ∀ inPort, inPort ≠ (w.routers u).externalPort →
      (w.routers u).Carries w.shared inPort pk i)
    (hid : ∀ u, 1 ≤ u ∧ u ≤ C.n → (w.routers u).routerID = u)
    (hin : inPort ≠ (w.routers r).externalPort)
    (hstop : ∀ inPort, inPort ≠ (w.routers i).externalPort →
      ((w.routers i).router w.shared inPort pk).ret.bind (C.behind i) = none) :
    ∃ inPort', inPort' ≠ (w.routers i).externalPort ∧
      Routing.carry C fuel w r inPort pk = some ⟨(w.call i inPort' pk).1, path,
        ((w.routers i).router w.shared inPort' pk).packet,
        ((w.routers i).router w.shared inPort' pk).ret⟩ := by
  obtain ⟨front, inPort', rfl, hin', hrun⟩ := h.carry hapart hpk hid hin
  rw [List.length_append, List.length_singleton] at hfuel
  have hn : fuel = front.length + (fuel - front.length - 1 + 1) := by omega
  refine ⟨inPort', hin', ?_⟩
  rw [hn, hrun, Routing.carry_stop (hstop inPort' hin')]
  rfl

end Carry

section Inside

theorem Fifo.Settled.forwards (h : st.Settled C) (hreach : (fifo C).Reachable st)
    (hpos : ∀ r t a, st.w.linkArc C r t a → 0 < a) (htotal : st.w.total C < inf)
    (hr : 1 ≤ r ∧ r ≤ C.n) (hi : 1 ≤ i ∧ i ≤ C.n) (hwalk : ∃ x, Walk (st.w.linkArc C) r i x) :
    ∃ path, Forwards C st.w i r path ((st.w.dv r).d r i) ∧ path.Nodup := by
  obtain ⟨x, hx⟩ := hwalk
  obtain ⟨lo, lossySt, href, hinv⟩ := netInv_fifo hreach
  have href' : (st.assumeSent C).Refines C lossySt := ⟨href.routers, href.queue⟩
  have hlt := h.quiescent.own_lt (h.synced hreach) hinv href' htotal hi hx
  obtain ⟨path, hpath, hnodup, -⟩ := h.quiescent.forwards (h.synced hreach) href' hinv hpos hi
    ((st.w.dv r).own i).toNat hr hlt (Int.self_le_toNat _)
  rw [hinv.own_eq href hr i]
  exact ⟨path, hpath, hnodup⟩

private theorem routerID_fifo (h : (fifo C).Reachable st) (hr : 1 ≤ r ∧ r ≤ C.n) :
    (st.w.routers r).routerID = r := by
  obtain ⟨lo, lossySt, href, hinv⟩ := netInv_fifo h
  rw [href.routers]
  exact (hinv.linked r hr).routerID

private theorem ne_zero_of_isInternalIP (h : isInternalIP dst = true) : dst ≠ 0 := by
  rintro rfl
  exact absurd h (by decide)

private theorem router_inside (hbody : pk.body = .data) (hint : isInternalIP (ipRev pk.dst) = true)
    (hext : R.isExternalIP (ipRev pk.dst) = false) (hin : inPort ≠ R.externalPort) :
    R.router sh inPort pk = ⟨R, sh, pk, R.send sh (ipRev pk.dst)⟩ := by
  rw [router_data hbody]
  simp only [Router.onData, if_neg (ne_zero_of_isInternalIP hint), if_neg hin, hext,
    Bool.false_eq_true, if_false]

/-- The home router of a host hands its packets over at the port of the host. -/
theorem send_home (hint : isInternalIP dst = true) (hhome : sh.host2Router dst = R.routerID) :
    R.send sh dst = some (R.host2Port dst) := by
  simp [Router.send, hint, hhome]

/-- The host of an address inside: registered at router `i`, at a port without a cable, and in
the external range of no router. -/
structure Houses (C : Cabling) (w : Routers) (i : ℕ) (host : IPAddr) : Prop where
  internal : isInternalIP host = true
  home : w.shared.host2Router host = i
  port : C.behind i ((w.routers i).host2Port host) = none
  elsewhere : ∀ u, 1 ≤ u ∧ u ≤ C.n → (w.routers u).isExternalIP host = false

theorem Houses.carries (h : Houses C w i (ipRev pk.dst)) (hbody : pk.body = .data)
    (hr : 1 ≤ r ∧ r ≤ C.n) (hin : inPort ≠ (w.routers r).externalPort) :
    (w.routers r).Carries w.shared inPort pk i := by
  refine ⟨hbody, ne_zero_of_isInternalIP h.internal, hin, h.elsewhere r hr, ?_⟩
  rw [if_pos h.internal]
  exact h.home

theorem Houses.router_home (h : Houses C w i (ipRev pk.dst)) (hbody : pk.body = .data)
    (hi : 1 ≤ i ∧ i ≤ C.n) (hid : (w.routers i).routerID = i)
    (hin : inPort ≠ (w.routers i).externalPort) :
    (w.routers i).router w.shared inPort pk =
      ⟨w.routers i, w.shared, pk, some ((w.routers i).host2Port (ipRev pk.dst))⟩ := by
  rw [router_inside hbody h.internal (h.elsewhere i hi) hin,
    send_home h.internal (h.home.trans hid.symm)]

/-- Along any way to the home router of a host, a packet for it is carried there unchanged. -/
theorem Houses.carry (h : Houses C w i (ipRev pk.dst)) (hbody : pk.body = .data)
    (hi : 1 ≤ i ∧ i ≤ C.n) (hid : ∀ u, 1 ≤ u ∧ u ≤ C.n → (w.routers u).routerID = u)
    (hapart : ExternalApart C w) (hin : inPort ≠ (w.routers r).externalPort)
    (hpath : Forwards C w i r path cost) (hfuel : path.length ≤ fuel) :
    Routing.carry C fuel w r inPort pk =
      some ⟨w, path, pk, some ((w.routers i).host2Port (ipRev pk.dst))⟩ := by
  have hhome : ∀ inPort, inPort ≠ (w.routers i).externalPort → (w.routers i).router w.shared
      inPort pk = ⟨w.routers i, w.shared, pk, some ((w.routers i).host2Port (ipRev pk.dst))⟩ :=
    fun inPort hin => h.router_home hbody hi (hid i hi) hin
  obtain ⟨inPort', hin', hrun⟩ := hpath.carry_stop hfuel hapart
    (fun u hu _ inPort hin => h.carries hbody hu hin) hid hin (by
      intro inPort hin
      rw [hhome inPort hin]
      exact h.port)
  have hsame : (w.call i inPort' pk).1 = w :=
    call_same (by rw [hhome inPort' hin']) (by rw [hhome inPort' hin'])
  rw [hrun, hsame, hhome inPort' hin']

/-- In a settled network with positive lengths a packet for a host, wherever it comes in, leaves
unchanged at the port of the host, after a shortest path without loops. -/
theorem packet_delivered (hreach : (fifo C).Reachable st) (hset : st.Settled C)
    (hpos : ∀ r t a, st.w.linkArc C r t a → 0 < a) (htotal : st.w.total C < inf)
    (hapart : ExternalApart C st.w) (hbody : pk.body = .data) (hr : 1 ≤ r ∧ r ≤ C.n)
    (hi : 1 ≤ i ∧ i ≤ C.n) (hhost : Houses C st.w i (ipRev pk.dst))
    (hin : inPort ≠ (st.w.routers r).externalPort)
    (hwalk : ∃ x, Walk (st.w.linkArc C) r i x) :
    ∃ path cost, carry C C.n st.w r inPort pk =
        some ⟨st.w, path, pk, some ((st.w.routers i).host2Port (ipRev pk.dst))⟩ ∧
      path.Nodup ∧ Forwards C st.w i r path cost ∧
      IsLeast {x | Walk (st.w.linkArc C) r i x} cost := by
  obtain ⟨path, hpath, hnodup⟩ := hset.forwards hreach hpos htotal hr hi hwalk
  refine ⟨path, _, ?_, hnodup, hpath, ?_⟩
  · exact hhost.carry hbody hi (fun u hu => routerID_fifo hreach hu) hapart hin hpath
      (hpath.length_le hi hnodup)
  · exact (hset.isDistance hreach htotal hr hi).1.resolve_right fun h => h.1 hwalk

/-- Two routers with a cable: router 2 owns the addresses from 20.0.0.0 to 20.255.255.255 at its
port 3 and has 30.0.0.1 and 30.0.0.2 to give. -/
def natPair : Fifo where
  w := ⟨fun r => if r = 2 then .init 2 3 0x14000000 0x14ffffff [0x1e000002, 0x1e000001, 0, 0]
    else .init r 0 1 0 [], 2, 0, fun _ => 0, [⟨2, 0x14000000, 0xff000000⟩]⟩
  queue _ _ := []
  lastSent _ := none
  triggered _ := false

def natPairRun : List FifoMove := .plain 1 1 ⟨0, 0, .addHost 7 0x0a000005⟩ :: pairFifoRun

def natPairSettled : Fifo := (fifo pairCabling).play natPair natPairRun

private theorem natPair_init : (fifo pairCabling).init natPair := by
  refine ⟨⟨rfl, rfl, fun r _ => ?_⟩, fun _ _ => rfl, fun _ => rfl, fun _ => rfl⟩
  by_cases hr : r = 2
  · subst hr
    exact ⟨3, _, _, _, rfl⟩
  · exact ⟨0, 1, 0, [], if_neg hr⟩

private theorem natPair_playable : (fifo pairCabling).Playable natPair natPairRun := by decide

private theorem pairCabling_ids (hr : 1 ≤ r ∧ r ≤ pairCabling.n) : r = 1 ∨ r = 2 := by
  have hn : pairCabling.n = 2 := rfl
  omega

private theorem natPair_reachable : (fifo pairCabling).Reachable natPairSettled :=
  Reachable.play (.init natPair_init) natPair_playable

private theorem natPair_settled : natPairSettled.Settled pairCabling := by
  refine ⟨?_, ?_, delivered_of_cables natPair_reachable ?_⟩
  · intro r t h
    rcases pairCabling_port h with ⟨rfl, rfl⟩ | ⟨rfl, rfl⟩ <;> decide
  · intro r hr
    rcases pairCabling_ids hr with rfl | rfl <;> decide
  · intro r t h
    rcases pairCabling_port h with ⟨rfl, rfl⟩ | ⟨rfl, rfl⟩ <;> decide

private theorem natPair_positive : ∀ r t a, natPairSettled.w.linkArc pairCabling r t a → 0 < a := by
  intro r t a h
  obtain ⟨p, hp⟩ := linkArc_port h
  have hsome : (pairCabling.port r t).isSome := by simp [hp]
  obtain ⟨rfl, -⟩ := h
  rcases pairCabling_port hsome with ⟨rfl, rfl⟩ | ⟨rfl, rfl⟩ <;> decide

private theorem natPair_apart : ExternalApart pairCabling natPairSettled.w := by
  intro r t p hp
  have hsome : (pairCabling.port r t).isSome := by simp [hp]
  obtain rfl : p = 2 := by
    rcases pairCabling_port hsome with ⟨rfl, rfl⟩ | ⟨rfl, rfl⟩ <;> exact (Option.some.inj hp).symm
  rcases pairCabling_port hsome with ⟨rfl, rfl⟩ | ⟨rfl, rfl⟩ <;> decide

private theorem natPair_houses : Houses pairCabling natPairSettled.w 1 0x0a000005 := by
  refine ⟨by decide, by decide, by decide, fun u hu => ?_⟩
  rcases pairCabling_ids hu with rfl | rfl <;> decide

theorem packet_delivered_natPair :
    let pk : Packet := ⟨0x0900000a, 0x0500000a, .data⟩
    ∃ path cost, carry pairCabling 2 natPairSettled.w 2 5 pk =
        some ⟨natPairSettled.w, path, pk, some 7⟩ ∧
      path.Nodup ∧ Forwards pairCabling natPairSettled.w 1 2 path cost ∧
      IsLeast {x | Walk (natPairSettled.w.linkArc pairCabling) 2 1 x} cost := by
  intro pk
  have hwalk : ∃ x, Walk (natPairSettled.w.linkArc pairCabling) 2 1 x :=
    ⟨5, .single ⟨by decide, by decide⟩⟩
  have hbody : pk.body = .data := rfl
  have hdst : ipRev pk.dst = 0x0a000005 := by decide
  have hhost : Houses pairCabling natPairSettled.w 1 (ipRev pk.dst) := by
    rw [hdst]
    exact natPair_houses
  have hin : (5 : ℤ) ≠ (natPairSettled.w.routers 2).externalPort := by decide
  have hport : (natPairSettled.w.routers 1).host2Port (ipRev pk.dst) = 7 := by decide
  have hrun := packet_delivered natPair_reachable natPair_settled natPair_positive (by decide)
    natPair_apart hbody (by decide) (by decide) hhost hin hwalk
  rwa [hport] at hrun

end Inside

section Kept

/-- Who is registered where is changed by ADD HOST alone. -/
theorem router_hosts (R : Router) (sh : Shared) (inPort : ℤ)
    (hpk : ∀ port, pk.body ≠ .addHost port host) :
    (R.router sh inPort pk).router.host2Port host = R.host2Port host ∧
    (R.router sh inPort pk).shared.host2Router host = sh.host2Router host := by
  obtain ⟨src, dst, body⟩ := pk
  cases body with
  | data =>
    obtain ⟨⟨address, externs, hosts, hrouter⟩, hshared, -⟩ :=
      onData_kept R sh inPort ⟨src, dst, .data⟩
    simp only [Router.router, hrouter, hshared]
    exact ⟨trivial, trivial⟩
  | dv rid version row =>
    simp only [Router.router, Router.onDV]
    constructor <;> split_ifs <;> rfl
  | releaseNATItem hostIP =>
    obtain ⟨address, externs, hosts, hrouter⟩ := releaseNATItem_kept R hostIP
    simp only [Router.router, hrouter]
    exact ⟨trivial, trivial⟩
  | portValueChange port value =>
    simp only [Router.router, Router.onPortValueChange]
    split_ifs <;> exact ⟨rfl, rfl⟩
  | triggerDVSend => exact ⟨rfl, rfl⟩
  | addHost port hostIP =>
    have hne : host ≠ hostIP := by
      rintro rfl
      exact hpk port rfl
    simp [Router.router, hne]

private theorem call_field {α : Type} (f : Router → α)
    (h : f ((w.routers r).router w.shared inPort pk).router = f (w.routers r)) (u : ℕ) :
    f ((w.call r inPort pk).1.routers u) = f (w.routers u) := by
  by_cases hu : u = r
  · subst hu
    simpa [Routers.call] using h
  · simp [Routers.call, hu]

theorem Houses.call (h : Houses C w i host) (r : ℕ) (inPort : ℤ)
    (hadd : ∀ port, pk.body ≠ .addHost port host) :
    Houses C (w.call r inPort pk).1 i host := by
  obtain ⟨hport, hhome⟩ := router_hosts (w.routers r) w.shared inPort hadd
  obtain ⟨-, -, hrange, -, -⟩ := router_fixed (w.routers r) w.shared inPort pk
  refine ⟨h.internal, hhome.trans h.home, ?_, ?_⟩
  · rw [call_field (fun R => R.host2Port host) hport]
    exact h.port
  · intro u hu
    rw [call_field (fun R => R.isExternalIP host) (congrFun hrange host)]
    exact h.elsewhere u hu

theorem ExternalApart.call (h : ExternalApart C w) (r : ℕ) (inPort : ℤ) (pk : Packet) :
    ExternalApart C (w.call r inPort pk).1 := by
  obtain ⟨-, hext, -, -, -⟩ := router_fixed (w.routers r) w.shared inPort pk
  intro u t p hp
  rw [call_field (fun R => R.externalPort) hext]
  exact h u t p hp

/-- The move is not about the host: it neither registers it nor takes its address away. -/
def FifoMove.Spares (host : IPAddr) : FifoMove → Prop
  | .plain _ _ pk => pk.body ≠ .releaseNATItem host ∧ ∀ port, pk.body ≠ .addHost port host
  | .portValue _ _ _ | .trigger _ _ | .deliver _ _ _ | .drop _ _ _ => True

/-- The routers after a move: as they were, or one of them has been called. -/
theorem Fifo.move_routers (C : Cabling) (st : Fifo) (mv : FifoMove) :
    (st.move C mv).w = st.w ∨ ∃ r inPort pk, (st.move C mv).w = (st.w.call r inPort pk).1 ∧
      ∀ host, mv.Spares host →
        pk.body ≠ .releaseNATItem host ∧ ∀ port, pk.body ≠ .addHost port host := by
  cases mv with
  | portValue r t value =>
    exact Or.inr ⟨r, 1, C.portValue r t value, call_w .., by simp [Cabling.portValue]⟩
  | trigger r lucky => exact Or.inr ⟨r, 1, triggerPacket, call_w .., by simp [triggerPacket]⟩
  | plain r inPort pk => exact Or.inr ⟨r, inPort, pk, call_w .., fun _ hmv => hmv⟩
  | drop s r k => exact Or.inl rfl
  | deliver s r lucky =>
    cases hq : st.queue s r with
    | nil => simp [Fifo.move, hq]
    | cons a rest =>
      right
      refine ⟨r, (C.port r s).getD 0, a.packet, ?_, by simp [Advert.packet]⟩
      simp only [Fifo.move, hq, call_w]
      rfl

variable {ipMin ipMax ip : IPAddr} {mvs : List FifoMove}

theorem Leased.call {w : Routers} (h : Leased ipMin ipMax (w.routers i)) (x : ℕ) (inPort : ℤ)
    (pk : Packet) : Leased ipMin ipMax ((w.call x inPort pk).1.routers i) := by
  by_cases hi : i = x
  · subst hi
    simpa [Routers.call, Router.answer] using h.answer (w.shared, inPort, pk)
  · simpa [Routers.call, hi] using h

/-- What the round trip of the packets of a host rests on. -/
structure Mapped (C : Cabling) (w : Routers) (ipMin ipMax : IPAddr) (i r : ℕ) (host ip : IPAddr) :
    Prop where
  leased : Leased ipMin ipMax (w.routers i)
  address : (w.routers i).host2ExternIP host = some ip
  houses : Houses C w r host
  apart : ExternalApart C w

theorem Mapped.call (h : Mapped C w ipMin ipMax i r host ip) (x : ℕ) (inPort : ℤ)
    (hrelease : pk.body ≠ .releaseNATItem host) (hadd : ∀ port, pk.body ≠ .addHost port host) :
    Mapped C (w.call x inPort pk).1 ipMin ipMax i r host ip := by
  refine ⟨h.leased.call x inPort pk, ?_, h.houses.call x inPort hadd, h.apart.call x inPort pk⟩
  by_cases hi : i = x
  · subst hi
    simpa [Routers.call, Router.answer] using
      h.leased.keep (c := (w.shared, inPort, pk)) h.address hrelease
  · simpa [Routers.call, hi] using h.address

/-- A host keeps its address, whatever the network does that is not about the host. -/
theorem Mapped.play (h : Mapped C st.w ipMin ipMax i r host ip) (hspare : ∀ mv ∈ mvs,
    FifoMove.Spares host mv) : Mapped C ((fifo C).play st mvs).w ipMin ipMax i r host ip := by
  induction mvs generalizing st with
  | nil => exact h
  | cons mv mvs ih =>
    rw [List.forall_mem_cons] at hspare
    apply ih _ hspare.2
    show Mapped C (st.move C mv).w ipMin ipMax i r host ip
    rcases st.move_routers C mv with hsame | ⟨x, inPort, pk, hcall, hspares⟩
    · rwa [hsame]
    · obtain ⟨hrelease, hadd⟩ := hspares host hspare.1
      rw [hcall]
      exact h.call x inPort hrelease hadd

private theorem leased_play (h : Leased ipMin ipMax (st.w.routers i)) (mvs : List FifoMove) :
    Leased ipMin ipMax (((fifo C).play st mvs).w.routers i) := by
  induction mvs generalizing st with
  | nil => exact h
  | cons mv mvs ih =>
    apply ih
    show Leased ipMin ipMax ((st.move C mv).w.routers i)
    rcases st.move_routers C mv with hsame | ⟨x, inPort, pk, hcall, -⟩
    · rwa [hsame]
    · rw [hcall]
      exact h.call x inPort pk

/-- A settled network stays settled until there is a command. -/
theorem Fifo.Settled.move (h : st.Settled C) (hreach : (fifo C).Reachable st) {mv : FifoMove}
    (hin : mv.isCommand = false) (hmv : st.Allowed C mv) : (st.move C mv).Settled C := by
  obtain ⟨htold, htrig⟩ := told_move hreach hin hmv
  refine ⟨by rw [htold]; exact h.told, by rw [htrig]; exact h.triggered, ?_⟩
  intro x y
  cases mv with
  | portValue r t value => cases hin
  | trigger r lucky => cases hin
  | deliver s r lucky => exact absurd (h.delivered s r) hmv
  | drop s r k => simp [Fifo.move, Fifo.setQueue, h.delivered _ _]
  | plain r inPort pk =>
    rw [plain_move hmv]
    exact h.delivered x y

theorem Fifo.Settled.play (h : st.Settled C) (hreach : (fifo C).Reachable st)
    (hrun : (fifo C).Playable st mvs) (hin : ∀ mv ∈ mvs, mv.isCommand = false) :
    ((fifo C).play st mvs).Settled C := by
  induction mvs generalizing st with
  | nil => exact h
  | cons mv mvs ih =>
    rw [List.forall_mem_cons] at hin
    exact ih (h.move hreach hin.1 hrun.1) (hreach.step mv hrun.1) hrun.2 hin.2

end Kept

section Outside

variable {ipMin ipMax ip : IPAddr} {mvs : List FifoMove}

def Router.Exhausted (R : Router) (ipMin ipMax host : IPAddr) : Prop :=
  ∀ ip, ip ≠ 0 → ipMin ≤ ip → ip ≤ ipMax →
    ∃ other, other ≠ host ∧ R.host2ExternIP other = some ip

/-- What becomes of a packet that is to leave: it is refused because the block is exhausted, or
leaves with an address of the block, which the host then has. -/
theorem Leased.outbound (h : Leased ipMin ipMax R) (sh : Shared) (hout : R.Outbound inPort pk) :
    ((R.router sh inPort pk).ret = some (-1) ∧ (R.router sh inPort pk).packet = pk ∧
      R.Exhausted ipMin ipMax (ipRev pk.src)) ∨
    ∃ ip, (ip ≠ 0 ∧ ipMin ≤ ip ∧ ip ≤ ipMax) ∧
      (R.router sh inPort pk).packet = { pk with src := ipRev ip } ∧
      (R.router sh inPort pk).ret = R.send sh (ipRev pk.dst) ∧
      (R.router sh inPort pk).router.host2ExternIP (ipRev pk.src) = some ip := by
  obtain ⟨l, k, hR, hs⟩ := h
  cases hmap : R.host2ExternIP (ipRev pk.src) with
  | some ip =>
    right
    have ha : l.table (ipRev pk.src) = some ip := by rw [← hR.hosts, hmap]
    rw [hR.answer_mapped hs sh hout hmap]
    exact ⟨ip, (hs ip).mp (Or.inr ⟨_, ha⟩), rfl, rfl, hmap⟩
  | none =>
    cases hfree : l.free with
    | nil =>
      left
      obtain ⟨hret, hpacket, -⟩ : (R.router sh inPort pk).ret = some (-1) ∧
          (R.router sh inPort pk).packet = pk ∧ _ := (hR.refused_iff hs hout hmap).mpr hfree
      refine ⟨hret, hpacket, fun ip h0 hmin hmax => ?_⟩
      rcases (hs ip).mpr ⟨h0, hmin, hmax⟩ with hmem | ⟨other, hother⟩
      · rw [hfree] at hmem
        cases hmem
      · rw [← hR.hosts] at hother
        refine ⟨other, ?_, hother⟩
        rintro rfl
        rw [hmap] at hother
        cases hother
    | cons ip free =>
      right
      have hmanaged := (hs ip).mp (Or.inl (by simp [hfree]))
      rw [router_outbound_fresh sh hout hmap (hR.address_cons hfree) hmanaged.1]
      exact ⟨ip, hmanaged, rfl, rfl, by simp⟩

structure LeavesAt (C : Cabling) (w : Routers) (i : ℕ) (dst : IPAddr) : Prop where
  ne_zero : dst ≠ 0
  external : isInternalIP dst = false
  exit : w.shared.exIPMatchRouter dst = some i
  own : (w.routers i).isExternalIP dst = true
  port : (w.routers i).externalPort ≠ 0
  elsewhere : ∀ u, (1 ≤ u ∧ u ≤ C.n) → u ≠ i → (w.routers u).isExternalIP dst = false

theorem LeavesAt.carries (h : LeavesAt C w i (ipRev pk.dst)) (hbody : pk.body = .data)
    (hr : 1 ≤ r ∧ r ≤ C.n) (hne : r ≠ i) (hin : inPort ≠ (w.routers r).externalPort) :
    (w.routers r).Carries w.shared inPort pk i := by
  refine ⟨hbody, h.ne_zero, hin, h.elsewhere r hr hne, ?_⟩
  rw [h.external]
  exact h.exit

theorem LeavesAt.send (h : LeavesAt C w i dst) (hid : (w.routers i).routerID = i) :
    (w.routers i).send w.shared dst = some (w.routers i).externalPort := by
  simp [Router.send, h.external, h.exit, hid]

private theorem behind_external (h : ExternalApart C w) :
    C.behind i (w.routers i).externalPort = none := by
  refine List.find?_eq_none.mpr fun t _ => ?_
  have hne : C.port i t ≠ some (w.routers i).externalPort := fun hp => h i t _ hp rfl
  simpa using hne

theorem Forwards.forward (h : Forwards C w i r path cost) (hne : r ≠ i)
    (hpk : ∃ inPort pk, (w.routers r).Carries w.shared inPort pk i)
    (hid : i ≠ (w.routers r).routerID) :
    ∃ t p rest cost', path = r :: rest ∧ C.port r t = some p ∧ (w.routers r).forward i = p ∧
      Forwards C w i t rest cost' := by
  cases h with
  | arrived => exact absurd rfl hne
  | @hop r t p path cost hne hret hnext hout hport hrest =>
    obtain ⟨inPort, pk, hcarries⟩ := hpk
    have hp := hret inPort pk hcarries
    rw [router_carries hcarries hid] at hp
    exact ⟨t, p, path, cost, rfl, hport, by simpa using hp, hrest⟩

/-- A reply for an address that a host has comes to the host, along any way there. -/
theorem Mapped.carry_reply (h : Mapped C w ipMin ipMax i r host ip)
    (hbody : pk.body = .data) (hdst : ipRev pk.dst = ip) (hr : 1 ≤ r ∧ r ≤ C.n)
    (hi : 1 ≤ i ∧ i ≤ C.n) (hid : ∀ u, 1 ≤ u ∧ u ≤ C.n → (w.routers u).routerID = u)
    (hpath : Forwards C w r i path cost) (hnodup : path.Nodup) :
    Routing.carry C C.n w i (w.routers i).externalPort pk =
      some ⟨w, path, { pk with dst := ipRev host }, some ((w.routers r).host2Port host)⟩ := by
  obtain ⟨l, k, hR, hs⟩ := h.leased
  have hcall : (w.routers i).router w.shared (w.routers i).externalPort pk = _ :=
    hR.answer_inbound hs (by rw [hdst, h.address]) hbody
  have hsame : (w.call i (w.routers i).externalPort pk).1 = w :=
    call_same (by rw [hcall]) (by rw [hcall])
  have hlen := hpath.length_le hr hnodup
  have hhouses : Houses C w r (ipRev { pk with dst := ipRev host }.dst) := by
    rw [ipRev_ipRev]
    exact h.houses
  obtain ⟨n, hn⟩ : ∃ n, C.n = n + 1 := ⟨C.n - 1, by omega⟩
  rw [hn] at hlen ⊢
  by_cases hir : i = r
  · -- the host is at the exit router itself
    subst hir
    have hsend : (w.routers i).send w.shared host = _ :=
      send_home h.houses.internal (h.houses.home.trans (hid i hi).symm)
    have hpath' : path = [i] := by
      cases hpath with
      | arrived => rfl
      | hop hne => exact absurd rfl hne
    rw [carry_stop (by rw [hcall, hsend]; exact h.houses.port), hsame, hcall, hsend, hpath']
  · have hcarries : ∃ inPort pk', (w.routers i).Carries w.shared inPort pk' r :=
      ⟨(w.routers i).externalPort + 1, _, hhouses.carries hbody hi (by omega)⟩
    have hne : r ≠ (w.routers i).routerID := by
      rw [hid i hi]
      exact fun heq => hir heq.symm
    obtain ⟨t, p, rest, cost', rfl, hport, hforward, hrest⟩ := hpath.forward hir hcarries hne
    obtain ⟨q, hback⟩ := C.both hport
    have hsend : (w.routers i).send w.shared host = some p := by
      rw [← hforward]
      simp [Router.send, h.houses.internal, h.houses.home, hne]
    have hrun : Routing.carry C n w t q { pk with dst := ipRev host } = _ :=
      hhouses.carry hbody hr hid h.apart (h.apart t i q hback) hrest (by simpa using hlen)
    rw [ipRev_ipRev] at hrun
    rw [carry_hop (by rw [hcall, hsend]) hport, hsame, hcall, hback]
    show (Routing.carry C n w t q { pk with dst := ipRev host }).map _ = _
    rw [hrun]
    rfl

theorem Fifo.Settled.walk_back (h : st.Settled C) {x : ℤ} (hwalk : Walk (st.w.linkArc C) r i x) :
    Walk (st.w.linkArc C) i r x := by
  apply hwalk.reverse
  intro u v a harc
  obtain ⟨p, hp⟩ := linkArc_port harc
  obtain ⟨rfl, hne⟩ := harc
  exact ⟨(h.told u v (by simp [hp])).symm, hne⟩

/-- As long as there is no command and the host is left alone, every reply for `ip` that comes
to router `i` from outside is carried to router `r` and leaves there at the port of the host. -/
def Fifo.RepliesReturn (C : Cabling) (st : Fifo) (i r : ℕ) (host ip : IPAddr) : Prop :=
  ∀ mvs, (fifo C).Playable st mvs → (∀ mv ∈ mvs, mv.isCommand = false ∧ mv.Spares host) →
    ∀ reply : Packet, reply.body = .data → ipRev reply.dst = ip →
      let w := ((fifo C).play st mvs).w
      ∃ path, path.Nodup ∧ carry C C.n w i (w.routers i).externalPort reply =
        some ⟨w, path, { reply with dst := ipRev host }, some ((w.routers r).host2Port host)⟩

theorem Mapped.repliesReturn (h : Mapped C st.w ipMin ipMax i r host ip)
    (hreach : (fifo C).Reachable st) (hset : st.Settled C)
    (hpos : ∀ r t a, st.w.linkArc C r t a → 0 < a) (htotal : st.w.total C < inf)
    (hr : 1 ≤ r ∧ r ≤ C.n) (hi : 1 ≤ i ∧ i ≤ C.n) (hwalk : ∃ x, Walk (st.w.linkArc C) i r x) :
    st.RepliesReturn C i r host ip := by
  intro mvs hrun hmvs reply hbody hdst
  have hin : ∀ mv ∈ mvs, mv.isCommand = false := fun mv hmv => (hmvs mv hmv).1
  have hlater : Mapped C ((fifo C).play st mvs).w ipMin ipMax i r host ip :=
    h.play fun mv hmv => (hmvs mv hmv).2
  have hreach' := hreach.play hrun
  obtain ⟨htold, -⟩ := told_play hreach hrun hin
  obtain ⟨path, hpath, hnodup⟩ := (hset.play hreach hrun hin).forwards hreach'
    (by rwa [linkArc_congr htold]) (by rwa [total_congr htold]) hi hr
    (by rwa [linkArc_congr htold])
  refine ⟨path, hnodup, ?_⟩
  exact hlater.carry_reply hbody hdst hr hi (fun u hu => routerID_fifo hreach' hu) hpath hnodup

/-- A packet of a host for an address outside is carried to the exit router. If that has no
address left the packet is refused there; otherwise it leaves with an address of the block, and
replies to the address return to the host. -/
theorem nat_across_network {st₀ : Fifo} (h₀ : (fifo C).init st₀) {mvs₀ : List FifoMove}
    (hrun₀ : (fifo C).Playable st₀ mvs₀) (hst : (fifo C).play st₀ mvs₀ = st)
    (hpool : (natCalls ipMin ipMax).init (st₀.w.routers i)) (hmin : ipMin ≤ ipMax)
    (hset : st.Settled C) (hpos : ∀ r t a, st.w.linkArc C r t a → 0 < a)
    (htotal : st.w.total C < inf) (hapart : ExternalApart C st.w) (hbody : pk.body = .data)
    (hr : 1 ≤ r ∧ r ≤ C.n) (hi : 1 ≤ i ∧ i ≤ C.n) (hhost : Houses C st.w r (ipRev pk.src))
    (hleaves : LeavesAt C st.w i (ipRev pk.dst)) (hin : inPort ≠ (st.w.routers r).externalPort)
    (hwalk : ∃ x, Walk (st.w.linkArc C) r i x) :
    ∃ path w, path.Nodup ∧
      ((carry C C.n st.w r inPort pk = some ⟨w, path, pk, some (-1)⟩ ∧
        (st.w.routers i).Exhausted ipMin ipMax (ipRev pk.src)) ∨
      ∃ ip, (ip ≠ 0 ∧ ipMin ≤ ip ∧ ip ≤ ipMax) ∧
        carry C C.n st.w r inPort pk =
          some ⟨w, path, { pk with src := ipRev ip }, some (st.w.routers i).externalPort⟩ ∧
        Fifo.RepliesReturn C { st with w := w } i r (ipRev pk.src) ip) := by
  have hreach : (fifo C).Reachable st := hst ▸ Reachable.play (.init h₀) hrun₀
  have hid : ∀ u, 1 ≤ u ∧ u ≤ C.n → (st.w.routers u).routerID = u :=
    fun u hu => routerID_fifo hreach hu
  have hlease : Leased ipMin ipMax (st.w.routers i) := by
    rw [← hst]
    exact leased_play (leased_of_reachable hmin (.init hpool)) mvs₀
  obtain ⟨path, hpath, hnodup⟩ := hset.forwards hreach hpos htotal hr hi hwalk
  have hout : ∀ inPort, inPort ≠ (st.w.routers i).externalPort →
      (st.w.routers i).Outbound inPort pk :=
    fun inPort hin => ⟨hbody, hleaves.ne_zero, hin, hleaves.own, hleaves.port⟩
  obtain ⟨inPort', hin', hrun⟩ := hpath.carry_stop (hpath.length_le hi hnodup) hapart
    (fun u hu hne inPort hin => hleaves.carries hbody hu hne hin) hid hin (by
      intro inPort hin
      rcases hlease.outbound st.w.shared (hout inPort hin) with ⟨hret, -⟩ | ⟨ip, -, -, hret, -⟩
      · rw [hret]
        exact behind_low (by decide)
      · rw [hret, hleaves.send (hid i hi)]
        exact behind_external hapart)
  refine ⟨path, (st.w.call i inPort' pk).1, hnodup, ?_⟩
  rcases hlease.outbound st.w.shared (hout inPort' hin') with
    ⟨hret, hpacket, hexhausted⟩ | ⟨ip, hip, hpacket, hret, hmap⟩
  · left
    rw [hrun, hret, hpacket]
    exact ⟨rfl, hexhausted⟩
  · right
    refine ⟨ip, hip, by rw [hrun, hret, hpacket, hleaves.send (hid i hi)], ?_⟩
    -- the call at the exit router is a move of the network
    have hmv : st.Allowed C (.plain i inPort' pk) := by
      refine ⟨hi, ?_⟩
      rw [hbody]
      trivial
    have hmove : st.move C (.plain i inPort' pk) =
        { st with w := (st.w.call i inPort' pk).1 } := plain_move hmv
    have hinside : FifoMove.isCommand (.plain i inPort' pk) = false := rfl
    have hreach' : (fifo C).Reachable (st.move C (.plain i inPort' pk)) :=
      hreach.step (.plain i inPort' pk) hmv
    have hset' := hset.move hreach hinside hmv
    obtain ⟨htold, -⟩ := told_move hreach hinside hmv
    rw [hmove] at hreach' hset' htold
    have hmapped : Mapped C (st.w.call i inPort' pk).1 ipMin ipMax i r (ipRev pk.src) ip :=
      ⟨hlease.call i inPort' pk, by simpa [Routers.call] using hmap,
        hhost.call i inPort' (by simp [hbody]), hapart.call i inPort' pk⟩
    obtain ⟨x, hx⟩ := hwalk
    refine hmapped.repliesReturn hreach' hset' (by rwa [linkArc_congr htold])
      (by rwa [total_congr htold]) hr hi ?_
    rw [linkArc_congr htold]
    exact ⟨x, hset.walk_back hx⟩

private theorem natPair_leavesAt : LeavesAt pairCabling natPairSettled.w 2 0x14000009 := by
  refine ⟨by decide, by decide, by decide, by decide, by decide, fun u hu hne => ?_⟩
  rcases pairCabling_ids hu with rfl | rfl
  · decide
  · exact absurd rfl hne

theorem nat_across_network_natPair :
    let pk : Packet := ⟨0x0500000a, 0x09000014, .data⟩
    ∃ path w, path.Nodup ∧
      ((carry pairCabling 2 natPairSettled.w 1 7 pk = some ⟨w, path, pk, some (-1)⟩ ∧
        (natPairSettled.w.routers 2).Exhausted 0x1e000001 0x1e000002 0x0a000005) ∨
      ∃ ip : IPAddr, (ip ≠ 0 ∧ 0x1e000001 ≤ ip ∧ ip ≤ 0x1e000002) ∧
        carry pairCabling 2 natPairSettled.w 1 7 pk =
          some ⟨w, path, { pk with src := ipRev ip }, some 3⟩ ∧
        Fifo.RepliesReturn pairCabling { natPairSettled with w := w } 2 1 0x0a000005 ip) := by
  intro pk
  have hwalk : ∃ x, Walk (natPairSettled.w.linkArc pairCabling) 1 2 x :=
    ⟨5, .single ⟨by decide, by decide⟩⟩
  have hpool : (natCalls 0x1e000001 0x1e000002).init (natPair.w.routers 2) :=
    ⟨2, 3, 0x14000000, 0x14ffffff, _, by decide +kernel, rfl⟩
  have hbody : pk.body = .data := rfl
  have hsrc : ipRev pk.src = 0x0a000005 := by decide
  have hdst : ipRev pk.dst = 0x14000009 := by decide
  have hhost : Houses pairCabling natPairSettled.w 1 (ipRev pk.src) := by
    rw [hsrc]
    exact natPair_houses
  have hleaves : LeavesAt pairCabling natPairSettled.w 2 (ipRev pk.dst) := by
    rw [hdst]
    exact natPair_leavesAt
  have hin : (7 : ℤ) ≠ (natPairSettled.w.routers 1).externalPort := by decide
  have hst : (fifo pairCabling).play natPair natPairRun = natPairSettled := rfl
  have hport : (natPairSettled.w.routers 2).externalPort = 3 := by decide
  have hrun := nat_across_network natPair_init natPair_playable hst hpool (by decide)
    natPair_settled natPair_positive (by decide) natPair_apart hbody (by decide) (by decide)
    hhost hleaves hin hwalk
  rwa [hsrc, hport] at hrun

end Outside

end NetworkingLabs.Routing
