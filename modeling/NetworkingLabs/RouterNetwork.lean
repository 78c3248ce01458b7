import NetworkingLabs.TransitionSystem
import NetworkingLabs.RouterVersions

/-!
# Routers on a cabling

The routers share their static members and call `router()` one at a time. In `lossy` a
broadcast may reach any cabled neighbour at any time, any number of times or never; what
holds there holds whatever the network does to DV packets.
-/
namespace NetworkingLabs.Routing
open WeightedWalks TransitionSystem

/-- At most one cable for a pair of routers, with one port at each end. The ports below 2
stand for dropping, broadcasting and the controller. -/
structure Cabling where
  n : ℕ
  lt_maxn : n < 100
  port : ℕ → ℕ → Option ℤ
  ids : ∀ {r t p}, port r t = some p → (1 ≤ r ∧ r ≤ n) ∧ (1 ≤ t ∧ t ≤ n) ∧ r ≠ t
  both : ∀ {r t p}, port r t = some p → ∃ q, port t r = some q
  inj : ∀ {r t u p}, port r t = some p → port r u = some p → t = u
  proper : ∀ {r t p}, port r t = some p → 1 < p

structure Routers where
  routers : ℕ → Router
  shared : Shared

def Routers.dv (w : Routers) (r : ℕ) : DV := (w.routers r).dv

/-- What a call broadcasts: the packet it leaves, if it is a DV packet and 0 is returned. -/
def Outcome.advert (o : Outcome) : Option Advert :=
  match o.ret, o.packet.body with
  | some 0, .dv sender version row => some ⟨sender, version, row⟩
  | _, _ => none

def Routers.call (w : Routers) (r : ℕ) (inPort : ℤ) (pk : Packet) : Routers × Option Advert :=
  let out := (w.routers r).router w.shared inPort pk
  (⟨Function.update w.routers r out.router, out.shared⟩, out.advert)

def Routers.Fresh (C : Cabling) (w : Routers) : Prop :=
  w.shared.totRouterNum = C.n ∧ w.shared.lstChangeVersion = 0 ∧
  ∀ r, 1 ≤ r ∧ r ≤ C.n → ∃ externalPort ipMin ipMax address,
    w.routers r = .init r externalPort ipMin ipMax address

def Body.Plain : Body → Prop
  | .data | .releaseNATItem _ | .addHost _ _ => True
  | .dv _ _ _ | .triggerDVSend | .portValueChange _ _ => False

instance : (b : Body) → Decidable b.Plain
  | .data | .releaseNATItem _ | .addHost _ _ => .isTrue trivial
  | .dv _ _ _ | .triggerDVSend | .portValueChange _ _ => .isFalse id

def Cabling.portValue (C : Cabling) (r t : ℕ) (value : ℤ) : Packet :=
  ⟨0, 0, .portValueChange ((C.port r t).getD 0) value⟩

def triggerPacket : Packet := ⟨0, 0, .triggerDVSend⟩

/-- The routers and every DV packet ever sent, with its sender. -/
structure Lossy where
  w : Routers
  sent : List (ℕ × Advert)

inductive LossyMove
  | portValue (r t : ℕ) (value : ℤ)
  | trigger (r : ℕ)
  | deliver (s r : ℕ) (a : Advert)
  | plain (r : ℕ) (inPort : ℤ) (pk : Packet)

/-- The lengths that a link may be given: -1 is its deletion. -/
def LinkValue (value : ℤ) : Prop := value = -1 ∨ 0 ≤ value ∧ value < inf

instance (value : ℤ) : Decidable (LinkValue value) :=
  inferInstanceAs (Decidable (value = -1 ∨ 0 ≤ value ∧ value < inf))

def Lossy.Allowed (C : Cabling) (st : Lossy) : LossyMove → Prop
  | .portValue r t value => (C.port r t).isSome ∧ LinkValue value
  | .trigger r => 1 ≤ r ∧ r ≤ C.n
  | .deliver s r a => (C.port r s).isSome ∧ (s, a) ∈ st.sent
  | .plain r _ pk => (1 ≤ r ∧ r ≤ C.n) ∧ pk.body.Plain

instance (C : Cabling) (st : Lossy) : (mv : LossyMove) → Decidable (st.Allowed C mv)
  | .portValue r t value => inferInstanceAs (Decidable ((C.port r t).isSome ∧ LinkValue value))
  | .trigger r => inferInstanceAs (Decidable (1 ≤ r ∧ r ≤ C.n))
  | .deliver s r a => inferInstanceAs (Decidable ((C.port r s).isSome ∧ (s, a) ∈ st.sent))
  | .plain r _ pk => inferInstanceAs (Decidable ((1 ≤ r ∧ r ≤ C.n) ∧ pk.body.Plain))

def Lossy.call (st : Lossy) (r : ℕ) (inPort : ℤ) (pk : Packet) : Lossy :=
  let out := st.w.call r inPort pk
  ⟨out.1, st.sent ++ (out.2.map fun a => (r, a)).toList⟩

def Lossy.move (C : Cabling) (st : Lossy) : LossyMove → Lossy
  | .portValue r t value => st.call r 1 (C.portValue r t value)
  | .trigger r => st.call r 1 triggerPacket
  | .deliver s r a => st.call r ((C.port r s).getD 0) a.packet
  | .plain r inPort pk => st.call r inPort pk

def lossy (C : Cabling) : TransitionSystem Lossy LossyMove where
  init st := st.w.Fresh C ∧ st.sent = []
  enabled := Lossy.Allowed C
  next := Lossy.move C

instance (C : Cabling) (st : Lossy) (mv : LossyMove) : Decidable ((lossy C).enabled st mv) :=
  inferInstanceAs (Decidable (st.Allowed C mv))

structure Linked (C : Cabling) (r : ℕ) (R : Router) : Prop where
  routerID : R.routerID = r
  finite : ∀ t, t ≠ r → R.dv.c t < inf →
    ∃ p, R.port2RouterID p = t ∧ t ≠ 0 ∧ R.portLen p = some (R.dv.c t)
  learned : ∀ p t, R.port2RouterID p = t → t ≠ 0 → C.port r t = some p ∧ R.routerID2Port t = p
  lens : ∀ p value, R.portLen p = some value → LinkValue value

/-- The invariant of the network, for some history of the links. -/
structure NetInv (C : Cabling) (lo : ℤ → ℕ → ℕ → ℤ) (st : Lossy) : Prop where
  tot : st.w.shared.totRouterNum = C.n
  versions : Versions C.n lo st.w.dv st.w.shared.lstChangeVersion st.sent
  linked : ∀ r, 1 ≤ r ∧ r ≤ C.n → Linked C r (st.w.routers r)

variable {C : Cabling} {st : Lossy} {lo : ℤ → ℕ → ℕ → ℤ} {r s t : ℕ} {R : Router} {sh : Shared}
  {inPort : ℤ} {pk : Packet}

section Calls

def Router.Readdressed (R R' : Router) : Prop :=
  ∃ address externIP2Host host2ExternIP, R' = { R with
    address := address
    externIP2Host := externIP2Host
    host2ExternIP := host2ExternIP }

theorem Router.Readdressed.refl (R : Router) : R.Readdressed R := ⟨_, _, _, rfl⟩

theorem onData_kept (R : Router) (sh : Shared) (inPort : ℤ) (pk : Packet) :
    R.Readdressed (R.onData sh inPort pk).router ∧ (R.onData sh inPort pk).shared = sh ∧
    (R.onData sh inPort pk).packet.body = pk.body := by
  have hsame := Router.Readdressed.refl R
  simp only [Router.onData]
  split_ifs
  · exact ⟨hsame, rfl, rfl⟩
  · cases R.externIP2Host (ipRev pk.dst) <;> exact ⟨hsame, rfl, rfl⟩
  · exact ⟨hsame, rfl, rfl⟩
  · exact ⟨⟨_, _, _, rfl⟩, rfl, rfl⟩
  · exact ⟨⟨_, _, _, rfl⟩, rfl, rfl⟩
  · exact ⟨hsame, rfl, rfl⟩

theorem releaseNATItem_kept (R : Router) (hostIP : IPAddr) :
    R.Readdressed (R.releaseNATItem hostIP) := by
  unfold Router.releaseNATItem
  cases R.host2ExternIP hostIP with
  | none => exact .refl R
  | some externalIP => exact ⟨_, _, _, rfl⟩

/-- Only DV packets are broadcast. -/
theorem advert_of_data {o : Outcome} (h : o.packet.body = .data) : o.advert = none := by
  unfold Outcome.advert
  split
  · rename_i hbody
    rw [h] at hbody
    cases hbody
  · rfl

/-- The other packets leave everything about distance vectors alone. -/
theorem router_plain (R : Router) (sh : Shared) (inPort : ℤ) (hpk : pk.body.Plain) :
    (R.router sh inPort pk).router.dv = R.dv ∧
    (R.router sh inPort pk).router.routerID = R.routerID ∧
    (R.router sh inPort pk).router.port2RouterID = R.port2RouterID ∧
    (R.router sh inPort pk).router.routerID2Port = R.routerID2Port ∧
    (R.router sh inPort pk).router.portLen = R.portLen ∧
    (R.router sh inPort pk).shared.totRouterNum = sh.totRouterNum ∧
    (R.router sh inPort pk).shared.lstChangeVersion = sh.lstChangeVersion ∧
    (R.router sh inPort pk).advert = none := by
  obtain ⟨src, dst, body⟩ := pk
  cases body with
  | dv | triggerDVSend | portValueChange => exact absurd hpk id
  | addHost port hostIP => simp [Router.router, Outcome.advert]
  | releaseNATItem hostIP =>
    obtain ⟨address, externs, hosts, hrouter⟩ := releaseNATItem_kept R hostIP
    simp only [Router.router, hrouter]
    simp [Outcome.advert]
  | data =>
    obtain ⟨⟨address, externs, hosts, hrouter⟩, hshared, hbody⟩ :=
      onData_kept R sh inPort ⟨src, dst, .data⟩
    simp only [Router.router, hrouter, hshared, advert_of_data hbody, and_self]

theorem router_fixed (R : Router) (sh : Shared) (inPort : ℤ) (pk : Packet) :
    (R.router sh inPort pk).router.routerID = R.routerID ∧
    (R.router sh inPort pk).router.externalPort = R.externalPort ∧
    (R.router sh inPort pk).router.isExternalIP = R.isExternalIP ∧
    (R.router sh inPort pk).shared.totRouterNum = sh.totRouterNum ∧
    (R.router sh inPort pk).shared.externalIPTable = sh.externalIPTable := by
  obtain ⟨src, dst, body⟩ := pk
  cases body with
  | data =>
    obtain ⟨⟨address, externs, hosts, hrouter⟩, hshared, -⟩ :=
      onData_kept R sh inPort ⟨src, dst, .data⟩
    simp only [Router.router, hrouter, hshared]
    exact ⟨trivial, trivial, rfl, trivial, trivial⟩
  | dv rid version row =>
    simp only [Router.router, Router.onDV]
    refine ⟨?_, ?_, ?_, ?_, ?_⟩ <;> split_ifs <;> rfl
  | releaseNATItem hostIP =>
    obtain ⟨address, externs, hosts, hrouter⟩ := releaseNATItem_kept R hostIP
    simp only [Router.router, hrouter]
    exact ⟨trivial, trivial, rfl, trivial, trivial⟩
  | portValueChange port value =>
    simp only [Router.router, Router.onPortValueChange]
    split_ifs <;> exact ⟨rfl, rfl, rfl, rfl, rfl⟩
  | triggerDVSend => exact ⟨rfl, rfl, rfl, rfl, rfl⟩
  | addHost port hostIP => exact ⟨rfl, rfl, rfl, rfl, rfl⟩

@[simp] theorem call_totRouterNum (w : Routers) (r : ℕ) (inPort : ℤ) (pk : Packet) :
    (w.call r inPort pk).1.shared.totRouterNum = w.shared.totRouterNum :=
  (router_fixed (w.routers r) w.shared inPort pk).2.2.2.1

@[simp] theorem call_externalIPTable (w : Routers) (r : ℕ) (inPort : ℤ) (pk : Packet) :
    (w.call r inPort pk).1.shared.externalIPTable = w.shared.externalIPTable :=
  (router_fixed (w.routers r) w.shared inPort pk).2.2.2.2

theorem onPortValueChange_host {port : ℤ} (sh : Shared) (value : ℤ)
    (h : R.port2RouterID port = 0) : R.onPortValueChange sh port value =
      ({ R with portLen := Function.update R.portLen port (some value) }, sh) := if_pos h

theorem onPortValueChange_link {port : ℤ} (sh : Shared) (value : ℤ) (h : R.port2RouterID port = t)
    (ht : t ≠ 0) : R.onPortValueChange sh port value =
      ({ R with
          portLen := Function.update R.portLen port (some value)
          dv := (R.dv.updateC sh.totRouterNum sh.lstChangeVersion t value).1
          port2RouterID := if value = -1 then Function.update R.port2RouterID port 0
            else R.port2RouterID },
        { sh with lstChangeVersion :=
            (R.dv.updateC sh.totRouterNum sh.lstChangeVersion t value).2.1 }) := by
  subst h
  exact if_neg ht

theorem router_trigger (R : Router) (sh : Shared) (inPort : ℤ) :
    (R.router sh inPort triggerPacket).router = R ∧
    (R.router sh inPort triggerPacket).shared = sh ∧
    (R.router sh inPort triggerPacket).advert = some (R.advert sh.totRouterNum) :=
  ⟨rfl, rfl, rfl⟩

def Router.lenOf (R : Router) (port : ℤ) : ℤ := (R.portLen port).getD (-1)

def Router.edgeOf (R : Router) (sh : Shared) (inPort : ℤ) (rid : ℕ) : DV × ℤ × ℤ :=
  R.dv.updateC sh.totRouterNum sh.lstChangeVersion rid (R.lenOf inPort)

def Router.vecOf (R : Router) (sh : Shared) (inPort : ℤ) (rid : ℕ) (version : ℤ) (row : List ℤ) :
    DV × Bool :=
  (R.edgeOf sh inPort rid).1.updateDVFrom sh.totRouterNum rid (temdv sh.totRouterNum row) version

/-- What a DV packet from another router does, and when it is answered. -/
theorem onDV_spec (sh : Shared) (inPort : ℤ) (pk : Packet) {rid : ℕ} (version : ℤ)
    (row : List ℤ) (hne : rid ≠ R.routerID) :
    (R.onDV sh inPort pk rid version row).router = { R with
      routerID2Port := Function.update R.routerID2Port rid inPort
      port2RouterID := Function.update R.port2RouterID inPort rid
      dv := (R.vecOf sh inPort rid version row).1 } ∧
    (R.onDV sh inPort pk rid version row).shared = { sh with
      lstChangeVersion := (R.edgeOf sh inPort rid).2.1 } ∧
    (((R.onDV sh inPort pk rid version row).ret = some (-1) ∧
        (R.vecOf sh inPort rid version row).2 = false ∧ (R.edgeOf sh inPort rid).2.2 = 0) ∨
      ((R.onDV sh inPort pk rid version row).ret = some 0 ∧
        ¬ ((R.vecOf sh inPort rid version row).2 = false ∧ (R.edgeOf sh inPort rid).2.2 = 0) ∧
        (R.onDV sh inPort pk rid version row).packet =
          (R.onDV sh inPort pk rid version row).router.dvInfo sh.totRouterNum)) := by
  by_cases hquiet : (R.vecOf sh inPort rid version row).2 = false ∧
      (R.edgeOf sh inPort rid).2.2 = 0
  · have hout : R.onDV sh inPort pk rid version row = _ :=
      (if_neg hne).trans (if_pos hquiet)
    rw [hout]
    exact ⟨rfl, rfl, Or.inl ⟨rfl, hquiet⟩⟩
  · have hout : R.onDV sh inPort pk rid version row = _ :=
      (if_neg hne).trans (if_neg hquiet)
    rw [hout]
    exact ⟨rfl, rfl, Or.inr ⟨rfl, hquiet, rfl⟩⟩

private theorem router_dv (R : Router) (sh : Shared) (inPort : ℤ) {a : Advert}
    (hne : a.sender ≠ R.routerID) :
    (R.router sh inPort a.packet).router = { R with
      routerID2Port := Function.update R.routerID2Port a.sender inPort
      port2RouterID := Function.update R.port2RouterID inPort a.sender
      dv := ((R.dv.updateC sh.totRouterNum sh.lstChangeVersion a.sender
        (R.lenOf inPort)).1.updateDVFrom sh.totRouterNum a.sender
          (temdv sh.totRouterNum a.row) a.version).1 } ∧
    (R.router sh inPort a.packet).shared = { sh with
      lstChangeVersion := (R.dv.updateC sh.totRouterNum sh.lstChangeVersion a.sender
        (R.lenOf inPort)).2.1 } ∧
    ((R.router sh inPort a.packet).advert = none ∨ (R.router sh inPort a.packet).advert =
      some ((R.router sh inPort a.packet).router.advert sh.totRouterNum)) := by
  obtain ⟨hrouter, hshared, hret⟩ := onDV_spec sh inPort a.packet a.version a.row hne
  refine ⟨hrouter, hshared, ?_⟩
  have hout : R.router sh inPort a.packet =
      R.onDV sh inPort a.packet a.sender a.version a.row := rfl
  rw [hout]
  unfold Outcome.advert
  rcases hret with ⟨hret, -⟩ | ⟨hret, -, hpacket⟩
  · left
    split
    · rename_i hzero _
      exact absurd (hret.symm.trans hzero) (by decide)
    · rfl
  · right
    rw [hret, hpacket]
    rfl

end Calls

section Invariant

theorem dv_update (w : Routers) (r : ℕ) (R' : Router) (sh : Shared) :
    (⟨Function.update w.routers r R', sh⟩ : Routers).dv = Function.update w.dv r R'.dv := by
  funext x
  exact Function.apply_update (fun _ R => R.dv) w.routers r R' x

theorem update_dv_self (w : Routers) (r : ℕ) : Function.update w.dv r (w.routers r).dv = w.dv :=
  Function.update_eq_self r w.dv

theorem Versions.broadcast {tot : ℕ} {dv : ℕ → DV} {lst : ℤ} {sent : List (ℕ × Advert)} {x : ℕ}
    (h : Versions tot lo dv lst sent) (hx : 1 ≤ x ∧ x ≤ tot) {o : Option Advert}
    (ho : o = none ∨ o = some ⟨(dv x).routerID, (dv x).version, (dv x).row tot⟩) :
    Versions tot lo dv lst (sent ++ (o.map fun a => (x, a)).toList) := by
  rcases ho with rfl | rfl
  · simpa using h
  · exact h.send hx

theorem NetInv.call_of (h : NetInv C lo st) (hr : 1 ≤ r ∧ r ≤ C.n) {lo' : ℤ → ℕ → ℕ → ℤ}
    (htot : ((st.w.routers r).router st.w.shared inPort pk).shared.totRouterNum = C.n)
    (hv : Versions C.n lo'
      (Function.update st.w.dv r ((st.w.routers r).router st.w.shared inPort pk).router.dv)
      ((st.w.routers r).router st.w.shared inPort pk).shared.lstChangeVersion st.sent)
    (hl : Linked C r ((st.w.routers r).router st.w.shared inPort pk).router)
    (ho : ((st.w.routers r).router st.w.shared inPort pk).advert = none ∨
      ((st.w.routers r).router st.w.shared inPort pk).advert =
        some (((st.w.routers r).router st.w.shared inPort pk).router.advert C.n)) :
    NetInv C lo' (st.call r inPort pk) := by
  refine ⟨htot, ?_, ?_⟩
  · show Versions C.n lo' (Routers.dv ⟨Function.update st.w.routers r _, _⟩) _ _
    rw [dv_update]
    apply hv.broadcast hr
    simpa [Router.advert, Routers.call] using ho
  · exact forall_update (p := Linked C) hl fun x _ hx => h.linked x hx

theorem linkValue_lenOf (h : ∀ p value, R.portLen p = some value → LinkValue value) (p : ℤ) :
    LinkValue (R.lenOf p) := by
  unfold Router.lenOf
  cases hp : R.portLen p with
  | none => exact Or.inl rfl
  | some value => exact h p value hp

private theorem linkValue_update (h : ∀ p value, R.portLen p = some value → LinkValue value) (p : ℤ)
    {value : ℤ} (hv : LinkValue value) :
    ∀ q value', Function.update R.portLen p (some value) q = some value' → LinkValue value' := by
  intro q value' hq
  by_cases hqp : q = p
  · subst hqp
    rw [Function.update_self] at hq
    rwa [← Option.some.inj hq]
  · rw [Function.update_of_ne hqp] at hq
    exact h q value' hq

/-- Delivery of a DV packet at a port: the port is learned, and its length becomes the metric. -/
theorem Linked.deliver (h : Linked C r R) {p : ℤ} (hp : C.port r s = some p) {dv : DV}
    (hc : dv.c = Function.update R.dv.c s (DV.linkLen (R.lenOf p))) :
    Linked C r { R with
      routerID2Port := Function.update R.routerID2Port s p
      port2RouterID := Function.update R.port2RouterID p s
      dv := dv } := by
  have hs : s ≠ 0 := by
    have := (C.ids hp).2.1
    omega
  refine ⟨h.routerID, ?_, ?_, h.lens⟩
  · intro t htr hlt
    simp only [hc] at hlt ⊢
    by_cases hts : t = s
    · subst hts
      simp only [Function.update_self, DV.linkLen] at hlt ⊢
      refine ⟨p, by simp, hs, ?_⟩
      cases hlen : R.portLen p with
      | none => simp [Router.lenOf, hlen] at hlt
      | some value =>
        by_cases hv : value = -1
        · simp [Router.lenOf, hlen, hv] at hlt
        · simp [Router.lenOf, hlen, hv]
    · rw [Function.update_of_ne hts] at hlt ⊢
      obtain ⟨q, hq, ht, hlen⟩ := h.finite t htr hlt
      have hne : q ≠ p := by
        rintro rfl
        exact hts (C.inj (h.learned q t hq ht).1 hp)
      exact ⟨q, by simpa [hne] using hq, ht, hlen⟩
  · intro q t hq ht
    simp only at hq ⊢
    by_cases hqp : q = p
    · subst hqp
      obtain rfl : s = t := by simpa using hq
      exact ⟨hp, by simp⟩
    · rw [Function.update_of_ne hqp] at hq
      obtain ⟨hport, hback⟩ := h.learned q t hq ht
      have hts : t ≠ s := by
        rintro rfl
        rw [hport] at hp
        exact hqp (by simpa using hp)
      exact ⟨hport, by simpa [hts] using hback⟩

theorem Linked.setLen (h : Linked C r R) {p value : ℤ} (hp : R.port2RouterID p = 0)
    (hv : LinkValue value) :
    Linked C r { R with portLen := Function.update R.portLen p (some value) } := by
  refine ⟨h.routerID, ?_, h.learned, linkValue_update h.lens p hv⟩
  intro t htr hlt
  obtain ⟨q, hq, ht, hlen⟩ := h.finite t htr hlt
  have hne : q ≠ p := by
    rintro rfl
    exact ht (hq.symm.trans hp)
  exact ⟨q, hq, ht, by simpa [hne] using hlen⟩

/-- The command with a new length, on a port that a router is known behind. -/
theorem Linked.setMetric (h : Linked C r R) {p value : ℤ} (hp : R.port2RouterID p = t) (ht : t ≠ 0)
    (hv : LinkValue value) {dv : DV} (hc : dv.c = Function.update R.dv.c t value) :
    Linked C r { R with portLen := Function.update R.portLen p (some value), dv := dv } := by
  refine ⟨h.routerID, ?_, h.learned, linkValue_update h.lens p hv⟩
  intro u hur hlt
  simp only [hc] at hlt ⊢
  by_cases hut : u = t
  · subst hut
    exact ⟨p, hp, ht, by simp⟩
  · rw [Function.update_of_ne hut] at hlt ⊢
    obtain ⟨q, hq, hu, hlen⟩ := h.finite u hur hlt
    have hne : q ≠ p := by
      rintro rfl
      exact hut (hq.symm.trans hp)
    exact ⟨q, hq, hu, by simpa [hne] using hlen⟩

/-- The command with -1: the port is forgotten with the link. -/
theorem Linked.unlink (h : Linked C r R) {p : ℤ} (hp : R.port2RouterID p = t) {dv : DV}
    (hc : dv.c = Function.update R.dv.c t inf) :
    Linked C r { R with
      portLen := Function.update R.portLen p (some (-1))
      dv := dv
      port2RouterID := Function.update R.port2RouterID p 0 } := by
  refine ⟨h.routerID, ?_, ?_, linkValue_update h.lens p (Or.inl rfl)⟩
  · intro u hur hlt
    simp only [hc] at hlt ⊢
    have hut : u ≠ t := by
      rintro rfl
      rw [Function.update_self] at hlt
      exact lt_irrefl _ hlt
    rw [Function.update_of_ne hut] at hlt ⊢
    obtain ⟨q, hq, hu, hlen⟩ := h.finite u hur hlt
    have hne : q ≠ p := by
      rintro rfl
      exact hut (hq.symm.trans hp)
    exact ⟨q, by simpa [hne] using hq, hu, by simpa [hne] using hlen⟩
  · intro q u hq hu
    apply h.learned q u _ hu
    by_cases hqp : q = p
    · subst hqp
      exact absurd (by simpa using hq.symm) hu
    · simpa [hqp] using hq

theorem Linked.setLink (h : Linked C r R) {p value : ℤ} (hp : R.port2RouterID p = t) (ht : t ≠ 0)
    (hv : LinkValue value) {dv : DV}
    (hc : dv.c = Function.update R.dv.c t (DV.linkLen value)) :
    Linked C r { R with
      portLen := Function.update R.portLen p (some value)
      dv := dv
      port2RouterID := if value = -1 then Function.update R.port2RouterID p 0
        else R.port2RouterID } := by
  unfold DV.linkLen at hc
  split
  · rename_i hdown
    rw [if_pos hdown] at hc
    rw [hdown]
    exact h.unlink hp hc
  · rename_i hup
    rw [if_neg hup] at hc
    exact h.setMetric hp ht hv hc

private theorem netInv_init (h : (lossy C).init st) : NetInv C firstLinks st := by
  obtain ⟨⟨htot, hlst, hfresh⟩, hsent⟩ := h
  refine ⟨htot, ?_, ?_⟩
  · rw [hlst, hsent]
    refine versions_init fun x hx => ?_
    obtain ⟨e, a, b, l, hx⟩ := hfresh x hx
    rw [Routers.dv, hx]
    rfl
  · intro r hr
    obtain ⟨e, a, b, l, hr⟩ := hfresh r hr
    rw [hr]
    refine ⟨rfl, ?_, ?_, ?_⟩
    · intro t htr hlt
      simp [Router.init, DV.init, htr] at hlt
    · intro p t hp ht
      exact absurd hp.symm ht
    · intro p value hp
      cases hp

theorem NetInv.router_deliver (h : NetInv C lo st) {p : ℤ} (hp : C.port r s = some p) {a : Advert}
    (hmem : (s, a) ∈ st.sent) :
    ((st.w.routers r).router st.w.shared p a.packet).router = { st.w.routers r with
      routerID2Port := Function.update (st.w.routers r).routerID2Port s p
      port2RouterID := Function.update (st.w.routers r).port2RouterID p s
      dv := (((st.w.routers r).dv.updateC C.n st.w.shared.lstChangeVersion s
        ((st.w.routers r).lenOf p)).1.updateDVFrom C.n s (temdv C.n a.row) a.version).1 } ∧
    ((st.w.routers r).router st.w.shared p a.packet).shared.totRouterNum = C.n ∧
    ((st.w.routers r).router st.w.shared p a.packet).shared.lstChangeVersion =
      ((st.w.routers r).dv.updateC C.n st.w.shared.lstChangeVersion s
        ((st.w.routers r).lenOf p)).2.1 ∧
    (((st.w.routers r).router st.w.shared p a.packet).advert = none ∨
      ((st.w.routers r).router st.w.shared p a.packet).advert =
        some (((st.w.routers r).router st.w.shared p a.packet).router.advert C.n)) := by
  obtain ⟨hr, -, hne⟩ := C.ids hp
  have hsender : a.sender = s := (h.versions.sent _ hmem).2.1
  have hne' : a.sender ≠ (st.w.routers r).routerID := by
    rw [hsender, (h.linked r hr).routerID]
    exact hne.symm
  obtain ⟨h1, h2, h3⟩ := router_dv (st.w.routers r) st.w.shared p hne'
  rw [hsender, h.tot] at h1 h2
  rw [h.tot] at h3
  refine ⟨h1, ?_, ?_, h3⟩ <;> rw [h2]

theorem NetInv.plain (h : NetInv C lo st) (hr : 1 ≤ r ∧ r ≤ C.n) (inPort : ℤ)
    (hpk : pk.body.Plain) : NetInv C lo (st.call r inPort pk) := by
  obtain ⟨h1, h2, h3, h4, h5, h6, h7, h8⟩ :=
    router_plain (st.w.routers r) st.w.shared inPort hpk
  have hl := h.linked r hr
  refine h.call_of hr (h6.trans h.tot) ?_ ?_ (Or.inl h8)
  · rw [h1, h7, update_dv_self]
    exact h.versions
  · refine ⟨h2.trans hl.routerID, ?_, ?_, ?_⟩
    · rw [h1, h3, h5]
      exact hl.finite
    · rw [h3, h4]
      exact hl.learned
    · rw [h5]
      exact hl.lens

theorem NetInv.trigger (h : NetInv C lo st) (hr : 1 ≤ r ∧ r ≤ C.n) :
    NetInv C lo (st.call r 1 triggerPacket) := by
  obtain ⟨h1, h2, h3⟩ := router_trigger (st.w.routers r) st.w.shared 1
  apply h.call_of hr
  · rw [h2]
    exact h.tot
  · rw [h1, h2, update_dv_self]
    exact h.versions
  · rw [h1]
    exact h.linked r hr
  · right
    rw [h3, h1, h.tot]

theorem NetInv.deliver (h : NetInv C lo st) {p : ℤ} (hp : C.port r s = some p) {a : Advert}
    (hmem : (s, a) ∈ st.sent) : ∃ lo', NetInv C lo' (st.call r p a.packet) := by
  obtain ⟨hr, hs, hne⟩ := C.ids hp
  have hl := h.linked r hr
  obtain ⟨h1, htot, hlst, h3⟩ := h.router_deliver hp hmem
  have hv := (h.versions.updateC hr hs hne.symm (linkValue_lenOf hl.lens p)).updateDVFrom hr
    hmem hne.symm
  simp only [Function.update_self, Function.update_idem] at hv
  refine ⟨_, h.call_of hr htot (by rw [h1, hlst]; exact hv) ?_ h3⟩
  have hne1 : s ≠ (st.w.routers r).dv.routerID := by
    rw [← Routers.dv, h.versions.routerID r hr]
    exact hne.symm
  have hadv : DV.Advances C.n (st.w.routers r).dv ((st.w.routers r).dv.updateC C.n
      st.w.shared.lstChangeVersion s ((st.w.routers r).lenOf p)).1 :=
    DV.advances_updateC hne1 (h.versions.version_le r hr)
  rw [h1]
  apply hl.deliver hp
  rw [DV.updateDVFrom_c _ (by rwa [hadv.routerID]), DV.updateC_c _ hne1]

theorem NetInv.setLen (h : NetInv C lo st) (hr : 1 ≤ r ∧ r ≤ C.n) {p value : ℤ}
    (hrid : (st.w.routers r).port2RouterID p = 0) (hvalue : LinkValue value) :
    NetInv C lo (st.call r 1 ⟨0, 0, .portValueChange p value⟩) := by
  have hout : (st.w.routers r).router st.w.shared 1 ⟨0, 0, .portValueChange p value⟩ =
      ⟨{ st.w.routers r with
          portLen := Function.update (st.w.routers r).portLen p (some value) },
        st.w.shared, ⟨0, 0, .portValueChange p value⟩, some (-1)⟩ := by
    simp only [Router.router, onPortValueChange_host _ _ hrid]
  apply h.call_of hr <;> rw [hout]
  · exact h.tot
  · show Versions C.n lo (Function.update st.w.dv r (st.w.routers r).dv) _ _
    rw [update_dv_self]
    exact h.versions
  · exact (h.linked r hr).setLen hrid hvalue
  · exact Or.inl rfl

theorem NetInv.setLink (h : NetInv C lo st) {p value : ℤ} (hp : C.port r t = some p)
    (hrid : (st.w.routers r).port2RouterID p = t) (hvalue : LinkValue value) :
    ∃ lo', NetInv C lo' (st.call r 1 ⟨0, 0, .portValueChange p value⟩) := by
  obtain ⟨hr, ht, hne⟩ := C.ids hp
  have ht0 : t ≠ 0 := by omega
  have hout : (st.w.routers r).router st.w.shared 1 ⟨0, 0, .portValueChange p value⟩ =
      ⟨{ st.w.routers r with
          portLen := Function.update (st.w.routers r).portLen p (some value)
          dv := ((st.w.routers r).dv.updateC C.n st.w.shared.lstChangeVersion t value).1
          port2RouterID := if value = -1 then
            Function.update (st.w.routers r).port2RouterID p 0
            else (st.w.routers r).port2RouterID },
        { st.w.shared with lstChangeVersion :=
          ((st.w.routers r).dv.updateC C.n st.w.shared.lstChangeVersion t value).2.1 },
        ⟨0, 0, .portValueChange p value⟩, some (-1)⟩ := by
    simp only [Router.router, onPortValueChange_link _ _ hrid ht0, h.tot]
  have hne1 : t ≠ (st.w.routers r).dv.routerID := by
    rw [← Routers.dv, h.versions.routerID r hr]
    exact hne.symm
  have hv := h.versions.updateC hr ht hne.symm hvalue
  refine ⟨_, h.call_of hr ?_ (by rw [hout]; exact hv) ?_ ?_⟩ <;> rw [hout]
  · exact h.tot
  · exact (h.linked r hr).setLink hrid ht0 hvalue (DV.updateC_c _ hne1 value)
  · exact Or.inl rfl

/-- One step of the network keeps the invariant, with one more contribution. -/
theorem NetInv.move (h : NetInv C lo st) (mv : LossyMove) (hmv : st.Allowed C mv) :
    ∃ lo', NetInv C lo' (st.move C mv) := by
  cases mv with
  | plain r inPort pk => exact ⟨lo, h.plain hmv.1 inPort hmv.2⟩
  | trigger r => exact ⟨lo, h.trigger hmv⟩
  | deliver s r a =>
    obtain ⟨hport, hmem⟩ := hmv
    obtain ⟨p, hp⟩ := Option.isSome_iff_exists.mp hport
    have hmove : st.move C (.deliver s r a) = st.call r p a.packet := by
      simp [Lossy.move, hp]
    rw [hmove]
    exact h.deliver hp hmem
  | portValue r t value =>
    obtain ⟨hport, hvalue⟩ := hmv
    obtain ⟨p, hp⟩ := Option.isSome_iff_exists.mp hport
    have hr := (C.ids hp).1
    have hmove : st.move C (.portValue r t value) =
        st.call r 1 ⟨0, 0, .portValueChange p value⟩ := by
      simp [Lossy.move, Cabling.portValue, hp]
    rw [hmove]
    by_cases hrid : (st.w.routers r).port2RouterID p = 0
    · exact ⟨lo, h.setLen hr hrid hvalue⟩
    · have hrid' : (st.w.routers r).port2RouterID p = t :=
        C.inj ((h.linked r hr).learned p _ rfl hrid).1 hp
      exact h.setLink hp hrid' hvalue

theorem netInv_lossy (h : (lossy C).Reachable st) : ∃ lo, NetInv C lo st := by
  apply h.invariant (P := fun st => ∃ lo, NetInv C lo st)
  · exact fun st hst => ⟨_, netInv_init hst⟩
  · rintro st mv ⟨lo, hst⟩ hmv
    exact hst.move mv hmv

end Invariant
end NetworkingLabs.Routing
