import NetworkingLabs.RouterDV
import Mathlib.Data.List.Sort

/-!
# The router

`Router::router` with the tables it reads and writes. A packet is kept with its two
addresses in network byte order and with its payload parsed; the maps are functions with
the default that `operator[]` or a failed `find` gives.
-/
namespace NetworkingLabs.Routing

abbrev IPAddr := BitVec 32

def internalIPMin : IPAddr := 0x0a000000
def internalIPMax : IPAddr := 0x0affffff

def isInternalIP (ip : IPAddr) : Bool := internalIPMin ≤ ip && ip ≤ internalIPMax

def ipRev (ip : IPAddr) : IPAddr :=
  (ip &&& 0xff) <<< 24 ||| (ip &&& 0xff000000) >>> 24 ||| (ip &&& 0xff00) <<< 8 |||
    (ip &&& 0xff0000) >>> 8

/-- The type byte together with what the payload says. -/
inductive Body
  | dv (routerID : ℕ) (version : ℤ) (row : List ℤ)
  | data
  | triggerDVSend
  | releaseNATItem (hostIP : IPAddr)
  | portValueChange (port value : ℤ)
  | addHost (port : ℤ) (hostIP : IPAddr)
  deriving DecidableEq

structure Packet where
  src : IPAddr
  dst : IPAddr
  body : Body
  deriving DecidableEq

structure ExIPMatcher where
  id : ℕ
  subnetIP : IPAddr
  musk : IPAddr
  deriving DecidableEq

def ExIPMatcher.matchIP (m : ExIPMatcher) (ip : IPAddr) : Bool := ip &&& m.musk == m.subnetIP

/-- The static members. -/
structure Shared where
  totRouterNum : ℕ
  lstChangeVersion : ℤ
  host2Router : IPAddr → ℕ
  externalIPTable : List ExIPMatcher

/-- The first entry that matches; `none` is the returned -1. -/
def Shared.exIPMatchRouter (sh : Shared) (exIP : IPAddr) : Option ℕ :=
  (sh.externalIPTable.find? (·.matchIP exIP)).map (·.id)

structure Router where
  routerID : ℕ
  externalPort : ℤ
  externalIPMin : IPAddr
  externalIPMax : IPAddr
  /-- `addrAlloc.address`, its back first. -/
  address : List IPAddr
  host2ExternIP : IPAddr → Option IPAddr
  externIP2Host : IPAddr → Option IPAddr
  host2Port : IPAddr → ℤ
  routerID2Port : ℕ → ℤ
  port2RouterID : ℤ → ℕ
  portLen : ℤ → Option ℤ
  dv : DV

/-- A router after `router_init`, with the ID it was given, its external range and what the
allocator was filled with. -/
def Router.init (routerID : ℕ) (externalPort : ℤ) (externalIPMin externalIPMax : IPAddr)
    (address : List IPAddr) : Router where
  routerID := routerID
  externalPort := externalPort
  externalIPMin := externalIPMin
  externalIPMax := externalIPMax
  address := address
  host2ExternIP _ := none
  externIP2Host _ := none
  host2Port _ := 0
  routerID2Port _ := 0
  port2RouterID _ := 0
  portLen _ := none
  dv := .init routerID

def Router.isExternalIP (R : Router) (ip : IPAddr) : Bool :=
  R.externalIPMin ≤ ip && ip ≤ R.externalIPMax

/-- `addrAlloc.alloc()`: the address, 0 when there is none, and what is left. -/
def alloc : List IPAddr → IPAddr × List IPAddr
  | [] => (0, [])
  | ip :: address => (ip, address)

def Router.releaseNATItem (R : Router) (internalIP : IPAddr) : Router :=
  match R.host2ExternIP internalIP with
  | none => R
  | some externalIP => { R with
      address := externalIP :: R.address
      externIP2Host := Function.update R.externIP2Host externalIP none
      host2ExternIP := Function.update R.host2ExternIP internalIP none }

def Router.dvInfo (R : Router) (tot : ℕ) : Packet :=
  ⟨0, 0, .dv R.dv.routerID R.dv.version (R.dv.row tot)⟩

def temdv (tot : ℕ) (row : List ℤ) (i : ℕ) : ℤ :=
  if 1 ≤ i ∧ i ≤ tot then row.getD (i - 1) 0 else 0

/-- What a call of `router()` leaves and returns; `none` is an index out of range. -/
structure Outcome where
  router : Router
  shared : Shared
  packet : Packet
  ret : Option ℤ

def Router.onDV (R : Router) (sh : Shared) (inPort : ℤ) (pk : Packet) (rid : ℕ) (version : ℤ)
    (row : List ℤ) : Outcome :=
  if rid = R.routerID then ⟨R, sh, pk, some (-1)⟩
  else
    let portValue := (R.portLen inPort).getD (-1)
    let edge := R.dv.updateC sh.totRouterNum sh.lstChangeVersion rid portValue
    let vec := edge.1.updateDVFrom sh.totRouterNum rid (temdv sh.totRouterNum row) version
    let R' := { R with
      routerID2Port := Function.update R.routerID2Port rid inPort
      port2RouterID := Function.update R.port2RouterID inPort rid
      dv := vec.1 }
    let sh' := { sh with lstChangeVersion := edge.2.1 }
    if vec.2 = false ∧ edge.2.2 = 0 then ⟨R', sh', pk, some (-1)⟩
    else ⟨R', sh', R'.dvInfo sh.totRouterNum, some 0⟩

/-- The port towards another router; 1 is the controller. -/
def Router.forward (R : Router) (dstRouterID : ℕ) : ℤ :=
  let nextRouter := R.dv.findNextRouter dstRouterID
  if nextRouter = 0 ∨ R.routerID2Port nextRouter = 0 then 1 else R.routerID2Port nextRouter

def Router.send (R : Router) (sh : Shared) (dstIP : IPAddr) : Option ℤ :=
  if isInternalIP dstIP then
    let dstRouterID := sh.host2Router dstIP
    if dstRouterID = R.routerID then some (R.host2Port dstIP) else some (R.forward dstRouterID)
  else match sh.exIPMatchRouter dstIP with
    | some dstRouterID =>
      if dstRouterID = R.routerID then some R.externalPort else some (R.forward dstRouterID)
    -- nextRouter[-1]
    | none => none

/-- The address of a host outside: the one it has, or a fresh one. -/
def Router.pickExternIP (R : Router) (hostAddr : IPAddr) : IPAddr × List IPAddr :=
  match R.host2ExternIP hostAddr with
  | some externalIP => (externalIP, R.address)
  | none => alloc R.address

def Router.onData (R : Router) (sh : Shared) (inPort : ℤ) (pk : Packet) : Outcome :=
  let dstIP := ipRev pk.dst
  if dstIP = 0 then ⟨R, sh, pk, some 1⟩
  else if inPort = R.externalPort then
    match R.externIP2Host dstIP with
    | none => ⟨R, sh, pk, some (-1)⟩
    | some hostAddr => ⟨R, sh, { pk with dst := ipRev hostAddr }, R.send sh hostAddr⟩
  else if R.isExternalIP dstIP then
    let hostAddr := ipRev pk.src
    if R.externalPort = 0 then ⟨R, sh, pk, some (-1)⟩
    else
      let pick := R.pickExternIP hostAddr
      let R := { R with address := pick.2 }
      if pick.1 = 0 then ⟨R, sh, pk, some (-1)⟩
      else
        let R := { R with
          externIP2Host := Function.update R.externIP2Host pick.1 (some hostAddr)
          host2ExternIP := Function.update R.host2ExternIP hostAddr (some pick.1) }
        ⟨R, sh, { pk with src := ipRev pick.1 }, R.send sh dstIP⟩
  else ⟨R, sh, pk, R.send sh dstIP⟩

def Router.onPortValueChange (R : Router) (sh : Shared) (port value : ℤ) : Router × Shared :=
  let R := { R with portLen := Function.update R.portLen port (some value) }
  let rid := R.port2RouterID port
  if rid = 0 then (R, sh)
  else
    let edge := R.dv.updateC sh.totRouterNum sh.lstChangeVersion rid value
    ({ R with
        dv := edge.1
        port2RouterID := if value = -1 then Function.update R.port2RouterID port 0
          else R.port2RouterID },
      { sh with lstChangeVersion := edge.2.1 })

def Router.router (R : Router) (sh : Shared) (inPort : ℤ) (pk : Packet) : Outcome :=
  match pk.body with
  | .dv rid version row => R.onDV sh inPort pk rid version row
  | .data => R.onData sh inPort pk
  | .triggerDVSend => ⟨R, sh, R.dvInfo sh.totRouterNum, some 0⟩
  | .releaseNATItem hostIP => ⟨R.releaseNATItem hostIP, sh, pk, some (-1)⟩
  | .portValueChange port value =>
    let out := R.onPortValueChange sh port value
    ⟨out.1, out.2, pk, some (-1)⟩
  | .addHost port hostIP =>
    ⟨{ R with host2Port := Function.update R.host2Port hostIP port },
      { sh with host2Router := Function.update sh.host2Router hostIP R.routerID }, pk, some (-1)⟩

end NetworkingLabs.Routing
