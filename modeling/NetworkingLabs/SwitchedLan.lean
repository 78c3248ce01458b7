import NetworkingLabs.ByteMemory
import NetworkingLabs.Switch
import NetworkingLabs.TransitionSystem
import NetworkingLabs.TreeDistances
import Mathlib.Combinatorics.SimpleGraph.Connectivity.Finite

/-!
# Switches and stations on cables

Any number of switches and stations, one frame at a time on any cable. A frame that comes out
of `ProcessFrame` with 0 leaves at every port but the one it came in at, and otherwise at the
port that was returned, if it is one.
-/
namespace NetworkingLabs.Switch
open TransitionSystem TreeDistances

section Code

/-- What `(ether_header_t*) framePtr` finds in front of a frame, on a little endian machine.
There is none where it reads past the frame. -/
def headerAt (framePtr : List UInt8) : Option EtherHeader :=
  if h : 14 ≤ framePtr.length then
    some {
      etherDest := ⟨(framePtr.take 6).toArray, by simp; omega⟩
      etherSrc := ⟨((framePtr.drop 6).take 6).toArray, by simp; omega⟩
      etherType := UInt16.ofNat (ofBytesLE ((framePtr.drop 12).take 2)) }
  else none

/-- Cables between the ports of switches and stations. The ports count from one. -/
structure Cabling (N : Type) where
  cables : N → List N
  /-- The port of a switch that the cable to a neighbour is in. -/
  port : N → N → ℤ
  /-- The address of a station, none for a switch. -/
  station : N → Option MacAddr
  nodup : ∀ x, (cables x).Nodup
  symm : ∀ x, ∀ y ∈ cables x, x ∈ cables y
  irrefl : ∀ x, x ∉ cables x
  port_pos : ∀ s, ∀ y ∈ cables s, 0 < port s y
  port_inj : ∀ s, ∀ y ∈ cables s, ∀ z ∈ cables s, port s y = port s z → y = z
  station_inj : ∀ x y, (station x).isSome → station x = station y → x = y
  station_leaf : ∀ x, (station x).isSome → ∀ y ∈ cables x, ∀ z ∈ cables x, y = z

/-- A frame on the cable from `src` to `dst`; `id` is its number among the frames sent. -/
structure Copy (N : Type) where
  src : N
  dst : N
  id : ℕ
  frame : List UInt8
  deriving DecidableEq

/-- The switches, every frame that a station has sent, the frames under way, and which frames
have arrived where. -/
structure Net (N : Type) where
  switches : N → EthernetSwitch
  sent : List (N × List UInt8)
  flying : List (Copy N)
  arrived : List (N × ℕ)

/-- A station sends, the frame at some place among those under way arrives, or a switch is
given a control frame. -/
inductive NetEvent (N : Type)
  | send (a : N) (frame : List UInt8)
  | hop (i : ℕ)
  | age (s : N) (inPort : ℤ) (frame : List UInt8)
  deriving DecidableEq

variable {N : Type} [DecidableEq N]

def Cabling.forward (C : Cabling N) (s x : N) (out : ℤ) : List N :=
  (C.cables s).filter fun y => if out = 0 then y ≠ x else C.port s y = out

/-- What a frame makes of the node that it arrives at, and where it goes on. A station takes
the frame and sends nothing. -/
def Net.process (C : Cabling N) (n : Net N) (c : Copy N) : EthernetSwitch × List N :=
  match C.station c.dst, headerAt c.frame with
  | none, some header =>
    let (s, out) := (n.switches c.dst).processFrame (C.port c.dst c.src) header
    (s, C.forward c.dst c.src out)
  | _, _ => (n.switches c.dst, [])

def copies (x : N) (id : ℕ) (frame : List UInt8) (ys : List N) : List (Copy N) :=
  ys.map fun y => ⟨x, y, id, frame⟩

def Net.arrive (C : Cabling N) (n : Net N) (c : Copy N) (rest : List (Copy N)) : Net N where
  switches := Function.update n.switches c.dst (n.process C c).1
  sent := n.sent
  flying := rest ++ copies c.dst c.id c.frame (n.process C c).2
  arrived := n.arrived ++ [(c.dst, c.id)]

def Net.next (C : Cabling N) (n : Net N) : NetEvent N → Net N
  | .send a frame => { n with
      sent := n.sent ++ [(a, frame)]
      flying := n.flying ++ copies a n.sent.length frame (C.cables a) }
  | .hop i =>
    match n.flying[i]? with
    | none => n
    | some c => n.arrive C c (n.flying.eraseIdx i)
  | .age s inPort frame =>
    match headerAt frame with
    | none => n
    | some header => { n with
        switches := Function.update n.switches s ((n.switches s).processFrame inPort header).1 }

def Cabling.Sends (C : Cabling N) (a : N) (frame : List UInt8) (header : EtherHeader) : Prop :=
  headerAt frame = some header ∧ header.etherType ≠ etherControlType ∧
    C.station a = some header.etherSrc

def Net.Allowed (C : Cabling N) (n : Net N) : NetEvent N → Prop
  | .send a frame => ∃ header ∈ headerAt frame, header.etherType ≠ etherControlType ∧
      C.station a = some header.etherSrc
  | .hop i => i < n.flying.length
  | .age s _ frame => C.station s = none ∧
      ∃ header ∈ headerAt frame, header.etherType = etherControlType

instance (C : Cabling N) (n : Net N) : (e : NetEvent N) → Decidable (n.Allowed C e)
  | .send _ _ => inferInstanceAs (Decidable (∃ _ ∈ _, _))
  | .hop _ => inferInstanceAs (Decidable (_ < _))
  | .age _ _ _ => inferInstanceAs (Decidable (_ ∧ ∃ _ ∈ _, _))

def lan (C : Cabling N) : TransitionSystem (Net N) (NetEvent N) where
  init n := (∀ x, ∃ s numPorts, n.switches x = EthernetSwitch.initSwitch s numPorts) ∧
    n.sent = [] ∧ n.flying = [] ∧ n.arrived = []
  enabled := Net.Allowed C
  next := Net.next C

instance (C : Cabling N) (n : Net N) (e : NetEvent N) : Decidable ((lan C).enabled n e) :=
  inferInstanceAs (Decidable (n.Allowed C e))

end Code

section Tables

variable {s : EthernetSwitch} {inPort : ℤ} {header : EtherHeader} {a : ℕ} {it : Entry}

theorem aging_entry (h : s.aging.table[a]? = some it) : ∃ old, s.table[a]? = some old ∧
    it.port = old.port ∧ it.lifeTime = old.lifeTime - 1 := by
  rw [aging_getElem?] at h
  obtain ⟨old, hold, hrest⟩ := Option.bind_eq_some_iff.mp h
  by_cases hlast : old.lifeTime = 1
  · rw [if_pos hlast] at hrest
    cases hrest
  · rw [if_neg hlast] at hrest
    cases hrest
    exact ⟨old, hold, rfl, rfl⟩

theorem aging_keeps (h : s.table[a]? = some it) (hlife : it.lifeTime ≠ 1) :
    s.aging.table[a]? = some { it with lifeTime := it.lifeTime - 1 } := by
  rw [aging_getElem?, h, Option.bind_some, if_neg hlife]

/-- A data frame is learnt from and changes nothing else. -/
theorem processFrame_table (h : header.etherType ≠ etherControlType) (addr : MacAddr) :
    (s.processFrame inPort header).1.table[macAddr2Long addr]? =
      if header.etherSrc = addr then some ⟨inPort, etherMacAgingThreshold⟩
      else s.table[macAddr2Long addr]? := by
  have htable : (s.processFrame inPort header).1.table =
      s.table.insert (macAddr2Long header.etherSrc) ⟨inPort, etherMacAgingThreshold⟩ := by
    simp only [EthernetSwitch.processFrame, if_neg h]
    split
    · rfl
    · split <;> rfl
  rw [htable, Std.TreeMap.getElem?_insert]
  simp only [compare_eq_iff_eq, macAddr2Long_injective.eq_iff]

private theorem processFrame_ne (hpos : 0 < inPort) :
    (s.processFrame inPort header).2 ≠ inPort := by
  simp only [EthernetSwitch.processFrame]
  split
  · omega
  · split
    · exact hpos.ne
    · split
      · omega
      · assumption

theorem processFrame_out (h : header.etherType ≠ etherControlType) :
    (s.processFrame inPort header).2 =
      ((s.processFrame inPort header).1.table[macAddr2Long header.etherDest]?).elim 0
        fun it => if it.port = inPort then -1 else it.port := by
  simp only [EthernetSwitch.processFrame, if_neg h]
  split
  · rename_i hnone
    simp only [hnone, Option.elim_none]
  · rename_i destEntry hsome
    by_cases hport : destEntry.port = inPort
    · simp only [hport, if_true, hsome, Option.elim_some]
    · simp only [if_neg hport, hsome, Option.elim_some]

end Tables

section Directions

variable {N : Type} {C : Cabling N} {s x y a b : N} {t : EthernetSwitch} {header : EtherHeader}

def Cabling.graph (C : Cabling N) : SimpleGraph N where
  Adj x y := y ∈ C.cables x
  symm := ⟨fun x y => C.symm x y⟩
  loopless := ⟨C.irrefl⟩

/-- Every entry is about a station, and its port is the one on the way to it. -/
def Cabling.Points (C : Cabling N) (s : N) (t : EthernetSwitch) : Prop :=
  ∀ addr it, t.table[macAddr2Long addr]? = some it → it.lifeTime ≤ etherMacAgingThreshold ∧
    ∃ a, C.station a = some addr ∧ ∃ y ∈ C.cables s, C.port s y = it.port ∧ Nearer C.graph a s y

theorem Cabling.Points.init (t : EthernetSwitch) (numPorts : ℤ) :
    C.Points s (t.initSwitch numPorts) := by
  intro addr it hit
  simp [EthernetSwitch.initSwitch] at hit

theorem Cabling.Points.age (h : C.Points s t) : C.Points s t.aging := by
  intro addr it hit
  obtain ⟨old, hold, hport, hlife⟩ := aging_entry hit
  obtain ⟨hmost, a, ha, y, hy, hyport, hnear⟩ := h addr old hold
  exact ⟨by omega, a, ha, y, hy, hyport.trans hport.symm, hnear⟩

theorem Cabling.Points.learn (h : C.Points s t) (hdata : header.etherType ≠ etherControlType)
    (hsrc : C.station a = some header.etherSrc) (hx : x ∈ C.cables s)
    (hnear : Nearer C.graph a s x) : C.Points s (t.processFrame (C.port s x) header).1 := by
  intro addr it hit
  rw [processFrame_table hdata] at hit
  by_cases haddr : header.etherSrc = addr
  · rw [if_pos haddr] at hit
    cases hit
    exact ⟨le_rfl, a, haddr ▸ hsrc, x, hx, rfl, hnear⟩
  · rw [if_neg haddr] at hit
    exact h addr it hit

variable [DecidableEq N]

theorem mem_forward {out : ℤ} : y ∈ C.forward s x out ↔
    y ∈ C.cables s ∧ if out = 0 then y ≠ x else C.port s y = out := by
  rw [Cabling.forward, List.mem_filter]
  by_cases hflood : out = 0 <;> simp [hflood]

private theorem forward_ne (hx : x ∈ C.cables s)
    (hy : y ∈ C.forward s x (t.processFrame (C.port s x) header).2) : y ∈ C.cables s ∧ y ≠ x := by
  obtain ⟨hcable, hout⟩ := mem_forward.mp hy
  refine ⟨hcable, ?_⟩
  by_cases hflood : (t.processFrame (C.port s x) header).2 = 0
  · rwa [if_pos hflood] at hout
  · rw [if_neg hflood] at hout
    rintro rfl
    exact processFrame_ne (C.port_pos s y hx) hout.symm

/-- A frame is never kept from the cable on the way to the station that it is for, nor from any
cable if it is for no station. -/
theorem forward_nearer (hG : C.graph.IsTree) (hdata : header.etherType ≠ etherControlType)
    (hpoints : C.Points s (t.processFrame (C.port s x) header).1)
    (hb : ∀ b', C.station b' = some header.etherDest → b' = b) (hx : x ∈ C.cables s)
    (hy : y ∈ C.cables s) (hne : y ≠ x) (hnear : Nearer C.graph b s y) :
    y ∈ C.forward s x (t.processFrame (C.port s x) header).2 := by
  rw [mem_forward, processFrame_out hdata]
  refine ⟨hy, ?_⟩
  cases hit : (t.processFrame (C.port s x) header).1.table[macAddr2Long header.etherDest]? with
  | none => exact hne
  | some it =>
    obtain ⟨-, a, ha, z, hz, hport, hznear⟩ := hpoints _ it hit
    obtain rfl := hb a ha
    obtain rfl : y = z := Nearer.unique hG hy hz hnear hznear
    have hother : it.port ≠ C.port s x := by
      rw [← hport]
      exact fun heq => hne (C.port_inj s y hy x hx heq)
    rw [Option.elim_some, if_neg hother, ← hport, if_neg (C.port_pos s y hy).ne']

/-- To a station that the switch knows a frame goes on the way to it, or nowhere. -/
theorem forward_known (hdata : header.etherType ≠ etherControlType)
    (hpoints : C.Points s (t.processFrame (C.port s x) header).1)
    (hb : C.station b = some header.etherDest)
    (hknown : (t.processFrame (C.port s x) header).1.table[macAddr2Long header.etherDest]? ≠ none)
    (hy : y ∈ C.forward s x (t.processFrame (C.port s x) header).2) : Nearer C.graph b s y := by
  rw [mem_forward, processFrame_out hdata] at hy
  obtain ⟨it, hit⟩ := Option.ne_none_iff_exists'.mp hknown
  obtain ⟨-, a, ha, z, hz, hport, hnear⟩ := hpoints _ it hit
  obtain rfl := C.station_inj a b (ha ▸ Option.isSome_some) (ha.trans hb.symm)
  rw [hit, Option.elim_some] at hy
  obtain ⟨hcable, hout⟩ := hy
  by_cases hback : it.port = C.port s x
  · rw [if_pos hback, if_neg (by decide)] at hout
    have hpos := C.port_pos s y hcable
    omega
  · have hpos := C.port_pos s z hz
    rw [if_neg hback, if_neg (by omega), ← hport] at hout
    obtain rfl := C.port_inj s y hcable z hz hout
    exact hnear

end Directions

section Copies

open scoped Classical

variable {N : Type} [DecidableEq N] {C : Cabling N} {n : Net N} {c : Copy N} {header : EtherHeader}
  {t x : N} {k id : ℕ} {frame : List UInt8} {ys : List N}

theorem process_station (h : (C.station c.dst).isSome) :
    n.process C c = (n.switches c.dst, []) := by
  obtain ⟨addr, haddr⟩ := Option.isSome_iff_exists.mp h
  simp only [Net.process, haddr]

theorem process_switch (h : C.station c.dst = none) (hheader : headerAt c.frame = some header) :
    n.process C c =
      (((n.switches c.dst).processFrame (C.port c.dst c.src) header).1,
        C.forward c.dst c.src
          ((n.switches c.dst).processFrame (C.port c.dst c.src) header).2) := by
  simp only [Net.process, h, hheader]

/-- The copies of a frame that come nearer to `t`, and those that have arrived there. -/
noncomputable def Net.reached (C : Cabling N) (n : Net N) (t : N) (k : ℕ) : ℕ :=
  n.flying.countP (fun c => c.id = k ∧ Nearer C.graph t c.src c.dst) + n.arrived.count (t, k)

omit [DecidableEq N] in
private theorem countP_copies : (copies x id frame ys).countP
    (fun c => c.id = k ∧ Nearer C.graph t c.src c.dst) =
      if id = k then ys.countP (fun y => Nearer C.graph t x y) else 0 := by
  rw [copies, List.countP_map]
  by_cases hk : id = k
  · rw [if_pos hk]
    apply List.countP_congr
    intro y _
    simp [hk]
  · rw [if_neg hk, List.countP_eq_zero]
    intro y _
    simp [hk]

theorem reached_eq {i : ℕ} (hc : n.flying[i]? = some c) : n.reached C t k =
    (n.flying.eraseIdx i).countP (fun c => c.id = k ∧ Nearer C.graph t c.src c.dst) +
      n.arrived.count (t, k) +
      if c.id = k then (if Nearer C.graph t c.src c.dst then 1 else 0) else 0 := by
  obtain ⟨hi, hget⟩ := List.getElem?_eq_some_iff.mp hc
  have hperm := List.getElem_cons_eraseIdx_perm hi
  rw [hget] at hperm
  rw [Net.reached, ← hperm.countP_eq, List.countP_cons]
  by_cases hk : c.id = k
  · simp only [hk, true_and, decide_eq_true_eq, if_true]
    omega
  · simp [hk]

private theorem reached_arrive (rest : List (Copy N)) : (n.arrive C c rest).reached C t k =
    rest.countP (fun c => c.id = k ∧ Nearer C.graph t c.src c.dst) + n.arrived.count (t, k) +
      if c.id = k then (n.process C c).2.countP (fun y => Nearer C.graph t c.dst y) +
        (if c.dst = t then 1 else 0) else 0 := by
  simp only [Net.reached, Net.arrive, List.countP_append, countP_copies, List.count_append,
    List.count_singleton]
  by_cases hk : c.id = k <;> by_cases ht : c.dst = t <;> simp [hk, ht] <;> omega

private theorem reached_send (a : N) (hfresh : n.reached C t n.sent.length = 0) :
    (n.next C (.send a frame)).reached C t k = if n.sent.length = k then
      (C.cables a).countP (fun y => Nearer C.graph t a y) else n.reached C t k := by
  simp only [Net.reached, Net.next, List.countP_append, countP_copies]
  rw [Net.reached] at hfresh
  by_cases hk : n.sent.length = k
  · subst hk
    rw [if_pos rfl, if_pos rfl]
    omega
  · rw [if_neg hk, if_neg hk, Nat.add_zero]

end Copies

section Runs

variable {N : Type} [DecidableEq N] {C : Cabling N} {n : Net N} {c : Copy N} {i k : ℕ}
  {a b t : N} {frame : List UInt8} {header : EtherHeader}

/-- The tables point to the stations, every frame under way moves away from its source, and
no frame is anywhere twice or lost to a station that it is for. -/
structure Net.Inv (C : Cabling N) (n : Net N) : Prop where
  points : ∀ s, C.Points s (n.switches s)
  sends : ∀ p ∈ n.sent, ∃ header, C.Sends p.1 p.2 header
  away : ∀ c ∈ n.flying, c.dst ∈ C.cables c.src ∧
    ∃ a, n.sent[c.id]? = some (a, c.frame) ∧ Nearer C.graph a c.dst c.src
  fresh : ∀ t k, n.sent.length ≤ k → n.reached C t k = 0
  once : ∀ t k, n.reached C t k ≤ 1
  source : ∀ k a frame, n.sent[k]? = some (a, frame) → n.reached C a k = 0
  whole : ∀ k a frame header b, n.sent[k]? = some (a, frame) → headerAt frame = some header →
    b ≠ a → (∀ b', C.station b' = some header.etherDest → b' = b) → 1 ≤ n.reached C b k

theorem Net.Inv.init (h : (lan C).init n) : n.Inv C := by
  obtain ⟨hswitches, hsent, hflying, harrived⟩ := h
  have hreached : ∀ t k, n.reached C t k = 0 := by
    intro t k
    simp [Net.reached, hflying, harrived]
  refine ⟨?_, ?_, ?_, fun t k _ => hreached t k, ?_, fun k a _ _ => hreached a k, ?_⟩
  · intro s
    obtain ⟨t, numPorts, ht⟩ := hswitches s
    rw [ht]
    exact .init t numPorts
  · simp [hsent]
  · simp [hflying]
  · intro t k
    rw [hreached]
    exact Nat.zero_le 1
  · simp [hsent]

theorem Net.Inv.data (h : n.Inv C) (hc : c ∈ n.flying) (hheader : headerAt c.frame = some header) :
    header.etherType ≠ etherControlType := by
  obtain ⟨-, a, hsent, -⟩ := h.away c hc
  obtain ⟨header', hheader', hdata, -⟩ := h.sends _ (List.mem_of_getElem? hsent)
  rwa [Option.some.inj (hheader'.symm.trans hheader)] at hdata

theorem process_forward (hcable : c.dst ∈ C.cables c.src) :
    (∀ y ∈ (n.process C c).2, y ∈ C.cables c.dst ∧ y ≠ c.src) ∧ (n.process C c).2.Nodup := by
  cases hstation : C.station c.dst with
  | some addr =>
    rw [process_station (Option.isSome_iff_exists.mpr ⟨addr, hstation⟩)]
    exact ⟨by simp, List.nodup_nil⟩
  | none =>
    cases hheader : headerAt c.frame with
    | none => simp [Net.process, hstation, hheader]
    | some header =>
      rw [process_switch hstation hheader]
      exact ⟨fun y hy => forward_ne (C.symm _ _ hcable) hy, (C.nodup _).filter _⟩

/-- The switch that a frame arrives at learns where its source is. -/
theorem Net.Inv.process_points (h : n.Inv C) (hc : c ∈ n.flying) (s : N) :
    C.Points s (Function.update n.switches c.dst (n.process C c).1 s) := by
  by_cases hs : s = c.dst
  · subst hs
    rw [Function.update_self]
    obtain ⟨hcable, a, hsent, hnear⟩ := h.away c hc
    obtain ⟨header, hheader, hdata, hsrc⟩ := h.sends _ (List.mem_of_getElem? hsent)
    cases hstation : C.station c.dst with
    | some addr =>
      rw [process_station (Option.isSome_iff_exists.mpr ⟨addr, hstation⟩)]
      exact h.points c.dst
    | none =>
      rw [process_switch hstation hheader]
      exact (h.points c.dst).learn hdata hsrc (C.symm _ _ hcable) hnear
  · rw [Function.update_of_ne hs]
    exact h.points s

/-- A frame for `b` is always passed on towards `b`. -/
theorem Net.Inv.process_nearer (hG : C.graph.IsTree) (h : n.Inv C) (hc : c ∈ n.flying)
    (hheader : headerAt c.frame = some header)
    (hb : ∀ b', C.station b' = some header.etherDest → b' = b) {z : N}
    (hz : z ∈ C.cables c.dst) (hne : z ≠ c.src) (hnear : Nearer C.graph b c.dst z) :
    z ∈ (n.process C c).2 := by
  have hsrc := C.symm _ _ (h.away c hc).1
  cases hstation : C.station c.dst with
  | some addr =>
    have hsome : (C.station c.dst).isSome := Option.isSome_iff_exists.mpr ⟨addr, hstation⟩
    exact absurd (C.station_leaf c.dst hsome z hz c.src hsrc) hne
  | none =>
    have hpoints := h.process_points hc c.dst
    rw [Function.update_self, process_switch hstation hheader] at hpoints
    rw [process_switch hstation hheader]
    exact forward_nearer hG (h.data hc hheader) hpoints hb hsrc hz hne hnear

/-- Everything comes nearer to `t` at most as often as before. -/
theorem Net.Inv.arrive_le (hG : C.graph.IsTree) (h : n.Inv C) (hc : n.flying[i]? = some c) :
    (n.arrive C c (n.flying.eraseIdx i)).reached C t k ≤ n.reached C t k := by
  classical
  obtain ⟨hcable, -⟩ := h.away c (List.mem_of_getElem? hc)
  obtain ⟨hout, hnodup⟩ := process_forward (n := n) hcable
  have hle := countP_nearer_le (t := t) hG hcable hout hnodup
  rw [reached_arrive, reached_eq hc]
  by_cases hk : c.id = k
  · rw [if_pos hk, if_pos hk]
    exact Nat.add_le_add_left hle _
  · rw [if_neg hk, if_neg hk]

/-- A frame for `b` comes nearer to it as often as before. -/
theorem Net.Inv.arrive_ge (hG : C.graph.IsTree) (h : n.Inv C) (hc : n.flying[i]? = some c)
    (hheader : headerAt c.frame = some header)
    (hb : ∀ b', C.station b' = some header.etherDest → b' = b) :
    n.reached C b c.id ≤ (n.arrive C c (n.flying.eraseIdx i)).reached C b c.id := by
  classical
  have hmem := List.mem_of_getElem? hc
  have hge := countP_nearer_ge (x := c.src) hG.connected
    fun z hz hne hnear => h.process_nearer hG hmem hheader hb hz hne hnear
  rw [reached_arrive, reached_eq hc, if_pos rfl, if_pos rfl]
  exact Nat.add_le_add_left hge _

theorem Net.Inv.arrive (hG : C.graph.IsTree) (h : n.Inv C) (hc : n.flying[i]? = some c) :
    (n.arrive C c (n.flying.eraseIdx i)).Inv C := by
  have hmem := List.mem_of_getElem? hc
  obtain ⟨hcable, a, hsent, hnear⟩ := h.away c hmem
  obtain ⟨hout, -⟩ := process_forward (n := n) hcable
  refine ⟨h.process_points hmem, h.sends, ?_, ?_, ?_, ?_, ?_⟩
  · intro c' hc'
    rcases List.mem_append.mp hc' with hold | hnew
    · exact h.away c' (List.mem_of_mem_eraseIdx hold)
    · obtain ⟨y, hy, rfl⟩ := List.mem_map.mp hnew
      obtain ⟨hycable, hyne⟩ := hout y hy
      refine ⟨hycable, a, hsent, ?_⟩
      -- only the cable that it came in on leads back
      refine (nearer_or_nearer hG hycable a).resolve_left fun hback => hyne ?_
      exact Nearer.unique hG hycable (C.symm _ _ hcable) hback hnear
  · intro t k hk
    have hfresh := h.fresh t k hk
    have hle := h.arrive_le (t := t) (k := k) hG hc
    omega
  · exact fun t k => (h.arrive_le hG hc).trans (h.once t k)
  · intro k a frame hsent
    have hsource := h.source k a frame hsent
    have hle := h.arrive_le (t := a) (k := k) hG hc
    omega
  · intro k a' frame header b hsent' hheader hne hb
    have hwhole := h.whole k a' frame header b hsent' hheader hne hb
    by_cases hk : c.id = k
    · subst hk
      obtain ⟨rfl, rfl⟩ := Prod.mk.inj (Option.some.inj (hsent.symm.trans hsent'))
      exact hwhole.trans (h.arrive_ge hG hc hheader hb)
    · rw [reached_eq hc, if_neg hk] at hwhole
      rw [reached_arrive, if_neg hk]
      exact hwhole

omit [DecidableEq N] in
private theorem getElem?_sent {p : N × List UInt8} (hp : (n.sent ++ [(a, frame)])[k]? = some p) :
    n.sent[k]? = some p ∧ n.sent.length ≠ k ∨ n.sent.length = k ∧ p = (a, frame) := by
  by_cases hk : k < n.sent.length
  · rw [List.getElem?_append_left hk] at hp
    exact Or.inl ⟨hp, hk.ne'⟩
  · obtain ⟨hlen, -⟩ := List.getElem?_eq_some_iff.mp hp
    rw [List.length_append, List.length_singleton] at hlen
    obtain rfl : n.sent.length = k := by omega
    rw [List.getElem?_concat_length] at hp
    exact Or.inr ⟨rfl, (Option.some.inj hp).symm⟩

theorem Net.Inv.send (hG : C.graph.IsTree) (h : n.Inv C) (hsends : C.Sends a frame header) :
    (n.next C (.send a frame)).Inv C := by
  classical
  have hreached : ∀ t k, (n.next C (.send a frame)).reached C t k = if n.sent.length = k then
      (C.cables a).countP (fun y => Nearer C.graph t a y) else n.reached C t k :=
    fun t k => reached_send a (h.fresh t _ le_rfl)
  refine ⟨h.points, ?_, ?_, ?_, ?_, ?_, ?_⟩
  · intro p hp
    rcases List.mem_append.mp hp with hold | hnew
    · exact h.sends p hold
    · rw [List.mem_singleton.mp hnew]
      exact ⟨header, hsends⟩
  · intro c hc
    rcases List.mem_append.mp hc with hold | hnew
    · obtain ⟨hcable, a', hsent', hnear⟩ := h.away c hold
      refine ⟨hcable, a', ?_, hnear⟩
      exact List.getElem?_append_left (List.getElem?_eq_some_iff.mp hsent').1 ▸ hsent'
    · obtain ⟨y, hy, rfl⟩ := List.mem_map.mp hnew
      exact ⟨hy, a, List.getElem?_concat_length, nearer_end (C.symm _ _ hy)⟩
  · intro t k hk
    have hlen : n.sent.length + 1 ≤ k := by simpa [Net.next] using hk
    rw [hreached, if_neg (by omega)]
    exact h.fresh t k (by omega)
  · intro t k
    rw [hreached]
    by_cases hk : n.sent.length = k
    · rw [if_pos hk]
      exact countP_nearer_le_one hG (fun y hy => hy) (C.nodup a)
    · rw [if_neg hk]
      exact h.once t k
  · intro k a' frame' hk
    rw [hreached]
    rcases getElem?_sent hk with ⟨hold, hne'⟩ | ⟨rfl, hnew⟩
    · rw [if_neg hne']
      exact h.source k a' frame' hold
    · obtain ⟨rfl, rfl⟩ := Prod.mk.inj hnew
      rw [if_pos rfl, List.countP_eq_zero]
      exact fun y _ hy => not_nearer_self (of_decide_eq_true hy)
  · intro k a' frame' header' b hk hheader hne hb
    rw [hreached]
    rcases getElem?_sent hk with ⟨hold, hne'⟩ | ⟨rfl, hnew⟩
    · rw [if_neg hne']
      exact h.whole k a' frame' header' b hold hheader hne hb
    · obtain ⟨rfl, rfl⟩ := Prod.mk.inj hnew
      obtain ⟨y, hy, hnear⟩ := exists_nearer hG.connected hne.symm
      rw [if_pos rfl]
      exact List.countP_pos_iff.mpr ⟨y, hy, decide_eq_true hnear⟩

theorem Net.Inv.age (h : n.Inv C) (s : N) (inPort : ℤ)
    (hcontrol : header.etherType = etherControlType) :
    Net.Inv C { n with
      switches := Function.update n.switches s ((n.switches s).processFrame inPort header).1 } := by
  refine ⟨?_, h.sends, h.away, h.fresh, h.once, h.source, h.whole⟩
  intro t
  change C.Points t (Function.update n.switches s _ t)
  by_cases ht : t = s
  · subst ht
    rw [Function.update_self, EthernetSwitch.processFrame, if_pos hcontrol]
    exact (h.points t).age
  · rw [Function.update_of_ne ht]
    exact h.points t

theorem Net.Inv.next (hG : C.graph.IsTree) (h : n.Inv C) (e : NetEvent N) (he : n.Allowed C e) :
    (n.next C e).Inv C := by
  cases e with
  | send a frame =>
    obtain ⟨header, hheader, hdata, hsrc⟩ := he
    exact h.send hG ⟨hheader, hdata, hsrc⟩
  | hop i =>
    have hc : n.flying[i]? = some n.flying[i] := List.getElem?_eq_getElem he
    simp only [Net.next, hc]
    exact h.arrive hG hc
  | age s inPort frame =>
    obtain ⟨-, header, hheader, hcontrol⟩ := he
    simp only [Net.next, Option.mem_def.mp hheader]
    exact h.age s inPort hcontrol

theorem Net.Inv.reachable (hG : C.graph.IsTree) (h : (lan C).Reachable n) : n.Inv C :=
  h.invariant (fun _ => .init) fun _ e hn => hn.next hG e

/-- What is no longer under way has arrived at `b`, if it is for `b`. -/
theorem Net.Inv.landed (h : n.Inv C) (hsent : n.sent[k]? = some (a, frame))
    (hheader : headerAt frame = some header) (hdone : ∀ c ∈ n.flying, c.id ≠ k) (hne : b ≠ a)
    (hb : ∀ b', C.station b' = some header.etherDest → b' = b) : (b, k) ∈ n.arrived := by
  classical
  have hwhole := h.whole k a frame header b hsent hheader hne hb
  rw [Net.reached, List.countP_eq_zero.mpr, Nat.zero_add] at hwhole
  · exact List.count_pos_iff.mp hwhole
  · intro c hc hcount
    exact hdone c hc (of_decide_eq_true hcount).1

theorem Net.Inv.lt_of_arrived (h : n.Inv C) (harrived : (t, k) ∈ n.arrived) :
    k < n.sent.length := by
  by_contra hlen
  have hfresh := h.fresh t k (Nat.le_of_not_lt hlen)
  rw [Net.reached] at hfresh
  exact List.count_eq_zero.mp (Nat.eq_zero_of_add_eq_zero_left hfresh) harrived

/-- Exactly once. On cables without a loop no frame arrives anywhere twice, or where it came
from, and what is no longer under way has arrived at the station that it is for, and
everywhere if it is for none. -/
theorem frames_arrive_once (hG : C.graph.IsTree) (h : (lan C).Reachable n)
    (hsent : n.sent[k]? = some (a, frame)) (hheader : headerAt frame = some header) :
    (∀ t, n.arrived.count (t, k) ≤ 1) ∧ (a, k) ∉ n.arrived ∧
    ((∀ c ∈ n.flying, c.id ≠ k) → ∀ b, b ≠ a →
      (∀ b', C.station b' = some header.etherDest → b' = b) → (b, k) ∈ n.arrived) := by
  have hinv := Net.Inv.reachable hG h
  refine ⟨?_, ?_, fun hdone b hne hb => hinv.landed hsent hheader hdone hne hb⟩
  · intro t
    exact (Nat.le_add_left _ _).trans (hinv.once t k)
  · have hsource := hinv.source k a frame hsent
    rw [Net.reached] at hsource
    exact List.count_eq_zero.mp (Nat.eq_zero_of_add_eq_zero_left hsource)

def stationA : MacAddr := #v[2, 0, 0, 0, 0, 1]

def stationB : MacAddr := #v[2, 0, 0, 0, 0, 2]

/-- Two switches, `(false, false)` and `(false, true)`, and a station at each of them. -/
def twoSwitches : Cabling (Bool × Bool) where
  cables
    | (false, b) => [(false, !b), (true, b)]
    | (true, b) => [(false, b)]
  port _ y := if y.1 then 1 else 2
  station
    | (false, _) => none
    | (true, b) => some (if b then stationB else stationA)
  nodup := by decide
  symm := by decide
  irrefl := by decide
  port_pos := by decide
  port_inj := by decide
  station_inj := by decide
  station_leaf := by decide

instance : DecidableRel twoSwitches.graph.Adj :=
  fun x y => inferInstanceAs (Decidable (y ∈ twoSwitches.cables x))

theorem twoSwitches_tree : twoSwitches.graph.IsTree := by
  rw [SimpleGraph.isTree_iff_connected_and_card]
  constructor
  · decide
  · rw [Nat.card_eq_fintype_card, Nat.card_eq_fintype_card]
    decide

def hello : List UInt8 := [2, 0, 0, 0, 0, 2, 2, 0, 0, 0, 0, 1, 0, 0, 2, 0, 104, 105]

theorem headerAt_hello : headerAt hello = some ⟨stationB, stationA, 0⟩ := by decide

def quietLan (N : Type) : Net N := ⟨fun _ => EthernetSwitch.initSwitch ⟨∅⟩ 2, [], [], []⟩

theorem quietLan_reachable (C : Cabling N) : (lan C).Reachable (quietLan N) :=
  .init ⟨fun _ => ⟨⟨∅⟩, 2, rfl⟩, rfl, rfl, rfl⟩

theorem frames_arrive_once_hello : ((true, true), 0) ∈ ((lan twoSwitches).play (quietLan _)
    [.send (true, false) hello, .hop 0, .hop 0, .hop 0]).arrived := by
  let n := (lan twoSwitches).play (quietLan _)
    [.send (true, false) hello, .hop 0, .hop 0, .hop 0]
  have hreach : (lan twoSwitches).Reachable n := (quietLan_reachable _).play (by decide)
  have hsent : n.sent[0]? = some ((true, false), hello) := by decide
  exact (frames_arrive_once twoSwitches_tree hreach hsent headerAt_hello).2.2
    (by decide) (true, true) (by decide) (by decide)

end Runs

end NetworkingLabs.Switch
