import NetworkingLabs.SwitchedLan

/-!
# What the switches have learnt

A frame for no station tells every switch where it came from, until ten control frames later.
As long as every switch knows a station, what is sent to it goes straight there.
-/
namespace NetworkingLabs.Switch
open TransitionSystem TreeDistances

variable {N : Type} [DecidableEq N] {C : Cabling N} {n : Net N} {c : Copy N} {i k m l : ℕ}
  {a b s t : N} {frame : List UInt8} {header : EtherHeader} {addr : MacAddr} {e : NetEvent N}
  {is : List (NetEvent N)}

section Lifetimes

def NetEvent.agesAt (s : N) : NetEvent N → Bool
  | .age t _ _ => t = s
  | _ => false

/-- The switch `s` has an entry for an address, and fewer than `l` control frames leave it
there. -/
def Net.Lasts (n : Net N) (s : N) (addr : MacAddr) (l : ℕ) : Prop :=
  ∃ it, (n.switches s).table[macAddr2Long addr]? = some it ∧ (l : ℤ) ≤ it.lifeTime

instance (n : Net N) (s : N) (addr : MacAddr) (l : ℕ) : Decidable (n.Lasts s addr l) :=
  inferInstanceAs (Decidable (∃ it ∈ (n.switches s).table[macAddr2Long addr]?, _))

theorem Net.Lasts.arrive (h : n.Inv C) (hc : c ∈ n.flying) (rest : List (Copy N))
    (hs : C.station s = none) (hlasts : n.Lasts s addr l) :
    (n.arrive C c rest).Lasts s addr l := by
  obtain ⟨it, hit, hl⟩ := hlasts
  by_cases heq : s = c.dst
  · subst heq
    obtain ⟨-, a, hsent, -⟩ := h.away c hc
    obtain ⟨header, hheader, hdata, -⟩ := h.sends _ (List.mem_of_getElem? hsent)
    simp only [Net.Lasts, Net.arrive, Function.update_self, process_switch hs hheader,
      processFrame_table hdata]
    by_cases hsrc : header.etherSrc = addr
    · obtain ⟨hmost, -⟩ := h.points c.dst addr it hit
      exact ⟨_, if_pos hsrc, hl.trans hmost⟩
    · exact ⟨it, (if_neg hsrc).trans hit, hl⟩
  · exact ⟨it, by simpa only [Net.arrive, Function.update_of_ne heq] using hit, hl⟩

omit [DecidableEq N] in
theorem Net.Lasts.age (inPort : ℤ) (hcontrol : header.etherType = etherControlType)
    (hlasts : n.Lasts s addr (l + 2)) : ∃ it,
      ((n.switches s).processFrame inPort header).1.table[macAddr2Long addr]? = some it ∧
        ((l + 1 : ℕ) : ℤ) ≤ it.lifeTime := by
  obtain ⟨it, hit, hl⟩ := hlasts
  rw [EthernetSwitch.processFrame, if_pos hcontrol]
  exact ⟨_, aging_keeps hit (by omega), by simp only; omega⟩

theorem Net.Lasts.next (h : n.Inv C) (he : n.Allowed C e) (hs : C.station s = none)
    (hlasts : n.Lasts s addr (l + 1 + if e.agesAt s then 1 else 0)) :
    (n.next C e).Lasts s addr (l + 1) := by
  cases e with
  | send a frame => exact hlasts
  | hop i =>
    have hi : i < n.flying.length := he
    simp only [Net.next, List.getElem?_eq_getElem hi]
    exact Net.Lasts.arrive h (List.getElem_mem hi) _ hs hlasts
  | age t inPort frame =>
    obtain ⟨-, header, hheader, hcontrol⟩ := he
    simp only [Net.next, Option.mem_def.mp hheader]
    by_cases ht : s = t
    · subst ht
      rw [NetEvent.agesAt, if_pos (decide_eq_true rfl)] at hlasts
      obtain ⟨it, hit, hl⟩ := Net.Lasts.age inPort hcontrol hlasts
      exact ⟨it, by simpa only [Function.update_self] using hit, hl⟩
    · rw [NetEvent.agesAt, if_neg (by simpa using Ne.symm ht)] at hlasts
      obtain ⟨it, hit, hl⟩ := hlasts
      exact ⟨it, by simpa only [Function.update_of_ne ht] using hit, hl⟩

end Lifetimes

section Announcements

/-- What has arrived at `s` of the frames from number `m` on, the switch remembers. -/
def Net.Told (n : Net N) (m : ℕ) (s : N) (l : ℕ) : Prop :=
  ∀ k b frame header, m ≤ k → (s, k) ∈ n.arrived → n.sent[k]? = some (b, frame) →
    headerAt frame = some header → n.Lasts s header.etherSrc l

/-- A frame that arrives is learnt from. -/
theorem Net.Inv.learn (h : n.Inv C) (hc : c ∈ n.flying) (rest : List (Copy N))
    (hs : C.station c.dst = none) (hheader : headerAt c.frame = some header) :
    (n.arrive C c rest).Lasts c.dst header.etherSrc etherMacAgingThreshold := by
  refine ⟨⟨C.port c.dst c.src, etherMacAgingThreshold⟩, ?_, le_rfl⟩
  simp only [Net.arrive, Function.update_self, process_switch hs hheader,
    processFrame_table (h.data hc hheader), if_true]

theorem Net.Told.next (h : n.Inv C) (he : n.Allowed C e) (hs : C.station s = none)
    (hl : l + 1 ≤ etherMacAgingThreshold)
    (htold : n.Told m s (l + 1 + if e.agesAt s then 1 else 0)) :
    (n.next C e).Told m s (l + 1) := by
  intro k b frame header hm harrived hsent hheader
  cases e with
  | send a' frame' =>
    have hget : n.sent[k]? = some (b, frame) :=
      (List.getElem?_append_left (h.lt_of_arrived harrived)).symm.trans hsent
    exact htold k b frame header hm harrived hget hheader
  | hop i =>
    have hi : i < n.flying.length := he
    have hmem : n.flying[i] ∈ n.flying := List.getElem_mem hi
    simp only [Net.next, List.getElem?_eq_getElem hi] at harrived hsent ⊢
    rcases List.mem_append.mp harrived with hold | hnew
    · exact (htold k b frame header hm hold hsent hheader).arrive h hmem _ hs
    · obtain ⟨rfl, rfl⟩ := Prod.mk.inj (List.mem_singleton.mp hnew)
      obtain ⟨-, a, hsent', -⟩ := h.away _ hmem
      obtain ⟨rfl, rfl⟩ := Prod.mk.inj (Option.some.inj (hsent'.symm.trans hsent))
      obtain ⟨it, hit, hlife⟩ := h.learn hmem _ hs hheader
      exact ⟨it, hit, by omega⟩
  | age t inPort frame' =>
    have hsame : (n.next C (.age t inPort frame')).sent = n.sent ∧
        (n.next C (.age t inPort frame')).arrived = n.arrived := by
      obtain ⟨-, header', hheader', -⟩ := he
      simp only [Net.next, Option.mem_def.mp hheader', and_self]
    rw [hsame.2] at harrived
    rw [hsame.1] at hsent
    exact (htold k b frame header hm harrived hsent hheader).next h he hs

theorem Net.Told.play (hG : C.graph.IsTree) (h : n.Inv C) (hs : C.station s = none)
    (his : (lan C).Playable n is) (hl : l + 1 + is.countP (·.agesAt s) ≤ etherMacAgingThreshold)
    (htold : n.Told m s (l + 1 + is.countP (·.agesAt s))) :
    ((lan C).play n is).Told m s (l + 1) := by
  induction is generalizing n with
  | nil => exact htold
  | cons e is ih =>
    have hbudget : l + 1 + is.countP (·.agesAt s) = l + is.countP (·.agesAt s) + 1 := by omega
    rw [List.countP_cons, ← Nat.add_assoc, hbudget] at hl htold
    refine ih (h.next hG e his.1) his.2 (by omega) ?_
    rw [hbudget]
    exact Net.Told.next h his.1 hs (by omega) htold

/-- Once a frame for no station has come to rest, every switch knows its source, and still does
after fewer than ten control frames. -/
theorem announcement_known (hG : C.graph.IsTree) (h : (lan C).Reachable n)
    (his : (lan C).Playable n is) (hnew : n.sent.length ≤ k)
    (hsent : ((lan C).play n is).sent[k]? = some (b, frame))
    (hheader : headerAt frame = some header)
    (hnone : ∀ x, C.station x ≠ some header.etherDest)
    (hdone : ∀ c ∈ ((lan C).play n is).flying, c.id ≠ k) (hs : C.station s = none)
    (hl : l + 1 + is.countP (·.agesAt s) ≤ etherMacAgingThreshold) :
    ((lan C).play n is).Lasts s header.etherSrc (l + 1) := by
  have hinv := Net.Inv.reachable hG h
  have hend := Net.Inv.reachable hG (h.play his)
  obtain ⟨header', hheader', -, hsrc⟩ := hend.sends _ (List.mem_of_getElem? hsent)
  have hne : s ≠ b := by
    rintro rfl
    rw [hs] at hsrc
    cases hsrc
  have harrived := hend.landed hsent hheader hdone hne fun b' hb' => absurd hb' (hnone b')
  have hfirst : n.Told n.sent.length s (l + 1 + is.countP (·.agesAt s)) :=
    fun k _ _ _ hk hold => absurd (hinv.lt_of_arrived hold) (Nat.not_lt_of_le hk)
  exact Net.Told.play hG hinv hs his hl hfirst k b frame header hnew harrived hsent hheader

def shout : List UInt8 := [255, 255, 255, 255, 255, 255, 2, 0, 0, 0, 0, 2, 0, 0, 0, 0]

def control : List UInt8 := [0, 0, 0, 0, 0, 0, 0, 0, 0, 0, 0, 0, 1, 0, 0, 0]

/-- The other switch is given a control frame after it has learnt. -/
theorem announcement_known_shout : ((lan twoSwitches).play (quietLan _)
    [.send (true, true) shout, .hop 0, .hop 0, .hop 0, .age (false, false) 1 control]).Lasts
      (false, false) stationB 9 := by
  have his : (lan twoSwitches).Playable (quietLan _)
      [.send (true, true) shout, .hop 0, .hop 0, .hop 0, .age (false, false) 1 control] := by
    decide
  have hsent : ((lan twoSwitches).play (quietLan _) [.send (true, true) shout, .hop 0, .hop 0,
      .hop 0, .age (false, false) 1 control]).sent[0]? = some ((true, true), shout) := by decide
  have hheader : headerAt shout = some ⟨#v[255, 255, 255, 255, 255, 255], stationB, 0⟩ := by
    decide
  exact announcement_known twoSwitches_tree (quietLan_reachable _) his (by decide) hsent hheader
    (by decide) (by decide) (by decide) (by decide)

end Announcements

section Paths

/-- Frame `k` is one from `a` to an address, and not among the first `m`. -/
def Net.For (n : Net N) (m : ℕ) (addr : MacAddr) (k : ℕ) (a : N) : Prop :=
  m ≤ k ∧ ∃ frame header, n.sent[k]? = some (a, frame) ∧ headerAt frame = some header ∧
    header.etherDest = addr

/-- The frames for `b` stay on the shortest paths to it. -/
structure Net.OnPath (C : Cabling N) (m : ℕ) (b : N) (addr : MacAddr) (n : Net N) : Prop where
  flying : ∀ c ∈ n.flying, ∀ a, n.For m addr c.id a → a ≠ b → Between C.graph a b c.dst
  arrived : ∀ p ∈ n.arrived, ∀ a, n.For m addr p.2 a → a ≠ b → Between C.graph a b p.1

/-- Where a station is known, a frame for it goes on only if that leads nearer to it. -/
theorem Net.Inv.process_known (h : n.Inv C) (hc : c ∈ n.flying)
    (hheader : headerAt c.frame = some header) (hb : C.station b = some header.etherDest)
    (hknown : C.station c.dst = none → n.Lasts c.dst header.etherDest l)
    (ht : t ∈ (n.process C c).2) : Nearer C.graph b c.dst t := by
  cases hstation : C.station c.dst with
  | some addr' =>
    rw [process_station (Option.isSome_iff_exists.mpr ⟨addr', hstation⟩)] at ht
    cases ht
  | none =>
    have hpoints := h.process_points hc c.dst
    obtain ⟨it, hit, -⟩ := (hknown hstation).arrive h hc [] hstation
    simp only [Net.arrive] at hit
    rw [Function.update_self, process_switch hstation hheader] at hpoints hit
    rw [process_switch hstation hheader] at ht
    exact forward_known (h.data hc hheader) hpoints hb (hit ▸ Option.some_ne_none it) ht

theorem Net.OnPath.arrive (hG : C.graph.IsTree) (hb : C.station b = some addr) (h : n.Inv C)
    (hpath : n.OnPath C m b addr) (hknown : ∀ s, C.station s = none → n.Lasts s addr l)
    (hc : n.flying[i]? = some c) :
    (n.arrive C c (n.flying.eraseIdx i)).OnPath C m b addr := by
  have hmem := List.mem_of_getElem? hc
  constructor
  · intro c' hc' a hfor hne
    rcases List.mem_append.mp hc' with hold | hnew
    · exact hpath.flying c' (List.mem_of_mem_eraseIdx hold) a hfor hne
    · obtain ⟨y, hy, rfl⟩ := List.mem_map.mp hnew
      have hbetween := hpath.flying c hmem a hfor hne
      obtain ⟨hcable, a', hsent, -⟩ := h.away c hmem
      obtain ⟨-, frame, header, hsent', hheader, rfl⟩ := hfor
      obtain ⟨rfl, rfl⟩ := Prod.mk.inj (Option.some.inj (hsent.symm.trans hsent'))
      obtain ⟨hycable, -⟩ := (process_forward (n := n) hcable).1 y hy
      exact hbetween.step hG.connected hycable (h.process_known hmem hheader hb (hknown c.dst) hy)
  · intro p hp a hfor hne
    rcases List.mem_append.mp hp with hold | hnew
    · exact hpath.arrived p hold a hfor hne
    · obtain rfl := List.mem_singleton.mp hnew
      exact hpath.flying c hmem a hfor hne

theorem Net.OnPath.send (hG : C.graph.IsTree) (h : n.Inv C) (hpath : n.OnPath C m b addr)
    (hsends : C.Sends a frame header) : (n.next C (.send a frame)).OnPath C m b addr := by
  have hfor : ∀ {k a'}, k < n.sent.length → (n.next C (.send a frame)).For m addr k a' →
      n.For m addr k a' := by
    rintro k a' hk ⟨hm, frame', header', hsent, hrest⟩
    exact ⟨hm, frame', header', (List.getElem?_append_left hk).symm.trans hsent, hrest⟩
  constructor
  · intro c hc a' hnext hne
    rcases List.mem_append.mp hc with hold | hnew
    · obtain ⟨-, a'', hsent, -⟩ := h.away c hold
      exact hpath.flying c hold a' (hfor (List.getElem?_eq_some_iff.mp hsent).1 hnext) hne
    · obtain ⟨y, hy, rfl⟩ := List.mem_map.mp hnew
      obtain ⟨-, frame', header', hsent, -⟩ := hnext
      obtain ⟨rfl, rfl⟩ := Prod.mk.inj
        (Option.some.inj (List.getElem?_concat_length.symm.trans hsent))
      obtain ⟨z, hz, hnear⟩ := exists_nearer hG.connected hne
      -- a station has only one cable
      obtain rfl := C.station_leaf a (Option.isSome_iff_exists.mpr ⟨_, hsends.2.2⟩) z hz y hy
      exact Between.start.step hG.connected hz hnear
  · intro p hp a' hnext hne
    exact hpath.arrived p hp a' (hfor (h.lt_of_arrived hp) hnext) hne

theorem Net.OnPath.next (hG : C.graph.IsTree) (hb : C.station b = some addr) (h : n.Inv C)
    (hpath : n.OnPath C m b addr) (hknown : ∀ s, C.station s = none → n.Lasts s addr l)
    (he : n.Allowed C e) : (n.next C e).OnPath C m b addr := by
  cases e with
  | send a frame =>
    obtain ⟨header, hheader, hdata, hsrc⟩ := he
    exact hpath.send hG h ⟨hheader, hdata, hsrc⟩
  | hop i =>
    have hi : i < n.flying.length := he
    have hc : n.flying[i]? = some n.flying[i] := List.getElem?_eq_getElem hi
    simp only [Net.next, hc]
    exact hpath.arrive hG hb h hknown hc
  | age s inPort frame =>
    obtain ⟨-, header, hheader, -⟩ := he
    simp only [Net.next, Option.mem_def.mp hheader]
    exact ⟨hpath.flying, hpath.arrived⟩

theorem Net.OnPath.play (hG : C.graph.IsTree) (hb : C.station b = some addr) (h : n.Inv C)
    (hpath : n.OnPath C m b addr) (his : (lan C).Playable n is)
    (hknown : ∀ s, C.station s = none → n.Lasts s addr (is.countP (·.agesAt s) + 1)) :
    ((lan C).play n is).OnPath C m b addr := by
  induction is generalizing n with
  | nil => exact hpath
  | cons e is ih =>
    -- every switch knows the station for as many control frames as are still to come
    have hone : ∀ s, C.station s = none → n.Lasts s addr 1 := by
      intro s hs
      obtain ⟨it, hit, hlife⟩ := hknown s hs
      exact ⟨it, hit, by omega⟩
    refine ih (h.next hG e his.1) (hpath.next hG hb h hone his.1) his.2 ?_
    intro s hs
    refine Net.Lasts.next h his.1 hs ?_
    have hlasts := hknown s hs
    rwa [List.countP_cons, Nat.add_right_comm] at hlasts

/-- As long as every switch knows a station, what is sent to it visits nothing but the path to
it. -/
theorem frames_keep_to_path (hG : C.graph.IsTree) (h : (lan C).Reachable n)
    (hb : C.station b = some addr) (his : (lan C).Playable n is)
    (hknown : ∀ s, C.station s = none → n.Lasts s addr (is.countP (·.agesAt s) + 1))
    (hnew : n.sent.length ≤ k) (hsent : ((lan C).play n is).sent[k]? = some (a, frame))
    (hheader : headerAt frame = some header) (hdest : header.etherDest = addr) (hne : a ≠ b)
    (ht : (t, k) ∈ ((lan C).play n is).arrived) :
    C.graph.dist a t + C.graph.dist t b = C.graph.dist a b := by
  have hinv := Net.Inv.reachable hG h
  have hold : ∀ {k a}, ¬ n.For n.sent.length addr k a := by
    rintro k a ⟨hle, frame, header, hget, -⟩
    exact absurd (List.getElem?_eq_some_iff.mp hget).1 (Nat.not_lt_of_le hle)
  have hpath : n.OnPath C n.sent.length b addr :=
    ⟨fun _ _ _ hfor => absurd hfor hold, fun _ _ _ hfor => absurd hfor hold⟩
  exact (hpath.play hG hb hinv his hknown).arrived _ ht a
    ⟨hnew, frame, header, hsent, hheader, hdest⟩ hne

/-- The second station has announced itself, and the first one sends to it while a switch is given
a control frame. -/
theorem frames_keep_to_path_hello :
    twoSwitches.graph.dist (true, false) (false, true) +
      twoSwitches.graph.dist (false, true) (true, true) =
        twoSwitches.graph.dist (true, false) (true, true) := by
  let n := (lan twoSwitches).play (quietLan _) [.send (true, true) shout, .hop 0, .hop 0, .hop 0]
  have hreach : (lan twoSwitches).Reachable n := (quietLan_reachable _).play (by decide)
  have his : (lan twoSwitches).Playable n [.send (true, false) hello, .age (false, false) 1 control,
      .hop 0, .hop 0, .hop 0] := by decide
  have hsent : ((lan twoSwitches).play n [.send (true, false) hello,
      .age (false, false) 1 control, .hop 0, .hop 0, .hop 0]).sent[1]? =
        some ((true, false), hello) := by decide
  exact frames_keep_to_path twoSwitches_tree hreach (by decide) his (by decide) (by decide) hsent
    headerAt_hello rfl (by decide) (by decide)

end Paths

end NetworkingLabs.Switch
