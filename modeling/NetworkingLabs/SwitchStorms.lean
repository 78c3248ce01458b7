import NetworkingLabs.SwitchedLan
import Mathlib.Data.Finset.Prod

/-!
# Broadcast storms

The switches know nothing of the cables, so a frame that they flood goes round a loop for ever.
Without a loop it arrives at no node twice.
-/
namespace NetworkingLabs.Switch
open TransitionSystem TreeDistances

variable {N : Type} [DecidableEq N] {C : Cabling N} {n : Net N} {i j : ℕ} {a : N}
  {frame : List UInt8} {header : EtherHeader} {is : List (NetEvent N)} {g : ℕ → N}

def NetEvent.IsHop : NetEvent N → Prop
  | .hop _ => True
  | _ => False

section Bound

private theorem play_hops (his : (lan C).Playable n is) (hhops : ∀ e ∈ is, e.IsHop) :
    ((lan C).play n is).arrived.length = n.arrived.length + is.length ∧
      ((lan C).play n is).sent = n.sent := by
  induction is generalizing n with
  | nil => exact ⟨rfl, rfl⟩
  | cons e is ih =>
    obtain ⟨harrived, hsent⟩ := ih his.2 fun e' he' => hhops e' (List.mem_cons_of_mem e he')
    cases e with
    | send a frame => exact (hhops _ List.mem_cons_self).elim
    | age s inPort frame => exact (hhops _ List.mem_cons_self).elim
    | hop i =>
      have hi : i < n.flying.length := his.1
      have hnext : (lan C).next n (.hop i) = n.arrive C n.flying[i] (n.flying.eraseIdx i) := by
        simp only [lan, Net.next, List.getElem?_eq_getElem hi]
      rw [play, harrived, hsent, hnext]
      simp only [Net.arrive, List.length_append, List.length_cons, List.length_nil, and_true]
      omega

/-- On a tree every frame arrives at every node at most once. -/
theorem arrived_length_le [Fintype N] (hG : C.graph.IsTree) (h : (lan C).Reachable n) :
    n.arrived.length ≤ n.sent.length * Fintype.card N := by
  have hinv := Net.Inv.reachable hG h
  have hnodup : n.arrived.Nodup := List.nodup_iff_count_le_one.mpr fun p =>
    (Nat.le_add_left _ _).trans (hinv.once p.1 p.2)
  have hsub : n.arrived.toFinset ⊆ Finset.univ ×ˢ Finset.range n.sent.length := by
    intro p hp
    rw [Finset.mem_product, Finset.mem_range]
    refine ⟨Finset.mem_univ _, ?_⟩
    exact hinv.lt_of_arrived (List.mem_toFinset.mp hp)
  calc n.arrived.length = n.arrived.toFinset.card := (List.toFinset_card_of_nodup hnodup).symm
    _ ≤ (Finset.univ ×ˢ Finset.range n.sent.length).card := Finset.card_le_card hsub
    _ = n.sent.length * Fintype.card N := by
      rw [Finset.card_product, Finset.card_univ, Finset.card_range, Nat.mul_comm]

end Bound

section Storms

/-- Whatever the cables are, the tables hold addresses of stations only. -/
structure Net.Learnt (C : Cabling N) (n : Net N) : Prop where
  stations : ∀ s addr, (n.switches s).table[macAddr2Long addr]? ≠ none →
    ∃ b, C.station b = some addr
  flying : ∀ c ∈ n.flying, ∃ a header, C.Sends a c.frame header

omit [DecidableEq N] in
private theorem learnt_processFrame {s : EthernetSwitch} {inPort : ℤ} {addr : MacAddr}
    (h : (s.processFrame inPort header).1.table[macAddr2Long addr]? ≠ none) :
    s.table[macAddr2Long addr]? ≠ none ∨
      header.etherType ≠ etherControlType ∧ header.etherSrc = addr := by
  by_cases hcontrol : header.etherType = etherControlType
  · rw [EthernetSwitch.processFrame, if_pos hcontrol] at h
    obtain ⟨it, hit⟩ := Option.ne_none_iff_exists'.mp h
    obtain ⟨old, hold, -⟩ := aging_entry hit
    exact Or.inl (hold ▸ Option.some_ne_none old)
  · rw [processFrame_table hcontrol] at h
    by_cases haddr : header.etherSrc = addr
    · exact Or.inr ⟨hcontrol, haddr⟩
    · rw [if_neg haddr] at h
      exact Or.inl h

theorem Net.Learnt.process (h : n.Learnt C) {c : Copy N} (hc : c ∈ n.flying) (s : N)
    (addr : MacAddr)
    (hs : (Function.update n.switches c.dst (n.process C c).1 s).table[macAddr2Long addr]? ≠ none) :
    ∃ b, C.station b = some addr := by
  by_cases heq : s = c.dst
  · subst heq
    rw [Function.update_self] at hs
    cases hstation : C.station c.dst with
    | some addr' =>
      rw [process_station (Option.isSome_iff_exists.mpr ⟨addr', hstation⟩)] at hs
      exact h.stations _ addr hs
    | none =>
      obtain ⟨a, header, hheader, -, hsrc⟩ := h.flying c hc
      rw [process_switch hstation hheader] at hs
      rcases learnt_processFrame hs with hold | ⟨-, hnew⟩
      · exact h.stations _ addr hold
      · exact ⟨a, hnew ▸ hsrc⟩
  · rw [Function.update_of_ne heq] at hs
    exact h.stations s addr hs

theorem Net.Learnt.next (h : n.Learnt C) (e : NetEvent N) (he : n.Allowed C e) :
    (n.next C e).Learnt C := by
  cases e with
  | send a frame =>
    obtain ⟨header, hheader, hdata, hsrc⟩ := he
    refine ⟨h.stations, ?_⟩
    intro c hc
    rcases List.mem_append.mp hc with hold | hnew
    · exact h.flying c hold
    · obtain ⟨y, -, rfl⟩ := List.mem_map.mp hnew
      exact ⟨a, header, hheader, hdata, hsrc⟩
  | hop i =>
    have hi : i < n.flying.length := he
    have hmem : n.flying[i] ∈ n.flying := List.getElem_mem hi
    simp only [Net.next, List.getElem?_eq_getElem hi]
    refine ⟨h.process hmem, ?_⟩
    intro c hc
    rcases List.mem_append.mp hc with hold | hnew
    · exact h.flying c (List.mem_of_mem_eraseIdx hold)
    · obtain ⟨y, -, rfl⟩ := List.mem_map.mp hnew
      exact h.flying n.flying[i] hmem
  | age s inPort frame =>
    obtain ⟨-, header, hheader, hcontrol⟩ := he
    simp only [Net.next, Option.mem_def.mp hheader]
    refine ⟨?_, h.flying⟩
    intro t addr
    change (Function.update n.switches s _ t).table[_]? ≠ none → _
    by_cases ht : t = s
    · subst ht
      rw [Function.update_self]
      intro hlearnt
      rcases learnt_processFrame hlearnt with hold | ⟨hdata, -⟩
      · exact h.stations t addr hold
      · exact absurd hcontrol hdata
    · rw [Function.update_of_ne ht]
      exact h.stations t addr

theorem Net.Learnt.reachable (h : (lan C).Reachable n) : n.Learnt C := by
  apply h.invariant
  · rintro n ⟨hswitches, -, hflying, -⟩
    refine ⟨?_, by simp [hflying]⟩
    intro s addr hs
    obtain ⟨t, numPorts, ht⟩ := hswitches s
    rw [ht, EthernetSwitch.initSwitch] at hs
    exact absurd Std.TreeMap.getElem?_emptyc hs
  · exact fun _ e hn => hn.next e

/-- A frame for no station takes every turn of a walk that never turns back. -/
theorem Net.Learnt.flood (h : n.Learnt C) (hsends : C.Sends a frame header)
    (hdest : ∀ b, C.station b ≠ some header.etherDest) (hg : NeverBack C.graph g) {id : ℕ}
    (hc : ⟨g j, g (j + 1), id, frame⟩ ∈ n.flying) : ∃ i, n.Allowed C (.hop i) ∧
      ⟨g (j + 1), g (j + 2), id, frame⟩ ∈ (n.next C (.hop i)).flying := by
  obtain ⟨i, hi, hget⟩ := List.mem_iff_getElem.mp hc
  refine ⟨i, hi, ?_⟩
  simp only [Net.next, List.getElem?_eq_getElem hi, hget]
  have hback : g j ∈ C.cables (g (j + 1)) := C.symm _ _ (hg j).1
  have hon : g (j + 2) ∈ C.cables (g (j + 1)) := (hg (j + 1)).1
  have hstation : C.station (g (j + 1)) = none := by
    by_contra hsome
    have hleaf := C.station_leaf _ (Option.isSome_iff_ne_none.mpr hsome)
    exact (hg j).2 (hleaf _ hon _ hback)
  have hlearnt := h.process hc (g (j + 1)) header.etherDest
  rw [Function.update_self, process_switch hstation hsends.1] at hlearnt
  refine List.mem_append_right _ (List.mem_map.mpr ⟨g (j + 2), ?_, rfl⟩)
  rw [process_switch hstation hsends.1, mem_forward, processFrame_out hsends.2.1]
  refine ⟨hon, ?_⟩
  cases hit : ((n.switches (g (j + 1))).processFrame (C.port (g (j + 1)) (g j))
      header).1.table[macAddr2Long header.etherDest]? with
  | none => exact (hg j).2
  | some it =>
    obtain ⟨b, hb⟩ := hlearnt (hit ▸ Option.some_ne_none it)
    exact absurd hb (hdest b)

theorem Net.Learnt.storm (h : n.Learnt C) (hsends : C.Sends a frame header)
    (hdest : ∀ b, C.station b ≠ some header.etherDest) (hg : NeverBack C.graph g) {id : ℕ}
    (hc : ⟨g j, g (j + 1), id, frame⟩ ∈ n.flying) (m : ℕ) :
    ∃ is, is.length = m ∧ (∀ e ∈ is, e.IsHop) ∧ (lan C).Playable n is := by
  induction m generalizing n j with
  | zero => exact ⟨[], rfl, by simp, trivial⟩
  | succ m ih =>
    obtain ⟨i, hi, hnext⟩ := h.flood hsends hdest hg hc
    obtain ⟨is, hlen, hhops, his⟩ := ih (h.next _ hi) hnext
    exact ⟨.hop i :: is, by rw [List.length_cons, hlen],
      List.forall_mem_cons.mpr ⟨trivial, hhops⟩, hi, his⟩

end Storms

/-- One frame for an unknown address makes a storm without end if the cables form a loop, and
only then. -/
theorem storms_iff_loops [Fintype N] (hG : C.graph.Connected) (h : (lan C).Reachable n)
    (hsends : C.Sends a frame header) (hdest : ∀ b, C.station b ≠ some header.etherDest) :
    (∃ m, ∀ is, (lan C).Playable n (.send a frame :: is) → (∀ e ∈ is, e.IsHop) →
      is.length ≤ m) ↔ C.graph.IsAcyclic := by
  have hsend : n.Allowed C (.send a frame) := ⟨header, hsends.1, hsends.2.1, hsends.2.2⟩
  constructor
  · rintro ⟨m, hm⟩
    by_contra hcycle
    obtain ⟨g, hg, rfl⟩ := exists_neverBack hG hcycle a
    have hlearnt := (Net.Learnt.reachable h).next _ hsend
    have hcopy : ⟨g 0, g 1, n.sent.length, frame⟩ ∈ (n.next C (.send (g 0) frame)).flying :=
      List.mem_append_right _ (List.mem_map.mpr ⟨g 1, (hg 0).1, rfl⟩)
    obtain ⟨is, hlen, hhops, his⟩ := hlearnt.storm hsends hdest hg hcopy (m + 1)
    have hle := hm is ⟨hsend, his⟩ hhops
    omega
  · intro hacyclic
    refine ⟨(n.sent.length + 1) * Fintype.card N, ?_⟩
    intro is his hhops
    have hreach := h.play his
    have hle := arrived_length_le ⟨hG, hacyclic⟩ hreach
    obtain ⟨harrived, hsent⟩ := play_hops his.2 hhops
    rw [play, harrived, hsent] at hle
    have hone : ((lan C).next n (.send a frame)).sent.length = n.sent.length + 1 :=
      List.length_append
    rw [hone] at hle
    omega

def ring : Cabling (Bool × Bool) where
  cables
    | (false, false) => [(false, true), (true, false), (true, true)]
    | (false, true) => [(true, false), (false, false)]
    | (true, false) => [(false, false), (false, true)]
    | (true, true) => [(false, false)]
  port _ y := 1 + 2 * y.1.toNat + y.2.toNat
  station
    | (true, true) => some stationA
    | _ => none
  nodup := by decide
  symm := by decide
  irrefl := by decide
  port_pos := by decide
  port_inj := by decide
  station_inj := by decide
  station_leaf := by decide

instance : DecidableRel ring.graph.Adj :=
  fun x y => inferInstanceAs (Decidable (y ∈ ring.cables x))

theorem ring_connected : ring.graph.Connected := by decide

private theorem ring_not_acyclic : ¬ ring.graph.IsAcyclic := by
  intro hacyclic
  have htree : ring.graph.IsTree := ⟨ring_connected, hacyclic⟩
  rw [SimpleGraph.isTree_iff_connected_and_card, Nat.card_eq_fintype_card,
    Nat.card_eq_fintype_card] at htree
  exact absurd htree.2 (by decide)

/-- In the ring a single frame is passed on as often as one likes. -/
theorem storms_iff_loops_ring : ¬ ∃ m, ∀ is, (lan ring).Playable (quietLan _)
    (.send (true, true) hello :: is) → (∀ e ∈ is, e.IsHop) → is.length ≤ m := by
  have hsends : ring.Sends (true, true) hello ⟨stationB, stationA, 0⟩ :=
    ⟨headerAt_hello, by decide, rfl⟩
  exact (storms_iff_loops ring_connected (quietLan_reachable _) hsends (by decide)).not.mpr
    ring_not_acyclic

end NetworkingLabs.Switch
