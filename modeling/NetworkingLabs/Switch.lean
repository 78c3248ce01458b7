import NetworkingLabs.AgingHistory
import Mathlib.Data.List.AList
import Mathlib.Data.Nat.Bitwise

/-!
# The learning switch

The table of the switch is what the history of frames still remembers of every source
address, whatever frames arrive and in whatever order.
-/
namespace NetworkingLabs.Switch
open AgingHistory

section Code

abbrev MacAddr := Vector UInt8 6

/-- The fields of `ether_header_t` that the switch reads. -/
structure EtherHeader where
  etherDest : MacAddr
  etherSrc : MacAddr
  etherType : UInt16
  deriving DecidableEq

def etherControlType : UInt16 := 1

def etherMacAgingThreshold : ℕ := 10

/-- The 48 bits of the address stay far below the sign of a `long long`. -/
def macAddr2Long (addr : MacAddr) : ℕ := addr.toList.foldl (fun ans b => ans <<< 8 ||| b.toNat) 0

structure Entry where
  port : ℤ
  lifeTime : ℤ
  deriving DecidableEq

structure EthernetSwitch where
  table : Std.TreeMap ℕ Entry

namespace EthernetSwitch

def initSwitch (s : EthernetSwitch) (_numPorts : ℤ) : EthernetSwitch := { s with table := ∅ }

def aging (s : EthernetSwitch) : EthernetSwitch :=
  let table := s.table.map fun _ it => { it with lifeTime := it.lifeTime - 1 }
  let del := (table.toList.filter fun it => it.2.lifeTime = 0).map Prod.fst
  { s with table := del.foldl (fun table a => table.erase a) table }

def processFrame (s : EthernetSwitch) (inPort : ℤ) (header : EtherHeader) : EthernetSwitch × ℤ :=
  if header.etherType = etherControlType then (s.aging, -1)
  else
    let src := macAddr2Long header.etherSrc
    let dest := macAddr2Long header.etherDest
    let table := s.table.insert src ⟨inPort, etherMacAgingThreshold⟩
    let s := { s with table := table }
    match table[dest]? with
    | none => (s, 0)
    | some destEntry => if destEntry.port = inPort then (s, -1) else (s, destEntry.port)

end EthernetSwitch

structure Frame where
  inPort : ℤ
  header : EtherHeader
  deriving DecidableEq

def Frame.Control (f : Frame) : Prop := f.header.etherType = etherControlType

instance (f : Frame) : Decidable f.Control := inferInstanceAs (Decidable (_ = _))

def process (s : EthernetSwitch) (fs : List Frame) : EthernetSwitch :=
  fs.foldl (fun s f => (s.processFrame f.inPort f.header).1) s

def results : EthernetSwitch → List Frame → List ℤ
  | _, [] => []
  | s, f :: fs =>
    (s.processFrame f.inPort f.header).2 :: results (s.processFrame f.inPort f.header).1 fs

private theorem results_getElem? (s : EthernetSwitch) (fs : List Frame) (k : ℕ) :
    (results s fs)[k]? =
      fs[k]?.map fun f => ((process s (fs.take k)).processFrame f.inPort f.header).2 := by
  induction fs generalizing s k with
  | nil => simp [results]
  | cons f fs ih =>
    cases k with
    | zero => simp [results, process]
    | succ k =>
      rw [results, List.getElem?_cons_succ, ih, List.getElem?_cons_succ]
      rfl

end Code

section Addresses

private theorem foldl_shift_injective {bs bs' : List UInt8} (hlen : bs.length = bs'.length)
    {ans ans' : ℕ} (h : bs.foldl (fun ans b => ans <<< 8 ||| b.toNat) ans =
      bs'.foldl (fun ans b => ans <<< 8 ||| b.toNat) ans') : ans = ans' ∧ bs = bs' := by
  induction bs generalizing bs' ans ans' with
  | nil =>
    cases bs' with
    | nil => exact ⟨h, rfl⟩
    | cons b' bs' => cases hlen
  | cons b bs ih =>
    cases bs' with
    | nil => cases hlen
    | cons b' bs' =>
      obtain ⟨hstep, htail⟩ := ih (Nat.succ.inj hlen) h
      have hb : b.toNat < 2 ^ 8 := b.toNat_lt
      have hb' : b'.toNat < 2 ^ 8 := b'.toNat_lt
      simp only at hstep
      rw [← Nat.shiftLeft_add_eq_or_of_lt hb, ← Nat.shiftLeft_add_eq_or_of_lt hb',
        Nat.shiftLeft_eq, Nat.shiftLeft_eq] at hstep
      have hbyte : b.toNat = b'.toNat := by omega
      exact ⟨by omega, by rw [UInt8.toNat_inj.mp hbyte, htail]⟩

theorem macAddr2Long_injective : Function.Injective macAddr2Long := by
  intro a b hab
  have hlist := (foldl_shift_injective (by simp) hab).2
  exact Vector.toList_inj.mp hlist

end Addresses

section Table

/-- Keys that are erased one after the other are gone, and the others are left. -/
theorem getElem?_foldl_erase (del : List ℕ) (table : Std.TreeMap ℕ Entry) (a : ℕ) :
    (del.foldl (fun table a => table.erase a) table)[a]? =
      if a ∈ del then none else table[a]? := by
  induction del generalizing table with
  | nil => simp
  | cons d del ih =>
    rw [List.foldl_cons, ih, Std.TreeMap.getElem?_erase]
    by_cases hd : d = a
    · simp [hd]
    · simp [hd, Ne.symm hd]

theorem aging_getElem? (s : EthernetSwitch) (a : ℕ) : s.aging.table[a]? = s.table[a]?.bind fun it =>
    if it.lifeTime = 1 then none else some { it with lifeTime := it.lifeTime - 1 } := by
  simp only [EthernetSwitch.aging]
  rw [getElem?_foldl_erase, Std.TreeMap.getElem?_map]
  cases hit : s.table[a]? with
  | none => simp
  | some it =>
    have hmem : a ∈ (List.filter (fun it => decide (it.2.lifeTime = 0)) (Std.TreeMap.toList
        (s.table.map fun _ it => { it with lifeTime := it.lifeTime - 1 }))).map Prod.fst ↔
        it.lifeTime = 1 := by
      simp only [List.mem_map, List.mem_filter, Prod.exists, exists_and_right, exists_eq_right,
        Std.TreeMap.mem_toList_iff_getElem?_eq_some, Std.TreeMap.getElem?_map, hit,
        Option.map_some, decide_eq_true_eq]
      constructor
      · rintro ⟨_, ⟨rfl⟩, hzero⟩
        exact sub_eq_zero.mp hzero
      · intro hone
        exact ⟨_, rfl, sub_eq_zero.mpr hone⟩
    simp only [hmem, Option.map_some, Option.bind_some]

end Table

section Histories

def Frame.event (f : Frame) : AgingEvent MacAddr ℤ :=
  if f.Control then .tick else .put f.header.etherSrc f.inPort

/-- The frames of a run as events, the newest one first. -/
def history (fs : List Frame) : History MacAddr ℤ := (fs.map Frame.event).reverse

private theorem history_append (fs gs : List Frame) :
    history (fs ++ gs) = history gs ++ history fs := by
  simp [history]

private theorem ticks_history (fs : List Frame) : ticks (history fs) = fs.countP (·.Control) := by
  have hticks : ∀ (h : History MacAddr ℤ) e, ticks (h ++ [e]) = ticks h + ticks [e] := by
    intro h e
    induction h with
    | nil => simp [ticks]
    | cons e' h ih =>
      cases e' with
      | put key value => rw [List.cons_append, ticks, ticks, ih]
      | tick =>
        rw [List.cons_append, ticks, ticks, ih]
        omega
  induction fs with
  | nil => rfl
  | cons f fs ih =>
    rw [history, List.map_cons, List.reverse_cons, hticks, ← history, ih, List.countP_cons]
    by_cases hf : f.Control <;> simp [Frame.event, hf, ticks]

def Represents (s : EthernetSwitch) (h : History MacAddr ℤ) : Prop :=
  ∀ a, s.table[macAddr2Long a]? =
    (remembered etherMacAgingThreshold a h).map fun p => ⟨p.1, p.2⟩

variable {s : EthernetSwitch} {h : History MacAddr ℤ} {f : Frame}

private theorem represents_initSwitch (s : EthernetSwitch) (numPorts : ℤ) :
    Represents (s.initSwitch numPorts) [] := by
  intro a
  simp [EthernetSwitch.initSwitch, remembered, last]

theorem Represents.aging (hs : Represents s h) : Represents s.aging (.tick :: h) := by
  intro a
  rw [aging_getElem?, hs a, remembered_tick]
  cases hrem : remembered etherMacAgingThreshold a h with
  | none => rfl
  | some p =>
    have hpos : 0 < p.2 := pos_of_remembered hrem
    simp only [Option.map_some, Option.bind_some]
    by_cases hone : p.2 = 1
    · simp [hone]
    · rw [if_neg hone, if_neg (by omega), Option.map_some]
      congr
      omega

theorem Represents.learn (hs : Represents s h) (addr : MacAddr) (inPort : ℤ) :
    Represents ⟨s.table.insert (macAddr2Long addr) ⟨inPort, etherMacAgingThreshold⟩⟩
      (.put addr inPort :: h) := by
  intro a
  rw [remembered_put (by decide), Std.TreeMap.getElem?_insert]
  by_cases haddr : addr = a
  · simp [haddr]
  · rw [if_neg haddr, if_neg]
    · exact hs a
    · intro heq
      exact haddr (macAddr2Long_injective (compare_eq_iff_eq.mp heq))

def outPort (inPort : ℤ) : Option (ℤ × ℕ) → ℤ
  | none => 0
  | some p => if p.1 = inPort then -1 else p.1

theorem Represents.processFrame (hs : Represents s h) (f : Frame) :
    Represents (s.processFrame f.inPort f.header).1 (f.event :: h) ∧
      (s.processFrame f.inPort f.header).2 = if f.Control then -1 else
        outPort f.inPort
          (remembered etherMacAgingThreshold f.header.etherDest (f.event :: h)) := by
  by_cases hf : f.Control
  · have hstep : s.processFrame f.inPort f.header = (s.aging, -1) := if_pos hf
    rw [hstep, Frame.event, if_pos hf, if_pos hf]
    exact ⟨hs.aging, rfl⟩
  · have hlearn := hs.learn f.header.etherSrc f.inPort
    have hlook := hlearn f.header.etherDest
    have hdata : f.header.etherType ≠ etherControlType := hf
    rw [Frame.event, if_neg hf, if_neg hf, EthernetSwitch.processFrame, if_neg hdata]
    simp only at hlook ⊢
    rw [hlook]
    cases remembered etherMacAgingThreshold f.header.etherDest
        (.put f.header.etherSrc f.inPort :: h) with
    | none => exact ⟨hlearn, rfl⟩
    | some p =>
      simp only [Option.map_some, outPort]
      by_cases hport : p.1 = f.inPort
      · rw [if_pos hport, if_pos hport]
        exact ⟨hlearn, rfl⟩
      · rw [if_neg hport, if_neg hport]
        exact ⟨hlearn, rfl⟩

theorem Represents.process (hs : Represents s h) (fs : List Frame) :
    Represents (process s fs) (history fs ++ h) := by
  induction fs generalizing s h with
  | nil => exact hs
  | cons f fs ih =>
    have hrest := ih (hs.processFrame f).1
    rw [← List.singleton_append, history_append, List.append_assoc]
    exact hrest

end Histories

section Results

/-- Frame `g`, at place `j`, is the latest data frame up to place `k` that comes from `addr`. -/
structure LatestFrom (fs : List Frame) (k : ℕ) (addr : MacAddr) (j : ℕ) (g : Frame) : Prop where
  le : j ≤ k
  frame : fs[j]? = some g
  data : ¬ g.Control
  src : g.header.etherSrc = addr
  latest : ∀ i, j < i → i ≤ k → ∀ g', fs[i]? = some g' → ¬ g'.Control → g'.header.etherSrc ≠ addr

def controlsBetween (fs : List Frame) (j k : ℕ) : ℕ :=
  ((fs.take k).drop (j + 1)).countP (·.Control)

variable {fs : List Frame} {k j : ℕ} {f g : Frame} {addr : MacAddr}

private theorem put_mem_history {value : ℤ} (hmem : .put addr value ∈ history fs) :
    ∃ g ∈ fs, ¬ g.Control ∧ g.header.etherSrc = addr := by
  obtain ⟨g, hg, hput⟩ := List.mem_map.mp (List.mem_reverse.mp hmem)
  by_cases hdata : g.Control
  · rw [Frame.event, if_pos hdata] at hput
    cases hput
  · rw [Frame.event, if_neg hdata] at hput
    cases hput
    exact ⟨g, hg, hdata, rfl⟩

private theorem controlsBetween_eq (hk : fs[k]? = some f) (hf : ¬ f.Control) (j : ℕ) :
    controlsBetween fs j k = ((fs.take (k + 1)).drop (j + 1)).countP (·.Control) := by
  have hsub : List.Sublist (List.drop (j + 1 - (fs.take k).length) [f]) [f] :=
    List.drop_sublist _ _
  have hzero := hsub.countP_le (p := fun f => decide f.Control)
  rw [List.countP_singleton, if_neg (by simpa using hf)] at hzero
  rw [List.take_add_one, hk, Option.toList_some, List.drop_append, List.countP_append]
  exact (Nat.add_eq_left.mpr (Nat.le_zero.mp hzero)).symm

/-- The history remembers the latest frame, as old as the control frames since. -/
theorem LatestFrom.last_eq (hj : LatestFrom fs k addr j g) (hk : fs[k]? = some f)
    (hf : ¬ f.Control) :
    last addr (history (fs.take (k + 1))) = some (g.inPort, controlsBetween fs j k) := by
  have hsplit : fs.take (k + 1) = fs.take j ++ g :: (fs.take (k + 1)).drop (j + 1) := by
    have htake : (fs.take (k + 1))[j]? = some g := by
      rw [List.getElem?_take_of_lt (Nat.lt_succ_of_le hj.le)]
      exact hj.frame
    obtain ⟨hlt, hget⟩ := List.getElem?_eq_some_iff.mp htake
    rw [← hget, List.getElem_cons_drop]
    have hparts := List.take_append_drop j (fs.take (k + 1))
    rw [List.take_take, Nat.min_eq_left (Nat.le_succ_of_le hj.le)] at hparts
    exact hparts.symm
  have hnew : ∀ value, .put addr value ∉ history ((fs.take (k + 1)).drop (j + 1)) := by
    intro value hmem
    obtain ⟨g', hg', hdata, hsrc⟩ := put_mem_history hmem
    obtain ⟨n, hn⟩ := List.getElem?_of_mem hg'
    rw [List.getElem?_drop, List.getElem?_take] at hn
    by_cases hle : j + 1 + n < k + 1
    · rw [if_pos hle] at hn
      exact hj.latest (j + 1 + n) (by omega) (by omega) g' hn hdata hsrc
    · rw [if_neg hle] at hn
      cases hn
  have hevent : g.event = .put addr g.inPort := by
    rw [Frame.event, if_neg hj.data, hj.src]
  have hhist : history (fs.take (k + 1)) = history ((fs.take (k + 1)).drop (j + 1)) ++
      .put addr g.inPort :: history (fs.take j) := by
    conv_lhs => rw [hsplit]
    simp [history, hevent]
  rw [hhist, last_eq_of_put hnew, controlsBetween_eq hk hf, ticks_history]

private theorem exists_latestFrom {i : ℕ} (hi : fs[i]? = some g) (hle : i ≤ k)
    (hdata : ¬ g.Control) : ∃ j g', LatestFrom fs k g.header.etherSrc j g' := by
  induction hd : k - i using Nat.strong_induction_on generalizing i g with
  | _ d ih =>
    by_cases hlater : ∃ i', i < i' ∧ i' ≤ k ∧ ∃ g', fs[i']? = some g' ∧ ¬ g'.Control ∧
        g'.header.etherSrc = g.header.etherSrc
    · obtain ⟨i', hlt, hle', g', hi', hdata', hsrc⟩ := hlater
      rw [← hsrc]
      exact ih (k - i') (by omega) hi' hle' hdata' rfl
    · exact ⟨i, g, hle, hi, hdata, rfl, fun i' hlt hle' g' hi' hdata' hsrc =>
        hlater ⟨i', hlt, hle', g', hi', hdata', hsrc⟩⟩

private theorem last_eq_none_of_forall (hnone : ∀ j g, ¬ LatestFrom fs k addr j g) :
    last addr (history (fs.take (k + 1))) = none := by
  apply last_eq_none
  intro value hmem
  obtain ⟨g, hg, hdata, hsrc⟩ := put_mem_history hmem
  obtain ⟨i, hi⟩ := List.getElem?_of_mem hg
  rw [List.getElem?_take] at hi
  by_cases hle : i < k + 1
  · rw [if_pos hle] at hi
    obtain ⟨j, g', hlatest⟩ := exists_latestFrom hi (Nat.le_of_lt_succ hle) hdata
    rw [hsrc] at hlatest
    exact hnone j g' hlatest
  · rw [if_neg hle] at hi
    cases hi

/-- What `ProcessFrame` returns for a data frame is decided by what the history remembers of
its destination. -/
theorem results_data (s : EthernetSwitch) (numPorts : ℤ) (hk : fs[k]? = some f)
    (hf : ¬ f.Control) : (results (s.initSwitch numPorts) fs)[k]? = some (outPort f.inPort
      (remembered etherMacAgingThreshold f.header.etherDest (history (fs.take (k + 1))))) := by
  have hrep := (represents_initSwitch s numPorts).process (fs.take k)
  rw [List.append_nil] at hrep
  have hnow : history (fs.take (k + 1)) = f.event :: history (fs.take k) := by
    rw [List.take_add_one, hk, history_append]
    rfl
  rw [results_getElem?, hk, Option.map_some, (hrep.processFrame f).2, if_neg hf, hnow]

/-- The switch refines its history: a control frame goes nowhere; a data frame goes to the port
of the latest data frame from its destination, as long as fewer control frames than the
threshold lie between them. -/
theorem processFrame_history (s : EthernetSwitch) (numPorts : ℤ) (fs : List Frame) (k : ℕ)
    (f : Frame) (hk : fs[k]? = some f) :
    (f.Control → (results (s.initSwitch numPorts) fs)[k]? = some (-1)) ∧
    (¬ f.Control →
      (∀ j g, LatestFrom fs k f.header.etherDest j g →
        (results (s.initSwitch numPorts) fs)[k]? =
          if controlsBetween fs j k < etherMacAgingThreshold then
            some (if g.inPort = f.inPort then -1 else g.inPort)
          else some 0) ∧
      ((∀ j g, ¬ LatestFrom fs k f.header.etherDest j g) →
        (results (s.initSwitch numPorts) fs)[k]? = some 0)) := by
  constructor
  · intro hf
    have hrep := (represents_initSwitch s numPorts).process (fs.take k)
    rw [results_getElem?, hk, Option.map_some, (hrep.processFrame f).2, if_pos hf]
  · intro hf
    constructor
    · intro j g hj
      rw [results_data s numPorts hk hf, remembered, hj.last_eq hk hf, Option.bind_some]
      by_cases hlt : controlsBetween fs j k < etherMacAgingThreshold
      · rw [if_pos hlt, if_pos hlt, outPort]
      · rw [if_neg hlt, if_neg hlt, outPort]
    · intro hnone
      rw [results_data s numPorts hk hf, remembered, last_eq_none_of_forall hnone]
      rfl

/-- A frame at port 1 teaches the switch an address, and the answer to it at port 2 is sent
there. -/
def twoFrames : List Frame :=
  [⟨1, #v[0, 0, 0, 0, 0, 2], #v[0, 0, 0, 0, 0, 1], 0⟩,
    ⟨2, #v[0, 0, 0, 0, 0, 1], #v[0, 0, 0, 0, 0, 2], 0⟩]

theorem processFrame_history_twoFrames :
    (results ((⟨∅⟩ : EthernetSwitch).initSwitch 2) twoFrames)[1]? = some 1 := by
  have hlatest : LatestFrom twoFrames 1 #v[0, 0, 0, 0, 0, 1] 0
      ⟨1, #v[0, 0, 0, 0, 0, 2], #v[0, 0, 0, 0, 0, 1], 0⟩ := by
    refine ⟨by decide, rfl, by decide, rfl, ?_⟩
    intro i hlt hle g' hg' hdata
    obtain rfl : i = 1 := by omega
    cases hg'
    decide
  exact ((processFrame_history ⟨∅⟩ 2 twoFrames 1 _ rfl).2 (by decide)).1 0 _ hlatest

end Results

end NetworkingLabs.Switch
