import NetworkingLabs.RouterBlocks
import NetworkingLabs.RouterNetwork

/-!
# Registration and the longest prefix

Any sequence of calls of `router_init`, with external blocks that may overlap, nest or repeat. The
table is compared with the blocks themselves.
-/
namespace NetworkingLabs.Routing

section Prefixes

variable {len len' : ℕ} {ip addr : IPAddr}

def InBlock (block : IPAddr × ℕ) (ip : IPAddr) : Prop :=
  ip >>> (32 - block.2) = block.1 >>> (32 - block.2)

instance (block : IPAddr × ℕ) (ip : IPAddr) : Decidable (InBlock block ip) :=
  inferInstanceAs (Decidable (_ = _))

theorem and_ipMusk_eq_iff (h : 1 ≤ len) :
    ip &&& ipMusk len = addr &&& ipMusk len ↔ ip >>> (32 - len) = addr >>> (32 - len) := by
  have hpos : 0 < 2 ^ (32 - len) := Nat.two_pow_pos _
  rw [← BitVec.toNat_inj, toNat_and_ipMusk h, toNat_and_ipMusk h, ← BitVec.toNat_inj,
    BitVec.toNat_ushiftRight, BitVec.toNat_ushiftRight, Nat.shiftRight_eq_div_pow,
    Nat.shiftRight_eq_div_pow]
  exact Nat.mul_left_inj hpos.ne'

private theorem toNat_ipMusk (h : 1 ≤ len) : (ipMusk len).toNat = 2 ^ 32 - 2 ^ (32 - len) := by
  have hnot := toNat_not_ipMusk h
  have hlt := (ipMusk len).isLt
  have hpos : 0 < 2 ^ (32 - len) := Nat.two_pow_pos _
  rw [BitVec.toNat_not] at hnot
  omega

/-- Numeric order of the masks is the order of the prefix lengths. -/
theorem le_of_ipMusk_le (h : 1 ≤ len) (h' : 1 ≤ len') (hmax : len' ≤ 32)
    (hle : ipMusk len' ≤ ipMusk len) : len' ≤ len := by
  rw [BitVec.le_def, toNat_ipMusk h, toNat_ipMusk h'] at hle
  by_contra hlt
  have hpow : 2 ^ (32 - len') < 2 ^ (32 - len) := Nat.pow_lt_pow_right (by decide) (by omega)
  have hle32 : 2 ^ (32 - len) ≤ 2 ^ 32 := Nat.pow_le_pow_right (by decide) (by omega)
  omega

private theorem ipMusk_ne_zero (h : 1 ≤ len) : ipMusk len ≠ 0 := by
  have hlt : 2 ^ (32 - len) < 2 ^ 32 := Nat.pow_lt_pow_right (by decide) (by omega)
  intro hzero
  have hnat := toNat_ipMusk h
  rw [hzero] at hnat
  have h0 : (0 : IPAddr).toNat = 0 := rfl
  omega

end Prefixes

section Install

def ExIPMatcher.ofBlock (x : ℕ × IPAddr × ℕ) : ExIPMatcher := ⟨x.1, (CIDR2IP x.2).1, ipMusk x.2.2⟩

/-- The range that `router_init` stores; without an external address it stays as it was. -/
def StoredRange (external : Option (IPAddr × ℕ)) (range : IPAddr × IPAddr) : Prop :=
  ∀ block ∈ external, range = CIDR2IP block

instance (external : Option (IPAddr × ℕ)) (range : IPAddr × IPAddr) :
    Decidable (StoredRange external range) :=
  inferInstanceAs (Decidable (∀ block ∈ external, _))

/-- The routers after some calls of `router_init`, with the external blocks and the IDs of their
routers. -/
inductive Installed : Routers → List (ℕ × IPAddr × ℕ) → Prop
  | start (routers : ℕ → Router) : Installed ⟨routers, 0, 0, fun _ => 0, []⟩ []
  | routerInit {w : Routers} {blocks : List (ℕ × IPAddr × ℕ)} (h : Installed w blocks)
      (externalPort : ℤ) (external available : Option (IPAddr × ℕ)) (range : IPAddr × IPAddr)
      (address : List IPAddr) (table : List ExIPMatcher)
      (hlen : ∀ block ∈ external, 1 ≤ block.2 ∧ block.2 ≤ 32)
      (hrange : StoredRange external range) (hpool : AvailablePool available address)
      (htable : RegistersRange (w.shared.totRouterNum + 1) external range
        w.shared.externalIPTable table) :
      Installed ⟨Function.update w.routers (w.shared.totRouterNum + 1)
          (.init (w.shared.totRouterNum + 1) externalPort range.1 range.2 address),
        { w.shared with
          totRouterNum := w.shared.totRouterNum + 1
          externalIPTable := table }⟩
        (blocks ++ external.toList.map fun block => (w.shared.totRouterNum + 1, block))

variable {w : Routers} {blocks : List (ℕ × IPAddr × ℕ)} {ip : IPAddr}

/-- The table is made of the blocks, those with longer prefixes first. -/
structure Tabled (table : List ExIPMatcher) (blocks : List (ℕ × IPAddr × ℕ)) : Prop where
  entries : table.Perm (blocks.map .ofBlock)
  sorted : table.Pairwise fun a b => b.musk ≤ a.musk
  lengths : ∀ x ∈ blocks, 1 ≤ x.2.2 ∧ x.2.2 ≤ 32

theorem Tabled.registers {table table' : List ExIPMatcher} (h : Tabled table blocks) {id : ℕ}
    {external : Option (IPAddr × ℕ)} {range : IPAddr × IPAddr}
    (hlen : ∀ block ∈ external, 1 ≤ block.2 ∧ block.2 ≤ 32) (hrange : StoredRange external range)
    (htable : RegistersRange id external range table table') :
    Tabled table' (blocks ++ external.toList.map fun block => (id, block)) := by
  refine ⟨?_, registers_sorted htable h.sorted, ?_⟩
  · cases external with
    | none =>
      obtain rfl : table' = table := by simpa [RegistersRange, Registers] using htable
      simpa using h.entries
    | some block =>
      obtain rfl := hrange block rfl
      have hmusk := ipMusk_ne_zero (hlen block rfl).1
      simp only [RegistersRange, musk_range, Registers, if_neg hmusk] at htable
      refine htable.1.trans ?_
      rw [List.map_append]
      exact h.entries.append_right _
  · intro x hx
    rcases List.mem_append.mp hx with hx | hx
    · exact h.lengths x hx
    · obtain ⟨block, hblock, rfl⟩ := List.mem_map.mp hx
      exact hlen block (by simpa using hblock)

theorem Installed.tabled (h : Installed w blocks) :
    Tabled w.shared.externalIPTable blocks := by
  induction h with
  | start routers => exact ⟨.nil, .nil, nofun⟩
  | routerInit h externalPort external available range address table hlen hrange hpool htable ih =>
    exact ih.registers hlen hrange htable

/-- An entry matches the addresses of its block. -/
theorem matchIP_ofBlock {x : ℕ × IPAddr × ℕ} (hlen : 1 ≤ x.2.2) :
    (ExIPMatcher.ofBlock x).matchIP ip ↔ InBlock x.2 ip := by
  rw [InBlock, ← and_ipMusk_eq_iff hlen]
  exact beq_iff_eq

private theorem exIPMatchRouter_none (h : Tabled w.shared.externalIPTable blocks) :
    w.shared.exIPMatchRouter ip = none ↔ ∀ x ∈ blocks, ¬ InBlock x.2 ip := by
  rw [Shared.exIPMatchRouter, Option.map_eq_none_iff, List.find?_eq_none]
  constructor
  · intro hnone x hx hin
    have hmem : ExIPMatcher.ofBlock x ∈ w.shared.externalIPTable :=
      h.entries.mem_iff.mpr (List.mem_map_of_mem hx)
    exact hnone _ hmem ((matchIP_ofBlock (h.lengths x hx).1).mpr hin)
  · intro hout m hm hmatch
    obtain ⟨x, hx, rfl⟩ := List.mem_map.mp (h.entries.mem_iff.mp hm)
    exact hout x hx ((matchIP_ofBlock (h.lengths x hx).1).mp hmatch)

/-- After any registrations the table answers with the longest prefix of all blocks. -/
theorem exIPMatchRouter_installed (h : Installed w blocks) (ip : IPAddr) :
    (∀ id, w.shared.exIPMatchRouter ip = some id → ∃ block, (id, block) ∈ blocks ∧
      InBlock block ip ∧ ∀ x ∈ blocks, InBlock x.2 ip → x.2.2 ≤ block.2) ∧
    (w.shared.exIPMatchRouter ip = none ↔ ∀ x ∈ blocks, ¬ InBlock x.2 ip) := by
  have ht := h.tabled
  refine ⟨?_, exIPMatchRouter_none ht⟩
  intro id hid
  obtain ⟨m, ⟨hm, hmatch, hlongest⟩, rfl⟩ := exIPMatchRouter_longest ht.sorted hid
  obtain ⟨x, hx, rfl⟩ := List.mem_map.mp (ht.entries.mem_iff.mp hm)
  refine ⟨x.2, hx, (matchIP_ofBlock (ht.lengths x hx).1).mp hmatch, ?_⟩
  intro y hy hin
  have hle := hlongest (.ofBlock y) (ht.entries.mem_iff.mpr (List.mem_map_of_mem hy))
    ((matchIP_ofBlock (ht.lengths y hy).1).mpr hin)
  exact le_of_ipMusk_le (ht.lengths x hx).1 (ht.lengths y hy).1 (ht.lengths y hy).2 hle

def plainRouters (n : ℕ) : Routers := ⟨fun r => .init r 0 0 0 [], ⟨n, 0, fun _ => 0, []⟩⟩

theorem installed_plain (n : ℕ) : Installed (plainRouters n) [] := by
  induction n with
  | zero => exact .start _
  | succ n ih =>
    have h := ih.routerInit 0 none none (0, 0) [] [] nofun nofun rfl rfl
    have hsame : Function.update (plainRouters n).routers (n + 1) (.init (n + 1) 0 0 0 []) =
        (plainRouters n).routers := Function.update_eq_self (n + 1) _
    simpa [hsame, plainRouters] using h

def nestedBlocks : List (ℕ × IPAddr × ℕ) := [(1, 0x14000000, 8), (2, 0x14010000, 16)]

theorem installed_nested : ∃ w, Installed w nestedBlocks ∧ w.shared.totRouterNum = 2 := by
  have h1 := Installed.routerInit (.start fun _ => .init 0 0 0 0 []) 2 (some (0x14000000, 8)) none
    (0x14000000, 0x14ffffff) [] [⟨1, 0x14000000, 0xff000000⟩] (by decide) (by decide) rfl
    ⟨by decide, by decide⟩
  have h2 := h1.routerInit 2 (some (0x14010000, 16)) none (0x14010000, 0x1401ffff) []
    [⟨2, 0x14010000, 0xffff0000⟩, ⟨1, 0x14000000, 0xff000000⟩] (by decide) (by decide) rfl
    ⟨by decide, by decide⟩
  exact ⟨_, h2, rfl⟩

/-- 20.1.0.5 is in both, 30.0.0.0 in none. -/
theorem exIPMatchRouter_installed_nested : ∃ w, Installed w nestedBlocks ∧
    w.shared.exIPMatchRouter 0x14010005 ≠ none ∧ w.shared.exIPMatchRouter 0x1e000000 = none := by
  obtain ⟨w, h, -⟩ := installed_nested
  refine ⟨w, h, ?_, (exIPMatchRouter_installed h _).2.mpr (by decide)⟩
  exact mt (exIPMatchRouter_installed h _).2.mp (by decide)

end Install

end NetworkingLabs.Routing
