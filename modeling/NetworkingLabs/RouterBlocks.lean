import NetworkingLabs.RouterNat

/-!
# External blocks

CIDR blocks as ranges and as masks, what `router_init` makes of them, and that the sorted table
answers with the longest prefix.
-/
namespace NetworkingLabs.Routing

section Masks

def ipMusk (len : ℕ) : IPAddr := ~~~((1 : IPAddr) <<< (32 - len) - 1)

/-- `CIDR2IP`, after the text has been taken apart. -/
def CIDR2IP (block : IPAddr × ℕ) : IPAddr × IPAddr :=
  let ipMin := block.1 &&& ipMusk block.2
  (ipMin, ipMin ||| ~~~ipMusk block.2)

theorem toNat_not_ipMusk {len : ℕ} (h : 1 ≤ len) : (~~~ipMusk len).toNat = 2 ^ (32 - len) - 1 := by
  have hlt : 2 ^ (32 - len) < 2 ^ 32 := Nat.pow_lt_pow_right (by omega) (by omega)
  have hpos : 0 < 2 ^ (32 - len) := Nat.two_pow_pos _
  rw [ipMusk, BitVec.not_not, BitVec.toNat_sub_of_le, BitVec.toNat_shiftLeft]
  · simp only [BitVec.ofNat_eq_ofNat, BitVec.toNat_ofNat, Nat.shiftLeft_eq]
    omega
  · rw [BitVec.le_def, BitVec.toNat_shiftLeft]
    simp only [BitVec.ofNat_eq_ofNat, BitVec.toNat_ofNat, Nat.shiftLeft_eq]
    omega

private theorem toNat_and_or (x y m : IPAddr) :
    ((x &&& m) ||| (y &&& ~~~m)).toNat = (x &&& m).toNat + (y &&& ~~~m).toNat := by
  have hzero : (x &&& m) &&& (y &&& ~~~m) = 0#32 := by
    ext i hi
    simp only [BitVec.getElem_and, BitVec.getElem_not, BitVec.getElem_zero]
    cases x[i] <;> cases m[i] <;> simp
  rw [← BitVec.toNat_add_of_and_eq_zero hzero, BitVec.add_eq_or_of_and_eq_zero _ _ hzero]

theorem toNat_and_ipMusk {len : ℕ} (h : 1 ≤ len) (x : IPAddr) :
    (x &&& ipMusk len).toNat = x.toNat / 2 ^ (32 - len) * 2 ^ (32 - len) := by
  have hlow : (x &&& ~~~ipMusk len).toNat = x.toNat % 2 ^ (32 - len) := by
    rw [BitVec.toNat_and, toNat_not_ipMusk h, Nat.and_two_pow_sub_one_eq_mod]
  have hsum := toNat_and_or x x (ipMusk len)
  rw [← BitVec.and_or_distrib_left, BitVec.or_not_self, BitVec.and_allOnes] at hsum
  have hdiv := Nat.div_add_mod' x.toNat (2 ^ (32 - len))
  omega

/-- What lies between the ends of the range matches the mask. -/
theorem range_match {len : ℕ} (h : 1 ≤ len) {ip addr : IPAddr} (hlo : addr &&& ipMusk len ≤ ip)
    (hhi : ip ≤ (addr &&& ipMusk len) ||| ~~~ipMusk len) :
    ip &&& ipMusk len = addr &&& ipMusk len := by
  have hpos : 0 < 2 ^ (32 - len) := Nat.two_pow_pos _
  have hsplit := toNat_and_or addr (.allOnes 32) (ipMusk len)
  rw [BitVec.allOnes_and, toNat_not_ipMusk h] at hsplit
  rw [BitVec.le_def] at hlo hhi
  rw [hsplit] at hhi
  rw [toNat_and_ipMusk h] at hlo hhi
  apply BitVec.eq_of_toNat_eq
  rw [toNat_and_ipMusk h, toNat_and_ipMusk h]
  congr 1
  apply Nat.div_eq_of_lt_le
  · exact hlo
  · rw [Nat.succ_mul]
    omega

theorem match_range {ip a m : IPAddr} (h : ip &&& m = a) : a ≤ ip ∧ ip ≤ a ||| ~~~m := by
  subst h
  have hbits : (ip &&& m) ||| ~~~m = ip ||| ~~~m := by
    ext i hi
    simp only [BitVec.getElem_or, BitVec.getElem_and, BitVec.getElem_not]
    cases ip[i] <;> cases m[i] <;> rfl
  constructor
  · rw [BitVec.le_def, BitVec.toNat_and]
    exact Nat.and_le_left
  · rw [hbits, BitVec.le_def, BitVec.toNat_or]
    exact Nat.left_le_or

/-- The mask that `router_init` computes from the ends of the range is the one it came from. -/
theorem musk_range (block : IPAddr × ℕ) :
    ~~~((CIDR2IP block).2 ^^^ (CIDR2IP block).1) = ipMusk block.2 := by
  ext i hi
  simp only [CIDR2IP, BitVec.getElem_or, BitVec.getElem_and, BitVec.getElem_not, BitVec.getElem_xor]
  cases block.1[i] <;> cases (ipMusk block.2)[i] <;> rfl

theorem cidr_le (block : IPAddr × ℕ) : (CIDR2IP block).1 ≤ (CIDR2IP block).2 := by
  rw [BitVec.le_def]
  show _ ≤ ((CIDR2IP block).1 ||| ~~~ipMusk block.2).toNat
  rw [BitVec.toNat_or]
  exact Nat.left_le_or

end Masks

section Table

def ExternalBlock (block : IPAddr × ℕ) : Prop :=
  (1 ≤ block.2 ∧ block.2 ≤ 32) ∧
  ∀ ip, (CIDR2IP block).1 ≤ ip → ip ≤ (CIDR2IP block).2 → isInternalIP ip = false

/-- The table that `IDM.Register(IP, musk)` leaves: `sort` puts longer masks first, and equal
ones in some order. -/
def Registers (id : ℕ) (ip musk : IPAddr) (table table' : List ExIPMatcher) : Prop :=
  if musk = 0 then table' = table
  else table'.Perm (table ++ [⟨id, ip, musk⟩]) ∧ table'.Pairwise fun a b => b.musk ≤ a.musk

/-- The range that `router_init` stores; without an external address it is left as it was. -/
def ExternalRange (external : Option (IPAddr × ℕ)) (range : IPAddr × IPAddr) : Prop :=
  match external with
  | none => True
  | some block => ExternalBlock block ∧ range = CIDR2IP block

/-- What `router_init` fills the allocator with. -/
def AvailablePool (available : Option (IPAddr × ℕ)) (address : List IPAddr) : Prop :=
  match available with
  | none => address = []
  | some block => addrAllocInit (CIDR2IP block).1 (CIDR2IP block).2 = some address

def RegistersRange (id : ℕ) (external : Option (IPAddr × ℕ)) (range : IPAddr × IPAddr)
    (table table' : List ExIPMatcher) : Prop :=
  match external with
  | none => Registers id 0 0 table table'
  | some _ => Registers id range.1 (~~~(range.2 ^^^ range.1)) table table'

variable {sh : Shared} {ip : IPAddr} {m : ExIPMatcher}

def Shared.LongestPrefix (sh : Shared) (ip : IPAddr) (m : ExIPMatcher) : Prop :=
  m ∈ sh.externalIPTable ∧ m.matchIP ip ∧
  ∀ m' ∈ sh.externalIPTable, m'.matchIP ip → m'.musk ≤ m.musk

private theorem find?_greatest {α β : Type} [Preorder β] {f : α → β} {p : α → Bool} {xs : List α}
    {x : α} (hsorted : xs.Pairwise fun a b => f b ≤ f a) (hx : xs.find? p = some x) :
    ∀ y ∈ xs, p y → f y ≤ f x := by
  induction xs with
  | nil => cases hx
  | cons a xs ih =>
    rw [List.pairwise_cons] at hsorted
    intro y hy hpy
    by_cases ha : p a
    · obtain rfl : a = x := by simpa [ha] using hx
      rcases List.mem_cons.mp hy with rfl | hy
      · exact le_rfl
      · exact hsorted.1 y hy
    · have hx' : xs.find? p = some x := by simpa [ha] using hx
      rcases List.mem_cons.mp hy with rfl | hy
      · exact absurd hpy ha
      · exact ih hsorted.2 hx' y hy hpy

/-- `exIPMatchRouter` is the longest-prefix match. -/
theorem exIPMatchRouter_longest (hsorted : sh.externalIPTable.Pairwise fun a b => b.musk ≤ a.musk)
    {id : ℕ} (h : sh.exIPMatchRouter ip = some id) : ∃ m, sh.LongestPrefix ip m ∧ m.id = id := by
  obtain ⟨m, hm, rfl⟩ := Option.map_eq_some_iff.mp h
  have hlongest := find?_greatest (f := fun m => m.musk.toNat) hsorted hm
  have hmatch : m.matchIP ip = true := by simpa using List.find?_some hm
  exact ⟨m, ⟨List.mem_of_find?_eq_some hm, hmatch, hlongest⟩, rfl⟩

theorem registers_sorted {id : ℕ} {external : Option (IPAddr × ℕ)} {range : IPAddr × IPAddr}
    {table table' : List ExIPMatcher} (h : RegistersRange id external range table table')
    (hsorted : table.Pairwise fun a b => b.musk ≤ a.musk) :
    table'.Pairwise fun a b => b.musk ≤ a.musk := by
  cases external with
  | none =>
    obtain rfl : table' = table := by simpa [RegistersRange, Registers] using h
    exact hsorted
  | some block =>
    simp only [RegistersRange, Registers] at h
    split_ifs at h
    · rwa [h]
    · exact h.2

/-- What comes into the table is the block of the new router, with its mask. -/
theorem mem_registers {id : ℕ} {external : Option (IPAddr × ℕ)} {range : IPAddr × IPAddr}
    {table table' : List ExIPMatcher} (hrange : ExternalRange external range)
    (h : RegistersRange id external range table table') {m : ExIPMatcher} (hm : m ∈ table') :
    m ∈ table ∨ ∃ block, ExternalBlock block ∧ range = CIDR2IP block ∧
      m = ⟨id, range.1, ipMusk block.2⟩ := by
  cases external with
  | none =>
    obtain rfl : table' = table := by simpa [RegistersRange, Registers] using h
    exact Or.inl hm
  | some block =>
    obtain ⟨hblock, rfl⟩ := hrange
    simp only [RegistersRange, Registers, musk_range] at h
    split_ifs at h
    · rw [h] at hm
      exact Or.inl hm
    · rcases List.mem_append.mp (h.1.mem_iff.mp hm) with hm | hm
      · exact Or.inl hm
      · exact Or.inr ⟨block, hblock, rfl, List.mem_singleton.mp hm⟩

theorem matchIP_iff_range {id : ℕ} {block : IPAddr × ℕ} (hlen : 1 ≤ block.2) {ip : IPAddr} :
    ExIPMatcher.matchIP ⟨id, (CIDR2IP block).1, ipMusk block.2⟩ ip ↔
      (CIDR2IP block).1 ≤ ip ∧ ip ≤ (CIDR2IP block).2 := by
  simp only [ExIPMatcher.matchIP, beq_iff_eq]
  constructor
  · exact match_range
  · rintro ⟨hlo, hhi⟩
    exact range_match hlen hlo hhi

end Table

end NetworkingLabs.Routing
