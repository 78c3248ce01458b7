import NetworkingLabs.RouterText

/-!
# What the allocator is filled with

`availAddrAllocator::Init` on the range of a block: `resize` makes as many zeros as there are
addresses, and `push_back` puts the addresses on top of them.
-/
namespace NetworkingLabs.Routing

section Pool

def remain (address : List IPAddr) : Bool := !address.isEmpty

def allocs : ℕ → List IPAddr → List IPAddr
  | 0, address => address
  | k + 1, address => allocs k (alloc address).2

/-- The allocator has the addresses of the range, each once and nothing else, and `remain()` is
true until they have all been given. -/
structure Pooled (ipMin ipMax : IPAddr) (address : List IPAddr) : Prop where
  length : address.length = ipMax.toNat - ipMin.toNat + 1
  each : ∀ ip, ipMin ≤ ip → ip ≤ ipMax → address.count ip = 1
  only : ∀ ip ∈ address, ipMin ≤ ip ∧ ip ≤ ipMax
  remains : ∀ k, remain (allocs k address) = true ↔ k < ipMax.toNat - ipMin.toNat + 1

variable {ipMin ipMax ip addr : IPAddr} {address out : List IPAddr} {fuel len : ℕ}

private theorem allocs_eq_drop (k : ℕ) (address : List IPAddr) :
    allocs k address = address.drop k := by
  induction k generalizing address with
  | zero => rfl
  | succ k ih => cases address <;> simp [allocs, alloc, ih]

private theorem pushRange_length (hmax : ipMax.toNat + 1 < 2 ^ 32)
    (hip : ip.toNat ≤ ipMax.toNat + 1) (h : pushRange ipMax fuel ip address = some out) :
    out.length + ip.toNat = address.length + (ipMax.toNat + 1) := by
  induction fuel generalizing ip address with
  | zero => cases h
  | succ fuel ih =>
    rw [pushRange] at h
    split at h
    · rename_i hle
      have hle' : ip.toNat ≤ ipMax.toNat := hle
      have hnext : (ip + 1).toNat = ip.toNat + 1 := by
        rw [BitVec.toNat_add]
        exact Nat.mod_eq_of_lt (by simp; omega)
      have hlen := ih (by omega) h
      rw [List.length_cons] at hlen
      omega
    · rename_i hgt
      have hlt : ipMax.toNat < ip.toNat := BitVec.not_le.mp hgt
      cases h
      omega

/-- The pool is the addresses of the range over as many zeros. -/
theorem addrAllocInit_pool (hmin : ipMin ≤ ipMax) (hmax : ipMax.toNat + 1 < 2 ^ 32) :
    ∃ free, addrAllocInit ipMin ipMax = some (free ++ List.replicate free.length 0) ∧
      free.length = ipMax.toNat - ipMin.toNat + 1 ∧ free.Nodup ∧
      ∀ x, x ∈ free ↔ ipMin ≤ x ∧ x ≤ ipMax := by
  have hle : ipMin.toNat ≤ ipMax.toNat := hmin
  have hsize : (ipMax - ipMin + 1).toNat = ipMax.toNat - ipMin.toNat + 1 := by
    rw [BitVec.toNat_add, BitVec.toNat_sub_of_le hmin]
    exact Nat.mod_eq_of_lt (by simp; omega)
  obtain ⟨free, heq, hnodup, hmem⟩ := pushRange_eq hmax (2 ^ 32) ipMin (by omega) (by omega)
    (List.replicate (ipMax - ipMin + 1).toNat 0)
  have hlen := pushRange_length hmax (by omega) heq
  rw [List.length_append] at hlen
  have hfree : free.length = ipMax.toNat - ipMin.toNat + 1 := by omega
  refine ⟨free, ?_, hfree, hnodup, hmem⟩
  rw [addrAllocInit, heq, hsize, hfree]

private theorem not_pooled_zeros {k : ℕ} (hlen : address.length = ipMax.toNat - ipMin.toNat + 1)
    (hk : 0 < k) : ¬ Pooled ipMin ipMax (address ++ List.replicate k 0) := by
  intro h
  have hall := h.length
  rw [List.length_append, List.length_replicate] at hall
  omega

/-- Whatever the range, the allocator is never filled with it alone. -/
theorem not_pooled (hmin : ipMin ≤ ipMax) :
    ¬ ∃ address, addrAllocInit ipMin ipMax = some address ∧ Pooled ipMin ipMax address := by
  rintro ⟨address, heq, h⟩
  rcases Nat.lt_or_ge (ipMax.toNat + 1) (2 ^ 32) with hmax | hmax
  · obtain ⟨free, hpool, hlen, -, -⟩ := addrAllocInit_pool hmin hmax
    obtain rfl : free ++ List.replicate free.length 0 = address :=
      Option.some.inj (hpool.symm.trans heq)
    exact not_pooled_zeros hlen (by omega) h
  · have hlt := ipMax.isLt
    rw [addrAllocInit, pushRange_last (by omega)] at heq
    cases heq

/-- Once all addresses have been given, as many zeros are left. -/
theorem addrAllocInit_zeros (hmin : ipMin ≤ ipMax) (hmax : ipMax ≠ .allOnes 32) :
    ∃ address, addrAllocInit ipMin ipMax = some address ∧
      (∀ ip, ip ∈ address.take (ipMax.toNat - ipMin.toNat + 1) ↔ ipMin ≤ ip ∧ ip ≤ ipMax) ∧
      allocs (ipMax.toNat - ipMin.toNat + 1) address =
        List.replicate (ipMax.toNat - ipMin.toNat + 1) 0 := by
  have hlt := ipMax.isLt
  have hne : ipMax.toNat ≠ 2 ^ 32 - 1 := by
    rwa [Ne, ← BitVec.toNat_inj, BitVec.toNat_allOnes] at hmax
  obtain ⟨free, hpool, hlen, -, hmem⟩ := addrAllocInit_pool hmin (by omega)
  refine ⟨_, hpool, ?_, ?_⟩
  · intro ip
    rw [List.take_left' hlen]
    exact hmem ip
  · rw [allocs_eq_drop, List.drop_left' hlen, hlen]

/-- For every block the allocator is filled with something else: at the top of the address space
`Init` does not end, and elsewhere there are as many zeros besides, which `remain()` takes for
addresses when all addresses have been given. -/
theorem addrAllocInit_block (a b c d : UInt8) {len : ℕ} (hpos : 1 ≤ len) (hlen : len ≤ 32) :
    ∃ ipMin ipMax, Router.CIDR2IP (cidr a b c d len) = some (ipMin, ipMax) ∧
      (¬ ∃ address, addrAllocInit ipMin ipMax = some address ∧ Pooled ipMin ipMax address) ∧
      (ipMax = .allOnes 32 → ∀ fuel address, pushRange ipMax fuel ipMin address = none) ∧
      (ipMax ≠ .allOnes 32 → ∃ address, addrAllocInit ipMin ipMax = some address ∧
        (∀ ip, ip ∈ address.take (ipMax.toNat - ipMin.toNat + 1) ↔ ipMin ≤ ip ∧ ip ≤ ipMax) ∧
        remain (allocs (ipMax.toNat - ipMin.toNat + 1) address) = true ∧
        (alloc (allocs (ipMax.toNat - ipMin.toNat + 1) address)).1 = 0) := by
  have hmin := cidr_le (ofOctets a b c d, len)
  refine ⟨(CIDR2IP (ofOctets a b c d, len)).1, (CIDR2IP (ofOctets a b c d, len)).2,
    CIDR2IP_cidr hpos hlen, not_pooled hmin, ?_, ?_⟩
  · intro htop fuel address
    refine pushRange_last ?_ fuel _ address
    rw [htop, BitVec.toNat_allOnes]
    rfl
  · intro htop
    obtain ⟨address, hpool, hmem, hzeros⟩ := addrAllocInit_zeros hmin htop
    refine ⟨address, hpool, hmem, ?_, ?_⟩
    · rw [hzeros]
      rfl
    · rw [hzeros]
      rfl

theorem addrAllocInit_block_two : ∃ ipMin ipMax,
    Router.CIDR2IP (cidr 30 0 0 0 31) = some (ipMin, ipMax) ∧
      ¬ ∃ address, addrAllocInit ipMin ipMax = some address ∧ Pooled ipMin ipMax address := by
  obtain ⟨ipMin, ipMax, hrange, hpool, -⟩ := addrAllocInit_block 30 0 0 0
    (show 1 ≤ 31 by decide) (by decide)
  exact ⟨ipMin, ipMax, hrange, hpool⟩

/-- 30.0.0.0/31: there are four entries for two addresses. -/
theorem not_pooled_two : ¬ ∃ address,
    addrAllocInit 0x1e000000 0x1e000001 = some address ∧ Pooled 0x1e000000 0x1e000001 address :=
  not_pooled (by decide)

end Pool

end NetworkingLabs.Routing
