import NetworkingLabs.DecimalText
import NetworkingLabs.RouterInstall

/-!
# Addresses and blocks as text

`dotDec2IP` and `CIDR2IP` on the characters they scan, and the blocks that come of them.
-/
namespace NetworkingLabs.Routing
open Text

section Scan

/-- `text.substr(0, text.find(b))` and the text after `text.erase(0, text.find(b) + 1)`. Where `b`
is not found, all is taken and nothing is erased. -/
def cutAt (b : UInt8) (text : List UInt8) : List UInt8 × List UInt8 :=
  if b ∈ text then (text.takeWhile (· ≠ b), (text.dropWhile (· ≠ b)).tail) else (text, text)

def dotDec2IPLoop : ℕ → List UInt8 → IPAddr → IPAddr
  | 0, _, ans => ans
  | rounds + 1, ss, ans =>
    let (part, ss) := cutAt 0x2e ss
    dotDec2IPLoop rounds ss (ans <<< 8 ||| BitVec.ofInt 32 (atoi part))

/-- `dotDec2IP(s)`, which reads `s` up to a zero. -/
def Router.dotDec2IP (s : List UInt8) : IPAddr :=
  dotDec2IPLoop 4 (s.takeWhile (· ≠ 0) ++ [0x2e]) 0

/-- `CIDR2IP(ipaddr)`; `none` shifts by the width of the word or by more. -/
def Router.CIDR2IP (ipaddr : List UInt8) : Option (IPAddr × IPAddr) :=
  let (addr, ipString) := cutAt 0x2f (ipaddr.takeWhile (· ≠ 0))
  let shift := 32 - atoi ipString
  if 0 ≤ shift ∧ shift < 32 then
    let ipMusk := ~~~((1 : IPAddr) <<< shift.toNat - 1)
    let ipMin := dotDec2IP addr &&& ipMusk
    some (ipMin, ipMin ||| ~~~ipMusk)
  else none

def ofOctets (a b c d : UInt8) : IPAddr :=
  BitVec.ofNat 32 (((a.toNat * 256 + b.toNat) * 256 + c.toNat) * 256 + d.toNat)

def dottedTo (a b c : UInt8) (text : List UInt8) : List UInt8 :=
  decimal a.toNat ++ 0x2e :: (decimal b.toNat ++ 0x2e :: (decimal c.toNat ++ 0x2e :: text))

def dotted (a b c d : UInt8) : List UInt8 := dottedTo a b c (decimal d.toNat)

def dotDec (ip : IPAddr) : List UInt8 :=
  dotted (.ofNat (ip.toNat / 2 ^ 24)) (.ofNat (ip.toNat / 2 ^ 16)) (.ofNat (ip.toNat / 2 ^ 8))
    (.ofNat ip.toNat)

example : Router.dotDec2IP (dotted 20 1 0 255) = 0x140100ff := by decide

end Scan

section Addresses

variable {a b c d : UInt8} {part text es : List UInt8} {x : IPAddr} {v n : ℕ}

private theorem cutAt_fst (y : UInt8) (text : List UInt8) :
    (cutAt y text).1 = text.takeWhile (· ≠ y) := by
  rw [cutAt]
  split
  · rfl
  · rename_i h
    refine (List.takeWhile_eq_self_iff.mpr ?_).symm
    intro x hx
    exact decide_eq_true (fun heq ↦ h (heq ▸ hx))

private theorem cutAt_append {y : UInt8} (h : y ∉ part) :
    cutAt y (part ++ y :: text) = (part, text) := by
  have hpart : ∀ x ∈ part, decide (x ≠ y) = true := by
    intro x hx
    exact decide_eq_true (fun heq ↦ h (heq ▸ hx))
  have hhead : ∀ x ∈ (y :: text).head?, decide (x ≠ y) = false := by
    rintro x hx
    cases hx
    exact decide_eq_false (not_not_intro rfl)
  obtain ⟨htake, hdrop⟩ := takeWhile_run hpart hhead
  simp only [cutAt, List.mem_append, List.mem_cons, true_or, or_true, if_true, htake, hdrop,
    List.tail_cons]

private theorem not_mem_decimal {y : UInt8} (hy : isDigit y = false) (n : ℕ) : y ∉ decimal n := by
  intro hmem
  rw [isDigit_decimal n y hmem] at hy
  cases hy

/-- A part of an address is appended to the parts in front of it. -/
theorem toNat_shiftLeft_or {k : ℕ} (hx : x.toNat = k) (hk : k < 2 ^ 24) (hv : v < 256) :
    (x <<< 8 ||| BitVec.ofInt 32 v).toNat = k * 256 + v := by
  have hlow : (BitVec.ofInt 32 v).toNat = v := by
    rw [BitVec.ofInt_natCast, BitVec.toNat_ofNat, Nat.mod_eq_of_lt (by omega)]
  have hhigh : (x <<< 8).toNat = k <<< 8 := by
    rw [BitVec.toNat_shiftLeft, hx, Nat.shiftLeft_eq, Nat.mod_eq_of_lt (by omega)]
  rw [BitVec.toNat_or, hlow, hhigh, ← Nat.shiftLeft_add_eq_or_of_lt hv, Nat.shiftLeft_eq]

private theorem atoi_decimal (hn : n < 2 ^ 31) : atoi (decimal n) = n := by
  have hatoi := atoi_digits (decimal_ne_nil n) (isDigit_decimal n)
    (by rw [ofDecimal_decimal]; exact hn)
  rwa [ofDecimal_decimal] at hatoi

private theorem dotDec2IPLoop_decimal (rounds : ℕ) (hn : n < 2 ^ 31) :
    dotDec2IPLoop (rounds + 1) (decimal n ++ 0x2e :: text) x =
      dotDec2IPLoop rounds text (x <<< 8 ||| BitVec.ofInt 32 n) := by
  rw [dotDec2IPLoop, cutAt_append (not_mem_decimal (by decide) n)]
  simp only
  rw [atoi_decimal hn]

private theorem takeWhile_octet (n : ℕ) :
    (decimal n ++ 0x2e :: text).takeWhile (· ≠ 0) =
      decimal n ++ 0x2e :: text.takeWhile (· ≠ 0) := by
  have hdigits : ∀ b ∈ decimal n, decide (b ≠ 0) = true := by
    intro b hb
    refine decide_eq_true ?_
    rintro rfl
    exact not_mem_decimal (by decide) n hb
  rw [List.takeWhile_append_of_pos hdigits, List.takeWhile_cons_of_pos (by decide)]

/-- The first three octets are read as they are, and the last part is what stands in its place. -/
theorem dotDec2IP_dottedTo (a b c : UInt8) (text : List UInt8) :
    Router.dotDec2IP (dottedTo a b c text) = ofOctets 0 a b c <<< 8 |||
      BitVec.ofInt 32 (atoi (cutAt 0x2e (text.takeWhile (· ≠ 0) ++ [0x2e])).1) := by
  have ha := a.toNat_lt
  have hb := b.toNat_lt
  have hc := c.toNat_lt
  have h0 : (0 : IPAddr).toNat = 0 := rfl
  have h1 := toNat_shiftLeft_or (v := a.toNat) h0 (by omega) (by omega)
  have h2 := toNat_shiftLeft_or (v := b.toNat) h1 (by omega) (by omega)
  have h3 := toNat_shiftLeft_or (v := c.toNat) h2 (by omega) (by omega)
  have hfront : (((0 : IPAddr) <<< 8 ||| BitVec.ofInt 32 a.toNat) <<< 8 |||
      BitVec.ofInt 32 b.toNat) <<< 8 ||| BitVec.ofInt 32 c.toNat = ofOctets 0 a b c := by
    apply BitVec.eq_of_toNat_eq
    rw [h3, ofOctets, BitVec.toNat_ofNat, Nat.mod_eq_of_lt]
    · simp
    · simp; omega
  rw [Router.dotDec2IP, dottedTo, takeWhile_octet, takeWhile_octet, takeWhile_octet]
  simp only [List.append_assoc, List.cons_append]
  rw [dotDec2IPLoop_decimal 3 (by omega), dotDec2IPLoop_decimal 2 (by omega),
    dotDec2IPLoop_decimal 1 (by omega), hfront]
  rfl

/-- The last part of an address is read up to the first character that is no digit. -/
theorem dotDec2IP_digits (a b c : UInt8) {ds rest : List UInt8} (hne : ds ≠ [])
    (hds : ∀ b ∈ ds, isDigit b = true) (hrest : NoDigit rest) :
    Router.dotDec2IP (dottedTo a b c (ds ++ rest)) =
      ofOctets 0 a b c <<< 8 ||| BitVec.ofInt 32 (atoi ds) := by
  have hkept : ∀ y, isDigit y = false → ∀ x ∈ ds, decide (x ≠ y) = true := by
    intro y hy x hx
    refine decide_eq_true ?_
    rintro rfl
    rw [hds x hx] at hy
    cases hy
  have hdot : NoDigit [0x2e] := noDigit_cons (by decide)
  rw [dotDec2IP_dottedTo, cutAt_fst, List.takeWhile_append_of_pos (hkept 0 (by decide)),
    List.append_assoc, List.takeWhile_append_of_pos (hkept 0x2e (by decide)),
    atoi_append hne hds (hrest.takeWhile.append hdot).takeWhile]

theorem dotDec2IP_dotted (a b c d : UInt8) :
    Router.dotDec2IP (dotted a b c d) = ofOctets a b c d := by
  have ha := a.toNat_lt
  have hb := b.toNat_lt
  have hc := c.toNat_lt
  have hd := d.toNat_lt
  have hread := dotDec2IP_digits a b c (decimal_ne_nil d.toNat) (isDigit_decimal d.toNat)
    noDigit_nil
  rw [List.append_nil, atoi_decimal (by omega)] at hread
  have hfront : (ofOctets 0 a b c).toNat = (a.toNat * 256 + b.toNat) * 256 + c.toNat := by
    rw [ofOctets, BitVec.toNat_ofNat, Nat.mod_eq_of_lt]
    · simp
    · simp; omega
  apply BitVec.eq_of_toNat_eq
  rw [dotted, hread, toNat_shiftLeft_or hfront (by omega) (by omega), ofOctets,
    BitVec.toNat_ofNat, Nat.mod_eq_of_lt (by omega)]

theorem dotDec_ofOctets (a b c d : UInt8) : dotDec (ofOctets a b c d) = dotted a b c d := by
  have ha := a.toNat_lt
  have hb := b.toNat_lt
  have hc := c.toNat_lt
  have hd := d.toNat_lt
  have hnat : (ofOctets a b c d).toNat =
      ((a.toNat * 256 + b.toNat) * 256 + c.toNat) * 256 + d.toNat := by
    rw [ofOctets, BitVec.toNat_ofNat, Nat.mod_eq_of_lt (by omega)]
  have hoctet : ∀ (x : UInt8) (n : ℕ), n % 256 = x.toNat → UInt8.ofNat n = x := by
    intro x n hn
    rw [← UInt8.toNat_inj, UInt8.toNat_ofNat']
    exact hn
  rw [dotDec, hnat, hoctet a _ (by omega), hoctet b _ (by omega), hoctet c _ (by omega),
    hoctet d _ (by omega)]

end Addresses

section Blocks

variable {a b c d : UInt8} {len : ℕ} {ip addr : IPAddr}

def cidr (a b c d : UInt8) (len : ℕ) : List UInt8 := dotted a b c d ++ 0x2f :: decimal len

/-- The address is read, the notation of the address is the text, and the range is that of the
addresses which agree with it in the bits of the prefix. -/
def ParsesBlock (a b c d : UInt8) (len : ℕ) : Prop :=
  Router.dotDec2IP (dotted a b c d) = ofOctets a b c d ∧
  dotDec (ofOctets a b c d) = dotted a b c d ∧
  ∃ range, Router.CIDR2IP (cidr a b c d len) = some range ∧
    ∀ ip, range.1 ≤ ip ∧ ip ≤ range.2 ↔
      ∀ i < len, ip.getMsbD i = (ofOctets a b c d).getMsbD i

theorem mem_dotted {y : UInt8} (hy : y ∈ dotted a b c d) : isDigit y = true ∨ y = 0x2e := by
  simp only [dotted, dottedTo, List.mem_append, List.mem_cons] at hy
  rcases hy with hy | hy | hy | hy | hy | hy | hy
  · exact .inl (isDigit_decimal _ y hy)
  · exact .inr hy
  · exact .inl (isDigit_decimal _ y hy)
  · exact .inr hy
  · exact .inl (isDigit_decimal _ y hy)
  · exact .inr hy
  · exact .inl (isDigit_decimal _ y hy)

private theorem not_mem_dotted {y : UInt8} (hdigit : isDigit y = false) (hdot : y ≠ 0x2e) :
    y ∉ dotted a b c d := by
  intro hy
  rcases mem_dotted hy with h | h
  · rw [hdigit] at h
    cases h
  · exact hdot h

private theorem cutAt_cidr (a b c d : UInt8) (len : ℕ) :
    cutAt 0x2f ((cidr a b c d len).takeWhile (· ≠ 0)) = (dotted a b c d, decimal len) := by
  have hzero : ∀ x ∈ cidr a b c d len, decide (x ≠ 0) = true := by
    intro x hx
    refine decide_eq_true ?_
    rintro rfl
    rcases List.mem_append.mp hx with hx | hx
    · exact not_mem_dotted (by decide) (by decide) hx
    · rcases List.mem_cons.mp hx with hx | hx
      · exact absurd hx (by decide)
      · exact not_mem_decimal (by decide) len hx
  rw [List.takeWhile_eq_self_iff.mpr hzero, cidr,
    cutAt_append (not_mem_dotted (by decide) (by decide))]

theorem CIDR2IP_cidr (hpos : 1 ≤ len) (hlen : len ≤ 32) :
    Router.CIDR2IP (cidr a b c d len) = some (CIDR2IP (ofOctets a b c d, len)) := by
  have hshift : 0 ≤ 32 - (len : ℤ) ∧ 32 - (len : ℤ) < 32 := by omega
  have hnat : (32 - (len : ℤ)).toNat = 32 - len := by omega
  rw [Router.CIDR2IP, cutAt_cidr]
  simp only
  rw [atoi_decimal (by omega), if_pos hshift, hnat, dotDec2IP_dotted]
  rfl

/-- Without a prefix the shift is by the width of the word. -/
theorem CIDR2IP_cidr_zero (a b c d : UInt8) : Router.CIDR2IP (cidr a b c d 0) = none := by
  have hshift : ¬ (0 ≤ 32 - ((0 : ℕ) : ℤ) ∧ 32 - ((0 : ℕ) : ℤ) < 32) := by omega
  rw [Router.CIDR2IP, cutAt_cidr]
  simp only
  rw [atoi_decimal (by omega), if_neg hshift]

/-- The first bits agree where what is left of the others is the same. -/
theorem getMsbD_agree_iff (hlen : len ≤ 32) :
    (∀ i < len, ip.getMsbD i = addr.getMsbD i) ↔ InBlock (addr, len) ip := by
  constructor
  · intro h
    apply BitVec.eq_of_getMsbD_eq
    intro i hi
    rw [BitVec.getMsbD_ushiftRight, BitVec.getMsbD_ushiftRight]
    by_cases hlow : i < 32 - len
    · simp [hlow]
    · rw [h (i - (32 - len)) (by omega)]
  · intro h i hi
    have hbit := congrArg (fun x : IPAddr ↦ x.getMsbD (32 - len + i)) h
    have hwidth : 32 - len + i < 32 := by omega
    simpa [BitVec.getMsbD_ushiftRight, hwidth] using hbit

theorem range_iff_inBlock (hpos : 1 ≤ len) :
    (CIDR2IP (addr, len)).1 ≤ ip ∧ ip ≤ (CIDR2IP (addr, len)).2 ↔ InBlock (addr, len) ip := by
  rw [InBlock, ← and_ipMusk_eq_iff hpos]
  constructor
  · rintro ⟨hlo, hhi⟩
    exact range_match hpos hlo hhi
  · exact match_range

/-- For any octets and any prefix length, the text is read as the block exactly if the prefix is
not empty. -/
theorem parsesBlock_iff (a b c d : UInt8) {len : ℕ} (hlen : len ≤ 32) :
    ParsesBlock a b c d len ↔ 1 ≤ len := by
  constructor
  · rintro ⟨-, -, range, hrange, -⟩
    by_contra hpos
    obtain rfl : len = 0 := by omega
    rw [CIDR2IP_cidr_zero] at hrange
    cases hrange
  · intro hpos
    refine ⟨dotDec2IP_dotted a b c d, dotDec_ofOctets a b c d, _, CIDR2IP_cidr hpos hlen, ?_⟩
    intro ip
    rw [getMsbD_agree_iff hlen]
    exact range_iff_inBlock hpos

theorem parsesBlock_iff_twenty : ParsesBlock 20 1 2 3 8 ↔ 1 ≤ 8 :=
  parsesBlock_iff 20 1 2 3 (by decide)

/-- 0.0.0.0/0, the block of all addresses. -/
theorem not_parsesBlock_all : ¬ ParsesBlock 0 0 0 0 0 := by
  rintro ⟨-, -, range, hrange, -⟩
  rw [CIDR2IP_cidr_zero] at hrange
  cases hrange

end Blocks

end NetworkingLabs.Routing
