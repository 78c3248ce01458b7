import Mathlib.Algebra.Group.Nat.Defs
import Mathlib.Algebra.Ring.Int.Defs
import Mathlib.Data.List.TakeWhile

/-!
# Numbers in texts

Decimal numbers as bytes of ASCII, and what `atoi` and the extraction operators of C++ make of a
text. A stream of characters is what is left of it, or `none` once an extraction has failed.
-/
namespace NetworkingLabs.Text

section Characters

def isSpace (b : UInt8) : Bool := b = 0x20 || (0x09 ≤ b && b ≤ 0x0d)

def isDigit (b : UInt8) : Bool := 0x30 ≤ b && b ≤ 0x39

def digitValue (b : UInt8) : ℕ := b.toNat - 0x30

def digit (d : ℕ) : UInt8 := UInt8.ofNat (0x30 + d)

private theorem isDigit_iff {b : UInt8} : isDigit b = true ↔ 0x30 ≤ b.toNat ∧ b.toNat ≤ 0x39 := by
  simp [isDigit, UInt8.le_iff_toNat_le]

private theorem toNat_digit {d : ℕ} (h : d < 10) : (digit d).toNat = 0x30 + d := by
  rw [digit, UInt8.toNat_ofNat', Nat.mod_eq_of_lt (by omega)]

theorem isDigit_digit {d : ℕ} (h : d < 10) : isDigit (digit d) = true := by
  rw [isDigit_iff, toNat_digit h]
  omega

theorem digitValue_digit {d : ℕ} (h : d < 10) : digitValue (digit d) = d := by
  rw [digitValue, toNat_digit h, Nat.add_sub_cancel_left]

theorem isSpace_of_isDigit {b : UInt8} (h : isDigit b = true) : isSpace b = false := by
  rw [isDigit_iff] at h
  simp only [isSpace, Bool.or_eq_false_iff, decide_eq_false_iff_not, Bool.and_eq_false_iff,
    UInt8.le_iff_toNat_le, ← UInt8.toNat_inj]
  simp
  omega

end Characters

section Printing

/-- `out << n`. -/
def decimal (n : ℕ) : List UInt8 := (Nat.toDigits 10 n).map Char.toUInt8

def decimalInt : ℤ → List UInt8
  | .ofNat n => decimal n
  | .negSucc n => 0x2d :: decimal (n + 1)

def ofDecimal (ds : List UInt8) : ℕ := ds.foldl (fun v b ↦ 10 * v + digitValue b) 0

/-- The number that is read where digits follow a number. -/
def appendDigits (es : List UInt8) : ℤ → ℤ
  | .ofNat n => ofDecimal (decimal n ++ es)
  | .negSucc n => -(ofDecimal (decimal (n + 1) ++ es) : ℤ)

private theorem toUInt8_digitChar : ∀ d < 10, (Nat.digitChar d).toUInt8 = digit d := by decide

theorem decimal_eq (n : ℕ) :
    decimal n = (if n < 10 then [] else decimal (n / 10)) ++ [digit (n % 10)] := by
  have hlast := toUInt8_digitChar (n % 10) (Nat.mod_lt n (by decide))
  rw [decimal, Nat.toDigits_eq_if (by decide)]
  split
  · rename_i h
    rw [Nat.mod_eq_of_lt h] at hlast ⊢
    rw [List.map_singleton, hlast, List.nil_append]
  · rw [List.map_append, List.map_singleton, hlast, decimal]

theorem isDigit_decimal (n : ℕ) : ∀ b ∈ decimal n, isDigit b = true := by
  induction n using Nat.strongRecOn with
  | _ n ih =>
    rw [decimal_eq]
    intro b hb
    rcases List.mem_append.mp hb with hb | hb
    · split at hb
      · cases hb
      · exact ih (n / 10) (by omega) b hb
    · rw [List.mem_singleton.mp hb]
      exact isDigit_digit (Nat.mod_lt n (by decide))

@[simp] theorem decimal_ne_nil (n : ℕ) : decimal n ≠ [] := by
  rw [decimal_eq]
  simp

@[simp] theorem ofDecimal_append_singleton (ds : List UInt8) (b : UInt8) :
    ofDecimal (ds ++ [b]) = 10 * ofDecimal ds + digitValue b := by
  rw [ofDecimal, List.foldl_append]
  rfl

theorem ofDecimal_decimal (n : ℕ) : ofDecimal (decimal n) = n := by
  induction n using Nat.strongRecOn with
  | _ n ih =>
    have hlast := digitValue_digit (Nat.mod_lt n (show 0 < 10 by decide))
    rw [decimal_eq, ofDecimal_append_singleton, hlast]
    split
    · have hnil : ofDecimal [] = 0 := rfl
      omega
    · rw [ih (n / 10) (by omega)]
      omega

private theorem ofDecimal_le_append (ds es : List UInt8) : ofDecimal ds ≤ ofDecimal (ds ++ es) := by
  induction es generalizing ds with
  | nil => rw [List.append_nil]
  | cons e es ih =>
    have hrest := ih (ds ++ [e])
    rw [ofDecimal_append_singleton, List.append_assoc, List.singleton_append] at hrest
    omega

@[simp] theorem appendDigits_nil (v : ℤ) : appendDigits [] v = v := by
  cases v with
  | ofNat n => simp [appendDigits, ofDecimal_decimal]
  | negSucc n => simp [appendDigits, ofDecimal_decimal, Int.negSucc_eq]

theorem appendDigits_digit {d : ℕ} (hd : d < 10) (v : ℤ) :
    appendDigits [digit d] v = if 0 ≤ v then 10 * v + d else 10 * v - d := by
  cases v with
  | ofNat n =>
    simp [appendDigits, ofDecimal_decimal, digitValue_digit hd]
  | negSucc n =>
    have hneg : ¬ 0 ≤ Int.negSucc n := by omega
    simp only [appendDigits, ofDecimal_append_singleton, ofDecimal_decimal, digitValue_digit hd,
      if_neg hneg]
    omega

theorem le_appendDigits {v : ℤ} (h : 0 ≤ v) (es : List UInt8) : v ≤ appendDigits es v := by
  cases v with
  | ofNat n =>
    have hle := ofDecimal_le_append (decimal n) es
    rw [ofDecimal_decimal] at hle
    exact Int.ofNat_le.mpr hle
  | negSucc n => omega

theorem appendDigits_le {v : ℤ} (h : v < 0) (es : List UInt8) : appendDigits es v ≤ v := by
  cases v with
  | ofNat n => exact absurd h (by simp)
  | negSucc n =>
    have hle := ofDecimal_le_append (decimal (n + 1)) es
    rw [ofDecimal_decimal] at hle
    rw [appendDigits]
    omega

theorem length_decimal_le {n k : ℕ} (hk : 1 ≤ k) (h : n < 10 ^ k) : (decimal n).length ≤ k := by
  induction k generalizing n with
  | zero => omega
  | succ k ih =>
    rw [decimal_eq, List.length_append, List.length_singleton]
    split
    · exact Nat.le_add_left 1 k
    · have hpow : 10 ^ (k + 1) = 10 * 10 ^ k := by rw [Nat.pow_succ, Nat.mul_comm]
      have hk' : 1 ≤ k := by
        rcases Nat.eq_zero_or_pos k with rfl | hpos
        · omega
        · exact hpos
      have hrest := ih hk' (n := n / 10) (by omega)
      omega

end Printing

section Scanning

def scanSign : List UInt8 → Bool × List UInt8
  | [] => (false, [])
  | b :: text =>
    if b = 0x2d then (true, text) else if b = 0x2b then (false, text) else (false, b :: text)

def scanInt (text : List UInt8) : Option (ℤ × List UInt8) :=
  let (minus, text) := scanSign (text.dropWhile isSpace)
  let ds := text.takeWhile isDigit
  if ds = [] then none
  else some (if minus then -(ofDecimal ds : ℤ) else ofDecimal ds, text.dropWhile isDigit)

def clamp (lo hi v : ℤ) : ℤ := if v < lo then lo else if hi < v then hi else v

/-- `atoi`: the number within the bounds of a `long`, cut down to an `int`. -/
def atoi (text : List UInt8) : ℤ :=
  match scanInt text with
  | none => 0
  | some (v, _) => (clamp (-2 ^ 63) (2 ^ 63 - 1) v).bmod (2 ^ 32)

/-- `in >> v` for a number within bounds: what is stored, `none` leaving `v` as it was, and the
stream afterwards. -/
def extractInt (lo hi : ℤ) : Option (List UInt8) → Option ℤ × Option (List UInt8)
  | none => (none, none)
  | some text =>
    if text.dropWhile isSpace = [] then (none, none)
    else match scanInt text with
      | none => (some 0, none)
      | some (v, rest) => (some (clamp lo hi v), if clamp lo hi v = v then some rest else none)

/-- `in >> s` for a string of characters. -/
def extractWord : Option (List UInt8) → Option (List UInt8) × Option (List UInt8)
  | none => (none, none)
  | some text =>
    let text := text.dropWhile isSpace
    if text = [] then (none, none)
    else (some (text.takeWhile (!isSpace ·)), some (text.dropWhile (!isSpace ·)))

def NoDigit (text : List UInt8) : Prop := ∀ b ∈ text.head?, isDigit b = false

instance (text : List UInt8) : Decidable (NoDigit text) :=
  inferInstanceAs (Decidable (∀ b ∈ text.head?, _))

variable {p : UInt8 → Bool} {ds rest text : List UInt8} {b : UInt8} {n : ℕ} {lo hi v : ℤ}

theorem takeWhile_run (hds : ∀ b ∈ ds, p b = true) (hrest : ∀ b ∈ rest.head?, p b = false) :
    (ds ++ rest).takeWhile p = ds ∧ (ds ++ rest).dropWhile p = rest := by
  rw [List.takeWhile_append_of_pos hds, List.dropWhile_append_of_pos hds]
  cases rest with
  | nil => exact ⟨List.append_nil ds, rfl⟩
  | cons b rest =>
    have hb : ¬ p b = true := by simp [hrest b rfl]
    rw [List.takeWhile_cons_of_neg hb, List.dropWhile_cons_of_neg hb, List.append_nil]
    exact ⟨rfl, rfl⟩

private theorem scanSign_digits (hne : ds ≠ []) (hds : ∀ b ∈ ds, isDigit b = true) :
    scanSign (ds ++ rest) = (false, ds ++ rest) := by
  cases ds with
  | nil => exact absurd rfl hne
  | cons b ds =>
    have hb := hds b (.head ds)
    have hminus : b ≠ 0x2d := by rintro rfl; exact absurd hb (by decide)
    have hplus : b ≠ 0x2b := by rintro rfl; exact absurd hb (by decide)
    simp only [List.cons_append, scanSign, if_neg hminus, if_neg hplus]

private theorem dropWhile_isSpace (hb : isSpace b = false) :
    (b :: text).dropWhile isSpace = b :: text :=
  List.dropWhile_cons_of_neg (by simp [hb])

theorem dropWhile_isSpace_digits (hne : ds ≠ []) (hds : ∀ b ∈ ds, isDigit b = true) :
    (ds ++ rest).dropWhile isSpace = ds ++ rest := by
  cases ds with
  | nil => exact absurd rfl hne
  | cons b ds => exact dropWhile_isSpace (isSpace_of_isDigit (hds b (.head ds)))

theorem scanInt_digits (hne : ds ≠ []) (hds : ∀ b ∈ ds, isDigit b = true) (hrest : NoDigit rest) :
    scanInt (ds ++ rest) = some ((ofDecimal ds : ℤ), rest) := by
  obtain ⟨htake, hdrop⟩ := takeWhile_run hds hrest
  simp [scanInt, dropWhile_isSpace_digits hne hds, scanSign_digits hne hds, htake, hdrop, hne]

private theorem scanInt_minus (hne : ds ≠ []) (hds : ∀ b ∈ ds, isDigit b = true)
    (hrest : NoDigit rest) :
    scanInt (0x2d :: (ds ++ rest)) = some (-(ofDecimal ds : ℤ), rest) := by
  obtain ⟨htake, hdrop⟩ := takeWhile_run hds hrest
  have hspace : isSpace 0x2d = false := by decide
  simp [scanInt, dropWhile_isSpace hspace, scanSign, htake, hdrop, hne]

theorem scanInt_space (hb : isSpace b = true) : scanInt (b :: text) = scanInt text := by
  rw [scanInt, List.dropWhile_cons_of_pos hb]
  rfl

theorem clamp_eq (hlo : lo ≤ v) (hhi : v ≤ hi) : clamp lo hi v = v := by
  rw [clamp, if_neg (by omega), if_neg (by omega)]

theorem noDigit_nil : NoDigit [] := by
  intro b hb
  cases hb

theorem noDigit_cons (hb : isDigit b = false) : NoDigit (b :: text) := by
  rintro x hx
  cases hx
  exact hb

theorem NoDigit.takeWhile (h : NoDigit text) : NoDigit (text.takeWhile p) := by
  cases text with
  | nil => exact noDigit_nil
  | cons b text =>
    rw [List.takeWhile_cons]
    split
    · exact noDigit_cons (h b rfl)
    · exact noDigit_nil

theorem NoDigit.append (h : NoDigit text) (hrest : NoDigit rest) : NoDigit (text ++ rest) := by
  cases text with
  | nil => exact hrest
  | cons b text => exact noDigit_cons (h b rfl)

theorem noDigit_dropWhile (text : List UInt8) : NoDigit (text.dropWhile isDigit) := by
  induction text with
  | nil => exact noDigit_nil
  | cons b text ih =>
    rw [List.dropWhile_cons]
    split
    · exact ih
    · rename_i hb
      exact noDigit_cons (by simpa using hb)

theorem atoi_append (hne : ds ≠ []) (hds : ∀ b ∈ ds, isDigit b = true) (hrest : NoDigit rest) :
    atoi (ds ++ rest) = atoi ds := by
  have hnil := scanInt_digits hne hds noDigit_nil
  rw [List.append_nil] at hnil
  rw [atoi, atoi, scanInt_digits hne hds hrest, hnil]

theorem atoi_digits (hne : ds ≠ []) (hds : ∀ b ∈ ds, isDigit b = true)
    (hsmall : ofDecimal ds < 2 ^ 31) : atoi ds = ofDecimal ds := by
  have hnil := scanInt_digits hne hds noDigit_nil
  rw [List.append_nil] at hnil
  rw [atoi, hnil]
  simp only
  rw [clamp_eq (by omega) (by omega), Int.bmod_eq_of_le (by omega) (by omega)]

/-- A number is read with the digits that follow it, up to what is no digit. -/
theorem scanInt_appendDigits (v : ℤ) {es : List UInt8} (hes : ∀ b ∈ es, isDigit b = true)
    (hrest : NoDigit rest) :
    scanInt (decimalInt v ++ (es ++ rest)) = some (appendDigits es v, rest) := by
  have hall : ∀ n, ∀ b ∈ decimal n ++ es, isDigit b = true := by
    intro n b hb
    exact (List.mem_append.mp hb).elim (isDigit_decimal n b) (hes b)
  have hne : ∀ n, decimal n ++ es ≠ [] := by
    intro n hnil
    exact decimal_ne_nil n (List.append_eq_nil_iff.mp hnil).1
  rw [← List.append_assoc]
  cases v with
  | ofNat n => exact scanInt_digits (hne n) (hall n) hrest
  | negSucc n => exact scanInt_minus (hne (n + 1)) (hall (n + 1)) hrest

theorem extractInt_appendDigits (lo hi v : ℤ) {es : List UInt8} (hes : ∀ b ∈ es, isDigit b = true)
    (hrest : NoDigit rest) :
    extractInt lo hi (some (decimalInt v ++ (es ++ rest))) =
      (some (clamp lo hi (appendDigits es v)),
        if clamp lo hi (appendDigits es v) = appendDigits es v then some rest else none) := by
  have hscan := scanInt_appendDigits v hes hrest
  have hne : (decimalInt v ++ (es ++ rest)).dropWhile isSpace ≠ [] := by
    intro hnil
    rw [scanInt, hnil] at hscan
    cases hscan
  simp only [extractInt, if_neg hne, hscan]

/-- What was printed is read back, whatever follows that is no digit. -/
theorem extractInt_decimalInt (hrest : NoDigit rest) (hlo : lo ≤ v) (hhi : v ≤ hi) :
    extractInt lo hi (some (decimalInt v ++ rest)) = (some v, some rest) := by
  have hread := extractInt_appendDigits lo hi v (List.forall_mem_nil _) hrest
  rwa [appendDigits_nil, clamp_eq hlo hhi, if_pos rfl] at hread

theorem extractInt_space (hb : isSpace b = true) :
    extractInt lo hi (some (b :: text)) = extractInt lo hi (some text) := by
  rw [extractInt, extractInt, List.dropWhile_cons_of_pos hb, scanInt_space hb]

end Scanning

end NetworkingLabs.Text
