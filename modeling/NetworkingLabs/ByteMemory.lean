import Mathlib.Algebra.Group.Nat.Defs
import Mathlib.Data.List.Basic

/-!
# Bytes in memory

Numbers as sequences of bytes, the least significant one first, and buffers of a fixed size
that are written at a place. A write past the end of a buffer has no result.
-/
namespace NetworkingLabs

section Words

def bytesLE : ℕ → ℕ → List UInt8
  | 0, _ => []
  | w + 1, n => UInt8.ofNat n :: bytesLE w (n / 256)

def ofBytesLE : List UInt8 → ℕ
  | [] => 0
  | b :: bs => b.toNat + 256 * ofBytesLE bs

@[simp] theorem length_bytesLE (w n : ℕ) : (bytesLE w n).length = w := by
  induction w generalizing n with
  | zero => rfl
  | succ w ih => rw [bytesLE, List.length_cons, ih]

theorem ofBytesLE_bytesLE {w n : ℕ} (h : n < 256 ^ w) : ofBytesLE (bytesLE w n) = n := by
  induction w generalizing n with
  | zero =>
    rw [pow_zero] at h
    rw [bytesLE, ofBytesLE]
    omega
  | succ w ih =>
    rw [pow_succ] at h
    rw [bytesLE, ofBytesLE, ih (by omega), UInt8.toNat_ofNat']
    omega

theorem bytesLE_ofBytesLE (bs : List UInt8) : bytesLE bs.length (ofBytesLE bs) = bs := by
  induction bs with
  | nil => rfl
  | cons b bs ih =>
    have hb : b.toNat < 256 := b.toNat_lt
    have hlow : UInt8.ofNat (b.toNat + 256 * ofBytesLE bs) = b := by
      rw [← UInt8.toNat_inj, UInt8.toNat_ofNat']
      omega
    have hrest : (b.toNat + 256 * ofBytesLE bs) / 256 = ofBytesLE bs := by omega
    rw [List.length_cons, ofBytesLE, bytesLE, hlow, hrest, ih]

theorem ofBytesLE_lt (bs : List UInt8) : ofBytesLE bs < 256 ^ bs.length := by
  induction bs with
  | nil => rw [ofBytesLE, List.length_nil, pow_zero]; exact Nat.one_pos
  | cons b bs ih =>
    have hb : b.toNat < 256 := b.toNat_lt
    rw [ofBytesLE, List.length_cons, pow_succ]
    omega

/-- A number of as many bytes as fit is read back, also where the arithmetic wraps. -/
theorem bytesLE_mod {bs : List UInt8} {w m : ℕ} (hlen : bs.length = w) (hm : m = 256 ^ w) :
    bytesLE w (ofBytesLE bs % m) = bs := by
  subst hm hlen
  rw [Nat.mod_eq_of_lt (ofBytesLE_lt bs), bytesLE_ofBytesLE]

end Words

section Buffers

@[ext] structure Buffer (n : ℕ) where
  bytes : List UInt8
  size : bytes.length = n
  deriving DecidableEq

namespace Buffer

variable {n : ℕ} {i : ℕ} {xs : List UInt8}

def zeroed (n : ℕ) : Buffer n := ⟨List.replicate n 0, List.length_replicate⟩

private theorem length_overwrite (b : Buffer n) (h : i + xs.length ≤ n) :
    (b.bytes.take i ++ xs ++ b.bytes.drop (i + xs.length)).length = n := by
  have hsize := b.size
  simp only [List.length_append, List.length_take, List.length_drop]
  omega

def write (b : Buffer n) (i : ℕ) (xs : List UInt8) : Option (Buffer n) :=
  if h : i + xs.length ≤ n then
    some ⟨b.bytes.take i ++ xs ++ b.bytes.drop (i + xs.length), b.length_overwrite h⟩
  else none

private theorem length_fill (b : Buffer n) (xs : List UInt8) :
    (xs.take n ++ b.bytes.drop xs.length).length = n := by
  have hsize := b.size
  simp only [List.length_append, List.length_take, List.length_drop]
  omega

/-- As many bytes as there is room for are put in front. -/
def fill (b : Buffer n) (xs : List UInt8) : Buffer n :=
  ⟨xs.take n ++ b.bytes.drop xs.length, b.length_fill xs⟩

theorem getElem?_fill (b : Buffer n) (hi : i < n) :
    (b.fill xs).bytes[i]? = if i < xs.length then xs[i]? else b.bytes[i]? := by
  have hsize := b.size
  rw [fill]
  split
  · rw [List.getElem?_append_left (by rw [List.length_take]; omega), List.getElem?_take_of_lt hi]
  · rw [List.getElem?_append_right (by rw [List.length_take]; omega), List.getElem?_drop,
      List.length_take]
    congr 1
    omega

theorem write_eq_none (b : Buffer n) (h : n < i + xs.length) : b.write i xs = none :=
  dif_neg (by omega)

theorem write_take (b : Buffer n) (h : i + xs.length ≤ n) : ∃ b', b.write i xs = some b' ∧
    b'.bytes.take (i + xs.length) = b.bytes.take i ++ xs := by
  have hsize := b.size
  refine ⟨_, dif_pos h, ?_⟩
  apply List.take_left'
  rw [List.length_append, List.length_take]
  omega

end Buffer

end Buffers

end NetworkingLabs
