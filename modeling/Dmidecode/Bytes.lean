import Mathlib.Algebra.BigOperators.Fin
import Mathlib.Tactic.Ring

/-!
# Little-endian byte strings

Per SMBIOS 2.8 every structure field is stored least significant byte first.
`leValue` reads a byte string that way and `leBytes n` writes the low `n` bytes
of a number back; they are inverse on strings of length `n` and on numbers below
`256 ^ n`. The readers of `types.h` are specified through these two only.
-/

namespace Dmidecode

/-- The number whose little-endian bytes are `bs`. -/
def leValue : List UInt8 → Nat
  | [] => 0
  | b :: bs => b.toNat + 256 * leValue bs

/-- The `n` little-endian bytes of `v`; bits from `8 * n` up are dropped. -/
def leBytes : Nat → Nat → List UInt8
  | 0, _ => []
  | n + 1, v => UInt8.ofNat v :: leBytes n (v / 256)

@[simp] theorem leValue_nil : leValue [] = 0 := rfl

@[simp] theorem leValue_cons (b : UInt8) (bs : List UInt8) :
    leValue (b :: bs) = b.toNat + 256 * leValue bs := rfl

@[simp] theorem leBytes_zero (v : Nat) : leBytes 0 v = [] := rfl

@[simp] theorem leBytes_succ (n v : Nat) :
    leBytes (n + 1) v = UInt8.ofNat v :: leBytes n (v / 256) := rfl

@[simp] theorem toNat_ofNat_byte (v : Nat) : (UInt8.ofNat v).toNat = v % 256 := rfl

@[simp] theorem length_leBytes (n v : Nat) : (leBytes n v).length = n := by
  induction n generalizing v <;> simp [*]

theorem leValue_lt (bs : List UInt8) : leValue bs < 256 ^ bs.length := by
  induction bs with
  | nil => simp
  | cons b bs ih =>
    have hb : b.toNat < 256 := b.toNat_lt_size
    rw [leValue_cons, List.length_cons, pow_succ]
    omega

theorem leValue_lt_two_pow (bs : List UInt8) : leValue bs < 2 ^ (8 * bs.length) := by
  simpa [pow_mul] using leValue_lt bs

theorem leValue_leBytes (n v : Nat) : leValue (leBytes n v) = v % 256 ^ n := by
  induction n generalizing v with
  | zero => simp [Nat.mod_one]
  | succ n ih => rw [leBytes_succ, leValue_cons, ih, toNat_ofNat_byte, pow_succ', Nat.mod_mul]

theorem leBytes_leValue (bs : List UInt8) : leBytes bs.length (leValue bs) = bs := by
  induction bs with
  | nil => rfl
  | cons b bs ih =>
    have hb : b.toNat < 256 := b.toNat_lt_size
    have hlow : UInt8.ofNat (b.toNat + 256 * leValue bs) = b := UInt8.toNat.inj (by simp; omega)
    have hhigh : (b.toNat + 256 * leValue bs) / 256 = leValue bs := by omega
    rw [List.length_cons, leBytes_succ, leValue_cons, hlow, hhigh, ih]

theorem leValue_append (l₁ l₂ : List UInt8) :
    leValue (l₁ ++ l₂) = leValue l₁ + 256 ^ l₁.length * leValue l₂ := by
  induction l₁ with
  | nil => simp
  | cons b bs ih =>
    rw [List.cons_append, leValue_cons, leValue_cons, ih, List.length_cons, pow_succ']
    ring

/-- The positional reading: byte `i` weighs `256 ^ i`. -/
theorem leValue_ofFn {n : Nat} (f : Fin n → UInt8) :
    leValue (List.ofFn f) = ∑ i, (f i).toNat * 256 ^ (i : Nat) := by
  induction n with
  | zero => simp
  | succ n ih =>
    rw [List.ofFn_succ, leValue_cons, ih, Fin.sum_univ_succ, Finset.mul_sum]
    simp only [Fin.val_zero, pow_zero, mul_one, Fin.val_succ, pow_succ]
    congr 1
    exact Finset.sum_congr rfl fun i _ => by ring

end Dmidecode
