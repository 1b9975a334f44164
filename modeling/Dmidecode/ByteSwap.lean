import Dmidecode.Bytes

/-!
# Byte swaps

On a big-endian host `types.h` swaps a loaded value with `bswap_16`, `bswap_32`
or `bswap_64` when `<byteswap.h>` made them macros, and with GCC's
`__builtin_bswap16/32/64` otherwise. Neither is code of this repository. The
builtins are modelled from GCC's documentation, the bytes of the argument in
reverse order; the macros from glibc's mask-and-shift `__bswap_constant_N`, which
`__bswap_N` expands to when the compiler has no builtin.

`bswap_eq_builtin` shows that the glibc definitions are the builtins, so either
choice of the preprocessor swaps bytes (`ReversesBytes`).
-/

namespace Dmidecode

-- ---------------------------------------------------------------------------
-- Masks and disjoint ors on `Nat`
-- ---------------------------------------------------------------------------

/-- `x & (0xff << s)`, with the mask written as a literal `m`, keeps one byte. -/
theorem and_byte_mask (x m s : Nat) (hm : m = 255 * 2 ^ s) :
    x &&& m = x / 2 ^ s % 256 * 2 ^ s := by
  subst hm
  apply Nat.eq_of_testBit_eq
  intro j
  rw [show (255 : Nat) = 2 ^ 8 - 1 from rfl, show (256 : Nat) = 2 ^ 8 from rfl,
    Nat.mul_comm, Nat.mul_comm _ (2 ^ s), Nat.testBit_and, Nat.testBit_mul_pow_two,
    Nat.testBit_mul_pow_two, Nat.testBit_mod_two_pow, Nat.testBit_two_pow_sub_one,
    ← Nat.shiftRight_eq_div_pow, Nat.testBit_shiftRight]
  by_cases h : s ≤ j
  · simp [h, Nat.add_sub_cancel' h, Bool.and_comm]
  · simp [h]

/-- `(x & m) >> r`, the byte `m` selects moved down by `r` bits. -/
theorem and_byte_mask_div (x m s r : Nat) (hm : m = 255 * 2 ^ (s + r)) :
    (x &&& m) / 2 ^ r = x / 2 ^ (s + r) % 256 * 2 ^ s := by
  rw [and_byte_mask x m _ hm, Nat.pow_add, ← Nat.mul_assoc, Nat.mul_div_cancel _ (Nat.two_pow_pos r)]

/-- `(x & m) << r` in a `w`-bit type, the byte `m` selects moved up by `r` bits and
still inside the type. -/
theorem and_byte_mask_mul (x m s r w : Nat) (hm : m = 255 * 2 ^ s) (hw : s + r + 8 ≤ w) :
    (x &&& m) * 2 ^ r % 2 ^ w = x / 2 ^ s % 256 * 2 ^ (s + r) := by
  have hlt : x / 2 ^ s % 256 * 2 ^ (s + r) < 2 ^ w :=
    calc x / 2 ^ s % 256 * 2 ^ (s + r) < 2 ^ 8 * 2 ^ (s + r) :=
          Nat.mul_lt_mul_of_pos_right (Nat.mod_lt _ (by decide)) (Nat.two_pow_pos _)
      _ ≤ 2 ^ w := by rw [← Nat.pow_add]; exact Nat.pow_le_pow_right (by decide) (by omega)
  rw [and_byte_mask x m s hm, Nat.mul_assoc, ← Nat.pow_add, Nat.mod_eq_of_lt hlt]

/-- An or with a value that starts at bit `k`, of one that ends below it, adds. -/
theorem or_mul_two_pow {a : Nat} (k c : Nat) (ha : a < 2 ^ k) : a ||| c * 2 ^ k = a + c * 2 ^ k := by
  rw [Nat.or_comm, Nat.mul_comm, ← Nat.mul_add_lt_is_or ha, Nat.add_comm]

-- ---------------------------------------------------------------------------
-- The builtins
-- ---------------------------------------------------------------------------

/-- GCC's `__builtin_bswapN` on an `n`-byte value. -/
def builtinBswap (n : Nat) (x : BitVec (8 * n)) : BitVec (8 * n) :=
  BitVec.ofNat (8 * n) (leValue (leBytes n x.toNat).reverse)

def builtinBswap16 : BitVec 16 → BitVec 16 := builtinBswap 2

def builtinBswap32 : BitVec 32 → BitVec 32 := builtinBswap 4

def builtinBswap64 : BitVec 64 → BitVec 64 := builtinBswap 8

theorem toNat_builtinBswap (n : Nat) (x : BitVec (8 * n)) :
    (builtinBswap n x).toNat = leValue (leBytes n x.toNat).reverse := by
  rw [builtinBswap, BitVec.toNat_ofNat, Nat.mod_eq_of_lt]
  simpa using leValue_lt_two_pow (leBytes n x.toNat).reverse

/-- A swap turns the native big-endian reading of any `n` bytes into their
little-endian reading. -/
def ReversesBytes (n : Nat) (swap : BitVec (8 * n) → BitVec (8 * n)) : Prop :=
  ∀ bs : List UInt8, bs.length = n →
    swap (BitVec.ofNat (8 * n) (leValue bs.reverse)) = BitVec.ofNat (8 * n) (leValue bs)

theorem builtinBswap_reverses (n : Nat) : ReversesBytes n (builtinBswap n) := by
  rintro bs rfl
  have hval : (BitVec.ofNat (8 * bs.length) (leValue bs.reverse)).toNat = leValue bs.reverse := by
    rw [BitVec.toNat_ofNat, Nat.mod_eq_of_lt]
    simpa using leValue_lt_two_pow bs.reverse
  have hbytes : leBytes bs.length (leValue bs.reverse) = bs.reverse := by
    simpa using leBytes_leValue bs.reverse
  rw [builtinBswap, hval, hbytes, List.reverse_reverse]

-- ---------------------------------------------------------------------------
-- glibc's `__bswap_constant_N`
-- ---------------------------------------------------------------------------

/-- glibc's `bswap_16`. C evaluates it in `int`; no bit leaves the low 16, so
`BitVec 16` gives the same value. -/
def bswap16 (x : BitVec 16) : BitVec 16 :=
  ((x >>> 8) &&& 0xff#16) ||| ((x &&& 0xff#16) <<< 8)

/-- glibc's `bswap_32`, on `unsigned int`. -/
def bswap32 (x : BitVec 32) : BitVec 32 :=
  ((x &&& 0xff000000#32) >>> 24) ||| ((x &&& 0x00ff0000#32) >>> 8) |||
    ((x &&& 0x0000ff00#32) <<< 8) ||| ((x &&& 0x000000ff#32) <<< 24)

/-- glibc's `bswap_64`, on `unsigned long long`. -/
def bswap64 (x : BitVec 64) : BitVec 64 :=
  ((x &&& 0xff00000000000000#64) >>> 56) ||| ((x &&& 0x00ff000000000000#64) >>> 40) |||
    ((x &&& 0x0000ff0000000000#64) >>> 24) ||| ((x &&& 0x000000ff00000000#64) >>> 8) |||
    ((x &&& 0x00000000ff000000#64) <<< 8) ||| ((x &&& 0x0000000000ff0000#64) <<< 24) |||
    ((x &&& 0x000000000000ff00#64) <<< 40) ||| ((x &&& 0x00000000000000ff#64) <<< 56)

/- Each proof reads both sides as numbers: every mask-and-shift term becomes one
byte at its new place (`and_byte_mask_div`, `and_byte_mask_mul`), the disjoint ors
of those become sums (`or_mul_two_pow`), and `omega` compares the sums. -/

theorem bswap16_eq_builtin : bswap16 = builtinBswap16 := by
  funext x
  apply BitVec.eq_of_toNat_eq
  rw [builtinBswap16, toNat_builtinBswap]
  simp only [bswap16, BitVec.toNat_or, BitVec.toNat_and, BitVec.toNat_ushiftRight,
    BitVec.toNat_shiftLeft, BitVec.toNat_ofNat, Nat.reduceMod, Nat.shiftLeft_eq,
    Nat.shiftRight_eq_div_pow]
  rw [and_byte_mask _ 0xff 0 rfl, and_byte_mask_mul _ 0xff 0 8 16 rfl (by decide)]
  simp only [Nat.reduceAdd, Nat.pow_zero, Nat.div_one, Nat.mul_one]
  simp (disch := omega) only [or_mul_two_pow]
  simp only [leBytes_succ, leBytes_zero, List.reverse_cons, List.reverse_nil, List.nil_append,
    List.cons_append, leValue_cons, leValue_nil, toNat_ofNat_byte, Nat.div_div_eq_div_mul,
    Nat.reduceMul, Nat.reducePow, Nat.div_one]
  omega

theorem bswap32_eq_builtin : bswap32 = builtinBswap32 := by
  funext x
  apply BitVec.eq_of_toNat_eq
  rw [builtinBswap32, toNat_builtinBswap]
  simp only [bswap32, BitVec.toNat_or, BitVec.toNat_and, BitVec.toNat_ushiftRight,
    BitVec.toNat_shiftLeft, BitVec.toNat_ofNat, Nat.reduceMod, Nat.shiftLeft_eq,
    Nat.shiftRight_eq_div_pow]
  rw [and_byte_mask_div _ 0xff000000 0 24 rfl, and_byte_mask_div _ 0x00ff0000 8 8 rfl,
    and_byte_mask_mul _ 0x0000ff00 8 8 32 rfl (by decide),
    and_byte_mask_mul _ 0x000000ff 0 24 32 rfl (by decide)]
  simp only [Nat.reduceAdd, Nat.pow_zero, Nat.mul_one]
  simp (disch := omega) only [or_mul_two_pow]
  simp only [leBytes_succ, leBytes_zero, List.reverse_cons, List.reverse_nil, List.nil_append,
    List.cons_append, leValue_cons, leValue_nil, toNat_ofNat_byte, Nat.div_div_eq_div_mul,
    Nat.reduceMul, Nat.reducePow, Nat.div_one]
  omega

theorem bswap64_eq_builtin : bswap64 = builtinBswap64 := by
  funext x
  apply BitVec.eq_of_toNat_eq
  rw [builtinBswap64, toNat_builtinBswap]
  simp only [bswap64, BitVec.toNat_or, BitVec.toNat_and, BitVec.toNat_ushiftRight,
    BitVec.toNat_shiftLeft, BitVec.toNat_ofNat, Nat.reduceMod, Nat.shiftLeft_eq,
    Nat.shiftRight_eq_div_pow]
  rw [and_byte_mask_div _ 0xff00000000000000 0 56 rfl,
    and_byte_mask_div _ 0x00ff000000000000 8 40 rfl,
    and_byte_mask_div _ 0x0000ff0000000000 16 24 rfl,
    and_byte_mask_div _ 0x000000ff00000000 24 8 rfl,
    and_byte_mask_mul _ 0x00000000ff000000 24 8 64 rfl (by decide),
    and_byte_mask_mul _ 0x0000000000ff0000 16 24 64 rfl (by decide),
    and_byte_mask_mul _ 0x000000000000ff00 8 40 64 rfl (by decide),
    and_byte_mask_mul _ 0x00000000000000ff 0 56 64 rfl (by decide)]
  simp only [Nat.reduceAdd, Nat.pow_zero, Nat.mul_one]
  simp (disch := omega) only [or_mul_two_pow]
  simp only [leBytes_succ, leBytes_zero, List.reverse_cons, List.reverse_nil, List.nil_append,
    List.cons_append, leValue_cons, leValue_nil, toNat_ofNat_byte, Nat.div_div_eq_div_mul,
    Nat.reduceMul, Nat.reducePow, Nat.div_one]
  omega

theorem bswap_eq_builtin :
    bswap16 = builtinBswap16 ∧ bswap32 = builtinBswap32 ∧ bswap64 = builtinBswap64 :=
  ⟨bswap16_eq_builtin, bswap32_eq_builtin, bswap64_eq_builtin⟩

theorem bswap16_reverses : ReversesBytes 2 bswap16 := by
  rw [bswap16_eq_builtin]
  exact builtinBswap_reverses 2

theorem bswap32_reverses : ReversesBytes 4 bswap32 := by
  rw [bswap32_eq_builtin]
  exact builtinBswap_reverses 4

theorem bswap64_reverses : ReversesBytes 8 bswap64 := by
  rw [bswap64_eq_builtin]
  exact builtinBswap_reverses 8

end Dmidecode
