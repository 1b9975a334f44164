import Dmidecode.ByteSwap

/-!
# `types.h`

The scalar types SMBIOS fields are read into, the byte-order test at the top of
the header, and the readers `WORD`, `DWORD` and `QWORD`. A reader copies the
bytes at `x` into a scalar with `memcpy`, so what it holds first is the host's
native reading of those bytes; when the header defined `BIGENDIAN` it then swaps
the scalar's bytes.

A `Host` is what the preprocessor sees: the target's byte order, whether the
compiler predefines `__BYTE_ORDER__` (else `<endian.h>` is read), and which of
`bswap_16`, `bswap_32`, `bswap_64` are macros. `ByteOrder` has GCC's three
orders; the test of the header singles out the big-endian one only. The
typedefs are taken at their usual widths: `unsigned short`, `unsigned int` and
`unsigned long long` of 16, 32 and 64 bits.
-/

namespace Dmidecode

abbrev U16 := BitVec 16

abbrev U32 := BitVec 32

abbrev U64 := BitVec 64

/-- `__ORDER_LITTLE_ENDIAN__`, `__ORDER_BIG_ENDIAN__` and `__ORDER_PDP_ENDIAN__`. -/
inductive ByteOrder
  | little
  | big
  | pdp
  deriving DecidableEq, Repr

/-- The 16-bit words of `bs` in reverse order, the bytes of each word kept. -/
def wordsReversed : List UInt8 → List UInt8
  | b₀ :: b₁ :: rest => wordsReversed rest ++ [b₀, b₁]
  | bs => bs

@[simp] theorem wordsReversed_nil : wordsReversed [] = [] := rfl

@[simp] theorem wordsReversed_singleton (b : UInt8) : wordsReversed [b] = [b] := rfl

@[simp] theorem wordsReversed_cons_cons (b₀ b₁ : UInt8) (rest : List UInt8) :
    wordsReversed (b₀ :: b₁ :: rest) = wordsReversed rest ++ [b₀, b₁] := rfl

@[simp] theorem length_wordsReversed (bs : List UInt8) : (wordsReversed bs).length = bs.length := by
  induction bs using wordsReversed.induct <;> simp [wordsReversed, *]

/-- The value of a scalar whose storage holds `bs`. A PDP-endian target keeps the
bytes of a 16-bit word little-endian and the words most significant first. -/
def ByteOrder.load : ByteOrder → List UInt8 → Nat
  | .little, bs => leValue bs
  | .big, bs => leValue bs.reverse
  | .pdp, bs => leValue (wordsReversed bs)

theorem ByteOrder.load_lt (o : ByteOrder) (bs : List UInt8) : o.load bs < 2 ^ (8 * bs.length) := by
  cases o with
  | little => exact leValue_lt_two_pow bs
  | big => simpa using leValue_lt_two_pow bs.reverse
  | pdp => simpa using leValue_lt_two_pow (wordsReversed bs)

structure Host where
  order : ByteOrder
  /-- the compiler predefines `__BYTE_ORDER__` -/
  byteOrderPredefined : Bool
  /-- `bswap_16` is a macro where the readers are compiled -/
  hasBswap16 : Bool
  hasBswap32 : Bool
  hasBswap64 : Bool
  deriving DecidableEq, Repr

/-- `__BYTE_ORDER__`, when the compiler predefines it. -/
def Host.byteOrderMacro (h : Host) : Option ByteOrder :=
  if h.byteOrderPredefined then some h.order else none

/-- `__BYTE_ORDER` from `<endian.h>`. -/
def Host.endianByteOrder (h : Host) : ByteOrder := h.order

/-- Whether the header defines `BIGENDIAN`. -/
def Host.bigendian (h : Host) : Bool :=
  match h.byteOrderMacro with
  | some order => order == .big
  | none => h.endianByteOrder == .big

/-- Both branches of the test see the target's order. -/
theorem Host.bigendian_iff (h : Host) : h.bigendian = true ↔ h.order = .big := by
  unfold bigendian byteOrderMacro endianByteOrder
  cases h.byteOrderPredefined <;> simp

theorem Host.bigendian_eq_false (h : Host) (ho : h.order ≠ .big) : h.bigendian = false :=
  Bool.eq_false_iff.mpr fun hb => ho ((Host.bigendian_iff h).mp hb)

-- ---------------------------------------------------------------------------
-- Pointers and loads
-- ---------------------------------------------------------------------------

/-- A `const void *x` into a buffer with `n` bytes readable from it. The readers
check no bound; this is what their callers establish. -/
structure Ptr (n : Nat) where
  buf : List UInt8
  off : Nat
  readable : off + n ≤ buf.length

/-- `x + k`, of whose bytes `m` are still to be read. -/
def Ptr.add (x : Ptr n) (k : Nat) (hk : k + m ≤ n) : Ptr m :=
  ⟨x.buf, x.off + k, by have := x.readable; omega⟩

/-- The bytes `memcpy(&ret, x, n)` copies. -/
def memcpy (x : Ptr n) : List UInt8 := (x.buf.drop x.off).take n

@[simp] theorem length_memcpy (x : Ptr n) : (memcpy x).length = n := by
  have := x.readable
  simp only [memcpy, List.length_take, List.length_drop]
  omega

/-- `ret` after `memcpy(&ret, x, sizeof(ret))`. -/
def load (h : Host) (x : Ptr n) : BitVec (8 * n) :=
  BitVec.ofNat (8 * n) (h.order.load (memcpy x))

theorem toNat_load (h : Host) (x : Ptr n) : (load h x).toNat = h.order.load (memcpy x) := by
  rw [load, BitVec.toNat_ofNat, Nat.mod_eq_of_lt]
  simpa using h.order.load_lt (memcpy x)

-- ---------------------------------------------------------------------------
-- `WORD`, `DWORD`, `QWORD`
-- ---------------------------------------------------------------------------

/-- The body the three readers share, `swap` being the one the preprocessor picked. -/
def readScalar (n : Nat) (swap : BitVec (8 * n) → BitVec (8 * n)) (h : Host) (x : Ptr n) :
    BitVec (8 * n) :=
  let ret := load h x
  if h.bigendian then swap ret else ret

def word (h : Host) (x : Ptr 2) : U16 :=
  readScalar 2 (if h.hasBswap16 then bswap16 else builtinBswap16) h x

def dword (h : Host) (x : Ptr 4) : U32 :=
  readScalar 4 (if h.hasBswap32 then bswap32 else builtinBswap32) h x

def qword (h : Host) (x : Ptr 8) : U64 :=
  readScalar 8 (if h.hasBswap64 then bswap64 else builtinBswap64) h x

theorem ReversesBytes.ite {f g : BitVec (8 * n) → BitVec (8 * n)} (b : Bool)
    (hf : ReversesBytes n f) (hg : ReversesBytes n g) : ReversesBytes n (if b then f else g) := by
  cases b <;> assumption

section
variable {n : Nat} {swap : BitVec (8 * n) → BitVec (8 * n)} {h : Host}

theorem toNat_readScalar (hswap : ReversesBytes n swap) (ho : h.order = .little ∨ h.order = .big)
    (x : Ptr n) : (readScalar n swap h x).toNat = leValue (memcpy x) := by
  rcases ho with ho | ho
  · simp [readScalar, h.bigendian_eq_false (by simp [ho]), toNat_load, ho, ByteOrder.load]
  · have hb : h.bigendian = true := (Host.bigendian_iff h).mpr ho
    rw [readScalar, hb, if_pos rfl, load, ho, ByteOrder.load, hswap _ (length_memcpy x),
      BitVec.toNat_ofNat, Nat.mod_eq_of_lt]
    simpa using leValue_lt_two_pow (memcpy x)

end

theorem toNat_word (h : Host) (ho : h.order = .little ∨ h.order = .big) (x : Ptr 2) :
    (word h x).toNat = leValue (memcpy x) :=
  toNat_readScalar (.ite _ bswap16_reverses (builtinBswap_reverses 2)) ho x

theorem toNat_dword (h : Host) (ho : h.order = .little ∨ h.order = .big) (x : Ptr 4) :
    (dword h x).toNat = leValue (memcpy x) :=
  toNat_readScalar (.ite _ bswap32_reverses (builtinBswap_reverses 4)) ho x

theorem toNat_qword (h : Host) (ho : h.order = .little ∨ h.order = .big) (x : Ptr 8) :
    (qword h x).toNat = leValue (memcpy x) :=
  toNat_readScalar (.ite _ bswap64_reverses (builtinBswap_reverses 8)) ho x

end Dmidecode
