import Mathlib.Algebra.Ring.Nat
import Mathlib.Data.List.Basic

/-!
# Byte order

How a machine keeps a number in memory.  There are two kinds of machines, and a program that is to
write the same bytes on both converts a number before it stores it, and after it loads it, with one
of the macros `cpuToLe` and `cpuToBe`; each is its own inverse, so that one pair of them is enough.
A number that is converted exactly once is stored, or loaded, as if the machine were of the kind
that is asked for (`store_cpuToLe`, `cpuToLe_load` and so on), for any width.

The fields of a structure with a width in bits follow the byte order too: a compiler puts the first
of them at the low end of the unit on a little-endian machine and at its high end on a big-endian
one, and there is no macro for that.
-/

set_option autoImplicit false

/-- The kinds of machines. -/
inductive ByteOrder where
  | little
  | big
  deriving DecidableEq, Repr

namespace ByteOrder

/-! ## Bytes and numbers -/

/-- The bytes of a number of `w` bytes, the lowest first. -/
def bytes : Nat → Nat → List UInt8
  | 0, _ => []
  | w + 1, n => UInt8.ofNat n :: bytes w (n / 256)

/-- The number with these bytes, the lowest first. -/
def value : List UInt8 → Nat
  | [] => 0
  | b :: l => b.toNat + 256 * value l

theorem length_bytes (w n : Nat) : (bytes w n).length = w := by
  induction w generalizing n with
  | zero => rfl
  | succ w ih => rw [bytes, List.length_cons, ih]

/-- The bytes of the number with these bytes. -/
theorem bytes_value (l : List UInt8) : bytes l.length (value l) = l := by
  induction l with
  | nil => rfl
  | cons b l ih =>
    have hlt := b.toNat_lt
    have hlow : UInt8.ofNat (value (b :: l)) = b := by
      refine UInt8.toNat_inj.mp ?_
      rw [UInt8.toNat_ofNat', value]
      omega
    have hrest : value (b :: l) / 256 = value l := by
      rw [value]
      omega
    rw [List.length_cons, bytes, hlow, hrest, ih]

/-! ## Memory -/

/-- What is in memory when a variable of `w` bytes has this value. -/
def store (o : ByteOrder) (w n : Nat) : List UInt8 :=
  match o with
  | little => bytes w n
  | big => (bytes w n).reverse

/-- The value of a variable with these bytes in memory. -/
def load (o : ByteOrder) (l : List UInt8) : Nat :=
  match o with
  | little => value l
  | big => value l.reverse

/-- A number of `w` bytes, with the bytes in the opposite order. -/
def swab (w n : Nat) : Nat := value (bytes w n).reverse

/-- To the little-endian order or from it. -/
def cpuToLe (o : ByteOrder) (w n : Nat) : Nat :=
  match o with
  | little => value (bytes w n)
  | big => swab w n

/-- To the big-endian order or from it. -/
def cpuToBe (o : ByteOrder) (w n : Nat) : Nat :=
  match o with
  | little => swab w n
  | big => value (bytes w n)

variable (o : ByteOrder)

theorem bytes_value_bytes (w n : Nat) : bytes w (value (bytes w n)) = bytes w n := by
  have h := bytes_value (bytes w n)
  rwa [length_bytes] at h

theorem bytes_swab (w n : Nat) : bytes w (swab w n) = (bytes w n).reverse := by
  have h := bytes_value (bytes w n).reverse
  rwa [List.length_reverse, length_bytes] at h

theorem store_cpuToLe (w n : Nat) : o.store w (o.cpuToLe w n) = bytes w n := by
  cases o
  · exact bytes_value_bytes w n
  · show (bytes w (swab w n)).reverse = _
    rw [bytes_swab, List.reverse_reverse]

theorem store_cpuToBe (w n : Nat) : o.store w (o.cpuToBe w n) = (bytes w n).reverse := by
  cases o
  · exact bytes_swab w n
  · show (bytes w (value (bytes w n))).reverse = _
    rw [bytes_value_bytes]

theorem cpuToLe_load (l : List UInt8) : o.cpuToLe l.length (o.load l) = value l := by
  cases o
  · show value (bytes l.length (value l)) = _
    rw [bytes_value]
  · show value (bytes l.length (value l.reverse)).reverse = _
    have h := bytes_value l.reverse
    rw [List.length_reverse] at h
    rw [h, List.reverse_reverse]

theorem cpuToBe_load (l : List UInt8) : o.cpuToBe l.length (o.load l) = value l.reverse := by
  cases o
  · show value (bytes l.length (value l)).reverse = _
    rw [bytes_value]
  · show value (bytes l.length (value l.reverse)) = _
    have h := bytes_value l.reverse
    rw [List.length_reverse] at h
    rw [h]

/-! ## Fields with a width in bits -/

/-- A unit with these fields, a width and a value each, from its low end on. -/
def packUp : List (Nat × Nat) → Nat
  | [] => 0
  | (w, v) :: l => v % 2 ^ w + 2 ^ w * packUp l

/-- A unit that is filled by these fields, in the order of their declaration. -/
def pack (fields : List (Nat × Nat)) : Nat :=
  match o with
  | little => packUp fields
  | big => packUp fields.reverse

/-- The `i`-th field of a unit that is filled by fields of these widths. -/
def field (widths : List Nat) (i unit : Nat) : Nat :=
  match o with
  | little => unit / 2 ^ (widths.take i).sum % 2 ^ widths.getD i 0
  | big => unit / 2 ^ (widths.drop (i + 1)).sum % 2 ^ widths.getD i 0

end ByteOrder
