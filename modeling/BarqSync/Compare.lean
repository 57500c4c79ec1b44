/-
How the elements of a set compare (`set.hpp`, `mixed.cpp` and
`decimal128.cpp`).

# Numbers

What a float, a double and a decimal compare by is a `NumberKey`: a NaN
with its bits, or the rational number that the bits stand for. A float
or double meets a decimal as the decimal that `Decimal128(double)` makes
of it, which has 7 or 15 digits, so that a float and a double may both
equal a decimal and not each other.

# Columns

`Set<T>` searches with `operator<` of its element type and tests what it
finds with `operator==`. For most types both come to `Mixed::compare`. In
a column of floats or doubles a NaN is not ordered and not even equal to
itself, and in a column of decimals null is one of the NaNs.
-/
import BarqSync.Ot.SortedSet
import BarqSync.State
import Mathlib.Algebra.Order.Ring.Rat
import Mathlib.Data.Nat.Log

namespace BarqSync

-- ===== numbers

/-- What a number compares by. -/
inductive NumberKey
  | nan (bits : ℕ)
  | number (value : ℚ)
deriving DecidableEq

namespace NumberKey

/-- `compare_float` and `Decimal128::compare`: NaNs come first, in the
order of their bits. -/
def compare : NumberKey → NumberKey → Ordering
  | .nan a, .nan b => Ord.compare a b
  | .nan _, .number _ => .lt
  | .number _, .nan _ => .gt
  | .number a, .number b => Ord.compare a b

/-- The operators of C++ on floats and doubles, which leave NaNs
unordered. -/
def ieeeCompare : NumberKey → NumberKey → Option Ordering
  | .number a, .number b => some (Ord.compare a b)
  | _, _ => none

/-- `operator==` of C++. -/
def ieeeEq (a b : NumberKey) : Bool := a.ieeeCompare b = some .eq

/-- An infinity stands for a number beyond all that can be stored. -/
def infinity : ℚ := 10 ^ 6145

def signed (negative : Bool) (q : ℚ) : NumberKey :=
  .number (if negative then -q else q)

/-- The bits of an IEEE binary number with fields for the exponent and
the mantissa, its least unit being `1 / 2 ^ scale`. -/
def ofBits (bits exponentBits mantissaBits scale : ℕ) : NumberKey :=
  let mantissa := bits % 2 ^ mantissaBits
  let exponent := bits / 2 ^ mantissaBits % 2 ^ exponentBits
  let negative := bits / 2 ^ (exponentBits + mantissaBits) = 1
  if exponent = 2 ^ exponentBits - 1 then
    if mantissa = 0 then signed negative infinity else .nan bits
  else if exponent = 0 then signed negative (mantissa / 2 ^ scale)
  else
    signed negative
      ((2 ^ mantissaBits + mantissa) * 2 ^ (exponent - 1) / 2 ^ scale)

/-- `double(float)`: a NaN keeps its sign and payload and is quiet. -/
def toDouble : NumberKey → NumberKey
  | .nan bits =>
    .nan (bits / 2 ^ 31 * 2 ^ 63 + 0x7ff8000000000000
      + bits % 2 ^ 22 * 2 ^ 29)
  | .number q => .number q

/-- The nearest number of a few digits, the even one of two. -/
def roundDigits (digits n : ℕ) : ℕ :=
  let unit := 10 ^ (Nat.log 10 n + 1 - digits)
  let quotient := n / unit
  let rest := n % unit
  if unit < 2 * rest ∨ (2 * rest = unit ∧ quotient % 2 = 1)
  then (quotient + 1) * unit
  else quotient * unit

/-- `Decimal128(double, rounding_precision)`. A double is a multiple of
`2 ^ -1074`, so that a power of ten makes it an integer; it is rounded to
the 34 digits of a decimal and then to fewer. The payload of a NaN is kept
if a decimal can hold it. -/
def toDecimal (digits : ℕ) : NumberKey → NumberKey
  | .nan bits =>
    let payload := bits % 2 ^ 51 * 2 ^ 59
    .nan ((bits / 2 ^ 63 * 2 ^ 63 + 0x7c00000000000000) * 2 ^ 64
      + if payload < 10 ^ 33 then payload else 0)
  | .number q =>
    let n := (q * 10 ^ 1074).num.natAbs
    signed (q < 0) (roundDigits digits (roundDigits 34 n) / 10 ^ 1074)

end NumberKey

def floatKey (bits : UInt32) : NumberKey :=
  .ofBits bits.toNat 8 23 149

def doubleKey (bits : UInt64) : NumberKey :=
  .ofBits bits.toNat 11 52 1074

/-- `Decimal128::is_nan`. -/
def Decimal128.isNan (d : Decimal128) : Bool :=
  d.w1 &&& 0x7c00000000000000 == 0x7c00000000000000

/-- The number of a decimal. One whose coefficient is too large for 34
digits is zero. -/
def Decimal128.key (d : Decimal128) : NumberKey :=
  let negative := d.w1 >>> 63 == 1
  let coefficient :=
    (d.w1 &&& 0x1ffffffffffff).toNat * 2 ^ 64 + d.w0.toNat
  let exponent := ((d.w1 >>> 49) &&& 0x3fff).toNat
  if d.isNan then .nan (d.w1.toNat * 2 ^ 64 + d.w0.toNat)
  else if d.w1 &&& 0x7800000000000000 == 0x7800000000000000 then
    .signed negative NumberKey.infinity
  else if d.w1 &&& 0x6000000000000000 == 0x6000000000000000
    || 10 ^ 34 ≤ coefficient then .number 0
  else .signed negative (coefficient * 10 ^ exponent / 10 ^ 6176)

/-- `Decimal128(null)`. -/
def Decimal128.null : Decimal128 := ⟨0xaa, 0x7c00000000000000⟩

/-- `Decimal128::operator==`. -/
def Decimal128.equal (a b : Decimal128) : Bool := a.key = b.key

/-- `compare_long_to_double`. -/
def compareLongToDouble (lhs : Int64) : NumberKey → Ordering
  | .nan _ => .gt
  | .number rhs =>
    let long := lhs.toInt
    if -2 ^ 53 ≤ long ∧ long ≤ 2 ^ 53 then compare (long : ℚ) rhs
    else if 2 ^ 63 ≤ rhs then .lt
    else if rhs < -2 ^ 63 then .gt
    else compare long (rhs.num.tdiv rhs.den)

-- ===== values

/-- `sorting_rank`. -/
def Mixed.sortingRank : Mixed → ℤ
  | .null => -1
  | .bool _ => 0
  | .int _ | .float _ | .double _ | .decimal _ => 1
  | .string _ => 2
  | .binary _ => 3
  | .timestamp _ => 4
  | .objectId _ => 5
  | .uuid _ => 6
  | .link _ _ => 7

/-- `ObjLink::operator<` and `operator==`. -/
def compareLinks (a b : ℤ × ℤ) : Ordering :=
  (compare a.1 b.1).then (compare a.2 b.2)

/-- The elements of a set of floats or doubles, which may be null. -/
def compareIeee : Mixed → Mixed → Option Ordering
  | .null, .null => some .eq
  | .null, _ => some .lt
  | _, .null => some .gt
  | .float x, .float y => (floatKey x).ieeeCompare (floatKey y)
  | .double x, .double y => (doubleKey x).ieeeCompare (doubleKey y)
  | _, _ => none

section

variable (objLink : ObjectRef → ℤ × ℤ)

/-- `Mixed::compare`. A link compares by the keys of the table and of the
object. -/
def Mixed.compare (a b : Mixed) : Ordering :=
  match a, b with
  | .null, .null => .eq
  | .null, _ => .lt
  | _, .null => .gt
  | .bool x, .bool y => Ord.compare x y
  | .int x, .int y => Ord.compare x y
  | .int x, .float y => compareLongToDouble x (floatKey y).toDouble
  | .int x, .double y => compareLongToDouble x (doubleKey y)
  | .int x, .decimal y => (NumberKey.number x.toInt).compare y.key
  | .string x, .string y => Ord.compare x y
  | .binary x, .binary y => Ord.compare x y
  | .float x, .int y => (compareLongToDouble y (floatKey x).toDouble).swap
  | .float x, .float y => (floatKey x).compare (floatKey y)
  | .float x, .double y => (floatKey x).toDouble.compare (doubleKey y)
  | .float x, .decimal y =>
    ((floatKey x).toDouble.toDecimal 7).compare y.key
  | .double x, .int y => (compareLongToDouble y (doubleKey x)).swap
  | .double x, .float y => (doubleKey x).compare (floatKey y).toDouble
  | .double x, .double y => (doubleKey x).compare (doubleKey y)
  | .double x, .decimal y => ((doubleKey x).toDecimal 15).compare y.key
  | .timestamp x, .timestamp y =>
    (Ord.compare x.seconds y.seconds).then
      (Ord.compare x.nanoseconds y.nanoseconds)
  | .objectId x, .objectId y => Ord.compare x y
  | .decimal x, .int y => x.key.compare (.number y.toInt)
  | .decimal x, .float y =>
    x.key.compare ((floatKey y).toDouble.toDecimal 7)
  | .decimal x, .double y => x.key.compare ((doubleKey y).toDecimal 15)
  | .decimal x, .decimal y => x.key.compare y.key
  | .link t k, .link t' k' =>
    compareLinks (objLink (t, k)) (objLink (t', k'))
  | .uuid x, .uuid y => Ord.compare x y
  | _, _ => Ord.compare a.sortingRank b.sortingRank

/-- An element of a set of links, null being `ObjLink()`. -/
def Mixed.toObjLink : Mixed → ℤ × ℤ
  | .link table key => objLink (table, key)
  | _ => (0x7fffffff, -1)

/-- An element of a set of decimals. -/
def Mixed.toDecimal : Mixed → Decimal128
  | .decimal d => d
  | _ => .null

/-- How two elements of a set compare, if they do. -/
def elementCompare (type : DataType) (a b : Mixed) : Option Ordering :=
  match type with
  | .float | .double => compareIeee a b
  | .decimal => some (a.toDecimal.key.compare b.toDecimal.key)
  | .link =>
    some (compare (a.toObjLink objLink).2 (b.toObjLink objLink).2)
  | .typedLink =>
    some (compareLinks (a.toObjLink objLink) (b.toObjLink objLink))
  | _ => some (a.compare objLink b)

/-- `operator<` of the element type. -/
def elementLess (type : DataType) (a b : Mixed) : Bool :=
  elementCompare objLink type a b = some .lt

/-- `operator==` of the element type. -/
def elementEqual (type : DataType) (a b : Mixed) : Bool :=
  elementCompare objLink type a b = some .eq

end

-- ===== laws

theorem NumberKey.compare_swap (a b : NumberKey) :
    a.compare b = (b.compare a).swap := by
  cases a <;> cases b <;>
    first | rfl | exact Std.OrientedOrd.eq_swap

theorem NumberKey.ieeeCompare_swap (a b : NumberKey) :
    a.ieeeCompare b = (b.ieeeCompare a).map Ordering.swap := by
  cases a <;> cases b <;>
    first | rfl | exact congrArg some Std.OrientedOrd.eq_swap

theorem compareLinks_swap (a b : ℤ × ℤ) :
    compareLinks a b = (compareLinks b a).swap := by
  rw [compareLinks, compareLinks, Ordering.swap_then,
    ← Std.OrientedOrd.eq_swap, ← Std.OrientedOrd.eq_swap]

theorem compareIeee_swap (a b : Mixed) :
    compareIeee a b = (compareIeee b a).map Ordering.swap := by
  cases a <;> cases b <;>
    first | rfl | exact NumberKey.ieeeCompare_swap _ _

/-- An operator that finds a number equal to another finds it equal to
itself. -/
theorem NumberKey.ieeeCompare_self {a b : NumberKey}
    (h : a.ieeeCompare b = some .eq) : a.ieeeCompare a = some .eq := by
  cases a with
  | nan bits => cases h
  | number q => exact congrArg some Std.ReflOrd.compare_self

theorem compareIeee_self {a b : Mixed} (h : compareIeee a b = some .eq) :
    compareIeee a a = some .eq := by
  cases a <;> cases b <;>
    first | rfl | exact NumberKey.ieeeCompare_self h | cases h

section

variable {objLink : ObjectRef → ℤ × ℤ} {type : DataType} {a b : Mixed}

theorem Mixed.compare_swap (a b : Mixed) :
    a.compare objLink b = (b.compare objLink a).swap := by
  cases a <;> cases b <;>
    simp only [Mixed.compare, Mixed.sortingRank, Ordering.swap_swap,
      Ordering.swap_then, ← Std.OrientedOrd.eq_swap] <;>
    first
      | rfl
      | exact NumberKey.compare_swap _ _
      | exact compareLinks_swap _ _

theorem elementCompare_swap (type : DataType) (a b : Mixed) :
    elementCompare objLink type a b
      = (elementCompare objLink type b a).map Ordering.swap := by
  have hmixed : some (a.compare objLink b) = _ :=
    congrArg some (Mixed.compare_swap a b)
  cases type with
  | float => exact compareIeee_swap a b
  | double => exact compareIeee_swap a b
  | decimal => exact congrArg some (NumberKey.compare_swap _ _)
  | link => exact congrArg some Std.OrientedOrd.eq_swap
  | typedLink => exact congrArg some (compareLinks_swap _ _)
  | _ => exact hmixed

/-- What is not equal to itself is equal to nothing. -/
theorem elementCompare_self
    (h : elementCompare objLink type a b = some .eq) :
    elementCompare objLink type a a = some .eq := by
  have hswap : elementCompare objLink type a a = _ :=
    elementCompare_swap type a a
  cases hself : elementCompare objLink type a a with
  | some o =>
    rw [hself] at hswap
    cases o <;> first | rfl | cases hswap
  | none =>
    -- only the operators of C++ leave something unordered
    cases type with
    | float => exact hself.symm.trans (compareIeee_self h)
    | double => exact hself.symm.trans (compareIeee_self h)
    | _ => cases hself

/-- The comparisons of a set are what the library asks for, whatever the
elements. -/
theorem element_comparison (objLink : ObjectRef → ℤ × ℤ)
    (type : DataType) :
    Ot.SortedSet.Comparison (elementLess objLink type)
      (elementEqual objLink type) where
  asymm a b h := by
    simp only [elementLess, decide_eq_true_eq] at h
    simp [elementLess, elementCompare_swap type b a, h]
  symm a b := by
    simp only [elementEqual, elementCompare_swap type b a]
    cases elementCompare objLink type a b with
    | none => rfl
    | some o => cases o <;> rfl
  apart a b h := by
    simp only [elementEqual, decide_eq_true_eq] at h
    simp [elementLess, h]
  self a b h := by
    simp only [elementEqual, decide_eq_true_eq] at h ⊢
    exact elementCompare_self h

end

end BarqSync
