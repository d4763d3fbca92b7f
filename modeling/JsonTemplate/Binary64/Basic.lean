/-
Numbers. A double is held as its exact magnitude, a whole multiple of 2^-1074, so every
operation is exact integer arithmetic followed by one rounding (`round`), and comparison is
comparison of integers (`rank?`). There is one NaN, and zero keeps its sign.
-/

namespace JsonTemplate

/-- How many steps of the finest spacing make 1. -/
@[irreducible] def Binary64.one : Nat := Nat.pow 2 1074

/-- The first power of two, in steps of the finest spacing, that no double reaches. -/
@[irreducible] def Binary64.limit : Nat := Nat.pow 2 2098

/-- At most 53 significant bits, and in range. -/
def Binary64.Representable (units : Nat) : Prop :=
  units < limit ∧ units % Nat.pow 2 (units.log2 - 52) = 0

instance (units : Nat) : Decidable (Binary64.Representable units) :=
  inferInstanceAs (Decidable (_ ∧ _))

/-- A double: `finite` holds the sign and the magnitude in units of 2^-1074. -/
inductive Binary64
  | nan
  | infinite (negative : Bool)
  | finite (negative : Bool) (units : Nat) (representable : Binary64.Representable units)
  deriving DecidableEq

namespace Binary64

/-! ## Rounding -/

/-- A magnitude that fits, or the infinity of its sign. -/
def ofUnits (negative : Bool) (units : Nat) : Binary64 :=
  if h : Representable units then .finite negative units h else .infinite negative

/-- The quotient to the nearest integer, a half to the even one. -/
def divideToEven (dividend divisor : Nat) : Nat :=
  let quotient := dividend / divisor
  let twice := 2 * (dividend % divisor)
  if divisor < twice ∨ (twice = divisor ∧ quotient % 2 = 1) then quotient + 1 else quotient

/-- The double nearest to `dividend / divisor` units, a tie going to the even significand. A
magnitude that fits is kept. -/
def round (negative : Bool) (dividend divisor : Nat) : Binary64 :=
  if h : divisor = 1 ∧ Representable dividend then .finite negative dividend h.2
  else
    let shift := (dividend / divisor).log2 - 52
    ofUnits negative (divideToEven dividend (divisor * Nat.pow 2 shift) * Nat.pow 2 shift)

def zero : Binary64 := ofUnits false 0

def ofNat (n : Nat) : Binary64 := round false (n * one) 1

def ofInt (n : Int) : Binary64 := round (n < 0) (n.natAbs * one) 1

/-! ## Order -/

/-- The signed magnitude as a place on the line, infinities beyond every double; NaN has none. -/
def rank? : Binary64 → Option Int
  | .nan => none
  | .infinite negative => some (if negative then -(limit : Int) else limit)
  | .finite negative units _ => some (if negative then -(units : Int) else units)

def compare? (x y : Binary64) : Option Ordering :=
  match x.rank?, y.rank? with
  | some a, some b => some (compare a b)
  | _, _ => none

/-- Numeric equality: both zeros are equal, and NaN equals nothing. -/
def equal (x y : Binary64) : Bool :=
  match x.rank?, y.rank? with
  | some a, some b => a == b
  | _, _ => false

def isZero : Binary64 → Bool
  | .finite _ units _ => units == 0
  | _ => false

def isFinite : Binary64 → Bool
  | .finite .. => true
  | _ => false

/-! ## Arithmetic -/

def neg : Binary64 → Binary64
  | .nan => .nan
  | .infinite negative => .infinite !negative
  | .finite negative units h => .finite (!negative) units h

/-- An exact sum of zero is negative only when both terms are. -/
def add : Binary64 → Binary64 → Binary64
  | .nan, _ => .nan
  | _, .nan => .nan
  | .infinite a, .infinite b => if a = b then .infinite a else .nan
  | .infinite a, .finite .. => .infinite a
  | .finite .., .infinite b => .infinite b
  | .finite a x _, .finite b y _ =>
    if a = b then round a (x + y) 1
    else if y < x then round a (x - y) 1
    else if x < y then round b (y - x) 1
    else zero

def sub (x y : Binary64) : Binary64 := x.add y.neg

def mul : Binary64 → Binary64 → Binary64
  | .nan, _ => .nan
  | _, .nan => .nan
  | .infinite a, .infinite b => .infinite (a != b)
  | .infinite a, .finite b y _ => if y = 0 then .nan else .infinite (a != b)
  | .finite a x _, .infinite b => if x = 0 then .nan else .infinite (a != b)
  | .finite a x _, .finite b y _ => round (a != b) (x * y) one

def div : Binary64 → Binary64 → Binary64
  | .nan, _ => .nan
  | _, .nan => .nan
  | .infinite _, .infinite _ => .nan
  | .infinite a, .finite b _ _ => .infinite (a != b)
  | .finite a _ _, .infinite b => ofUnits (a != b) 0
  | .finite a x _, .finite b y _ =>
    if y = 0 then (if x = 0 then .nan else .infinite (a != b))
    else round (a != b) (x * one) y

/-- The exact remainder of the quotient cut toward zero; it has the sign of the dividend. -/
def rem : Binary64 → Binary64 → Binary64
  | .nan, _ => .nan
  | _, .nan => .nan
  | .infinite _, _ => .nan
  | x@(.finite ..), .infinite _ => x
  | .finite a x _, .finite _ y _ => if y = 0 then .nan else round a (x % y) 1

/-! ## Whole numbers -/

/-- Finite and without a fraction. -/
def isWhole : Binary64 → Bool
  | .finite _ units _ => units % one == 0
  | _ => false

/-- The fraction is cut off; zero keeps the sign. -/
def trunc : Binary64 → Binary64
  | .finite negative units _ => round negative (units / one * one) 1
  | x => x

/-- The integer part, 0 where there is none. -/
def toInt : Binary64 → Int
  | .finite negative units _ =>
    if negative then -((units / one : Nat) : Int) else (units / one : Nat)
  | _ => 0

/-- The whole number, if there is no fraction. -/
def toInt? (x : Binary64) : Option Int := if x.isWhole then some x.toInt else none

/-- The nearest integer, a half away from zero, cut to the range from 0 to `limit`. -/
def toCount (limit : Nat) : Binary64 → Nat
  | .nan => 0
  | .infinite negative => if negative then 0 else limit
  | .finite negative units _ => if negative then 0 else min limit ((2 * units + one) / (2 * one))

/-! ## Bits -/

def signBit (negative : Bool) : Nat := if negative then Nat.pow 2 63 else 0

/-- The interchange encoding as a number below 2^64. -/
def toBits : Binary64 → Nat
  | .nan => 0x7ff8000000000000
  | .infinite negative => signBit negative + 0x7ff0000000000000
  | .finite negative units _ =>
    let shift := units.log2 - 52
    signBit negative + (shift * Nat.pow 2 52 + units / Nat.pow 2 shift)

/-- Decodes the low 64 bits; every NaN pattern is the one NaN. -/
def ofBits (bits : Nat) : Binary64 :=
  let negative := bits / Nat.pow 2 63 % 2 == 1
  let exponent := bits / Nat.pow 2 52 % 2048
  let fraction := bits % Nat.pow 2 52
  if exponent = 2047 then (if fraction = 0 then .infinite negative else .nan)
  else if exponent = 0 then ofUnits negative fraction
  else ofUnits negative ((Nat.pow 2 52 + fraction) * Nat.pow 2 (exponent - 1))

end Binary64

end JsonTemplate
