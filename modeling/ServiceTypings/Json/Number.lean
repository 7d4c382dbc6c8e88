/-! Numbers of a JSON text. A reader in double precision takes as many leading digits as fit a word of 64
bits and scales them by a power of ten; a number is in range if the product is finite. Both factors and
the product are whole numbers where it matters, so the comparison is exact. -/

namespace ServiceTypings.Json

structure Number where
  negative : Bool
  whole : List Nat
  fraction : List Nat
  exponent : Int
  deriving DecidableEq, Repr

/-- The multiple of a power of two with 53 bits that is nearest to `n`, the even one of two. -/
def nearestDouble (n : Nat) : Nat :=
  let shift := n.log2 + 1 - 53
  let quotient := n >>> shift
  let unit := Nat.pow 2 shift
  let rest := n % unit
  let up := 2 * rest > unit || (2 * rest == unit && quotient % 2 == 1)
  (quotient + if up then 1 else 0) <<< shift

/-- From here on a product rounds to infinity. -/
def overflowBound : Nat :=
  Nat.pow 2 1024 - Nat.pow 2 970

def wordSize : Nat :=
  Nat.pow 2 64

namespace Number

/-- Leading digits that fit a word, and the power of ten that the digits behind them stand for. -/
structure Leading where
  significand : Nat
  exponent : Int
  full : Bool

def Leading.pushWhole (l : Leading) (digit : Nat) : Leading :=
  if l.full then { l with exponent := l.exponent + 1 }
  else if l.significand * 10 + digit < wordSize then
    { l with significand := l.significand * 10 + digit }
  else { l with exponent := l.exponent + 1, full := true }

def Leading.pushFraction (l : Leading) (digit : Nat) : Leading :=
  if l.full then l
  else if l.significand * 10 + digit < wordSize then
    { l with significand := l.significand * 10 + digit, exponent := l.exponent - 1 }
  else { l with full := true }

/-- Digits of the fraction are tried again even if the whole part did not fit. -/
def leading (n : Number) : Leading :=
  let whole := n.whole.foldl Leading.pushWhole ⟨0, 0, false⟩
  n.fraction.foldl Leading.pushFraction { whole with full := false }

/-- The rounding of both factors counts, so a number close below the largest double may be out of range. -/
def inRange (n : Number) : Bool :=
  let l := n.leading
  let e := l.exponent + n.exponent
  l.significand == 0 || e < 0 ||
    (e ≤ 308 && nearestDouble l.significand * nearestDouble (Nat.pow 10 e.toNat) < overflowBound)

end Number
end ServiceTypings.Json
