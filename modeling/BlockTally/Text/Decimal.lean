/-! Decimal numerals, and the ranges they may have: 32-bit words and signed 64-bit integers. -/
namespace BlockTally.Text

def natural? (cs : List Char) : Option Nat :=
  if cs.isEmpty || !cs.all Char.isDigit then none else some (Nat.ofDigitChars 10 cs 0)

def word32OfInt? (v : Int) : Option UInt32 :=
  if 0 ≤ v ∧ v.toNat < UInt32.size then some (UInt32.ofNat v.toNat) else none

def int64OfInt? (v : Int) : Option Int64 :=
  if Int64.minValue.toInt ≤ v ∧ v ≤ Int64.maxValue.toInt then some (Int64.ofInt v) else none

def word32? (cs : List Char) : Option UInt32 :=
  (natural? cs).bind fun n => word32OfInt? n

/-- An optional minus sign before the digits. -/
def int64? : List Char → Option Int64
  | '-' :: cs => (natural? cs).bind fun n => int64OfInt? (-n)
  | cs => (natural? cs).bind fun n => int64OfInt? n

end BlockTally.Text
