/-!
Doubles: binary fractions with 53 significant digits.
-/

namespace TypeSearch.Double

def overflow : Nat := Nat.pow 2 1024 - Nat.pow 2 970

def scale (numerator denominator : Nat) (shift : Int) : Nat × Nat :=
  if 0 ≤ shift then (numerator <<< shift.toNat, denominator)
  else (numerator, denominator <<< (-shift).toNat)

def round (numerator denominator : Nat) : Nat :=
  let below := numerator / denominator
  let twice := 2 * (numerator % denominator)
  if twice < denominator ∨ twice = denominator ∧ below % 2 = 0 then below else below + 1

/-- The whole part of the double nearest to a fraction. The double has 53 digits, of which `shift`
are behind the point. -/
def wholePart (numerator denominator : Nat) : Nat :=
  if numerator = 0 then 0
  else
    let shift : Int := 52 + denominator.log2 - numerator.log2
    let (scaled, unit) := scale numerator denominator shift
    let shift := if scaled / unit < 0x10000000000000 then shift + 1 else shift
    let (scaled, unit) := scale numerator denominator shift
    let digits := round scaled unit
    if 0 ≤ shift then digits >>> shift.toNat else digits <<< (-shift).toNat

def ofInt (n : Int) : Int := n.sign * wholePart n.natAbs 1

end TypeSearch.Double
