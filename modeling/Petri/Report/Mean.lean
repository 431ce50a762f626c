/-! # Means

The mean of counts as a number with two places. It is first rounded to 53 binary digits and then to
hundredths; each time the nearest is taken, and of two the even one.
-/
namespace Petri.Mean
set_option autoImplicit false

/-- The quotient rounded to the nearest integer, a tie to the even one. -/
def roundDiv (n d : Nat) : Nat :=
  let q := n / d
  let r := n % d
  if 2 * r < d ∨ (2 * r = d ∧ q % 2 = 0) then q else q + 1

/-- `n / d` with 53 binary digits, as a significand and an exponent of two. -/
def binary (n d : Nat) : Nat × Int :=
  if n = 0 then (0, 0)
  else
    let e : Int := (n.log2 : Int) - d.log2
    let reached := if 0 ≤ e then decide (d <<< e.toNat ≤ n) else decide (d ≤ n <<< (-e).toNat)
    let unit := if reached then e - 52 else e - 53
    if 0 ≤ unit then (roundDiv n (d <<< unit.toNat), unit)
    else (roundDiv (n <<< (-unit).toNat) d, unit)

/-- The hundredths nearest to a binary number. -/
def hundredths (x : Nat × Int) : Nat :=
  if 0 ≤ x.2 then (x.1 * 100) <<< x.2.toNat else roundDiv (x.1 * 100) (1 <<< (-x.2).toNat)

def twoDigits (n : Nat) : String := if n < 10 then s!"0{n}" else toString n

def print (counts : List Nat) : String :=
  let h := hundredths (binary (counts.foldl (· + ·) 0) counts.length)
  s!"{h / 100}." ++ twoDigits (h % 100)

end Petri.Mean
