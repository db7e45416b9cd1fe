/-!
# Decimal numbers

A number given by its sign and its decimal digits. A number without decimal places is written as
an integer. Any other is written with the digits that count and a point, even if only zeros stand
behind it; very large and very small ones get an exponent instead of zeros. Zero has a sign, too.
-/

namespace QueryPrep.Text

/-- The number `unscaled` divided by ten as often as there are places, with its sign. -/
structure Decimal where
  negative : Bool
  /-- All digits, as if there were no point. -/
  unscaled : Nat
  /-- How many of the digits stand behind the point. -/
  places : Nat
deriving DecidableEq

namespace Decimal

/-- The least exponent that is written with zeros. -/
def leastPositional : Int := -4

/-- The least exponent above all that are written with zeros. -/
def positionalEnd : Int := 16

/-- An exponent: its sign and at least two digits. -/
def exponentText (exponent : Int) : List Char :=
  let digits := Nat.toDigits 10 exponent.natAbs
  'e' :: (if exponent < 0 then '-' else '+') :: List.replicate (2 - digits.length) '0' ++ digits

/-- Digits with the point behind the first `whole` of them. -/
def positional (digits : List Char) (whole : Int) : List Char :=
  if whole ≤ 0 then ['0', '.'] ++ List.replicate whole.natAbs '0' ++ digits
  else if digits.length ≤ whole.toNat then
    digits ++ List.replicate (whole.toNat - digits.length) '0' ++ ['.', '0']
  else digits.take whole.toNat ++ '.' :: digits.drop whole.toNat

/-- One digit, the others behind a point, and the exponent. -/
def scientific (digits : List Char) (exponent : Int) : List Char :=
  match digits with
  | [] => []
  | [digit] => digit :: exponentText exponent
  | digit :: others => digit :: '.' :: others ++ exponentText exponent

/-- The digits of a number that has decimal places, without its sign. -/
def fractionalText (unscaled places : Nat) : List Char :=
  if unscaled = 0 then ['0', '.', '0']
  else
    let all := Nat.toDigits 10 unscaled
    let digits := (all.reverse.dropWhile (· == '0')).reverse
    let whole : Int := (all.length : Int) - places
    if leastPositional ≤ whole - 1 ∧ whole - 1 < positionalEnd then positional digits whole
    else scientific digits (whole - 1)

/-- The number as it is written. -/
def text (number : Decimal) : String :=
  (if number.negative then "-" else "") ++
    if number.places = 0 then toString number.unscaled
    else String.ofList (fractionalText number.unscaled number.places)

end Decimal

end QueryPrep.Text
