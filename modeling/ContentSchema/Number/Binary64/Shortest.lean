import ContentSchema.Number.Binary64.Basic

/-!
# Shortest decimal text of a floating point number

A finite number is the nearest one to every decimal in an interval around it. `Binary64.shortest`
gives the decimal of that interval with the fewest digits, and of those the one nearest to the
number, a half going up. `Binary64.text` writes it without an exponent.
-/
namespace ContentSchema.Binary64

/-- The numbers that round to `x` form the interval from `(4 * m - low) * 2 ^ (e - 2)` to
`(4 * m + 2) * 2 ^ (e - 2)`, where `(m, e) = x.decompose`: half the distance to each neighbour.
The lower neighbour of a power of two is nearer, unless the exponent is the least one. -/
def lowGap (m : Nat) (e : Int) : Nat := if m == fractionBound && -1074 < e then 1 else 2

/-- The greatest `k` with `10 ^ k ≤ num / den`, for positive arguments: `fuel` bounds the steps
from the first guess. -/
def floorLog10 (num den : Nat) : Int :=
  -- 1233 / 4096 approximates the logarithm of two from below
  let guess := floorLog2 num den * 1233 / 4096 - 1
  climb 4 guess
where
  /-- Goes up while the next power of ten is still reached. -/
  climb : Nat → Int → Int
    | 0, k => k
    | fuel + 1, k =>
      let k' := k + 1
      let reached := if 0 ≤ k' then den * Nat.pow 10 k'.toNat ≤ num
        else den ≤ num * Nat.pow 10 (-k').toNat
      if reached then climb fuel k' else k

/-- The digits `d` and exponent `p` of the shortest decimal `d * 10 ^ p` that rounds to the finite
number `m * 2 ^ e`, for positive `m`. -/
def shortest (m : Nat) (e : Int) : Nat × Int :=
  -- in units of `2 ^ (e - 2)`, as fractions over `den`
  let scale := if 2 ≤ e then Nat.pow 2 (e - 2).toNat else 1
  let den := if 2 ≤ e then 1 else Nat.pow 2 (2 - e).toNat
  let value := 4 * m * scale
  let low := (4 * m - lowGap m e) * scale
  let high := (4 * m + 2) * scale
  let closed := m % 2 == 0
  search value low high den closed (floorLog10 value den) 17 1
where
  /-- Tries grids of `n`, `n + 1`, … digits and takes the first that has a point in the interval. -/
  search (value low high den : Nat) (closed : Bool) (k : Int) : Nat → Nat → Nat × Int
    | 0, n => point value den (k + 1 - n)
    | fuel + 1, n =>
      let p := k + 1 - n
      let (d, _) := point value den p
      let down := inside low high den closed d p && d != 0
      let up := inside low high den closed (d + 1) p
      if down && up then if nearerUp value den d p then (d + 1, p) else (d, p)
      else if down then (d, p)
      else if up then (d + 1, p)
      else search value low high den closed k fuel (n + 1)
  /-- The greatest multiple of `10 ^ p` that is at most `value / den`. -/
  point (value den : Nat) (p : Int) : Nat × Int :=
    (if 0 ≤ p then value / (den * Nat.pow 10 p.toNat) else value * Nat.pow 10 (-p).toNat / den, p)
  /-- Whether `d * 10 ^ p` lies between `low / den` and `high / den`. -/
  inside (low high den : Nat) (closed : Bool) (d : Nat) (p : Int) : Bool :=
    let x := if 0 ≤ p then d * Nat.pow 10 p.toNat * den else d * den
    let unit := if 0 ≤ p then 1 else Nat.pow 10 (-p).toNat
    if closed then low * unit ≤ x && x ≤ high * unit else low * unit < x && x < high * unit
  /-- Whether `(d + 1) * 10 ^ p` is at most as far from `value / den` as `d * 10 ^ p` is. -/
  nearerUp (value den d : Nat) (p : Int) : Bool :=
    if 0 ≤ p then (2 * d + 1) * Nat.pow 10 p.toNat * den ≤ 2 * value
    else (2 * d + 1) * den ≤ 2 * value * Nat.pow 10 (-p).toNat

/-- Digits without the zeros at their end, and the exponent grown by the number of those zeros. -/
def dropTrailingZeros : Nat → Nat → Int → Nat × Int
  | 0, d, p => (d, p)
  | fuel + 1, d, p =>
    if d % 10 == 0 && d != 0 then dropTrailingZeros fuel (d / 10) (p + 1) else (d, p)

/-- The positional text of `d * 10 ^ p`. -/
def positional (d : Nat) (p : Int) : List Char :=
  let digits := Nat.toDigits 10 d
  if 0 ≤ p then digits ++ List.replicate p.toNat '0'
  else
    let places := (-p).toNat
    let padded := List.replicate (places + 1 - digits.length) '0' ++ digits
    padded.take (padded.length - places) ++ '.' :: padded.drop (padded.length - places)

/-- The text of a floating point number. An integer below ten to the sixteenth has one decimal
place, and every other finite number has its shortest digits, without an exponent. -/
def text (x : Binary64) : String :=
  if x.isNaN then "nan"
  else
    let body :=
      if x.isInfinite then "inf".toList
      else if x.isSmallInteger then Nat.toDigits 10 x.integerPart ++ ['.', '0']
      else
        let (m, e) := x.decompose
        let (d, p) := shortest m e
        let (d, p) := dropTrailingZeros 17 d p
        positional d p
    String.ofList (if x.isNegative then '-' :: body else body)

end ContentSchema.Binary64
