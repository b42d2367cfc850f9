import LiteralCodec.FloatFormat.Narrowing
import LiteralCodec.FloatFormat.Widening
import LiteralCodec.Scientific

/-!
# The shortest decimal of a floating point number

The fewest significant digits that read back as a number. For each count of digits the number lies
between two neighbours on the grid of decimals with that many. The first grid with a neighbour that
reads back gives the answer.

* A single or a double tries both neighbours, the nearer one first, the upper one if both are
  equally near. If neither reads back, no decimal of the grid does, since the numbers that round to
  one pattern have no gaps. The search ends: with all the digits of its exact expansion a finite
  number is a point of the grid.
* A half tries the nearer neighbour alone, the even one if both are equally near, and reads it by
  way of a double. The double that a half becomes has its value (`FloatFormat.value_widen`), so the
  neighbours are those of the half itself. Five digits are tried, after which the number would be
  written as that double.

Operations: `shortest_half` (`half.shortest`); printing a single or a double in scientific notation
(`shortestFull`).

## Results

* `FloatFormat.candidate?_readsBack`: the decimal chosen on a grid reads back.
-/

namespace LiteralCodec

-- powers are those of core, whatever else is imported
attribute [local instance (high)] instPowNat

namespace FloatFormat

/-- The exponent of the first significant digit of `n / d`. -/
def leadingExponent (n d : Nat) : Int :=
  if d ≤ n then Numeral.digitCount (n / d) - 1 else -Numeral.digitCount ((d - 1) / n)

/-- The quotient `n / d` counted in powers `10 ^ scale`, as a fraction. -/
def scaledBy (n d : Nat) : Int → Nat × Nat
  | .ofNat k => (n, d * 10 ^ k)
  | .negSucc k => (n * 10 ^ (k + 1), d)

/-- The multiples of `10 ^ scale` to try for the quotient `n / d` of them, in order of preference.
-/
def neighbours (f : FloatFormat) (n d : Nat) : List Nat :=
  match f with
  | half => [roundQuotient .eq n d]
  | single | double =>
    if 2 * (n % d) < d then [n / d, n / d + 1] else [n / d + 1, n / d]

/-- Whether a decimal is read as a finite magnitude. For a half a tie goes to even, as if the
nearest double were the decimal itself. -/
def readsBack (f : FloatFormat) (magnitude coefficient : Nat) (scale : Int) : Bool :=
  match f with
  | half => narrow .eq (double.ofDecimal coefficient scale) == magnitude
  | single | double => f.ofDecimal coefficient scale == magnitude

/-- The multiple of `10 ^ scale` chosen for a finite magnitude: the first to read back. -/
def candidate? (f : FloatFormat) (magnitude : Nat) (scale : Int) : Option Nat :=
  let (n, d) := scaledBy (f.units magnitude) (2 ^ f.unitExponent) scale
  (f.neighbours n d).find? (f.readsBack magnitude · scale)

/-- The first decimal chosen on the grids of up to `limit` digits. -/
def search? (f : FloatFormat) (magnitude limit : Nat) : Option (Nat × Int) :=
  let lead := leadingExponent (f.units magnitude) (2 ^ f.unitExponent)
  (List.range limit).findSome? fun (k : Nat) =>
    (f.candidate? magnitude (lead - k)).map (·, lead - k)

/-- The shortest decimal of a single or a double, as a coefficient and a power of ten. -/
def shortestFull (f : FloatFormat) (magnitude : Nat) : Nat × Int :=
  let exact := f.units magnitude * 5 ^ f.unitExponent
  (f.search? magnitude (Numeral.digitCount exact)).getD (exact, -f.unitExponent)

/-- The magnitude of the double that a half becomes, by way of a single. -/
def widen (magnitude : Nat) : Nat := singleToDouble (halfToSingle magnitude)

/-- The shortest decimal of a finite magnitude, as a coefficient and a power of ten. -/
def shortest (f : FloatFormat) (magnitude : Nat) : Nat × Int :=
  match f with
  | half => (half.search? magnitude 5).getD (double.shortestFull (widen magnitude))
  | single | double => f.shortestFull magnitude

theorem candidate?_readsBack {f : FloatFormat} {magnitude : Nat} {scale : Int} {coefficient : Nat}
    (h : f.candidate? magnitude scale = some coefficient) :
    f.readsBack magnitude coefficient scale = true :=
  List.find?_some (p := (f.readsBack magnitude · scale)) h

end FloatFormat

/-- The shortest decimal of the finite number with a pattern, with its sign. -/
def Scientific.ofPattern (f : FloatFormat) (bits : Nat) : Scientific :=
  let (coefficient, scale) := f.shortest (f.magnitude bits)
  .ofCoefficient (f.fields bits).negative coefficient scale

end LiteralCodec
