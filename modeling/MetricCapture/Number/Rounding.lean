import MetricCapture.Number.Core
/-! Rounding a quotient of natural numbers to the nearest one. -/
namespace MetricCapture.Number

/-- The natural number nearest to `num / den`. Of two equally near the even one is taken. -/
def roundHalfEven (num den : Nat) : Nat :=
  let q := num / den
  let twice := 2 * (num % den)
  if den < twice || (twice == den && q % 2 == 1) then q + 1 else q

end MetricCapture.Number
