import Interchange.Operator.Basic

namespace Interchange.Operator

variable {F : Type} [Scalar F]

/-- The last row with the largest modulus in the first column. -/
def pivotRow (m : Operator F) : Nat :=
  (List.range m.dim).foldl
    (fun best i => if (m.get best 0).norm ≤ (m.get i 0).norm then i else best) 0

/-- What is left below and right of the pivot after row `r` has been exchanged with the first row
and the first column has been cleared. -/
def eliminate (m : Operator F) (r : Nat) : Operator F :=
  ofFn (m.dim - 1) fun i j =>
    let row := if i + 1 = r then 0 else i + 1
    m.get row (j + 1) - m.get row 0 / m.get r 0 * m.get r (j + 1)

/-- `factor` times the determinant of an operator of dimension `n`. -/
def detFrom : Nat → Operator F → Amplitude F → Amplitude F
  | 0, _, factor => factor
  | n + 1, m, factor =>
    let r := m.pivotRow
    let pivot := m.get r 0
    if pivot.norm == 0 then 0
    -- an exchange of rows turns the sign
    else detFrom n (m.eliminate r) ((if r = 0 then factor else -factor) * pivot)

def det (m : Operator F) : Amplitude F := detFrom m.dim m 1

end Interchange.Operator
