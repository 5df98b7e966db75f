/-! # Digits

Rows of digits in a base up to sixteen, and the numbers they denote. -/

namespace BehaviorTree.Text

/-- The value of a digit in a base. -/
def digitValue? (base : Nat) (c : Char) : Option Nat :=
  let d? : Option Nat :=
    if c.isDigit then some (c.toNat - '0'.toNat)
    else if 'a' ≤ c ∧ c ≤ 'f' then some (c.toNat - 'a'.toNat + 10)
    else if 'A' ≤ c ∧ c ≤ 'F' then some (c.toNat - 'A'.toNat + 10)
    else none
  d?.filter (· < base)

/-- The number that a row of digits denotes in a base; there has to be a digit. -/
def natOfDigits? (base : Nat) (digits : List Char) : Option Nat :=
  if digits = [] then none
  else digits.foldlM (fun n c => (digitValue? base c).map (base * n + ·)) 0

end BehaviorTree.Text
