/-!
# Decimal text

Reading numbers written in base ten. A number is a run of at least one digit, with a sign in front
if need be: `Decimal.unsigned?` takes a plus, and `Decimal.nonnegative?` takes a minus as well, as
long as the number is zero. Both refuse a number that is too large.
-/

namespace VectorUnit

namespace Decimal

/-- The number that a run of digits writes. -/
def ofDigits (ds : List Char) : Nat :=
  ds.foldl (fun n c => 10 * n + (c.toNat - '0'.toNat)) 0

/-- The number that a run of at least one digit writes. -/
def digits? (ds : List Char) : Option Nat :=
  if ds.isEmpty then none
  else if ds.all Char.isDigit then some (ofDigits ds)
  else none

/-- The number, if it is below the bound. -/
def below? (bound : Nat) (n : Nat) : Option Nat :=
  if n < bound then some n else none

/-- The number below `bound` that a text writes, possibly with a plus. -/
def unsigned? (bound : Nat) (text : String) : Option Nat :=
  match text.toList with
  | '+' :: ds => (digits? ds).bind (below? bound)
  | ds => (digits? ds).bind (below? bound)

/-- The number below `bound` that a text writes, possibly with a sign. -/
def nonnegative? (bound : Nat) (text : String) : Option Nat :=
  match text.toList with
  | '-' :: ds => (digits? ds).bind (below? (min bound 1))
  | _ => unsigned? bound text

theorem lt_of_below? {bound n m : Nat} (h : below? bound n = some m) : m < bound := by
  unfold below? at h
  split at h
  · next hn => cases h; exact hn
  · cases h

theorem lt_of_unsigned? {bound n : Nat} {text : String} (h : unsigned? bound text = some n) :
    n < bound := by
  unfold unsigned? at h
  split at h <;> obtain ⟨_, _, h⟩ := Option.bind_eq_some_iff.1 h <;> exact lt_of_below? h

end Decimal

end VectorUnit
