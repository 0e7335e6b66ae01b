/-!
# Unicode scalar values

The numbers of characters: all up to 10FFFF that are no surrogates.
-/
namespace ContentSchema.Text

/-- The character with the given number, if it is a scalar value. -/
def scalar? (n : Nat) : Option Char :=
  if n.isValidChar then some (Char.ofNat n) else none

end ContentSchema.Text
