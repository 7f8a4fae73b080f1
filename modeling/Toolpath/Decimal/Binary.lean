/-! Binary floating-point values taken apart. -/
namespace Toolpath.Decimal

/-- A sign with `significand · 2 ^ exponent`, or a value that is not finite. -/
inductive Binary where
  | nan
  | infinite (negative : Bool)
  | finite (negative : Bool) (significand : Nat) (exponent : Int)
  deriving Repr, DecidableEq

/-- Eleven bits of exponent, fifty-two of fraction. The least exponent has no hidden bit. -/
def Binary.ofBits (n : Nat) : Binary :=
  let negative := n / 0x8000000000000000 % 2 == 1
  let exponent : Nat := n / 0x10000000000000 % 2048
  let fraction : Nat := n % 0x10000000000000
  if exponent = 2047 then
    if fraction = 0 then .infinite negative else .nan
  else if exponent = 0 then .finite negative fraction (-1074)
  else .finite negative (0x10000000000000 + fraction) ((exponent : Nat) - 1075 : Int)

def Binary.ofFloat (x : Float) : Binary := .ofBits x.toBits.toNat

/-- Whether the values below lie at half the distance of those above. -/
def isNarrowBelow (significand : Nat) (exponent : Int) : Bool :=
  significand == 0x10000000000000 && exponent > -1074

end Toolpath.Decimal
