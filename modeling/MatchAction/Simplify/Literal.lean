import MatchAction.Tree.Expr

namespace MatchAction

namespace Literal

/-- The range of values. -/
def fits (v : Int) : Bool := -Int.pow 2 127 ≤ v && v < Int.pow 2 127

def checked (v : Int) : Option Int := if fits v then some v else none

/-- `v` in the range of `t`. Unsized values, and widths that fill a word, stay as they are. -/
def wrap (v : Int) : TypeExpr → Int
  | .bits width signed =>
    if width = 0 ∨ 128 ≤ width then v
    else
      let modulus := Int.pow 2 width
      let u := v % modulus
      if signed && modulus / 2 ≤ u then u - modulus else u
  | _ => v

/-- A bitwise operation on two's complement words. -/
def bitwise (f : BitVec 128 → BitVec 128 → BitVec 128) (l r : Int) : Int :=
  (f (.ofInt 128 l) (.ofInt 128 r)).toInt

/-- Shift amounts are unsigned 32-bit numbers. -/
def shiftAmount? (r : Int) : Option Nat := if 0 ≤ r && r < Int.pow 2 32 then some r.toNat else none

/-- Bits may be lost off the end of the word only if the type is sized. -/
def shl (l r : Int) (t : TypeExpr) : Option Int := do
  let n ← shiftAmount? r
  if 128 ≤ n then none
  let v := (BitVec.ofInt 128 l <<< n).toInt
  if t.isBits || v >>> n == l then some v else none

def shr (l r : Int) : Option Int := do
  let n ← shiftAmount? r
  return l >>> min n 127

/-- An unsized operand takes the type of the other one; two sized ones have to agree. -/
def commonType? : TypeExpr → TypeExpr → Option TypeExpr
  | .int, t => some t
  | t, .int => some t
  | t, u => if t == u then some t else none

end Literal

end MatchAction
