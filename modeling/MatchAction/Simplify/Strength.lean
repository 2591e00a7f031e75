import MatchAction.Edit.Editor

namespace MatchAction

namespace Strength

def integer? : Expr → Option Int
  | .lit _ v _ => some v
  | _ => none

def boolean? : Expr → Option Bool
  | .bool _ b => some b
  | _ => none

/-- A zero that can stand for the whole operation: an unsized one would change its type. -/
def isSizedZero : Expr → Bool
  | .lit _ v (.bits _ _) => v == 0
  | _ => false

/-- The exponent of a power of two above one. -/
def powerOfTwo? (v : Int) : Option Nat :=
  let k := v.toNat.log2
  if 1 < v && v == Int.pow 2 k then some k else none

inductive Reduction
  | left
  | right
  /-- The operand on the left shifted by a number of bits. -/
  | shiftLeft (bits : Nat)
  | shiftRight (bits : Nat)

def neutral? (l r : Option Int) : Option Reduction :=
  if r = some 0 then some .left else if l = some 0 then some .right else none

/-- A zero operand that the other one may be dropped for. -/
def zero? (l r : Expr) : Option Reduction :=
  if isSizedZero r && !l.hasCall then some .right
  else if isSizedZero l && !r.hasCall then some .left
  else none

def product? (l r : Expr) : Option Reduction :=
  if integer? r = some 1 then some .left
  else if integer? l = some 1 then some .right
  else (zero? l r).or <|
    match (integer? l).bind powerOfTwo?, (integer? r).bind powerOfTwo? with
    | _, some k => some (.shiftLeft k)
    | some k, none => some (.shiftRight k)
    | none, none => none

/-- A connective whose neutral value is `unit`. The right operand runs only if the left one does not
decide. -/
def connective? (unit : Bool) (l r : Expr) : Option Reduction :=
  match boolean? l, boolean? r with
  | some b, _ => some (if b == unit then .right else .left)
  | none, some b =>
    if b == unit then some .left else if l.hasCall then none else some .right
  | none, none => none

def reduction? (op : BinaryOp) (l r : Expr) : Option Reduction :=
  if (integer? l).isSome && (integer? r).isSome || (boolean? l).isSome && (boolean? r).isSome then
    none
  else match op with
    | .add | .bitOr | .bitXor => neutral? (integer? l) (integer? r)
    | .sub | .shl | .shr => if integer? r = some 0 then some .left else none
    | .bitAnd => zero? l r
    | .mul => product? l r
    | .and => connective? true l r
    | .or => connective? false l r
    | _ => none

def editor : Editor Unit where
  leaveExpr e :=
    match e with
    | .unary _ .not (.unary _ .not inner) => return .put inner
    | .binary t op l r =>
      match reduction? op l r with
      | some .left => return .put l
      | some .right => return .put r
      | some (.shiftLeft k) => return .put (.binary t .shl l (.lit (← Tag.fresh none) k .int))
      | some (.shiftRight k) => return .put (.binary t .shl r (.lit (← Tag.fresh none) k .int))
      | none => return .keep
    | _ => return .keep

end Strength

def Program.reduceStrength (p : Program) : Supply (Edit Program) :=
  (·.1) <$> (Strength.editor.program p).run ()

end MatchAction
