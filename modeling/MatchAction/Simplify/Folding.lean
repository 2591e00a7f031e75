import MatchAction.Edit.Editor
import MatchAction.Simplify.Literal

/-!
Folding of operators over literals. A folded node keeps its identity. An `if` whose condition is a
literal gives way to the branch taken.
-/

namespace MatchAction

namespace Folding

/-- A literal of the given type. -/
def literal (t : Tag) (v : Int) (ty : TypeExpr) : Expr := .lit t (Literal.wrap v ty) ty

def unary? (t : Tag) : UnaryOp → Expr → Option Expr
  | .not, .bool _ b => some (.bool t !b)
  | .neg, .lit _ v ty => (Literal.checked (-v)).map (literal t · ty)
  | .complement, .lit _ v ty => if ty.isBits then some (literal t (-v - 1) ty) else none
  | _, _ => none

def logical? : BinaryOp → Bool → Bool → Option Bool
  | .and, l, r => some (l && r)
  | .or, l, r => some (l || r)
  | .eq, l, r => some (l == r)
  | .ne, l, r => some (l != r)
  | _, _, _ => none

def comparison? : BinaryOp → Int → Int → Option Bool
  | .eq, l, r => some (l == r)
  | .ne, l, r => some (l != r)
  | .lt, l, r => some (l < r)
  | .le, l, r => some (l ≤ r)
  | .gt, l, r => some (l > r)
  | .ge, l, r => some (l ≥ r)
  | _, _, _ => none

/-- The value before it is wrapped to the type `ty`. -/
def arithmetic? (op : BinaryOp) (l r : Int) (ty : TypeExpr) : Option Int :=
  match op with
  | .add => Literal.checked (l + r)
  | .sub => Literal.checked (l - r)
  | .mul => Literal.checked (l * r)
  | .bitAnd => some (Literal.bitwise (· &&& ·) l r)
  | .bitOr => some (Literal.bitwise (· ||| ·) l r)
  | .bitXor => some (Literal.bitwise (· ^^^ ·) l r)
  | .shl => Literal.shl l r ty
  | .shr => Literal.shr l r
  | _ => none

def binary? (t : Tag) (op : BinaryOp) : Expr → Expr → Option Expr
  | .bool _ l, .bool _ r => (logical? op l r).map (.bool t)
  | .lit _ l lt, .lit _ r rt => do
    let ty ← Literal.commonType? lt rt
    match comparison? op l r with
    | some b => return .bool t b
    | none => return literal t (← arithmetic? op l r ty) ty
  | _, _ => none

def fold? : Expr → Option Expr
  | .unary t op e => unary? t op e
  | .binary t op l r => binary? t op l r
  | _ => none

/-- The branch a literal condition takes. -/
def branch? : Stmt → Option (Option Stmt)
  | .ifThen _ (.bool _ true) a _ => some (some a)
  | .ifThen _ (.bool _ false) _ b => some b
  | _ => none

def editor : Editor Unit where
  leaveExpr e :=
    match fold? e with
    | some e' => return .put e'
    | none => return .keep
  leaveStmt s :=
    match branch? s with
    | some taken => return taken.toList.map .put
    | none => return [.keep]

end Folding

def Program.foldConstants (p : Program) : Supply (Edit Program) :=
  (·.1) <$> (Folding.editor.program p).run ()

end MatchAction
