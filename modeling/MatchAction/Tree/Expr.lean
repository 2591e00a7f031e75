import MatchAction.Source
import MatchAction.Tree.TypeExpr

/-!
Expressions. Every node carries an identity, kept when it is rebuilt around new children, and the
position it was read from.
-/

namespace MatchAction

structure NodeId where
  val : Nat
deriving DecidableEq

/-- Hands out identities: the state is the first number not used yet. -/
abbrev Supply := StateM Nat

def freshId : Supply NodeId := fun n => (⟨n⟩, n + 1)

structure Tag where
  id : NodeId
  span : Option Span

/-- A new identity at the given position. -/
def Tag.fresh (span : Option Span) : Supply Tag := return ⟨← freshId, span⟩

namespace Supply

variable {α β : Type}

@[simp] theorem pure_apply (a : α) (n : Nat) : (pure a : Supply α) n = (a, n) := rfl

@[simp] theorem bind_apply (x : Supply α) (f : α → Supply β) (n : Nat) :
    (x >>= f) n = f (x n).1 (x n).2 := rfl

@[simp] theorem map_apply (f : α → β) (x : Supply α) (n : Nat) :
    (f <$> x) n = (f (x n).1, (x n).2) := rfl

section

variable {σ : Type}

@[simp] theorem stateT_pure_apply (a : α) (s : σ) (n : Nat) :
    (pure a : StateT σ Supply α) s n = ((a, s), n) := rfl

@[simp] theorem stateT_bind_apply (x : StateT σ Supply α) (f : α → StateT σ Supply β) (s : σ)
    (n : Nat) : (x >>= f) s n = f (x s n).1.1 (x s n).1.2 (x s n).2 := rfl

@[simp] theorem stateT_map_apply (f : α → β) (x : StateT σ Supply α) (s : σ) (n : Nat) :
    (f <$> x) s n = ((f (x s n).1.1, (x s n).1.2), (x s n).2) := rfl

@[simp] theorem stateT_lift_apply (x : Supply α) (s : σ) (n : Nat) :
    (liftM x : StateT σ Supply α) s n = (((x n).1, s), (x n).2) := rfl

end

end Supply

@[simp] theorem freshId_apply (n : Nat) : freshId n = (⟨n⟩, n + 1) := rfl

@[simp] theorem Tag.fresh_apply (sp : Option Span) (n : Nat) :
    Tag.fresh sp n = (⟨⟨n⟩, sp⟩, n + 1) := rfl

inductive UnaryOp
  | not
  | neg
  | complement
deriving DecidableEq

def UnaryOp.symbol : UnaryOp → String
  | .not => "!"
  | .neg => "-"
  | .complement => "~"

inductive BinaryOp
  | add | sub | mul
  | bitAnd | bitOr | bitXor
  | shl | shr
  | eq | ne | lt | le | gt | ge
  | and | or
deriving DecidableEq

namespace BinaryOp

def symbol : BinaryOp → String
  | .add => "+" | .sub => "-" | .mul => "*"
  | .bitAnd => "&" | .bitOr => "|" | .bitXor => "^"
  | .shl => "<<" | .shr => ">>"
  | .eq => "==" | .ne => "!=" | .lt => "<" | .le => "<=" | .gt => ">" | .ge => ">="
  | .and => "&&" | .or => "||"

/-- Comparisons and connectives. -/
def isBoolean : BinaryOp → Bool
  | .eq | .ne | .lt | .le | .gt | .ge | .and | .or => true
  | _ => false

def all : List BinaryOp :=
  [.add, .sub, .mul, .bitAnd, .bitOr, .bitXor, .shl, .shr,
    .eq, .ne, .lt, .le, .gt, .ge, .and, .or]

def ofSymbol? (s : String) : Option BinaryOp := all.find? (·.symbol == s)

end BinaryOp

inductive Expr
  | lit (tag : Tag) (value : Int) (type : TypeExpr)
  | bool (tag : Tag) (value : Bool)
  | path (tag : Tag) (name : String)
  | member (tag : Tag) (base : Expr) (name : String)
  | index (tag : Tag) (base index : Expr)
  | call (tag : Tag) (callee : Expr) (typeArgs : List TypeExpr) (args : List Expr)
  | construct (tag : Tag) (type : TypeExpr) (args : List Expr)
  | unary (tag : Tag) (op : UnaryOp) (operand : Expr)
  | binary (tag : Tag) (op : BinaryOp) (left right : Expr)

namespace Expr

def tag : Expr → Tag
  | .lit t _ _ | .bool t _ | .path t _ | .member t _ _ | .index t _ _ | .call t _ _ _
  | .construct t _ _ | .unary t _ _ | .binary t _ _ _ => t

def id (e : Expr) : NodeId := e.tag.id

def span (e : Expr) : Option Span := e.tag.span

def pathName? : Expr → Option String
  | .path _ n => some n
  | _ => none

def isCall : Expr → Bool
  | .call .. => true
  | _ => false

/-- Whether evaluating the expression may run a call. -/
def hasCall : Expr → Bool
  | .lit .. | .bool .. | .path .. => false
  | .member _ b _ => b.hasCall
  | .index _ b i => b.hasCall || i.hasCall
  | .call .. | .construct .. => true
  | .unary _ _ e => e.hasCall
  | .binary _ _ l r => l.hasCall || r.hasCall

end Expr

end MatchAction
