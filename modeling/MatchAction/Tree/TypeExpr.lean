namespace MatchAction

inductive TypeExpr
  | bool
  | bits (width : Nat) (signed : Bool)
  | int
  | void
  | named (name : String)
  | specialized (base : String) (args : List TypeExpr)
  | stack (element : TypeExpr) (size : Nat)

namespace TypeExpr

/-- `bit<width>`, or `int<width>` when signed. -/
def bitsText (width : Nat) (signed : Bool) : String :=
  if signed then s!"int<{width}>" else s!"bit<{width}>"

mutual
def text : TypeExpr → String
  | .bool => "bool"
  | .bits w s => bitsText w s
  | .int => "int"
  | .void => "void"
  | .named n => n
  | .specialized b as => b ++ "<" ++ ", ".intercalate (texts as) ++ ">"
  | .stack e n => e.text ++ "[" ++ toString n ++ "]"
def texts : List TypeExpr → List String
  | [] => []
  | t :: ts => t.text :: texts ts
end

/-- The declared name a type refers to. -/
def baseName : TypeExpr → Option String
  | .named n => some n
  | .specialized b _ => some b
  | _ => none

def typeArgs : TypeExpr → List TypeExpr
  | .specialized _ as => as
  | _ => []

mutual
def beq : TypeExpr → TypeExpr → Bool
  | .bool, .bool => true
  | .bits w s, .bits w' s' => w == w' && s == s'
  | .int, .int => true
  | .void, .void => true
  | .named n, .named n' => n == n'
  | .specialized b as, .specialized b' as' => b == b' && beqs as as'
  | .stack e n, .stack e' n' => beq e e' && n == n'
  | _, _ => false
def beqs : List TypeExpr → List TypeExpr → Bool
  | [], [] => true
  | t :: ts, t' :: ts' => beq t t' && beqs ts ts'
  | _, _ => false
end

instance : BEq TypeExpr := ⟨beq⟩

def isBits : TypeExpr → Bool
  | .bits _ _ => true
  | _ => false

end TypeExpr

end MatchAction
