import MatchAction.Tree.Program

namespace MatchAction

mutual
inductive Ty
  | bool
  | bits (width : Nat) (signed : Bool)
  | int
  | void
  /-- A header, struct, external type, control or package, applied to arguments. -/
  | decl (decl : Decl) (args : List Ty)
  | stack (element : Ty) (size : Nat)
  | param (name : String)
  | method (signature : Signature)
  | table (table : Decl)
  /-- What applying a table gives back. -/
  | applyResult (table : Decl)
  /-- Which action an application ran. -/
  | actionEnum (table : Decl)
  /-- The type of what has been reported already. -/
  | error
/-- The signature of anything that can be called. -/
inductive Signature
  | mk (typeParams : List String) (params : List ParamTy) (ret : Ty)
inductive ParamTy
  | mk (name : String) (direction : Direction) (type : Ty)
end

namespace ParamTy

def name : ParamTy → String
  | .mk n _ _ => n

def direction : ParamTy → Direction
  | .mk _ d _ => d

def type : ParamTy → Ty
  | .mk _ _ t => t

end ParamTy

namespace Signature

def typeParams : Signature → List String
  | .mk tps _ _ => tps

def params : Signature → List ParamTy
  | .mk _ ps _ => ps

def ret : Signature → Ty
  | .mk _ _ r => r

def arity (s : Signature) : Nat := s.params.length

end Signature

/-- What type parameters stand for. -/
abbrev Bindings := List (String × Ty)

namespace Bindings

def get? (b : Bindings) (name : String) : Option Ty := List.lookup name b

def binds (b : Bindings) (name : String) : Bool := (b.get? name).isSome

/-- A later binding takes the place of an earlier one. -/
def insert (b : Bindings) (name : String) (t : Ty) : Bindings :=
  (name, t) :: b.filter (·.1 != name)

end Bindings

namespace Ty

def isError : Ty → Bool
  | .error => true
  | _ => false

def isBool : Ty → Bool
  | .bool => true
  | _ => false

def signature? : Ty → Option Signature
  | .method s => some s
  | _ => none

/-- The declaration behind a declared type. -/
def decl? : Ty → Option Decl
  | .decl d _ => some d
  | _ => none

end Ty

mutual
def Ty.subst (b : Bindings) : Ty → Ty
  | .param n => (b.get? n).getD (.param n)
  | .decl d as => .decl d (Ty.substs b as)
  | .stack e n => .stack (e.subst b) n
  | .method s => .method (s.subst b)
  | t => t
def Ty.substs (b : Bindings) : List Ty → List Ty
  | [] => []
  | t :: ts => t.subst b :: Ty.substs b ts
/-- Bound type parameters are parameters no longer. -/
def Signature.subst (b : Bindings) : Signature → Signature
  | .mk tps ps r => .mk (tps.filter (!b.binds ·)) (ParamTy.substs b ps) (r.subst b)
def ParamTy.subst (b : Bindings) : ParamTy → ParamTy
  | .mk n d t => .mk n d (t.subst b)
def ParamTy.substs (b : Bindings) : List ParamTy → List ParamTy
  | [] => []
  | p :: ps => p.subst b :: ParamTy.substs b ps
end

mutual
def Ty.beq : Ty → Ty → Bool
  | .bool, .bool => true
  | .bits w s, .bits w' s' => w == w' && s == s'
  | .int, .int => true
  | .void, .void => true
  | .decl d as, .decl d' as' => d.id == d'.id && Ty.beqs as as'
  | .stack e n, .stack e' n' => e.beq e' && n == n'
  | .param n, .param n' => n == n'
  | .method s, .method s' => s.beq s'
  | .table d, .table d' => d.id == d'.id
  | .applyResult d, .applyResult d' => d.id == d'.id
  | .actionEnum d, .actionEnum d' => d.id == d'.id
  | .error, .error => true
  | _, _ => false
def Ty.beqs : List Ty → List Ty → Bool
  | [], [] => true
  | t :: ts, t' :: ts' => t.beq t' && Ty.beqs ts ts'
  | _, _ => false
def Signature.beq : Signature → Signature → Bool
  | .mk tps ps r, .mk tps' ps' r' => tps == tps' && ParamTy.beqs ps ps' && r.beq r'
def ParamTy.beq : ParamTy → ParamTy → Bool
  | .mk n d t, .mk n' d' t' => n == n' && d == d' && t.beq t'
def ParamTy.beqs : List ParamTy → List ParamTy → Bool
  | [], [] => true
  | p :: ps, p' :: ps' => p.beq p' && ParamTy.beqs ps ps'
  | _, _ => false
end

instance : BEq Ty := ⟨Ty.beq⟩

/-- Whether a value of type `u` may stand where one of type `t` is expected. An unsized integer
fits every width, and nothing is said about type parameters or after an error. -/
def Ty.accepts : Ty → Ty → Bool
  | .error, _ | _, .error => true
  | .param _, _ | _, .param _ => true
  | .bits _ _, .int | .int, .bits _ _ => true
  | t, u => t == u

mutual
/-- How the type is written; not all are. -/
def Ty.toTypeExpr? : Ty → Option TypeExpr
  | .bool => some .bool
  | .bits w s => some (.bits w s)
  | .int => some .int
  | .void => some .void
  | .param n => some (.named n)
  | .decl d [] => some (.named d.name)
  | .decl d (a :: as) => (Ty.toTypeExprs? (a :: as)).map (.specialized d.name)
  | .stack e n => e.toTypeExpr?.map (.stack · n)
  | .method _ | .table _ | .applyResult _ | .actionEnum _ | .error => none
def Ty.toTypeExprs? : List Ty → Option (List TypeExpr)
  | [] => some []
  | t :: ts => do return (← t.toTypeExpr?) :: (← Ty.toTypeExprs? ts)
end

mutual
def Ty.text : Ty → String
  | .bool => "bool"
  | .bits w s => TypeExpr.bitsText w s
  | .int => "int"
  | .void => "void"
  | .decl d as =>
    d.name ++ (if as.isEmpty then "" else "<" ++ ", ".intercalate (Ty.texts as) ++ ">")
  | .stack e n => e.text ++ "[" ++ toString n ++ "]"
  | .param n => n
  | .method s => s.text
  | .table d => "table " ++ d.name
  | .applyResult d => d.name ++ ".apply_result"
  | .actionEnum d => d.name ++ ".action_list"
  | .error => "<error>"
def Ty.texts : List Ty → List String
  | [] => []
  | t :: ts => t.text :: Ty.texts ts
def Signature.text : Signature → String
  | .mk _ ps r => "(" ++ ", ".intercalate (ParamTy.texts ps) ++ ") -> " ++ r.text
def ParamTy.texts : List ParamTy → List String
  | [] => []
  | .mk _ d t :: ps => (d.text ++ t.text) :: ParamTy.texts ps
end

mutual
/-- Binds the type parameters in `t` so that it becomes `u`; what is bound already stays. -/
def Ty.unify : Ty → Ty → Bindings → Bindings
  | .param n, u, b => if u.isError || b.binds n then b else b.insert n u
  | .decl _ ts, .decl _ us, b => Ty.unifies ts us b
  | .stack t _, .stack u _, b => t.unify u b
  | _, _, b => b
def Ty.unifies : List Ty → List Ty → Bindings → Bindings
  | t :: ts, u :: us, b => Ty.unifies ts us (t.unify u b)
  | _, _, b => b
end

/-- Operations of every header and header stack. -/
inductive BuiltIn
  | isValid
  | setValid
  | setInvalid
  | pushFront
  | popFront
deriving DecidableEq

namespace BuiltIn

def name : BuiltIn → String
  | .isValid => "isValid"
  | .setValid => "setValid"
  | .setInvalid => "setInvalid"
  | .pushFront => "push_front"
  | .popFront => "pop_front"

def ofName? : String → Option BuiltIn
  | "isValid" => some .isValid
  | "setValid" => some .setValid
  | "setInvalid" => some .setInvalid
  | "push_front" => some .pushFront
  | "pop_front" => some .popFront
  | _ => none

/-- Operations of stacks; the others are about a single header. -/
def onStack : BuiltIn → Bool
  | .pushFront | .popFront => true
  | _ => false

def signature : BuiltIn → Signature
  | .isValid => .mk [] [] .bool
  | .setValid | .setInvalid => .mk [] [] .void
  | .pushFront | .popFront => .mk [] [.mk "count" .input .int] .void

end BuiltIn

end MatchAction
