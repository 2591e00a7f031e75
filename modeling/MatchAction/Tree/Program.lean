import MatchAction.Tree.Expr

namespace MatchAction

inductive Direction
  | none
  | input
  | output
  | inout
deriving DecidableEq

namespace Direction

/-- The written word; empty for a parameter without direction. -/
def word : Direction → String
  | .none => ""
  | .input => "in"
  | .output => "out"
  | .inout => "inout"

/-- The word as it stands before the type of a parameter. -/
def text : Direction → String
  | .none => ""
  | .input => "in "
  | .output => "out "
  | .inout => "inout "

/-- The argument's value flows into the callee. -/
def copiesIn : Direction → Bool
  | .output => false
  | _ => true

/-- The parameter's value flows back to the argument. -/
def copiesOut : Direction → Bool
  | .output | .inout => true
  | _ => false

end Direction

structure Param where
  id : NodeId
  name : String
  direction : Direction
  type : TypeExpr
  span : Option Span

structure Field where
  type : TypeExpr
  name : String

/-- The signature of an external method, constructor or function. -/
structure Method where
  returnType : TypeExpr
  name : String
  typeParams : List String
  params : List Param
  span : Option Span

/-- One column of a table's key. -/
structure Key where
  id : NodeId
  expr : Expr
  matchKind : String

inductive Label
  | name (action : String)
  | default

/-- What every declaration has. -/
structure Head where
  id : NodeId
  name : String
  span : Option Span

def Head.fresh (name : String) (span : Option Span) : Supply Head :=
  return ⟨← freshId, name, span⟩

mutual
inductive Stmt
  | block (tag : Tag) (body : Block)
  | assign (tag : Tag) (left right : Expr)
  | call (tag : Tag) (call : Expr)
  | ifThen (tag : Tag) (condition : Expr) (ifTrue : Stmt) (ifFalse : Option Stmt)
  | switch (tag : Tag) (selector : Expr) (cases : List Case)
  | decl (tag : Tag) (decl : Decl)
  | ret (tag : Tag) (value : Option Expr)
  | exit (tag : Tag)
  | empty (tag : Tag)
inductive Block
  | mk (id : NodeId) (stmts : List Stmt)
/-- A case without a body falls through to the next one. -/
inductive Case
  | run (label : Label) (body : Block)
  | fallThrough (label : Label)
inductive Decl
  | header (head : Head) (fields : List Field)
  | struct (head : Head) (fields : List Field)
  | externType (head : Head) (typeParams : List String) (constructors methods : List Method)
  | externFn (head : Head) (method : Method)
  | action (head : Head) (params : List Param) (body : Block)
  | table (head : Head) (key : List Key) (actions : List Expr) (defaultAction : Option Expr)
  | control (head : Head) (typeParams : List String) (applyParams ctorParams : List Param)
      (locals : List Decl) (body : Block)
  | package (head : Head) (typeParams : List String) (params : List Param)
  | inst (head : Head) (type : TypeExpr) (args : List Expr)
  | var (head : Head) (type : TypeExpr) (init : Option Expr)
  | const (head : Head) (type : TypeExpr) (value : Expr)
end

structure Program where
  decls : List Decl

namespace Case

def label : Case → Label
  | .run l _ | .fallThrough l => l

def relabel (l : Label) : Case → Case
  | .run _ b => .run l b
  | .fallThrough _ => .fallThrough l

end Case

namespace Stmt

def tag : Stmt → Tag
  | .block t _ | .assign t _ _ | .call t _ | .ifThen t _ _ _ | .switch t _ _ | .decl t _
  | .ret t _ | .exit t | .empty t => t

def id (s : Stmt) : NodeId := s.tag.id

def span (s : Stmt) : Option Span := s.tag.span

def isDecl : Stmt → Bool
  | .decl .. => true
  | _ => false

/-- Where a table application can guard a statement: the call of a call statement, the condition
of an `if`, the selector of a `switch`. -/
def guard? : Stmt → Option Expr
  | .call _ e | .ifThen _ e _ _ | .switch _ e _ => some e
  | _ => none

end Stmt

namespace Block

def id : Block → NodeId
  | .mk i _ => i

def stmts : Block → List Stmt
  | .mk _ ss => ss

/-- The same block around other statements. -/
def withStmts (b : Block) (ss : List Stmt) : Block := .mk b.id ss

/-- Whether a statement directly in the block declares something. -/
def hasDecls (b : Block) : Bool := b.stmts.any (·.isDecl)

end Block

mutual
/-- Empty statements, and blocks of nothing but those. -/
def Stmt.isEmpty : Stmt → Bool
  | .empty _ => true
  | .block _ b => b.isEmpty
  | _ => false
def Block.isEmpty : Block → Bool
  | .mk _ ss => Stmt.allEmpty ss
def Stmt.allEmpty : List Stmt → Bool
  | [] => true
  | s :: ss => s.isEmpty && Stmt.allEmpty ss
end

mutual
/-- Whether a `return` can be reached from here. -/
def Stmt.hasReturn : Stmt → Bool
  | .ret .. => true
  | .block _ b => b.hasReturn
  | .ifThen _ _ a none => a.hasReturn
  | .ifThen _ _ a (some b) => a.hasReturn || b.hasReturn
  | .switch _ _ cs => Case.anyReturn cs
  | .assign .. | .call .. | .decl .. | .exit .. | .empty .. => false
def Block.hasReturn : Block → Bool
  | .mk _ ss => Stmt.anyReturn ss
def Stmt.anyReturn : List Stmt → Bool
  | [] => false
  | s :: ss => s.hasReturn || Stmt.anyReturn ss
def Case.hasReturn : Case → Bool
  | .run _ b => b.hasReturn
  | .fallThrough _ => false
def Case.anyReturn : List Case → Bool
  | [] => false
  | c :: cs => c.hasReturn || Case.anyReturn cs
end

namespace Decl

def head : Decl → Head
  | .header h _ | .struct h _ | .externType h _ _ _ | .externFn h _ | .action h _ _
  | .table h _ _ _ | .control h _ _ _ _ _ | .package h _ _ | .inst h _ _ | .var h _ _
  | .const h _ _ => h

def withHead (h : Head) : Decl → Decl
  | .header _ fs => .header h fs
  | .struct _ fs => .struct h fs
  | .externType _ tps cs ms => .externType h tps cs ms
  | .externFn _ m => .externFn h m
  | .action _ ps b => .action h ps b
  | .table _ ks as d => .table h ks as d
  | .control _ tps ps cps ls b => .control h tps ps cps ls b
  | .package _ tps ps => .package h tps ps
  | .inst _ t as => .inst h t as
  | .var _ t i => .var h t i
  | .const _ t v => .const h t v

def id (d : Decl) : NodeId := d.head.id

def name (d : Decl) : String := d.head.name

def span (d : Decl) : Option Span := d.head.span

/-- The same declaration under another name. -/
def rename (d : Decl) (name : String) : Decl := d.withHead { d.head with name := name }

@[simp] theorem head_withHead (d : Decl) (h : Head) : (d.withHead h).head = h := by
  cases d <;> rfl

@[simp] theorem id_rename (d : Decl) (n : String) : (d.rename n).id = d.id := by
  simp [rename, id]

@[simp] theorem name_rename (d : Decl) (n : String) : (d.rename n).name = n := by
  simp [rename, name]

/-- Declarations that name a type rather than a value. -/
def isType : Decl → Bool
  | .header .. | .struct .. | .externType .. | .control .. | .package .. => true
  | _ => false

def isControl : Decl → Bool
  | .control .. => true
  | _ => false

def isAction : Decl → Bool
  | .action .. => true
  | _ => false

def isTable : Decl → Bool
  | .table .. => true
  | _ => false

def isInst : Decl → Bool
  | .inst .. => true
  | _ => false

/-- The parameters a declaration brings, in source order. -/
def params : Decl → List Param
  | .externType _ _ cs ms => (cs ++ ms).flatMap (·.params)
  | .externFn _ m => m.params
  | .action _ ps _ => ps
  | .control _ _ ps cps _ _ => cps ++ ps
  | .package _ _ ps => ps
  | _ => []

end Decl

namespace Method

/-- The method called `name` that takes `arity` arguments. -/
def find? (ms : List Method) (name : String) (arity : Nat) : Option Method :=
  ms.find? fun m => m.name == name && m.params.length == arity

/-- The first method called `name`, whatever it takes. -/
def named? (ms : List Method) (name : String) : Option Method :=
  ms.find? (·.name == name)

end Method

/-- The first toplevel declaration of that name. -/
def Program.find? (p : Program) (name : String) : Option Decl :=
  p.decls.find? (·.name == name)

/-- A declaration as a statement, at the declaration's position. -/
def Stmt.declare (d : Decl) : Supply Stmt := return .decl (← Tag.fresh d.span) d

end MatchAction
