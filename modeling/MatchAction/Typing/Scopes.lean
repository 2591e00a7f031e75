import MatchAction.Typing.Ty

namespace MatchAction

/-- What a name can refer to. -/
inductive Referent
  | decl (decl : Decl)
  | param (param : Param)

namespace Referent

def id : Referent → NodeId
  | .decl d => d.id
  | .param p => p.id

def name : Referent → String
  | .decl d => d.name
  | .param p => p.name

def span : Referent → Option Span
  | .decl d => d.span
  | .param p => p.span

def decl? : Referent → Option Decl
  | .decl d => some d
  | .param _ => none

end Referent

/-- Each name once. -/
abbrev Frame := List (String × Referent)

structure Scopes where
  /-- Frames below the toplevel one, innermost first. -/
  inner : List Frame
  top : Frame
  /-- Groups of type parameters, innermost first. -/
  typeParams : List (List String)

namespace Scopes

def empty : Scopes := ⟨[], [], []⟩

def depth (s : Scopes) : Nat := s.inner.length + 1

def push (s : Scopes) : Scopes := { s with inner := [] :: s.inner }

def pop (s : Scopes) : Scopes := { s with inner := s.inner.tail }

def innermost (s : Scopes) : Frame := s.inner.headD s.top

/-- Declares a name in the innermost frame. A name that the frame has already keeps its meaning,
which is returned. -/
def define (s : Scopes) (name : String) (r : Referent) : Option Referent × Scopes :=
  match s.innermost.lookup name with
  | some previous => (some previous, s)
  | none =>
    match s.inner with
    | f :: fs => (none, { s with inner := ((name, r) :: f) :: fs })
    | [] => (none, { s with top := (name, r) :: s.top })

def lookup (s : Scopes) (name : String) : Option Referent :=
  (s.inner.findSome? (·.lookup name)).or (s.top.lookup name)

def pushTypeParams (s : Scopes) (names : List String) : Scopes :=
  { s with typeParams := names :: s.typeParams }

def popTypeParams (s : Scopes) : Scopes := { s with typeParams := s.typeParams.tail }

def isTypeParam (s : Scopes) (name : String) : Bool := s.typeParams.any (·.contains name)

end Scopes

/-- A resolved type, the declarations it uses, and the names in it that name no type. -/
structure Resolution where
  type : Ty
  uses : List NodeId
  unknown : List String

/-- A type name with its arguments resolved already. -/
def Scopes.resolveName (s : Scopes) (name : String) (args : List Ty) : Resolution :=
  if s.isTypeParam name then ⟨.param name, [], []⟩
  else match s.lookup name with
    | some (.decl d) => if d.isType then ⟨.decl d args, [d.id], []⟩ else ⟨.error, [], [name]⟩
    | _ => ⟨.error, [], [name]⟩

mutual
def Scopes.resolve (s : Scopes) : TypeExpr → Resolution
  | .bool => ⟨.bool, [], []⟩
  | .bits w signed => ⟨.bits w signed, [], []⟩
  | .int => ⟨.int, [], []⟩
  | .void => ⟨.void, [], []⟩
  | .named n => s.resolveName n []
  | .specialized base args =>
    let (ts, uses, unknown) := s.resolves args
    let r := s.resolveName base ts
    ⟨r.type, uses ++ r.uses, unknown ++ r.unknown⟩
  | .stack e n =>
    let r := s.resolve e
    ⟨.stack r.type n, r.uses, r.unknown⟩
def Scopes.resolves (s : Scopes) : List TypeExpr → List Ty × List NodeId × List String
  | [] => ([], [], [])
  | t :: ts =>
    let r := s.resolve t
    let (us, uses, unknown) := s.resolves ts
    (r.type :: us, r.uses ++ uses, r.unknown ++ unknown)
end

end MatchAction
