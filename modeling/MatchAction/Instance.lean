import MatchAction.Call

/-!
The instances a program is made of. Elaboration starts at the toplevel instances and follows
constructor arguments and the instances among the locals of controls; a type met again below itself
has no finite elaboration and is refused.
-/

namespace MatchAction

inductive InstanceKind
  | package
  | control
  | externType

def InstanceKind.ofDecl? : Decl → Option InstanceKind
  | .package .. => some .package
  | .control .. => some .control
  | .externType .. => some .externType
  | _ => none

/-- An instance with the instances it was given and those declared inside. It bears its own name,
or that of the parameter it was constructed for. -/
inductive Instance
  | mk (name : String) (kind : InstanceKind) (type : Decl) (arguments locals : List Instance)

namespace Instance

def name : Instance → String
  | .mk n _ _ _ _ => n

def type : Instance → Decl
  | .mk _ _ d _ _ => d

mutual
/-- The instance and everything below it, parents first. -/
def walk : Instance → List Instance
  | .mk n k d as ls => .mk n k d as ls :: (walks as ++ walks ls)
def walks : List Instance → List Instance
  | [] => []
  | i :: is => i.walk ++ walks is
end

end Instance

inductive ElaborationError
  | classification (error : ClassificationError)
  | notInstantiable (name type : String)
  | selfInstantiation (type : String)
  /-- The bound on the depth was met. -/
  | tooDeep (type : String)

namespace Elaboration

/-- What the arguments of an instance are called by. -/
def parameterNames : Decl → List String
  | .package _ _ ps => ps.map (·.name)
  | .control _ _ _ cps _ _ => cps.map (·.name)
  | _ => []

/-- How the instance of a given name, type and arguments is made. -/
abbrev Builder := String → Decl → List Expr → Except ElaborationError Instance

/-- An instance declaration, unless its type is unknown. -/
def declared (refs : Refs) (build : Builder) : Decl → Except ElaborationError (Option Instance)
  | .inst h _ args =>
    match refs.decl? h.id with
    | some type => some <$> build h.name type args
    | none => return none
  | _ => return none

def declareds (refs : Refs) (build : Builder) : List Decl → Except ElaborationError (List Instance)
  | [] => return []
  | d :: ds => do
    let i ← declared refs build d
    return i.toList ++ (← declareds refs build ds)

/-- An argument that constructs or names an instance; a plain value is none. -/
def argument (refs : Refs) (types : Types) (build : Builder) (name : String) (e : Expr) :
    Except ElaborationError (Option Instance) :=
  match e with
  | .construct _ _ args =>
    match Construction.classify refs types e with
    | .ok c => some <$> build name c.target args
    | .error err => .error (.classification err)
  | .path t _ =>
    match refs.decl? t.id with
    | some d => declared refs build d
    | none => return none
  | _ => return none

/-- Arguments from position `i` on; those beyond the known parameters go by their position. -/
def arguments (refs : Refs) (types : Types) (build : Builder) (names : List String) :
    Nat → List Expr → Except ElaborationError (List Instance)
  | _, [] => return []
  | i, e :: es => do
    let a ← argument refs types build ((names[i]?).getD ("arg" ++ toString i)) e
    return a.toList ++ (← arguments refs types build names (i + 1) es)

def locals (refs : Refs) (build : Builder) : Decl → Except ElaborationError (List Instance)
  | .control _ _ _ _ ls _ => declareds refs build ls
  | _ => return []

/-- An instance below instances of the types in `above`. -/
def build (refs : Refs) (types : Types) : Nat → List NodeId → Builder
  | 0, _, _, type, _ => .error (.tooDeep type.name)
  | fuel + 1, above, name, type, args =>
    match InstanceKind.ofDecl? type with
    | none => .error (.notInstantiable name type.name)
    | some kind => do
      if above.contains type.id then throw (.selfInstantiation type.name)
      let inner := build refs types fuel (type.id :: above)
      let as ← arguments refs types inner (parameterNames type) 0 args
      let ls ← locals refs inner type
      return .mk name kind type as ls

end Elaboration

/-- A program with its toplevel instances. -/
structure Toplevel where
  program : Program
  instances : List Instance

def Toplevel.main? (t : Toplevel) : Option Instance := t.instances.find? (·.name == "main")

/-- Elaborates the toplevel instances. Nested types differ and are all targets of references, which
bounds the depth. -/
def Program.elaborate (refs : Refs) (types : Types) (p : Program) :
    Except ElaborationError Toplevel := do
  let build := Elaboration.build refs types (refs.targets.entries.length + 1) []
  return ⟨p, ← Elaboration.declareds refs build p.decls⟩

end MatchAction
