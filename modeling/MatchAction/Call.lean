import MatchAction.Tree.Printer
import MatchAction.Typing.Tables

namespace MatchAction

inductive CallFault
  | notCall
  | calleeHasNoMethodType
  | receiverNamesNothing
  | noSuchMethod
  | noCallKind
  | calleeUnresolved
  | calleeKind
  | calleeShape

def CallFault.reason : CallFault → String
  | .notCall => "not a method call"
  | .calleeHasNoMethodType => "callee has no method type"
  | .receiverNamesNothing => "receiver does not name a declaration"
  | .noSuchMethod => "extern has no such method"
  | .noCallKind => "member call matches no call kind"
  | .calleeUnresolved => "callee does not resolve to a declaration"
  | .calleeKind => "callee is neither an extern function nor an action"
  | .calleeShape => "callee is not a name or a member"

inductive ConstructFault
  | notConstruct
  | unresolved
  | targetKind

def ConstructFault.reason : ConstructFault → String
  | .notConstruct => "not a constructor call"
  | .unresolved => "constructed type does not resolve"
  | .targetKind => "constructed type is neither an extern nor a container"

inductive ClassificationError
  | call (call : Expr) (fault : CallFault)
  | construct (call : Expr) (fault : ConstructFault)

def ClassificationError.message : ClassificationError → String
  | .call e f => "cannot classify call `" ++ e.text ++ "`: " ++ f.reason
  | .construct e f => "cannot classify constructor call `" ++ e.text ++ "`: " ++ f.reason

inductive CallKind
  /-- Of a table, or of a control reached by an instance or a parameter. -/
  | apply (object : Referent) (applied : Decl)
  | externMethod (object : Referent) (externType : Decl) (method : Method)
  | externFunction (function : Decl)
  | action (action : Decl)
  | builtIn (op : BuiltIn) (receiver : Expr)

namespace CallKind

def name : CallKind → String
  | .apply .. => "apply"
  | .externMethod .. => "extern method"
  | .externFunction .. => "extern function"
  | .action .. => "action call"
  | .builtIn .. => "built-in"

/-- The control applied, if it is one. -/
def control? : CallKind → Option Decl
  | .apply _ d => if d.isControl then some d else none
  | _ => none

end CallKind

structure Call where
  kind : CallKind
  signature : Signature
  args : List Expr

/-- Each parameter with the argument bound to it. -/
def Call.substitution (c : Call) : List (ParamTy × Expr) := c.signature.params.zip c.args

namespace Call

/-- The signature of the callee with the call's bindings put in. -/
def signature? (types : Types) (call callee : NodeId) : Option Signature :=
  ((types.get? callee).bind Ty.signature?).map fun s =>
    match types.bindings.get? call with
    | some b => s.subst b
    | none => s

def object (refs : Refs) (receiver : Expr) : Except CallFault Referent :=
  match refs.get? receiver.id with
  | some r => .ok r
  | none => .error .receiverNamesNothing

/-- An operation of headers or stacks, if the receiver has it. -/
def builtIn? (types : Types) (receiver : Expr) (member : String) : Option BuiltIn :=
  (BuiltIn.ofName? member).filter fun b =>
    match types.get? receiver.id with
    | some (.stack _ _) => b.onStack
    | some (.decl (.header _ _) _) => !b.onStack
    | _ => false

def memberKind (refs : Refs) (types : Types) (receiver : Expr) (member : String) (arity : Nat) :
    Except CallFault CallKind :=
  let builtIn := match builtIn? types receiver member with
    | some b => .ok (.builtIn b receiver)
    | none => .error .noCallKind
  match types.get? receiver.id with
  | some (.table d) =>
    if member == "apply" then return .apply (← object refs receiver) d else builtIn
  | some (.decl d _) =>
    match d with
    | .control .. =>
      if member == "apply" then return .apply (← object refs receiver) d else builtIn
    | .externType _ _ _ ms =>
      match Method.find? ms member arity with
      | some m => return .externMethod (← object refs receiver) d m
      | none => .error .noSuchMethod
    | _ => builtIn
  | _ => builtIn

def pathKind (refs : Refs) (callee : NodeId) : Except CallFault CallKind :=
  match refs.decl? callee with
  | some d =>
    match d with
    | .externFn .. => .ok (.externFunction d)
    | .action .. => .ok (.action d)
    | _ => .error .calleeKind
  | none => .error .calleeUnresolved

def calleeKind (refs : Refs) (types : Types) (callee : Expr) (arity : Nat) :
    Except CallFault CallKind :=
  match callee with
  | .member _ receiver m => memberKind refs types receiver m arity
  | .path t _ => pathKind refs t.id
  | _ => .error .calleeShape

/-- What a call is. An external method wins over a built-in operation of its name. -/
def classify (refs : Refs) (types : Types) (e : Expr) : Except ClassificationError Call :=
  match e with
  | .call t callee _ args =>
    match signature? types t.id callee.id with
    | none => .error (.call e .calleeHasNoMethodType)
    | some s =>
      match calleeKind refs types callee args.length with
      | .ok k => .ok ⟨k, s, args⟩
      | .error f => .error (.call e f)
  | _ => .error (.call e .notCall)

/-- The kind alone. -/
def kind? (refs : Refs) (types : Types) (e : Expr) : Option CallKind :=
  match classify refs types e with
  | .ok c => some c.kind
  | .error _ => none

end Call

/-- A constructor call of an external type, or of a control or package. -/
structure Construction where
  target : Decl
  typeArgs : List Ty

def Construction.kind (c : Construction) : String :=
  match c.target with
  | .externType .. => "extern constructor"
  | _ => "container constructor"

def Construction.classify (refs : Refs) (types : Types) (e : Expr) :
    Except ClassificationError Construction :=
  match e with
  | .construct t _ _ =>
    let typeArgs := match types.get? t.id with
      | some (.decl _ args) => args
      | _ => []
    match refs.decl? t.id with
    | some d =>
      match d with
      | .externType .. | .control .. | .package .. => .ok ⟨d, typeArgs⟩
      | _ => .error (.construct e .targetKind)
    | none => .error (.construct e .unresolved)
  | _ => .error (.construct e .notConstruct)

end MatchAction
