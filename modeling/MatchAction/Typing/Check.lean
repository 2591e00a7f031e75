import MatchAction.Typing.Error
import MatchAction.Typing.Tables

/-!
One walk in source order that resolves every name and types every expression. Faults are collected
and the walk goes on, with the error type for what was at fault, so that a mistake is reported once.
-/

namespace MatchAction

structure Checker where
  scopes : Scopes
  refs : Refs
  types : Types
  errors : List TypeError

/-- The side tables of a program and the errors found on the way. -/
structure Checked where
  refs : Refs
  types : Types
  errors : List TypeError

abbrev Check := StateM Checker

namespace Check

def report (fault : TypeFault) (span : Option Span) : Check Unit :=
  modify fun c => { c with errors := c.errors ++ [⟨fault, span⟩] }

def setType (id : NodeId) (t : Ty) : Check Unit :=
  modify fun c => { c with types := c.types.set id t }

def typeOf? (id : NodeId) : Check (Option Ty) := return (← get).types.get? id

def isLeftValue (id : NodeId) : Check Bool := return (← get).types.isLeftValue id

def setLeftValue (id : NodeId) : Check Unit :=
  modify fun c => { c with types := c.types.setLeftValue id }

/-- What is reached through a place that can be written to can be written to. -/
def inheritLeftValue (base id : NodeId) : Check Unit := do
  if ← isLeftValue base then setLeftValue id

def refer (id : NodeId) (r : Referent) : Check Unit :=
  modify fun c => { c with refs := c.refs.set id r }

def withScopes (f : Scopes → Scopes) : Check Unit :=
  modify fun c => { c with scopes := f c.scopes }

/-- Runs a check in a new innermost frame. -/
def inFrame (x : Check Unit) : Check Unit := do
  withScopes .push
  x
  withScopes .pop

/-- Runs a check with more type parameters in sight. -/
def withTypeParams {α : Type} (names : List String) (x : Check α) : Check α := do
  withScopes (·.pushTypeParams names)
  let a ← x
  withScopes .popTypeParams
  return a

def define (name : String) (span : Option Span) (r : Referent) : Check Unit := do
  let c ← get
  match c.scopes.define name r with
  | (some previous, _) => report (.duplicate name previous.span) span
  | (none, scopes) => set { c with scopes := scopes }

def defineDecl (d : Decl) : Check Unit := define d.name d.span (.decl d)

def resolveType (t : TypeExpr) (span : Option Span) : Check Ty := do
  let r := (← get).scopes.resolve t
  modify fun c => { c with
    refs := r.uses.foldl Refs.markUsed c.refs
    errors := c.errors ++ r.unknown.map fun n => ⟨.unknownType n, span⟩ }
  return r.type

/-- The type of a parameter, noted as such. -/
def paramType (p : Param) : Check Ty := do
  let t ← resolveType p.type p.span
  setType p.id t
  return t

def defineParam (p : Param) : Check Unit := do
  let _ ← paramType p
  define p.name p.span (.param p)

def defineParams : List Param → Check Unit
  | [] => return
  | p :: ps => do
    defineParam p
    defineParams ps

def paramTypes : List Param → Check (List ParamTy)
  | [] => return []
  | p :: ps => do
    let t ← paramType p
    return .mk p.name p.direction t :: (← paramTypes ps)

def methodType (m : Method) : Check Signature :=
  withTypeParams m.typeParams do
    let ps ← paramTypes m.params
    let r ← resolveType m.returnType m.span
    return .mk m.typeParams ps r

/-- The signature of a method of an external type, whose type parameters come first. -/
def externMethodType (typeParams : List String) (m : Method) : Check Signature := do
  let s ← withTypeParams typeParams (methodType m)
  return .mk (typeParams ++ s.typeParams) s.params s.ret

/-- The signature of an action, or of applying a control. -/
def actionType (ps : List Param) : Check Signature := return .mk [] (← paramTypes ps) .void

/-- How many arguments constructing a declaration may take. -/
def constructorArities : Decl → List Nat
  | .externType _ _ [] _ => [0]
  | .externType _ _ cs _ => cs.map (·.params.length)
  | .control _ _ _ cps _ _ => [cps.length]
  | .package _ _ ps => [ps.length]
  | _ => []

def constructorArity (d : Decl) (found : Nat) (span : Option Span) : Check Unit :=
  match constructorArities d with
  | [] => return
  | n :: ns =>
    if (n :: ns).contains found then return
    else report (.argumentCount d.name n found) span

/-- What is instantiated: a reference from the node to the declaration, and its arity. -/
def instantiate (id : NodeId) (t : Ty) (found : Nat) (span : Option Span) : Check Unit :=
  match t.decl? with
  | some d => do
    refer id (.decl d)
    constructorArity d found span
  | none => return

def expect (expected found : Ty) (span : Option Span) : Check Unit :=
  if expected.accepts found then return else report (.mismatch expected found) span

def declaredType (id : NodeId) : Check Ty := return (← typeOf? id).getD .error

/-- The type of a use of what a name refers to. -/
def referentType (t : Tag) : Referent → Check Ty
  | .param p => do
    if p.direction.copiesOut then setLeftValue t.id
    declaredType p.id
  | .decl d =>
    match d with
    | .var .. => do
      setLeftValue t.id
      declaredType d.id
    | .const .. | .inst .. => declaredType d.id
    | .action _ ps _ => return .method (← actionType ps)
    | .externFn _ m => return .method (← methodType m)
    | .table .. => return .table d
    | _ => return .decl d []

def path (t : Tag) (name : String) : Check Ty := do
  match (← get).scopes.lookup name with
  | none =>
    report (.unresolvedName name) t.span
    return .error
  | some r =>
    refer t.id r
    referentType t r

def unknownMember (t : Tag) (base : Ty) (name : String) : Check Ty := do
  report (.unknownMember base name) t.span
  return .error

/-- A field of a header or struct; headers have operations too. -/
def fieldType (t : Tag) (base : NodeId) (baseTy : Ty) (isHeader : Bool) (fields : List Field)
    (name : String) : Check Ty :=
  match fields.find? (·.name == name) with
  | some f => do
    inheritLeftValue base t.id
    resolveType f.type t.span
  | none =>
    match BuiltIn.ofName? name with
    | some b =>
      if isHeader && !b.onStack then return .method b.signature else unknownMember t baseTy name
    | none => unknownMember t baseTy name

/-- A method of an external type. In a call, the number of arguments picks among those of one
name. -/
def methodMember (t : Tag) (baseTy : Ty) (typeParams : List String) (ms : List Method)
    (name : String) (arity : Option Nat) : Check Ty :=
  match arity with
  | some n =>
    match Method.find? ms name n, Method.named? ms name with
    | some m, _ => return .method (← externMethodType typeParams m)
    | none, some other => do
      report (.argumentCount name other.params.length n) t.span
      return .error
    | none, none => unknownMember t baseTy name
  | none =>
    match Method.named? ms name with
    | some m => return .method (← externMethodType typeParams m)
    | none => unknownMember t baseTy name

def stackMember (t : Tag) (base : NodeId) (element : Ty) (size : Nat) (name : String) :
    Check Ty :=
  match name with
  | "next" | "last" => do
    inheritLeftValue base t.id
    return element
  | "size" | "nextIndex" | "lastIndex" => return .bits 32 false
  | "push_front" => return .method BuiltIn.pushFront.signature
  | "pop_front" => return .method BuiltIn.popFront.signature
  | _ => unknownMember t (.stack element size) name

/-- The type of the member `name` of something of type `baseTy`; `arity` is known where the member
is called. -/
def member (t : Tag) (base : NodeId) (baseTy : Ty) (name : String) (arity : Option Nat) :
    Check Ty :=
  match baseTy with
  | .error => return .error
  | .decl (.header _ fs) _ => fieldType t base baseTy true fs name
  | .decl (.struct _ fs) _ => fieldType t base baseTy false fs name
  | .decl (.externType _ tps _ ms) _ => methodMember t baseTy tps ms name arity
  | .decl (.control _ _ ps _ _ _) _ =>
    if name == "apply" then return .method (← actionType ps) else unknownMember t baseTy name
  | .table d =>
    if name == "apply" then return .method (.mk [] [] (.applyResult d))
    else unknownMember t baseTy name
  | .applyResult d =>
    match name with
    | "hit" | "miss" => return .bool
    | "action_run" => return .actionEnum d
    | _ => unknownMember t baseTy name
  | .stack e n => stackMember t base e n name
  | _ => unknownMember t baseTy name

def index (t : Tag) (base : NodeId) : Ty → Check Ty
  | .stack e _ => do
    inheritLeftValue base t.id
    return e
  | .error => return .error
  | other => unknownMember t other "[]"

/-- How a callee is called in messages. -/
def calleeName : Expr → String
  | .path _ n => n
  | .member _ _ n => n
  | _ => "expression"

/-- What the type arguments of a method's receiver bind. -/
def receiverBindings : Expr → Check Bindings
  | .member _ base _ => do
    match ← typeOf? base.id with
    | some (.decl (.externType _ tps _ _) args) =>
      return (tps.zip args).foldl (fun b (n, t) => b.insert n t) []
    | _ => return []
  | _ => return []

/-- Binds type parameters to the types written at the call. -/
def bindWritten (span : Option Span) : List String → List TypeExpr → Bindings → Check Bindings
  | n :: ns, t :: ts, b => do
    let ty ← resolveType t span
    bindWritten span ns ts (b.insert n ty)
  | _, _, b => return b

def unifyAll : List ParamTy → List Ty → Bindings → Bindings
  | p :: ps, t :: ts, b => unifyAll ps ts (p.type.unify t b)
  | _, _, b => b

def arguments (span : Option Span) (b : Bindings) : List ParamTy → List Expr → List Ty → Check Unit
  | p :: ps, a :: as, t :: ts => do
    if p.direction.copiesOut && !t.isError && !(← isLeftValue a.id) then
      report .notLeftValue a.span
    expect (p.type.subst b) t (a.span.or span)
    arguments span b ps as ts
  | _, _, _ => return

/-- The type of a call whose callee and arguments are typed. Type parameters are bound by the
receiver first, then by the written type arguments, then by the arguments. -/
def call (t : Tag) (callee : Expr) (calleeTy : Ty) (typeArgs : List TypeExpr) (args : List Expr)
    (argTys : List Ty) : Check Ty :=
  match calleeTy with
  | .method sig => do
    if sig.arity ≠ args.length then
      report (.argumentCount (calleeName callee) sig.arity args.length) t.span
      return .error
    let fromReceiver ← receiverBindings callee
    let own := sig.typeParams.filter (!fromReceiver.binds ·)
    let written ← bindWritten t.span own typeArgs fromReceiver
    let bindings := unifyAll sig.params argTys written
    arguments t.span bindings sig.params args argTys
    if !bindings.isEmpty then
      modify fun c => { c with types := c.types.setBindings t.id bindings }
    return sig.ret.subst bindings
  | .error => return .error
  | other => do
    report (.notCallable other) (callee.span.or t.span)
    return .error

def typed (t : Tag) (x : Check Ty) : Check Ty := do
  let ty ← x
  setType t.id ty
  return ty

def unaryType : UnaryOp → Ty → Ty
  | .not, _ => .bool
  | _, t => t

/-- An unsized operand takes the type of the other one. -/
def binaryType (op : BinaryOp) (l r : Ty) : Ty :=
  if op.isBoolean then .bool else
    match l with
    | .int => r
    | _ => l

mutual
def expr : Expr → Check Ty
  | .lit t _ ty => typed t (resolveType ty t.span)
  | .bool t _ => typed t (return .bool)
  | .path t n => typed t (path t n)
  | .member t b n => typed t do
    let baseTy ← expr b
    member t b.id baseTy n none
  | .index t b i => typed t do
    let baseTy ← expr b
    let _ ← expr i
    index t b.id baseTy
  | .call t (.member mt b n) ts as => typed t do
    let baseTy ← expr b
    let calleeTy ← typed mt (member mt b.id baseTy n (some as.length))
    let argTys ← exprs as
    call t (.member mt b n) calleeTy ts as argTys
  | .call t c ts as => typed t do
    let calleeTy ← expr c
    let argTys ← exprs as
    call t c calleeTy ts as argTys
  | .construct t ty as => typed t do
    let target ← resolveType ty t.span
    let _ ← exprs as
    instantiate t.id target as.length t.span
    return target
  | .unary t op e => typed t do
    return unaryType op (← expr e)
  | .binary t op l r => typed t do
    let lt ← expr l
    let rt ← expr r
    return binaryType op lt rt
def exprs : List Expr → Check (List Ty)
  | [] => return []
  | e :: es => do
    let t ← expr e
    return t :: (← exprs es)
end

def expr? : Option Expr → Check Unit
  | none => return
  | some e => do
    let _ ← expr e

/-- An entry of a table's action list: an action, or a call that binds the first of its
parameters. -/
def actionEntry : Expr → Check Unit
  | .call t c _ as => do
    let calleeTy ← expr c
    let _ ← exprs as
    match calleeTy with
    | .method sig =>
      if sig.arity < as.length then
        report (.argumentCount (calleeName c) sig.arity as.length) t.span
    | .error => pure ()
    | other => report (.notCallable other) c.span
    setType t.id .void
  | e => do
    let _ ← expr e

def actionEntries : List Expr → Check Unit
  | [] => return
  | e :: es => do
    actionEntry e
    actionEntries es

def keys : List Key → Check Unit
  | [] => return
  | k :: ks => do
    let _ ← expr k.expr
    keys ks

def condition (t : Tag) (c : Expr) : Check Unit := do
  let ty ← expr c
  if !ty.isBool && !ty.isError then
    report (.nonBooleanCondition ty) (c.span.or t.span)

def assign (t : Tag) (l r : Expr) : Check Unit := do
  let target ← expr l
  let value ← expr r
  if !target.isError && !(← isLeftValue l.id) then
    report .notLeftValue (l.span.or t.span)
  expect target value (r.span.or t.span)

/-- The declared type of a variable or constant, against its value. -/
def initialised (h : Head) (type : TypeExpr) (value : Option Expr) : Check Unit := do
  let declared ← resolveType type h.span
  match value with
  | some e =>
    let found ← expr e
    expect declared found (e.span.or h.span)
  | none => pure ()
  setType h.id declared

def fieldTypes (span : Option Span) : List Field → Check Unit
  | [] => return
  | f :: fs => do
    let _ ← resolveType f.type span
    fieldTypes span fs

def externMethods (typeParams : List String) : List Method → Check Unit
  | [] => return
  | m :: ms => do
    let _ ← externMethodType typeParams m
    externMethods typeParams ms

mutual
def stmt : Stmt → Check Unit
  | .block _ b => block b
  | .assign t l r => assign t l r
  | .call _ e => do
    let _ ← expr e
  | .ifThen t c a none => do
    condition t c
    stmt a
  | .ifThen t c a (some b) => do
    condition t c
    stmt a
    stmt b
  | .switch _ e cs => do
    let _ ← expr e
    cases cs
  | .decl _ d => do
    decl d
    defineDecl d
  | .ret _ e => expr? e
  | .exit _ => return
  | .empty _ => return
def block : Block → Check Unit
  | .mk _ ss => inFrame (stmts ss)
def stmts : List Stmt → Check Unit
  | [] => return
  | s :: ss => do
    stmt s
    stmts ss
def cases : List Case → Check Unit
  | [] => return
  | .run _ b :: cs => do
    block b
    cases cs
  | .fallThrough _ :: cs => cases cs
def decl : Decl → Check Unit
  | .header h fs => fieldTypes h.span fs
  | .struct h fs => fieldTypes h.span fs
  | .externType _ tps cs ms => externMethods tps (cs ++ ms)
  | .externFn h m => do
    let s ← methodType m
    setType h.id (.method s)
  | .action h ps (.mk _ ss) => do
    let s ← actionType ps
    setType h.id (.method s)
    inFrame do
      defineParams ps
      stmts ss
  | .table h ks as d => do
    keys ks
    actionEntries as
    actionEntries d.toList
    setType h.id (.table (.table h ks as d))
  | .control _ tps ps cps ls b =>
    withTypeParams tps do
      inFrame do
        defineParams cps
        defineParams ps
        locals ls
        block b
  | .package _ tps ps =>
    withTypeParams tps do
      let _ ← paramTypes ps
  | .inst h ty as => do
    let t ← resolveType ty h.span
    let _ ← exprs as
    instantiate h.id t as.length h.span
    setType h.id t
  | .var h ty e => initialised h ty e
  | .const h ty e => initialised h ty (some e)
/-- A local is in sight only after its own declaration. -/
def locals : List Decl → Check Unit
  | [] => return
  | d :: ds => do
    decl d
    defineDecl d
    locals ds
end

def defineAll : List Decl → Check Unit
  | [] => return
  | d :: ds => do
    defineDecl d
    defineAll ds

def decls : List Decl → Check Unit
  | [] => return
  | d :: ds => do
    decl d
    decls ds

/-- Toplevel names are in sight everywhere. -/
def program (p : Program) : Check Unit := do
  defineAll p.decls
  decls p.decls

end Check

/-- Resolves every name and types every expression. -/
def Program.check (p : Program) : Checked :=
  let c := ((Check.program p).run ⟨.empty, .empty, .empty, []⟩).2
  ⟨c.refs, c.types, c.errors⟩

def Checked.diagnostics (c : Checked) : List Diagnostic := c.errors.map (·.toDiagnostic)

end MatchAction
