import MatchAction.Call
import MatchAction.Inline.Splice
import MatchAction.Inline.WorkList

/-!
Inlining of controls. An instance among the locals of a caller gives way to a variable for each
parameter of the callee and a renamed copy of each of its locals; every application of the instance
becomes a block that copies the arguments in, runs a renamed copy of the body and copies results
back. Constructor parameters are replaced by the instance's arguments. A callee whose body returns
stays an instance.
-/

namespace MatchAction

/-- How copies are named and work is scheduled. -/
inductive InlineStyle
  /-- One round, callees first; names start with the name of the instance. -/
  | simple
  /-- Rounds of callees that call nothing themselves; names are kept where they are free. -/
  | general

namespace InlineStyle

def localName : InlineStyle → String → String → String
  | .simple, inst, name => inst ++ "_" ++ name
  | .general, _, name => name

def multiRound : InlineStyle → Bool
  | .simple => false
  | .general => true

end InlineStyle

namespace ControlInlining

/-- The instances of user controls among the locals of a control. -/
def edgesOf (refs : Refs) (sources : SourceMap) (caller : Decl) : List (InlineEdge × Decl) :=
  match caller with
  | .control _ _ _ _ ls _ => ls.filterMap fun l =>
    match l, refs.decl? l.id with
    | .inst .., some callee =>
      if callee.isControl && !sources.isLibrary callee.span then
        some (⟨caller.id, callee.id, l.id⟩, callee)
      else none
    | _, _ => none
  | _ => []

def namesOf (caller : Decl) (found : List (InlineEdge × Decl)) : List (NodeId × String) :=
  (caller.id, caller.name) :: found.map fun (_, callee) => (callee.id, callee.name)

/-- Every instance of a user control among the locals of a toplevel control. -/
def discover (refs : Refs) (sources : SourceMap) (p : Program) :
    Except Dependency.Cycle WorkList :=
  let found := (p.decls.filter (·.isControl)).map fun d => (d, edgesOf refs sources d)
  let names := (found.flatMap fun (d, es) => namesOf d es).reverse
  WorkList.ofEdges ⟨names⟩ (found.flatMap fun (_, es) => es.map (·.1))

/-- An instance ready to be spliced into its caller. -/
structure Prepared where
  /-- Parameters and the variables that hold them. -/
  params : List (Param × String)
  /-- What takes the place of the instance. -/
  locals : List Decl
  /-- The renamed body, to be copied at every application. -/
  body : Block

/-- Constructor parameters stand for the arguments of the instance. -/
def substitute : List Param → List Expr → Renaming → Renaming
  | p :: ps, a :: as, r => substitute ps as (r.replace p.id a)
  | _, _, r => r

def prepare (style : InlineStyle) (c : Checked) (inst : Head) (args : List Expr) (callee : Decl) :
    Editing Names (Option Prepared) := do
  match callee with
  | .control _ _ ps cps ls b =>
    if b.hasReturn then return none
    let r ← renameFresh (style.localName inst.name)
      (ps.map (fun p => (p.id, p.name)) ++ ls.map (fun d => (d.id, d.name))
        ++ b.declared.map (fun d => (d.id, d.name)))
      (substitute cps args .empty)
    let params := renamedParams r ps
    let locals ← r.decls c.refs c.types ls
    let body ← r.block c.refs c.types b
    let vars ← params.mapM fun (p, name) => return Decl.var (← Head.fresh name none) p.type none
    return some ⟨params, vars ++ (← Decl.copies locals), body⟩
  | _ => return none

/-- The instance at one of the edges, prepared. -/
def prepareLocal (style : InlineStyle) (c : Checked) (p : Program) (edges : List InlineEdge)
    (l : Decl) : Editing Names (Option Prepared) :=
  let args := match l with
    | .inst _ _ args => args
    | _ => []
  match (edges.find? (·.site == l.id)).bind fun e => p.declOf? e.callee with
  | some callee => prepare style c l.head args callee
  | none => pure none

/-- The locals of a caller with its instances prepared. -/
def locals (style : InlineStyle) (c : Checked) (p : Program) (edges : List InlineEdge) :
    List Decl → Editing Names (List Decl × List (NodeId × Prepared))
  | [] => return ([], [])
  | l :: ls => do
    let prepared ← prepareLocal style c p edges l
    let (ds, found) ← locals style c p edges ls
    match prepared with
    | some q => return (q.locals ++ ds, (l.id, q) :: found)
    | none => return (l :: ds, found)

/-- `parameter = argument;` for every parameter that takes a value. -/
def copyIns : List (Param × String) → List Expr → Supply (List Stmt)
  | (p, name) :: ps, a :: as => do
    if p.direction.copiesIn then
      let target := Expr.path (← Tag.fresh none) name
      return .assign (← Tag.fresh none) target a :: (← copyIns ps as)
    else copyIns ps as
  | _, _ => return []

/-- The block that takes the place of an application. -/
def splice (q : Prepared) (span : Option Span) (args : List Expr) : Supply Stmt := do
  let copyOut ← copyOuts q.params args
  let copyIn ← copyIns q.params args
  let body ← copyOutBeforeExit copyOut (← q.body.copy)
  return .block (← Tag.fresh span) (.mk (← freshId) (copyIn ++ body.stmts ++ copyOut))

def splicer (c : Checked) (prepared : List (NodeId × Prepared)) : Editor Unit where
  leaveStmt s :=
    match s with
    | .call t e =>
      match Call.kind? c.refs c.types e, e with
      | some (.apply (.decl inst) _), .call _ _ _ args =>
        match prepared.lookup inst.id with
        | some q => return [.put (← splice q t.span args)]
        | none => return [.keep]
      | _, _ => return [.keep]
    | _ => return [.keep]

/-- Inlines the instances at the given edges into their caller. -/
def into (style : InlineStyle) (caller : NodeId) (edges : List InlineEdge) (p : Program) :
    Inlining (Edit Program) := do
  match p.declOf? caller with
  | some (.control h tps ps cps ls b) =>
    let c ← recheck p
    if !c.errors.isEmpty then return .keep
    let ((ls', prepared), _) ← (locals style c p edges ls).run (.ofProgram p)
    if prepared.isEmpty then return .keep
    let (x, _) ← ((splicer c prepared).block b).run ()
    p.replaceDecl (.control h tps ps cps ls' (x.get b))
  | _ => return .keep

/-- One round over the callers of a work list. -/
def round (style : InlineStyle) (w : WorkList) : List NodeId → Program → Inlining (Edit Program)
  | [], _ => return .keep
  | caller :: callers, p => do
    if (← get).hasErrors then return .keep
    let edges := (w.edgesFrom caller).filter fun e =>
      !style.multiRound || !WorkList.isCaller w.edges e.callee
    let x ← if edges.isEmpty then pure .keep else into style caller edges p
    return x.andThen (← round style w callers (x.get p))

/-- Rounds until there is nothing left to do, nothing changes, or something went wrong. -/
def rounds (style : InlineStyle) (sources : SourceMap) :
    Nat → WorkList → Program → ExceptT Dependency.Cycle Inlining (Edit Program)
  | 0, _, _ => return .keep
  | fuel + 1, w, p => do
    if w.isEmpty then return .keep
    let x ← round style w w.callers p
    if !style.multiRound || (← getThe Diagnostics).hasErrors || x.isKeep then return x
    let p' := x.get p
    let c ← recheck p'
    if (← getThe Diagnostics).hasErrors then return x
    let w' ← discover c.refs sources p'
    return x.andThen (← rounds style sources fuel w' p')

end ControlInlining

/-- Inlines what a work list says. A round of leaves takes away at least one instance, so there are
far fewer rounds than the square of the number of declarations. -/
def Program.inlineControls (style : InlineStyle) (sources : SourceMap) (w : WorkList)
    (p : Program) : ExceptT Dependency.Cycle Inlining (Edit Program) :=
  ControlInlining.rounds style sources (Nat.pow (p.allDecls.length + 1) 2) w p

end MatchAction
