import MatchAction.Call
import MatchAction.Inline.Splice
import MatchAction.Inline.WorkList

namespace MatchAction

namespace ActionInlining

structure Finder where
  /-- Actions and controls around the place reached, innermost first. -/
  callers : List NodeId
  /-- Names of actions and controls, with those around them in front. -/
  names : NodeMap String
  /-- Calls found, newest first. -/
  edges : List InlineEdge
  /-- The first call that could not be classified. -/
  error : Option ClassificationError

def Finder.enter (f : Finder) (d : Decl) : Finder :=
  let name := match f.callers.head?.bind f.names.get? with
    | some parent => parent ++ "." ++ d.name
    | none => d.name
  { f with callers := d.id :: f.callers, names := f.names.insert d.id name }

def Finder.call (refs : Refs) (types : Types) (sources : SourceMap) (f : Finder)
    (caller site : NodeId) (e : Expr) : Finder :=
  match Call.classify refs types e with
  | .ok c =>
    match c.kind with
    | .action a =>
      if sources.isLibrary a.span then f
      else { f with edges := ⟨caller, a.id, site⟩ :: f.edges }
    | _ => f
  | .error err => { f with error := f.error.or (some err) }

def Finder.step (refs : Refs) (types : Types) (sources : SourceMap) (f : Finder) : Visit → Finder
  | .enter d => if d.isAction || d.isControl then f.enter d else f
  | .leave d =>
    if d.isAction || d.isControl then { f with callers := f.callers.tail } else f
  | .stmt (.call t e) =>
    match f.callers with
    | caller :: _ => f.call refs types sources caller t.id e
    | [] => f
  | _ => f

/-- Every call statement of a user action. -/
def find (refs : Refs) (types : Types) (sources : SourceMap) (p : Program) : Finder :=
  p.visits.foldl (Finder.step refs types sources) ⟨[], .empty, [], none⟩

/-- Variables for the parameters, with the arguments that flow in. -/
def paramDecls : List (Param × String) → List Expr → Supply (List Stmt)
  | (p, name) :: ps, a :: as => do
    let init := if p.direction.copiesIn then some a else none
    let s ← Stmt.declare (.var (← Head.fresh name p.span) p.type init)
    return s :: (← paramDecls ps as)
  | _, _ => return []

/-- The block that takes the place of a call. -/
def splice (c : Checked) (span : Option Span) (args : List Expr) (ps : List Param) (b : Block) :
    Editing Names Stmt := do
  let r ← renameFresh id
    (ps.map (fun p => (p.id, p.name)) ++ b.declared.map (fun d => (d.id, d.name))) .empty
  let params := renamedParams r ps
  let body ← (← r.block c.refs c.types b).copy
  let copyOut ← copyOuts params args
  let front ← paramDecls params args
  let body ← copyOutBeforeExit copyOut body
  return .block (← Tag.fresh span) (.mk (← freshId) (front ++ body.stmts ++ copyOut))

/-- A call that binds every parameter of an action that does not return. -/
def spliceable : Stmt → Decl → Bool
  | .call _ (.call _ _ _ args), .action _ ps b => args.length == ps.length && !b.hasReturn
  | _, _ => false

def splicer (c : Checked) (p : Program) (caller : NodeId) (sites : List InlineEdge) :
    Editor Names where
  -- Actions inside are callers of their own.
  enterDecl d := return if d.id ≠ caller && d.isAction then .prune else .descend
  leaveStmt s := do
    match (sites.find? (·.site == s.id)).bind fun e => p.declOf? e.callee with
    | some callee =>
      if spliceable s callee then
        match s, callee with
        | .call t (.call _ _ _ args), .action _ ps b => return [.put (← splice c t.span args ps b)]
        | _, _ => return [.keep]
      else return [.keep]
    | none => return [.keep]

/-- Inlines the calls at the given edges into their caller. -/
def into (caller : NodeId) (sites : List InlineEdge) (p : Program) : Inlining (Edit Program) := do
  match p.declOf? caller with
  | some d =>
    let c ← recheck p
    if !c.errors.isEmpty then return .keep
    let (x, _) ← ((splicer c p caller sites).decl d).run (.ofProgram p)
    match x with
    | .put d' :: _ => p.replaceDecl d'
    | _ => return .keep
  | none => return .keep

def callers (w : WorkList) : List NodeId → Program → Inlining (Edit Program)
  | [], _ => return .keep
  | caller :: rest, p => do
    if (← get).hasErrors then return .keep
    let x ← into caller (w.edgesFrom caller) p
    return x.andThen (← callers w rest (x.get p))

end ActionInlining

def Program.inlineActions (w : WorkList) (p : Program) : Inlining (Edit Program) :=
  ActionInlining.callers w w.callers p

end MatchAction
