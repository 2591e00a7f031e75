import MatchAction.Call
import MatchAction.Edit.Editor
import MatchAction.Tree.Copy
import MatchAction.Tree.Names

/-!
Bodies of controls as sequences of table applications. First every run of statements that do work
becomes a new action, called in its place; then every call of an action becomes the application of a
table that runs nothing else. Controls of libraries are left alone.
-/

namespace MatchAction

namespace Actions

structure State where
  names : Names
  /-- Locals to be added to the control. -/
  added : List Decl
  /-- The first call that could not be classified. -/
  error : Option ClassificationError

def fail (e : ClassificationError) : Editing State Unit :=
  modify fun st => { st with error := st.error.or (some e) }

def newName (base : String) : Editing State String := do
  let st ← get
  let name := st.names.pick base
  set { st with names := st.names.reserve name }
  return name

def add (d : Decl) : Editing State Unit := modify fun st => { st with added := st.added ++ [d] }

/-- The body of a control under an editor, with the locals it adds; nothing if it adds none. -/
def body (w : Editor State) (h : Head) (tps : List String) (ps cps : List Param)
    (ls : List Decl) (b : Block) :
    StateT Names (ExceptT ClassificationError Supply) (Edit Decl) := do
  let (x, st) ← (w.block b).run ⟨← get, [], none⟩
  set st.names
  if let some e := st.error then throw e
  if st.added.isEmpty then return .keep
  return .put (.control h tps ps cps (ls ++ st.added) (x.get b))

/-- Edits the bodies of controls outside libraries that `wanted` picks. -/
def decls (w : Editor State) (sources : SourceMap) (wanted : Block → Bool) :
    List Decl → StateT Names (ExceptT ClassificationError Supply) (Edit (List Decl))
  | [] => return .keep
  | d :: ds => do
    let x ← match d with
      | .control h tps ps cps ls b =>
        if !sources.isLibrary h.span && wanted b then body w h tps ps cps ls b else pure .keep
      | _ => pure .keep
    return x.map₂ (· :: ·) d ds (← decls w sources wanted ds)

def program (w : Editor State) (sources : SourceMap) (wanted : Block → Bool) (p : Program) :
    ExceptT ClassificationError Supply (Edit Program) := do
  let (x, _) ← (decls w sources wanted p.decls).run (.ofProgram p)
  return x.map .mk

/-! Runs of statements. -/

/-- `name();` at a position. -/
def callOf (name : String) (span : Option Span) : Supply Stmt := do
  let callee := Expr.path (← Tag.fresh span) name
  return .call (← Tag.fresh span) (.call (← Tag.fresh span) callee [] [])

/-- Whether a table is applied somewhere in an expression. -/
def appliesTable (refs : Refs) (types : Types) (e : Expr) : Bool :=
  e.walk.any fun e =>
    match Call.kind? refs types e with
    | some (.apply _ d) => d.isTable
    | _ => false

/-- Whether a statement does work that belongs into an action. -/
def works (refs : Refs) (types : Types) : Stmt → Editing State Bool
  | .assign _ l r => return !(appliesTable refs types l || appliesTable refs types r)
  | .call _ e =>
    match Call.classify refs types e with
    | .ok c =>
      match c.kind with
      | .apply .. | .action .. => return false
      | _ => return true
    | .error err => do
      fail err
      return false
  | _ => return false

/-- A new action of the given statements, and its call; `first` is where the run starts. -/
def synthesize (first : Stmt) (run : List Stmt) : Editing State Stmt := do
  let name ← newName "act"
  add (.action (← Head.fresh name first.span) [] (.mk (← freshId) run))
  callOf name first.span

/-- Ends a run, if there is one; `run` is the run so far, in order. -/
def close : List Stmt → Editing State (List Stmt)
  | [] => return []
  | s :: ss => return [← synthesize s (s :: ss)]

/-- The statements of a block with calls in place of runs, and whether there was a run. -/
def regroup (refs : Refs) (types : Types) :
    List Stmt → List Stmt → Editing State (List Stmt × Bool)
  | run, [] => return (← close run, !run.isEmpty)
  | run, s :: ss => do
    if ← works refs types s then
      regroup refs types (run ++ [s]) ss
    else
      let front ← close run
      let (rest, changed) ← regroup refs types [] ss
      return (front ++ s :: rest, changed || !run.isEmpty)

/-- A lone statement in a branch. -/
def wrapBranch (refs : Refs) (types : Types) (s : Stmt) : Editing State (Edit Stmt) := do
  if ← works refs types s then return .put (← synthesize s [s]) else return .keep

def synthesis (refs : Refs) (types : Types) : Editor State where
  leaveStmt s :=
    match s with
    | .ifThen t c a none => do
      let x ← wrapBranch refs types a
      return [x.map (.ifThen t c · none)]
    | .ifThen t c a (some b) => do
      let x ← wrapBranch refs types a
      let y ← wrapBranch refs types b
      return [x.map₂ (fun a b => .ifThen t c a (some b)) a b y]
    | _ => return [.keep]
  leaveBlock b := do
    let (ss, changed) ← regroup refs types [] b.stmts
    if changed then return .put (b.withStmts ss) else return .keep

/-- The parameters in front that a call fixes; those without direction are for the control plane. -/
def boundCount (ps : List Param) : Nat := (ps.takeWhile (·.direction != .none)).length

/-- The entry of the action list. -/
def entry (callee : Expr) (ps : List Param) (args : List Expr) : Supply Expr := do
  match args.take (boundCount ps) with
  | [] => callee.copy
  | as => return .call (← Tag.fresh none) (← callee.copy) [] (← Expr.copies as)

/-- `name.apply()` at a position. -/
def applyOf (name : String) (span : Option Span) : Supply Expr := do
  let table := Expr.path (← Tag.fresh span) name
  return .call (← Tag.fresh span) (.member (← Tag.fresh span) table "apply") [] []

def tabling (refs : Refs) (types : Types) : Editor State where
  leaveStmt s :=
    match s with
    | .call t e =>
      match Call.classify refs types e with
      | .error err => do
        fail err
        return [.keep]
      | .ok c =>
        match c.kind, e with
        | .action (.action h ps _), .call _ callee _ args => do
          let entry ← entry callee ps args
          let name ← newName ("tbl_" ++ h.name)
          add (.table (← Head.fresh name t.span) [] [entry] (some e))
          return [.put (.call t (← applyOf name t.span))]
        | _, _ => return [.keep]
    | _ => return [.keep]

end Actions

/-- Moves work out of the bodies of controls into new actions. A body that declares something is
left alone: what moves could lose sight of it. -/
def Program.synthesizeActions (refs : Refs) (types : Types) (sources : SourceMap) (p : Program) :
    ExceptT ClassificationError Supply (Edit Program) :=
  Actions.program (Actions.synthesis refs types) sources (·.declared.isEmpty) p

/-- Moves calls of actions in the bodies of controls into new tables. -/
def Program.tableActions (refs : Refs) (types : Types) (sources : SourceMap) (p : Program) :
    ExceptT ClassificationError Supply (Edit Program) :=
  Actions.program (Actions.tabling refs types) sources (fun _ => true) p

end MatchAction
