import MatchAction.Call
import MatchAction.Edit.Editor
import MatchAction.Tables.Insertions
import MatchAction.Tree.Names

namespace MatchAction

/-- Which key expressions get a temporary. -/
abbrev KeyPolicy := Refs → Types → Expr → Bool

/-- All but places that can be written to and validity tests. -/
def KeyPolicy.nonLeftValue : KeyPolicy := fun refs types e =>
  !types.isLeftValue e.id &&
    match Call.kind? refs types e with
    | some (.builtIn .isValid _) => false
    | _ => true

namespace Keys

structure State where
  names : Names
  insertions : Insertions
  /-- The table whose key is visited. -/
  table : Option NodeId

/-- The written type of a temporary; an unsized integer has no place to live in. -/
def storageType? (types : Types) (e : Expr) : Option TypeExpr :=
  match types.get? e.id with
  | some .int => none
  | some t => t.toTypeExpr?
  | none => none

def newName (base : String) : Editing State String := do
  let st ← get
  let name := st.names.pick base
  set { st with names := st.names.reserve name }
  return name

/-- A path to a new temporary that holds the key expression. -/
def temporary (base : String) (table : NodeId) (e : Expr) (ty : TypeExpr) : Editing State Expr := do
  let name ← newName base
  let d := Decl.var (← Head.fresh name e.span) ty none
  let target := Expr.path (← Tag.fresh e.span) name
  let set := Stmt.assign (← Tag.fresh e.span) target e
  modify fun st => { st with insertions := st.insertions.record table d set }
  return .path (← Tag.fresh e.span) name

/-- The tables applied in an expression, each once, in order of appearance. -/
def applied (types : Types) (e : Expr) : List NodeId :=
  (e.walk.filterMap fun
    | .call _ (.member _ receiver "apply") _ _ =>
      match types.get? receiver.id with
      | some (.table d) => some d.id
      | _ => none
    | _ => none).eraseDups

def before (owners : List NodeId) : Editing State (List Stmt) := do
  let st ← get
  let (ss, insertions) ← (Insertions.before owners).run st.insertions
  set { st with insertions := insertions }
  return ss

def editor (policy : KeyPolicy) (refs : Refs) (types : Types) (base : String) :
    Editor State where
  enterDecl d := do
    if d.isTable then modify fun st => { st with table := some d.id }
    return .descend
  leaveKey k := do
    match (← get).table, storageType? types k.expr with
    | some table, some ty =>
      if policy refs types k.expr then
        return { k.kept with expr := .put (← temporary base table k.expr ty) }
      else return k.kept
    | _, _ => return k.kept
  leaveDecl d := do
    if !d.isTable then return [.keep]
    let st ← get
    let (ds, insertions) := st.insertions.flush d.id
    set { st with table := none, insertions := insertions }
    return ds.map .put ++ [.keep]
  leaveStmt s := do
    let st ← get
    let owners := ((s.guard?.map (applied types)).getD []).filter st.insertions.hasStmts
    return (← before owners).map .put ++ [.keep]

end Keys

def Program.simplifyKeys (policy : KeyPolicy) (refs : Refs) (types : Types) (base : String)
    (p : Program) : Supply (Edit Program) :=
  (·.1) <$> ((Keys.editor policy refs types base).program p).run ⟨.ofProgram p, .empty, none⟩

end MatchAction
