import MatchAction.Edit.Editor

namespace MatchAction

namespace Hoist

structure State where
  /-- Names in sight at the new place. -/
  taken : List String
  moved : List Decl

/-- What is left in place of a moved variable. -/
def leftover (t : Tag) (h : Head) : Option Expr → Supply (Splice Stmt)
  | some e => do
    let target := Expr.path (← Tag.fresh h.span) h.name
    return [.put (.assign (← Tag.fresh t.span) target e)]
  | none => return []

def editor : Editor State where
  leaveStmt s :=
    match s with
    | .decl t (.var h ty init) => do
      let st ← get
      if st.taken.contains h.name then return [.keep]
      set (State.mk (h.name :: st.taken) (st.moved ++ [.var h ty none]))
      leftover t h init
    | _ => return [.keep]

/-- The body without its movable variables, and those variables. -/
def block (taken : List String) (b : Block) : Supply (Edit Block × List Decl) := do
  let (x, st) ← (editor.block b).run ⟨taken, []⟩
  return (x, st.moved)

def action (taken : List String) (h : Head) (ps : List Param) (b : Block) :
    Supply (Edit Decl) := do
  let (x, moved) ← block (ps.map (·.name) ++ taken) b
  if moved.isEmpty then return .keep
  let b' := x.get b
  let front ← moved.mapM fun d => Stmt.declare d
  return .put (.action h ps (b'.withStmts (front ++ b'.stmts)))

/-- The actions among the locals of a control. -/
def locals (taken : List String) : List Decl → Supply (Edit (List Decl))
  | [] => return .keep
  | d :: ds => do
    let x ← match d with
      | .action h ps b => action taken h ps b
      | _ => pure .keep
    return x.map₂ (· :: ·) d ds (← locals taken ds)

def decl (toplevel : List String) : Decl → Supply (Edit Decl)
  | .action h ps b => action toplevel h ps b
  | .control h tps ps cps ls b => do
    let taken := ls.map (·.name) ++ (ps ++ cps).map (·.name) ++ toplevel
    let xs ← locals taken ls
    let (x, moved) ← block taken b
    if xs.isKeep && moved.isEmpty then return .keep
    return .put (.control h tps ps cps (xs.get ls ++ moved) (x.get b))
  | _ => return .keep

def decls (toplevel : List String) : List Decl → Supply (Edit (List Decl))
  | [] => return .keep
  | d :: ds => do
    let x ← decl toplevel d
    return x.map₂ (· :: ·) d ds (← decls toplevel ds)

end Hoist

def Program.hoistVariables (p : Program) : Supply (Edit Program) :=
  return (← Hoist.decls (p.decls.map (·.name)) p.decls).map .mk

end MatchAction
