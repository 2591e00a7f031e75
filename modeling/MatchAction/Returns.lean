import MatchAction.Edit.Basic
import MatchAction.Tree.Names

namespace MatchAction

namespace Returns

/-- `target = value;` for the flag. -/
def setFlag (flag : String) (value : Bool) : Supply (Expr × Expr) :=
  return (.path (← Tag.fresh none) flag, .bool (← Tag.fresh none) value)

/-- Runs the statements only while the flag is not set. -/
def unlessSet (flag : String) (ss : List Stmt) : Supply Stmt := do
  let condition := Expr.unary (← Tag.fresh none) .not (.path (← Tag.fresh none) flag)
  let body := Stmt.block (← Tag.fresh none) (.mk (← freshId) ss)
  return .ifThen (← Tag.fresh none) condition body none

def isReturn : Stmt → Bool
  | .ret .. => true
  | _ => false

mutual
def stmt (flag : String) : Stmt → Supply Stmt
  | .ret t _ => do
    let (l, r) ← setFlag flag true
    return .assign t l r
  | .block t b => return .block t (← block flag b)
  | .ifThen t c a none => return .ifThen t c (← stmt flag a) none
  | .ifThen t c a (some b) => return .ifThen t c (← stmt flag a) (some (← stmt flag b))
  | .switch t e cs => return .switch t e (← cases flag cs)
  | s => return s
def block (flag : String) : Block → Supply Block
  | .mk i ss => return .mk i (← stmts flag ss)
def stmts (flag : String) : List Stmt → Supply (List Stmt)
  | [] => return []
  | s :: ss => do
    if !s.hasReturn then return s :: (← stmts flag ss)
    let s' ← stmt flag s
    if ss.isEmpty || isReturn s then return [s']
    return [s', ← unlessSet flag (← stmts flag ss)]
def cases (flag : String) : List Case → Supply (List Case)
  | [] => return []
  | .run l b :: cs => return .run l (← block flag b) :: (← cases flag cs)
  | .fallThrough l :: cs => return .fallThrough l :: (← cases flag cs)
end

abbrev Naming := StateT Names Supply

def action (h : Head) (ps : List Param) (b : Block) : Naming (Edit Decl) := do
  if !b.hasReturn then return .keep
  let flag ← Names.new "hasReturned"
  let b' ← block flag b
  let cleared := Expr.bool (← Tag.fresh none) false
  let front ← Stmt.declare (.var (← Head.fresh flag none) .bool (some cleared))
  return .put (.action h ps (b'.withStmts (front :: b'.stmts)))

/-- The actions among the locals of a control. -/
def locals : List Decl → Naming (Edit (List Decl))
  | [] => return .keep
  | d :: ds => do
    let x ← match d with
      | .action h ps b => action h ps b
      | _ => pure .keep
    return x.map₂ (· :: ·) d ds (← locals ds)

def decl : Decl → Naming (Edit Decl)
  | .action h ps b => action h ps b
  | .control h tps ps cps ls b => do
    let xs ← locals ls
    if !b.hasReturn then
      return xs.map (.control h tps ps cps · b)
    let flag ← Names.new "hasReturned"
    let b' ← block flag b
    let (l, r) ← setFlag flag false
    let front := Stmt.assign (← Tag.fresh none) l r
    let local' := Decl.var (← Head.fresh flag none) .bool none
    return .put (.control h tps ps cps (xs.get ls ++ [local'])
      (b'.withStmts (front :: b'.stmts)))
  | _ => return .keep

def decls : List Decl → Naming (Edit (List Decl))
  | [] => return .keep
  | d :: ds => do
    let x ← decl d
    return x.map₂ (· :: ·) d ds (← decls ds)

end Returns

def Program.removeReturns (p : Program) : Supply (Edit Program) := do
  let (x, _) ← (Returns.decls p.decls).run (.ofProgram p)
  return x.map .mk

end MatchAction
