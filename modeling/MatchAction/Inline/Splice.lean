import MatchAction.Scoping.Renaming
import MatchAction.Tree.Names
import MatchAction.Typing.Check

namespace MatchAction

/-- Inlining reports what goes wrong in the programs it makes on the way. -/
abbrev Inlining := StateT Diagnostics Supply

/-- Checks a program that is being worked on. It was right before, so what is wrong now came with
the inlining. -/
def recheck (p : Program) : Inlining Checked := do
  let c := p.check
  modify (·.extend c.diagnostics)
  return c

/-- New names for what is declared in a callee, made from the old ones. -/
def renameFresh (base : String → String) :
    List (NodeId × String) → Renaming → Editing Names Renaming
  | [], r => return r
  | (id, name) :: rest, r => do
    let new ← Names.new (base name)
    renameFresh base rest (r.rename id new)

/-- Parameters with the names a renaming gives them. -/
def renamedParams (r : Renaming) (ps : List Param) : List (Param × String) :=
  ps.map fun p => (p, (r.names.get? p.id).getD p.name)

/-- Puts a declaration in the place of the one with its identity. -/
def replacer (d : Decl) : Editor Unit where
  enterDecl old := return if old.id = d.id then .swap d else .descend

def Program.replaceDecl (p : Program) (d : Decl) : Supply (Edit Program) :=
  (·.1) <$> ((replacer d).program p).run ()

/-- Copies of the given statements before every `exit`. -/
def exitGuard (copyOut : List Stmt) : Editor Unit where
  leaveStmt s :=
    match s with
    | .exit _ => return (← Stmt.copies copyOut).map .put ++ [.keep]
    | _ => return [.keep]

/-- A callee that leaves early writes its results back first. -/
def copyOutBeforeExit (copyOut : List Stmt) (b : Block) : Supply Block := do
  if copyOut.isEmpty then return b
  let (x, _) ← ((exitGuard copyOut).block b).run ()
  return x.get b

/-- `argument = parameter;` for every parameter that flows back. -/
def copyOuts : List (Param × String) → List Expr → Supply (List Stmt)
  | (p, name) :: ps, a :: as => do
    if p.direction.copiesOut then
      let target ← a.copy
      let value := Expr.path (← Tag.fresh none) name
      return .assign (← Tag.fresh none) target value :: (← copyOuts ps as)
    else copyOuts ps as
  | _, _ => return []

end MatchAction
