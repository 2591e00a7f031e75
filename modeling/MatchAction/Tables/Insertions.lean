import MatchAction.Tree.Copy
import MatchAction.Typing.Tables

namespace MatchAction

/-- What one owner needs, in the order it was recorded. -/
structure Insertion where
  decls : List Decl
  stmts : List Stmt

structure Insertions where
  pending : NodeMap Insertion
  /-- Owners whose statements have been placed. -/
  placed : List NodeId

namespace Insertions

def empty : Insertions := ⟨.empty, []⟩

def isEmpty (i : Insertions) : Bool := i.pending.entries.isEmpty

def of (i : Insertions) (owner : NodeId) : Insertion := (i.pending.get? owner).getD ⟨[], []⟩

def record (i : Insertions) (owner : NodeId) (d : Decl) (s : Stmt) : Insertions :=
  let entry := i.of owner
  { i with pending := i.pending.insert owner ⟨entry.decls ++ [d], entry.stmts ++ [s]⟩ }

/-- The declarations recorded since the last time. -/
def flush (i : Insertions) (owner : NodeId) : List Decl × Insertions :=
  match i.pending.get? owner with
  | some entry => (entry.decls, { i with pending := i.pending.insert owner ⟨[], entry.stmts⟩ })
  | none => ([], i)

def hasStmts (i : Insertions) (owner : NodeId) : Bool := !(i.of owner).stmts.isEmpty

/-- What goes before a statement that uses the owners. -/
def before : List NodeId → StateT Insertions Supply (List Stmt)
  | [] => return []
  | owner :: owners => do
    let i ← get
    let stmts := (i.of owner).stmts
    let here ← if i.placed.contains owner then Stmt.copies stmts else pure stmts
    if (i.pending.get? owner).isSome then
      set { i with placed := owner :: i.placed }
    return here ++ (← before owners)

end Insertions

end MatchAction
