import MatchAction.Edit.Editor
import MatchAction.Tree.Copy
import MatchAction.Typing.Tables

/-!
Renaming and substitution. Uses are found by what they refer to and not by how they are spelled, so
shadowing cannot lead a renaming astray.
-/

namespace MatchAction

structure Renaming where
  /-- New names of declarations and parameters. -/
  names : NodeMap String
  /-- What uses of declarations and parameters are replaced by. -/
  replacements : NodeMap Expr

namespace Renaming

def empty : Renaming := ⟨.empty, .empty⟩

def rename (r : Renaming) (id : NodeId) (name : String) : Renaming :=
  { r with names := r.names.insert id name }

def replace (r : Renaming) (id : NodeId) (e : Expr) : Renaming :=
  { r with replacements := r.replacements.insert id e }

def isEmpty (r : Renaming) : Bool := r.names.entries.isEmpty && r.replacements.entries.isEmpty

/-- The path an entry of an action list starts with. -/
def entryPath : Expr → Expr
  | .call _ c _ _ => c
  | e => e

/-- The new label of each renamed action of a table. -/
def labels (r : Renaming) (refs : Refs) (actions : List Expr) : List (String × String) :=
  actions.foldl (fun found entry =>
    match entryPath entry with
    | .path t old =>
      match (refs.get? t.id).bind fun target => r.names.get? target.id with
      | some new => (old, new) :: found
      | none => found
    | _ => found) []

def relabel (labels : List (String × String)) (c : Case) : Case :=
  match c.label with
  | .name n => c.relabel (.name ((labels.lookup n).getD n))
  | .default => c

/-- The cases of a `switch` over the actions of a table. -/
def cases (r : Renaming) (refs : Refs) (types : Types) (selector : Expr) (cs : List Case) :
    Edit (List Case) :=
  match types.get? selector.id with
  | some (.actionEnum (.table _ _ actions _)) =>
    match r.labels refs actions with
    | [] => .keep
    | ls => .put (cs.map (relabel ls))
  | _ => .keep

def editor (r : Renaming) (refs : Refs) (types : Types) : Editor Unit where
  leaveDecl d :=
    match r.names.get? d.id with
    | some n => return [.put (d.rename n)]
    | none => return [.keep]
  leaveStmt s :=
    match s with
    | .switch t e cs => return [(r.cases refs types e cs).map (.switch t e)]
    | _ => return [.keep]
  leaveExpr e :=
    match e with
    | .path t _ =>
      match refs.get? t.id with
      | none => return .keep
      | some target =>
        match r.replacements.get? target.id, r.names.get? target.id with
        | some new, _ => return .put (← new.copy)
        | none, some n => return .put (.path t n)
        | none, none => return .keep
    | _ => return .keep

def program (r : Renaming) (refs : Refs) (types : Types) (p : Program) : Supply (Edit Program) :=
  (·.1) <$> ((r.editor refs types).program p).run ()

def block (r : Renaming) (refs : Refs) (types : Types) (b : Block) : Supply Block := do
  let (x, _) ← ((r.editor refs types).block b).run ()
  return x.get b

def decls (r : Renaming) (refs : Refs) (types : Types) (ds : List Decl) : Supply (List Decl) := do
  let (x, _) ← ((r.editor refs types).decls ds).run ()
  return x.get ds

end Renaming

end MatchAction
