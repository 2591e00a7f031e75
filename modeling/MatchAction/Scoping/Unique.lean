import MatchAction.Scoping.Renaming
import MatchAction.Tree.Names

namespace MatchAction

namespace Unique

structure State where
  /-- Declarations around the place reached. -/
  depth : Nat
  seen : List String
  names : Names
  changes : Renaming

def enter (st : State) (d : Decl) : State :=
  let st' :=
    if st.depth = 0 then st
    else if st.seen.contains d.name then
      let fresh := st.names.pick d.name
      { st with seen := fresh :: st.seen, names := st.names.reserve fresh,
                changes := st.changes.rename d.id fresh }
    else { st with seen := d.name :: st.seen }
  { st' with depth := st.depth + 1 }

def step (st : State) : Visit → State
  | .enter d => enter st d
  | .leave _ => { st with depth := st.depth - 1 }
  | _ => st

/-- New names for the declarations whose names are taken. -/
def changes (p : Program) : Renaming :=
  (p.visits.foldl step ⟨0, p.decls.map (·.name), .ofProgram p, .empty⟩).changes

end Unique

def Program.uniqueNames (refs : Refs) (types : Types) (p : Program) : Supply (Edit Program) :=
  let r := Unique.changes p
  if r.isEmpty then return .keep else r.program refs types p

end MatchAction
