import MatchAction.Tree.Walk

namespace MatchAction

structure Names where
  used : List String

namespace Names

def empty : Names := ⟨[]⟩

/-- Names a declaration makes unavailable: its own and those of its parameters. The parameters of
external methods are out of everybody's sight. -/
def ofDecl : Decl → List String
  | .externType h _ _ _ => [h.name]
  | d => d.name :: d.params.map (·.name)

def ofProgram (p : Program) : Names := ⟨p.allDecls.flatMap ofDecl⟩

def isUsed (ns : Names) (name : String) : Bool := ns.used.contains name

def reserve (ns : Names) (name : String) : Names := ⟨name :: ns.used⟩

def numbered (base : String) (n : Nat) : String := base ++ "_" ++ toString n

/-- The name that `base` would get. -/
def pick (ns : Names) (base : String) : String :=
  if ns.isUsed base then
    let free := (List.range (ns.used.length + 1)).find? fun n => !ns.isUsed (numbered base n)
    numbered base (free.getD (ns.used.length + 1))
  else base

/-- Hands out the name that `base` gets, which is used from then on. -/
def new {m : Type → Type} [Monad m] (base : String) : StateT Names m String := fun ns =>
  let name := ns.pick base
  pure (name, ns.reserve name)

end Names

end MatchAction
