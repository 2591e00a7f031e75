namespace MatchAction

structure Dependency.Node where
  name : String
  /-- What the node depends on, in the order it was added. -/
  needs : List String

/-- Each name is one node. -/
structure Dependency where
  nodes : List Dependency.Node

namespace Dependency

def empty : Dependency := ⟨[]⟩

def node? (g : Dependency) (name : String) : Option Node := g.nodes.find? (·.name == name)

def needs (g : Dependency) (name : String) : List String := ((g.node? name).map (·.needs)).getD []

/-- The place of a name in the order of addition. -/
def index? (g : Dependency) (name : String) : Option Nat := g.nodes.findIdx? (·.name == name)

def addNode (g : Dependency) (name : String) : Dependency :=
  if (g.node? name).isSome then g else ⟨g.nodes ++ [⟨name, []⟩]⟩

/-- Adding a dependency twice changes nothing; a name may depend on itself. -/
def addNeed (g : Dependency) (name need : String) : Dependency :=
  ⟨g.nodes.map fun n =>
    if n.name == name && !n.needs.contains need then { n with needs := n.needs ++ [need] } else n⟩

/-- The names met on the way round, the first one again at the end. -/
structure Cycle where
  names : List String

def Cycle.text (c : Cycle) : String := " -> ".intercalate c.names

/-- Inserts a name before the first one that is not smaller. -/
def insertName (name : String) : List String → List String
  | [] => [name]
  | n :: ns => if name ≤ n then name :: n :: ns else n :: insertName name ns

def sortNames : List String → List String
  | [] => []
  | n :: ns => insertName n (sortNames ns)

/-- Extends `done` by `name` after everything it needs. `path` holds the names under way, innermost
first; meeting one of them closes a cycle. The path never holds a name twice, so `fuel` for one
name more than there are is enough. -/
def visit (g : Dependency) : Nat → List String → List String → String →
    Except Cycle (List String)
  | 0, _, done, _ => .ok done
  | fuel + 1, path, done, name =>
    if done.contains name then .ok done
    else if path.contains name then
      .error ⟨name :: (path.takeWhile (· != name)).reverse ++ [name]⟩
    else do
      let done ← (sortNames (g.needs name)).foldlM (g.visit fuel (name :: path)) done
      return done ++ [name]

/-- All names, each after those it needs. -/
def order (g : Dependency) : Except Cycle (List String) :=
  (sortNames (g.nodes.map (·.name))).foldlM (g.visit (g.nodes.length + 1) []) []

end Dependency

end MatchAction
