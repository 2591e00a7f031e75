import MatchAction.Dependency
import MatchAction.Typing.Tables

namespace MatchAction

/-- `caller` calls `callee`; the site is the instance of a control or the call of an action. -/
structure InlineEdge where
  caller : NodeId
  callee : NodeId
  site : NodeId

structure WorkList where
  edges : List InlineEdge
  /-- Callers, each after the callees among them. -/
  callers : List NodeId

namespace WorkList

def empty : WorkList := ⟨[], []⟩

def isEmpty (w : WorkList) : Bool := w.edges.isEmpty

def isCaller (edges : List InlineEdge) (id : NodeId) : Bool := edges.any (·.caller == id)

def edgesFrom (w : WorkList) (caller : NodeId) : List InlineEdge :=
  w.edges.filter (·.caller == caller)

/-- The name a declaration is ordered and reported by. -/
def nodeName (names : NodeMap String) (id : NodeId) : String :=
  (names.get? id).getD ("#" ++ toString id.val)

/-- Callers depend on callees, by name. -/
def graph (names : NodeMap String) (edges : List InlineEdge) : Dependency :=
  edges.foldl (fun g e =>
    let caller := nodeName names e.caller
    let callee := nodeName names e.callee
    ((g.addNode caller).addNode callee).addNeed caller callee) .empty

/-- The declaration a name stands for; of several with one name, the last one met. -/
def holder? (names : NodeMap String) (edges : List InlineEdge) (name : String) : Option NodeId :=
  (edges.flatMap fun e => [e.caller, e.callee]).reverse.find? (nodeName names · == name)

def ofEdges (names : NodeMap String) (edges : List InlineEdge) :
    Except Dependency.Cycle WorkList := do
  let order ← (graph names edges).order
  return ⟨edges, (order.filterMap (holder? names edges)).filter (isCaller edges)⟩

end WorkList

end MatchAction
