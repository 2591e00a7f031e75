import MatchAction.Inline.WorkList
import MatchAction.Instance
import MatchAction.Options
import MatchAction.Typing.Check

/-!
What passes share besides the program: diagnostics, the side tables and which of them are out of
date, sources, options, work lists handed from one pass to another, and the last elaboration.
-/

namespace MatchAction

/-- A set of side tables. -/
structure TableSet where
  refs : Bool
  types : Bool
deriving DecidableEq

namespace TableSet

def none : TableSet := ⟨false, false⟩

def all : TableSet := ⟨true, true⟩

def inter (a b : TableSet) : TableSet := ⟨a.refs && b.refs, a.types && b.types⟩

def union (a b : TableSet) : TableSet := ⟨a.refs || b.refs, a.types || b.types⟩

def isEmpty (a : TableSet) : Bool := !a.refs && !a.types

def names (a : TableSet) : List String :=
  (if a.refs then ["REFS"] else []) ++ (if a.types then ["TYPES"] else [])

end TableSet

/-- What ends a pipeline at once. -/
inductive Failure
  | classification (error : ClassificationError)
  | recursiveInlining (cycle : Dependency.Cycle)
  | staleTables (pass : String) (stale : TableSet)
  | internal (pass message : String)

namespace Failure

def message : Failure → String
  | .classification e => e.message
  | .recursiveInlining c => "recursive inlining: " ++ c.text
  | .staleTables pass stale =>
    "pass `" ++ pass ++ "` needs side tables SideTables(" ++ " | ".intercalate stale.names
      ++ ") that are stale"
  | .internal pass message => "internal error in `" ++ pass ++ "`: " ++ message

def ofElaboration (pass : String) : ElaborationError → Failure
  | .classification e => .classification e
  | .notInstantiable name type =>
    .internal pass ("`" ++ name ++ "` instantiates `" ++ type ++ "`")
  | .selfInstantiation type => .internal pass ("`" ++ type ++ "` instantiates itself")
  | .tooDeep type => .internal pass ("`" ++ type ++ "` is nested too deeply")

end Failure

structure Context where
  diagnostics : Diagnostics
  refs : Refs
  types : Types
  /-- Tables that no longer describe the program. -/
  stale : TableSet
  sources : SourceMap
  options : Options
  toplevel : Option Toplevel
  /-- Work found by a discovery and not yet done, by the number the two passes share. -/
  work : List (Nat × WorkList)

namespace Context

/-- No table has been derived yet. -/
def new (sources : SourceMap) (options : Options) : Context :=
  ⟨.empty, .empty, .empty, .all, sources, options, none, []⟩

/-- Derives both tables from the program and reports what is wrong with it. -/
def refresh (p : Program) (c : Context) : Context :=
  let k := p.check
  { c with diagnostics := c.diagnostics.extend k.diagnostics, refs := k.refs, types := k.types,
           stale := .none }

def markStale (tables : TableSet) (c : Context) : Context :=
  { c with stale := c.stale.union tables }

def putWork (slot : Nat) (w : WorkList) (c : Context) : Context :=
  { c with work := (slot, w) :: c.work.filter (·.1 != slot) }

/-- The work waiting in a slot, which is left empty. -/
def takeWork (slot : Nat) (c : Context) : WorkList × Context :=
  ((c.work.lookup slot).getD .empty, { c with work := c.work.filter (·.1 != slot) })

end Context

end MatchAction
