import MatchAction.Inline.Action
import MatchAction.Inline.Control
import MatchAction.Pipeline.Pass
import MatchAction.Returns
import MatchAction.Scoping.Hoist
import MatchAction.Scoping.Unique
import MatchAction.Scoping.Unused
import MatchAction.Simplify.Flow
import MatchAction.Simplify.Folding
import MatchAction.Simplify.Strength
import MatchAction.Tables.Actions
import MatchAction.Tables.Keys

namespace MatchAction

namespace Pass

/-- A pass that looks at nothing but the program. -/
def ofProgram (name : String) (f : Program → Supply (Edit Program)) : Pass where
  name := name
  run p := f p

/-- Lifts what may meet a call it cannot classify. -/
def classifying (x : ExceptT ClassificationError Supply (Edit Program)) : PassM (Edit Program) := do
  match ← (x.run : Supply _) with
  | .ok a => return a
  | .error e => throw (.classification e)

/-- Lifts what reports into the diagnostics of the context. -/
def inlining {α : Type} (x : Inlining α) : PassM α := do
  let (a, ds) ← (x.run (← get).diagnostics : Supply _)
  modify fun c => { c with diagnostics := ds }
  return a

def acyclic {α : Type} : Except Dependency.Cycle α → PassM α
  | .ok a => return a
  | .error c => throw (.recursiveInlining c)

/-- Derives the side tables. -/
def typeChecking : Pass where
  name := "TypeChecking"
  run p := do
    modify (·.refresh p)
    return .keep

/-- Elaborates the instances and keeps them in the context. -/
def evaluator : Pass where
  name := "Evaluator"
  requires := .all
  invalidates := .none
  run p := do
    let c ← get
    match p.elaborate c.refs c.types with
    | .ok t =>
      set { c with toplevel := some t }
      return .keep
    | .error e => throw (.ofElaboration "Evaluator" e)

def uniqueNames : Pass where
  name := "UniqueNames"
  requires := .all
  run p := do
    let c ← get
    p.uniqueNames c.refs c.types

def moveDeclarations : Pass := ofProgram "MoveDeclarations" Program.hoistVariables

def removeReturns : Pass := ofProgram "RemoveReturns" Program.removeReturns

def removeUnused : Pass where
  name := "RemoveAllUnusedDeclarations"
  run p := do p.removeUnused (← get).sources

def simplifyFlow : Pass := ofProgram "SimplifyControlFlow" Program.simplifyFlow

def foldConstants : Pass := ofProgram "ConstantFolding" Program.foldConstants

def reduceStrength : Pass := ofProgram "StrengthReduction" Program.reduceStrength

def simplifyKeys (policy : KeyPolicy) : Pass where
  name := "SimplifyKey"
  requires := .all
  run p := do
    let c ← get
    p.simplifyKeys policy c.refs c.types c.options.keyName

def synthesizeActions : Pass where
  name := "SynthesizeActions"
  requires := .all
  run p := do
    let c ← get
    classifying (p.synthesizeActions c.refs c.types c.sources)

def tableActions : Pass where
  name := "MoveActionsToTables"
  requires := .all
  run p := do
    let c ← get
    classifying (p.tableActions c.refs c.types c.sources)

/-- Finds the controls to inline and leaves the work in a slot. -/
def discoverControls (slot : Nat) : Pass where
  name := "DiscoverInlining"
  requires := ⟨true, false⟩
  invalidates := .none
  run p := do
    let c ← get
    let w ← acyclic (ControlInlining.discover c.refs c.sources p)
    modify (·.putWork slot w)
    return .keep

def takeWork (slot : Nat) : PassM WorkList := do
  let (w, c) := (← get).takeWork slot
  set c
  return w

def inlineControls (style : InlineStyle) (slot : Nat) : Pass where
  name := "InlineDriver"
  run p := do
    let w ← takeWork slot
    acyclic (← inlining (p.inlineControls style (← get).sources w).run)

/-- Finds the calls of actions to inline and leaves the work in a slot. -/
def discoverActions (slot : Nat) : Pass where
  name := "DiscoverActionsInlining"
  requires := .all
  invalidates := .none
  run p := do
    let c ← get
    let f := ActionInlining.find c.refs c.types c.sources p
    if let some e := f.error then throw (.classification e)
    let w ← acyclic (WorkList.ofEdges f.names f.edges.reverse)
    modify (·.putWork slot w)
    return .keep

def inlineActions (slot : Nat) : Pass where
  name := "InlineActionsDriver"
  run p := do
    let w ← takeWork slot
    inlining (p.inlineActions w)

/-- The passes that stand alone. -/
def standalone : List Pass :=
  [ typeChecking, evaluator, uniqueNames, moveDeclarations, removeReturns, removeUnused,
    simplifyFlow, foldConstants, reduceStrength, simplifyKeys .nonLeftValue, synthesizeActions,
    tableActions ]

/-- The pass of that name among those that stand alone. -/
def named? (name : String) : Option Pass := standalone.find? (·.name == name)

end Pass

end MatchAction
