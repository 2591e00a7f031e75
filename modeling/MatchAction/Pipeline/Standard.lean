import MatchAction.Pipeline.Catalogue

namespace MatchAction

namespace Pipeline

def legacy : Pipeline where
  name := "V1MidEnd"
  passes :=
    [ .typeChecking, .removeReturns, .typeChecking, .evaluator,
      .discoverControls 0, .inlineControls .simple 0, .removeUnused, .typeChecking,
      .discoverActions 1, .inlineActions 1, .removeUnused ]

def simplify : Pipeline where
  name := "Simplify"
  passes :=
    [ .typeChecking, .uniqueNames, .moveDeclarations, .typeChecking, .removeReturns, .typeChecking,
      .removeUnused, .typeChecking, .evaluator ]

def middle : Pipeline where
  name := "MidEnd"
  passes :=
    [ .discoverControls 0, .inlineControls .general 0, .removeUnused, .typeChecking,
      .discoverActions 1, .inlineActions 1, .removeUnused, .typeChecking,
      .simplifyFlow, .typeChecking, .simplifyKeys .nonLeftValue, .typeChecking,
      .simplifyFlow, .foldConstants, .reduceStrength, .typeChecking,
      .moveDeclarations, .typeChecking, .synthesizeActions, .typeChecking,
      .tableActions, .typeChecking ]

def backend : Pipeline where
  name := "Backend"
  passes :=
    [ .typeChecking, .simplifyFlow, .typeChecking, .foldConstants, .typeChecking, .evaluator ]

/-- Runs a pipeline for the program it leaves. -/
def result (pl : Pipeline) (p : Program) : StateT Context Supply (Run Program) :=
  return (← pl.apply p).toRun.map (·.get p)

end Pipeline

/-- Goes on only if the last elaboration found a `main`. -/
def requireMain (p : Program) : StateT Context Supply (Run Program) := do
  let found := (← get).toplevel.any (·.main?.isSome)
  return ⟨.ok (if found then some p else none), []⟩

/-- The elaborated program, which is taken out of the context. -/
def takeToplevel : StateT Context Supply (Run Toplevel) := do
  let c ← get
  set { c with toplevel := none }
  return ⟨.ok c.toplevel, []⟩

def compileLegacy (p : Program) : StateT Context Supply (Run Program) := do
  (← Pipeline.legacy.result p).andThen requireMain

def compileCurrent (p : Program) : StateT Context Supply (Run Program) := do
  let simple ← (← Pipeline.simplify.result p).andThen requireMain
  simple.andThen Pipeline.middle.result

/-- Takes a program through the pipelines of its dialect. There is no result if errors were
reported or the program has no `main`. -/
def Program.compile (p : Program) : StateT Context Supply (Run Toplevel) := do
  let lowered ← match (← get).options.dialect with
    | .legacy => compileLegacy p
    | .current => compileCurrent p
  (← lowered.andThen Pipeline.backend.result).andThen fun _ => takeToplevel

end MatchAction
