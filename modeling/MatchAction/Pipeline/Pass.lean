import MatchAction.Pipeline.Context
import MatchAction.Edit.Basic

/-!
Passes and pipelines of passes. A pass that changes the program makes the tables it invalidates out
of date, and one that needs such a table is refused. A pipeline stops where a pass fails, and at the
first boundary with errors reported.
-/

namespace MatchAction

abbrev PassM := ExceptT Failure (StateT Context Supply)

structure Pass where
  name : String
  /-- Tables the pass reads. -/
  requires : TableSet := .none
  /-- Tables that a change of the program makes stale. -/
  invalidates : TableSet := .all
  run : Program → PassM (Edit Program)

structure Pipeline where
  name : String
  passes : List Pass

inductive Point
  | before
  | after
deriving DecidableEq

/-- A pass about to run on a program, or done with one. -/
structure Event where
  pipeline : String
  pass : String
  point : Point
  program : Program

/-- How a pipeline is found between runs. -/
inductive Status
  | ready
  | aborted
  | completed
deriving DecidableEq

/-- What a pipeline is at. -/
inductive Phase
  | resting (status : Status)
  | running (index : Nat)
deriving DecidableEq

/-- A pipeline found running has been cut short. -/
def Phase.status : Phase → Status
  | .resting s => s
  | .running _ => .aborted

/-- What came of a run: something, nothing because of reported errors, or a failure. -/
structure Run (α : Type) where
  result : Except Failure (Option α)
  events : List Event

namespace Run

variable {α β : Type}

/-- Goes on with what came of a run. -/
def andThen (r : Run α) (next : α → StateT Context Supply (Run β)) :
    StateT Context Supply (Run β) :=
  match r.result with
  | .ok (some a) => do
    let s ← next a
    return ⟨s.result, r.events ++ s.events⟩
  | .ok none => return ⟨.ok none, r.events⟩
  | .error f => return ⟨.error f, r.events⟩

def map (f : α → β) (r : Run α) : Run β := ⟨r.result.map (·.map f), r.events⟩

end Run

/-- A hook hears of every pass about to run and of every pass done, and changes what hooks keep. -/
abbrev Hook (σ : Type) := Event → σ → σ

structure Monitor (σ : Type) where
  phase : Phase
  kept : σ

/-- Running passes, with a monitor. -/
abbrev Monitored (σ : Type) := StateT (Monitor σ) (StateT Context Supply)

abbrev Outcome := Except Failure (Option (Edit Program))

namespace Pipeline

structure Applied extends Run (Edit Program) where
  phase : Phase

def Applied.status (r : Applied) : Status := r.phase.status

variable {σ : Type}

def turnTo (phase : Phase) : Monitored σ Unit := modify fun m => { m with phase := phase }

/-- Tells every hook, one after the other. -/
def tell (hooks : List (Hook σ)) (e : Event) : Monitored σ Unit :=
  hooks.forM fun hook => modify fun m => { m with kept := hook e m.kept }

/-- Runs one pass, unless a table it reads is stale. -/
def step (pipeline : String) (hooks : List (Hook σ)) (pass : Pass) (p : Program) :
    Monitored σ Outcome := do
  let stale := pass.requires.inter (← getThe Context).stale
  if !stale.isEmpty then
    turnTo (.resting .aborted)
    return .error (.staleTables pass.name stale)
  tell hooks ⟨pipeline, pass.name, .before, p⟩
  match ← liftM (pass.run p).run with
  | .error f =>
    turnTo (.resting .aborted)
    return .error f
  | .ok x =>
    if !x.isKeep then modifyThe Context (·.markStale pass.invalidates)
    tell hooks ⟨pipeline, pass.name, .after, x.get p⟩
    if (← getThe Context).diagnostics.hasErrors then
      turnTo (.resting .aborted)
      return .ok none
    return .ok (some x)

/-- Runs the passes in order; the first of them has the given index. -/
def steps (pipeline : String) (hooks : List (Hook σ)) :
    Nat → List Pass → Program → Monitored σ Outcome
  | _, [], _ => do
    turnTo (.resting .completed)
    return .ok (some .keep)
  | i, pass :: passes, p => do
    turnTo (.running i)
    match ← step pipeline hooks pass p with
    | .ok (some x) =>
      let r ← steps pipeline hooks (i + 1) passes (x.get p)
      return r.map (·.map x.andThen)
    | r => return r

/-- Runs every pass in order. Nothing is run on a program that has errors already. -/
def run (pl : Pipeline) (hooks : List (Hook σ)) (p : Program) : Monitored σ Outcome := do
  turnTo (.resting .ready)
  if (← getThe Context).diagnostics.hasErrors then
    turnTo (.resting .aborted)
    return .ok none
  steps pl.name hooks 0 pl.passes p

/-- Runs with one hook, which keeps the events it hears of. -/
def apply (pl : Pipeline) (p : Program) : StateT Context Supply Applied := do
  let (r, m) ← (pl.run [fun e es => es ++ [e]] p).run ⟨.resting .ready, []⟩
  return ⟨⟨r, m.kept⟩, m.phase⟩

end Pipeline

end MatchAction
