import MatchAction.Pipeline.Pass

namespace MatchAction

structure Probe where
  name : String
  requires : TableSet
  invalidates : TableSet
  report : Option Diagnostic
  /-- Fail, after the report. -/
  fatal : Bool
  /-- Put a program of the same declarations in place of the one given. -/
  rebuild : Bool

def Probe.toPass (b : Probe) : Pass where
  name := b.name
  requires := b.requires
  invalidates := b.invalidates
  run p := do
    if let some d := b.report then
      modify fun c => { c with diagnostics := c.diagnostics.report d }
    if b.fatal then throw (.internal b.name "fatal")
    return if b.rebuild then .put ⟨p.decls⟩ else .keep

end MatchAction
