import MatchAction.Source

namespace MatchAction

inductive Severity
  | error
  | warning
deriving DecidableEq

def Severity.text : Severity → String
  | .error => "error"
  | .warning => "warning"

structure Diagnostic where
  severity : Severity
  code : String
  message : String
  span : Option Span
  label : Option String
  help : Option String

namespace Diagnostic

def isError (d : Diagnostic) : Bool := d.severity == .error

def text (d : Diagnostic) : String :=
  d.severity.text ++ "[" ++ d.code ++ "]: " ++ d.message
    ++ (d.span.map (fun s => " at " ++ s.text)).getD ""

end Diagnostic

structure Diagnostics where
  entries : List Diagnostic

namespace Diagnostics

def empty : Diagnostics := ⟨[]⟩

def report (ds : Diagnostics) (d : Diagnostic) : Diagnostics := ⟨ds.entries ++ [d]⟩

def extend (ds : Diagnostics) (more : List Diagnostic) : Diagnostics := ⟨ds.entries ++ more⟩

def errors (ds : Diagnostics) : List Diagnostic := ds.entries.filter (·.isError)

def errorCount (ds : Diagnostics) : Nat := ds.errors.length

def warningCount (ds : Diagnostics) : Nat := ds.entries.length - ds.errorCount

def hasErrors (ds : Diagnostics) : Bool := ds.entries.any (·.isError)

theorem hasErrors_iff (ds : Diagnostics) : ds.hasErrors ↔ 0 < ds.errorCount := by
  simp [hasErrors, errorCount, errors, List.length_pos_iff, List.filter_eq_nil_iff]

end Diagnostics

end MatchAction
