import MatchAction.Diagnostic
import MatchAction.Typing.Ty

namespace MatchAction

inductive TypeFault
  | unresolvedName (name : String)
  | duplicate (name : String) (previous : Option Span)
  | nonBooleanCondition (found : Ty)
  | argumentCount (callee : String) (expected found : Nat)
  | notCallable (type : Ty)
  | unknownMember (type : Ty) (member : String)
  | notLeftValue
  | unknownType (name : String)
  | mismatch (expected found : Ty)

namespace TypeFault

def code : TypeFault → String
  | .unresolvedName .. => "E0001"
  | .duplicate .. => "E0002"
  | .nonBooleanCondition .. => "E0003"
  | .argumentCount .. => "E0004"
  | .notCallable .. => "E0005"
  | .unknownMember .. => "E0006"
  | .notLeftValue => "E0007"
  | .unknownType .. => "E0008"
  | .mismatch .. => "E0009"

def message : TypeFault → String
  | .unresolvedName n => "unresolved name `" ++ n ++ "`"
  | .duplicate n _ => "`" ++ n ++ "` is declared twice in the same scope"
  | .nonBooleanCondition t => "condition must be `bool`, found `" ++ t.text ++ "`"
  | .argumentCount callee expected found =>
    "`" ++ callee ++ "` expects " ++ toString expected ++ " arguments, found " ++ toString found
  | .notCallable t => "`" ++ t.text ++ "` cannot be called"
  | .unknownMember t m => "`" ++ t.text ++ "` has no member `" ++ m ++ "`"
  | .notLeftValue => "expression is not a left-value"
  | .unknownType n => "`" ++ n ++ "` does not name a type"
  | .mismatch expected found =>
    "type mismatch: expected `" ++ expected.text ++ "`, found `" ++ found.text ++ "`"

def label : TypeFault → Option String
  | .unresolvedName .. => some "not found in this scope"
  | .duplicate .. => some "declared again here"
  | .nonBooleanCondition .. => some "expected `bool`"
  | .notLeftValue => some "cannot be assigned"
  | _ => none

def help : TypeFault → Option String
  | .duplicate _ (some previous) => some ("previous declaration at " ++ previous.text)
  | _ => none

end TypeFault

/-- A fault and where it was found. -/
structure TypeError where
  fault : TypeFault
  span : Option Span

def TypeError.toDiagnostic (e : TypeError) : Diagnostic :=
  ⟨.error, e.fault.code, e.fault.message, e.span, e.fault.label, e.fault.help⟩

end MatchAction
