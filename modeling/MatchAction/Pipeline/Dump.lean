import MatchAction.Pipeline.Pass

namespace MatchAction

def Point.name : Point → String
  | .before => "before"
  | .after => "after"

structure Dump where
  /-- Position among the dumps kept. -/
  sequence : Nat
  pipeline : String
  pass : String
  point : Point
  text : String

namespace Dump

def ofEvent (sequence : Nat) (e : Event) : Dump :=
  ⟨sequence, e.pipeline, e.pass, e.point, e.program.text⟩

def number : Nat → List Event → List Dump
  | _, [] => []
  | n, e :: es => ofEvent n e :: number (n + 1) es

/-- Dumps after passes, and before them too if asked. -/
def ofEvents (before : Bool) (es : List Event) : List Dump :=
  number 0 (es.filter fun e => before || e.point == .after)

/-- The dump after the last run of a pass. -/
def lastAfter? (ds : List Dump) (pass : String) : Option Dump :=
  ds.reverse.find? fun d => d.pass == pass && d.point == .after

def hexDigit (n : Nat) : Char := ("0123456789abcdef".toList[n]?).getD '0'

/-- A character of a quoted string. Only quotes, backslashes and control characters are escaped. -/
def escape : Char → List Char
  | '"' => ['\\', '"']
  | '\\' => ['\\', '\\']
  | '\x08' => ['\\', 'b']
  | '\x0c' => ['\\', 'f']
  | '\n' => ['\\', 'n']
  | '\r' => ['\\', 'r']
  | '\t' => ['\\', 't']
  | c =>
    if c < ' ' then ['\\', 'u', '0', '0', hexDigit (c.toNat / 16), hexDigit (c.toNat % 16)] else [c]

def quote (s : String) : String := "\"" ++ String.ofList (s.toList.flatMap escape) ++ "\""

/-- A dump as a JSON object on one line. -/
def line (d : Dump) : String :=
  "\x7b\"sequence\":" ++ toString d.sequence ++ ",\"pipeline\":" ++ quote d.pipeline
    ++ ",\"pass\":" ++ quote d.pass ++ ",\"point\":" ++ quote d.point.name
    ++ ",\"program\":" ++ quote d.text ++ "\x7d\n"

end Dump

end MatchAction
