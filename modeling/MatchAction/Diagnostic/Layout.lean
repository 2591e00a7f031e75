import MatchAction.Diagnostic
import MatchAction.Source.Line

namespace MatchAction

namespace Layout

/-- A range cut to the length of the text. An empty one takes the next character, if there is
one. -/
def clamp (s : Span) (length : Nat) : Nat × Nat :=
  let start := min s.start length
  let stop := min s.stop length
  if start = stop then (start, min (stop + 1) length) else (start, stop)

def rule (n : Nat) (c : Char) : String := String.ofList (List.replicate n c)

/-- A tab reaches to the next multiple of four, counted in characters. All else is one column
wide. -/
def width (position : Nat) (c : Char) : Nat := if c = '\t' then 4 - position % 4 else 1

/-- A line as it is shown, with spaces for white space. -/
def shown (l : Line) : String :=
  String.join (l.trimmed.zipIdx.map fun (c, i) =>
    if isBlank c then rule (width i c) ' ' else c.toString)

/-- A row under the first `n` characters of a line. A mark is drawn once and its tail fills what
is left of a wide character. -/
def row (l : Line) (n : Nat) (mark : Nat → Char × Char) : String :=
  let cs := l.trimmed
  String.join ((List.range n).map fun i =>
    let (c, tail) := mark i
    c.toString ++ rule ((cs[i]?.map (width i)).getD 1 - 1) tail)

/-- Characters `a` up to `b` underlined, with the place where the label hangs. -/
def underline (a b : Nat) (i : Nat) : Char × Char :=
  if i = a + (b - a) / 2 then if a = b then ('│', ' ') else ('┬', '─')
  else if a ≤ i ∧ i < b then ('─', '─')
  else (' ', ' ')

/-- The line from an underline to its label. -/
def arm (a b : Nat) (i : Nat) : Char × Char :=
  let mid := a + (b - a) / 2
  if i = mid then ('╰', '─') else if mid < i then ('─', '─') else (' ', ' ')

def heading : Severity → String
  | .error => "Error"
  | .warning => "Warning"

/-- The title. A code takes two characters at least. -/
def title (d : Diagnostic) : String :=
  "[" ++ d.code ++ rule (2 - d.code.length) ' ' ++ "] " ++ heading d.severity ++ ": " ++ d.message

/-- Lines of a help text end with a line feed, and a carriage return before it is left out. -/
def helpLines (help : String) : List String :=
  (cutAfter (fun c _ => c == '\n') help.toList).map fun l =>
    match l.reverse with
    | '\n' :: '\r' :: r | '\n' :: r => String.ofList r.reverse
    | _ => String.ofList l

/-- Help stands under an open row. Its further lines stand under the first one. -/
def helpRows (margin : String) : Option String → List String
  | none => []
  | some h => margin :: match helpLines h with
    | [] => []
    | l :: ls => (margin ++ "Help: " ++ l) :: ls.map (margin ++ "      " ++ ·)

/-- The rows of a range that lies in one line. -/
def inlineRows (gutter numbered : String) (l : Line) (start stop : Nat) (label : String) :
    List String :=
  let a := start - l.start
  let b := stop - l.start
  [ numbered ++ shown l,
    gutter ++ "│ " ++ row l (b + 2) (underline a b),
    gutter ++ "│ " ++ row l (b + 2) (arm a b) ++ " " ++ label ]

/-- The rows of a range that starts in one line and stops in a later one. One row stands for all
lines between. -/
def blockRows (gutter : String) (numbered : Line → String) (first last : Line) (label : String) :
    List String :=
  let n := last.chars.length + 2
  [numbered first ++ "╭─▶ " ++ shown first]
    ++ (if first.number + 1 < last.number then [gutter ++ "┆ ┆   "] else [])
    ++ [ numbered last ++ "├─▶ " ++ shown last,
      gutter ++ "│ │   " ++ row last n fun _ => (' ', ' '),
      gutter ++ "│ ╰───" ++ row last n (fun _ => ('─', '─')) ++ " " ++ label ]

/-- A range that is not in the text leaves only the title. -/
def rows (d : Diagnostic) (s : Span) (text : String) : List String :=
  let cs := text.toList
  let (start, stop) := clamp s text.utf8ByteSize
  match Line.around? cs start, Line.around? cs (max (stop - 1) start) with
  | some first, some last =>
    let digits := (toString last.number).length
    let gutter := rule (digits + 2) ' '
    let numbered := fun (l : Line) =>
      let n := toString l.number
      " " ++ rule (digits - n.length) ' ' ++ n ++ " │ "
    let label := d.label.getD d.message
    let several := first.number < last.number
    [ title d,
      gutter ++ "╭─[ <unknown>:" ++ toString first.number ++ ":"
        ++ toString (start - first.start + 1) ++ " ]",
      gutter ++ "│" ]
      ++ (if several then blockRows gutter numbered first last label
        else inlineRows gutter (numbered first) first start stop label)
      ++ helpRows (gutter ++ "│ " ++ if several then "    " else "") d.help
      ++ [rule (digits + 2) '─' ++ "╯"]
  | _, _ => [title d]

end Layout

def Diagnostic.render (sources : SourceMap) (d : Diagnostic) : String :=
  match d.span with
  | none => d.text ++ "\n"
  | some s =>
    match sources.get? s.source with
    | none => d.text ++ "\n"
    | some f => String.join ((Layout.rows d s f.text).map (· ++ "\n"))

end MatchAction
