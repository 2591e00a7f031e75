namespace MatchAction

namespace Settings

inductive Value
  | text (value : String)
  | flag (value : Bool)

structure Entry where
  key : String
  value : Value

/-- Takes something from the front of the text, or refuses it. -/
abbrev Reader (α : Type) := List Char → Option (α × List Char)

def isBlank (c : Char) : Bool := c == ' ' || c == '\t'

/-- Control characters other than the tab are allowed nowhere. -/
def isPlain (c : Char) : Bool := c == '\t' || (' ' ≤ c && c != '\x7f')

def isBareKey (c : Char) : Bool := c.isAlphanum || c == '_' || c == '-'

def skipBlanks (cs : List Char) : List Char := cs.dropWhile isBlank

/-- What follows a line end. -/
def afterNewline? : List Char → Option (List Char)
  | '\n' :: r => some r
  | '\r' :: '\n' :: r => some r
  | _ => none

def hexDigit? (c : Char) : Option Nat :=
  if '0' ≤ c && c ≤ '9' then some (c.toNat - '0'.toNat)
  else if 'a' ≤ c && c ≤ 'f' then some (c.toNat - 'a'.toNat + 10)
  else if 'A' ≤ c && c ≤ 'F' then some (c.toNat - 'A'.toNat + 10)
  else none

def hexValue? (cs : List Char) : Option Nat :=
  cs.foldlM (fun n c => (hexDigit? c).map (16 * n + ·)) 0

/-- The character with that number, given in hexadecimal digits. -/
def numbered? (cs : List Char) : Option Char :=
  (hexValue? cs).bind fun n => if n.isValidChar then some (Char.ofNat n) else none

def escaped? : Char → Option Char
  | 'b' => some '\x08'
  | 't' => some '\t'
  | 'n' => some '\n'
  | 'f' => some '\x0c'
  | 'r' => some '\r'
  | '"' => some '"'
  | '\\' => some '\\'
  | _ => none

/-- Puts a character, if there is one, before what is read next. -/
def cons (c : Option Char) (rest : Option (List Char × List Char)) :
    Option (List Char × List Char) := do
  let c ← c
  let (s, r) ← rest
  return (c :: s, r)

def plain (c : Char) : Option Char := if isPlain c then some c else none

/-- The rest of a string in double quotes. -/
def quoted : Reader (List Char)
  | [] => none
  | '"' :: r => some ([], r)
  | '\\' :: 'u' :: a :: b :: c :: d :: r => cons (numbered? [a, b, c, d]) (quoted r)
  | '\\' :: 'U' :: a :: b :: c :: d :: e :: f :: g :: h :: r =>
    cons (numbered? [a, b, c, d, e, f, g, h]) (quoted r)
  | '\\' :: c :: r => cons (escaped? c) (quoted r)
  | c :: r => cons (plain c) (quoted r)

/-- The rest of a string in single quotes. -/
def verbatim : Reader (List Char)
  | [] => none
  | '\'' :: r => some ([], r)
  | c :: r => cons (plain c) (verbatim r)

/-- The rest of a string in tripled double quotes. Up to two quotes may stand before the closing
three. A backslash at the end of a line takes the blanks and line ends after it away; `joining` says
that one came before. -/
def longQuoted (joining : Bool) : Reader (List Char)
  | [] => none
  | '"' :: '"' :: '"' :: '"' :: '"' :: r => some (['"', '"'], r)
  | '"' :: '"' :: '"' :: '"' :: r => some (['"'], r)
  | '"' :: '"' :: '"' :: r => some ([], r)
  | '\\' :: 'u' :: a :: b :: c :: d :: r => cons (numbered? [a, b, c, d]) (longQuoted false r)
  | '\\' :: 'U' :: a :: b :: c :: d :: e :: f :: g :: h :: r =>
    cons (numbered? [a, b, c, d, e, f, g, h]) (longQuoted false r)
  | '\\' :: r =>
    if (afterNewline? (skipBlanks r)).isSome then longQuoted true r
    else
      match r with
      | c :: r => cons (escaped? c) (longQuoted false r)
      | [] => none
  | '\r' :: '\n' :: r =>
    if joining then longQuoted true r else cons (some '\n') (longQuoted false r)
  | '\n' :: r => if joining then longQuoted true r else cons (some '\n') (longQuoted false r)
  | c :: r =>
    if joining && isBlank c then longQuoted true r else cons (plain c) (longQuoted false r)

/-- The rest of a string in tripled single quotes. -/
def longVerbatim : Reader (List Char)
  | [] => none
  | '\'' :: '\'' :: '\'' :: '\'' :: '\'' :: r => some (['\'', '\''], r)
  | '\'' :: '\'' :: '\'' :: '\'' :: r => some (['\''], r)
  | '\'' :: '\'' :: '\'' :: r => some ([], r)
  | '\r' :: '\n' :: r => cons (some '\n') (longVerbatim r)
  | '\n' :: r => cons (some '\n') (longVerbatim r)
  | c :: r => cons (plain c) (longVerbatim r)

def asText : Option (List Char × List Char) → Option (Value × List Char) :=
  Option.map fun (s, r) => (.text (String.ofList s), r)

/-- A line end right after the opening quotes of a long string is not part of it. -/
def dropNewline (cs : List Char) : List Char := (afterNewline? cs).getD cs

def value : Reader Value
  | '"' :: '"' :: '"' :: r => asText (longQuoted false (dropNewline r))
  | '"' :: r => asText (quoted r)
  | '\'' :: '\'' :: '\'' :: r => asText (longVerbatim (dropNewline r))
  | '\'' :: r => asText (verbatim r)
  | 't' :: 'r' :: 'u' :: 'e' :: r => some (.flag true, r)
  | 'f' :: 'a' :: 'l' :: 's' :: 'e' :: r => some (.flag false, r)
  | _ => none

def key : Reader (List Char)
  | '"' :: r => quoted r
  | '\'' :: r => verbatim r
  | cs =>
    let name := cs.takeWhile isBareKey
    if name.isEmpty then none else some (name, cs.dropWhile isBareKey)

def entry : Reader Entry := fun cs => do
  let (k, r) ← key cs
  match skipBlanks r with
  | '=' :: r =>
    let (v, r) ← value (skipBlanks r)
    return (⟨String.ofList k, v⟩, r)
  | _ => none

/-- What follows the line, after blanks and a comment. -/
def endLine (cs : List Char) : Option (List Char) :=
  let rest := match skipBlanks cs with
    | '#' :: r => r.dropWhile isPlain
    | r => r
  if rest.isEmpty then some [] else afterNewline? rest

/-- At most `n` lines. -/
def lines : Nat → List Char → Option (List Entry)
  | _, [] => some []
  | 0, _ => none
  | n + 1, cs =>
    match endLine cs with
    | some rest => lines n rest
    | none => do
      let (e, r) ← entry (skipBlanks cs)
      let rest ← endLine r
      return e :: (← lines n rest)

/-- A byte order mark may come first. -/
def dropMark : List Char → List Char
  | '\uFEFF' :: r => r
  | cs => cs

/-- Reads the settings of a text. Every line but the last takes a character, so the length of the
text bounds their number. -/
def parse? (text : String) : Option (List Entry) :=
  let cs := dropMark text.toList
  lines (cs.length + 1) cs

end Settings

end MatchAction
