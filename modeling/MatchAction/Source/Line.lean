namespace MatchAction

/-- White space, as Unicode has it. -/
def isBlank (c : Char) : Bool :=
  let n := c.toNat
  (0x9 ≤ n && n ≤ 0xD) || (0x2000 ≤ n && n ≤ 0x200A)
    || [0x20, 0x85, 0xA0, 0x1680, 0x2028, 0x2029, 0x202F, 0x205F, 0x3000].contains n

/-- Cuts after each end, told by a character and the one behind it. -/
def cutAfter (ends : Char → Option Char → Bool) : List Char → List (List Char)
  | [] => []
  | c :: cs =>
    if ends c cs.head? then [c] :: cutAfter ends cs
    else match cutAfter ends cs with
      | [] => [[c]]
      | l :: ls => (c :: l) :: ls

@[simp] theorem flatten_cutAfter (ends : Char → Option Char → Bool) (cs : List Char) :
    (cutAfter ends cs).flatten = cs := by
  induction cs with
  | nil => rfl
  | cons c cs ih =>
    unfold cutAfter
    split
    · simp [ih]
    · split <;> simp_all

/-- A line feed, vertical tab, form feed, carriage return, next line, line separator or paragraph
separator ends a line. A carriage return and the line feed behind it are one end. -/
def endsLine (c : Char) (next : Option Char) : Bool :=
  [0xA, 0xB, 0xC, 0xD, 0x85, 0x2028, 0x2029].contains c.toNat && !(c == '\r' && next == some '\n')

/-- Lines are numbered from one, `start` is the position of the first character. -/
structure Line where
  number : Nat
  start : Nat
  chars : List Char

namespace Line

def listFrom (number start : Nat) : List (List Char) → List Line
  | [] => []
  | l :: ls => ⟨number, start, l⟩ :: listFrom (number + 1) (start + l.length) ls

/-- An empty text has one line, and an end that ends the text starts none. -/
def ofText (cs : List Char) : List Line :=
  if cs.isEmpty then [⟨1, 0, []⟩] else listFrom 1 0 (cutAfter endsLine cs)

/-- The line around a position. The end of the text lies in the last line. -/
def around? (cs : List Char) (position : Nat) : Option Line :=
  if position ≤ cs.length then ((ofText cs).filter (·.start ≤ position)).getLast? else none

/-- A line without the white space at its end. -/
def trimmed (l : Line) : List Char := (l.chars.reverse.dropWhile isBlank).reverse

end Line

end MatchAction
