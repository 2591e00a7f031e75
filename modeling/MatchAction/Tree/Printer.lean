import MatchAction.Tree.Program

namespace MatchAction

def indent (ls : List String) : List String := ls.map ("    " ++ ·)

/-- Every line ends in a line break. -/
def unlines (ls : List String) : String := String.join (ls.map (· ++ "\n"))

/-- `head`, the lines of `body` one level deeper, and a closing brace. -/
def braced (head : String) (body : List String) : List String :=
  (head ++ "\x7b") :: indent body ++ ["\x7d"]

def literalText (value : Int) : TypeExpr → String
  | .bits w s =>
    let sign := if value < 0 then "-" else ""
    let mark := if s then "s" else "w"
    sign ++ toString w ++ mark ++ toString value.natAbs
  | _ => toString value

namespace Expr

def isBinary : Expr → Bool
  | .binary .. => true
  | _ => false

/-- The text of an operand, given the text of the expression. -/
def asOperand (e : Expr) (text : String) : String :=
  if e.isBinary then "(" ++ text ++ ")" else text

mutual
def text : Expr → String
  | .lit _ v t => literalText v t
  | .bool _ b => if b then "true" else "false"
  | .path _ n => n
  | .member _ b n => b.asOperand b.text ++ "." ++ n
  | .index _ b i => b.asOperand b.text ++ "[" ++ i.text ++ "]"
  | .call _ c ts as =>
    let generic := if ts.isEmpty then "" else "<" ++ ", ".intercalate (TypeExpr.texts ts) ++ ">"
    c.text ++ generic ++ "(" ++ ", ".intercalate (texts as) ++ ")"
  | .construct _ t as => t.text ++ "(" ++ ", ".intercalate (texts as) ++ ")"
  | .unary _ op e => op.symbol ++ e.asOperand e.text
  | .binary _ op l r => l.asOperand l.text ++ " " ++ op.symbol ++ " " ++ r.asOperand r.text
def texts : List Expr → List String
  | [] => []
  | e :: es => e.text :: texts es
end

def argsText (es : List Expr) : String := ", ".intercalate (texts es)

end Expr

def typeParamsText (names : List String) : String :=
  if names.isEmpty then "" else "<" ++ ", ".intercalate names ++ ">"

def Param.text (p : Param) : String := p.direction.text ++ p.type.text ++ " " ++ p.name

def paramsText (ps : List Param) : String := ", ".intercalate (ps.map (·.text))

def Method.text (m : Method) : String :=
  m.returnType.text ++ " " ++ m.name ++ typeParamsText m.typeParams ++ "(" ++ paramsText m.params
    ++ ")"

def Field.text (f : Field) : String := f.type.text ++ " " ++ f.name ++ ";"

def Key.text (k : Key) : String := k.expr.text ++ ": " ++ k.matchKind ++ ";"

def Label.text : Label → String
  | .name n => n
  | .default => "default"

mutual
/-- With `inBraces`, the braces of a block are already on the page. -/
def Stmt.lines (inBraces : Bool) : Stmt → List String
  | .block _ b => if inBraces then b.lines else braced "" b.lines
  | .assign _ l r => [l.text ++ " = " ++ r.text ++ ";"]
  | .call _ e => [e.text ++ ";"]
  | .ifThen _ c a none => braced ("if (" ++ c.text ++ ") ") (a.lines true)
  | .ifThen _ c a (some b) =>
    ("if (" ++ c.text ++ ") \x7b") :: indent (a.lines true)
      ++ braced "\x7d else " (b.lines true)
  | .switch _ e cs => braced ("switch (" ++ e.text ++ ") ") (Case.lines cs)
  | .decl _ d => d.lines
  | .ret _ none => ["return;"]
  | .ret _ (some e) => ["return " ++ e.text ++ ";"]
  | .exit _ => ["exit;"]
  | .empty _ => [";"]
def Block.lines : Block → List String
  | .mk _ ss => Stmt.allLines ss
def Stmt.allLines : List Stmt → List String
  | [] => []
  | s :: ss => s.lines false ++ Stmt.allLines ss
def Case.lines : List Case → List String
  | [] => []
  | .run l b :: cs => braced (l.text ++ ": ") b.lines ++ Case.lines cs
  | .fallThrough l :: cs => (l.text ++ ":") :: Case.lines cs
def Decl.lines : Decl → List String
  | .header h fs => braced ("header " ++ h.name ++ " ") (fs.map (·.text))
  | .struct h fs => braced ("struct " ++ h.name ++ " ") (fs.map (·.text))
  | .externType h tps cs ms =>
    braced ("extern " ++ h.name ++ typeParamsText tps ++ " ")
      (cs.map (fun c => h.name ++ "(" ++ paramsText c.params ++ ");")
        ++ ms.map (fun m => m.text ++ ";"))
  | .externFn _ m => ["extern " ++ m.text ++ ";"]
  | .action h ps b => braced ("action " ++ h.name ++ "(" ++ paramsText ps ++ ") ") b.lines
  | .table h ks as d =>
    braced ("table " ++ h.name ++ " ")
      ((if ks.isEmpty then [] else braced "key = " (ks.map (·.text)))
        ++ braced "actions = " (as.map (fun a => a.text ++ ";"))
        ++ (d.map (fun e => "default_action = " ++ e.text ++ ";")).toList)
  | .control h tps ps cps ls b =>
    let ctor := if cps.isEmpty then "" else "(" ++ paramsText cps ++ ")"
    braced ("control " ++ h.name ++ typeParamsText tps ++ "(" ++ paramsText ps ++ ")" ++
      ctor ++ " ") (Decl.allLines ls ++ braced "apply " b.lines)
  | .package h tps ps =>
    ["package " ++ h.name ++ typeParamsText tps ++ "(" ++ paramsText ps ++ ");"]
  | .inst h t as => [t.text ++ "(" ++ Expr.argsText as ++ ") " ++ h.name ++ ";"]
  | .var h t none => [t.text ++ " " ++ h.name ++ ";"]
  | .var h t (some e) => [t.text ++ " " ++ h.name ++ " = " ++ e.text ++ ";"]
  | .const h t e => ["const " ++ t.text ++ " " ++ h.name ++ " = " ++ e.text ++ ";"]
def Decl.allLines : List Decl → List String
  | [] => []
  | d :: ds => d.lines ++ Decl.allLines ds
end

def Stmt.text (s : Stmt) : String := unlines (s.lines false)

def Decl.text (d : Decl) : String := unlines d.lines

def Program.text (p : Program) : String := unlines (Decl.allLines p.decls)

end MatchAction
