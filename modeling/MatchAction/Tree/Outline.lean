import MatchAction.Tree.Printer
import MatchAction.Tree.Walk

namespace MatchAction

def Expr.kind : Expr → String
  | .lit .. => "const"
  | .bool .. => "bool"
  | .path .. => "path"
  | .member .. => "member"
  | .index .. => "index"
  | .call .. => "call"
  | .construct .. => "ctor"
  | .unary .. => "un"
  | .binary .. => "bin"

def Stmt.kind : Stmt → String
  | .block .. => "block"
  | .assign .. => "assign"
  | .call .. => "call"
  | .ifThen .. => "if"
  | .switch .. => "switch"
  | .decl .. => "decl"
  | .ret .. => "return"
  | .exit .. => "exit"
  | .empty .. => "empty"

def Decl.kind : Decl → String
  | .header .. => "header"
  | .struct .. => "struct"
  | .externType .. => "extern"
  | .externFn .. => "externfn"
  | .action .. => "action"
  | .table .. => "table"
  | .control .. => "control"
  | .package .. => "package"
  | .inst .. => "inst"
  | .var .. => "var"
  | .const .. => "const"

def Visit.text : Visit → String
  | .enter d => "decl " ++ d.kind ++ " " ++ d.name
  | .leave d => "end " ++ d.name
  | .block b => "block " ++ toString b.stmts.length
  | .stmt s => "stmt " ++ s.kind
  | .key k => "key " ++ k.matchKind
  | .expr e => "expr " ++ e.kind ++ " " ++ e.text

def Program.outline (p : Program) : List String := p.visits.map (·.text)

end MatchAction
