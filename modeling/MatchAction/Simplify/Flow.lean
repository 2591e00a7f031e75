import MatchAction.Edit.Editor

namespace MatchAction

namespace Flow

/-- Whether a statement of a block dissolves. -/
def dissolves : Stmt → Bool
  | .empty _ => true
  | .block _ b => !b.hasDecls
  | _ => false

def flatten : List Stmt → List Stmt
  | [] => []
  | .empty _ :: ss => flatten ss
  | .block t b :: ss => (if b.hasDecls then [.block t b] else b.stmts) ++ flatten ss
  | s :: ss => s :: flatten ss

def branch : Stmt → Splice Stmt
  | .ifThen _ (.bool _ true) a _ => [.put a]
  | .ifThen _ (.bool _ false) _ b => b.toList.map .put
  | .ifThen _ c a b =>
    if a.isEmpty && b.all (·.isEmpty) && !c.hasCall then [] else [.keep]
  | _ => [.keep]

def editor : Editor Unit where
  leaveBlock b :=
    if b.stmts.any dissolves then return .put (b.withStmts (flatten b.stmts)) else return .keep
  leaveStmt s := return branch s

end Flow

def Program.simplifyFlow (p : Program) : Supply (Edit Program) :=
  (·.1) <$> (Flow.editor.program p).run ()

end MatchAction
