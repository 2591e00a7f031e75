import MatchAction.Edit.Editor
import MatchAction.Tree.Copy
import MatchAction.Tree.Outline

namespace MatchAction

/-- A rule without an act must not be used. -/
structure Rule (α : Type) where
  kind : Option String
  text : Option String
  act : Option α

def Rule.fits {α : Type} (r : Rule α) (kind text : String) : Bool :=
  r.kind.all (· == kind) && r.text.all (· == text)

inductive EnterAct (α : Type)
  | prune
  | replace (template : α)
  | descend

inductive DeclAct
  | delete
  | duplicate
  | rename (name : String)
  | rebuild
  | keep

inductive StmtAct
  | delete
  | duplicate
  | emptyBefore
  | replace (template : Stmt)
  | keep

inductive BlockAct
  | reverse
  | keep

inductive KeyAct
  | matchKind (kind : String)
  | renew
  | keep

inductive ExprAct
  | replace (template : Expr)
  | keep

structure Script where
  enterDecl : List (Rule (EnterAct Decl))
  leaveDecl : List (Rule DeclAct)
  enterStmt : List (Rule (EnterAct Stmt))
  leaveStmt : List (Rule StmtAct)
  leaveBlock : List (Rule BlockAct)
  leaveKey : List (Rule KeyAct)
  enterExpr : List (Rule (EnterAct Expr))
  leaveExpr : List (Rule ExprAct)

namespace Script

/-- The hook calls so far, newest first. There is no log once a rule without an act was used. -/
abbrev Log := Option (List String)

/-- Writes a hook call to the log and finds what the first fitting rule does, `idle` if none
fits. -/
def call {α : Type} (hook : String) (rules : List (Rule α)) (idle : α) (kind text : String) :
    Editing Log α := do
  modify (·.map ((hook ++ " " ++ kind ++ " " ++ text) :: ·))
  match rules.find? (·.fits kind text) with
  | none => return idle
  | some ⟨_, _, some a⟩ => return a
  | some ⟨_, _, none⟩ =>
    set (none : Log)
    return idle

def enter {α : Type} (copy : α → Supply α) : EnterAct α → Editing Log (Entry α)
  | .prune => return .prune
  | .replace a => return .into (← copy a)
  | .descend => return .descend

def editor (s : Script) : Editor Log where
  enterDecl d := do
    enter Decl.copy (← call "pre_decl" s.enterDecl .descend d.kind d.name)
  leaveDecl d := do
    match ← call "post_decl" s.leaveDecl .keep d.kind d.name with
    | .delete => return []
    | .duplicate => return [.keep, .put ((← d.copy).rename (d.name ++ "_dup"))]
    | .rename n => return [.put (d.rename n)]
    | .rebuild => return [.put d]
    | .keep => return [.keep]
  enterStmt t := do
    enter Stmt.copy (← call "pre_stmt" s.enterStmt .descend t.kind "")
  leaveStmt t := do
    match ← call "post_stmt" s.leaveStmt .keep t.kind "" with
    | .delete => return []
    | .duplicate => return [.keep, .put (← t.copy)]
    | .emptyBefore => return [.put (.empty (← Tag.fresh none)), .keep]
    | .replace t' => return [.put (← t'.copy)]
    | .keep => return [.keep]
  leaveBlock b := do
    match ← call "post_block" s.leaveBlock .keep "block" "" with
    | .reverse => return .put (b.withStmts b.stmts.reverse)
    | .keep => return .keep
  leaveKey k := do
    match ← call "post_key" s.leaveKey .keep k.matchKind "" with
    | .matchKind kind => return { k.kept with matchKind := kind }
    | .renew => return { k.kept with id := ← freshId }
    | .keep => return k.kept
  enterExpr e := do
    enter Expr.copy (← call "pre_expr" s.enterExpr .descend e.kind e.text)
  leaveExpr e := do
    match ← call "post_expr" s.leaveExpr .keep e.kind e.text with
    | .replace e' => return .put (← e'.copy)
    | .keep => return .keep

/-- Replacements that go on nest no deeper than there are rules for them, unless they never end. -/
def depth (s : Script) : Nat :=
  s.enterDecl.length + s.enterStmt.length + s.enterExpr.length

/-- Each toplevel declaration with what the rules make of it, and the log of hook calls. Fails if
a rule without an act was used. -/
def run (s : Script) (p : Program) : Supply (Option (List (Decl × Splice Decl) × List String)) := do
  let (ds, log) ← (s.editor.splices (s.editor.continuation s.depth) p).run (some [])
  return log.map fun calls => (ds, calls.reverse)

end Script

end MatchAction
