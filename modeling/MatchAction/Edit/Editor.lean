import MatchAction.Edit.Basic
import MatchAction.Tree.Program

/-!
Editing by hooks. An editor says what happens before the children of a node are visited and what
becomes of the node once they are; the traversal rebuilds a node around its new children under
its old identity, and keeps the node if nothing below it changed and no hook replaced it.
-/

namespace MatchAction

/-- What to do with a node before its children are visited. -/
inductive Entry (α : Type)
  /-- Visit the children, then the node again. -/
  | descend
  /-- Leave the node and all below it as they are. -/
  | prune
  /-- Go on with another node in its place. -/
  | into (new : α)
  /-- Put another node in its place, as it is. -/
  | swap (new : α)

/-- Editing with a state of its own and a supply of identities. -/
abbrev Editing (σ : Type) := StateT σ Supply

/-- What becomes of a key column; its expression may be kept while the rest is not. -/
structure KeyEdit where
  id : NodeId
  expr : Edit Expr
  matchKind : String

def Key.kept (k : Key) : KeyEdit := ⟨k.id, .keep, k.matchKind⟩

structure Editor (σ : Type) where
  enterDecl : Decl → Editing σ (Entry Decl) := fun _ => pure .descend
  leaveDecl : Decl → Editing σ (Splice Decl) := fun _ => pure [.keep]
  enterStmt : Stmt → Editing σ (Entry Stmt) := fun _ => pure .descend
  leaveStmt : Stmt → Editing σ (Splice Stmt) := fun _ => pure [.keep]
  leaveBlock : Block → Editing σ (Edit Block) := fun _ => pure .keep
  leaveKey : Key → Editing σ KeyEdit := fun k => pure k.kept
  enterExpr : Expr → Editing σ (Entry Expr) := fun _ => pure .descend
  leaveExpr : Expr → Editing σ (Edit Expr) := fun _ => pure .keep

/-- How to go on with a node that a hook put in place of another: visit what is below it, then
the node. -/
structure Continuation (σ : Type) where
  decl : Decl → Editing σ (List Decl)
  stmt : Stmt → Editing σ (List Stmt)
  expr : Expr → Editing σ Expr

namespace Editor

variable {σ : Type} (w : Editor σ) (k : Continuation σ)

/-- The hooks around an expression whose children `children` visits. With `entered` the first
hook has been called already. -/
def aroundExpr (entered : Bool) (e : Expr) (children : Editing σ (Edit Expr)) :
    Editing σ (Edit Expr) := do
  let entry ← if entered then pure .descend else w.enterExpr e
  match entry with
  | .descend =>
    let x ← children
    let y ← w.leaveExpr (x.get e)
    return x.andThen y
  | .prune => return .keep
  | .into e' => return .put (← k.expr e')
  | .swap e' => return .put e'

mutual
def visitExpr (entered : Bool) : Expr → Editing σ (Edit Expr)
  | .lit t v ty => w.aroundExpr k entered (.lit t v ty) (pure .keep)
  | .bool t b => w.aroundExpr k entered (.bool t b) (pure .keep)
  | .path t n => w.aroundExpr k entered (.path t n) (pure .keep)
  | .member t b n => w.aroundExpr k entered (.member t b n) do
    return (← visitExpr false b).map (.member t · n)
  | .index t b i => w.aroundExpr k entered (.index t b i) do
    let x ← visitExpr false b
    let y ← visitExpr false i
    return x.map₂ (.index t) b i y
  | .call t c ts as => w.aroundExpr k entered (.call t c ts as) do
    let x ← visitExpr false c
    let y ← visitExprs as
    return x.map₂ (.call t · ts ·) c as y
  | .construct t ty as => w.aroundExpr k entered (.construct t ty as) do
    return (← visitExprs as).map (.construct t ty)
  | .unary t op e => w.aroundExpr k entered (.unary t op e) do
    return (← visitExpr false e).map (.unary t op)
  | .binary t op l r => w.aroundExpr k entered (.binary t op l r) do
    let x ← visitExpr false l
    let y ← visitExpr false r
    return x.map₂ (.binary t op) l r y
def visitExprs : List Expr → Editing σ (Edit (List Expr))
  | [] => return .keep
  | e :: es => do
    let x ← visitExpr false e
    let y ← visitExprs es
    return x.map₂ (· :: ·) e es y
end

def visitExpr? : Option Expr → Editing σ (Edit (Option Expr))
  | none => return .keep
  | some e => return (← w.visitExpr k false e).map some

/-- A key column counts as kept if its identity, its match kind and its expression are. -/
def visitKey (key : Key) : Editing σ (Edit Key) := do
  let x ← w.visitExpr k false key.expr
  let r ← w.leaveKey { key with expr := x.get key.expr }
  let y := x.andThen r.expr
  if r.id = key.id ∧ r.matchKind = key.matchKind ∧ y.isKeep then
    return .keep
  else
    return .put ⟨r.id, y.get key.expr, r.matchKind⟩

def visitKeys : List Key → Editing σ (Edit (List Key))
  | [] => return .keep
  | key :: keys => do
    let x ← w.visitKey k key
    let y ← visitKeys keys
    return x.map₂ (· :: ·) key keys y

/-- Each node that came out of `old` is left; what the hook says about it follows on. -/
def leaveEach {α : Type} (leave : α → Editing σ (Splice α)) (old : α) :
    Splice α → Editing σ (Splice α)
  | [] => return []
  | x :: xs => do
    let ys ← leave (x.get old)
    return ys.map x.andThen ++ (← leaveEach leave old xs)

def aroundStmt (entered : Bool) (s : Stmt) (children : Editing σ (Splice Stmt)) :
    Editing σ (Splice Stmt) := do
  let entry ← if entered then pure .descend else w.enterStmt s
  match entry with
  | .descend => leaveEach w.leaveStmt s (← children)
  | .prune => return [.keep]
  | .into s' => return (← k.stmt s').map .put
  | .swap s' => return [.put s']

def aroundDecl (entered : Bool) (d : Decl) (children : Editing σ (Edit Decl)) :
    Editing σ (Splice Decl) := do
  let entry ← if entered then pure .descend else w.enterDecl d
  match entry with
  | .descend => leaveEach w.leaveDecl d [← children]
  | .prune => return [.keep]
  | .into d' => return (← k.decl d').map .put
  | .swap d' => return [.put d']

/-- A branch has room for one statement: none leaves an empty one, several become a block. -/
def single : Splice Stmt → Stmt → Editing σ (Edit Stmt)
  | [x], _ => return x
  | [], _ => return .put (.empty (← Tag.fresh none))
  | xs, old => return .put (.block (← Tag.fresh none) (.mk (← freshId) (xs.map (·.get old))))

/-- The declarations a declaration statement turned into, as statements: the first takes over the
statement, the others get statements of their own. -/
def declared (t : Tag) (d : Decl) : Splice Decl → Editing σ (Splice Stmt)
  | [.keep] => return [.keep]
  | [] => return []
  | x :: xs => do
    let others ← xs.mapM fun y => return Edit.put (← Stmt.declare (y.get d))
    return .put (.decl t (x.get d)) :: others

mutual
def visitStmt (entered : Bool) : Stmt → Editing σ (Splice Stmt)
  | .block t b => w.aroundStmt k entered (.block t b) do
    return [(← visitBlock b).map (.block t)]
  | .assign t l r => w.aroundStmt k entered (.assign t l r) do
    let x ← w.visitExpr k false l
    let y ← w.visitExpr k false r
    return [x.map₂ (.assign t) l r y]
  | .call t e => w.aroundStmt k entered (.call t e) do
    return [(← w.visitExpr k false e).map (.call t)]
  | .ifThen t c a none => w.aroundStmt k entered (.ifThen t c a none) do
    let x ← w.visitExpr k false c
    let y ← single (← visitStmt false a) a
    return [x.map₂ (.ifThen t · · none) c a y]
  | .ifThen t c a (some b) => w.aroundStmt k entered (.ifThen t c a (some b)) do
    let x ← w.visitExpr k false c
    let y ← single (← visitStmt false a) a
    let z ← single (← visitStmt false b) b
    return [x.map₂ (fun c ab => .ifThen t c ab.1 (some ab.2)) c (a, b) (y.map₂ Prod.mk a b z)]
  | .switch t e cs => w.aroundStmt k entered (.switch t e cs) do
    let x ← w.visitExpr k false e
    let y ← visitCases cs
    return [x.map₂ (.switch t) e cs y]
  | .decl t d => w.aroundStmt k entered (.decl t d) do
    declared t d (← visitDecl false d)
  | .ret t e => w.aroundStmt k entered (.ret t e) do
    return [(← w.visitExpr? k e).map (.ret t)]
  | .exit t => w.aroundStmt k entered (.exit t) (pure [.keep])
  | .empty t => w.aroundStmt k entered (.empty t) (pure [.keep])
def visitBlock : Block → Editing σ (Edit Block)
  | .mk i ss => do
    let x := (← visitStmts ss).map (Block.mk i)
    let y ← w.leaveBlock (x.get (.mk i ss))
    return x.andThen y
def visitStmts : List Stmt → Editing σ (Edit (List Stmt))
  | [] => return .keep
  | s :: ss => do
    let x ← visitStmt false s
    let y ← visitStmts ss
    return (x.toEdit s).map₂ (· ++ ·) [s] ss y
def visitCases : List Case → Editing σ (Edit (List Case))
  | [] => return .keep
  | .run l b :: cs => do
    let x := (← visitBlock b).map (Case.run l)
    let y ← visitCases cs
    return x.map₂ (· :: ·) (.run l b) cs y
  | .fallThrough l :: cs => return (← visitCases cs).map (.fallThrough l :: ·)
def visitDecl (entered : Bool) : Decl → Editing σ (Splice Decl)
  | .header h fs => w.aroundDecl k entered (.header h fs) (pure .keep)
  | .struct h fs => w.aroundDecl k entered (.struct h fs) (pure .keep)
  | .externType h tps cs ms => w.aroundDecl k entered (.externType h tps cs ms) (pure .keep)
  | .externFn h m => w.aroundDecl k entered (.externFn h m) (pure .keep)
  | .action h ps b => w.aroundDecl k entered (.action h ps b) do
    return (← visitBlock b).map (.action h ps)
  | .table h ks as d => w.aroundDecl k entered (.table h ks as d) do
    let x ← w.visitKeys k ks
    let y ← w.visitExprs k as
    let z ← w.visitExpr? k d
    return x.map₂ (fun ks ad => .table h ks ad.1 ad.2) ks (as, d) (y.map₂ Prod.mk as d z)
  | .control h tps ps cps ls b => w.aroundDecl k entered (.control h tps ps cps ls b) do
    let x ← visitDecls ls
    let y ← visitBlock b
    return x.map₂ (.control h tps ps cps) ls b y
  | .package h tps ps => w.aroundDecl k entered (.package h tps ps) (pure .keep)
  | .inst h t as => w.aroundDecl k entered (.inst h t as) do
    return (← w.visitExprs k as).map (.inst h t)
  | .var h t e => w.aroundDecl k entered (.var h t e) do
    return (← w.visitExpr? k e).map (.var h t)
  | .const h t e => w.aroundDecl k entered (.const h t e) do
    return (← w.visitExpr k false e).map (.const h t)
def visitDecls : List Decl → Editing σ (Edit (List Decl))
  | [] => return .keep
  | d :: ds => do
    let x ← visitDecl false d
    let y ← visitDecls ds
    return (x.toEdit d).map₂ (· ++ ·) [d] ds y
end

/-- Goes on with replacements that nest at most `depth` deep; deeper ones stay as they are. -/
def continuation : Nat → Continuation σ
  | 0 => ⟨fun d => pure [d], fun s => pure [s], fun e => pure e⟩
  | depth + 1 =>
    let k := continuation depth
    ⟨fun d => return (← w.visitDecl k true d).map (·.get d),
      fun s => return (← w.visitStmt k true s).map (·.get s),
      fun e => return (← w.visitExpr k true e).get e⟩

/-- For editors that never go on with another node. -/
def stop : Continuation σ := ⟨fun d => pure [d], fun s => pure [s], fun e => pure e⟩

def decls (ds : List Decl) : Editing σ (Edit (List Decl)) := w.visitDecls stop ds

def decl (d : Decl) : Editing σ (Splice Decl) := w.visitDecl stop false d

def block (b : Block) : Editing σ (Edit Block) := w.visitBlock stop b

def program (p : Program) : Editing σ (Edit Program) := return (← w.decls p.decls).map .mk

end Editor

/-- Each toplevel declaration with what becomes of it. -/
def Editor.splices {σ : Type} (w : Editor σ) (k : Continuation σ) (p : Program) :
    Editing σ (List (Decl × Splice Decl)) :=
  p.decls.mapM fun d => return (d, ← w.visitDecl k false d)

end MatchAction
