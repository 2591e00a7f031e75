import Mathlib.Algebra.Order.Ring.Int
import MatchAction.Tree.Copy
import MatchAction.Tree.Walk

/-!
Weights of trees. Every node a walk lists weighs something by its identity, and something more if it
is a `return`, a declaration that does not belong where it stands, or a call of a name. What a tree
weighs is a sum, so a tree put together from parts weighs no more than they do.
-/

namespace MatchAction

open List

inductive Spot
  | toplevel
  | control
  | block

/-- One for a declaration that does not belong at a spot: controls hold actions, tables, instances,
variables and constants, and blocks the last three of these. -/
def Decl.flaw : Spot → Decl → Nat
  | .toplevel, _ => 0
  | .control, .action .. | .control, .table .. | .control, .inst .. | .control, .var ..
  | .control, .const .. => 0
  | .block, .inst .. | .block, .var .. | .block, .const .. => 0
  | _, _ => 1

def Decl.flaws (spot : Spot) (ds : List Decl) : Nat := (ds.map (Decl.flaw spot)).sum

theorem Decl.flaws_toplevel (ds : List Decl) : Decl.flaws .toplevel ds = 0 := by
  induction ds with
  | nil => rfl
  | cons d ds ih => simpa [Decl.flaws, Decl.flaw] using ih

structure Weights where
  node : NodeId → Nat
  ret : Nat
  misplaced : Nat
  call : String → Nat

namespace Weights

variable (m : Weights)

def callee : Expr → Nat
  | .call _ (.path _ f) _ _ => m.call f
  | _ => 0

def kind : Stmt → Nat
  | .ret .. => m.ret
  | .decl _ d => m.misplaced * d.flaw .block
  | .call _ e => m.callee e
  | _ => 0

def visit : Visit → Nat
  | .enter (.control h _ _ _ ls _) => m.node h.id + m.misplaced * Decl.flaws .control ls
  | .enter d => m.node d.id
  | .leave _ => 0
  | .block b => m.node b.id
  | .stmt s => m.node s.id + m.kind s
  | .key k => m.node k.id
  | .expr e => m.node e.id

def total (vs : List Visit) : Nat := (vs.map m.visit).sum

@[simp] theorem total_nil : m.total [] = 0 := rfl

@[simp] theorem total_cons (v : Visit) (vs : List Visit) :
    m.total (v :: vs) = m.visit v + m.total vs := by simp [total]

@[simp] theorem total_append (vs ws : List Visit) :
    m.total (vs ++ ws) = m.total vs + m.total ws := by simp [total]

def expr (e : Expr) : Nat := m.total e.visits
def exprs (es : List Expr) : Nat := m.total ((Expr.walks es).map .expr)
def expr? (e : Option Expr) : Nat := m.total (Expr.visits? e)
def key (k : Key) : Nat := m.total k.visits
def keys (ks : List Key) : Nat := m.total (ks.flatMap Key.visits)
def stmt (s : Stmt) : Nat := m.total s.visits
def block (b : Block) : Nat := m.total b.visits
def stmts (ss : List Stmt) : Nat := m.total (Stmt.allVisits ss)
def cases (cs : List Case) : Nat := m.total (Case.visits cs)
def decl (d : Decl) : Nat := m.total d.visits

def placed (spot : Spot) (d : Decl) : Nat := m.decl d + m.misplaced * d.flaw spot

def decls (spot : Spot) (ds : List Decl) : Nat :=
  m.total (Decl.allVisits ds) + m.misplaced * Decl.flaws spot ds

section

variable (t : Tag) (e l r c : Expr) (es as : List Expr)

attribute [local simp] expr exprs Expr.visits Expr.walk visit Expr.id Expr.tag

@[simp] theorem expr_lit (v : Int) (ty : TypeExpr) : m.expr (.lit t v ty) = m.node t.id := rfl
@[simp] theorem expr_bool (b : Bool) : m.expr (.bool t b) = m.node t.id := rfl
@[simp] theorem expr_path (n : String) : m.expr (.path t n) = m.node t.id := rfl

@[simp] theorem expr_member (n : String) : m.expr (.member t e n) = m.node t.id + m.expr e := by
  simp

@[simp] theorem expr_index : m.expr (.index t l r) = m.node t.id + (m.expr l + m.expr r) := by
  simp

@[simp] theorem expr_call (ts : List TypeExpr) :
    m.expr (.call t c ts as) = m.node t.id + (m.expr c + m.exprs as) := by
  simp

@[simp] theorem expr_construct (ty : TypeExpr) :
    m.expr (.construct t ty as) = m.node t.id + m.exprs as := by
  simp

@[simp] theorem expr_unary (op : UnaryOp) : m.expr (.unary t op e) = m.node t.id + m.expr e := by
  simp

@[simp] theorem expr_binary (op : BinaryOp) :
    m.expr (.binary t op l r) = m.node t.id + (m.expr l + m.expr r) := by
  simp

@[simp] theorem exprs_nil : m.exprs [] = 0 := rfl

@[simp] theorem exprs_cons : m.exprs (e :: es) = m.expr e + m.exprs es := by
  simp [Expr.walks]

@[simp] theorem expr?_none : m.expr? none = 0 := rfl
@[simp] theorem expr?_some : m.expr? (some e) = m.expr e := rfl

@[simp] theorem key_eq (k : Key) : m.key k = m.node k.id + m.expr k.expr := by
  simp [key, Key.visits]

@[simp] theorem keys_nil : m.keys [] = 0 := rfl

@[simp] theorem keys_cons (k : Key) (ks : List Key) : m.keys (k :: ks) = m.key k + m.keys ks := by
  simp [key, keys]

end

section

variable (t : Tag) (e l r : Expr) (s : Stmt) (ss : List Stmt) (b : Block)
    (cs : List Case) (d : Decl)

attribute [local simp] stmt block cases expr Stmt.visits visit kind Stmt.id Stmt.tag

@[simp] theorem stmt_block : m.stmt (.block t b) = m.node t.id + m.block b := by
  simp

@[simp] theorem stmt_assign : m.stmt (.assign t l r) = m.node t.id + (m.expr l + m.expr r) := by
  simp

@[simp] theorem stmt_call : m.stmt (.call t e) = m.node t.id + m.callee e + m.expr e := by
  simp

@[simp] theorem stmt_ifThen (a : Stmt) :
    m.stmt (.ifThen t e a none) = m.node t.id + (m.expr e + m.stmt a) := by
  simp

@[simp] theorem stmt_ifElse (a b : Stmt) :
    m.stmt (.ifThen t e a (some b)) = m.node t.id + (m.expr e + m.stmt a + m.stmt b) := by
  simp [Nat.add_assoc]

@[simp] theorem stmt_switch : m.stmt (.switch t e cs) = m.node t.id + (m.expr e + m.cases cs) := by
  simp

@[simp] theorem stmt_decl : m.stmt (.decl t d) = m.node t.id + m.placed .block d := by
  simp only [stmt, decl, placed, Stmt.visits, total_cons, visit, kind, Stmt.id, Stmt.tag]
  omega

@[simp] theorem stmt_ret (e : Option Expr) : m.stmt (.ret t e) = m.node t.id + m.ret +
    m.expr? e := by
  simp [expr?]

@[simp] theorem stmt_exit : m.stmt (.exit t) = m.node t.id := rfl
@[simp] theorem stmt_empty : m.stmt (.empty t) = m.node t.id := rfl

@[simp] theorem block_mk (i : NodeId) : m.block (.mk i ss) = m.node i + m.stmts ss := by
  simp [stmts, Block.visits, Block.id]

theorem block_eq : m.block b = m.node b.id + m.stmts b.stmts := by
  obtain ⟨i, ss⟩ := b
  exact m.block_mk ss i

theorem block_withStmts : m.block (b.withStmts ss) = m.node b.id + m.stmts ss := m.block_mk ss b.id

@[simp] theorem stmts_nil : m.stmts [] = 0 := rfl

@[simp] theorem stmts_cons : m.stmts (s :: ss) = m.stmt s + m.stmts ss := by
  simp [stmts, Stmt.allVisits]

@[simp] theorem stmts_append (as bs : List Stmt) : m.stmts (as ++ bs) = m.stmts as +
    m.stmts bs := by
  simp [stmts, Stmt.allVisits_append]

@[simp] theorem cases_nil : m.cases [] = 0 := rfl

@[simp] theorem cases_run (label : Label) :
    m.cases (.run label b :: cs) = m.block b + m.cases cs := by
  simp [Case.visits]

@[simp] theorem cases_fallThrough (label : Label) :
    m.cases (.fallThrough label :: cs) = m.cases cs := rfl

end

section

variable (h : Head) (spot : Spot) (ps cps : List Param) (tps : List String)

attribute [local simp] decl Decl.visits visit Decl.id Decl.head

@[simp] theorem decl_action (b : Block) : m.decl (.action h ps b) = m.node h.id + m.block b := by
  simp [block]

@[simp] theorem decl_table (ks : List Key) (as : List Expr) (e : Option Expr) :
    m.decl (.table h ks as e) = m.node h.id + (m.keys ks + m.exprs as + m.expr? e) := by
  simp [keys, exprs, expr?, Nat.add_assoc]

@[simp] theorem decls_nil : m.decls spot [] = 0 := rfl

@[simp] theorem decls_cons (d : Decl) (ds : List Decl) :
    m.decls spot (d :: ds) = m.placed spot d + m.decls spot ds := by
  simp only [decls, placed, decl, Decl.allVisits, Decl.flaws, total_append, map_cons,
    sum_cons, Nat.mul_add]
  omega

@[simp] theorem decls_append (as bs : List Decl) :
    m.decls spot (as ++ bs) = m.decls spot as + m.decls spot bs := by
  simp only [decls, Decl.allVisits_append, Decl.flaws, total_append, map_append,
    sum_append, Nat.mul_add]
  omega

@[simp] theorem decl_control (ls : List Decl) (b : Block) :
    m.decl (.control h tps ps cps ls b) = m.node h.id + (m.decls .control ls + m.block b) := by
  simp only [decl, decls, block, Decl.visits, total_cons, total_append, visit, total_nil]
  omega

@[simp] theorem decl_inst (ty : TypeExpr) (as : List Expr) :
    m.decl (.inst h ty as) = m.node h.id + m.exprs as := by
  simp [exprs]

@[simp] theorem decl_var (ty : TypeExpr) (e : Option Expr) :
    m.decl (.var h ty e) = m.node h.id + m.expr? e := by
  simp [expr?]

@[simp] theorem decl_const (ty : TypeExpr) (e : Expr) :
    m.decl (.const h ty e) = m.node h.id + m.expr e := by
  simp [expr]

@[simp] theorem placed_var (ty : TypeExpr) (e : Option Expr) :
    m.placed spot (.var h ty e) = m.node h.id + m.expr? e := by
  cases spot <;> simp [placed, Decl.flaw, expr?]

theorem placed_action : ∃ c, ∀ b, m.placed spot (.action h ps b) = c + m.block b := by
  refine ⟨m.node h.id + m.misplaced * Decl.flaw spot (.action h ps (.mk ⟨0⟩ [])), fun b => ?_⟩
  have hflaw : Decl.flaw spot (.action h ps b) = Decl.flaw spot (.action h ps (.mk ⟨0⟩ [])) := by
    cases spot <;> rfl
  rw [placed, decl_action, hflaw]
  omega

theorem placed_control :
    ∃ c, ∀ ls b, m.placed spot (.control h tps ps cps ls b) = c + m.decls .control ls +
      m.block b := by
  refine ⟨m.node h.id + m.misplaced * Decl.flaw spot (.control h tps ps cps [] (.mk ⟨0⟩ [])),
    fun ls b => ?_⟩
  have hflaw : Decl.flaw spot (.control h tps ps cps ls b)
      = Decl.flaw spot (.control h tps ps cps [] (.mk ⟨0⟩ [])) := by
    cases spot <;> rfl
  rw [placed, decl_control, hflaw]
  omega

theorem decls_toplevel (ds : List Decl) : m.decls .toplevel ds = m.total (Decl.allVisits ds) := by
  simp [decls, Decl.flaws_toplevel]

end

def spent (n n' : Nat) : Nat := ((List.range' n (n' - n)).map fun i => m.node ⟨i⟩).sum

@[simp] theorem spent_self (n : Nat) : m.spent n n = 0 := by simp [spent]

@[simp] theorem spent_succ (n : Nat) : m.spent n (n + 1) = m.node ⟨n⟩ := by simp [spent]

theorem spent_add {n n₁ n₂ : Nat} (h₁ : n ≤ n₁) (h₂ : n₁ ≤ n₂) :
    m.spent n n₂ = m.spent n n₁ + m.spent n₁ n₂ := by
  obtain ⟨a, rfl⟩ := Nat.exists_eq_add_of_le h₁
  obtain ⟨b, rfl⟩ := Nat.exists_eq_add_of_le h₂
  have hlen : n + a + b - n = a + b := by omega
  rw [spent, spent, spent, hlen, Nat.add_sub_cancel_left, Nat.add_sub_cancel_left,
    ← range'_append_1, map_append, sum_append]

def flaws : Weights := { m with node := fun _ => 0 }

@[simp] theorem flaws_flaws : m.flaws.flaws = m.flaws := rfl
@[simp] theorem flaws_node (i : NodeId) : m.flaws.node i = 0 := rfl
@[simp] theorem flaws_misplaced : m.flaws.misplaced = m.misplaced := rfl
@[simp] theorem flaws_ret : m.flaws.ret = m.ret := rfl

@[simp] theorem flaws_spent (n n' : Nat) : m.flaws.spent n n' = 0 := by
  simp [spent, map_const']

theorem flaws_total_exprs (es : List Expr) : m.flaws.total (es.map .expr) = 0 := by
  induction es with
  | nil => rfl
  | cons e es ih => simp [visit, ih]

@[simp] theorem flaws_expr (e : Expr) : m.flaws.expr e = 0 := m.flaws_total_exprs e.walk

@[simp] theorem flaws_exprs (es : List Expr) : m.flaws.exprs es = 0 :=
  m.flaws_total_exprs (Expr.walks es)

@[simp] theorem flaws_expr? (e : Option Expr) : m.flaws.expr? e = 0 := by
  cases e with
  | none => rfl
  | some e => exact m.flaws_expr e

def Silent : Prop := ∀ f, m.call f = 0

variable {m}

theorem Silent.flaws (h : m.Silent) : m.flaws.Silent := h

theorem Silent.callee (h : m.Silent) (e : Expr) : m.callee e = 0 := by
  unfold Weights.callee
  split
  · exact h _
  · rfl

theorem total_eq_zero {vs : List Visit} : m.total vs = 0 ↔ ∀ v ∈ vs, m.visit v = 0 := by
  induction vs with
  | nil => simp
  | cons v vs ih => simp [ih]

end Weights

end MatchAction
