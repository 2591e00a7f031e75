import MatchAction.Proofs.Editors
import MatchAction.Proofs.Places
import MatchAction.Scoping.Renaming
import MatchAction.Typing.Check

namespace MatchAction

open List

namespace Renaming

def term (r : Renaming) (ρ : Env) (x : Referent) : Term :=
  match r.replacements.get? x.id, r.names.get? x.id with
  | some e, _ => e.term ρ
  | none, some n => (ρ n).getD .unbound
  | none, none => (ρ x.name).getD .unbound

variable {r : Renaming} {c : Checked}

theorem term_leaveExpr_path (hx : c.refs.get? t.id = some x)
    (hn : x.name = n) (ρ : Env) (k : Nat) :
    ((((r.editor c.refs c.types).leaveExpr (.path t n)) () k).1.1.get (.path t n)).term ρ =
      r.term ρ x := by
  subst hn
  simp only [editor, hx, term]
  cases r.replacements.get? x.id with
  | some e => exact Expr.term_copy ρ e k
  | none =>
    cases r.names.get? x.id with
    | some n => rfl
    | none => rfl

/-- Environments before and after the renaming, at places that see the given names, that keep
telling the same of every name. -/
structure Follows (r : Renaming) (E : Scopes → Env → Env → Prop) : Prop where
  path : ∀ {sc ρ ρ'} {n : String} {x : Referent}, E sc ρ ρ' → sc.lookup n = some x → x.name = n →
    r.term ρ' x = (ρ n).getD .unbound
  push : ∀ {sc ρ ρ'}, E sc ρ ρ' → E sc.push ρ ρ'

def Resolved (c : Checked) (sc : Scopes) (es : List Expr) : Prop :=
  ∀ t n, .path t n ∈ es → ∃ x, sc.lookup n = some x ∧ x.name = n ∧ c.refs.get? t.id = some x

theorem Resolved.mono (h : Resolved c sc es') (hs : es ⊆ es') :
    Resolved c sc es := fun t n ht => h t n (hs ht)

theorem get_around_expr (e' : Expr)
    (hy : (y () n).1.1.get e = e') (h : ∀ t x, e' ≠ .path t x) :
    ((r.editor c.refs c.types).aroundExpr Editor.stop false e y () n).1.1.get e = e' := by
  rw [Editor.get_aroundExpr rfl, hy]
  cases e' with
  | path t x => exact absurd rfl (h t x)
  | _ => rfl

variable {E : Scopes → Env → Env → Prop} {sc : Scopes} {ρ ρ' : Env}

mutual
theorem term_visitExpr (hf : r.Follows E) (hE : E sc ρ ρ') : (e : Expr) → Resolved c sc e.walk →
    ∀ n, (((r.editor c.refs c.types).visitExpr Editor.stop false e () n).1.1.get e).term ρ' =
      e.term ρ
  | .lit t v ty, _, _ =>
    congrArg (Expr.term ρ') (get_around_expr (.lit t v ty) rfl (by simp))
  | .bool t v, _, _ => congrArg (Expr.term ρ') (get_around_expr (.bool t v) rfl (by simp))
  | .path t n, h, k => by
    obtain ⟨x, hl, hn, hx⟩ := h t n (by simp [Expr.walk])
    rw [Editor.visitExpr, Editor.get_aroundExpr rfl]
    exact (term_leaveExpr_path hx hn ρ' k).trans (hf.path hE hl hn)
  | .member t b m, h, k => by
    have hb := term_visitExpr hf hE b (h.mono (by simp [Expr.walk])) k
    rw [Editor.visitExpr, get_around_expr _ (Edit.get_map (Expr.member t · m) b _) (by simp)]
    simp only [Expr.term, hb]
  | .index t b i, h, k => by
    have hb := term_visitExpr hf hE b (h.mono fun e he => by simp [Expr.walk, he])
    have hi := term_visitExpr hf hE i (h.mono fun e he => by simp [Expr.walk, he])
    rw [Editor.visitExpr, get_around_expr _ (Edit.get_map₂ (Expr.index t) b i _ _) (by simp)]
    simp only [Expr.term, hb, hi]
  | .call t f ts as, h, k => by
    have hc := term_visitExpr hf hE f (h.mono fun e he => by simp [Expr.walk, he])
    have has := terms_visitExprs hf hE as (h.mono fun e he => by simp [Expr.walk, he])
    rw [Editor.visitExpr, get_around_expr _ (Edit.get_map₂ (Expr.call t · ts ·) f as _ _) (by simp)]
    simp only [Expr.term, hc, has]
  | .construct t ty as, h, k => by
    have has := terms_visitExprs hf hE as (h.mono fun e he => by simp [Expr.walk, he])
    rw [Editor.visitExpr, get_around_expr _ (Edit.get_map (Expr.construct t ty) as _) (by simp)]
    simp only [Expr.term, has]
  | .unary t op e, h, k => by
    have he := term_visitExpr hf hE e (h.mono (by simp [Expr.walk]))
    rw [Editor.visitExpr, get_around_expr _ (Edit.get_map (Expr.unary t op) e _) (by simp)]
    simp only [Expr.term, he]
  | .binary t op a b, h, k => by
    have ha := term_visitExpr hf hE a (h.mono fun e he => by simp [Expr.walk, he])
    have hb := term_visitExpr hf hE b (h.mono fun e he => by simp [Expr.walk, he])
    rw [Editor.visitExpr, get_around_expr _ (Edit.get_map₂ (Expr.binary t op) a b _ _) (by simp)]
    simp only [Expr.term, ha, hb]
theorem terms_visitExprs (hf : r.Follows E) (hE : E sc ρ ρ') : (es : List Expr) →
    Resolved c sc (Expr.walks es) → ∀ n,
    Expr.terms ρ' (((r.editor c.refs c.types).visitExprs Editor.stop es () n).1.1.get es) =
      Expr.terms ρ es
  | [], _, _ => rfl
  | e :: es, h, k => by
    have he := term_visitExpr hf hE e (h.mono fun e he => by simp [Expr.walks, he])
    have hes := terms_visitExprs hf hE es (h.mono fun e he => by simp [Expr.walks, he])
    simp only [Editor.visitExprs, Supply.stateT_bind_apply, Supply.stateT_pure_apply,
      Edit.get_map₂, Expr.terms, he, hes]
end

theorem term_visitExpr? (hf : r.Follows E) (hE : E sc ρ ρ') (e : Option Expr)
    (h : ∀ t n, Visit.expr (.path t n) ∈ Expr.visits? e →
      ∃ x, sc.lookup n = some x ∧ x.name = n ∧ c.refs.get? t.id = some x) (n : Nat) :
    Expr.terms ρ' (((r.editor c.refs c.types).visitExpr? Editor.stop e () n).1.1.get e).toList =
      Expr.terms ρ e.toList := by
  cases e with
  | none => rfl
  | some e =>
    have he := term_visitExpr hf hE e (fun t n ht => h t n (by
      simpa [Expr.visits?, Expr.visits] using ht)) n
    simp only [Editor.visitExpr?, Supply.stateT_bind_apply, Supply.stateT_pure_apply]
    rw [Edit.get_map]
    simp only [Option.toList_some, Expr.terms, he]

end Renaming

section

variable (r : Renaming) (c : Checked) (n : Nat)

def Renaming.visited (e : Expr) : Expr :=
  ((r.editor c.refs c.types).visitExpr Editor.stop false e () n).1.1.get e

def Renaming.relabelled : Stmt → Stmt
  | .switch t e cs => .switch t e ((r.cases c.refs c.types e cs).get cs)
  | s => s

def Renaming.visitedStmt (s : Stmt) : Stmt :=
  (((r.editor c.refs c.types).visitStmt Editor.stop false s () n).1.1.map (·.get s)).headD s

def Renaming.visitedBlock (b : Block) : Block :=
  ((r.editor c.refs c.types).visitBlock Editor.stop b () n).1.1.get b

def Renaming.visitedStmts (ss : List Stmt) : List Stmt :=
  ((r.editor c.refs c.types).visitStmts Editor.stop ss () n).1.1.get ss

def Renaming.visitedCases (cs : List Case) : List Case :=
  ((r.editor c.refs c.types).visitCases Editor.stop cs () n).1.1.get cs

def Renaming.visitedDecl (d : Decl) : Decl :=
  (((r.editor c.refs c.types).visitDecl Editor.stop false d () n).1.1.map (·.get d)).headD d

end

namespace Renaming

variable {r : Renaming} {c : Checked}

theorem leaveStmt_single (s : Stmt) (st : Unit) (n : Nat) :
    ∃ x, ((r.editor c.refs c.types).leaveStmt s st n).1.1 = [x] ∧ x.get s = r.relabelled c s := by
  cases s with
  | switch t e cs => exact ⟨_, rfl, Edit.get_map (Stmt.switch t e) cs _⟩
  | _ => exact ⟨.keep, rfl, rfl⟩

theorem around_single
    (hy : (y () n).1.1 = [x]) (hx : r.relabelled c (x.get s) = s') :
    ∃ z, ((r.editor c.refs c.types).aroundStmt Editor.stop false s y () n).1.1 = [z] ∧
      z.get s = s' := by
  obtain ⟨z, hz, hget⟩ := leaveStmt_single (r := r) (c := c) (x.get s) (y () n).1.2 (y () n).2
  refine ⟨x.andThen z, ?_, (Edit.get_andThen s x z).trans (hget.trans hx)⟩
  rw [Editor.aroundStmt_descend rfl, Supply.stateT_bind_apply, hy, Editor.leaveEach_singleton,
    Supply.stateT_map_apply, hz]
  rfl

theorem visitDecl_single (d : Decl) (n : Nat) :
    ∃ x, ((r.editor c.refs c.types).visitDecl Editor.stop false d () n).1.1 = [x] ∧ x.get d =
      let d' := ((r.editor c.refs c.types).declParts Editor.stop d () n).1.1.get d
      (r.names.get? d.id).elim d' d'.rename := by
  let y := ((r.editor c.refs c.types).declParts Editor.stop d () n).1.1
  have hid : (y.get d).id = d.id := congrArg Head.id (Editor.head_declParts d () n)
  rw [Editor.visitDecl_eq, Editor.aroundDecl_descend rfl, Supply.stateT_bind_apply,
    Editor.leaveEach_singleton, Supply.stateT_map_apply]
  change ∃ x, (((r.editor c.refs c.types).leaveDecl (y.get d) () _).1.1).map y.andThen = [x] ∧ _
  simp only [editor, hid]
  cases r.names.get? d.id with
  | none => exact ⟨y, by simp, rfl⟩
  | some n' => exact ⟨.put _, rfl, rfl⟩

section

variable {t : Tag} {e : Expr} {a b : Stmt} {d : Decl} {n : Nat}

theorem visitStmt_ifThen
    (hx : ((r.editor c.refs c.types).visitStmt Editor.stop false a ()
      ((r.editor c.refs c.types).visitExpr Editor.stop false e () n).2).1.1 = [x]) :
    ∃ z, ((r.editor c.refs c.types).visitStmt Editor.stop false (.ifThen t e a none) () n).1.1 =
      [z] ∧ z.get (.ifThen t e a none) = .ifThen t (r.visited c n e) (x.get a) none := by
  let v := (r.editor c.refs c.types).visitExpr Editor.stop false e () n
  rw [Editor.visitStmt]
  refine around_single (x := v.1.1.map₂ (Stmt.ifThen t · · none) e a x) ?_
    (congrArg _ (Edit.get_map₂ (Stmt.ifThen t · · none) e a _ x))
  simp only [Supply.stateT_bind_apply, Supply.stateT_pure_apply, hx, Editor.single]
  rfl

theorem visitStmt_ifElse
    (hx : ((r.editor c.refs c.types).visitStmt Editor.stop false a ()
      ((r.editor c.refs c.types).visitExpr Editor.stop false e () n).2).1.1 = [x])
    (hy : ((r.editor c.refs c.types).visitStmt Editor.stop false b ()
      ((r.editor c.refs c.types).visitStmt Editor.stop false a ()
        ((r.editor c.refs c.types).visitExpr Editor.stop false e () n).2).2).1.1 = [y]) :
    ∃ z, ((r.editor c.refs c.types).visitStmt Editor.stop false (.ifThen t e a (some b)) () n).1.1 =
      [z] ∧ z.get (.ifThen t e a (some b)) =
        .ifThen t (r.visited c n e) (x.get a) (some (y.get b)) := by
  let v := (r.editor c.refs c.types).visitExpr Editor.stop false e () n
  rw [Editor.visitStmt]
  refine around_single (x := v.1.1.map₂ (fun c ab => Stmt.ifThen t c ab.1 (some ab.2)) e (a, b)
    (x.map₂ Prod.mk a b y)) ?_ (congrArg _ (Editor.get_ifElse t e a b _ x y))
  simp only [Supply.stateT_bind_apply, Supply.stateT_pure_apply, hx, hy, Editor.single]
  rfl

theorem visitStmt_decl
    (hx : ((r.editor c.refs c.types).visitDecl Editor.stop false d () n).1.1 = [x]) :
    ∃ z, ((r.editor c.refs c.types).visitStmt Editor.stop false (.decl t d) () n).1.1 = [z] ∧
      z.get (.decl t d) = .decl t (x.get d) := by
  rw [Editor.visitStmt]
  refine around_single (x := x.map (.decl t)) ?_ (congrArg _ (Edit.get_map (Stmt.decl t) d x))
  rw [Supply.stateT_bind_apply, hx]
  cases x <;> rfl

end

theorem visitStmt_single : (s : Stmt) → ∀ n,
    ∃ x, ((r.editor c.refs c.types).visitStmt Editor.stop false s () n).1.1 = [x]
  | .ifThen t e a none, n => by
    obtain ⟨x, hx⟩ := visitStmt_single a
      ((r.editor c.refs c.types).visitExpr Editor.stop false e () n).2
    exact (visitStmt_ifThen hx).imp fun _ h => h.1
  | .ifThen t e a (some b), n => by
    obtain ⟨x, hx⟩ := visitStmt_single a
      ((r.editor c.refs c.types).visitExpr Editor.stop false e () n).2
    obtain ⟨y, hy⟩ := visitStmt_single b ((r.editor c.refs c.types).visitStmt Editor.stop false a ()
      ((r.editor c.refs c.types).visitExpr Editor.stop false e () n).2).2
    exact (visitStmt_ifElse hx hy).imp fun _ h => h.1
  | .decl t d, n => by
    obtain ⟨x, hx, -⟩ := visitDecl_single (r := r) (c := c) d n
    exact (visitStmt_decl hx).imp fun _ h => h.1
  | .block .., _ | .assign .., _ | .call .., _ | .switch .., _ | .ret .., _ | .exit ..,
    _ | .empty .., _ =>
    (around_single rfl rfl).imp fun _ h => h.1

section

variable {t : Tag} {e : Expr} {n : Nat}

theorem visitedStmt_of_visitStmt
    (h : ∃ z, ((r.editor c.refs c.types).visitStmt Editor.stop false s () n).1.1 = [z] ∧
      z.get s = s') : r.visitedStmt c n s = s' := by
  obtain ⟨z, hz, hget⟩ := h
  rw [visitedStmt, hz]
  exact hget

theorem visitedDecl_eq (d : Decl) : r.visitedDecl c n d =
    let d' := ((r.editor c.refs c.types).declParts Editor.stop d () n).1.1.get d
    (r.names.get? d.id).elim d' d'.rename := by
  obtain ⟨x, hx, hget⟩ := visitDecl_single (r := r) (c := c) d n
  rw [visitedDecl, hx]
  exact hget

theorem visitedStmt_block (b : Block) :
    r.visitedStmt c n (.block t b) = .block t (r.visitedBlock c n b) :=
  visitedStmt_of_visitStmt (around_single rfl (congrArg _ (Edit.get_map (Stmt.block t) b _)))

theorem visitedStmt_assign (a b : Expr) : ∃ k, r.visitedStmt c n (.assign t a b) =
    .assign t (r.visited c n a) (r.visited c k b) :=
  ⟨_, visitedStmt_of_visitStmt (around_single rfl
    (congrArg _ (Edit.get_map₂ (Stmt.assign t) a b _ _)))⟩

theorem visitedStmt_call : r.visitedStmt c n (.call t e) = .call t (r.visited c n e) :=
  visitedStmt_of_visitStmt (around_single rfl (congrArg _ (Edit.get_map (Stmt.call t) e _)))

theorem visitedStmt_ifThen (a : Stmt) : ∃ k, r.visitedStmt c n (.ifThen t e a none) =
    .ifThen t (r.visited c n e) (r.visitedStmt c k a) none := by
  let k := ((r.editor c.refs c.types).visitExpr Editor.stop false e () n).2
  obtain ⟨x, hx⟩ := visitStmt_single (r := r) (c := c) a k
  refine ⟨k, (visitedStmt_of_visitStmt (visitStmt_ifThen hx)).trans ?_⟩
  rw [← visitedStmt_of_visitStmt ⟨x, hx, rfl⟩]

theorem visitedStmt_ifElse (a b : Stmt) : ∃ k l, r.visitedStmt c n (.ifThen t e a (some b)) =
    .ifThen t (r.visited c n e) (r.visitedStmt c k a) (some (r.visitedStmt c l b)) := by
  let k := ((r.editor c.refs c.types).visitExpr Editor.stop false e () n).2
  let l := ((r.editor c.refs c.types).visitStmt Editor.stop false a () k).2
  obtain ⟨x, hx⟩ := visitStmt_single (r := r) (c := c) a k
  obtain ⟨y, hy⟩ := visitStmt_single (r := r) (c := c) b l
  refine ⟨k, l, (visitedStmt_of_visitStmt (visitStmt_ifElse hx hy)).trans ?_⟩
  rw [← visitedStmt_of_visitStmt ⟨x, hx, rfl⟩, ← visitedStmt_of_visitStmt ⟨y, hy, rfl⟩]

theorem visitedStmt_switch (cs : List Case) : ∃ k, r.visitedStmt c n (.switch t e cs) =
    .switch t (r.visited c n e) ((r.cases c.refs c.types (r.visited c n e)
      (r.visitedCases c k cs)).get (r.visitedCases c k cs)) :=
  ⟨_, visitedStmt_of_visitStmt (around_single rfl
    (congrArg _ (Edit.get_map₂ (Stmt.switch t) e cs _ _)))⟩

theorem visitedStmt_decl (d : Decl) :
    r.visitedStmt c n (.decl t d) = .decl t (r.visitedDecl c n d) := by
  obtain ⟨x, hx, -⟩ := visitDecl_single (r := r) (c := c) d n
  refine (visitedStmt_of_visitStmt (visitStmt_decl hx)).trans ?_
  rw [visitedDecl, hx]
  rfl

theorem visitedStmt_exit : r.visitedStmt c n (.exit t) = .exit t :=
  visitedStmt_of_visitStmt (around_single rfl rfl)

theorem visitedStmt_empty : r.visitedStmt c n (.empty t) = .empty t :=
  visitedStmt_of_visitStmt (around_single rfl rfl)

theorem visitedBlock_mk (i : NodeId) (ss : List Stmt) :
    r.visitedBlock c n (.mk i ss) = .mk i (r.visitedStmts c n ss) :=
  Editor.get_visitBlock (fun _ => rfl) i ss () n

theorem visitedStmts_cons (s : Stmt) (ss : List Stmt) : ∃ k, r.visitedStmts c n (s :: ss) =
    r.visitedStmt c n s :: r.visitedStmts c k ss := by
  obtain ⟨x, hx⟩ := visitStmt_single (r := r) (c := c) s n
  refine ⟨((r.editor c.refs c.types).visitStmt Editor.stop false s () n).2, ?_⟩
  rw [visitedStmts, Editor.get_visitStmts_cons, visitedStmt, hx]
  rfl

theorem visitedCases_run (l : Label) (b : Block) (cs : List Case) : ∃ k,
    r.visitedCases c n (.run l b :: cs) = .run l (r.visitedBlock c n b) :: r.visitedCases c k cs :=
  ⟨_, Editor.get_visitCases_run l b cs () n⟩

theorem visitedCases_fallThrough (l : Label) (cs : List Case) :
    r.visitedCases c n (.fallThrough l :: cs) = .fallThrough l :: r.visitedCases c n cs :=
  Editor.get_visitCases_fallThrough l cs () n

theorem map_label_visitedCases (cs : List Case) :
    (r.visitedCases c n cs).map Case.label = cs.map Case.label :=
  Editor.map_label_visitCases cs () n

end

end Renaming

section

variable {S : Type}

structure Config.Alike (E : Scopes → Env → Env → Prop) (sc : Scopes) (m m' : Config S) : Prop where
  next : m'.next = m.next
  state : m'.state = m.state
  env : E sc m.env m'.env

/-- Runs that end alike; after a run that did not complete normally, names do not matter. -/
structure Completion.Alike (E : Scopes → Env → Env → Prop) (sc : Scopes)
    (q q' : Completion × Config S) : Prop where
  completion : q'.1 = q.1
  next : q'.2.next = q.2.next
  state : q'.2.state = q.2.state
  env : q.1 = .normal → E sc q.2.env q'.2.env

theorem Config.Alike.normal
    (h : m.Alike E sc m') : Completion.Alike E sc (.normal, m) (.normal, m') :=
  ⟨rfl, h.next, h.state, fun _ => h.env⟩

theorem Config.Alike.withState {E : Scopes → Env → Env → Prop} {sc : Scopes} {m m' : Config S}
    (h : m.Alike E sc m') (st : S) :
    Config.Alike E sc { m with state := st } { m' with state := st } :=
  ⟨h.next, rfl, h.env⟩

theorem Completion.Alike.mono (h : Completion.Alike E sc q q')
    (hE : ∀ ρ ρ', E sc ρ ρ' → E sc' ρ ρ') : Completion.Alike E sc' q q' :=
  ⟨h.completion, h.next, h.state, fun hq => hE _ _ (h.env hq)⟩

theorem Completion.Alike.andThen (h : Completion.Alike E sc q q')
    (hk : ∀ {m m'}, Config.Alike E sc m m' → Completion.Alike E sc' (k m) (k' m')) :
    Completion.Alike E sc' (Completion.andThen q k) (Completion.andThen q' k') := by
  obtain ⟨v, m⟩ := q
  obtain ⟨v', m'⟩ := q'
  obtain ⟨hv, hnext, hstate, henv⟩ := h
  obtain rfl : v' = v := hv
  cases v' with
  | normal => exact hk ⟨hnext, hstate, henv rfl⟩
  | returned | exited => exact ⟨rfl, hnext, hstate, nofun⟩

/-- What a renaming needs to know at a place to carry a run over. -/
def Renaming.Fits (r : Renaming) (c : Checked) (E : Scopes → Env → Env → Prop) (I : Ops S)
    (insts : String → Option (Applied S)) : Place → Prop
  | (sc, .expr (.path t n)) => ∃ x, sc.lookup n = some x ∧ x.name = n ∧ c.refs.get? t.id = some x
  | (sc, .stmt (.decl _ d)) => ∃ n, r.names.get? d.id = some n ∧ ∀ ρ ρ' t, E sc ρ ρ' →
    E (sc.declare d) (ρ.set d.name t) (ρ'.set n t)
  -- A declaration that is a branch is in sight afterwards, whether it was run or not.
  | (sc, .stmt (.ifThen _ _ a none)) => ∀ ρ ρ', E sc ρ ρ' → E (a.after sc) ρ ρ'
  | (sc, .stmt (.ifThen _ _ a (some b))) => (∀ ρ ρ', E sc ρ ρ' → E (a.after sc) ρ ρ') ∧
    ∀ ρ ρ', E (a.after sc) ρ ρ' → E (b.after (a.after sc)) ρ ρ'
  | (sc, .stmt (.switch _ e cs)) => ∀ ρ ρ' n cs', E sc ρ ρ' →
    cs'.map Case.label = cs.map Case.label → ∀ t,
    I.select t ((((r.cases c.refs c.types (r.visited c n e) cs').get cs').map Case.label).map
      (·.term ρ')) = I.select t ((cs.map Case.label).map (·.term ρ))
  | (sc, .stmt (.call _ e)) => ∀ ρ ρ' n a, E sc ρ ρ' →
    (r.visited c n e).application? ρ' = some a → insts a.1 = none
  | _ => True

theorem Decl.created_rename (ρ : Env) (d : Decl) (n : String) :
    (d.rename n).created ρ = d.created ρ := by
  cases d <;> rfl

theorem Case.exec_map_relabel (M : Machine (Config S)) (ls : List (String × String)) (i : Nat)
    (cs : List Case) (m : Config S) :
    Case.exec M i (cs.map (Renaming.relabel ls)) m = Case.exec M i cs m := by
  induction cs generalizing i with
  | nil => rfl
  | cons c cs ih =>
    obtain ⟨⟨n⟩ | _, b⟩ | ⟨⟨n⟩ | _⟩ := c
    · cases i with
      | zero => rfl
      | succ i => exact ih i
    · cases i with
      | zero => rfl
      | succ i => exact ih i
    · simpa only [map_cons, Renaming.relabel, Case.label, Case.relabel, Case.exec] using
        ih (i - 1)
    · simpa only [map_cons, Renaming.relabel, Case.label, Case.exec] using ih (i - 1)

namespace Renaming

variable {r : Renaming} {c : Checked} {E : Scopes → Env → Env → Prop} {I : Ops S}
  {insts : String → Option (Applied S)} {sc : Scopes}

theorem exec_cases (M : Machine (Config S)) (e : Expr) (i : Nat) (cs : List Case) (m : Config S) :
    Case.exec M i ((r.cases c.refs c.types e cs).get cs) m = Case.exec M i cs m := by
  unfold cases
  split
  · split
    · rfl
    · exact Case.exec_map_relabel M _ i cs m
  · rfl

theorem Fits.resolved (h : ∀ pl ∈ sc.all (es.map Visit.expr), r.Fits c E I insts pl) :
    Resolved c sc es := fun t n ht =>
  h (sc, .expr (.path t n)) (mem_map_of_mem (mem_map_of_mem ht))

theorem declare_visitedDecl (hf : r.Follows E) {d : Decl} {n' : String}
    (hn : r.names.get? d.id = some n')
    (hd : ∀ ρ ρ' t, E sc ρ ρ' → E (sc.declare d) (ρ.set d.name t) (ρ'.set n' t))
    (h : ∀ pl ∈ d.places sc, r.Fits c E I insts pl) (n : Nat) {m m' : Config S}
    (hm : m.Alike E sc m') :
    (m.declare I d).Alike E (sc.declare d) (m'.declare I (r.visitedDecl c n d)) := by
  let d' := ((r.editor c.refs c.types).declParts Editor.stop d () n).1.1.get d
  have hcreated : (d'.rename n').created m'.env = d.created m.env := by
    rw [Decl.created_rename]
    refine Editor.created_declParts () n ?_ ?_ ?_
    · rintro hd t e rfl
      refine term_visitExpr? hf hm.env e (fun t n ht => ?_) n
      exact h (sc, .expr (.path t n)) (by simp [Decl.places, Scopes.all, ht])
    · rintro hd t e rfl
      exact term_visitExpr hf hm.env e (Fits.resolved fun pl hpl => h pl (by
        simp only [Decl.places, mem_cons, mem_append]
        exact .inr (.inl hpl))) n
    · rintro hd t as rfl
      exact terms_visitExprs hf hm.env as (Fits.resolved fun pl hpl => h pl (by
        simp only [Decl.places, mem_cons, mem_append]
        exact .inr (.inl hpl))) n
  have hv : r.visitedDecl c n d = d'.rename n' := by rw [visitedDecl_eq, hn]; rfl
  rw [hv]
  refine ⟨congrArg (· + 1) hm.next, ?_, ?_⟩
  · simp only [Config.declare, hcreated, hm.next, hm.state]
  · simp only [Config.declare, Config.bind, Decl.name_rename, hm.next]
    exact hd _ _ _ hm.env

mutual
theorem alike_visitedStmt (hf : r.Follows E) : (s : Stmt) → s.hasReturn = false → ∀ {sc},
    (∀ pl ∈ s.places sc, r.Fits c E I insts pl) → ∀ n {m m'}, m.Alike E sc m' →
    Completion.Alike E (s.after sc) (s.exec (I.machine fun _ => none) m)
      ((r.visitedStmt c n s).exec (I.machine insts) m')
  | .block t b, hr, sc, h, n, m, m', hm => by
    have hb := alike_visitedBlock hf b hr (fun pl hpl => h pl (mem_cons_of_mem _ hpl)) n hm
    rw [visitedStmt_block]
    exact hb
  | .assign t a b, _, sc, h, n, m, m', hm => by
    have hes : Resolved c sc (a.walk ++ b.walk) := Fits.resolved fun pl hpl => h pl (by
      simp only [Stmt.places, Expr.visits, ← map_append]
      exact mem_cons_of_mem _ hpl)
    have ha := term_visitExpr hf hm.env a (hes.mono (by simp))
    have hb := term_visitExpr hf hm.env b (hes.mono (by simp))
    obtain ⟨k, hv⟩ := visitedStmt_assign (r := r) (c := c) (n := n) (t := t) a b
    rw [hv]
    simp only [Stmt.exec, Ops.machine_assign, visited, ha, hb, hm.state]
    exact (hm.withState _).normal
  | .call t e, _, sc, h, n, m, m', hm => by
    have he := term_visitExpr hf hm.env e (Fits.resolved fun pl hpl => h pl
      (mem_cons_of_mem _ hpl)) n
    have hc := h (sc, .stmt (.call t e)) mem_cons_self m.env m'.env n
    have hcall : (I.machine fun _ => none).call e m = _ := I.call_of_not_applied fun _ _ => rfl
    have hcall' := I.call_of_not_applied fun a ha => hc a hm.env ha
    rw [visitedStmt_call, Stmt.exec, Stmt.exec, hcall, hcall', visited, he, hm.state]
    exact (hm.withState _).normal
  | .ifThen t e a none, hr, sc, h, n, m, m', hm => by
    have he := term_visitExpr hf hm.env e (Fits.resolved fun pl hpl => h pl (by
      simp only [Stmt.places, mem_cons, mem_append]
      exact .inr (.inl hpl))) n
    have hskip := h (sc, .stmt (.ifThen t e a none)) mem_cons_self
    have ha k {m₁ m₂} (hm : Config.Alike E sc m₁ m₂) :=
        alike_visitedStmt hf a hr (fun pl hpl => h pl (by
      simp only [Stmt.places, mem_cons, mem_append]
      exact .inr (.inr hpl))) k hm
    obtain ⟨k, hv⟩ := visitedStmt_ifThen (r := r) (c := c) (n := n) (t := t) (e := e) a
    rw [hv]
    simp only [Stmt.exec, Ops.machine_test, visited, he, hm.state]
    generalize I.test (e.term m.env) m.state = q
    obtain ⟨v, st⟩ := q
    cases v with
    | true => exact ha k (hm.withState st)
    | false => exact (hm.withState st).normal.mono hskip
  | .ifThen t e a (some b), hr, sc, h, n, m, m', hm => by
    rw [Stmt.hasReturn, Bool.or_eq_false_iff] at hr
    have he := term_visitExpr hf hm.env e (Fits.resolved fun pl hpl => h pl (by
      simp only [Stmt.places, mem_cons, mem_append]
      exact .inr (.inl (.inl hpl)))) n
    have ⟨hskip, hskip'⟩ := h (sc, .stmt (.ifThen t e a (some b))) mem_cons_self
    have ha k {m₁ m₂} (hm : Config.Alike E sc m₁ m₂) :=
        alike_visitedStmt hf a hr.1 (fun pl hpl => h pl (by
      simp only [Stmt.places, mem_cons, mem_append]
      exact .inr (.inl (.inr hpl)))) k hm
    have hb k {m₁ m₂} (hm : Config.Alike E (a.after sc) m₁ m₂) := alike_visitedStmt hf b hr.2
      (fun pl hpl => h pl (by
        simp only [Stmt.places, mem_cons, mem_append]
        exact .inr (.inr hpl))) k hm
    obtain ⟨k, l, hv⟩ := visitedStmt_ifElse (r := r) (c := c) (n := n) (t := t) (e := e) a b
    rw [hv]
    simp only [Stmt.exec, Ops.machine_test, visited, he, hm.state]
    generalize I.test (e.term m.env) m.state = q
    obtain ⟨v, st⟩ := q
    cases v with
    | true => exact (ha k (hm.withState st)).mono hskip'
    | false => exact hb l ⟨hm.next, rfl, hskip _ _ hm.env⟩
  | .switch t e cs, hr, sc, h, n, m, m', hm => by
    have he := term_visitExpr hf hm.env e (Fits.resolved fun pl hpl => h pl (by
      simp only [Stmt.places, mem_cons, mem_append]
      exact .inr (.inl hpl))) n
    have hcs k {i m₁ m₂} (hm : Config.Alike E sc m₁ m₂) :=
        alike_visitedCases hf cs hr (fun pl hpl =>
      h pl (by
        simp only [Stmt.places, mem_cons, mem_append]
        exact .inr (.inr hpl))) k (i := i) hm
    obtain ⟨k, hv⟩ := visitedStmt_switch (r := r) (c := c) (n := n) (t := t) (e := e) cs
    have hsel := h (sc, .stmt (.switch t e cs)) mem_cons_self _ _ n (r.visitedCases c k cs)
      hm.env (map_label_visitedCases cs)
    have he' : (r.visited c n e).term m'.env = e.term m.env := he
    rw [hv]
    simp only [Stmt.exec, Ops.machine_select, he', hm.state, hsel, exec_cases]
    generalize I.select (e.term m.env) _ m.state = q
    obtain ⟨i, st⟩ := q
    cases i with
    | none => exact (hm.withState st).normal
    | some i => exact hcs k (hm.withState st)
  | .decl t d, _, sc, h, n, m, m', hm => by
    obtain ⟨n', hn, hE⟩ := h (sc, .stmt (.decl t d)) mem_cons_self
    rw [visitedStmt_decl]
    exact (declare_visitedDecl hf hn hE (fun pl hpl => h pl (mem_cons_of_mem _ hpl)) n
      hm).normal
  | .ret .., hr, _, _, _, _, _, _ => absurd hr Bool.noConfusion
  | .exit t, _, sc, _, n, m, m', hm => by
    rw [visitedStmt_exit]
    exact ⟨rfl, hm.next, hm.state, nofun⟩
  | .empty t, _, sc, _, n, m, m', hm => by
    rw [visitedStmt_empty]
    exact hm.normal
theorem alike_visitedBlock (hf : r.Follows E) : (b : Block) → b.hasReturn = false → ∀ {sc},
    (∀ pl ∈ b.places sc, r.Fits c E I insts pl) → ∀ n {m m'}, m.Alike E sc m' →
    Completion.Alike E sc (b.exec (I.machine fun _ => none) m)
      ((r.visitedBlock c n b).exec (I.machine insts) m')
  | .mk i ss, hr, sc, h, n, m, m', hm => by
    have hpush : m.Alike E sc.push m' := ⟨hm.next, hm.state, hf.push hm.env⟩
    have hss := alike_visitedStmts hf ss hr (fun pl hpl => h pl (mem_cons_of_mem _ hpl)) n hpush
    rw [visitedBlock_mk]
    exact ⟨hss.completion, hss.next, hss.state, fun _ => hm.env⟩
theorem alike_visitedStmts (hf : r.Follows E) : (ss : List Stmt) → Stmt.anyReturn ss = false →
    ∀ {sc}, (∀ pl ∈ Stmt.allPlaces sc ss, r.Fits c E I insts pl) → ∀ n {m m'}, m.Alike E sc m' →
    Completion.Alike E (Stmt.afters sc ss) (Stmt.execs (I.machine fun _ => none) ss m)
      (Stmt.execs (I.machine insts) (r.visitedStmts c n ss) m')
  | [], _, _, _, _, _, _, hm => hm.normal
  | s :: ss, hr, sc, h, n, m, m', hm => by
    rw [Stmt.anyReturn, Bool.or_eq_false_iff] at hr
    have hs := alike_visitedStmt hf s hr.1 (fun pl hpl => h pl (mem_append_left _ hpl)) n hm
    have hss k {m₁ m₂} (hm : Config.Alike E (s.after sc) m₁ m₂) := alike_visitedStmts hf ss hr.2
      (fun pl hpl => h pl (mem_append_right _ hpl)) k hm
    obtain ⟨k, hv⟩ := visitedStmts_cons (r := r) (c := c) (n := n) s ss
    rw [hv, Stmt.execs_cons, Stmt.execs_cons]
    exact hs.andThen (hss k)
theorem alike_visitedCases (hf : r.Follows E) : (cs : List Case) → Case.anyReturn cs = false →
    ∀ {sc}, (∀ pl ∈ Case.places sc cs, r.Fits c E I insts pl) → ∀ n {i m m'}, m.Alike E sc m' →
    Completion.Alike E sc (Case.exec (I.machine fun _ => none) i cs m)
      (Case.exec (I.machine insts) i (r.visitedCases c n cs) m')
  | [], _, _, _, _, _, _, _, hm => hm.normal
  | .run l b :: cs, hr, sc, h, n, i, m, m', hm => by
    rw [Case.anyReturn, Bool.or_eq_false_iff] at hr
    have hb := alike_visitedBlock hf b hr.1 (fun pl hpl => h pl (mem_append_left _ hpl)) n hm
    have hcs {i} n := alike_visitedCases hf cs hr.2
      (fun pl hpl => h pl (mem_append_right _ hpl)) n (i := i) hm
    obtain ⟨k, hv⟩ := visitedCases_run (r := r) (c := c) (n := n) l b cs
    rw [hv]
    cases i with
    | zero => exact hb
    | succ i => exact hcs k
  | .fallThrough l :: cs, hr, sc, h, n, i, m, m', hm => by
    have hcs := alike_visitedCases hf cs hr h n (i := i - 1) hm
    rw [visitedCases_fallThrough]
    simpa only [Case.exec] using hcs
end

end Renaming

end

inductive Renaming.OnAtom (r : Renaming) (c : Checked) : Atom → Atom → Prop
  | assign (a b a' b' : Expr) : OnAtom r c (.assign a b) (.assign a' b')
  | call (e : Expr) (n : Nat) : OnAtom r c (.call e) (.call (r.visited c n e))
  | declare (d d' : Decl) (h : d'.name = (r.names.get? d.id).getD d.name) :
    OnAtom r c (.declare d) (.declare d')
  | test (e e' : Expr) : OnAtom r c (.test e) (.test e')
  | select (e e' : Expr) (ls ls' : List Label) : OnAtom r c (.select e ls) (.select e' ls')

namespace Renaming

variable {r : Renaming} {c : Checked}

theorem name_visitedDecl (d : Decl) (n : Nat) :
    (r.visitedDecl c n d).name = (r.names.get? d.id).getD d.name := by
  have hhead := Editor.head_declParts (w := r.editor c.refs c.types) (k := Editor.stop) d () n
  rw [visitedDecl_eq]
  cases r.names.get? d.id with
  | none => exact congrArg Head.name hhead
  | some n' => exact Decl.name_rename _ n'

theorem atoms_cases (e : Expr) (cs : List Case) :
    Case.atoms ((r.cases c.refs c.types e cs).get cs) = Case.atoms cs := by
  have hmap : ∀ ls, Case.atoms (cs.map (relabel ls)) = Case.atoms cs := fun ls => by
    induction cs with
    | nil => rfl
    | cons x cs ih =>
      obtain ⟨⟨n⟩ | _, b⟩ | ⟨⟨n⟩ | _⟩ := x
      · exact congrArg (b.atoms ++ ·) ih
      · exact congrArg (b.atoms ++ ·) ih
      · exact ih
      · exact ih
  unfold cases
  split
  · split
    · rfl
    · exact hmap _
  · rfl

mutual
theorem atoms_visitedStmt : (s : Stmt) → s.hasReturn = false → ∀ n,
    List.Forall₂ (r.OnAtom c) s.atoms (r.visitedStmt c n s).atoms
  | .block t b, hr, n => by
    rw [visitedStmt_block]
    exact atoms_visitedBlock b hr n
  | .assign t a b, _, n => by
    obtain ⟨k, hv⟩ := visitedStmt_assign (r := r) (c := c) (n := n) (t := t) a b
    rw [hv]
    exact .cons (.assign ..) .nil
  | .call t e, _, n => by
    rw [visitedStmt_call]
    exact .cons (.call e n) .nil
  | .ifThen t e a none, hr, n => by
    obtain ⟨k, hv⟩ := visitedStmt_ifThen (r := r) (c := c) (n := n) (t := t) (e := e) a
    rw [hv]
    exact .cons (.test ..) (atoms_visitedStmt a hr k)
  | .ifThen t e a (some b), hr, n => by
    rw [Stmt.hasReturn, Bool.or_eq_false_iff] at hr
    obtain ⟨k, l, hv⟩ := visitedStmt_ifElse (r := r) (c := c) (n := n) (t := t) (e := e) a b
    rw [hv]
    exact .cons (.test ..) (rel_append (atoms_visitedStmt a hr.1 k)
      (atoms_visitedStmt b hr.2 l))
  | .switch t e cs, hr, n => by
    obtain ⟨k, hv⟩ := visitedStmt_switch (r := r) (c := c) (n := n) (t := t) (e := e) cs
    rw [hv, Stmt.atoms, Stmt.atoms, atoms_cases]
    exact .cons (.select ..) (atoms_visitedCases cs hr k)
  | .decl t d, _, n => by
    rw [visitedStmt_decl]
    exact .cons (.declare d _ (name_visitedDecl d n)) .nil
  | .ret .., hr, _ => absurd hr Bool.noConfusion
  | .exit t, _, n => by
    rw [visitedStmt_exit]
    exact .nil
  | .empty t, _, n => by
    rw [visitedStmt_empty]
    exact .nil
theorem atoms_visitedBlock : (b : Block) → b.hasReturn = false → ∀ n,
    List.Forall₂ (r.OnAtom c) b.atoms (r.visitedBlock c n b).atoms
  | .mk i ss, hr, n => by
    rw [visitedBlock_mk]
    exact atoms_visitedStmts ss hr n
theorem atoms_visitedStmts : (ss : List Stmt) → Stmt.anyReturn ss = false → ∀ n,
    List.Forall₂ (r.OnAtom c) (Stmt.allAtoms ss) (Stmt.allAtoms (r.visitedStmts c n ss))
  | [], _, _ => .nil
  | s :: ss, hr, n => by
    rw [Stmt.anyReturn, Bool.or_eq_false_iff] at hr
    obtain ⟨k, hv⟩ := visitedStmts_cons (r := r) (c := c) (n := n) s ss
    rw [hv]
    exact rel_append (atoms_visitedStmt s hr.1 n) (atoms_visitedStmts ss hr.2 k)
theorem atoms_visitedCases : (cs : List Case) → Case.anyReturn cs = false → ∀ n,
    List.Forall₂ (r.OnAtom c) (Case.atoms cs) (Case.atoms (r.visitedCases c n cs))
  | [], _, _ => .nil
  | .run l b :: cs, hr, n => by
    rw [Case.anyReturn, Bool.or_eq_false_iff] at hr
    obtain ⟨k, hv⟩ := visitedCases_run (r := r) (c := c) (n := n) l b cs
    rw [hv]
    exact rel_append (atoms_visitedBlock b hr.1 n) (atoms_visitedCases cs hr.2 k)
  | .fallThrough l :: cs, hr, n => by
    rw [visitedCases_fallThrough]
    exact atoms_visitedCases cs hr n
end

theorem id_visited (h : ∀ i, r.replacements.get? i = none) (e : Expr) (n : Nat) :
    (r.visited c n e).id = e.id := by
  unfold visited
  cases e with
  | path t x =>
    rw [Editor.visitExpr, Editor.get_aroundExpr rfl]
    simp only [editor, Supply.stateT_pure_apply, Edit.get_keep]
    cases c.refs.get? t.id with
    | none => rfl
    | some y =>
      simp only [h]
      cases r.names.get? y.id <;> rfl
  | lit t v ty => exact congrArg Expr.id (get_around_expr (.lit t v ty) rfl (by simp))
  | bool t v => exact congrArg Expr.id (get_around_expr (.bool t v) rfl (by simp))
  | member t b m =>
    rw [Editor.visitExpr, get_around_expr _ (Edit.get_map (Expr.member t · m) b _) (by simp)]
    rfl
  | index t b i =>
    rw [Editor.visitExpr, get_around_expr _ (Edit.get_map₂ (Expr.index t) b i _ _) (by simp)]
    rfl
  | call t f ts as =>
    rw [Editor.visitExpr, get_around_expr _ (Edit.get_map₂ (Expr.call t · ts ·) f as _ _) (by simp)]
    rfl
  | construct t ty as =>
    rw [Editor.visitExpr, get_around_expr _ (Edit.get_map (Expr.construct t ty) as _) (by simp)]
    rfl
  | unary t op e =>
    rw [Editor.visitExpr, get_around_expr _ (Edit.get_map (Expr.unary t op) e _) (by simp)]
    rfl
  | binary t op a b =>
    rw [Editor.visitExpr, get_around_expr _ (Edit.get_map₂ (Expr.binary t op) a b _ _) (by simp)]
    rfl

def newLabel (ls : List (String × String)) : Label → Label
  | .name n => .name ((ls.lookup n).getD n)
  | .default => .default

theorem map_label_relabel (ls : List (String × String)) (cs : List Case) :
    (cs.map (relabel ls)).map Case.label = (cs.map Case.label).map (newLabel ls) := by
  induction cs with
  | nil => rfl
  | cons x cs ih =>
    obtain ⟨⟨n⟩ | _, b⟩ | ⟨⟨n⟩ | _⟩ := x <;> simp only [map_cons, ih] <;> rfl

theorem map_label_cases (e : Expr) (cs : List Case) : ∃ ls,
    ((r.cases c.refs c.types e cs).get cs).map Case.label = (cs.map Case.label).map (newLabel ls) ∧
    ∀ h ks as d, c.types.get? e.id = some (.actionEnum (.table h ks as d)) →
      ls = r.labels c.refs as := by
  have hnil : cs.map Case.label = (cs.map Case.label).map (newLabel []) := by
    rw [map_congr_left (g := id), map_id]
    intro l _
    cases l <;> rfl
  unfold cases
  split
  · rename_i h ks as d ht
    split
    · rename_i hls
      exact ⟨[], hnil, fun _ _ _ _ ht' => by rw [ht] at ht'; cases ht'; exact hls.symm⟩
    · exact ⟨_, map_label_relabel _ cs, fun _ _ _ _ ht' => by rw [ht] at ht'; cases ht'; rfl⟩
  · rename_i hne
    exact ⟨[], hnil, fun h ks as d ht => absurd ht (hne h ks as d)⟩

def addLabel (r : Renaming) (refs : Refs) (found : List (String × String)) (entry : Expr) :
    List (String × String) :=
  match entryPath entry with
  | .path t old =>
    match (refs.get? t.id).bind fun target => r.names.get? target.id with
    | some new => (old, new) :: found
    | none => found
  | _ => found

theorem labels_eq (refs : Refs) (as : List Expr) :
    r.labels refs as = as.foldl (r.addLabel refs) [] := rfl

theorem lookup_addLabel_of_ne (refs : Refs) (found : List (String × String))
    (h : ∀ t, entryPath entry ≠ .path t n) :
    (r.addLabel refs found entry).lookup n = found.lookup n := by
  unfold addLabel
  split
  · rename_i t old ht
    have hne : (n == old) = false := beq_eq_false_iff_ne.2 fun he => h t (he ▸ ht)
    split
    · rw [lookup_cons, hne]
    · rfl
  · rfl

theorem lookup_addLabel (refs : Refs) (found : List (String × String))
    (h : entryPath entry = .path t n) (hx : refs.get? t.id = some x) :
    (r.addLabel refs found entry).lookup n = (r.names.get? x.id).or (found.lookup n) := by
  unfold addLabel
  rw [h]
  simp only [hx, Option.bind_some]
  cases r.names.get? x.id <;> simp

theorem lookup_labels
    (hex : ∃ t, .path t n ∈ as.map entryPath)
    (hall : ∀ t, .path t n ∈ as.map entryPath → refs.get? t.id = some x) :
    (r.labels refs as).lookup n = r.names.get? x.id := by
  have hfold : ∀ (as : List Expr) (found : List (String × String)),
      (∀ t, .path t n ∈ as.map entryPath → refs.get? t.id = some x) →
      (found.lookup n = r.names.get? x.id ∨
        (∃ t, .path t n ∈ as.map entryPath) ∧ found.lookup n = none) →
      (as.foldl (r.addLabel refs) found).lookup n = r.names.get? x.id := by
    intro as
    induction as with
    | nil =>
      rintro found - (h | ⟨⟨t, ht⟩, -⟩)
      · exact h
      · exact absurd ht not_mem_nil
    | cons e as ih =>
      intro found hall h
      refine ih _ (fun t ht => hall t (.tail _ ht)) ?_
      by_cases he : ∃ t, entryPath e = .path t n
      · obtain ⟨t, he⟩ := he
        rw [lookup_addLabel refs found he (hall t (by rw [map_cons, he]; exact .head _))]
        rcases h with h | ⟨-, h⟩ <;> rw [h] <;> simp
      · have hne := fun t ht => he ⟨t, ht⟩
        rw [lookup_addLabel_of_ne refs found hne]
        refine h.imp_right fun ⟨⟨t, ht⟩, hf⟩ => ⟨⟨t, ?_⟩, hf⟩
        exact (mem_cons.1 ht).resolve_left fun h => hne t h.symm
  rw [labels_eq]
  exact hfold as [] hall (.inr ⟨hex, rfl⟩)

end Renaming

end MatchAction
