import Mathlib.Data.List.Perm.Basic
import MatchAction.Proofs.Hooks
import MatchAction.Tree.Walk

namespace MatchAction

open List

namespace Editor

variable {σ : Type} (w : Editor σ)

def programTo (depth : Nat) (p : Program) : Editing σ (Edit Program) :=
  return (← w.visitDecls (w.continuation depth) p.decls).map .mk

theorem map_get_map {α : Type} (node : α → Node) (a : α) (xs : Splice α) :
    (xs.map (·.get a)).map node = (xs.map (·.map node)).map (·.get (node a)) := by
  rw [map_map, map_map]
  exact map_congr_left fun x _ => (Edit.get_map node a x).symm

theorem follows_continuation (depth : Nat) :
    Follows depth w (w.recorded.continuation depth) (w.continuation depth) := by
  induction depth with
  | zero =>
    exact ⟨fun d => .pure (.stop (.decl d)), fun s => .pure (.stop (.stmt s)),
      fun e => .pure (.stop (.expr e))⟩
  | succ depth ih =>
    refine ⟨fun d => (traces_visitDecl ih true d).andReturn fun _ xs h => ?_,
      fun s => (traces_visitStmt ih true s).andReturn fun _ xs h => ?_,
      fun e => (traces_visitExpr ih true e).andReturn fun _ x h => ?_⟩
    · exact map_get_map Node.decl d xs ▸ GoneOn.visit h
    · exact map_get_map Node.stmt s xs ▸ GoneOn.visit h
    · exact Edit.get_map Node.expr e x ▸ GoneOn.visit h

theorem traces_programTo (depth : Nat) (p : Program) :
    w.Traces (w.recorded.programTo depth p) (w.programTo depth p) fun calls x =>
      VisitedAll depth (p.decls.map .decl) calls ((x.get p).decls.map .decl) x.isKeep := by
  refine (visits_decls (w.follows_continuation depth) p.decls).andReturn fun calls z hz => ?_
  have hget : (z.map Program.mk).get p = ⟨z.get p.decls⟩ := Edit.get_map Program.mk p.decls z
  rw [hget, Edit.isKeep_map]
  exact hz.below

/-- Sharing is exact, in every run of every editor. -/
theorem sharing_exact (depth : Nat) (p : Program) :
    w.Traces (w.recorded.programTo depth p) (w.programTo depth p) fun calls x =>
      VisitedAll depth (p.decls.map .decl) calls ((x.get p).decls.map .decl) x.isKeep ∧
        (Quiet calls → x = .keep) := by
  exact (w.traces_programTo depth p).imp fun calls x h =>
    ⟨h, fun hquiet => Edit.eq_keep_of_isKeep (h.shared hquiet)⟩

def Idle : Prop := ∀ c, w.Replies c → c.reply = .same

end Editor

mutual
/-- A node is entered, then all is called that concerns what is below it, then it is left. -/
inductive InOrder : Node → List HookCall → Prop
  | mk {n : Node} {calls : List HookCall} (h : AllInOrder n.children calls) :
    InOrder n (n.entry ++ (calls ++ [⟨.leaving, n, .same⟩]))
inductive AllInOrder : List Node → List HookCall → Prop
  | nil : AllInOrder [] []
  | cons {n : Node} {calls : List HookCall} {ns : List Node} {rest : List HookCall}
    (h : InOrder n calls) (hs : AllInOrder ns rest) : AllInOrder (n :: ns) (calls ++ rest)
end

theorem Quiet.of_same {calls : List HookCall} (h : ∀ c ∈ calls, c.reply = .same) : Quiet calls :=
  fun c hc => .inl (h c hc)

mutual
theorem Visited.inOrder : {depth : Nat} → {n : Node} → {calls : List HookCall} →
    {xs : Splice Node} → Visited depth n calls xs → (∀ c ∈ calls, c.reply = .same) → InOrder n calls
  | _, _, _, _, .pruned _ n, hsame | _, _, _, _, .swapped _ n m, hsame
  | _, _, _, _, .replaced n _, hsame => nomatch hsame _ (.head _)
  | _, _, _, _, .passed h, hsame => h.inOrder (forall_mem_append.1 hsame).2
theorem Passed.inOrder : {depth : Nat} → {n : Node} → {calls : List HookCall} →
    {xs : Splice Node} → Passed depth n calls xs → (∀ c ∈ calls, c.reply = .same) →
    InOrder n (n.entry ++ calls)
  | _, _, _, _, .mk h hends _, hsame => by
    obtain ⟨hcalls, hlast⟩ := forall_mem_append.1 hsame
    rw [h.shared (.of_same hcalls)] at hends
    obtain ⟨c, _, ⟨hmoment, hnode⟩, hnil, rfl⟩ := forall₂_cons_left_iff.1 hends
    cases hnil
    obtain ⟨moment, node, reply⟩ := c
    cases hmoment
    cases hnode
    cases hlast _ (.head _)
    exact .mk (h.inOrder hcalls)
theorem Assembled.inOrder : {depth : Nat} → {n : Node} → {calls : List HookCall} →
    {xs : Splice Node} → Assembled depth n calls xs → (∀ c ∈ calls, c.reply = .same) →
    AllInOrder n.children calls
  | _, _, _, _, .whole _ hbelow, hsame => hbelow.inOrder hsame
  | _, _, _, _, .expanded h _, hsame => by
    have hall := AllInOrder.cons (h.inOrder hsame) .nil
    rwa [append_nil] at hall
theorem VisitedAll.inOrder : {depth : Nat} → {ns : List Node} → {calls : List HookCall} →
    {ms : List Node} → {kept : Bool} → VisitedAll depth ns calls ms kept →
    (∀ c ∈ calls, c.reply = .same) → AllInOrder ns calls
  | _, _, _, _, _, .nil _, _ => .nil
  | _, _, _, _, _, .cons h hs, hsame | _, _, _, _, _, .slot h _ hs, hsame =>
    .cons (h.inOrder (forall_mem_append.1 hsame).1) (hs.inOrder (forall_mem_append.1 hsame).2)
end

def Visit.node? : Visit → Option Node
  | .enter d => some (.decl d)
  | .leave _ => none
  | .block b => some (.block b)
  | .stmt s => some (.stmt s)
  | .key k => some (.key k)
  | .expr e => some (.expr e)

def nodesOf (vs : List Visit) : List Node := vs.filterMap Visit.node?

@[simp] theorem nodesOf_nil : nodesOf [] = [] := rfl

@[simp] theorem nodesOf_cons (v : Visit) (vs : List Visit) :
    nodesOf (v :: vs) = v.node?.toList ++ nodesOf vs := by
  cases v <;> rfl

@[simp] theorem nodesOf_append (vs vs' : List Visit) :
    nodesOf (vs ++ vs') = nodesOf vs ++ nodesOf vs' := filterMap_append

def Node.walk : Node → List Node
  | .decl d => nodesOf d.visits
  | .block b => nodesOf b.visits
  | .stmt s => nodesOf s.visits
  | .key k => nodesOf k.visits
  | .expr e => nodesOf e.visits

theorem nodesOf_walks (es : List Expr) :
    nodesOf ((Expr.walks es).map .expr) = (es.map Node.expr).flatMap Node.walk := by
  induction es with
  | nil => rfl
  | cons e es ih => simp [Expr.walks, Node.walk, Expr.visits, ih]

theorem nodesOf_visits? (e : Option Expr) :
    nodesOf (Expr.visits? e) = (e.toList.map Node.expr).flatMap Node.walk := by
  cases e <;> simp [Expr.visits?, Node.walk]

theorem nodesOf_keys (ks : List Key) :
    nodesOf (ks.flatMap Key.visits) = (ks.map Node.key).flatMap Node.walk := by
  induction ks with
  | nil => rfl
  | cons k ks ih => simp [Node.walk, ih]

theorem nodesOf_stmts (ss : List Stmt) :
    nodesOf (Stmt.allVisits ss) = (ss.map Node.stmt).flatMap Node.walk := by
  induction ss with
  | nil => rfl
  | cons s ss ih => simp [Stmt.allVisits, Node.walk, ih]

theorem nodesOf_cases (cs : List Case) :
    nodesOf (Case.visits cs) = ((cs.filterMap Case.body?).map Node.block).flatMap Node.walk := by
  induction cs with
  | nil => rfl
  | cons c cs ih =>
    cases c with
    | run l b => simp [Case.visits, Case.body?, Node.walk, ih]
    | fallThrough l => exact ih

theorem nodesOf_decls (ds : List Decl) :
    nodesOf (Decl.allVisits ds) = (ds.map Node.decl).flatMap Node.walk := by
  induction ds with
  | nil => rfl
  | cons d ds ih => simp [Decl.allVisits, Node.walk, ih]

theorem Node.walk_eq (n : Node) : n.walk = n :: n.children.flatMap Node.walk := by
  cases n with
  | decl d =>
    cases d <;> simp [walk, children, Decl.visits, Visit.node?, nodesOf_walks, nodesOf_visits?,
      nodesOf_keys, nodesOf_decls]
  | block b =>
    obtain ⟨i, ss⟩ := b
    simp [walk, children, Block.visits, Block.stmts, Visit.node?, nodesOf_stmts]
  | stmt s =>
    cases s with
    | ifThen t c a b => cases b <;> simp [walk, children, Stmt.visits, Visit.node?]
    | _ => simp [walk, children, Stmt.visits, Visit.node?, nodesOf_visits?, nodesOf_cases]
  | key k => simp [walk, children, Key.visits, Visit.node?]
  | expr e => cases e <;> simp [walk, children, Expr.visits, Expr.walk, Visit.node?, nodesOf_walks]

namespace HookCall

def entered? : HookCall → Option Node
  | ⟨.entering, n, _⟩ => some n
  | _ => none

def left? : HookCall → Option Node
  | ⟨.leaving, n, _⟩ => some n
  | _ => none

end HookCall

def Node.isEntered (n : Node) : Bool := !n.entry.isEmpty

theorem Node.filterMap_entry (n : Node) :
    n.entry.filterMap HookCall.entered? = if n.isEntered then [n] else [] := by
  cases n <;> rfl

theorem Node.filterMap_left_entry (n : Node) : n.entry.filterMap HookCall.left? = [] := by
  cases n <;> rfl

mutual
theorem InOrder.entered : {n : Node} → {calls : List HookCall} → InOrder n calls →
    calls.filterMap HookCall.entered? = n.walk.filter Node.isEntered
  | n, _, .mk h => by
    rw [n.walk_eq, filterMap_append, filterMap_append, n.filterMap_entry, h.entered,
      filter_cons]
    split <;> simp [HookCall.entered?]
theorem AllInOrder.entered : {ns : List Node} → {calls : List HookCall} → AllInOrder ns calls →
    calls.filterMap HookCall.entered? = (ns.flatMap Node.walk).filter Node.isEntered
  | _, _, .nil => rfl
  | _, _, .cons h hs => by
    rw [filterMap_append, h.entered, hs.entered, flatMap_cons, filter_append]
end

mutual
theorem InOrder.left : {n : Node} → {calls : List HookCall} → InOrder n calls →
    (calls.filterMap HookCall.left?).Perm n.walk
  | n, _, @InOrder.mk _ calls h => by
    have hlast : (n.entry ++ (calls ++ [HookCall.mk .leaving n .same])).filterMap HookCall.left? =
        calls.filterMap HookCall.left? ++ [n] := by
      rw [filterMap_append, filterMap_append, n.filterMap_left_entry]
      rfl
    rw [hlast, n.walk_eq]
    exact (perm_append_singleton _ _).trans (h.left.cons n)
theorem AllInOrder.left : {ns : List Node} → {calls : List HookCall} → AllInOrder ns calls →
    (calls.filterMap HookCall.left?).Perm (ns.flatMap Node.walk)
  | _, _, .nil => .nil
  | _, _, .cons h hs => by
    rw [filterMap_append, flatMap_cons]
    exact h.left.append hs.left
end

namespace Editor

variable {σ : Type} {w : Editor σ}

theorem Traces.same (hw : w.Idle) {α : Type} {y : Editing (σ × List HookCall) α} {x : Editing σ α}
    {P : List HookCall → α → Prop} (h : w.Traces y x P) :
    w.Traces y x fun calls a => (∀ c ∈ calls, c.reply = .same) ∧ P calls a := by
  refine ⟨fun s record n => ?_⟩
  obtain ⟨calls, hrun, hreal, hP⟩ := h.run s record n
  exact ⟨calls, hrun, hreal, fun c hc => hw c (hreal c hc), hP⟩

/-- Hooks that change nothing are called along the walk of the program. -/
theorem called_in_source_order (hw : w.Idle) (depth : Nat) (p : Program) :
    w.Traces (w.recorded.programTo depth p) (w.programTo depth p) fun calls x => x = .keep ∧
      AllInOrder (p.decls.map .decl) calls ∧
      calls.filterMap HookCall.entered? = (nodesOf p.visits).filter Node.isEntered ∧
      (calls.filterMap HookCall.left?).Perm (nodesOf p.visits) := by
  refine ((w.traces_programTo depth p).same hw).imp ?_
  rintro calls x ⟨hsame, h⟩
  have horder := h.inOrder hsame
  have hwalk : nodesOf p.visits = (p.decls.map Node.decl).flatMap Node.walk := nodesOf_decls p.decls
  rw [hwalk]
  exact ⟨Edit.eq_keep_of_isKeep (h.shared (.of_same hsame)), horder, horder.entered, horder.left⟩

theorem idle_default : ({} : Editor σ).Idle := by
  rintro ⟨moment, node, reply⟩ h
  cases moment <;> cases node
  case leaving.key k =>
    obtain ⟨s, n, rfl⟩ := h
    exact if_pos ⟨rfl, rfl, rfl⟩
  case entering.block => exact h.elim
  case entering.key => exact h.elim
  all_goals
    obtain ⟨s, n, rfl⟩ := h
    rfl

def forked : Program := ⟨[.control ⟨⟨0⟩, "c", none⟩ [] [] [] [] (.mk ⟨1⟩ [
  .ifThen ⟨⟨2⟩, none⟩ (.bool ⟨⟨3⟩, none⟩ true) (.exit ⟨⟨4⟩, none⟩) (some (.empty ⟨⟨5⟩, none⟩))])]⟩

theorem called_in_source_order_forked : ({} : Editor Unit).Idle ∧
    ({} : Editor Unit).Traces ((recorded {}).programTo 0 forked) (programTo {} 0 forked)
      fun calls x => x = .keep ∧ AllInOrder (forked.decls.map .decl) calls ∧
        calls.filterMap HookCall.entered? = (nodesOf forked.visits).filter Node.isEntered ∧
        (calls.filterMap HookCall.left?).Perm (nodesOf forked.visits) :=
  ⟨idle_default, called_in_source_order idle_default 0 forked⟩

end Editor

end MatchAction
