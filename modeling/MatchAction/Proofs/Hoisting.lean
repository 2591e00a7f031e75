import MatchAction.Proofs.Lexical
import MatchAction.Proofs.Placement
import MatchAction.Proofs.Spelling

namespace MatchAction

open List

def declsOf (vs : List Visit) : List Decl := vs.filterMap Visit.decl?

section

@[simp] theorem declsOf_nil : declsOf [] = [] := rfl

@[simp] theorem declsOf_append (vs ws : List Visit) : declsOf (vs ++ ws) = declsOf vs ++
    declsOf ws :=
  filterMap_append

@[simp] theorem declsOf_enter (d : Decl) (vs : List Visit) :
    declsOf (.enter d :: vs) = d :: declsOf vs := rfl

@[simp] theorem declsOf_leave (d : Decl) (vs : List Visit) : declsOf (.leave d :: vs) =
    declsOf vs := rfl

@[simp] theorem declsOf_block (b : Block) (vs : List Visit) :
    declsOf (.block b :: vs) = declsOf vs := rfl

@[simp] theorem declsOf_stmt (s : Stmt) (vs : List Visit) : declsOf (.stmt s :: vs) = declsOf vs :=
    rfl

@[simp] theorem declsOf_expr (e : Expr) : declsOf e.visits = [] := e.decls_visits

@[simp] theorem declsOf_expr? (e : Option Expr) : declsOf (Expr.visits? e) = [] :=
    Expr.decls_visits? e

@[simp] theorem declsOf_exprs (es : List Expr) : declsOf ((Expr.walks es).map .expr) = [] := by
  rw [declsOf, filterMap_map, filterMap_decl?_expr]

end

variable {d : Decl}

theorem mem_declsOf : d ∈ declsOf vs ↔ .enter d ∈ vs := by
  refine mem_filterMap.trans ⟨?_, fun h => ⟨_, h, rfl⟩⟩
  rintro ⟨v, hv, hd⟩
  cases v <;> cases hd
  exact hv

theorem Decl.declsOf_of_flaw (h : d.flaw .block = 0) : declsOf d.visits = [d] := by
  cases d with
  | inst | var | const => simp [Decl.visits]
  | _ => cases h

structure Tidy (vs : List Visit) : Prop where
  holds : Holds vs
  inBlocks : DeclsInBlocks vs
  nodup : ((declsOf vs).map (·.name)).Nodup

namespace Tidy

variable {vs ws : List Visit}

theorem sublist (h : Tidy ws) (hs : vs.Sublist ws) : Tidy vs where
  holds := h.holds.mono hs.subset
  inBlocks v hv := h.inBlocks v (hs.subset hv)
  nodup := h.nodup.sublist ((hs.filterMap _).map _)

theorem left (h : Tidy (vs ++ ws)) : Tidy vs := h.sublist (sublist_append_left _ _)

theorem right (h : Tidy (vs ++ ws)) : Tidy ws := h.sublist (sublist_append_right _ _)

theorem tail (h : Tidy (v :: vs)) : Tidy vs := h.sublist (sublist_cons_self _ _)

theorem nodup_append (h : Tidy (vs ++ ws)) : ((declsOf vs ++ declsOf ws).map (·.name)).Nodup :=
  declsOf_append vs ws ▸ h.nodup

end Tidy

namespace Hoist

variable (A : NodeId → Head → Prop) (T : List String) (n₀ : Nat)

def moves : Decl → Bool
  | .var h _ _ => decide (h.name ∉ T)
  | _ => false

mutual
/-- What becomes of a statement. New nodes have identities from `n₀` on, and a new path that stands
for the variable with some head is related to it by `A`. -/
inductive StmtTo : Stmt → List Stmt → Prop
  | gone (t : Tag) {h : Head} (hT : h.name ∉ T) (ty : TypeExpr) :
    StmtTo (.decl t (.var h ty none)) []
  | assigned (t : Tag) {h : Head} (hT : h.name ∉ T) (ty : TypeExpr) (e : Expr) {i j : NodeId}
    (hi : n₀ ≤ i.val) (hA : A i h) (hj : n₀ ≤ j.val) :
    StmtTo (.decl t (.var h ty (some e))) [.assign ⟨j, t.span⟩ (.path ⟨i, h.span⟩ h.name) e]
  | stays (t : Tag) {d : Decl} (hd : d.flaw .block = 0) (hm : moves T d = false) :
    StmtTo (.decl t d) [.decl t d]
  | block (t : Tag) {b b' : Block} (hb : BlockTo b b') : StmtTo (.block t b) [.block t b']
  | ifThen (t : Tag) (c : Expr) {a a' : Stmt} (ha : StmtTo a [a']) (hd : a.isDecl = false) :
    StmtTo (.ifThen t c a none) [.ifThen t c a' none]
  | ifElse (t : Tag) (c : Expr) {a a' b b' : Stmt} (ha : StmtTo a [a']) (hd : a.isDecl = false)
    (hb : StmtTo b [b']) (hd' : b.isDecl = false) :
    StmtTo (.ifThen t c a (some b)) [.ifThen t c a' (some b')]
  | switch (t : Tag) (e : Expr) {cs cs' : List Case} (hcs : CasesTo cs cs') :
    StmtTo (.switch t e cs) [.switch t e cs']
  | assign (t : Tag) (l r : Expr) : StmtTo (.assign t l r) [.assign t l r]
  | call (t : Tag) (e : Expr) : StmtTo (.call t e) [.call t e]
  | ret (t : Tag) (e : Option Expr) : StmtTo (.ret t e) [.ret t e]
  | exit (t : Tag) : StmtTo (.exit t) [.exit t]
  | empty (t : Tag) : StmtTo (.empty t) [.empty t]
inductive BlockTo : Block → Block → Prop
  | mk (i : NodeId) {ss ss' : List Stmt} (h : StmtsTo ss ss') : BlockTo (.mk i ss) (.mk i ss')
inductive StmtsTo : List Stmt → List Stmt → Prop
  | nil : StmtsTo [] []
  | cons {s : Stmt} {ss ts us : List Stmt} (h : StmtTo s ts) (hs : StmtsTo ss us) :
    StmtsTo (s :: ss) (ts ++ us)
inductive CasesTo : List Case → List Case → Prop
  | nil : CasesTo [] []
  | run (l : Label) {b b' : Block} {cs cs' : List Case} (hb : BlockTo b b') (hcs : CasesTo cs cs') :
    CasesTo (.run l b :: cs) (.run l b' :: cs')
  | fallThrough (l : Label) {cs cs' : List Case} (hcs : CasesTo cs cs') :
    CasesTo (.fallThrough l :: cs) (.fallThrough l :: cs')
end

variable {A T n₀}

variable {s : Stmt}

theorem StmtTo.single (h : StmtTo A T n₀ s ss) (hd : s.isDecl = false) :
    ∃ s', ss = [s'] ∧ s'.isDecl = false := by
  cases h with
  | gone | assigned | stays => cases hd
  | _ => exact ⟨_, rfl, rfl⟩

abbrev anyPath : NodeId → Head → Prop := fun _ _ => True

structure Runs {α : Type} (T : List String) (n₀ : Nat) (ds : List Decl) (x : Editing State α)
    (P : α → Prop) : Prop where
  run : ∀ st n, n₀ ≤ n → (∀ d ∈ ds, d.name ∈ st.taken ↔ d.name ∈ T) →
    P (x st n).1.1 ∧ (x st n).1.2.moved = st.moved ++ (ds.filter (moves T)).map Decl.frame ∧
      (∀ y, y ∈ (x st n).1.2.taken ↔ y ∈ st.taken ∨ y ∈ (ds.filter (moves T)).map (·.name)) ∧
      n ≤ (x st n).2

namespace Runs

variable {α β : Type} {ds ds' : List Decl} {x : Editing State α} {f : α → Editing State β}
  {P : α → Prop} {Q : β → Prop}

theorem pure (h : P a) : Runs T n₀ [] (Pure.pure a) P :=
  ⟨fun st n _ _ => ⟨h, by simp, by simp, Nat.le_refl n⟩⟩

theorem bind (hx : Runs T n₀ ds x P) (hf : ∀ a, P a → Runs T n₀ ds' (f a) Q)
    (hnd : ((ds ++ ds').map (·.name)).Nodup) : Runs T n₀ (ds ++ ds') (x >>= f) Q := by
  refine ⟨fun st n hn htaken => ?_⟩
  obtain ⟨hleft, hright⟩ := forall_mem_append.1 htaken
  obtain ⟨ha, hmoved, hnames, hle⟩ := hx.run st n hn hleft
  have htaken' : ∀ d ∈ ds', d.name ∈ (x st n).1.2.taken ↔ d.name ∈ T := by
    intro d hd
    have hnew : d.name ∉ (ds.filter (moves T)).map (·.name) := by
      rw [map_append, List.nodup_append] at hnd
      intro hmem
      obtain ⟨d', hd', hname⟩ := mem_map.1 hmem
      exact hnd.2.2 _ (mem_map_of_mem (mem_filter.1 hd').1) _ (mem_map_of_mem hd) hname
    rw [hnames, or_iff_left hnew, hright d hd]
  obtain ⟨hb, hmoved', hnames', hle'⟩ := (hf _ ha).run _ _ (Nat.le_trans hn hle) htaken'
  refine ⟨hb, ?_, fun y => ?_, Nat.le_trans hle hle'⟩
  · rw [Supply.stateT_bind_apply, hmoved', hmoved, append_assoc, filter_append,
      map_append]
  · rw [Supply.stateT_bind_apply, hnames', hnames, filter_append, map_append, mem_append,
      or_assoc]

theorem map (hx : Runs T n₀ ds x P) (h : ∀ a, P a → Q (g a)) : Runs T n₀ ds (g <$> x) Q :=
  ⟨fun st n hn ht => by
    obtain ⟨ha, hrest⟩ := hx.run st n hn ht
    exact ⟨h _ ha, hrest⟩⟩

theorem andReturn {g : α → β} (hx : Runs T n₀ ds x P) (h : ∀ a, P a → Q (g a)) :
    Runs T n₀ ds (x >>= fun a => Pure.pure (g a)) Q := by
  rw [bind_pure_comp]
  exact hx.map h

end Runs

theorem plainExprs_editor : editor.PlainExprs := ⟨fun _ => rfl, fun _ => rfl⟩

theorem leaveStmt_of_not_decl (h : s.isDecl = false) : editor.leaveStmt s = pure [.keep] := by
  cases s with
  | decl => cases h
  | _ => rfl

theorem leaveStmt_var (t : Tag) (h : Head) (ty : TypeExpr) (e : Option Expr)
    (st : State) (n : Nat) : editor.leaveStmt (.decl t (.var h ty e)) st n =
      if st.taken.contains h.name then (([.keep], st), n)
      else (((leftover t h e n).1, ⟨h.name :: st.taken, st.moved ++ [.var h ty none]⟩),
        (leftover t h e n).2) := by
  change (if st.taken.contains h.name then (pure [.keep] : Editing State (Splice Stmt)) else _) st
    n = _
  split <;> rfl

theorem leaveStmt_stays (t : Tag) (hm : moves T d = false)
    (hd : d.name ∈ st.taken ↔ d.name ∈ T) (n : Nat) :
    editor.leaveStmt (.decl t d) st n = (([.keep], st), n) := by
  cases d with
  | var h ty e =>
    have hT : h.name ∈ T := by simpa [moves] using hm
    have hin : h.name ∈ st.taken := hd.2 hT
    rw [leaveStmt_var, if_pos (contains_iff_mem.2 hin)]
  | _ => rfl

theorem runs_around
    (hx : Runs T n₀ ds x fun xs => ∃ a, xs = [a] ∧ (a.get s).isDecl = false ∧
      StmtTo anyPath T n₀ s [a.get s]) :
    Runs T n₀ ds (editor.aroundStmt Editor.stop false s x) fun xs =>
      StmtTo anyPath T n₀ s (xs.map (·.get s)) := by
  rw [Editor.aroundStmt_descend rfl, ← append_nil ds]
  refine ⟨fun st n hn htaken => ?_⟩
  rw [append_nil] at htaken
  obtain ⟨⟨a, ha, hdecl, hto⟩, hrest⟩ := hx.run st n hn htaken
  rw [append_nil, Supply.stateT_bind_apply, ha, Editor.leaveEach_singleton,
    leaveStmt_of_not_decl hdecl]
  refine ⟨?_, hrest⟩
  simpa using hto

theorem runs_leaf (hd : s.isDecl = false) (h : StmtTo anyPath T n₀ s [s]) :
    Runs T n₀ [] (editor.aroundStmt Editor.stop false s (pure [.keep])) fun xs =>
      StmtTo anyPath T n₀ s (xs.map (·.get s)) :=
  runs_around (.pure ⟨.keep, rfl, hd, h⟩)

theorem visitDecl_of_flaw (h : d.flaw .block = 0) :
    editor.visitDecl Editor.stop false d = pure [.keep] := by
  cases d with
  | inst h ty as =>
    rw [Editor.visitDecl, plainExprs_editor.visitExprs, pure_bind]
    rfl
  | var h ty e =>
    rw [Editor.visitDecl, plainExprs_editor.visitExpr?, pure_bind]
    rfl
  | const h ty e =>
    rw [Editor.visitDecl, plainExprs_editor.visitExpr, pure_bind]
    rfl
  | _ => cases h

theorem runs_declared (t : Tag) (hd : d.flaw .block = 0) :
    Runs T n₀ [d] (editor.visitStmt Editor.stop false (.decl t d)) fun xs =>
      StmtTo anyPath T n₀ (.decl t d) (xs.map (·.get (.decl t d))) := by
  have hrun : editor.visitStmt Editor.stop false (.decl t d) = editor.leaveStmt (.decl t d) := by
    rw [Editor.visitStmt, visitDecl_of_flaw hd, pure_bind, Editor.declared,
      Editor.aroundStmt_descend rfl, pure_bind, Editor.leaveEach_singleton]
    have hkeep : (Edit.keep : Edit Stmt).andThen = id := funext fun y => by cases y <;> rfl
    simp [hkeep]
  rw [hrun]
  refine ⟨fun st n hn htaken => ?_⟩
  have hd' := htaken d (.head _)
  cases hm : moves T d with
  | false =>
    rw [leaveStmt_stays t hm hd' n]
    exact ⟨.stays t hd hm, by simp [hm], by simp [hm], Nat.le_refl n⟩
  | true =>
    cases d with
    | var h ty e =>
      have hT : h.name ∉ T := by simpa [moves] using hm
      have hnew : ¬ st.taken.contains h.name = true := fun hc =>
        hT (hd'.1 (contains_iff_mem.1 hc))
      rw [leaveStmt_var, if_neg hnew]
      refine ⟨?_, by simp [hm, Decl.frame],
        fun y => by simp [hm, Decl.name, Decl.head, or_comm], ?_⟩
      · cases e with
        | none => exact .gone t hT ty
        | some e => exact .assigned t hT ty e hn trivial (Nat.le_succ_of_le hn)
      · cases e with
        | none => exact Nat.le_refl n
        | some e => exact Nat.le_add_right n 2
    | _ => cases hm

theorem runs_branch (hd : s.isDecl = false)
    (h : Runs T n₀ ds (editor.visitStmt Editor.stop false s) fun xs =>
      StmtTo anyPath T n₀ s (xs.map (·.get s))) :
    Runs T n₀ ds (editor.visitStmt Editor.stop false s >>= fun xs => Editor.single xs s) fun x =>
      StmtTo anyPath T n₀ s [x.get s] := by
  refine ⟨fun st n hn htaken => ?_⟩
  obtain ⟨hto, hrest⟩ := h.run st n hn htaken
  obtain ⟨s', hs', -⟩ := hto.single hd
  obtain ⟨x, hx, hget⟩ := map_eq_singleton_iff.1 hs'
  rw [Supply.stateT_bind_apply, hx]
  rw [hs', ← hget] at hto
  exact ⟨hto, hrest⟩

theorem runs_ifElse (t : Tag) (c : Expr) {a b : Stmt} {ds ds' : List Decl} (hda : a.isDecl = false)
    (hdb : b.isDecl = false) (hnd : ((ds ++ ds').map (·.name)).Nodup)
    (ha : Runs T n₀ ds (editor.visitStmt Editor.stop false a) fun xs =>
      StmtTo anyPath T n₀ a (xs.map (·.get a)))
    (hb : Runs T n₀ ds' (editor.visitStmt Editor.stop false b) fun xs =>
      StmtTo anyPath T n₀ b (xs.map (·.get b))) :
    Runs T n₀ (ds ++ ds') (editor.visitStmt Editor.stop false (.ifThen t c a (some b))) fun xs =>
      StmtTo anyPath T n₀ (.ifThen t c a (some b)) (xs.map (·.get (.ifThen t c a (some b)))) := by
  simp only [Editor.visitStmt, plainExprs_editor.visitExpr, pure_bind]
  refine runs_around ?_
  have hrun := (runs_branch hda ha).bind (fun x hx => (runs_branch hdb hb).andReturn
    (g := fun y => [Edit.map₂ (fun c ab => Stmt.ifThen t c ab.1 (some ab.2)) c (a, b) .keep
      (x.map₂ Prod.mk a b y)])
    (Q := fun xs => ∃ z, xs = [z] ∧ (z.get (.ifThen t c a (some b))).isDecl = false ∧
      StmtTo anyPath T n₀ (.ifThen t c a (some b)) [z.get (.ifThen t c a (some b))]) fun y hy => by
        refine ⟨_, rfl, ?_⟩
        rw [Editor.get_ifElse]
        exact ⟨rfl, .ifElse t c hx hda hy hdb⟩) hnd
  simpa only [bind_assoc] using hrun

mutual
theorem runs_stmt : (s : Stmt) → Tidy s.visits →
    Runs T n₀ (declsOf s.visits) (editor.visitStmt Editor.stop false s) fun xs =>
      StmtTo anyPath T n₀ s (xs.map (·.get s))
  | .block t b, h => by
    refine runs_around ((runs_block b h.tail).andReturn fun x hx => ⟨_, rfl, ?_⟩)
    rw [Edit.get_map]
    exact ⟨rfl, .block t hx⟩
  | .assign t l r, _ => by
    simp only [Editor.visitStmt, plainExprs_editor.visitExpr, pure_bind, Edit.map₂_keep,
      Stmt.visits, declsOf_stmt, declsOf_append, declsOf_expr]
    exact runs_leaf rfl (.assign t l r)
  | .call t e, _ => by
    simp only [Editor.visitStmt, plainExprs_editor.visitExpr, pure_bind, Edit.map_keep, Stmt.visits,
      declsOf_stmt, declsOf_expr]
    exact runs_leaf rfl (.call t e)
  | .ifThen t c a none, h => by
    have hda := h.inBlocks.branches.1
    have ha := runs_branch hda (runs_stmt a h.tail.right)
    simp only [Editor.visitStmt, plainExprs_editor.visitExpr, pure_bind, Stmt.visits, declsOf_stmt,
      declsOf_append, declsOf_expr, nil_append]
    refine runs_around ?_
    have hrun := ha.andReturn (g := fun x => [Edit.map₂ (Stmt.ifThen t · · none) c a .keep x])
      (Q := fun xs => ∃ z, xs = [z] ∧ (z.get (.ifThen t c a none)).isDecl = false ∧
        StmtTo anyPath T n₀ (.ifThen t c a none) [z.get (.ifThen t c a none)]) fun x hx => by
          refine ⟨_, rfl, ?_⟩
          rw [Edit.get_map₂ (Stmt.ifThen t · · none)]
          exact ⟨rfl, .ifThen t c hx hda⟩
    simpa only [bind_assoc] using hrun
  | .ifThen t c a (some b), h => by
    obtain ⟨hda, hdb⟩ := h.inBlocks.branches
    have ha := runs_stmt a h.tail.left.right
    have hb := runs_stmt b h.tail.right
    have hnd := h.nodup
    rw [Stmt.visits, declsOf_stmt, declsOf_append, declsOf_append, declsOf_expr,
      nil_append] at hnd ⊢
    exact runs_ifElse t c hda (hdb b rfl) hnd ha hb
  | .switch t e cs, h => by
    have hcs := runs_cases cs h.tail.right
    simp only [Editor.visitStmt, plainExprs_editor.visitExpr, pure_bind, Stmt.visits, declsOf_stmt,
      declsOf_append, declsOf_expr, nil_append]
    refine runs_around (hcs.andReturn fun x hx => ⟨_, rfl, ?_⟩)
    rw [Edit.get_map₂]
    exact ⟨rfl, .switch t e hx⟩
  | .decl t d, h => by
    have hd : d.flaw .block = 0 := h.holds t d (.head _)
    rw [Stmt.visits, declsOf_stmt, Decl.declsOf_of_flaw hd]
    exact runs_declared t hd
  | .ret t e, _ => by
    simp only [Editor.visitStmt, plainExprs_editor.visitExpr?, pure_bind, Edit.map_keep,
      Stmt.visits, declsOf_stmt, declsOf_expr?]
    exact runs_leaf rfl (.ret t e)
  | .exit t, _ => runs_leaf rfl (.exit t)
  | .empty t, _ => runs_leaf rfl (.empty t)
theorem runs_block : (b : Block) → Tidy b.visits →
    Runs T n₀ (declsOf b.visits) (editor.visitBlock Editor.stop b) fun x =>
      BlockTo anyPath T n₀ b (x.get b)
  | .mk i ss, h => by
    have hrun : editor.visitBlock Editor.stop (.mk i ss) =
        Edit.map (Block.mk i) <$> editor.visitStmts Editor.stop ss := by
      rw [Editor.visitBlock]
      have hleave : ∀ b, editor.leaveBlock b = pure .keep := fun _ => rfl
      simp [hleave]
    rw [hrun]
    refine (runs_stmts ss h.tail).map fun x hx => ?_
    rw [Edit.get_map]
    exact .mk i hx
theorem runs_stmts : (ss : List Stmt) → Tidy (Stmt.allVisits ss) →
    Runs T n₀ (declsOf (Stmt.allVisits ss)) (editor.visitStmts Editor.stop ss) fun x =>
      StmtsTo anyPath T n₀ ss (x.get ss)
  | [], _ => .pure .nil
  | s :: ss, h => by
    rw [Stmt.allVisits, declsOf_append, Editor.visitStmts]
    refine (runs_stmt s h.left).bind (fun xs hxs => (runs_stmts ss h.right).andReturn
      fun y hy => ?_) h.nodup_append
    rw [← Splice.get_toEdit] at hxs
    have hget : ((Splice.toEdit s xs).map₂ (· ++ ·) [s] ss y).get (s :: ss) =
        (Splice.toEdit s xs).get [s] ++ y.get ss := Edit.get_map₂ (· ++ ·) [s] ss _ _
    rw [hget]
    exact .cons hxs hy
theorem runs_cases : (cs : List Case) → Tidy (Case.visits cs) →
    Runs T n₀ (declsOf (Case.visits cs)) (editor.visitCases Editor.stop cs) fun x =>
      CasesTo anyPath T n₀ cs (x.get cs)
  | [], _ => .pure .nil
  | .run l b :: cs, h => by
    rw [Case.visits, declsOf_append, Editor.visitCases]
    refine (runs_block b h.left).bind (fun x hx => (runs_cases cs h.right).andReturn fun y hy => ?_)
      h.nodup_append
    rw [Edit.get_map₂, Edit.get_map]
    exact .run l hx hy
  | .fallThrough l :: cs, h => by
    rw [Case.visits, Editor.visitCases]
    refine (runs_cases cs h).andReturn fun x hx => ?_
    have hget : (x.map (Case.fallThrough l :: ·)).get (.fallThrough l :: cs) =
        .fallThrough l :: x.get cs := Edit.get_map (Case.fallThrough l :: ·) cs x
    rw [hget]
    exact .fallThrough l hx
end

mutual
theorem StmtTo.eq_of_still : {s : Stmt} → {ss : List Stmt} → StmtTo A T n₀ s ss →
    (∀ d ∈ declsOf s.visits, moves T d = false) → ss = [s]
  | _, _, .gone t hT ty, h | _, _, .assigned t hT ty e _ _ _,
    h => by simp [moves, hT, Stmt.visits, Decl.visits] at h
  | _, _, .stays .., _ => rfl
  | _, _, .block t hb, h => by rw [hb.eq_of_still h]
  | _, _, .ifThen t c ha _, h => by
    cases ha.eq_of_still fun d hd => h d (by simpa [Stmt.visits] using hd)
    rfl
  | _, _, .ifElse t c ha _ hb _, h => by
    cases ha.eq_of_still fun d hd => h d (by simp [Stmt.visits, hd])
    cases hb.eq_of_still fun d hd => h d (by simp [Stmt.visits, hd])
    rfl
  | _, _, .switch t e hcs, h => by
    rw [hcs.eq_of_still fun d hd => h d (by simpa [Stmt.visits] using hd)]
  | _, _, .assign .., _ | _, _, .call .., _ | _, _, .ret .., _ | _, _, .exit _, _ | _, _,
    .empty _, _ => rfl
theorem BlockTo.eq_of_still : {b b' : Block} → BlockTo A T n₀ b b' →
    (∀ d ∈ declsOf b.visits, moves T d = false) → b' = b
  | _, _, .mk i hs, h => by rw [hs.eq_of_still h]
theorem StmtsTo.eq_of_still : {ss ss' : List Stmt} → StmtsTo A T n₀ ss ss' →
    (∀ d ∈ declsOf (Stmt.allVisits ss), moves T d = false) → ss' = ss
  | _, _, .nil, _ => rfl
  | _, _, .cons hs hss, h => by
    rw [hs.eq_of_still fun d hd => h d (by simp [Stmt.allVisits, hd]),
      hss.eq_of_still fun d hd => h d (by simp [Stmt.allVisits, hd])]
    rfl
theorem CasesTo.eq_of_still : {cs cs' : List Case} → CasesTo A T n₀ cs cs' →
    (∀ d ∈ declsOf (Case.visits cs), moves T d = false) → cs' = cs
  | _, _, .nil, _ => rfl
  | _, _, .run l hb hcs, h => by
    rw [hb.eq_of_still fun d hd => h d (by simp [Case.visits, hd]),
      hcs.eq_of_still fun d hd => h d (by simp [Case.visits, hd])]
  | _, _, .fallThrough l hcs, h => by rw [hcs.eq_of_still h]
end

theorem moves_var (hT : h.name ∉ T) (ty : TypeExpr) (e : Option Expr) :
    moves T (.var h ty e) = true := decide_eq_true hT

def left (T : List String) (vs : List Visit) : List Decl := (declsOf vs).filter fun d => !moves T d

@[simp] theorem left_append (vs ws : List Visit) : left T (vs ++ ws) = left T vs ++ left T ws := by
  simp [left]

@[simp] theorem left_stmt (s : Stmt) (vs : List Visit) : left T (.stmt s :: vs) = left T vs := rfl

@[simp] theorem left_expr (e : Expr) : left T e.visits = [] := by simp [left]

theorem left_decl (t : Tag) (hd : d.flaw .block = 0) :
    left T (Stmt.decl t d).visits = if moves T d then [] else [d] := by
  rw [Stmt.visits, left_stmt, left, d.declsOf_of_flaw hd]
  cases h : moves T d <;> simp [h]

mutual
theorem StmtTo.declsOf_eq : {s : Stmt} → {ss : List Stmt} → StmtTo A T n₀ s ss →
    declsOf (Stmt.allVisits ss) = left T s.visits
  | _, _, .gone t hT ty => by
    rw [left_decl t rfl, if_pos (moves_var hT ty _)]
    rfl
  | _, _, .assigned t hT ty e _ _ _ => by
    rw [left_decl t rfl, if_pos (moves_var hT ty _)]
    simp [Stmt.allVisits, Stmt.visits]
  | _, _, .stays (d := d) t hd hm => by
    rw [left_decl t hd, hm]
    simp [Stmt.allVisits, Stmt.visits, d.declsOf_of_flaw hd]
  | _, _, .block t hb => by
    simpa [Stmt.allVisits, Stmt.visits] using hb.declsOf_eq
  | _, _, .ifThen t c ha _ => by
    simpa [Stmt.allVisits, Stmt.visits] using ha.declsOf_eq
  | _, _, .ifElse t c ha _ hb _ => by
    have ha := ha.declsOf_eq
    have hb := hb.declsOf_eq
    simp only [Stmt.allVisits, append_nil] at ha hb
    simp [Stmt.allVisits, Stmt.visits, ha, hb]
  | _, _, .switch t e hcs => by
    simpa [Stmt.allVisits, Stmt.visits] using hcs.declsOf_eq
  | _, _, .assign .. | _, _, .call .. => by simp [Stmt.allVisits, Stmt.visits]
  | _, _, .ret .. => by simp [Stmt.allVisits, Stmt.visits, left]
  | _, _, .exit _ | _, _, .empty _ => rfl
theorem BlockTo.declsOf_eq : {b b' : Block} → BlockTo A T n₀ b b' → declsOf b'.visits =
    left T b.visits
  | _, _, .mk _ hs => hs.declsOf_eq
theorem StmtsTo.declsOf_eq : {ss ss' : List Stmt} → StmtsTo A T n₀ ss ss' →
    declsOf (Stmt.allVisits ss') = left T (Stmt.allVisits ss)
  | _, _, .nil => rfl
  | _, _, .cons hs hss => by
    rw [Stmt.allVisits, left_append, Stmt.allVisits_append, declsOf_append, hs.declsOf_eq,
      hss.declsOf_eq]
theorem CasesTo.declsOf_eq : {cs cs' : List Case} → CasesTo A T n₀ cs cs' →
    declsOf (Case.visits cs') = left T (Case.visits cs)
  | _, _, .nil => rfl
  | _, _, .run l hb hcs => by
    rw [Case.visits, Case.visits, left_append, declsOf_append, hb.declsOf_eq, hcs.declsOf_eq]
  | _, _, .fallThrough l hcs => hcs.declsOf_eq
end

def moved (T : List String) (vs : List Visit) : List Decl := (declsOf vs).filter (moves T)

variable {b : Block}

theorem BlockTo.eq_of_moved (h : BlockTo A T n₀ b b') (hm : moved T b.visits = []) :
    b' = b :=
  h.eq_of_still fun d hd => by simpa using filter_eq_nil_iff.1 hm d hd

section

variable (A T n₀)

inductive ActionTo : Decl → Decl → Prop
  | mk (h : Head) (ps : List Param) {b b' : Block} (hb : BlockTo A (ps.map (·.name) ++ T) n₀ b b')
    {front : List Stmt} (hfront : List.Forall₂ (fun m s => ∃ t : Tag, n₀ ≤ t.id.val ∧
      s = .decl t m.frame) (moved (ps.map (·.name) ++ T) b.visits) front) :
    ActionTo (.action h ps b) (.action h ps (.mk b'.id (front ++ b'.stmts)))

inductive LocalTo : Decl → Decl → Prop
  | action {d d' : Decl} (h : ActionTo A T n₀ d d') : LocalTo d d'
  | same {d : Decl} (h : d.isAction = false) : LocalTo d d

/-- What becomes of a declaration of the toplevel, where the names `T` are taken. The variables of a
control are declared after its locals. -/
inductive DeclTo : Decl → Decl → Prop
  | action {d d' : Decl} (h : ActionTo A T n₀ d d') : DeclTo d d'
  | control (h : Head) (tps : List String) (ps cps : List Param) {ls ls' : List Decl} {b b' : Block}
    {T' : List String} (hT : T' = ls.map (·.name) ++ (ps ++ cps).map (·.name) ++ T)
    (hls : List.Forall₂ (LocalTo A T' n₀) ls ls') (hb : BlockTo A T' n₀ b b') :
    DeclTo (.control h tps ps cps ls b)
      (.control h tps ps cps (ls' ++ (moved T' b.visits).map Decl.frame) b')
  | same {d : Decl} (ha : d.isAction = false) (hc : d.isControl = false) : DeclTo d d

end

variable {n : Nat}

theorem block_to (h : Tidy b.visits) (hn : n₀ ≤ n) :
    BlockTo anyPath T n₀ b ((block T b n).1.1.get b) ∧ (block T b n).1.2 = (moved T b.visits).map
      Decl.frame ∧ n ≤ (block T b n).2 := by
  have hruns : Runs T n₀ _ _ _ := runs_block b h
  obtain ⟨hto, hmoved, -, hle⟩ := hruns.run ⟨T, []⟩ n hn fun _ _ => .rfl
  exact ⟨hto, hmoved, hle⟩

theorem front_to (ms : List Decl) (hn : n₀ ≤ n) :
    List.Forall₂ (fun m s => ∃ t : Tag, n₀ ≤ t.id.val ∧ s = .decl t m) ms
      ((ms.mapM fun d => Stmt.declare d) n).1 ∧ n ≤ ((ms.mapM fun d => Stmt.declare d) n).2 := by
  induction ms generalizing n with
  | nil => exact ⟨.nil, Nat.le_refl n⟩
  | cons m ms ih =>
    rw [mapM_cons]
    obtain ⟨hrest, hle⟩ := ih (Nat.le_succ_of_le hn)
    exact ⟨.cons ⟨⟨⟨n⟩, _⟩, hn, rfl⟩ hrest, Nat.le_of_succ_le hle⟩

theorem action_to (h : Head) (ps : List Param) (hb : Tidy b.visits) (hn : n₀ ≤ n) :
    ActionTo anyPath T n₀ (.action h ps b) ((action T h ps b n).1.get (.action h ps b)) ∧
      n ≤ (action T h ps b n).2 := by
  obtain ⟨hto, hmoved, hle⟩ := block_to (T := ps.map (·.name) ++ T) hb hn
  simp only [action, Supply.bind_apply]
  split
  · rename_i hempty
    rw [hmoved, List.isEmpty_iff, map_eq_nil_iff] at hempty
    rw [hto.eq_of_moved hempty] at hto
    refine ⟨?_, hle⟩
    have hkeep : ActionTo anyPath T n₀ (.action h ps b) (.action h ps (.mk b.id ([] ++ b.stmts))) :=
      .mk h ps hto (by rw [hempty]; exact .nil)
    obtain ⟨i, ss⟩ := b
    exact hkeep
  · obtain ⟨hfront, hle'⟩ := front_to (block (ps.map (·.name) ++ T) b n).1.2 (Nat.le_trans hn hle)
    refine ⟨.mk h ps hto ?_, Nat.le_trans hle hle'⟩
    rw [hmoved] at hfront ⊢
    exact forall₂_map_left_iff.1 hfront

theorem cons_to {R : Decl → Decl → Prop} {ds : List Decl} {x : Supply (Edit Decl)}
    {y : Supply (Edit (List Decl))} (hx : R d ((x n).1.get d) ∧ n ≤ (x n).2)
    (hy : ∀ m, n ≤ m → List.Forall₂ R ds ((y m).1.get ds) ∧ m ≤ (y m).2) :
    List.Forall₂ R (d :: ds) (((x >>= fun a => y >>= fun as =>
      pure (a.map₂ (· :: ·) d ds as)) n).1.get (d :: ds)) ∧
      n ≤ ((x >>= fun a => y >>= fun as => (pure (a.map₂ (· :: ·) d ds as) : Supply _)) n).2 := by
  obtain ⟨hd, hle⟩ := hx
  obtain ⟨hds, hle'⟩ := hy _ hle
  refine ⟨?_, Nat.le_trans hle hle'⟩
  have hget := Edit.get_map₂ (· :: ·) d ds (x n).1 (y (x n).2).1
  exact hget ▸ .cons hd hds

theorem locals_to (ls : List Decl) (h : ∀ d ∈ ls, ∀ b, d.body? = some b → Tidy b.visits)
    (hn : n₀ ≤ n) :
    List.Forall₂ (LocalTo anyPath T n₀) ls ((locals T ls n).1.get ls) ∧ n ≤ (locals T ls n).2 := by
  induction ls generalizing n with
  | nil => exact ⟨.nil, Nat.le_refl n⟩
  | cons d ls ih =>
    have hrest : ∀ m, n ≤ m → List.Forall₂ (LocalTo anyPath T n₀) ls ((locals T ls m).1.get ls) ∧
        m ≤ (locals T ls m).2 := fun m hm => ih (fun d hd => h d (.tail _ hd)) (Nat.le_trans hn hm)
    cases d with
    | action hd ps b =>
      obtain ⟨hto, hle⟩ := action_to (T := T) hd ps (h _ (.head _) b rfl) hn
      exact cons_to (x := action T hd ps b) ⟨.action hto, hle⟩ hrest
    | _ => exact cons_to (x := pure .keep) ⟨.same rfl, Nat.le_refl n⟩ hrest

theorem decl_to (d : Decl) (hd : ∀ e, .enter e ∈ d.visits → ∀ b, e.body? = some b → Tidy b.visits)
    (hn : n₀ ≤ n) : DeclTo anyPath T n₀ d ((decl T d n).1.get d) ∧ n ≤ (decl T d n).2 := by
  have hself := hd d d.enter_mem_visits
  cases d with
  | action h ps b =>
    obtain ⟨hto, hle⟩ := action_to (T := T) h ps (hself b rfl) hn
    exact ⟨.action hto, hle⟩
  | control h tps ps cps ls b =>
    have hls : ∀ l ∈ ls, ∀ b, l.body? = some b → Tidy b.visits := fun l hl => hd l (by
      simp [Decl.visits, Decl.mem_allVisits.2 ⟨l, hl, l.enter_mem_visits⟩])
    obtain ⟨hlocals, hle⟩ := locals_to
      (T := ls.map (·.name) ++ (ps ++ cps).map (·.name) ++ T) ls hls hn
    obtain ⟨hto, hmoved, hle'⟩ := block_to (T := ls.map (·.name) ++ (ps ++ cps).map (·.name) ++ T)
      (hself b rfl) (Nat.le_trans hn hle)
    have hresult := DeclTo.control h tps ps cps rfl hlocals hto
    simp only [decl, Supply.bind_apply]
    split
    · rename_i hkeep
      obtain ⟨hxs, hempty⟩ := Bool.and_eq_true_iff.1 hkeep
      rw [hmoved, List.isEmpty_iff, map_eq_nil_iff] at hempty
      rw [hempty, Edit.get_of_isKeep hxs, hto.eq_of_moved hempty, map_nil, append_nil] at hresult
      exact ⟨hresult, Nat.le_trans hle hle'⟩
    · rw [← hmoved] at hresult
      exact ⟨hresult, Nat.le_trans hle hle'⟩
  | _ => exact ⟨.same rfl rfl, Nat.le_refl n⟩

theorem decls_to (ds : List Decl) (hds : ∀ d, .enter d ∈ Decl.allVisits ds → ∀ b, d.body? = some b →
      Tidy b.visits) (hn : n₀ ≤ n) :
    List.Forall₂ (DeclTo anyPath T n₀) ds ((decls T ds n).1.get ds) ∧ n ≤ (decls T ds n).2 := by
  induction ds generalizing n with
  | nil => exact ⟨.nil, Nat.le_refl n⟩
  | cons d ds ih =>
    have hd := decl_to (T := T) d (fun e he => hds e (mem_append_left _ he)) hn
    exact cons_to (x := decl T d) (y := decls T ds) hd fun m hm =>
      ih (fun e he => hds e (mem_append_right _ he)) (Nat.le_trans hn hm)

end Hoist

theorem Program.decls_hoistVariables (p : Program) (n : Nat)
    (h : ∀ d, .enter d ∈ p.visits → ∀ b, d.body? = some b → Tidy b.visits) :
    List.Forall₂ (Hoist.DeclTo Hoist.anyPath (p.decls.map (·.name)) n) p.decls
      ((p.hoistVariables n).1.get p).decls := by
  obtain ⟨hto, -⟩ := Hoist.decls_to (T := p.decls.map (·.name)) p.decls h (Nat.le_refl n)
  have hget := Edit.get_map Program.mk p.decls (Hoist.decls (p.decls.map (·.name)) p.decls n).1
  exact (congrArg Program.decls hget).symm ▸ hto

end MatchAction
