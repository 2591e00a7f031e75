import MatchAction.Proofs.Placement

namespace MatchAction

open List

def Block.Calls (b : Block) (f : String) : Prop :=
  ∃ t t' i ts as, .stmt (.call t (.call t' (.path i f) ts as)) ∈ b.visits

/-- In the body of a control outside libraries, no name is called that an action in sight bears. -/
structure Program.Tabled (sources : SourceMap) (p : Program) : Prop where
  names : ∀ {h tps ps cps ls b}, .control h tps ps cps ls b ∈ p.decls →
    sources.isLibrary h.span = false → ∀ f, b.Calls f → ∀ d ∈ ls ++ p.decls, d.isAction = true →
      d.name ≠ f

/-! Counting calls. -/

theorem exists_price_pos (h : 0 < price f vs) :
    ∃ v ∈ vs, 0 < f v := by
  by_contra hnone
  push Not at hnone
  have hle : price f vs ≤ 0 := by
    clear h
    induction vs with
    | nil => exact Int.le_refl _
    | cons v vs ih =>
      have hv := hnone v (.head _)
      have hvs := ih fun w hw => hnone w (.tail _ hw)
      rw [price_cons]
      omega
  omega

variable {e : Expr}

namespace Weights

def pricesBut (m : Weights) (g : Expr → Int) : Visit → Int
  | .stmt (.call t e) => m.node t.id + g e
  | v => m.prices v

theorem price_pricesBut_expr (m : Weights) (g : Expr → Int) (e : Expr) :
    price (m.pricesBut g) e.visits = m.expr e := by
  rw [expr, ← m.price_prices, price, price, Expr.visits, map_map, map_map]
  rfl

theorem pricesBut_callee (m : Weights) : m.pricesBut (fun e => m.callee e) = m.prices := by
  funext v
  cases v with
  | stmt s =>
    cases s with
    | call t e => simp [pricesBut, prices, visit, kind, Stmt.id, Stmt.tag]
    | _ => rfl
  | _ => rfl

def zero : Weights := ⟨fun _ => 0, 0, 0, fun _ => 0⟩

theorem total_zero (vs : List Visit) : zero.total vs = 0 := by
  refine total_eq_zero.2 fun v _ => ?_
  cases v with
  | enter d => cases d <;> simp [visit, zero]
  | stmt s =>
    cases s with
    | call t e =>
      have hsilent : zero.Silent := fun _ => rfl
      exact (Nat.zero_add _).trans (hsilent.callee e)
    | _ => simp [visit, kind, zero]
  | _ => rfl

theorem price_zero_pricesBut (m : Weights) (g : Expr → Int) (vs : List Visit) :
    price (zero.pricesBut fun e => g e - m.callee e) vs = price (m.pricesBut g) vs -
      m.total vs := by
  have hvisit (v : Visit) :
      zero.pricesBut (fun e => g e - m.callee e) v = m.pricesBut g v - m.visit v := by
    have hzero (v : Visit) : zero.visit v = 0 := total_eq_zero.1 (total_zero [v]) v (.head _)
    have hother (v : Visit) : zero.prices v = m.prices v - m.visit v := by
      rw [prices, hzero]
      exact (Int.sub_self _).symm
    cases v with
    | stmt s =>
      cases s with
      | call t e =>
        simp only [pricesBut, visit, kind, zero, Stmt.id, Stmt.tag]
        push_cast
        omega
      | _ => exact hother _
    | _ => exact hother _
  induction vs with
  | nil => rfl
  | cons v vs ih =>
    rw [price_cons, price_cons, hvisit, ih, total_cons]
    push_cast
    omega

def calling (f : String) : Weights := ⟨fun _ => 0, 0, 0, fun g => if g = f then 1 else 0⟩

variable {f : String}

theorem exists_of_callee_ne {m : Weights} (h : m.callee e ≠ 0) :
    ∃ t i f ts as, e = .call t (.path i f) ts as := by
  unfold callee at h
  split at h
  · exact ⟨_, _, _, _, _, rfl⟩
  · exact absurd rfl h

theorem exists_of_calling_ne (h : (calling f).callee e ≠ 0) :
    ∃ t i ts as, e = .call t (.path i f) ts as := by
  obtain ⟨t, i, g, ts, as, rfl⟩ := exists_of_callee_ne h
  obtain rfl : g = f := by simpa [callee, calling] using h
  exact ⟨t, i, ts, as, rfl⟩

theorem exists_call_of_price
    (h : 0 < price ((calling f).pricesBut g) vs) : ∃ t e, .stmt (.call t e) ∈ vs ∧ 0 < g e := by
  obtain ⟨v, hv, hpos⟩ := exists_price_pos h
  cases v with
  | enter d => cases d <;> simp [pricesBut, prices, visit, calling] at hpos
  | stmt s =>
    cases s with
    | call t e => exact ⟨t, e, hv, by simpa [pricesBut, calling] using hpos⟩
    | _ => simp [pricesBut, prices, visit, kind, calling] at hpos
  | _ => simp [pricesBut, prices, visit, calling] at hpos

theorem block_calling : (calling f).block b ≠ 0 ↔ b.Calls f := by
  constructor
  · intro h
    have hpos : 0 < price ((calling f).pricesBut fun e => (calling f).callee e) b.visits := by
      rw [pricesBut_callee, price_prices]
      exact Int.natCast_pos.2 (Nat.pos_of_ne_zero h)
    obtain ⟨t, e, hmem, he⟩ := exists_call_of_price hpos
    obtain ⟨t', i, ts, as, rfl⟩ := exists_of_calling_ne (by omega : (calling f).callee e ≠ 0)
    exact ⟨t, t', i, ts, as, hmem⟩
  · rintro ⟨t, t', i, ts, as, hmem⟩ hzero
    have hvisit := total_eq_zero.1 hzero _ hmem
    simp [visit, kind, callee, calling] at hvisit

end Weights

/-! Declarations edited one by one. -/

variable {d : Decl}

namespace Decl

theorem isAction_congr {d' : Decl} (h : d'.frame = d.frame) : d'.isAction = d.isAction := by
  have hframe (d : Decl) : d.frame.isAction = d.isAction := by cases d <;> rfl
  rw [← hframe, h, hframe]

/-- No control gains an action, and the new body of one calls only names that `C` allows. -/
inductive Edited (C : Head → Block → String → Prop) : Decl → Decl → Prop
  | control {h : Head} {tps : List String} {ps cps : List Param} {ls ls' : List Decl} {b b' : Block}
    (locals : ∀ l' ∈ ls', l'.isAction = true → ∃ l ∈ ls, l.isAction = true ∧ l.name = l'.name)
    (calls : ∀ f, b'.Calls f → C h b f) :
    Edited C (.control h tps ps cps ls b) (.control h tps ps cps ls' b')
  | other {d d' : Decl} (plain : d.isControl = false) (frame : d'.frame = d.frame) : Edited C d d'

theorem Edited.isAction {C : Head → Block → String → Prop} {d' : Decl} (h : Edited C d d')
    (hd : d'.isAction = true) : d.isAction = true ∧ d.name = d'.name := by
  cases h with
  | control => cases hd
  | other _ frame => exact ⟨isAction_congr frame ▸ hd, congrArg Head.name (head_congr frame).symm⟩

end Decl

theorem Program.tabled_of_edited {sources : SourceMap} {p p' : Program}
    {C : Head → Block → String → Prop} (h : List.Forall₂ (Decl.Edited C) p.decls p'.decls)
    (hC : ∀ {h tps ps cps ls b}, .control h tps ps cps ls b ∈ p.decls →
      sources.isLibrary h.span = false → ∀ f, C h b f → ∀ d ∈ ls ++ p.decls, d.isAction = true →
        d.name ≠ f) : p'.Tabled sources := by
  refine ⟨fun hc hlib f hf d' hd' hact => ?_⟩
  obtain ⟨c, hc₀, hedited⟩ := exists_left_of_forall₂ h hc
  cases hedited with
  | other plain frame => rw [← Decl.isControl_congr frame] at plain; cases plain
  | control locals calls =>
    rcases mem_append.1 hd' with hd' | hd'
    · obtain ⟨l, hl, hlact, hname⟩ := locals d' hd' hact
      exact hname ▸ hC hc₀ hlib f (calls f hf) l (mem_append_left _ hl) hlact
    · obtain ⟨d, hd, hr⟩ := exists_left_of_forall₂ h hd'
      obtain ⟨hdact, hname⟩ := hr.isAction hact
      exact hname ▸ hC hc₀ hlib f (calls f hf) d (mem_append_right _ hd) hdact

namespace Editor

variable {σ : Type} {w : Editor σ}

theorem forall₂_visitDecls (henter : ∀ d, w.enterDecl d = pure .descend)
    (hleave : ∀ d, w.leaveDecl d = pure [.keep])
    (hparts : ∀ d st n, R d ((w.declParts k d st n).1.1.get d)) (ds : List Decl)
    (st : σ) (n : Nat) :
    List.Forall₂ R ds ((w.visitDecls k ds st n).1.1.get ds) := by
  induction ds generalizing st n with
  | nil => exact .nil
  | cons d ds ih =>
    have hd : (w.visitDecl k false d st n).1.1.map (·.get d)
        = [(w.declParts k d st n).1.1.get d] := by
      rw [visitDecl_eq, aroundDecl_descend (henter d)]
      simp [Supply.stateT_bind_apply, leaveEach_singleton, hleave]
    rw [get_visitDecls_cons, hd]
    exact .cons (hparts d st n) (ih _ _)

theorem edited_decls (henter : ∀ d, w.enterDecl d = pure .descend)
    (hleave : ∀ d, w.leaveDecl d = pure [.keep])
    (hfair : ∀ f, w.Fair .idle (Weights.calling f).prices (.calling f)) (ds : List Decl) (st : σ)
    (n : Nat) : List.Forall₂ (Decl.Edited fun _ b f => b.Calls f) ds
      ((w.visitDecls stop ds st n).1.1.get ds) := by
  refine forall₂_visitDecls henter hleave (fun d st n => ?_) ds st n
  have hframe := frame_declParts (w := w) (k := stop) d st n
  cases d with
  | control h tps ps cps ls b =>
    have hget : (w.declParts stop (.control h tps ps cps ls b) st n).1.1.get
          (.control h tps ps cps ls b)
        = .control h tps ps cps ((w.visitDecls stop ls st n).1.1.get ls)
          ((w.visitBlock stop b (w.visitDecls stop ls st n).1.2
            (w.visitDecls stop ls st n).2).1.1.get b) :=
      Edit.get_map₂ (Decl.control h tps ps cps) ls b _ _
    rw [hget]
    refine .control (fun l' hl' hact => ?_) fun f hf => ?_
    · have hlocals := forall₂_visitDecls (k := stop) henter hleave
        (R := fun d d' => d'.frame = d.frame) frame_declParts ls st n
      obtain ⟨l, hl, hframe⟩ := exists_left_of_forall₂ hlocals hl'
      exact ⟨l, hl, Decl.isAction_congr hframe ▸ hact,
        congrArg Head.name (Decl.head_congr hframe).symm⟩
    · have hpaid := (@((hfair f).visitBlock b).covered (w.visitDecls stop ls st n).1.2
        (w.visitDecls stop ls st n).2 trivial trivial).2
      have hspent : ∀ n', (Weights.calling f).spent (w.visitDecls stop ls st n).2 n' = 0 :=
        fun n' => (Weights.calling f).flaws_spent _ n'
      rw [Weights.price_prices, hspent] at hpaid
      have hnew := Weights.block_calling.2 hf
      refine Weights.block_calling.1 fun hzero => ?_
      change (Weights.calling f).total b.visits = 0 at hzero
      rw [hzero] at hpaid
      simp only [Ledger.idle] at hpaid
      omega
  | _ => exact .other rfl hframe

end Editor

/-! Simplification. -/

theorem Editor.PlainExprs.calls {σ : Type} {w : Editor σ} (h : w.PlainExprs) (m : Weights) :
    w.Calls m := by
  intro e st n
  rw [h.visitExpr e]
  exact Nat.le_refl _

variable {t : Tag}

theorem Editor.PlainExprs.visitStmt_call {σ : Type} {w : Editor σ} (h : w.PlainExprs)
    (henter : w.enterStmt (.call t e) = pure .descend) :
    w.visitStmt Editor.stop false (.call t e) = w.leaveStmt (.call t e) := by
  rw [Editor.visitStmt, Editor.aroundStmt_descend henter, h.visitExpr e]
  have hkeep : (Edit.keep : Edit Stmt).andThen = id := funext Edit.keep_andThen
  simp [Editor.leaveEach_singleton, hkeep]

namespace Folding

def plain : Expr → Bool
  | .path .. | .call .. => false
  | _ => true

theorem get_leaveExpr (e : Expr) (st : Unit) (n : Nat) :
    (editor.leaveExpr e st n).1.1.get e = (fold? e).getD e := by
  simp only [editor]
  cases fold? e <;> rfl

theorem plain_aroundExpr
    (h : plain ((x st n).1.1.get e) = true) :
    plain ((editor.aroundExpr Editor.stop false e x st n).1.1.get e) = true := by
  rw [Editor.get_aroundExpr rfl, get_leaveExpr]
  cases he : fold? ((x st n).1.1.get e) with
  | none => exact h
  | some e' => rcases fold?_literal he with ⟨v, ty, rfl⟩ | ⟨b, rfl⟩ <;> rfl

theorem plain_visitExpr (h : plain e = true) (st : Unit) (n : Nat) :
    plain ((editor.visitExpr Editor.stop false e st n).1.1.get e) = true := by
  cases e with
  | path | call => cases h
  | lit | bool => exact plain_aroundExpr rfl
  | member t b m => exact plain_aroundExpr (congrArg plain (Edit.get_map (Expr.member t · m) b _))
  | index t b j => exact plain_aroundExpr (congrArg plain (Edit.get_map₂ (Expr.index t) b j _ _))
  | construct t ty as =>
    exact plain_aroundExpr (congrArg plain (Edit.get_map (Expr.construct t ty) as _))
  | unary t op e => exact plain_aroundExpr (congrArg plain (Edit.get_map (Expr.unary t op) e _))
  | binary t op l r =>
    exact plain_aroundExpr (congrArg plain (Edit.get_map₂ (Expr.binary t op) l r _ _))

theorem get_visitExpr_call (t : Tag) (c : Expr) (ts : List TypeExpr) (as : List Expr) (st : Unit)
    (n : Nat) : ∃ as', (editor.visitExpr Editor.stop false (.call t c ts as) st n).1.1.get
      (.call t c ts as) = .call t ((editor.visitExpr Editor.stop false c st n).1.1.get c)
        ts as' := by
  have hparts : ∀ (x : Edit Expr) (y : Edit (List Expr)),
    (fold? ((x.map₂ (.call t · ts ·) c as y).get
      (.call t c ts as))).getD ((x.map₂ (.call t · ts ·) c as y).get (.call t c ts as))
        = .call t (x.get c) ts (y.get as) := by
    intro x y
    rw [Edit.get_map₂ (Expr.call t · ts ·) c as x y]
    rfl
  rw [Editor.visitExpr, Editor.get_aroundExpr rfl, get_leaveExpr]
  exact ⟨_, hparts _ _⟩

theorem callee_of_plain (m : Weights) (h : plain e = true) :
    m.callee e = 0 ∧ ∀ t ts as, m.callee (.call t e ts as) = 0 := by
  cases e with
  | path | call => cases h
  | _ => exact ⟨rfl, fun _ _ _ => rfl⟩

theorem calls_editor (m : Weights) : editor.Calls m := by
  intro e st n
  cases e with
  | path t f => exact Nat.le_refl _
  | call t c ts as =>
    obtain ⟨as', hget⟩ := get_visitExpr_call t c ts as st n
    rw [hget]
    cases c with
    | path i f => exact Nat.le_refl _
    | call t' c ts' bs =>
      obtain ⟨bs', hget'⟩ := get_visitExpr_call t' c ts' bs st n
      rw [hget']
      exact Nat.le_refl _
    | _ =>
      rw [(callee_of_plain m (plain_visitExpr rfl st n)).2]
      exact Nat.zero_le _
  | _ =>
    rw [(callee_of_plain m (plain_visitExpr rfl st n)).1]
    exact Nat.zero_le _

end Folding

namespace Program

variable {sources : SourceMap} {p : Program}

theorem Tabled.of_editor {σ : Type} {w : Editor σ} (hp : p.Tabled sources)
    (henter : ∀ d, w.enterDecl d = pure .descend) (hleave : ∀ d, w.leaveDecl d = pure [.keep])
    (hfair : ∀ f, w.Fair .idle (Weights.calling f).prices (.calling f)) (st : σ) (n : Nat) :
    ((w.program p st n).1.1.get p).Tabled sources := by
  have hdecls := Editor.edited_decls henter hleave hfair p.decls st n
  have hget : ((w.program p st n).1.1.get p).decls
      = (w.visitDecls Editor.stop p.decls st n).1.1.get p.decls :=
    congrArg Program.decls (Edit.get_map Program.mk p.decls _)
  rw [← hget] at hdecls
  exact tabled_of_edited hdecls hp.names

theorem Tabled.simplifyFlow (hp : p.Tabled sources) (n : Nat) :
    ((p.simplifyFlow n).1.get p).Tabled sources := by
  have hplain : Flow.editor.PlainExprs := ⟨fun _ => rfl, fun _ => rfl⟩
  exact hp.of_editor (fun _ => rfl) (fun _ => rfl) (fun f => Flow.fair_editor (hplain.calls _)) () n

theorem Tabled.foldConstants (hp : p.Tabled sources) (n : Nat) :
    ((p.foldConstants n).1.get p).Tabled sources :=
  hp.of_editor (fun _ => rfl) (fun _ => rfl)
    (fun _ => Folding.fair_editor (Folding.calls_editor _)) () n

end Program

/-! What is called. -/

variable {ts : List TypeExpr} {as : List Expr}

namespace Call

variable {refs : Refs} {types : Types} {a : Decl}

theorem calleeKind_of_classify (h : classify refs types (.call t callee ts as) = .ok c) :
    calleeKind refs types callee as.length = .ok c.kind := by
  simp only [classify] at h
  split at h
  · cases h
  · split at h
    · rename_i hk
      cases h
      exact hk
    · cases h

theorem pathKind_cases (h : pathKind refs i = .ok k) :
    (∃ hd m, refs.decl? i = some (.externFn hd m) ∧ k = .externFunction (.externFn hd m)) ∨
      ∃ hd ps b, refs.decl? i = some (.action hd ps b) ∧ k = .action (.action hd ps b) := by
  unfold pathKind at h
  split at h
  · rename_i d hd
    cases d with
    | externFn =>
      cases h
      exact .inl ⟨_, _, hd, rfl⟩
    | action =>
      cases h
      exact .inr ⟨_, _, _, hd, rfl⟩
    | _ => cases h
  · cases h

theorem builtIn_ne_action (x : Option BuiltIn) (receiver : Expr) :
    (match x with
      | some b => .ok (.builtIn b receiver)
      | none => .error .noCallKind : Except CallFault CallKind) ≠ .ok (.action a) := by
  cases x <;> rintro ⟨⟩

theorem memberKind_ne_action (receiver : Expr) (member : String) (arity : Nat) :
    memberKind refs types receiver member arity ≠ .ok (.action a) := by
  have hbuiltIn := builtIn_ne_action (a := a) (builtIn? types receiver member) receiver
  have hobject {f : Referent → CallKind} (hf : ∀ r, f r ≠ .action a) :
      (do return f (← object refs receiver) : Except CallFault CallKind) ≠ .ok (.action a) := by
    unfold object
    split
    · exact fun h => hf _ (Except.ok.inj h)
    · exact nofun
  unfold memberKind
  dsimp only
  split
  · split
    · exact hobject fun _ => nofun
    · exact hbuiltIn
  · split
    · split
      · exact hobject fun _ => nofun
      · exact hbuiltIn
    · split
      · exact hobject fun _ => nofun
      · exact nofun
    · exact hbuiltIn
  · exact hbuiltIn

theorem path_of_action (h : kind? refs types e = some (.action a)) :
    ∃ t i f ts as, e = .call t (.path i f) ts as ∧ refs.decl? i.id = some a ∧
      a.isAction = true := by
  unfold kind? at h
  split at h
  · rename_i c hc
    obtain ⟨t, callee, ts, as, rfl⟩ := Actions.exists_call_of_classify hc
    have hkind := calleeKind_of_classify hc
    rw [Option.some.inj h] at hkind
    cases callee with
    | member t' r m => exact absurd hkind (memberKind_ne_action r m _)
    | path i f =>
      rcases pathKind_cases hkind with ⟨hd, m, -, hk⟩ | ⟨hd, ps, b, hdecl, hk⟩
      · cases hk
      · cases hk
        exact ⟨t, i, f, ts, as, rfl, hdecl, rfl⟩
    | _ => cases hkind
  · cases h

end Call

namespace Actions

variable {refs : Refs} {types : Types} {m : Weights}

theorem plain_tabling : (tabling refs types).PlainExprs := ⟨fun _ => rfl, fun _ => rfl⟩

theorem fair_tabling_of {L : Ledger State} {g : Expr → Int} (hg : ∀ e, g e ≤ m.callee e)
    (hcall : ∀ t e, L.Pays m ((tabling refs types).leaveStmt (.call t e))
      (m.node t.id + g e + m.expr e) fun xs => m.stmts (xs.map (·.get (.call t e)))) :
    (tabling refs types).Fair L (m.pricesBut g) m where
  expr _ := Int.le_refl _
  enterExpr _ := rfl
  leaveExpr := Editor.pays_keepExpr
  key _ := Int.le_refl _
  block _ := Int.le_refl _
  stmt s hs := by
    cases s with
    | call t e => exact absurd rfl (hs t e)
    | _ => exact Int.le_refl _
  leave _ := Int.le_refl _
  enterStmt _ := rfl
  not_into _ _ _ _ := nofun
  enterDecl spot d := Editor.pays_descend spot (Int.le_refl _)
  leaveDecl := Editor.pays_keepDecl
  leaveStmt s := by
    cases s with
    | call t e => exact (hcall t e).weaken (by have := hg e; rw [m.stmt_call]; omega)
    | _ => exact Editor.pays_keepStmt _
  leaveBlock := Editor.pays_keepBlock
  leaveKey := Editor.pays_keepKey
  call t e := by
    rw [plain_tabling.visitStmt_call rfl, Stmt.visits, price_cons, m.price_pricesBut_expr]
    exact hcall t e

theorem leaveStmt_call_cases (refs : Refs) (types : Types) (t : Tag) (e : Expr) (st : State)
    (n : Nat) :
    let r := (tabling refs types).leaveStmt (.call t e) st n
    (r.1.2.error ≠ none ∧ r.1.2.added = st.added) ∨
      (∃ d, d.isAction = false ∧ r.1.2.added = st.added ++ [d]) ∨
      r = (([.keep], st), n) ∧ ∀ m, keptCallee refs types m e = m.callee e := by
  dsimp only
  rcases hc : Call.classify refs types e with err | c
  · refine .inl ?_
    simp only [tabling, hc]
    refine ⟨?_, rfl⟩
    change st.error.or (some err) ≠ none
    cases st.error <;> exact Option.some_ne_none _
  · obtain ⟨t', callee, ts, args, rfl⟩ := exists_call_of_classify hc
    obtain ⟨kind, sig, args'⟩ := c
    simp only [tabling, keptCallee, hc]
    cases kind with
    | action d =>
      cases d with
      | action h ps b => exact .inr (.inl ⟨_, rfl, rfl⟩)
      | _ => exact .inr (.inr ⟨rfl, fun _ => rfl⟩)
    | _ => exact .inr (.inr ⟨rfl, fun _ => rfl⟩)

def still : Ledger State where
  held _ := 0
  sound st := ∀ d ∈ st.added, d.isAction = false
  valid st := st.error = none ∧ st.added = []

theorem pays_still (refs : Refs) (types : Types) (t : Tag) (e : Expr) :
    still.Pays .zero ((tabling refs types).leaveStmt (.call t e))
      (Weights.zero.node t.id + (keptCallee refs types m e - m.callee e : Int) +
        Weights.zero.expr e)
      fun xs => Weights.zero.stmts (xs.map (·.get (.call t e))) := by
  refine ⟨(pays_tabled (m := m) refs types t e).le, fun {st n} hs => ?_, fun {st n} _ hv => ?_⟩
  · change ∀ d ∈ _, _
    rcases leaveStmt_call_cases refs types t e st n with ⟨-, hadded⟩ | ⟨d, hd, hadded⟩ | ⟨hr, -⟩
    · rw [hadded]
      exact hs
    · rw [hadded]
      exact forall_mem_append.2 ⟨hs, forall_mem_singleton.2 hd⟩
    · rw [hr]
      exact hs
  · rcases leaveStmt_call_cases refs types t e st n with ⟨herr, -⟩ | ⟨d, -, hadded⟩ | ⟨hr, hkept⟩
    · exact absurd hv.1 herr
    · have hnil := hv.2
      rw [hadded] at hnil
      exact absurd hnil (append_ne_nil_of_right_ne_nil _ (cons_ne_nil d []))
    · rw [hr] at hv ⊢
      refine ⟨hv, ?_⟩
      rw [hkept, Weights.stmts, Weights.total_zero, Weights.expr, Weights.total_zero]
      simp [still, Weights.zero]

def staying (refs : Refs) (types : Types) (f : String) (b : Block) : Int :=
  price ((Weights.calling f).pricesBut fun e => keptCallee refs types (.calling f) e) b.visits

section

variable {b : Block} {names : Names} {n n' : Nat} {x : Edit Block} {st : State}

theorem calls_of_tabled (hr : (tabling refs types).block b ⟨names, [], none⟩ n = ((x, st), n'))
    (herr : st.error = none) (f : String) :
    ((Weights.calling f).block (x.get b) : Int) ≤ staying refs types f b := by
  have hfair : (tabling refs types).Fair (ledger (.calling f)) _ (.calling f) :=
    fair_tabling_of (fun e => Int.ofNat_le.2 (keptCallee_le refs types e)) (pays_tabled refs types)
  have hpaid : (ledger (.calling f)).Pays (.calling f) ((tabling refs types).block b)
      (staying refs types f b) fun x => (Weights.calling f).block (x.get b) := hfair.visitBlock b
  have hcovered := @hpaid.covered ⟨names, [], none⟩ n trivial
  rw [hr] at hcovered
  have hle := (hcovered herr).2
  have hspent : (Weights.calling f).spent n n' = 0 := (Weights.calling f).flaws_spent n n'
  simp only [ledger, Weights.decls_nil, hspent] at hle
  omega

theorem pays_block_still (refs : Refs) (types : Types) (b : Block) (m : Weights) :
    still.Pays .zero ((tabling refs types).block b)
    (price (Weights.zero.pricesBut fun e => keptCallee refs types m e - m.callee e) b.visits)
    fun x => Weights.zero.block (x.get b) := by
  refine (fair_tabling_of (fun e => ?_) (pays_still refs types)).visitBlock b
  have := keptCallee_le (m := m) refs types e
  omega

theorem calls_of_still (hr : (tabling refs types).block b ⟨names, [], none⟩ n = ((x, st), n'))
    (herr : st.error = none) (hadded : st.added = []) (f : String) :
    ((Weights.calling f).block b : Int) ≤ staying refs types f b := by
  have hcovered := @(pays_block_still refs types b (.calling f)).covered
    ⟨names, [], none⟩ n fun _ h => absurd h not_mem_nil
  rw [hr] at hcovered
  have hle := (hcovered ⟨herr, hadded⟩).2
  have hspent : Weights.zero.spent n n' = 0 := Weights.zero.flaws_spent n n'
  rw [Weights.price_zero_pricesBut] at hle
  simp only [still, hspent] at hle
  rw [staying, Weights.block]
  omega

theorem isAction_of_added (hr : (tabling refs types).block b ⟨names, [], none⟩ n = ((x, st), n')) :
    ∀ d ∈ st.added, d.isAction = false := by
  have hsound := @(pays_block_still refs types b .zero).sound
    ⟨names, [], none⟩ n fun _ h => absurd h not_mem_nil
  rw [hr] at hsound
  exact hsound

end

theorem tabled_body
    (hx : ((body (tabling refs types) h tps ps cps ls b names).run n).1 = .ok (x, names')) :
    ∃ added b', x.get (.control h tps ps cps ls b) = .control h tps ps cps (ls ++ added) b' ∧
      (∀ d ∈ added, d.isAction = false) ∧
        ∀ f, ((Weights.calling f).block b' : Int) ≤ staying refs types f b := by
  rw [run_body] at hx
  obtain ⟨⟨⟨x', names₁, added, error⟩, n'⟩, hr⟩ :
    ∃ r, (tabling refs types).block b ⟨names, [], none⟩ n = r := ⟨_, rfl⟩
  rw [hr] at hx
  cases error with
  | some e => cases hx
  | none =>
    cases hx
    cases added with
    | nil =>
      refine ⟨[], b, ?_, isAction_of_added hr, calls_of_still hr rfl rfl⟩
      rw [append_nil]
      rfl
    | cons d ds => exact ⟨d :: ds, x'.get b, rfl, isAction_of_added hr, calls_of_tabled hr rfl⟩

theorem external_of_kept (h : 0 < keptCallee refs types (.calling f) e) :
    ∃ t i ts as h m, e = .call t (.path i f) ts as ∧ refs.decl? i.id = some (.externFn h m) := by
  have hle := keptCallee_le (m := .calling f) refs types e
  obtain ⟨t, i, ts, as, rfl⟩ := Weights.exists_of_calling_ne
    (by omega : (Weights.calling f).callee e ≠ 0)
  unfold keptCallee at h
  split at h
  · rename_i c hc
    rcases Call.pathKind_cases (Call.calleeKind_of_classify hc) with
      ⟨hd, m, hdecl, -⟩ | ⟨hd, ps, b, -, hk⟩
    · exact ⟨t, i, ts, as, hd, m, rfl, hdecl⟩
    · simp only [hk] at h
      omega
  · omega

end Actions

namespace Program

variable {p : Program} {h : Head} {tps : List String} {ps cps : List Param} {ls : List Decl}
  {b : Block}

theorem lookup_of_call (hids : (nodeIds p.visits).Nodup) (herr : p.check.errors = [])
    (hc : .control h tps ps cps ls b ∈ p.decls)
    (hs : .stmt (.call t (.call t' (.path i f) ts as)) ∈ b.visits)
    (hd : p.check.refs.decl? i.id = some d) :
    ∃ pl ∈ b.places ((p.top.enterControl tps ps cps).declares ls),
      pl.1.lookup f = some (.decl d) := by
  rw [← b.map_snd_places ((p.top.enterControl tps ps cps).declares ls)] at hs
  obtain ⟨⟨sc, _⟩, hpl, rfl⟩ := mem_map.1 hs
  have hpath :
      (sc, .expr (.path i f)) ∈ b.places ((p.top.enterControl tps ps cps).declares ls) := by
    refine closed_listing.block b _ _ hpl ?_
    simp [Place.below, Stmt.places, Scopes.all, Expr.visits, Expr.walk]
  have hplace : (sc, .expr (.path i f)) ∈ p.places := by
    refine mem_flatMap.2 ⟨_, hc, ?_⟩
    simp only [Decl.places, mem_cons, mem_append]
    exact .inr (.inl (.inr hpath))
  obtain ⟨r, hr⟩ := Option.isSome_iff_exists.1 (fine_of_errors herr _ hplace)
  have huse : Place.use? (sc, .expr (.path i f)) = some (i.id, r) := by simp [Place.use?, hr]
  rw [Refs.decl?, get?_refs_check hids hplace huse] at hd
  cases r with
  | param q => cases hd
  | decl d' =>
    cases hd
    exact ⟨_, hpath, hr⟩

theorem name_ne_of_external (hp : p.Orderly) (hids : (nodeIds p.visits).Nodup)
    (herr : p.check.errors = []) (hc : .control h tps ps cps ls b ∈ p.decls)
    (hs : .stmt (.call t (.call t' (.path i f) ts as)) ∈ b.visits)
    (hdecl : p.check.refs.decl? i.id = some (.externFn h' m)) (hd : d ∈ ls ++ p.decls)
    (hact : d.isAction = true) : d.name ≠ f := by
  obtain ⟨pl, hpl, hlookup⟩ := lookup_of_call hids herr hc hs hdecl
  have hlocal : .externFn h' m ∉ ls := by
    intro hl
    cases hp.locals (visits_subset_of_mem hc (Decl.enter_mem_visits _)) _ hl
  rintro rfl
  rcases mem_append.1 hd with hd | hd
  · rcases hp.lookup_local hc hpl hd hlookup with hl | hflaw
    · exact hlocal hl
    · cases hflaw
  · obtain ⟨hname, hl | hflaw | htop⟩ := hp.lookup_cases hc hpl hlookup
    · exact hlocal hl
    · cases hflaw
    · cases inj_on_of_nodup_map (nodup_names_of_errors herr) htop hd hname
      cases hact

theorem Tabled.kind?_ne_action (ht : p.Tabled sources) (hp : p.Orderly)
    (hids : (nodeIds p.visits).Nodup) (herr : p.check.errors = [])
    (hc : .control h tps ps cps ls b ∈ p.decls) (hlib : sources.isLibrary h.span = false)
    (hs : .stmt (.call t e) ∈ b.visits) (a : Decl) :
    Call.kind? p.check.refs p.check.types e ≠ some (.action a) := by
  intro hkind
  obtain ⟨t', i, f, ts, as, rfl, hdecl, hact⟩ := Call.path_of_action hkind
  obtain ⟨pl, hpl, hlookup⟩ := lookup_of_call hids herr hc hs hdecl
  obtain ⟨hname, hmem⟩ := hp.lookup_cases hc hpl hlookup
  refine ht.names hc hlib f ⟨t, t', i, ts, as, hs⟩ a ?_ hact hname
  rcases hmem with hl | hflaw | htop
  · exact mem_append_left _ hl
  · cases a with
    | action => cases hflaw
    | _ => cases hact
  · exact mem_append_right _ htop

theorem tabled_tableActions {sources : SourceMap} (hp : p.Orderly) (hids : (nodeIds p.visits).Nodup)
    (herr : p.check.errors = []) {n : Nat} {x : Edit Program}
    (hx : ((p.tableActions p.check.refs p.check.types sources).run n).1 = .ok x) :
    (x.get p).Tabled sources := by
  have hdecls := Actions.forall₂_program (R := Decl.Edited fun h b f =>
    sources.isLibrary h.span = false → 0 < Actions.staying p.check.refs p.check.types f b)
    (fun d hd => ?_) (fun h tps ps cps ls b _ names n x names' hbody => ?_) hx
  · refine tabled_of_edited hdecls fun hc hlib f hf d hd hact => ?_
    obtain ⟨t, e, hs, hkept⟩ := Weights.exists_call_of_price (hf hlib)
    obtain ⟨t', i, ts, as, hd', m, rfl, hdecl⟩ := Actions.external_of_kept (Int.natCast_pos.1 hkept)
    exact name_ne_of_external hp hids herr hc hs hdecl hd hact
  · cases d with
    | control h tps ps cps ls b =>
      refine .control (fun l hl hact => ⟨l, hl, hact, rfl⟩) fun f _ hlib => ?_
      simp [Actions.edits, hlib] at hd
    | _ => exact .other rfl rfl
  · obtain ⟨added, b', hget, hadded, hcalls⟩ := Actions.tabled_body hbody
    rw [hget]
    refine .control (fun l hl hact => ?_) fun f hf _ => ?_
    · rcases mem_append.1 hl with hl | hl
      · exact ⟨l, hl, hact, rfl⟩
      · rw [hadded l hl] at hact
        cases hact
    · have hnew := Weights.block_calling.2 hf
      have hle := hcalls f
      omega

end Program

end MatchAction
