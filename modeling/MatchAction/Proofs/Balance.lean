import MatchAction.Pipeline.Catalogue
import MatchAction.Proofs.Accounts

namespace MatchAction

abbrev Program.Affords (m : Weights) (p : Program) (x : Supply (Edit Program)) : Prop :=
  Supply.Costs m x (m.total p.visits) fun y => m.total (y.get p).visits

theorem Editor.Fair.affords {σ : Type} {w : Editor σ} {L : Ledger σ} {m : Weights}
    (hw : w.Fair L m.prices m) (p : Program) (st : σ) (hs : L.sound st) (hv : ∀ st, L.valid st)
    (hheld : L.held st = 0) : p.Affords m ((·.1) <$> (w.program p).run st) := by
  refine ((hw.program p).costs st hs hv).andReturn (fun r => ?_) ?_
  · omega
  · rw [m.price_prices, hheld]
    omega

theorem Editor.Fair.affords_idle {σ : Type} {w : Editor σ} {m : Weights}
    (hw : w.Fair .idle m.prices m) (p : Program) (st : σ) :
    p.Affords m ((·.1) <$> (w.program p).run st) :=
  hw.affords p st trivial (fun _ => trivial) rfl

namespace Weights

variable (m : Weights)

theorem placed_rename (spot : Spot) (d : Decl) (name : String) :
    m.placed spot (d.rename name) = m.placed spot d := by
  have hdecl : m.decl (d.rename name) = m.decl d := by
    cases d <;>
      simp [decl, Decl.rename, Decl.withHead, Decl.visits, visit, Decl.id, Decl.head]
  have hflaw : (d.rename name).flaw spot = d.flaw spot := by
    cases d <;> cases spot <;> rfl
  rw [placed, placed, hdecl, hflaw]

theorem cases_relabel (ls : List (String × String)) (cs : List Case) :
    m.cases (cs.map (Renaming.relabel ls)) = m.cases cs := by
  induction cs with
  | nil => rfl
  | cons c cs ih =>
    rcases c with ⟨l | l, b⟩ | (l | l) <;>
      simp [Renaming.relabel, Case.label, Case.relabel, ih]

end Weights

section

variable {m : Weights}

theorem Renaming.weight_cases (r : Renaming) (refs : Refs) (types : Types) (e : Expr)
    (cs : List Case) : m.cases ((r.cases refs types e cs).get cs) = m.cases cs := by
  unfold cases
  split
  · split
    · rfl
    · exact m.cases_relabel _ cs
  · rfl

theorem Renaming.fair_of_calls (r : Renaming) (refs : Refs) (types : Types)
    (hcalls : (r.editor refs types).Calls m) : (r.editor refs types).Fair .idle m.prices m := by
  refine .of_hooks hcalls (fun _ => rfl) (fun _ => rfl)
    (fun _ _ _ => .inl rfl) (fun _ => .pure (Int.le_refl _)) (fun spot d => ?_) (fun s => ?_)
    Editor.pays_keepBlock Editor.pays_keepKey fun e => ?_
  · simp only [editor]
    split
    · exact .pure (by simp [m.placed_rename])
    · exact Editor.pays_keepDecl spot d
  · simp only [editor]
    split
    · rename_i t e cs
      refine .pure ?_
      rw [List.map_singleton, Edit.get_map, m.stmts_cons, m.stmt_switch, weight_cases, m.stmts_nil,
        m.stmt_switch]
      omega
    · exact Editor.pays_keepStmt s
  · simp only [editor]
    split
    · rename_i t name
      split
      · exact Editor.pays_keepExpr _
      · split
        · rename_i new _
          exact (Ledger.Pays.lift (new.costs_copy m)).andReturn 0 (fun e => by simp) (by simp)
        · exact .pure (Int.le_refl _)
        · exact Editor.pays_keepExpr _
    · exact Editor.pays_keepExpr e

theorem Renaming.fair_editor (r : Renaming) (refs : Refs) (types : Types) (hm : m.Silent) :
    (r.editor refs types).Fair .idle m.prices m :=
  r.fair_of_calls refs types (Editor.calls_of_silent _ hm)

theorem Unused.fair_editor (refs : Refs) (sources : SourceMap) (hm : m.Silent) :
    (editor refs sources).Fair .idle m.prices m := by
  refine .of_hooks (Editor.calls_of_silent _ hm) (fun _ => rfl) (fun _ => rfl)
    (fun _ _ _ => .inl rfl) (fun d => .of_at fun st => ?_) (fun spot d => .of_at fun st => ?_)
    Editor.pays_keepStmt Editor.pays_keepBlock Editor.pays_keepKey Editor.pays_keepExpr
  · exact .step (fun _ => rfl) id (fun _ _ => trivial) (.of_pays (.pure (Int.le_refl _)))
      fun _ => Int.le_refl _
  · refine .step (fun _ => rfl) id (fun _ _ => trivial) (.of_get ?_) fun _ => Int.le_refl _
    split
    · exact .of_pays (Editor.pays_keepDecl spot d)
    · exact .of_pays (.pure (by simp))

theorem Flow.weight_flatten (ss : List Stmt) : m.stmts (flatten ss) ≤ m.stmts ss := by
  induction ss with
  | nil => exact Nat.le_refl _
  | cons s ss ih =>
    cases s with
    | block t b =>
      have hinner : m.stmts b.stmts ≤ m.block b := by
        obtain ⟨i, ss⟩ := b
        simp [Block.stmts]
      simp only [flatten]
      split <;> (simp; omega)
    | empty t => simp [flatten]; omega
    | _ => simp [flatten]; omega

theorem Flow.weight_branch (s : Stmt) : m.stmts ((branch s).map (·.get s)) ≤ m.stmt s := by
  unfold branch
  split
  · rename_i b
    cases b with
    | none | some b => simp; omega
  · rename_i b
    cases b with
    | none => simp
    | some b => simp; omega
  · split <;> simp
  · simp

theorem Flow.fair_editor (hcalls : editor.Calls m) : editor.Fair .idle m.prices m := by
  refine .of_hooks hcalls (fun _ => rfl) (fun _ => rfl) (fun _ _ _ => .inl rfl)
    (fun _ => .pure (Int.le_refl _)) Editor.pays_keepDecl (fun s => ?_) (fun b => ?_)
    Editor.pays_keepKey Editor.pays_keepExpr
  · exact .pure (Int.ofNat_le.2 (weight_branch s))
  · simp only [editor]
    split
    · obtain ⟨i, ss⟩ := b
      have := weight_flatten (m := m) ss
      refine .pure ?_
      rw [Edit.get_put, Block.withStmts, m.block_mk, m.block_mk, Block.id, Block.stmts]
      omega
    · exact Editor.pays_keepBlock b

theorem Folding.fold?_literal (h : fold? e = some e') :
    (∃ v ty, e' = .lit e.tag v ty) ∨ ∃ b, e' = .bool e.tag b := by
  unfold fold? at h
  split at h
  · unfold unary? at h
    split at h
    · cases h
      exact .inr ⟨_, rfl⟩
    · obtain ⟨v, -, rfl⟩ := Option.map_eq_some_iff.1 h
      exact .inl ⟨_, _, rfl⟩
    · split at h <;> cases h
      exact .inl ⟨_, _, rfl⟩
    · cases h
  · unfold binary? at h
    split at h
    · obtain ⟨v, -, rfl⟩ := Option.map_eq_some_iff.1 h
      exact .inr ⟨_, rfl⟩
    · obtain ⟨ty, -, h⟩ := Option.bind_eq_some_iff.1 h
      split at h
      · cases h
        exact .inr ⟨_, rfl⟩
      · obtain ⟨v, -, h⟩ := Option.bind_eq_some_iff.1 h
        cases h
        exact .inl ⟨_, _, rfl⟩
    · cases h
  · cases h

theorem Folding.weight_fold? (h : fold? e = some e') : m.expr e' ≤ m.expr e := by
  have hnode : m.node e.id ≤ m.expr e := by
    cases e <;> simp [Expr.id, Expr.tag]
  rcases fold?_literal h with ⟨v, ty, rfl⟩ | ⟨b, rfl⟩ <;> exact hnode

theorem Folding.fair_editor (hcalls : editor.Calls m) : editor.Fair .idle m.prices m := by
  refine .of_hooks hcalls (fun _ => rfl) (fun _ => rfl) (fun _ _ _ => .inl rfl)
    (fun _ => .pure (Int.le_refl _)) Editor.pays_keepDecl (fun s => ?_) Editor.pays_keepBlock
    Editor.pays_keepKey fun e => ?_
  · simp only [editor]
    split
    · rename_i taken h
      refine .pure ?_
      unfold branch? at h
      split at h
      · rename_i b
        cases h
        cases b <;> simp <;> omega
      · rename_i b
        cases h
        cases taken <;> simp <;> omega
      · cases h
    · exact Editor.pays_keepStmt s
  · simp only [editor]
    split
    · rename_i h
      exact .pure (Int.ofNat_le.2 (weight_fold? h))
    · exact Editor.pays_keepExpr e

theorem Strength.fair_editor (hm : m.Silent) : editor.Fair .idle m.prices m := by
  refine .of_hooks (Editor.calls_of_silent _ hm) (fun _ => rfl) (fun _ => rfl)
    (fun _ _ _ => .inl rfl) (fun _ => .pure (Int.le_refl _)) Editor.pays_keepDecl
    Editor.pays_keepStmt Editor.pays_keepBlock Editor.pays_keepKey fun e => ?_
  have hshift (t : Tag) (op : BinaryOp) (l r e : Expr) (k : Nat)
      (h : m.expr e ≤ m.expr l + m.expr r) : Ledger.idle.Pays m
        (do return .put (.binary t .shl e (.lit (← Tag.fresh none) k .int)) :
          Editing Unit (Edit Expr))
        (m.expr (.binary t op l r)) fun x => m.expr (x.get (.binary t op l r)) := by
    refine (Ledger.Pays.lift (costs_tag m none)).andReturn (m.expr (.binary t op l r))
      (fun t' => ?_) (by simp)
    rw [Edit.get_put, m.expr_binary, m.expr_binary, m.expr_lit]
    omega
  simp only [editor]
  split
  · exact .pure (by simp; omega)
  · rename_i t op l r
    split
    · exact .pure (by simp; omega)
    · exact .pure (by simp; omega)
    · exact hshift _ _ _ _ _ _ (by omega)
    · exact hshift _ _ _ _ _ _ (by omega)
    · exact Editor.pays_keepExpr _
  · exact Editor.pays_keepExpr e

theorem Names.pays_new (base : String) :
    Ledger.idle.Pays m (Names.new base : Editing Names String) 0 fun _ => 0 :=
  ⟨fun _ _ => Nat.le_refl _, id, fun _ _ => ⟨trivial, by simp [Ledger.idle, Names.new]⟩⟩

namespace Returns

theorem costs_setFlag (flag : String) (value : Bool) :
    Supply.Costs m (setFlag flag value) 0 fun lr => m.expr lr.1 + m.expr lr.2 :=
  (costs_tag m none).andReturn₂ (costs_tag m none) (fun _ _ => by simp) (Int.le_refl _)

theorem costs_unlessSet (flag : String) (ss : List Stmt) :
    Supply.Costs m (unlessSet flag ss) (m.stmts ss) fun s => m.stmt s := by
  refine (costs_tag m none).free fun t₁ => (costs_tag m none).free fun t₂ => ?_
  refine (costs_tag m none).free fun t₃ => (costs_freshId m).free fun i => ?_
  refine (costs_tag m none).free fun t₄ => .pure ?_
  simp only [m.stmt_ifThen, m.expr_unary, m.expr_path, m.stmt_block, m.block_mk]
  omega

mutual
theorem costs_stmt (flag : String) : (s : Stmt) →
    Supply.Costs m (stmt flag s) (m.stmt s) fun s => m.stmt s
  | .ret t e => (costs_setFlag flag true).free fun lr => .pure (by
      simp only [m.stmt_assign, m.stmt_ret]
      omega)
  | .block t b => ((costs_block flag b).bind (m.node t.id) fun b' => .pure (by
      rw [m.stmt_block]
      omega)).weaken (by rw [m.stmt_block]; omega)
  | .ifThen t c a none => ((costs_stmt flag a).bind (m.node t.id + m.expr c) fun a' => .pure (by
      rw [m.stmt_ifThen]
      omega)).weaken (by rw [m.stmt_ifThen]; omega)
  | .ifThen t c a (some b) => by
    refine ((costs_stmt flag a).bind (m.node t.id + m.expr c + m.stmt b) fun a' => ?_).mono
      (by rw [m.stmt_ifElse]; omega) fun _ => Int.le_refl _
    refine ((costs_stmt flag b).bind (m.node t.id + m.expr c + m.stmt a') fun b' => .pure ?_).mono
      (by omega) fun _ => Int.le_refl _
    rw [m.stmt_ifElse]
    omega
  | .switch t e cs => ((costs_cases flag cs).bind (m.node t.id + m.expr e) fun cs' => .pure (by
      rw [m.stmt_switch]
      omega)).weaken (by rw [m.stmt_switch]; omega)
  | .assign .. | .call .. | .decl .. | .exit _ | .empty _ => .pure (Int.le_refl _)
theorem costs_block (flag : String) : (b : Block) →
    Supply.Costs m (block flag b) (m.block b) fun b => m.block b
  | .mk i ss => ((costs_stmts flag ss).bind (m.node i) fun ss' => .pure (by
      rw [m.block_mk]
      omega)).weaken (by rw [m.block_mk]; omega)
theorem costs_stmts (flag : String) : (ss : List Stmt) →
    Supply.Costs m (stmts flag ss) (m.stmts ss) fun ss => m.stmts ss
  | [] => .pure (Int.le_refl _)
  | s :: ss => by
    rw [stmts, m.stmts_cons]
    split
    · exact ((costs_stmts flag ss).bind (m.stmt s) fun ss' => .pure (by
        rw [m.stmts_cons]
        omega)).weaken (by omega)
    · refine ((costs_stmt flag s).bind (m.stmts ss) fun s' => ?_).weaken (by omega)
      split
      · exact .pure (by simp only [m.stmts_cons, m.stmts_nil]; omega)
      · refine ((costs_stmts flag ss).bind (m.stmt s') fun ss' => ?_).weaken (by omega)
        exact ((costs_unlessSet flag ss').bind (m.stmt s') fun g => .pure (by simp; omega)).mono
          (by omega) fun _ => Int.le_refl _
theorem costs_cases (flag : String) : (cs : List Case) →
    Supply.Costs m (cases flag cs) (m.cases cs) fun cs => m.cases cs
  | [] => .pure (Int.le_refl _)
  | .run l b :: cs => by
    refine (costs_block flag b).andReturn₂ (costs_cases flag cs) (fun b' cs' => ?_) ?_ <;>
      rw [m.cases_run] <;> omega
  | .fallThrough l :: cs => (costs_cases flag cs).andReturn (fun cs' => by simp) (by simp)
end

variable {spot : Spot}

theorem pays_action (h : Head) (ps : List Param) (b : Block) :
    Ledger.idle.Pays m (action h ps b) (m.placed spot (.action h ps b)) fun x =>
      m.placed spot (x.get (.action h ps b)) := by
  obtain ⟨c, hc⟩ := m.placed_action h spot ps
  rw [action]
  split
  · exact .pure (Int.le_refl _)
  · refine (Names.pays_new _).free fun flag => ?_
    refine ((Ledger.Pays.lift (costs_block flag b)).bind c fun b' => ?_).weaken (by rw [hc]; omega)
    refine (Ledger.Pays.lift (costs_tag m none)).free fun t => ?_
    refine (Ledger.Pays.lift (costs_head m flag none)).free fun h' => ?_
    refine ((Ledger.Pays.lift (costs_declare m (.var h' .bool (some (.bool t false))))).bind
      (m.block b' + c) fun s => .pure ?_).weaken (by simp; omega)
    rw [Edit.get_put, hc, m.block_withStmts, m.block_eq, m.stmts_cons]
    omega

theorem pays_locals (ls : List Decl) :
    Ledger.idle.Pays m (locals ls) (m.decls spot ls) fun x => m.decls spot (x.get ls) := by
  induction ls with
  | nil => exact .pure (Int.le_refl _)
  | cons d ds ih =>
    have hkeep : Ledger.idle.Pays m (pure .keep : Naming (Edit Decl)) (m.placed spot d) fun x =>
        m.placed spot (x.get d) := .pure (Int.le_refl _)
    cases d with
    | action h ps b => exact (pays_action h ps b).consDecls ih
    | _ => exact hkeep.consDecls ih

theorem pays_decl (d : Decl) :
    Ledger.idle.Pays m (decl d) (m.placed spot d) fun x => m.placed spot (x.get d) := by
  unfold decl
  split
  · exact pays_action _ _ _
  · rename_i h tps ps cps ls b
    obtain ⟨c, hc⟩ := m.placed_control h spot ps cps tps
    have hls : Ledger.idle.Pays m (locals ls) (m.decls .control ls) _ := pays_locals ls
    refine (hls.bind (c + m.block b) fun xs => ?_).weaken (by rw [hc]; omega)
    split
    · refine .pure ?_
      rw [Edit.get_map (Decl.control h tps ps cps · b), hc]
      omega
    · refine (Names.pays_new _).free fun flag => ?_
      refine ((Ledger.Pays.lift (costs_block flag b)).bind (c + m.decls .control (xs.get ls))
        fun b' => ?_).weaken (by omega)
      refine (Ledger.Pays.lift (costs_setFlag flag false)).free fun lr => ?_
      refine (Ledger.Pays.lift (costs_tag m none)).free fun t => ?_
      refine (Ledger.Pays.lift (costs_head m flag none)).free fun h' => .pure ?_
      rw [Edit.get_put, hc, m.block_withStmts, m.block_eq, m.stmts_cons, m.stmt_assign,
        m.decls_append, m.decls_cons, m.placed_var]
      simp
      omega
  · exact .pure (Int.le_refl _)

theorem pays_decls (ds : List Decl) :
    Ledger.idle.Pays m (decls ds) (m.decls spot ds) fun x => m.decls spot (x.get ds) := by
  induction ds with
  | nil => exact .pure (Int.le_refl _)
  | cons d ds ih =>
    exact (pays_decl d).consDecls ih

end Returns

namespace Hoist

theorem costs_leftover (t : Tag) (h : Head) (e : Option Expr) (s : Stmt) :
    Supply.Costs m (leftover t h e) (m.expr? e) fun xs => m.stmts (xs.map (·.get s)) := by
  cases e with
  | none => exact .pure (Int.le_refl _)
  | some e =>
    refine (costs_tag m h.span).free fun t' => (costs_tag m t.span).free fun t'' => .pure ?_
    simp

/-- Moved variables are put aside for the spot they move to. -/
def ledger (m : Weights) (spot : Spot) : Ledger State :=
  ⟨fun st => m.decls spot st.moved, fun _ => True, fun _ => True⟩

theorem fair_editor (hm : m.Silent) (spot : Spot) : editor.Fair (ledger m spot) m.prices m := by
  refine .of_hooks (Editor.calls_of_silent _ hm) (fun _ => rfl) (fun _ => rfl)
    (fun _ _ _ => .inl rfl) (fun _ => .pure (Int.le_refl _)) Editor.pays_keepDecl (fun s => ?_)
    Editor.pays_keepBlock Editor.pays_keepKey Editor.pays_keepExpr
  simp only [editor]
  split
  · rename_i t h ty init
    refine .of_at fun st => .of_get ?_
    split
    · exact .of_pays (Editor.pays_keepStmt _)
    · refine .step (fun _ => rfl) id (fun _ _ => trivial)
        (.of_pays (.lift (costs_leftover t h init _))) fun _ => ?_
      simp [ledger]
      omega
  · exact Editor.pays_keepStmt s

theorem costs_block (hm : m.Silent) (spot : Spot) (taken : List String) (b : Block) :
    Supply.Costs m (block taken b) (m.block b) fun r => m.block (r.1.get b) + m.decls spot r.2 := by
  have hrun := ((fair_editor hm spot).visitBlock b).costs ⟨taken, []⟩ trivial fun _ => trivial
  refine hrun.andReturn (fun _ => Int.le_refl _) ?_
  rw [m.price_prices]
  simp [ledger, Weights.block]

theorem costs_front (ds : List Decl) :
    Supply.Costs m (ds.mapM fun d => Stmt.declare d) (m.decls .block ds) fun ss => m.stmts ss := by
  induction ds with
  | nil => exact .pure (Int.le_refl _)
  | cons d ds ih =>
    rw [List.mapM_cons]
    exact (costs_declare m d).andReturn₂ ih (fun s ss => by simp) (by simp)

theorem costs_action (hm : m.Silent) (taken : List String) (h : Head)
    (ps : List Param) (b : Block) :
    Supply.Costs m (action taken h ps b) (m.placed spot (.action h ps b)) fun x =>
      m.placed spot (x.get (.action h ps b)) := by
  obtain ⟨c, hc⟩ := m.placed_action h spot ps
  refine ((costs_block hm .block _ b).orBack.bind c fun r => ?_).weaken (by rw [hc]; omega)
  dsimp only
  split
  · exact .pure (by rw [Edit.get_keep, hc]; omega)
  · refine ((costs_front r.2).bind (m.block (r.1.get b) + c) fun front => .pure ?_).weaken
      (by omega)
    rw [Edit.get_put, hc, m.block_withStmts, m.block_eq, m.stmts_append]
    omega

theorem costs_locals (hm : m.Silent) (taken : List String) (ls : List Decl) :
    Supply.Costs m (locals taken ls) (m.decls spot ls) fun x => m.decls spot (x.get ls) := by
  induction ls with
  | nil => exact .pure (Int.le_refl _)
  | cons d ds ih =>
    have hkeep : Supply.Costs m (pure .keep) (m.placed spot d) fun (x : Edit Decl) =>
        m.placed spot (x.get d) := .pure (Int.le_refl _)
    cases d with
    | action h ps b => exact (costs_action hm taken h ps b).consDecls ih
    | _ => exact hkeep.consDecls ih

theorem costs_decl (hm : m.Silent) (toplevel : List String) (d : Decl) :
    Supply.Costs m (decl toplevel d) (m.placed spot d) fun x => m.placed spot (x.get d) := by
  unfold decl
  split
  · exact costs_action hm toplevel _ _ _
  · rename_i h tps ps cps ls b
    obtain ⟨c, hc⟩ := m.placed_control h spot ps cps tps
    have hls (taken : List String) : Supply.Costs m (locals taken ls) (m.decls .control ls)
        fun x => m.decls .control (x.get ls) := costs_locals hm taken ls
    refine ((hls _).orBack.bind (c + m.block b) fun xs => ?_).weaken (by rw [hc]; omega)
    refine ((costs_block hm .control _ b).orBack.bind
      (c + max (m.decls .control ls) (m.decls .control (xs.get ls))) fun r => ?_).weaken (by omega)
    dsimp only
    split
    · exact .pure (by rw [Edit.get_keep, hc]; omega)
    · exact .pure (by rw [Edit.get_put, hc, m.decls_append]; omega)
  · exact .pure (Int.le_refl _)

theorem costs_decls (hm : m.Silent) (toplevel : List String) (ds : List Decl) :
    Supply.Costs m (decls toplevel ds) (m.decls spot ds) fun x => m.decls spot (x.get ds) := by
  induction ds with
  | nil => exact .pure (Int.le_refl _)
  | cons d ds ih => exact (costs_decl hm toplevel d).consDecls ih

end Hoist

namespace Program

theorem affords_uniqueNames (hm : m.Silent) (refs : Refs) (types : Types) (p : Program) :
    p.Affords m (p.uniqueNames refs types) := by
  unfold uniqueNames
  dsimp only
  split
  · exact .pure (Int.le_refl _)
  · exact ((Unique.changes p).fair_editor refs types hm).affords_idle p ()

theorem affords_rounds (hm : m.Silent) (sources : SourceMap) (fuel : Nat) (p : Program) :
    p.Affords m (Unused.rounds sources fuel p) := by
  induction fuel generalizing p with
  | zero => exact .pure (Int.le_refl _)
  | succ fuel ih =>
    have hround : p.Affords m (Unused.round sources p) :=
      (Unused.fair_editor p.check.refs sources hm).affords_idle p 0
    refine (hround.bind 0 fun x => ?_).weaken (by omega)
    cases x with
    | keep => exact .pure (by omega)
    | put p' => exact (ih p').andReturn (fun y => Int.le_refl _) (by simp)

theorem affords_removeUnused (hm : m.Silent) (sources : SourceMap) (p : Program) :
    p.Affords m (p.removeUnused sources) := affords_rounds hm sources _ p

theorem affords_simplifyFlow (hcalls : Flow.editor.Calls m) (p : Program) :
    p.Affords m p.simplifyFlow := (Flow.fair_editor hcalls).affords_idle p ()

theorem affords_foldConstants (hcalls : Folding.editor.Calls m) (p : Program) :
    p.Affords m p.foldConstants := (Folding.fair_editor hcalls).affords_idle p ()

theorem affords_reduceStrength (hm : m.Silent) (p : Program) : p.Affords m p.reduceStrength :=
  (Strength.fair_editor hm).affords_idle p ()

theorem affords_of_decls {p : Program} {x : Supply (Edit (List Decl))}
    (h : Supply.Costs m x (m.decls .toplevel p.decls) fun y => m.decls .toplevel (y.get p.decls)) :
    p.Affords m (do return (← x).map .mk) := by
  refine h.andReturn (fun y => ?_) ?_
  · rw [Edit.get_map Program.mk, m.decls_toplevel]
    exact Int.le_refl _
  · rw [m.decls_toplevel]
    exact Int.le_refl _

theorem affords_hoistVariables (hm : m.Silent) (p : Program) : p.Affords m p.hoistVariables :=
  affords_of_decls (Hoist.costs_decls hm _ p.decls)

theorem affords_removeReturns (p : Program) : p.Affords m p.removeReturns := by
  have hdecls : Ledger.idle.Pays m (Returns.decls p.decls) (m.decls .toplevel p.decls) fun y =>
      m.decls .toplevel (y.get p.decls) := Returns.pays_decls p.decls
  have hrun : Supply.Costs m ((·.1) <$> (Returns.decls p.decls).run (.ofProgram p))
      (m.decls .toplevel p.decls) fun y => m.decls .toplevel (y.get p.decls) :=
    (hdecls.costs (.ofProgram p) trivial fun _ => trivial).andReturn
      (fun r => by simp [Ledger.idle]) (by simp [Ledger.idle])
  exact affords_of_decls hrun

end Program

end

end MatchAction
