import MatchAction.Proofs.InlineBalance
import MatchAction.Proofs.Returns
import MatchAction.Proofs.TableBalance

namespace MatchAction

open List

def Decl.inst? : Decl → Option (Head × TypeExpr)
  | .inst h ty _ => some (h, ty)
  | _ => none

def Decl.insts (ds : List Decl) : List (Head × TypeExpr) := ds.filterMap Decl.inst?

def Program.insts (p : Program) : List (Head × TypeExpr) := Decl.insts p.decls

variable {d d' : Decl} {ds : List Decl}

namespace Decl

theorem inst?_congr (h : d'.frame = d.frame) : d'.inst? = d.inst? := by
  have hframe (d : Decl) : d.frame.inst? = d.inst? := by cases d <;> rfl
  rw [← hframe, h, hframe]

theorem insts_append (ds es : List Decl) : insts (ds ++ es) = insts ds ++ insts es :=
  filterMap_append

theorem insts_cons (d : Decl) (ds : List Decl) : insts (d :: ds) = insts [d] ++ insts ds :=
  insts_append [d] ds

theorem insts_singleton_congr (h : d'.inst? = d.inst?) : insts [d'] = insts [d] := by
  simp only [insts, filterMap_cons, h]

theorem insts_forall₂ (h : List.Forall₂ (fun d d' => d'.inst? = d.inst?) ds ds') :
    insts ds ⊆ insts ds' := by
  induction h with
  | nil => exact List.Subset.refl _
  | @cons d d' ds ds' hd _ ih =>
    rw [insts_cons d, insts_cons d', insts_singleton_congr hd]
    exact append_subset.2
      ⟨subset_append_left _ _, subset_append_of_subset_right _ ih⟩

end Decl

namespace Editor

variable {σ : Type} {w : Editor σ} {k : Continuation σ}

theorem aroundDecl_apply
    (h : w.enterDecl d st n = ((.descend, st'), n')) (x : Editing σ (Edit Decl)) :
    w.aroundDecl k false d x st n = (x >>= fun x => leaveEach w.leaveDecl d [x]) st' n' := by
  simp only [aroundDecl, Bool.false_eq_true, if_false, Supply.stateT_bind_apply, h]

theorem map_get_visitDecl
    (h : w.enterDecl d st n = ((.descend, st'), n')) :
    ∃ d' st'' n'', d'.frame = d.frame ∧
      (w.visitDecl k false d st n).1.1.map (·.get d)
        = (w.leaveDecl d' st'' n'').1.1.map (·.get d') := by
  refine ⟨_, (w.declParts k d st' n').1.2, (w.declParts k d st' n').2,
    frame_declParts (w := w) (k := k) d st' n', ?_⟩
  rw [visitDecl_eq, aroundDecl_apply h]
  simp only [Supply.stateT_bind_apply, leaveEach_singleton, Supply.stateT_map_apply, map_map,
    Function.comp_def, Edit.get_andThen]

theorem get_visitDecls_cons (d : Decl) (ds : List Decl) (st : σ) (n : Nat) :
    (w.visitDecls k (d :: ds) st n).1.1.get (d :: ds) =
      (w.visitDecl k false d st n).1.1.map (·.get d) ++
        (w.visitDecls k ds (w.visitDecl k false d st n).1.2
          (w.visitDecl k false d st n).2).1.1.get ds := by
  simp only [visitDecls, Supply.stateT_bind_apply, Supply.stateT_pure_apply]
  rw [← Splice.get_toEdit]
  exact Edit.get_map₂ (· ++ ·) [d] ds _ _

theorem insts_visitDecls {P : σ → Prop}
    (h : ∀ d ∈ ds, ∀ st n, P st → P (w.visitDecl k false d st n).1.2 ∧
      Decl.insts [d] ⊆ Decl.insts ((w.visitDecl k false d st n).1.1.map (·.get d)))
    (st : σ) (n : Nat) (hst : P st) :
    Decl.insts ds ⊆ Decl.insts ((w.visitDecls k ds st n).1.1.get ds) := by
  induction ds generalizing st n with
  | nil => exact List.Subset.refl _
  | cons d ds ih =>
    obtain ⟨hst', hd⟩ := h d (.head _) st n hst
    have hds := ih (fun d hd => h d (.tail _ hd)) _ (w.visitDecl k false d st n).2 hst'
    rw [get_visitDecls_cons, Decl.insts_append, Decl.insts_cons]
    exact append_subset.2
      ⟨subset_append_of_subset_left _ hd, subset_append_of_subset_right _ hds⟩

theorem insts_program {P : σ → Prop} {p : Program}
    (h : ∀ d ∈ p.decls, ∀ st n, P st → P (w.visitDecl stop false d st n).1.2 ∧
      Decl.insts [d] ⊆ Decl.insts ((w.visitDecl stop false d st n).1.1.map (·.get d)))
    (st : σ) (n : Nat) (hst : P st) : p.insts ⊆ ((w.program p st n).1.1.get p).insts := by
  have hds := insts_visitDecls h st n hst
  have hget : ((w.program p st n).1.1.get p).decls = (w.visitDecls stop p.decls st n).1.1.get
      p.decls :=
    congrArg Program.decls (Edit.get_map Program.mk p.decls _)
  rw [Program.insts, Program.insts, hget]
  exact hds

theorem insts_of_hooks {p : Program} (henter : ∀ d st n, (w.enterDecl d st n).1.1 = .descend)
    (hleave : ∀ d ∈ p.decls, ∀ d' st n, d'.head = d.head →
      Decl.insts [d'] ⊆ Decl.insts ((w.leaveDecl d' st n).1.1.map (·.get d')))
    (st : σ) (n : Nat) : p.insts ⊆ ((w.program p st n).1.1.get p).insts := by
  refine insts_program (P := fun _ => True) (fun d hd st n _ => ⟨trivial, ?_⟩) st n trivial
  have hrun : w.enterDecl d st n = ((.descend, (w.enterDecl d st n).1.2), (w.enterDecl d st n).2) :=
    Prod.ext (Prod.ext (henter d st n) rfl) rfl
  obtain ⟨d', st', n', hframe, hget⟩ := map_get_visitDecl (k := stop) hrun
  rw [hget, ← Decl.insts_singleton_congr (Decl.inst?_congr hframe)]
  exact hleave d hd d' st' n' (Decl.head_congr hframe)

end Editor

/-! Editors that leave every toplevel instance in its place. -/

namespace Program

variable (p : Program) (n : Nat)

theorem insts_simplifyFlow : p.insts ⊆ ((p.simplifyFlow n).1.get p).insts :=
  Flow.editor.insts_of_hooks (fun _ _ _ => rfl) (fun _ _ _ _ _ _ => List.Subset.refl _) () n

theorem insts_foldConstants : p.insts ⊆ ((p.foldConstants n).1.get p).insts :=
  Folding.editor.insts_of_hooks (fun _ _ _ => rfl) (fun _ _ _ _ _ _ => List.Subset.refl _) () n

theorem insts_reduceStrength : p.insts ⊆ ((p.reduceStrength n).1.get p).insts :=
  Strength.editor.insts_of_hooks (fun _ _ _ => rfl) (fun _ _ _ _ _ _ => List.Subset.refl _) () n

theorem insts_simplifyKeys (policy : KeyPolicy) (refs : Refs) (types : Types) (base : String) :
    p.insts ⊆ ((p.simplifyKeys policy refs types base n).1.get p).insts := by
  refine (Keys.editor policy refs types base).insts_of_hooks (fun d st n => ?_)
    (fun _ _ d st n _ => ?_) ⟨.ofProgram p, .empty, none⟩ n
  · simp only [Keys.editor]
    split <;> rfl
  · simp only [Keys.editor]
    split
    · exact List.Subset.refl _
    · simp only [Supply.stateT_bind_apply, Supply.stateT_pure_apply, map_append, Decl.insts_append]
      exact subset_append_right _ _

end Program

/-! Removal of what is unused counts the declarations around a node, and stands at zero between
those of the toplevel. -/

namespace Unused

variable {α β σ : Type}

def Steady (x : Editing σ α) : Prop := ∀ st n, (x st n).1.2 = st

namespace Steady

variable {x : Editing σ α} {f : α → Editing σ β}

theorem pure (a : α) : Steady (Pure.pure a : Editing σ α) := fun _ _ => rfl

theorem lift (x : Supply α) : Steady (liftM x : Editing σ α) := fun _ _ => rfl

theorem bind (hx : Steady x) (hf : ∀ a, Steady (f a)) : Steady (x >>= f) := by
  intro st n
  rw [Supply.stateT_bind_apply, hf, hx]

theorem mapM (hf : ∀ a, Steady (f a)) (as : List α) : Steady (as.mapM f) := by
  induction as with
  | nil => exact .pure []
  | cons a as ih =>
    rw [mapM_cons]
    exact (hf a).bind fun _ => ih.bind fun _ => .pure _

end Steady

theorem steady_single (xs : Splice Stmt) (s : Stmt) :
    Steady (Editor.single xs s : Editing σ (Edit Stmt)) := by
  unfold Editor.single
  split
  · exact .pure _
  · exact (Steady.lift _).bind fun _ => .pure _
  · exact (Steady.lift _).bind fun _ => (Steady.lift _).bind fun _ => .pure _

theorem steady_declared (t : Tag) (d : Decl) (xs : Splice Decl) :
    Steady (Editor.declared t d xs : Editing σ (Splice Stmt)) := by
  unfold Editor.declared
  split
  · exact .pure _
  · exact .pure _
  · exact (Steady.mapM (fun _ => (Steady.lift _).bind fun _ => .pure _) _).bind fun _ => .pure _

variable (refs : Refs) (sources : SourceMap)

theorem plain_editor : (editor refs sources).PlainExprs := ⟨fun _ => rfl, fun _ => rfl⟩

theorem steady_aroundStmt (hx : Steady x) :
    Steady ((editor refs sources).aroundStmt Editor.stop false s x) := by
  have hleave (xs : Splice Stmt) :
      Steady (Editor.leaveEach (editor refs sources).leaveStmt s xs) := by
    induction xs with
    | nil => exact .pure []
    | cons x xs ih => exact (Steady.pure _).bind fun _ => ih.bind fun _ => .pure _
  rw [Editor.aroundStmt_descend rfl]
  exact hx.bind hleave

theorem steady_aroundDecl (hx : Steady x) :
    Steady ((editor refs sources).aroundDecl Editor.stop false d x) := by
  intro st n
  have hleave (d : Decl) (st n : Nat) : ((editor refs sources).leaveDecl d (st + 1) n).1.2 =
      st := by
    simp only [editor, Supply.stateT_bind_apply]
    split <;> rfl
  have henter : (editor refs sources).enterDecl d st n = ((.descend, st + 1), n) := rfl
  rw [Editor.aroundDecl_apply henter, Supply.stateT_bind_apply, Editor.leaveEach_singleton,
    Supply.stateT_map_apply, hx]
  exact hleave _ _ _

theorem steady_keys (ks : List Key) : Steady ((editor refs sources).visitKeys Editor.stop ks) := by
  induction ks with
  | nil => exact .pure _
  | cons key ks ih =>
    refine Steady.bind ?_ fun _ => ih.bind fun _ => .pure _
    rw [Editor.visitKey, (plain_editor refs sources).visitExpr]
    exact (Steady.pure _).bind fun _ => (Steady.pure _).bind fun _ => by
      dsimp only
      split <;> exact .pure _

mutual
theorem steady_stmt : (s : Stmt) → Steady ((editor refs sources).visitStmt Editor.stop false s)
  | .block _ b => steady_aroundStmt refs sources ((steady_block b).bind fun _ => .pure _)
  | .assign _ l r => steady_aroundStmt refs sources <| by
    rw [(plain_editor refs sources).visitExpr, (plain_editor refs sources).visitExpr]
    exact (Steady.pure _).bind fun _ => (Steady.pure _).bind fun _ => .pure _
  | .call _ e => steady_aroundStmt refs sources <| by
    rw [(plain_editor refs sources).visitExpr]
    exact (Steady.pure _).bind fun _ => .pure _
  | .ifThen _ c a none => steady_aroundStmt refs sources <| by
    rw [(plain_editor refs sources).visitExpr]
    exact (Steady.pure _).bind fun _ => (steady_stmt a).bind fun _ =>
      (steady_single _ a).bind fun _ => .pure _
  | .ifThen _ c a (some b) => steady_aroundStmt refs sources <| by
    rw [(plain_editor refs sources).visitExpr]
    exact (Steady.pure _).bind fun _ => (steady_stmt a).bind fun _ =>
      (steady_single _ a).bind fun _ => (steady_stmt b).bind fun _ =>
      (steady_single _ b).bind fun _ => .pure _
  | .switch _ e cs => steady_aroundStmt refs sources <| by
    rw [(plain_editor refs sources).visitExpr]
    exact (Steady.pure _).bind fun _ => (steady_cases cs).bind fun _ => .pure _
  | .decl t d =>
    steady_aroundStmt refs sources ((steady_decl d).bind fun _ => steady_declared t d _)
  | .ret _ e => steady_aroundStmt refs sources <| by
    rw [(plain_editor refs sources).visitExpr?]
    exact (Steady.pure _).bind fun _ => .pure _
  | .exit _ | .empty _ => steady_aroundStmt refs sources (.pure _)
theorem steady_block : (b : Block) → Steady ((editor refs sources).visitBlock Editor.stop b)
  | .mk _ ss => (steady_stmts ss).bind fun _ => (Steady.pure _).bind fun _ => .pure _
theorem steady_stmts : (ss : List Stmt) → Steady ((editor refs sources).visitStmts Editor.stop ss)
  | [] => .pure _
  | s :: ss => (steady_stmt s).bind fun _ => (steady_stmts ss).bind fun _ => .pure _
theorem steady_cases : (cs : List Case) → Steady ((editor refs sources).visitCases Editor.stop cs)
  | [] => .pure _
  | .run _ b :: cs => (steady_block b).bind fun _ => (steady_cases cs).bind fun _ => .pure _
  | .fallThrough _ :: cs => (steady_cases cs).bind fun _ => .pure _
theorem steady_decl : (d : Decl) → Steady ((editor refs sources).visitDecl Editor.stop false d)
  | .header .. | .struct .. | .externType .. | .externFn .. =>
    steady_aroundDecl refs sources (.pure _)
  | .action _ _ b => steady_aroundDecl refs sources ((steady_block b).bind fun _ => .pure _)
  | .table _ ks as d => steady_aroundDecl refs sources <| by
    rw [(plain_editor refs sources).visitExprs, (plain_editor refs sources).visitExpr?]
    exact (steady_keys refs sources ks).bind fun _ => (Steady.pure _).bind fun _ =>
      (Steady.pure _).bind fun _ => .pure _
  | .control _ _ _ _ ls b => steady_aroundDecl refs sources
    ((steady_decls ls).bind fun _ => (steady_block b).bind fun _ => .pure _)
  | .package .. => steady_aroundDecl refs sources (.pure _)
  | .inst _ _ as => steady_aroundDecl refs sources <| by
    rw [(plain_editor refs sources).visitExprs]
    exact (Steady.pure _).bind fun _ => .pure _
  | .var _ _ e => steady_aroundDecl refs sources <| by
    rw [(plain_editor refs sources).visitExpr?]
    exact (Steady.pure _).bind fun _ => .pure _
  | .const _ _ e => steady_aroundDecl refs sources <| by
    rw [(plain_editor refs sources).visitExpr]
    exact (Steady.pure _).bind fun _ => .pure _
theorem steady_decls : (ds : List Decl) → Steady ((editor refs sources).visitDecls Editor.stop ds)
  | [] => .pure _
  | d :: ds => (steady_decl d).bind fun _ => (steady_decls ds).bind fun _ => .pure _
end

theorem insts_round (p : Program) (n : Nat) : p.insts ⊆ ((round sources p n).1.get p).insts := by
  refine Editor.insts_program (P := (· = 0)) (fun d _ st n hst => ?_) 0 n rfl
  obtain rfl := hst
  refine ⟨steady_decl _ sources d 0 n, ?_⟩
  cases d with
  | inst h ty as =>
    have henter : (editor p.check.refs sources).enterDecl (.inst h ty as) 0 n =
      ((.descend, 1), n) := rfl
    have hparts : (editor p.check.refs sources).declParts Editor.stop (.inst h ty as) =
        pure .keep := by
      rw [Editor.declParts, (plain_editor _ sources).visitExprs, pure_bind, Edit.map_keep]
    have hstays : stays p.check.refs sources true (.inst h ty as) = true := by simp [stays]
    have hleave : (editor p.check.refs sources).leaveDecl (.inst h ty as) 1 n =
        (([.keep], 0), n) := by
      simp only [editor, Supply.stateT_bind_apply]
      exact congrFun (congrFun (if_pos hstays) 0) n
    rw [Editor.visitDecl_eq, Editor.aroundDecl_apply henter, hparts, pure_bind,
      Editor.leaveEach_singleton, Supply.stateT_map_apply, Edit.get_keep, hleave]
    exact List.Subset.refl _
  | _ => exact nil_subset _

theorem insts_rounds (fuel : Nat) (p : Program) (n : Nat) :
    p.insts ⊆ ((rounds sources fuel p n).1.get p).insts := by
  induction fuel generalizing p n with
  | zero => exact List.Subset.refl _
  | succ fuel ih =>
    have hround := insts_round sources p n
    simp only [rounds, Supply.bind_apply]
    cases hr : (round sources p n).1 with
    | keep => exact List.Subset.refl _
    | put p' =>
      rw [hr] at hround
      exact List.Subset.trans hround (ih p' _)

end Unused

theorem Program.insts_removeUnused (sources : SourceMap) (p : Program) (n : Nat) :
    p.insts ⊆ ((p.removeUnused sources n).1.get p).insts := Unused.insts_rounds sources _ p n

/-! Passes that go through the toplevel declarations one by one. -/

namespace Hoist

theorem inst?_action (taken : List String) (h : Head) (ps : List Param) (b : Block) (n : Nat) :
    ((action taken h ps b n).1.get (.action h ps b)).inst? = none := by
  simp only [action, Supply.bind_apply]
  split <;> rfl

theorem inst?_decl (toplevel : List String) (d : Decl) (n : Nat) :
    ((decl toplevel d n).1.get d).inst? = d.inst? := by
  cases d with
  | action h ps b => exact inst?_action toplevel h ps b n
  | control h tps ps cps ls b =>
    simp only [decl, Supply.bind_apply]
    split <;> rfl
  | _ => rfl

theorem forall₂_decls (toplevel : List String) (ds : List Decl) (n : Nat) :
    List.Forall₂ (fun d d' => d'.inst? = d.inst?) ds ((decls toplevel ds n).1.get ds) := by
  induction ds generalizing n with
  | nil => exact .nil
  | cons d ds ih =>
    simp only [decls, Supply.bind_apply, Supply.pure_apply, Edit.get_map₂]
    exact .cons (inst?_decl toplevel d n) (ih _)

end Hoist

theorem Program.insts_hoistVariables (p : Program) (n : Nat) :
    p.insts ⊆ ((p.hoistVariables n).1.get p).insts := by
  have hget : ((p.hoistVariables n).1.get p).decls
      = (Hoist.decls (p.decls.map (·.name)) p.decls n).1.get p.decls :=
    congrArg Program.decls (Edit.get_map Program.mk p.decls _)
  rw [Program.insts, Program.insts, hget]
  exact Decl.insts_forall₂ (Hoist.forall₂_decls _ p.decls n)

namespace Returns

theorem RemovedDecl.inst? (h : RemovedDecl used d d') :
    d'.inst? = d.inst? := by
  cases h with
  | kept | flagged => rfl
  | action _ h => cases h <;> rfl

end Returns

theorem Program.insts_removeReturns (p : Program) (n : Nat) :
    p.insts ⊆ ((p.removeReturns n).1.get p).insts := by
  have hget : ((p.removeReturns n).1.get p).decls
      = (Returns.decls p.decls (.ofProgram p) n).1.1.get p.decls :=
    congrArg Program.decls (Edit.get_map Program.mk p.decls _)
  have hdecls := Returns.removed_decls p.decls (List.Subset.refl (Names.ofProgram p).used) n
  rw [Program.insts, Program.insts, hget]
  exact Decl.insts_forall₂ (hdecls.imp fun _ _ => Returns.RemovedDecl.inst?)

theorem Supply.ok_of_bind {ε α β : Type} {x : ExceptT ε Supply α} {f : α → ExceptT ε Supply β}
    {n : Nat} {b : β} (h : ((x >>= f).run n).1 = .ok b) :
    ∃ a, (x.run n).1 = .ok a ∧ ((f a).run (x.run n).2).1 = .ok b := by
  rw [ExceptT.run_bind, Supply.bind_apply] at h
  rcases hrun : x.run n with ⟨e | a, n'⟩
  · rw [hrun] at h
    cases h
  · rw [hrun] at h
    exact ⟨a, rfl, h⟩

namespace Actions

def edits (sources : SourceMap) (wanted : Block → Bool) : Decl → Bool
  | .control h _ _ _ _ b => !sources.isLibrary h.span && wanted b
  | _ => false

variable {wanted : Block → Bool}

theorem forall₂_decls {w : Editor State} {sources : SourceMap}
    {R : Decl → Decl → Prop} (hkeep : ∀ d, edits sources wanted d = false → R d d)
    (hbody : ∀ h tps ps cps ls b, edits sources wanted (.control h tps ps cps ls b) = true →
      ∀ names n x names', ((body w h tps ps cps ls b names).run n).1 = .ok (x, names') →
        R (.control h tps ps cps ls b) (x.get (.control h tps ps cps ls b)))
    (ds : List Decl) (names : Names) (n : Nat) {x : Edit (List Decl)} {names' : Names}
    (hx : ((decls w sources wanted ds names).run n).1 = .ok (x, names')) :
    List.Forall₂ R ds (x.get ds) := by
  induction ds generalizing names n x names' with
  | nil =>
    cases hx
    exact .nil
  | cons d ds ih =>
    have hcons (y : StateT Names (ExceptT ClassificationError Supply) (Edit Decl))
        (hy : ∀ z names₁, ((y names).run n).1 = .ok (z, names₁) → R d (z.get d))
        (hrun : (((y >>= fun y => do
          return y.map₂ (· :: ·) d ds (← decls w sources wanted ds)) names).run n).1 =
            .ok (x, names')) :
        List.Forall₂ R (d :: ds) (x.get (d :: ds)) := by
      obtain ⟨⟨z, names₁⟩, hz, hrest⟩ := Supply.ok_of_bind hrun
      obtain ⟨⟨zs, names₂⟩, hzs, hend⟩ := Supply.ok_of_bind hrest
      cases hend
      rw [Edit.get_map₂]
      exact .cons (hy z names₁ hz) (ih names₁ _ hzs)
    have hstay (hd : edits sources wanted d = false) (z : Edit Decl) (names₁ : Names)
        (hz : (((pure .keep : StateT Names (ExceptT ClassificationError Supply) (Edit Decl))
          names).run n).1 = .ok (z, names₁)) : R d (z.get d) := by
      cases hz
      exact hkeep d hd
    cases d with
    | control h tps ps cps ls b =>
      rw [decls] at hx
      split at hx
      · rename_i hedit
        exact hcons _ (hbody h tps ps cps ls b hedit names n) hx
      · rename_i hedit
        exact hcons _ (hstay (Bool.not_eq_true _ ▸ hedit)) hx
    | _ => exact hcons _ (hstay rfl) hx

theorem inst?_body
    (hx : ((body w h tps ps cps ls b names).run n).1 = .ok (x, names')) :
    (x.get (.control h tps ps cps ls b)).inst? = none := by
  rw [run_body] at hx
  obtain ⟨⟨⟨y, _, added, error⟩, n'⟩, hr⟩ : ∃ r, w.block b ⟨names, [], none⟩ n = r := ⟨_, rfl⟩
  rw [hr] at hx
  cases error with
  | some e => cases hx
  | none =>
    cases hx
    cases added <;> rfl

theorem forall₂_program {w : Editor State} {sources : SourceMap}
    {R : Decl → Decl → Prop} (hkeep : ∀ d, edits sources wanted d = false → R d d)
    (hbody : ∀ h tps ps cps ls b, edits sources wanted (.control h tps ps cps ls b) = true →
      ∀ names n x names', ((body w h tps ps cps ls b names).run n).1 = .ok (x, names') →
        R (.control h tps ps cps ls b) (x.get (.control h tps ps cps ls b)))
    {p : Program} {n : Nat} {x : Edit Program}
    (hx : ((program w sources wanted p).run n).1 = .ok x) :
    List.Forall₂ R p.decls (x.get p).decls := by
  obtain ⟨⟨y, names⟩, hy, hend⟩ := Supply.ok_of_bind hx
  cases hend
  have hget : ((y.map Program.mk).get p).decls = y.get p.decls :=
    congrArg Program.decls (Edit.get_map Program.mk p.decls y)
  rw [hget]
  exact forall₂_decls hkeep hbody p.decls _ n hy

theorem insts_program (hx : ((program w sources wanted p).run n).1 = .ok x) :
    p.insts ⊆ (x.get p).insts :=
  Decl.insts_forall₂ (forall₂_program (R := fun d d' => d'.inst? = d.inst?) (fun _ _ => rfl)
    (fun _ _ _ _ _ _ _ _ _ _ _ => inst?_body) hx)

end Actions

/-! Inlining puts a caller with new parts into the place of the old one. -/

theorem Program.insts_replaceDecl {p : Program} (hids : (nodeIds p.visits).Nodup)
    (hd : p.declOf? d'.id = some d) (hframe : d'.frame = d.frame) (n : Nat) :
    p.insts ⊆ ((p.replaceDecl d' n).1.get p).insts := by
  refine Editor.insts_program (P := fun _ => True) (fun old hold st n _ => ⟨trivial, ?_⟩)
    () n trivial
  by_cases hid : old.id = d'.id
  · have hsame : old = d := by
      obtain ⟨hmem, hid'⟩ := enter_of_declOf? hd
      have hvisit := eq_of_nodup_filterMap hids (visits_subset_of_mem hold old.enter_mem_visits)
        hmem (congrArg some hid) (congrArg some hid')
      cases hvisit
      rfl
    have hswap : (replacer d').visitDecl Editor.stop false old st n = (([.put d'], st), n) := by
      rw [Editor.visitDecl_eq]
      simp [Editor.aroundDecl, replacer, hid]
    rw [hswap, map_singleton, Edit.get_put, hsame,
      Decl.insts_singleton_congr (Decl.inst?_congr hframe)]
    exact List.Subset.refl _
  · have henter : (replacer d').enterDecl old st n = ((.descend, st), n) := by
      simp [replacer, hid]
    obtain ⟨old', st', n', hparts, hget⟩ := Editor.map_get_visitDecl (k := Editor.stop) henter
    rw [hget, ← Decl.insts_singleton_congr (Decl.inst?_congr hparts)]
    exact List.Subset.refl _

theorem ActionInlining.insts_into {p : Program} (hids : (nodeIds p.visits).Nodup) (caller : NodeId)
    (sites : List InlineEdge) (ds : Diagnostics) (n : Nat) :
    p.insts ⊆ ((into caller sites p ds n).1.1.get p).insts := by
  rw [into]
  cases hd : p.declOf? caller with
  | none => exact List.Subset.refl _
  | some d =>
    obtain ⟨-, rfl⟩ := Program.enter_of_declOf? hd
    change p.insts ⊆ (((if (!p.check.errors.isEmpty) = true then _ else _ : Inlining (Edit Program))
      (ds.extend p.check.diagnostics) n).1.1.get p).insts
    split
    · exact List.Subset.refl _
    · obtain ⟨x, hx, hframe⟩ := frame_splicer p.check p sites d (.ofProgram p) n
      simp only [Supply.stateT_bind_apply, Supply.stateT_lift_apply, StateT.run, hx]
      cases x with
      | keep => exact List.Subset.refl _
      | put d' =>
        have hd' : p.declOf? d'.id = some d := by
          rw [← hd]
          exact congrArg (fun h : Head => p.declOf? h.id) (Decl.head_congr hframe)
        exact Program.insts_replaceDecl hids hd' hframe _

theorem ControlInlining.insts_into (style : InlineStyle) {p : Program}
    (hids : (nodeIds p.visits).Nodup) (caller : NodeId) (edges : List InlineEdge) (ds : Diagnostics)
    (n : Nat) : p.insts ⊆ ((into style caller edges p ds n).1.1.get p).insts := by
  rw [into]
  cases hd : p.declOf? caller with
  | none => exact List.Subset.refl _
  | some d =>
    cases d with
    | control h tps ps cps ls b =>
      obtain ⟨-, rfl⟩ := Program.enter_of_declOf? hd
      change p.insts ⊆ (((if (!p.check.errors.isEmpty) = true then _ else _ :
        Inlining (Edit Program))
        (ds.extend p.check.diagnostics) n).1.1.get p).insts
      split
      · exact List.Subset.refl _
      · obtain ⟨⟨⟨⟨ls', prepared⟩, names⟩, n'⟩, hr⟩ :
            ∃ r, locals style p.check p edges ls (.ofProgram p) n = r := ⟨_, rfl⟩
        simp only [Supply.stateT_bind_apply, Supply.stateT_lift_apply, StateT.run, hr]
        by_cases hempty : prepared.isEmpty = true
        · rw [if_pos hempty]
          exact List.Subset.refl _
        · rw [if_neg hempty]
          exact Program.insts_replaceDecl hids
            (show p.declOf? (Decl.control h tps ps cps ls' _).id = _ from hd) rfl _
    | _ => exact List.Subset.refl _

namespace Unique

variable {st : State}

theorem names_foldl
    (h : ((vs.foldl step st).changes.names.get? i).isSome) :
    (st.changes.names.get? i).isSome ∨ i ∈ nodeIds vs := by
  induction vs generalizing st with
  | nil => exact .inl h
  | cons v vs ih =>
    rcases ih h with hst | hvs
    · cases v with
      | enter d =>
        simp only [step, enter] at hst
        split at hst
        · exact .inl hst
        · split at hst
          · simp only [Renaming.rename, NodeMap.get?_insert] at hst
            split at hst
            · rename_i hid
              subst hid
              exact .inr (by simp [nodeIds, Visit.id?])
            · exact .inl hst
          · exact .inl hst
      | _ => exact .inl hst
    · refine .inr ?_
      rw [nodeIds, filterMap_cons]
      split
      · exact hvs
      · exact .tail _ hvs

def note (st : State) (d : Decl) : State :=
  if st.seen.contains d.name then
    { st with
      seen := st.names.pick d.name :: st.seen
      names := st.names.reserve (st.names.pick d.name)
      changes := st.changes.rename d.id (st.names.pick d.name) }
  else { st with seen := d.name :: st.seen }

theorem enter_inner (h : st.depth ≠ 0) (d : Decl) :
    enter st d = { note st d with depth := st.depth + 1 } := by
  rw [enter, if_neg h]
  rfl

theorem note_depth (st : State) (k : Nat) (d : Decl) :
    note { st with depth := k } d = { note st d with depth := k } := by
  unfold note
  split <;> rfl

theorem foldl_note_depth (st : State) (k : Nat) (ds : List Decl) :
    ds.foldl note { st with depth := k } = { ds.foldl note st with depth := k } := by
  induction ds generalizing st with
  | nil => rfl
  | cons d ds ih => rw [foldl_cons, note_depth, ih, foldl_cons]

/-- The walk comes back to the depth it started from, and below the toplevel it takes note of one
declaration after the other. -/
structure Level (vs : List Visit) : Prop where
  depth : ∀ st, (vs.foldl step st).depth = st.depth
  inner : ∀ st, st.depth ≠ 0 → vs.foldl step st = (vs.filterMap Visit.decl?).foldl note st

namespace Level

variable {vs ws : List Visit}

theorem nil : Level [] := ⟨fun _ => rfl, fun _ _ => rfl⟩

theorem append (hv : Level vs) (hw : Level ws) : Level (vs ++ ws) where
  depth st := by rw [foldl_append, hw.depth, hv.depth]
  inner st h := by
    rw [foldl_append, hw.inner _ (by rwa [hv.depth]), hv.inner st h, filterMap_append,
      foldl_append]

theorem cons (hv : Level vs) (hstep : ∀ st, step st v = st)
    (hd : v.decl? = none := by rfl) : Level (v :: vs) where
  depth st := by rw [foldl_cons, hstep, hv.depth]
  inner st h := by rw [foldl_cons, hstep, hv.inner st h, filterMap_cons, hd]

theorem around (d : Decl) (hv : Level vs) : Level (.enter d :: (vs ++ [.leave d])) where
  depth st := by
    have hinner : (vs.foldl step (enter st d)).depth = st.depth + 1 := hv.depth _
    rw [foldl_cons, foldl_append, foldl_cons, foldl_nil, step, step, hinner]
    rfl
  inner st h := by
    have hfilter : (Visit.enter d :: (vs ++ [.leave d])).filterMap Visit.decl? =
        d :: vs.filterMap Visit.decl? := by simp [Visit.decl?, filterMap_cons]
    rw [foldl_cons, foldl_append, step, enter_inner h,
      hv.inner _ (Nat.succ_ne_zero _), foldl_note_depth, hfilter]
    change { (vs.filterMap Visit.decl?).foldl note (note st d) with depth := st.depth + 1 - 1 } = _
    have hdepth := foldl_note_depth (note st d) st.depth (vs.filterMap Visit.decl?)
    have hnote : note st d = { note st d with depth := st.depth } := note_depth st st.depth d
    rw [Nat.add_sub_cancel, ← hdepth, ← hnote]
    rfl

theorem exprs (es : List Expr) : Level (es.map .expr) := by
  induction es with
  | nil => exact nil
  | cons e es ih => exact ih.cons fun _ => rfl

theorem expr? (e : Option Expr) : Level (Expr.visits? e) := by
  cases e with
  | none => exact nil
  | some e => exact exprs e.walk

theorem keys (ks : List Key) : Level (ks.flatMap Key.visits) := by
  induction ks with
  | nil => exact nil
  | cons k ks ih => exact ((exprs k.expr.walk).cons fun _ => rfl).append ih

end Level

mutual
theorem level_stmt : (s : Stmt) → Level s.visits
  | .block _ b => (level_block b).cons fun _ => rfl
  | .assign _ l r => ((Level.exprs l.walk).append (Level.exprs r.walk)).cons fun _ => rfl
  | .call _ e => (Level.exprs e.walk).cons fun _ => rfl
  | .ifThen _ c a none => ((Level.exprs c.walk).append (level_stmt a)).cons fun _ => rfl
  | .ifThen _ c a (some b) =>
    (((Level.exprs c.walk).append (level_stmt a)).append (level_stmt b)).cons fun _ => rfl
  | .switch _ e cs => ((Level.exprs e.walk).append (level_cases cs)).cons fun _ => rfl
  | .decl _ d => (level_decl d).cons fun _ => rfl
  | .ret _ e => (Level.expr? e).cons fun _ => rfl
  | .exit _ | .empty _ => Level.nil.cons fun _ => rfl
theorem level_block : (b : Block) → Level b.visits
  | .mk _ ss => (level_stmts ss).cons fun _ => rfl
theorem level_stmts : (ss : List Stmt) → Level (Stmt.allVisits ss)
  | [] => Level.nil
  | s :: ss => (level_stmt s).append (level_stmts ss)
theorem level_cases : (cs : List Case) → Level (Case.visits cs)
  | [] => Level.nil
  | .run _ b :: cs => (level_block b).append (level_cases cs)
  | .fallThrough _ :: cs => level_cases cs
theorem level_decl : (d : Decl) → Level d.visits
  | .action _ _ b => (level_block b).around _
  | .table _ ks _ d =>
    (((Level.keys ks).append (Level.exprs _)).append (Level.expr? d)).around _
  | .control _ _ _ _ ls b => ((level_decls ls).append (level_block b)).around _
  | .inst .. => (Level.exprs _).around _
  | .var _ _ e => (Level.expr? e).around _
  | .const _ _ e => (Level.exprs e.walk).around _
  | .header .. | .struct .. | .externType .. | .externFn .. | .package .. => Level.nil.around _
theorem level_decls : (ds : List Decl) → Level (Decl.allVisits ds)
  | [] => Level.nil
  | d :: ds => (level_decl d).append (level_decls ds)
end

theorem level_inside (d : Decl) : ∃ vs, d.visits = .enter d :: (vs ++ [.leave d]) ∧ Level vs := by
  cases d with
  | action h ps b => exact ⟨_, rfl, level_block b⟩
  | table h ks as d =>
    exact ⟨_, rfl, ((Level.keys ks).append (Level.exprs _)).append (Level.expr? d)⟩
  | control h tps ps cps ls b => exact ⟨_, rfl, (level_decls ls).append (level_block b)⟩
  | inst h t as => exact ⟨_, rfl, Level.exprs _⟩
  | var h t e => exact ⟨_, rfl, Level.expr? e⟩
  | const h t e => exact ⟨_, rfl, Level.exprs e.walk⟩
  | _ => exact ⟨[], rfl, Level.nil⟩

theorem names_toplevel (hst : st.depth = 0)
    (h : (((Decl.allVisits ds).foldl step st).changes.names.get? i).isSome) :
    (st.changes.names.get? i).isSome ∨ ∃ d ∈ ds, i ∈ nodeIds d.visits.tail := by
  induction ds generalizing st with
  | nil => exact .inl h
  | cons d ds ih =>
    rw [Decl.allVisits, foldl_append] at h
    rcases ih (((level_decl d).depth st).trans hst) h with hin | ⟨d', hd', hi⟩
    · have hvisits : d.visits = .enter d :: d.visits.tail := by cases d <;> rfl
      have hsame : (step st (.enter d)).changes = st.changes := by simp [step, enter, hst]
      rw [hvisits, foldl_cons] at hin
      rcases names_foldl hin with hin | hin
      · exact .inl (hsame ▸ hin)
      · exact .inr ⟨d, .head _, hin⟩
    · exact .inr ⟨d', .tail _ hd', hi⟩

theorem id_not_mem_tail (h : (nodeIds (Decl.allVisits ds)).Nodup)
    (hd : d ∈ ds) (hd' : d' ∈ ds) : d.id ∉ nodeIds d'.visits.tail := by
  have hmem (ds : List Decl) (d : Decl) (hd : d ∈ ds) : d.id ∈ nodeIds (Decl.allVisits ds) :=
    mem_filterMap.2 ⟨.enter d, Program.visits_subset_of_mem (p := ⟨ds⟩) hd d.enter_mem_visits, rfl⟩
  have hsub (ds : List Decl) (d : Decl) (hd : d ∈ ds) :
      nodeIds d.visits.tail ⊆ nodeIds (Decl.allVisits ds) := fun i hi =>
    nodeIds_subset (Program.visits_subset_of_mem (p := ⟨ds⟩) hd)
      (nodeIds_subset (tail_subset _) hi)
  induction ds with
  | nil => cases hd
  | cons e ds ih =>
    have hvisits : e.visits = .enter e :: e.visits.tail := by cases e <;> rfl
    have hids : nodeIds e.visits = e.id :: nodeIds e.visits.tail := by
      rw [hvisits]
      rfl
    rw [Decl.allVisits, nodeIds_append, hids] at h
    obtain ⟨hhead, hrest, hdisjoint⟩ := List.nodup_append.1 h
    rcases mem_cons.1 hd with rfl | hin <;> rcases mem_cons.1 hd' with rfl | hin'
    · exact (nodup_cons.1 hhead).1
    · exact fun hi => hdisjoint _ (.head _) _ (hsub ds d' hin' hi) rfl
    · exact fun hi => hdisjoint _ (.tail _ hi) _ (hmem ds d hin) rfl
    · exact ih hrest hin hin'

theorem get?_toplevel (hids : (nodeIds p.visits).Nodup) (hd : d ∈ p.decls) :
    (changes p).names.get? d.id = none := by
  by_contra hne
  have hsome := Option.isSome_iff_ne_none.2 hne
  rcases names_toplevel rfl hsome with h | ⟨d', hd', hmem⟩
  · cases h
  · exact id_not_mem_tail hids hd hd' hmem

end Unique

theorem Program.insts_uniqueNames {p : Program} (hids : (nodeIds p.visits).Nodup) (refs : Refs)
    (types : Types) (n : Nat) : p.insts ⊆ ((p.uniqueNames refs types n).1.get p).insts := by
  unfold Program.uniqueNames
  split
  · exact List.Subset.refl _
  · refine ((Unique.changes p).editor refs types).insts_of_hooks (fun _ _ _ => rfl)
      (fun d hd d' st n hhead => ?_) () n
    have hd' : (Unique.changes p).names.get? d'.id = none := by
      rw [Decl.id, hhead]
      exact Unique.get?_toplevel hids hd
    simp only [Renaming.editor, hd']
    exact List.Subset.refl _

end MatchAction
