import MatchAction.Proofs.Classification
import MatchAction.Proofs.Equality
import MatchAction.Proofs.Pruning

namespace MatchAction

open List

theorem Edit.keep_map₂ {α β γ : Type} (f : α → β → γ) (a : α) (b : β) (y : Edit β) :
    map₂ f a b .keep y = y.map (f a) := by
  cases y <;> rfl

namespace Unused

variable {α β γ : Type} (refs : Refs) (sources : SourceMap)

def Goes (d : Decl) : Prop := stays refs sources false d = false

variable {refs sources}

variable {toplevel : Bool} {d : Decl}

theorem goes_of_not_stays (h : stays refs sources toplevel d = false) :
    Goes refs sources d := by
  cases d with
  | inst hd ty as =>
    rw [Goes, stays, Bool.or_false]
    exact (Bool.or_eq_false_iff.1 h).1
  | _ => exact h

theorem stays_of_pruned (h : PrunedDecl lost d d') (toplevel : Bool) :
    stays refs sources toplevel d' = stays refs sources toplevel d := by
  cases h <;> rfl

/-! What an edit leaves of a node. -/

/-- Declarations are missing if the edit changes something; it does not exactly if `Q` holds. -/
structure Trims (R : α → α → Prop) (decls : α → List Decl) (Q : α → Prop) (a : α) (x : Edit α) :
    Prop where
  pruned : R a (x.get a)
  fewer : x = .keep ∨ (decls (x.get a)).length < (decls a).length
  whole : x = .keep ↔ Q a

namespace Trims

variable {R : α → α → Prop} {decls : α → List Decl} {Q : α → Prop} {a : α} {x : Edit α}
  {R' : β → β → Prop} {decls' : β → List Decl} {Q' : β → Prop} {b : β} {y : Edit β}

theorem keep (hr : R a a) (hq : Q a) : Trims R decls Q a .keep := ⟨hr, .inl rfl, iff_of_true rfl hq⟩

theorem length_le (h : Trims R decls Q a x) : (decls (x.get a)).length ≤ (decls a).length := by
  rcases h.fewer with rfl | hlt
  · exact Nat.le_refl _
  · exact Nat.le_of_lt hlt

theorem map (h : Trims R decls Q a x) (hr : ∀ b, R a b → R' (f a) (f b))
    (hd : ∀ a, decls' (f a) = decls a) (hq : Q' (f a) ↔ Q a) :
      Trims R' decls' Q' (f a) (x.map f) := by
  cases x with
  | keep => exact .keep (hr a h.pruned) (hq.2 (h.whole.1 rfl))
  | put a' =>
    refine ⟨hr a' h.pruned, .inr ?_, iff_of_false (by rintro ⟨⟩) fun hb => ?_⟩
    · rw [Edit.map, Edit.get_put, hd, hd]
      exact h.fewer.resolve_left (by rintro ⟨⟩)
    · cases h.whole.2 (hq.1 hb)

theorem map₂
    (h : Trims R decls Q a x) (h' : Trims R' decls' Q' b y)
    (hr : ∀ a' b', R a a' → R' b b' → R'' (f a b) (f a' b'))
    (hd : ∀ a b, decls'' (f a b) = decls a ++ decls' b)
    (hq : Q'' (f a b) ↔ Q a ∧ Q' b) : Trims R'' decls'' Q'' (f a b) (Edit.map₂ f a b x y) := by
  refine ⟨?_, ?_, ?_⟩
  · rw [Edit.get_map₂]
    exact hr _ _ h.pruned h'.pruned
  · rw [Edit.get_map₂, hd, hd, length_append, length_append]
    have hle := h.length_le
    have hle' := h'.length_le
    rcases h.fewer with rfl | hlt
    · rcases h'.fewer with rfl | hlt'
      · exact .inl rfl
      · exact .inr (Nat.add_lt_add_of_le_of_lt hle hlt')
    · exact .inr (Nat.add_lt_add_of_lt_of_le hlt hle')
  · rw [hq, ← h.whole, ← h'.whole]
    cases x <;> cases y <;> simp [Edit.map₂]

end Trims

section

variable (refs sources)

def Whole (vs : List Visit) : Prop := ∀ d ∈ declsOf vs, ¬ Goes refs sources d

abbrev TrimsStmt : Stmt → Edit Stmt → Prop :=
  Trims (PrunedStmt (Goes refs sources)) (fun s => declsOf s.visits) fun s =>
    Whole refs sources s.visits

abbrev TrimsBlock : Block → Edit Block → Prop :=
  Trims (PrunedBlock (Goes refs sources)) (fun b => declsOf b.visits) fun b =>
    Whole refs sources b.visits

abbrev TrimsStmts : List Stmt → Edit (List Stmt) → Prop :=
  Trims (PrunedStmts (Goes refs sources)) (fun ss => declsOf (Stmt.allVisits ss)) fun ss =>
    Whole refs sources (Stmt.allVisits ss)

abbrev TrimsCases : List Case → Edit (List Case) → Prop :=
  Trims (PrunedCases (Goes refs sources)) (fun cs => declsOf (Case.visits cs)) fun cs =>
    Whole refs sources (Case.visits cs)

abbrev TrimsDecl : Decl → Edit Decl → Prop :=
  Trims (PrunedDecl (Goes refs sources)) (fun d => declsOf d.visits.tail) fun d =>
    Whole refs sources d.visits.tail

def Stay (toplevel : Bool) (ds : List Decl) : Prop :=
  ∀ d ∈ ds, stays refs sources toplevel d = true ∧ Whole refs sources d.visits.tail

abbrev TrimsDecls (toplevel : Bool) : List Decl → Edit (List Decl) → Prop :=
  Trims (PrunedDecls (Goes refs sources)) (fun ds => declsOf (Decl.allVisits ds))
    (Stay refs sources toplevel)

end

inductive OutStmt (refs : Refs) (sources : SourceMap) : Stmt → Splice Stmt → Prop
  | one {s : Stmt} {x : Edit Stmt} (h : TrimsStmt refs sources s x) : OutStmt refs sources s [x]
  | gone {t : Tag} {d : Decl} (h : Goes refs sources d) : OutStmt refs sources (.decl t d) []

inductive OutDecl (refs : Refs) (sources : SourceMap) (toplevel : Bool) (d : Decl) :
    Splice Decl → Prop
  | one {x : Edit Decl} (here : stays refs sources toplevel d = true)
    (h : TrimsDecl refs sources d x) : OutDecl refs sources toplevel d [x]
  | gone (here : stays refs sources toplevel d = false) : OutDecl refs sources toplevel d []

theorem declsOf_decl (d : Decl) : declsOf d.visits = d :: declsOf d.visits.tail := by
  conv_lhs => rw [d.visits_eq_cons]
  rfl

theorem declsOf_keys (ks : List Key) : declsOf (ks.flatMap Key.visits) = [] := by
  induction ks with
  | nil => rfl
  | cons k ks ih =>
    rw [flatMap_cons, declsOf_append, ih, append_nil]
    exact k.expr.decls_visits

theorem whole_append :
    Whole refs sources (vs ++ ws) ↔ Whole refs sources vs ∧ Whole refs sources ws := by
  rw [Whole, declsOf_append]
  exact forall_mem_append

theorem whole_decl :
    Whole refs sources d.visits ↔ stays refs sources false d = true ∧
      Whole refs sources d.visits.tail := by
  rw [Whole, declsOf_decl, forall_mem_cons, Goes, Bool.not_eq_false]
  rfl

theorem whole_of_declsOf_eq (h : declsOf vs = declsOf ws) :
    Whole refs sources vs ↔ Whole refs sources ws := by
  rw [Whole, h]
  rfl

theorem whole_decls :
    Whole refs sources (Decl.allVisits ds) ↔ Stay refs sources false ds := by
  induction ds with
  | nil => exact iff_of_true nofun nofun
  | cons d ds ih =>
    rw [Decl.allVisits, whole_append, whole_decl, ih]
    exact (forall_mem_cons (p := fun d => stays refs sources false d = true ∧
      Whole refs sources d.visits.tail)).symm

variable {s : Stmt}

theorem OutStmt.cons
    (h : OutStmt refs sources s xs) (h' : TrimsStmts refs sources ss y) :
    TrimsStmts refs sources (s :: ss) ((xs.toEdit s).map₂ (· ++ ·) [s] ss y) := by
  have hd (s : Stmt) (ss : List Stmt) : declsOf (Stmt.allVisits (s :: ss)) =
      declsOf s.visits ++ declsOf (Stmt.allVisits ss) := declsOf_append _ _
  cases h with
  | @one s x h =>
    have hboth : TrimsStmts refs sources (s :: ss) (Edit.map₂ List.cons s ss x y) :=
      h.map₂ h' (fun _ _ => .cons) hd whole_append
    cases x with
    | keep =>
      rw [Edit.keep_map₂] at hboth
      rw [Splice.toEdit, Edit.keep_map₂]
      exact hboth
    | put s' => exact hboth
  | @gone t d h =>
    refine ⟨.gone h h'.pruned, .inr ?_, iff_of_false (by rintro ⟨⟩) fun hw => hw d ?_ h⟩
    swap
    · exact mem_declsOf.2 (mem_append_left _ (.tail _ d.enter_mem_visits))
    change (declsOf (Stmt.allVisits (y.get ss))).length <
      (declsOf (Stmt.allVisits (.decl t d :: ss))).length
    have hle := h'.length_le
    rw [hd, Stmt.visits, declsOf_stmt, declsOf_decl, length_append, length_cons]
    omega

theorem trims_self (here : stays refs sources toplevel d = true)
    (h : TrimsDecl refs sources d x) : Trims (PrunedDecl (Goes refs sources))
      (fun d => declsOf d.visits)
      (fun d => stays refs sources toplevel d = true ∧ Whole refs sources d.visits.tail) d x := by
  refine ⟨h.pruned, h.fewer.imp_right fun hlt => ?_, h.whole.trans (and_iff_right here).symm⟩
  rw [declsOf_decl, declsOf_decl]
  exact Nat.succ_lt_succ hlt

theorem OutDecl.cons
    (h : OutDecl refs sources toplevel d xs) (h' : TrimsDecls refs sources toplevel ds y) :
    TrimsDecls refs sources toplevel (d :: ds) ((xs.toEdit d).map₂ (· ++ ·) [d] ds y) := by
  have hd (d : Decl) (ds : List Decl) : declsOf (Decl.allVisits (d :: ds)) =
      declsOf d.visits ++ declsOf (Decl.allVisits ds) := declsOf_append _ _
  cases h with
  | @one x here h =>
    have hboth : TrimsDecls refs sources toplevel (d :: ds) (Edit.map₂ List.cons d ds x y) :=
      (trims_self here h).map₂ h' (fun _ _ => .cons) hd forall_mem_cons
    cases x with
    | keep =>
      rw [Edit.keep_map₂] at hboth
      rw [Splice.toEdit, Edit.keep_map₂]
      exact hboth
    | put d' => exact hboth
  | gone here =>
    refine ⟨.gone (goes_of_not_stays here) h'.pruned, .inr ?_, iff_of_false (by rintro ⟨⟩)
      fun hw => ?_⟩
    swap
    · rw [(hw d (.head _)).1] at here
      cases here
    change (declsOf (Decl.allVisits (y.get ds))).length <
      (declsOf (Decl.allVisits (d :: ds))).length
    have hle := h'.length_le
    rw [hd, declsOf_decl, length_append, length_cons]
    omega

/-! What the editor makes of a node. -/

def Yields (st : Nat) (x : Editing Nat α) (Q : α → Prop) : Prop := ∀ n, Q (x st n).1.1

namespace Yields

variable {st : Nat} {x : Editing Nat α} {f : α → Editing Nat β} {P : α → Prop} {Q : β → Prop}

theorem pure (h : P a) : Yields st (Pure.pure a) P := fun _ => h

theorem bind (hs : Steady x) (hx : Yields st x P) (hf : ∀ a, P a → Yields st (f a) Q) :
    Yields st (x >>= f) Q := by
  intro n
  rw [Supply.stateT_bind_apply, hs]
  exact hf _ (hx n) _

theorem andReturn {g : α → β} (hx : Yields st x P) (h : ∀ a, P a → Q (g a)) :
    Yields st (x >>= fun a => Pure.pure (g a)) Q := fun n => h _ (hx n)

end Yields

theorem OutStmt.single (h : OutStmt refs sources s xs) :
    Yields st (Editor.single xs s) (TrimsStmt refs sources s) := by
  cases h with
  | one h => exact .pure h
  | @gone t d h =>
    refine fun n => ⟨.gone h t _, .inr ?_, iff_of_false nofun fun hw => hw d (mem_declsOf.2 ?_) h⟩
    swap
    · exact .tail _ d.enter_mem_visits
    change 0 < (declsOf (Stmt.decl t d).visits).length
    rw [Stmt.visits, declsOf_stmt, declsOf_decl]
    exact Nat.succ_pos _

theorem yields_around
    (hx : Yields st x P) : Yields st ((editor refs sources).aroundStmt Editor.stop false s x)
      P := by
  have hleave (xs : Splice Stmt) : Editor.leaveEach (editor refs sources).leaveStmt s xs =
      pure xs := by
    induction xs with
    | nil => rfl
    | cons x xs ih =>
      rw [Editor.leaveEach, ih]
      simp [editor]
  rw [Editor.aroundStmt_descend rfl, funext hleave, bind_pure]
  exact hx

theorem yields_declared (h : OutDecl refs sources false d xs) :
    Yields st (Editor.declared t d xs) (OutStmt refs sources (.decl t d)) := by
  cases h with
  | @one x here h =>
    have hone : TrimsStmt refs sources (.decl t d) (x.map (.decl t)) :=
      (trims_self here h).map (fun _ => .decl) (fun _ => rfl) whole_decl
    cases x with
    | keep => exact .pure (.one hone)
    | put d' => exact .pure (.one hone)
  | gone here => exact .pure (.gone here)

theorem yields_aroundDecl (hs : Steady x)
    (hx : Yields (st + 1) x (TrimsDecl refs sources d)) :
    Yields st ((editor refs sources).aroundDecl Editor.stop false d x)
      (OutDecl refs sources (st == 0) d) := by
  intro n
  have henter : (editor refs sources).enterDecl d st n = ((.descend, st + 1), n) := rfl
  have htrims := hx n
  rw [Editor.aroundDecl_apply henter, Supply.stateT_bind_apply, Editor.leaveEach_singleton,
    Supply.stateT_map_apply, hs]
  generalize (x (st + 1) n).1.1 = y at htrims ⊢
  have hstays : stays refs sources (st == 0) (y.get d) = stays refs sources (st == 0) d :=
    stays_of_pruned htrims.pruned _
  have hleave (m : Nat) : ((editor refs sources).leaveDecl (y.get d) (st + 1) m).1.1 =
      if stays refs sources (st == 0) (y.get d) then [.keep] else [] := by
    change ((if stays refs sources (st == 0) (y.get d) then pure [.keep] else pure [] :
      Editing Nat (Splice Decl)) st m).1.1 = _
    split <;> rfl
  rw [hleave, hstays]
  split
  · rename_i here
    rw [map_singleton, Edit.andThen_keep]
    exact .one here htrims
  · rename_i here
    exact .gone (Bool.eq_false_iff.2 here)

theorem trims_leaf (h : PrunedStmt (Goes refs sources) s s) (hd : declsOf s.visits = []) :
    OutStmt refs sources s [.keep] :=
  .one (.keep h fun d hmem => by simp [hd] at hmem)

theorem trims_bodiless (hb : d.body? = none) (hd : declsOf d.visits.tail = []) :
    TrimsDecl refs sources d .keep :=
  .keep (.bodiless hb) fun e hmem => by simp [hd] at hmem

variable (refs sources) in
mutual
theorem yields_stmt : (s : Stmt) →
    ∀ st, Yields (st + 1) ((editor refs sources).visitStmt Editor.stop false s)
    (OutStmt refs sources s)
  | .block t b, st => yields_around ((yields_block b st).andReturn fun x hx =>
      .one (hx.map (fun _ => .block) (fun _ => rfl) Iff.rfl))
  | .assign t l r, st => yields_around (by
      simp only [(plain_editor refs sources).visitExpr, pure_bind]
      exact .pure (trims_leaf (.assign t l r) (by simp [Stmt.visits])))
  | .call t e, st => yields_around (by
      simp only [(plain_editor refs sources).visitExpr, pure_bind]
      exact .pure (trims_leaf (.call t e) (by simp [Stmt.visits])))
  | .ifThen t c a none, st => yields_around (by
      have hd (a : Stmt) : declsOf (Stmt.ifThen t c a none).visits = declsOf a.visits := by
        simp [Stmt.visits]
      simp only [(plain_editor refs sources).visitExpr, pure_bind, Edit.keep_map₂]
      refine (yields_stmt a st).bind (steady_stmt refs sources a) fun xs hxs => hxs.single.andReturn
        fun y hy => .one ?_
      exact Trims.map (f := fun a => Stmt.ifThen t c a none) hy (fun _ => .ifThen) hd
        (whole_of_declsOf_eq (hd a)))
  | .ifThen t c a (some b), st => yields_around (by
      have hd (ab : Stmt × Stmt) : declsOf (Stmt.ifThen t c ab.1 (some ab.2)).visits =
          declsOf ab.1.visits ++ declsOf ab.2.visits := by
        simp [Stmt.visits]
      simp only [(plain_editor refs sources).visitExpr, pure_bind, Edit.keep_map₂]
      refine (yields_stmt a st).bind (steady_stmt refs sources a) fun xs hxs =>
        hxs.single.bind (steady_single xs a) fun y hy => (yields_stmt b st).bind
          (steady_stmt refs sources b) fun zs hzs => hzs.single.andReturn fun z hz => .one ?_
      have hpair : Trims (fun p p' => PrunedStmt (Goes refs sources) p.1 p'.1 ∧
        PrunedStmt (Goes refs sources) p.2 p'.2) (fun p => declsOf p.1.visits ++ declsOf p.2.visits)
          (fun p => Whole refs sources p.1.visits ∧ Whole refs sources p.2.visits) (a, b)
            (y.map₂ Prod.mk a b z) :=
        hy.map₂ hz (fun _ _ => .intro) (fun _ _ => rfl) Iff.rfl
      have hwhole : Whole refs sources (Stmt.ifThen t c a (some b)).visits ↔
          Whole refs sources a.visits ∧ Whole refs sources b.visits := by
        rw [← whole_append]
        exact whole_of_declsOf_eq ((hd (a, b)).trans (declsOf_append _ _).symm)
      have hone : TrimsStmt refs sources (.ifThen t c a (some b))
          ((y.map₂ Prod.mk a b z).map fun ab => .ifThen t c ab.1 (some ab.2)) :=
        hpair.map (f := fun ab => Stmt.ifThen t c ab.1 (some ab.2)) (fun _ hr => .ifElse hr.1 hr.2)
          hd hwhole
      exact hone)
  | .switch t e cs, st => yields_around (by
      have hd (cs : List Case) : declsOf (Stmt.switch t e cs).visits =
          declsOf (Case.visits cs) := by
        simp [Stmt.visits]
      simp only [(plain_editor refs sources).visitExpr, pure_bind, Edit.keep_map₂]
      refine (yields_cases cs st).andReturn fun y hy => .one ?_
      exact Trims.map (f := fun cs => Stmt.switch t e cs) hy (fun _ => .switch) hd
        (whole_of_declsOf_eq (hd cs)))
  | .decl t d, st =>
    yields_around ((yields_decl d (st + 1)).bind (steady_decl refs sources d) fun _ hxs =>
      yields_declared hxs)
  | .ret t e, st => yields_around (by
      simp only [(plain_editor refs sources).visitExpr?, pure_bind]
      exact .pure (trims_leaf (.ret t e) (by simp [Stmt.visits])))
  | .exit t, st => yields_around (.pure (trims_leaf (.exit t) rfl))
  | .empty t, st => yields_around (.pure (trims_leaf (.empty t) rfl))
theorem yields_block : (b : Block) →
    ∀ st, Yields (st + 1) ((editor refs sources).visitBlock Editor.stop b)
    (TrimsBlock refs sources b)
  | .mk i ss, st => by
    have hleave (b : Block) : (editor refs sources).leaveBlock b = pure .keep := rfl
    simp only [Editor.visitBlock, hleave, pure_bind, Edit.andThen_keep]
    exact (yields_stmts ss st).andReturn fun x hx => hx.map (fun _ => .mk) (fun _ => rfl) Iff.rfl
theorem yields_stmts : (ss : List Stmt) →
    ∀ st, Yields (st + 1) ((editor refs sources).visitStmts Editor.stop ss)
    (TrimsStmts refs sources ss)
  | [], _ => .pure (.keep .nil fun _ h => absurd h not_mem_nil)
  | s :: ss, st => (yields_stmt s st).bind (steady_stmt refs sources s) fun _ hxs =>
      (yields_stmts ss st).andReturn fun _ hy => hxs.cons hy
theorem yields_cases : (cs : List Case) →
    ∀ st, Yields (st + 1) ((editor refs sources).visitCases Editor.stop cs)
    (TrimsCases refs sources cs)
  | [], _ => .pure (.keep .nil fun _ h => absurd h not_mem_nil)
  | .run l b :: cs, st => by
    have hd (b : Block) (cs : List Case) : declsOf (Case.visits (.run l b :: cs)) =
        declsOf b.visits ++ declsOf (Case.visits cs) := declsOf_append _ _
    refine (yields_block b st).bind (steady_block refs sources b) fun x hx =>
      (yields_cases cs st).andReturn fun y hy => ?_
    have hboth : TrimsCases refs sources (.run l b :: cs) (Edit.map₂ (fun b cs => .run l b :: cs)
        b cs x y) :=
      hx.map₂ (f := fun b cs => Case.run l b :: cs) hy (fun _ _ => .run) hd whole_append
    cases x <;> cases y <;> exact hboth
  | .fallThrough l :: cs, st => (yields_cases cs st).andReturn fun _ hy =>
      hy.map (fun _ => .fallThrough) (fun _ => rfl) Iff.rfl
theorem yields_decl : (d : Decl) →
    ∀ st, Yields st ((editor refs sources).visitDecl Editor.stop false d)
    (OutDecl refs sources (st == 0) d)
  | .header .., st | .struct .., st | .externType .., st | .externFn .., st | .package .., st =>
    yields_aroundDecl (.pure _) (.pure (trims_bodiless rfl rfl))
  | .action h ps b, st => by
    have hd (b : Block) : declsOf (Decl.action h ps b).visits.tail = declsOf b.visits := by
      simp [Decl.visits]
    refine yields_aroundDecl ((steady_block refs sources b).bind fun _ => .pure _)
      ((yields_block b st).andReturn fun x hx => ?_)
    exact Trims.map (f := fun b => Decl.action h ps b) hx (fun _ => .action) hd
      (whole_of_declsOf_eq (hd b))
  | .control h tps ps cps ls b, st => by
    have hd (ls : List Decl) (b : Block) : declsOf (Decl.control h tps ps cps ls b).visits.tail =
        declsOf (Decl.allVisits ls) ++ declsOf b.visits := by
      simp [Decl.visits]
    refine yields_aroundDecl ((steady_decls refs sources ls).bind fun _ =>
      (steady_block refs sources b).bind
      fun _ => .pure _) ((yields_decls ls (st + 1)).bind (steady_decls refs sources ls) fun x hx =>
        (yields_block b st).andReturn fun y hy => ?_)
    refine hx.map₂ hy (fun _ _ => .control) hd ?_
    refine (whole_of_declsOf_eq ((hd ls b).trans (declsOf_append _ _).symm)).trans
      (whole_append.trans ?_)
    exact and_congr_left fun _ => whole_decls
  | .table h ks as d, st => by
    have hkeys (key : Key) : (editor refs sources).leaveKey key = pure key.kept := rfl
    simp only [Editor.visitDecl, (plain_editor refs sources).visitKeys hkeys,
      (plain_editor refs sources).visitExprs, (plain_editor refs sources).visitExpr?, pure_bind]
    exact yields_aroundDecl (.pure _)
      (.pure (trims_bodiless rfl (by simp [Decl.visits, declsOf_keys])))
  | .inst h ty as, st => by
    simp only [Editor.visitDecl, (plain_editor refs sources).visitExprs, pure_bind]
    exact yields_aroundDecl (.pure _) (.pure (trims_bodiless rfl (by simp [Decl.visits])))
  | .var h ty e, st => by
    simp only [Editor.visitDecl, (plain_editor refs sources).visitExpr?, pure_bind]
    exact yields_aroundDecl (.pure _) (.pure (trims_bodiless rfl (by simp [Decl.visits])))
  | .const h ty e, st => by
    simp only [Editor.visitDecl, (plain_editor refs sources).visitExpr, pure_bind]
    exact yields_aroundDecl (.pure _) (.pure (trims_bodiless rfl (by simp [Decl.visits])))
theorem yields_decls : (ds : List Decl) →
    ∀ st, Yields st ((editor refs sources).visitDecls Editor.stop ds)
    (TrimsDecls refs sources (st == 0) ds)
  | [], _ => .pure (.keep .nil fun _ h => absurd h not_mem_nil)
  | d :: ds, st => (yields_decl d st).bind (steady_decl refs sources d) fun _ hxs =>
      (yields_decls ds st).andReturn fun _ hy => hxs.cons hy
end

/-! Rounds. -/

variable (sources)

theorem trims_round (p : Program) (n : Nat) :
    Trims (fun p' q => PrunedDecls (Goes p.check.refs sources) p'.decls q.decls)
    Program.allDecls (fun p' => Stay p.check.refs sources true p'.decls) p
      (round sources p n).1 := by
  have h : TrimsDecls p.check.refs sources true p.decls
      ((editor p.check.refs sources).visitDecls Editor.stop p.decls 0 n).1.1 :=
        yields_decls _ _ _ 0 n
  exact h.map (f := Program.mk) (fun _ hr => hr) (fun _ => rfl) Iff.rfl

theorem rounds_of_keep (h : (round sources p n).1 = .keep) (fuel : Nat) :
    (rounds sources fuel p n).1 = .keep := by
  cases fuel with
  | zero => rfl
  | succ fuel =>
    rw [rounds, Supply.bind_apply, h]
    rfl

theorem rounds_of_put (h : (round sources p n).1 = .put p') (fuel : Nat) :
    (rounds sources (fuel + 1) p n).1 =
      .put ((rounds sources fuel p' (round sources p n).2).1.get p') := by
  rw [rounds, Supply.bind_apply, h]
  rfl

theorem rounds_induct {P : Program → Nat → Prop} {fuel : Nat} {p : Program} {n : Nat}
    (hstep : ∀ p n, P p n → P ((round sources p n).1.get p) (round sources p n).2) (h : P p n) :
    ∃ m, P ((rounds sources fuel p n).1.get p) m := by
  induction fuel generalizing p n with
  | zero => exact ⟨n, h⟩
  | succ fuel ih =>
    cases hr : (round sources p n).1 with
    | keep =>
      rw [rounds_of_keep sources hr]
      exact ⟨n, h⟩
    | put p' =>
      rw [rounds_of_put sources hr]
      have hnext := hstep p n h
      rw [hr] at hnext
      exact ih hnext

theorem stay_rounds (h : p.allDecls.length < fuel) :
    Stay ((rounds sources fuel p n).1.get p).check.refs sources true
      ((rounds sources fuel p n).1.get p).decls := by
  induction fuel generalizing p n with
  | zero => exact absurd h (Nat.not_lt_zero _)
  | succ fuel ih =>
    have htrims := trims_round sources p n
    cases hr : (round sources p n).1 with
    | keep =>
      rw [rounds_of_keep sources hr]
      exact htrims.whole.1 hr
    | put p' =>
      rw [hr] at htrims
      rw [rounds_of_put sources hr]
      have hlt : p'.allDecls.length < p.allDecls.length := htrims.fewer.resolve_left nofun
      exact ih (by omega)

def isLasting (d : Decl) : Bool :=
  sources.isLibrary d.span ||
    match d with
    | .header .. | .struct .. | .externType .. | .externFn .. | .package .. => true
    | _ => false

variable {sources}

theorem not_lasting_of_goes (h : Goes refs sources d) : isLasting sources d = false := by
  obtain ⟨h₁, h₂⟩ := Bool.or_eq_false_iff.1 h
  unfold isLasting
  rw [(Bool.or_eq_false_iff.1 h₁).2, Bool.false_or]
  cases d <;> first | rfl | cases h₂

def isRemovable (toplevel : Bool) : Decl → Bool
  | .action .. | .table .. | .control .. | .const .. => true
  | .inst .. => !toplevel
  | .var _ _ init => !init.any (·.hasCall)
  | _ => false

theorem isUsed_of_stays (h : stays refs sources toplevel d = true)
    (hr : isRemovable toplevel d = true) (hl : sources.isLibrary d.span = false) :
      refs.isUsed d.id = true := by
  have hkind : stays refs sources toplevel d = (refs.isUsed d.id || sources.isLibrary d.span) := by
    cases d with
    | inst hd ty as | var hd ty init =>
      rw [isRemovable, Bool.not_eq_true'] at hr
      rw [stays, hr, Bool.or_false]
    | action hd ps b | table hd ks as x | control hd tps ps cps ls b | const hd ty e =>
      exact Bool.or_false _
    | _ => cases hr
  rwa [hkind, hl, Bool.or_false] at h

theorem isLasting_of_pruned (h : PrunedDecl lost d d') :
    isLasting sources d' = isLasting sources d := by
  cases h <;> rfl

end Unused

/-! Rounds keep a program accepted. -/

structure Program.Retains (p q : Program) : Prop where
  paths : ∀ t n, .expr (.path t n) ∈ q.visits → .expr (.path t n) ∈ p.visits ∧
    ∃ r r', p.check.refs.get? t.id = some r ∧ q.check.refs.get? t.id = some r' ∧ r'.id = r.id
  instances : ∀ hd ty as, .enter (.inst hd ty as) ∈ q.visits → .enter (.inst hd ty as) ∈ p.visits ∧
    (q.check.refs.get? hd.id).map (·.id) = (p.check.refs.get? hd.id).map (·.id)

namespace Program

variable {p q q' : Program} {n : Nat}

theorem Retains.trans (h : p.Retains q) (h' : q.Retains q') : p.Retains q' where
  paths t x hpath := by
    obtain ⟨hmem, r₁, r₂, hr₁, hr₂, hid⟩ := h'.paths t x hpath
    obtain ⟨hmem, r, r₁', hr, hr₁', hid'⟩ := h.paths t x hmem
    rw [hr₁] at hr₁'
    cases hr₁'
    exact ⟨hmem, r, r₂, hr, hr₂, hid.trans hid'⟩
  instances hd ty as hinst := by
    obtain ⟨hmem, heq⟩ := h'.instances hd ty as hinst
    obtain ⟨hmem, heq'⟩ := h.instances hd ty as hmem
    exact ⟨hmem, heq.trans heq'⟩

structure Upright (p : Program) (n : Nat) : Prop where
  ids : p.Coherent
  below : ∀ i ∈ p.ids, i.val < n
  flat : p.Flat
  errors : p.check.errors = []

theorem Upright.retains (h : p.Upright n) : p.Retains p where
  paths t x hpath := by
    obtain ⟨r, hr⟩ := exists_ref_of_path h.ids.toNodesApart h.errors hpath
    exact ⟨hpath, r, r, hr, hr, rfl⟩
  instances _ _ _ hinst := ⟨hinst, rfl⟩

theorem Upright.round (h : p.Upright n) (sources : SourceMap) :
    ((Unused.round sources p n).1.get p).Upright (Unused.round sources p n).2 ∧
      p.Retains ((Unused.round sources p n).1.get p) := by
  have hpruned := (Unused.trims_round sources p n).pruned
  have hfollows : p.Follows n ((Unused.round sources p n).1.get p) (Unused.round sources p n).2 :=
    follows_of_affords (fun _ hm => (Unused.fair_editor p.check.refs sources hm).affords_idle p 0)
      (Unused.insts_round sources p n)
  generalize (Unused.round sources p n).1.get p = q, (Unused.round sources p n).2 =
    n' at hpruned hfollows ⊢
  obtain ⟨hapart, hbelow⟩ := hfollows.nodesApart h.ids.toNodesApart h.below fun d hd x hx => by
    obtain ⟨e, he, hp⟩ := hpruned.left.exists_of_mem hd
    exact ⟨e, he, hp.alike.params ▸ hx⟩
  have hids := h.ids.pruned hapart hpruned
  let V : Versions := { Versions.among q.visits with kept := (· ∈ p.check.refs.used) }
  have S : p.Sound V n' := ⟨h.ids, fun i hi => Nat.lt_of_lt_of_le (h.below i hi) hfollows.le,
    h.flat, h.errors, rfl, fun _ hi => hi⟩
  have hlost (d : Decl) (hd : Unused.Goes p.check.refs sources d) : V.Lost d := by
    have hunused := (Bool.or_eq_false_iff.1 (Bool.or_eq_false_iff.1 hd).1).1
    intro hmem
    rw [Refs.isUsed, contains_iff_mem.2 hmem] at hunused
    cases hunused
  have hcarried := S.carried hids (Versions.covers_among hids.nodes)
    (hpruned.trans ⟨hlost, fun _ h => False.elim h⟩ (.refl (fun _ => False) _))
  refine ⟨⟨hids, hbelow, hcarried.flat, hcarried.errors S⟩, fun t x hpath => ?_,
    fun hd ty as hinst => ?_⟩
  · exact hcarried.paths S hpath (hbelow _ (mem_append_left _ (mem_filterMap.2 ⟨_, hpath, rfl⟩)))
  · exact hcarried.instances S hinst

/-- Removal comes to an end: a further round changes nothing, and what has to be referred to is,
from within the result. The result is the program without some declarations, none of which is
lasting but for being part of another, and keeps the toplevel instances. It is accepted if the
program is, and its paths and instances refer to the same. -/
theorem removeUnused_settles {p q : Program} {sources : SourceMap} {n : Nat}
    (hq : (p.removeUnused sources n).1.get p = q) :
    (∀ m, (Unused.round sources q m).1 = .keep ∧ (q.removeUnused sources m).1 = .keep) ∧
      (∀ d ∈ q.decls, Unused.isRemovable true d = true → sources.isLibrary d.span = false →
        q.check.refs.isUsed d.id = true) ∧
      (∀ d ∈ q.innerDecls, Unused.isRemovable false d = true → sources.isLibrary d.span = false →
        q.check.refs.isUsed d.id = true) ∧
      PrunedDecls (fun d => Unused.isLasting sources d = false) p.decls q.decls ∧
        p.insts ⊆ q.insts ∧
      (p.Upright n → q.check.errors = [] ∧ p.Retains q) := by
  subst hq
  have hstay := Unused.stay_rounds sources (n := n) (Nat.lt_succ_self p.allDecls.length)
  obtain ⟨-, hpruned⟩ : ∃ m : Nat, PrunedDecls (fun d => Unused.isLasting sources d = false) p.decls
      ((p.removeUnused sources n).1.get p).decls := by
    refine Unused.rounds_induct sources (P := fun q _ => PrunedDecls _ p.decls q.decls)
      (fun q m h => ?_) (.refl _ _)
    exact h.trans ⟨fun _ hl => hl, fun hd hl => (Unused.isLasting_of_pruned hd).symm.trans
      (Unused.not_lasting_of_goes hl)⟩ (Unused.trims_round sources q m).pruned
  have hupright (h : p.Upright n) : ∃ m, ((p.removeUnused sources n).1.get p).Upright m ∧
      p.Retains ((p.removeUnused sources n).1.get p) :=
    Unused.rounds_induct sources (P := fun q m => q.Upright m ∧ p.Retains q)
      (fun q m h => ⟨(h.1.round sources).1, h.2.trans (h.1.round sources).2⟩) ⟨h, h.retains⟩
  generalize heq : (p.removeUnused sources n).1.get p = q at hpruned hupright
  rw [show (Unused.rounds sources (p.allDecls.length + 1) p n).1.get p = q from heq] at hstay
  refine ⟨fun m => ?_, fun d hd => ?_, fun d hd => ?_, hpruned, ?_, fun h => ?_⟩
  · have hkeep := (Unused.trims_round sources q m).whole.2 hstay
    exact ⟨hkeep, Unused.rounds_of_keep sources hkeep _⟩
  · exact Unused.isUsed_of_stays (hstay d hd).1
  · obtain ⟨e, he, hd⟩ := List.mem_flatMap.1 hd
    exact Unused.isUsed_of_stays (Bool.eq_true_of_not_eq_false ((hstay e he).2 d hd))
  · exact heq ▸ p.insts_removeUnused sources n
  · obtain ⟨m, hq, hretains⟩ := hupright h
    exact ⟨hq.errors, hretains⟩

end Program

namespace Removal

def run (i : Nat) (n : String) (a : Expr) : Stmt :=
  .call ⟨⟨i⟩, none⟩ (.call ⟨⟨i + 1⟩, none⟩ (.path ⟨⟨i + 2⟩, none⟩ n) [] [a])

/-- The parameter of three actions. -/
def shared : Param := ⟨⟨24⟩, "v", .input, .bits 8 false, none⟩

def setter : Decl := .action ⟨⟨4⟩, "set", none⟩ [shared]
  (.mk ⟨5⟩ [.assign ⟨⟨6⟩, none⟩ (.path ⟨⟨7⟩, none⟩ "x") (.path ⟨⟨8⟩, none⟩ "one")])

def needed (more : List Decl) (inBody : List Stmt) : List Decl :=
  [.const ⟨⟨0⟩, "one", none⟩ (.bits 8 false) (.lit ⟨⟨1⟩, none⟩ 1 (.bits 8 false)),
    .control ⟨⟨2⟩, "c", none⟩ [] [⟨⟨3⟩, "x", .inout, .bits 8 false, none⟩] []
      (setter :: more) (.mk ⟨9⟩ (inBody ++ [run 10 "set" (.path ⟨⟨25⟩, none⟩ "x")])),
    .inst ⟨⟨13⟩, "main", none⟩ (.named "c") []]

/-- Action `b` is called from `a` alone, which nothing calls. Two variables hide the constant and
`a`. -/
def cluttered : Program :=
  ⟨.action ⟨⟨14⟩, "b", none⟩ [shared] (.mk ⟨15⟩ []) ::
    .action ⟨⟨16⟩, "a", none⟩ [shared] (.mk ⟨17⟩ [run 18 "b" (.path ⟨⟨26⟩, none⟩ "v")]) ::
    needed [.var ⟨⟨21⟩, "one", none⟩ (.bits 8 false) none]
      [.decl ⟨⟨22⟩, none⟩ (.var ⟨⟨23⟩, "a", none⟩ .bool none)]⟩

theorem coherent_cluttered : cluttered.Coherent where
  toNodesApart := by decide
  shared d hd d' hd' q hq q' hq' _ := by
    have hall : (cluttered.allDecls.flatMap fun d => d.params.map fun q =>
      (q.type, d.body?.isSome)) = List.replicate 4 (.bits 8 false, true) := rfl
    have hone {d : Decl} (hd : d ∈ cluttered.allDecls) {q : Param} (hq : q ∈ d.params) :
        (q.type, d.body?.isSome) = (.bits 8 false, true) := by
      refine List.eq_of_mem_replicate (n := 4) ?_
      rw [← hall]
      exact mem_flatMap.2 ⟨d, hd, mem_map_of_mem hq⟩
    exact Prod.mk.inj ((hone hd hq).trans (hone hd' hq').symm)

def cleared : Program := ⟨needed [] []⟩

theorem cluttered_settles :
    (cluttered.Upright 27 ∧ ¬ cluttered.ids.Nodup ∧
      (cluttered.removeUnused .empty 27).1.get cluttered = cleared ∧
      (Unused.round .empty cluttered 27).1.get cluttered ≠ cleared) ∧
    (Unused.round .empty cleared 27).1 = .keep ∧ cleared.check.refs.isUsed setter.id = true ∧
    cleared.check.errors = [] ∧
    ∃ r r', cluttered.check.refs.get? ⟨8⟩ = some r ∧ cleared.check.refs.get? ⟨8⟩ = some r' ∧
      r'.id = r.id := by
  have hlt : ∀ i ∈ cluttered.ids, i.val < 27 := by decide
  have hflat : cluttered.Flat := Program.flat_iff.2 (by decide)
  have herr : cluttered.check.errors = [] := List.isEmpty_iff.1 (by decide +kernel)
  have hq : (cluttered.removeUnused .empty 27).1.get cluttered = cleared := by decide +kernel
  have hfirst : ((Unused.round .empty cluttered 27).1.get cluttered).decls.length ≠
      cleared.decls.length := by
    decide +kernel
  have hup : cluttered.Upright 27 := ⟨coherent_cluttered, hlt, hflat, herr⟩
  obtain ⟨hround, -, hinner, -, -, hsound⟩ := Program.removeUnused_settles hq
  obtain ⟨herr', hretains⟩ := hsound hup
  refine ⟨⟨hup, by decide, hq, fun h => hfirst (by rw [h])⟩, (hround 27).1, ?_, herr', ?_⟩
  · exact hinner setter (List.mem_of_getElem? (i := 0) rfl) rfl rfl
  · exact (hretains.paths ⟨⟨8⟩, none⟩ "one" (List.mem_of_getElem? (i := 8) rfl)).2

def sheltering : Program :=
  ⟨[.action ⟨⟨0⟩, "a", none⟩ [] (.mk ⟨1⟩ [.decl ⟨⟨2⟩, none⟩ (.header ⟨⟨3⟩, "H", none⟩ [])])]⟩

/-- Inside the generic control, which nothing uses, the call of `a` gives the parameter `x` the type
parameter as its type, and the assignment after it is accepted for that reason alone. -/
def retyped : Program :=
  ⟨[.header ⟨⟨0⟩, "T", none⟩ [⟨.bits 8 false, "f"⟩],
    .action ⟨⟨1⟩, "a", none⟩ [⟨⟨2⟩, "x", .inout, .named "T", none⟩] (.mk ⟨3⟩
      [.decl ⟨⟨4⟩, none⟩ (.control ⟨⟨5⟩, "inner", none⟩ ["T"] [⟨⟨6⟩, "y", .inout, .named "T", none⟩]
        [] [] (.mk ⟨7⟩ [run 8 "a" (.path ⟨⟨11⟩, none⟩ "y")])),
      .assign ⟨⟨12⟩, none⟩ (.path ⟨⟨13⟩, none⟩ "x") (.lit ⟨⟨14⟩, none⟩ 1 (.bits 8 false))]),
    .control ⟨⟨15⟩, "c", none⟩ [] [⟨⟨16⟩, "h", .inout, .named "T", none⟩] [] []
      (.mk ⟨17⟩ [run 18 "a" (.path ⟨⟨21⟩, none⟩ "h")]),
    .inst ⟨⟨22⟩, "main", none⟩ (.named "c") []]⟩

/-- A header goes with the action that it is declared in, and a program with a type that is declared
farther in is refused once that type has gone. -/
theorem nested_types_unsafe :
    (sheltering.ids.Nodup ∧ sheltering.check.errors = [] ∧
      .header ⟨⟨3⟩, "H", none⟩ [] ∈ sheltering.allDecls ∧
      ((sheltering.removeUnused .empty 4).1.get sheltering).allDecls = []) ∧
    retyped.ids.Nodup ∧ DeclsInBlocks retyped.visits ∧ retyped.check.errors = [] ∧
      ((retyped.removeUnused .empty 23).1.get retyped).check.errors ≠ [] := by
  refine ⟨⟨by decide, List.isEmpty_iff.1 (by decide +kernel), List.mem_of_getElem? (i := 1) rfl,
    by decide +kernel⟩,
    by decide, by decide, List.isEmpty_iff.1 (by decide +kernel), fun h => ?_⟩
  have hempty : ((retyped.removeUnused .empty 23).1.get retyped).check.errors.isEmpty = false := by
    decide +kernel
  rw [h] at hempty
  cases hempty

end Removal

end MatchAction
