import MatchAction.Inline.Splice
import MatchAction.Proofs.Editors

namespace MatchAction

section

variable {co : List Stmt}

theorem exitGuard_plainExprs (co : List Stmt) : (exitGuard co).PlainExprs :=
  ⟨fun _ => rfl, fun _ => rfl⟩

variable {s : Stmt}

theorem exitGuard_leaveStmt (hs : ∀ t, s ≠ .exit t) :
    (exitGuard co).leaveStmt s = pure [.keep] := by
  cases s with
  | exit t => exact absurd rfl (hs t)
  | _ => rfl

variable {n : Nat}

theorem exitGuard_around
    (hy : (y () n).1.1 = [x]) (hs : ∀ t, x.get s ≠ .exit t) :
    ((exitGuard co).aroundStmt Editor.stop false s y () n).1.1 = [x] := by
  rw [Editor.aroundStmt_descend rfl, Supply.stateT_bind_apply, hy, Editor.leaveEach_singleton,
    exitGuard_leaveStmt hs]
  simp

theorem exitGuard_visitDecl (co : List Stmt) {S : Type} (I : Ops S) (d : Decl) (n : Nat) :
    ∃ x, ((exitGuard co).visitDecl Editor.stop false d () n).1.1 = [x] ∧
      ∀ m : Config S, m.declare I (x.get d) = m.declare I d := by
  have hp := exitGuard_plainExprs co
  let x := ((exitGuard co).declParts Editor.stop d () n).1.1
  refine ⟨x, ?_, fun m => Config.declare_congr I ?_ ?_⟩
  · rw [Editor.visitDecl_eq, Editor.aroundDecl_descend rfl]
    simp [Editor.leaveEach_singleton, exitGuard, x]
  · exact congrArg Head.name (Editor.head_declParts d () n)
  · refine Editor.created_declParts () n ?_ ?_ ?_
    · intro h t e _
      rw [hp.visitExpr?]
      rfl
    · intro h t e _
      rw [hp.visitExpr]
      rfl
    · intro h t as _
      rw [hp.visitExprs]
      rfl

def onExit {S : Type} (κ : S → S) : Completion × Config S → Completion × Config S
  | (.exited, m) => (.exited, { m with state := κ m.state })
  | r => r

section

variable {S : Type} {I : Ops S} {insts : String → Option (Applied S)} {κ : S → S} {P : Env → Prop}

def Tame (I : Ops S) (insts : String → Option (Applied S)) (P : Env → Prop) : Atom → Prop
  | .call e => ∀ m, ((I.machine insts).call e m).1 = false
  | .declare d => ∀ m : Config S, P m.env → P (m.declare I d).env
  | .value _ => False
  | _ => True

theorem exec_single
    (h : xs.length = 1 ∨ (Stmt.execs (I.machine insts) (xs.map (·.get old)) m).2.env = m.env) :
    ((Editor.single xs old () n).1.1.get old).exec (I.machine insts) m =
      Stmt.execs (I.machine insts) (xs.map (·.get old)) m := by
  match xs, h with
  | [], _ => rfl
  | [x], _ => exact (Stmt.execs_singleton _ _ _).symm
  | x :: y :: xs, .inr h =>
    simp only [Editor.single, Supply.stateT_bind_apply, Supply.stateT_pure_apply, Edit.get_put,
      Stmt.exec, Block.exec]
    refine Prod.ext rfl ?_
    change { (Stmt.execs (I.machine insts) _ m).2 with env := m.env } = _
    rw [← h]

theorem onExit_andThen (r : Completion × Config S) (k : Config S → Completion × Config S) :
    Completion.andThen (onExit κ r) (fun m => onExit κ (k m)) =
      onExit κ (Completion.andThen r k) := by
  obtain ⟨c, m⟩ := r
  cases c <;> rfl

def Writes (I : Ops S) (insts : String → Option (Applied S)) (κ : S → S) (P : Env → Prop)
    (co : List Stmt) : Prop :=
  ∀ m, P m.env → Stmt.execs (I.machine insts) co m = (.normal, { m with state := κ m.state })

structure GuardedBy (I : Ops S) (insts : String → Option (Applied S)) (κ : S → S) (P : Env → Prop)
    (s : Stmt) (m : Config S) (xs : Splice Stmt) : Prop where
  exec : Stmt.execs (I.machine insts) (xs.map (·.get s)) m = onExit κ (s.exec (I.machine insts) m)
  env : P (s.exec (I.machine insts) m).2.env
  /-- Only an `exit` becomes several statements. -/
  single : xs.length = 1 ∨ (s.exec (I.machine insts) m).2.env = m.env

theorem guardedBy_single (s' : Stmt) (hy : (y () n).1.1 = [x]) (hx : x.get s = s')
    (hs : ∀ t, s' ≠ .exit t)
    (h : s'.exec (I.machine insts) m = onExit κ (s.exec (I.machine insts) m) ∧
      P (s.exec (I.machine insts) m).2.env) :
    GuardedBy I insts κ P s m ((exitGuard co).aroundStmt Editor.stop false s y () n).1.1 := by
  subst hx
  rw [exitGuard_around hy hs]
  exact ⟨(Stmt.execs_singleton _ _ _).trans h.1, h.2, .inl rfl⟩

theorem GuardedBy.branch
    (h : GuardedBy I insts κ P s m xs) (n : Nat) :
    ((Editor.single xs s () n).1.1.get s).exec (I.machine insts) m =
      onExit κ (s.exec (I.machine insts) m) := by
  rw [exec_single, h.exec]
  refine h.single.imp_right fun he => ?_
  rw [h.exec, ← he]
  generalize s.exec (I.machine insts) m = r
  obtain ⟨c, m⟩ := r
  cases c <;> rfl

mutual
theorem exec_exitGuard_stmt (hco : Writes I insts κ P co) : (s : Stmt) →
    (∀ a ∈ s.atoms, Tame I insts P a) → ∀ n m, P m.env →
      GuardedBy I insts κ P s m ((exitGuard co).visitStmt Editor.stop false s () n).1.1
  | .block t b, h, n, m, hm => by
    refine guardedBy_single (.block t (((exitGuard co).visitBlock Editor.stop b () n).1.1.get b))
      rfl (Edit.get_map (Stmt.block t) b _) (by simp) ⟨exec_exitGuard_block hco b h n m hm, ?_⟩
    obtain ⟨i, ss⟩ := b
    exact hm
  | .assign t l r, h, n, m, hm => by
    refine guardedBy_single (.assign t l r) (x := .keep) ?_ rfl (by simp) ⟨rfl, hm⟩
    simp [(exitGuard_plainExprs co).visitExpr]
  | .call t e, h, n, m, hm => by
    have he : ((I.machine insts).call e m).1 = false := h (.call e) (by simp [Stmt.atoms]) m
    refine guardedBy_single (.call t e) (x := .keep) ?_ rfl (by simp) ⟨?_, ?_⟩
    · simp [(exitGuard_plainExprs co).visitExpr]
    · simp [Stmt.exec, he, Completion.ofCall, onExit]
    · rw [Stmt.exec, I.env_call]
      exact hm
  | .ifThen t c a none, h, n, m, hm => by
    have ha := exec_exitGuard_stmt hco a (fun u hu => h u (by simp [Stmt.atoms, hu])) n
    let va := (exitGuard co).visitStmt Editor.stop false a () n
    let ya := Editor.single va.1.1 a () va.2
    refine guardedBy_single (.ifThen t c (ya.1.1.get a) none) rfl ?_ (by simp) ?_
    · rw [(exitGuard_plainExprs co).visitExpr]
      exact Edit.get_map₂ (Stmt.ifThen t · · none) c a .keep ya.1.1
    · simp only [Stmt.exec, Ops.machine_test]
      generalize I.test (c.term m.env) m.state = r
      obtain ⟨v, st⟩ := r
      cases v with
      | true => exact ⟨(ha { m with state := st } hm).branch _, (ha { m with state := st } hm).env⟩
      | false => exact ⟨rfl, hm⟩
  | .ifThen t c a (some b), h, n, m, hm => by
    have ha := exec_exitGuard_stmt hco a (fun u hu => h u (by simp [Stmt.atoms, hu]))
    have hb := exec_exitGuard_stmt hco b (fun u hu => h u (by simp [Stmt.atoms, hu]))
    let va := (exitGuard co).visitStmt Editor.stop false a () n
    let ya := Editor.single va.1.1 a () va.2
    let vb := (exitGuard co).visitStmt Editor.stop false b () ya.2
    let yb := Editor.single vb.1.1 b () vb.2
    refine guardedBy_single (.ifThen t c (ya.1.1.get a) (some (yb.1.1.get b))) rfl ?_ (by simp) ?_
    · rw [(exitGuard_plainExprs co).visitExpr]
      exact Editor.get_ifElse t c a b .keep ya.1.1 yb.1.1
    · simp only [Stmt.exec, Ops.machine_test]
      generalize I.test (c.term m.env) m.state = r
      obtain ⟨v, st⟩ := r
      cases v with
      | true =>
        exact ⟨(ha _ { m with state := st } hm).branch _, (ha n { m with state := st } hm).env⟩
      | false =>
        exact ⟨(hb _ { m with state := st } hm).branch _, (hb n { m with state := st } hm).env⟩
  | .switch t e cs, h, n, m, hm => by
    have hcs := exec_exitGuard_cases hco cs (fun u hu => h u (by simp [Stmt.atoms, hu])) n
    let vcs := (exitGuard co).visitCases Editor.stop cs () n
    refine guardedBy_single (.switch t e (vcs.1.1.get cs)) rfl ?_ (by simp) ?_
    · rw [(exitGuard_plainExprs co).visitExpr]
      exact Edit.get_map₂ (Stmt.switch t) e cs .keep vcs.1.1
    · simp only [Stmt.exec, Ops.machine_select, vcs, Editor.map_label_visitCases]
      generalize I.select (e.term m.env) _ m.state = r
      obtain ⟨i, st⟩ := r
      cases i with
      | none => exact ⟨rfl, hm⟩
      | some i => exact hcs i { m with state := st } hm
  | .decl t d, h, n, m, hm => by
    have hd : Tame I insts P (.declare d) := h _ (by simp [Stmt.atoms])
    obtain ⟨x, hx, hdecl⟩ := exitGuard_visitDecl co I d n
    refine guardedBy_single (.decl t (x.get d)) (x := x.map (.decl t)) ?_ (Edit.get_map _ d x)
      (by simp) ⟨?_, hd m hm⟩
    · simp only [Supply.stateT_bind_apply, hx]
      cases x <;> rfl
    · simp [Stmt.exec, hdecl, onExit]
  | .ret t none, h, n, m, hm => by
    refine guardedBy_single (.ret t none) (x := .keep) ?_ rfl (by simp) ⟨rfl, hm⟩
    simp [(exitGuard_plainExprs co).visitExpr?]
  | .ret t (some e), h, n, m, hm => absurd (h (.value e) (by simp [Stmt.atoms])) id
  | .exit t, h, n, m, hm => by
    have hv : ((exitGuard co).visitStmt Editor.stop false (.exit t) () n).1.1.map
        (·.get (.exit t)) = (Stmt.copies co n).1 ++ [.exit t] := by
      rw [Editor.visitStmt, Editor.aroundStmt_descend rfl]
      simp only [Editor.leaveEach_singleton, exitGuard, Supply.stateT_map_apply,
        Supply.stateT_bind_apply, Supply.stateT_lift_apply, Supply.stateT_pure_apply,
        Edit.get_keep, List.map_append, List.map_map, List.map_cons, List.map_nil]
      exact congrArg (· ++ [Stmt.exit t]) (List.map_id' _)
    refine ⟨?_, hm, .inr rfl⟩
    rw [hv, Stmt.execs_append, Stmt.execs_copies, hco m hm]
    rfl
  | .empty t, h, n, m, hm => guardedBy_single (.empty t) rfl rfl (by simp) ⟨rfl, hm⟩
theorem exec_exitGuard_block (hco : Writes I insts κ P co) : (b : Block) →
    (∀ a ∈ b.atoms, Tame I insts P a) → ∀ n m, P m.env →
      (((exitGuard co).visitBlock Editor.stop b () n).1.1.get b).exec (I.machine insts) m =
        onExit κ (b.exec (I.machine insts) m)
  | .mk i ss, h, n, m, hm => by
    have hss := exec_exitGuard_stmts hco ss h n m hm
    rw [Editor.get_visitBlock (fun _ => rfl), Block.exec, Block.exec, hss]
    generalize Stmt.execs (I.machine insts) ss m = r
    obtain ⟨c, m'⟩ := r
    cases c <;> rfl
theorem exec_exitGuard_stmts (hco : Writes I insts κ P co) : (ss : List Stmt) →
    (∀ a ∈ Stmt.allAtoms ss, Tame I insts P a) → ∀ n m, P m.env →
      Stmt.execs (I.machine insts) (((exitGuard co).visitStmts Editor.stop ss () n).1.1.get ss) m =
        onExit κ (Stmt.execs (I.machine insts) ss m)
  | [], _, _, _, _ => rfl
  | s :: ss, h, n, m, hm => by
    have hs := exec_exitGuard_stmt hco s (fun u hu => h u (by simp [Stmt.allAtoms, hu])) n m hm
    have hss := exec_exitGuard_stmts hco ss (fun u hu => h u (by simp [Stmt.allAtoms, hu]))
    rw [Editor.get_visitStmts_cons, Stmt.execs_append, hs.exec, Stmt.execs_cons,
      ← onExit_andThen]
    have henv := hs.env
    generalize s.exec (I.machine insts) m = r at henv
    obtain ⟨c, m'⟩ := r
    cases c with
    | normal => exact hss _ m' henv
    | returned => rfl
    | exited => rfl
theorem exec_exitGuard_cases (hco : Writes I insts κ P co) : (cs : List Case) →
    (∀ a ∈ Case.atoms cs, Tame I insts P a) → ∀ n i m, P m.env →
      Case.exec (I.machine insts) i (((exitGuard co).visitCases Editor.stop cs () n).1.1.get cs) m =
        onExit κ (Case.exec (I.machine insts) i cs m) ∧
      P (Case.exec (I.machine insts) i cs m).2.env
  | [], _, _, _, _, hm => ⟨rfl, hm⟩
  | .run l b :: cs, h, n, i, m, hm => by
    have hb := exec_exitGuard_block hco b (fun u hu => h u (by simp [Case.atoms, hu])) n m hm
    have hcs := exec_exitGuard_cases hco cs (fun u hu => h u (by simp [Case.atoms, hu]))
    rw [Editor.get_visitCases_run]
    cases i with
    | zero =>
      refine ⟨hb, ?_⟩
      obtain ⟨j, ss⟩ := b
      exact hm
    | succ i => exact hcs _ i m hm
  | .fallThrough l :: cs, h, n, i, m, hm => by
    have hcs := exec_exitGuard_cases hco cs (fun u hu => h u (by simpa [Case.atoms] using hu))
    rw [Editor.get_visitCases_fallThrough]
    simpa only [Case.exec] using hcs n (i - 1) m hm
end

variable {b : Block}

theorem env_execs (h : ∀ a ∈ b.atoms, Tame I insts P a)
    (hm : P m.env) : P (Stmt.execs (I.machine insts) b.stmts m).2.env := by
  obtain ⟨i, ss⟩ := b
  change ∀ a ∈ Stmt.allAtoms ss, _ at h
  change P (Stmt.execs (I.machine insts) ss m).2.env
  induction ss generalizing m with
  | nil => exact hm
  | cons s ss ih =>
    have hnil : Writes I insts id P [] := fun _ _ => rfl
    have hs := (exec_exitGuard_stmt hnil s (fun u hu => h u (by simp [Stmt.allAtoms, hu])) 0 m
      hm).env
    rw [Stmt.execs_cons]
    generalize s.exec (I.machine insts) m = r at hs
    obtain ⟨c, m'⟩ := r
    cases c with
    | normal => exact ih hs fun u hu => h u (by simp [Stmt.allAtoms, hu])
    | returned => exact hs
    | exited => exact hs

theorem Tame.copied (h : Tame I insts P a) (hc : a.Copied a') :
    Tame I insts P a' := by
  cases hc with
  | call e n => exact fun m => by rw [Ops.call_copy]; exact h m
  | declare d n => exact fun m hm => by rw [Config.declare_copy]; exact h m hm
  | value e n => exact h
  | assign | test | select => trivial

theorem tame_copy (h : ∀ a ∈ b.atoms, Tame I insts P a) (n : Nat) :
    ∀ a ∈ (b.copy n).1.atoms, Tame I insts P a :=
  Atom.forall_of_forall₂ (Block.atoms_copy b n) h fun ha hc => ha.copied hc

theorem stmts_copyOutBeforeExit (co : List Stmt) (b : Block) (n : Nat) :
    (copyOutBeforeExit co b n).1.stmts =
      if co.isEmpty then b.stmts
      else ((exitGuard co).visitStmts Editor.stop b.stmts () n).1.1.get b.stmts := by
  obtain ⟨i, ss⟩ := b
  have hb : ((exitGuard co).visitBlock Editor.stop (.mk i ss) () n).1.1.get (.mk i ss) =
      .mk i (((exitGuard co).visitStmts Editor.stop ss () n).1.1.get ss) :=
    Editor.get_visitBlock (fun _ => rfl) i ss () n
  unfold copyOutBeforeExit
  split
  · rfl
  · exact congrArg Block.stmts hb

theorem execs_copyOutBeforeExit (hco : Writes I insts κ P co)
    (h : ∀ a ∈ b.atoms, Tame I insts P a) (n : Nat) (hm : P m.env) :
    Stmt.execs (I.machine insts) (copyOutBeforeExit co b n).1.stmts m =
      onExit κ (Stmt.execs (I.machine insts) b.stmts m) := by
  obtain ⟨i, ss⟩ := b
  rw [stmts_copyOutBeforeExit]
  split
  · rename_i he
    have hκ : ∀ st, κ st = st := fun st => by
      have hst := hco { m with state := st } hm
      rw [List.isEmpty_iff.1 he] at hst
      exact (congrArg (·.2.state) hst).symm
    generalize Stmt.execs (I.machine insts) (Block.mk i ss).stmts m = r
    obtain ⟨c, m'⟩ := r
    cases c <;> simp [onExit, hκ]
  · exact exec_exitGuard_stmts hco ss h n m hm

end

end

end MatchAction
