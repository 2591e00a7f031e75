import MatchAction.Proofs.Editors
import MatchAction.Proofs.Lexical
import MatchAction.Simplify.Flow

/-!
Plainer control flow runs the same. A machine tells the scopes of its states apart: only
declarations change them, and the end of a block goes back to the scope at its start. Leaving a
block that declared nothing then does nothing, so its statements may join the block around it. What
comes out is settled: nothing is left for a second round.
-/

namespace MatchAction

open List

namespace Decl

def bare : Decl → Decl
  | .action h ps _ => .action h ps (.mk ⟨0⟩ [])
  | .control h tps ps cps _ _ => .control h tps ps cps [] (.mk ⟨0⟩ [])
  | d => d

def initial : Decl → List Expr
  | .inst _ _ as => as
  | .var _ _ e => e.toList
  | .const _ _ e => [e]
  | _ => []

theorem initial_bare (d : Decl) : d.bare.initial = d.initial := by cases d <;> rfl

end Decl

namespace Machine

variable {M S : Type}

/-- Conditions without calls have no effect, declarations run nothing that is called later, and
blocks end in the scope they started in. -/
structure Scoped (I : Machine M) (scope : M → S) : Prop where
  test_bool : ∀ t b m, I.test (.bool t b) m = (b, m)
  test_eq : ∀ c m, c.hasCall = false → (I.test c m).2 = m
  declare_bare : ∀ d m, I.declare d.bare m = I.declare d m
  assign : ∀ l r m, scope (I.assign l r m) = scope m
  call : ∀ e m, scope (I.call e m).2 = scope m
  test : ∀ c m, scope (I.test c m).2 = scope m
  select : ∀ e ls m, scope (I.select e ls m).2 = scope m
  leave : ∀ m m', scope (I.leave m m') = scope m
  leave_eq : ∀ m m', scope m' = scope m → I.leave m m' = m'

theorem scoped_flat {I : Interp M} (hb : ∀ t b m, I.test (.bool t b) m = (b, m))
    (hc : ∀ c m, c.hasCall = false → (I.test c m).2 = m)
    (hd : ∀ d m, I.declare d.bare m = I.declare d m) :
    I.flat.Scoped fun _ => () :=
  ⟨hb, hc, hd, fun _ _ _ => rfl, fun _ _ => rfl, fun _ _ => rfl, fun _ _ _ => rfl, fun _ _ => rfl,
    fun _ _ _ => rfl⟩

def recording (I : Machine M) : Machine (M × List Expr) where
  assign l r m := (I.assign l r m.1, m.2 ++ [l, r].filter (·.hasCall))
  call e m := ((I.call e m.1).1, (I.call e m.1).2, m.2 ++ [e].filter (·.hasCall))
  declare d m := (I.declare d m.1, m.2 ++ d.initial.filter (·.hasCall))
  test c m := ((I.test c m.1).1, (I.test c m.1).2, m.2 ++ [c].filter (·.hasCall))
  select e ls m := ((I.select e ls m.1).1, (I.select e ls m.1).2, m.2 ++ [e].filter (·.hasCall))
  leave m m' := (I.leave m.1 m'.1, m'.2)

theorem Scoped.recording {I : Machine M} {scope : M → S} (h : I.Scoped scope) :
    I.recording.Scoped (scope ∘ Prod.fst) where
  test_bool t b m := by simp [Machine.recording, h.test_bool, Expr.hasCall]
  test_eq c m hc := by simp [Machine.recording, h.test_eq c m.1 hc, hc]
  declare_bare d m := by simp only [Machine.recording, h.declare_bare, Decl.initial_bare]
  assign l r m := h.assign l r m.1
  call e m := h.call e m.1
  test c m := h.test c m.1
  select e ls m := h.select e ls m.1
  leave m m' := h.leave m.1 m'.1
  leave_eq m m' hs := congrArg (·, m'.2) (h.leave_eq m.1 m'.1 hs)

end Machine

def Block.Same (b b' : Block) : Prop :=
  ∀ (M S : Type) (I : Machine M) (scope : M → S), I.Scoped scope →
    ∀ m, b'.exec I m = b.exec I m ∧ ∀ calls, b'.exec I.recording (m, calls) =
      b.exec I.recording (m, calls)

inductive Decl.Same : Decl → Decl → Prop
  | refl (d : Decl) : Same d d
  | action (h : Head) (ps : List Param) {b b' : Block} (body : b.Same b') :
    Same (.action h ps b) (.action h ps b')
  | control (h : Head) (tps : List String) (ps cps : List Param) {ls ls' : List Decl} {b b' : Block}
    (locals : List.Forall₂ Same ls ls') (body : b.Same b') :
    Same (.control h tps ps cps ls b) (.control h tps ps cps ls' b')

variable {d : Decl}

theorem Decl.Same.bare (h : d.Same d') : d'.bare = d.bare := by
  cases h <;> rfl

/-- Nothing to do: no statement of a block dissolves, and no `if` has a literal condition, or looks
at a condition without calls for nothing. -/
def Visit.settled : Visit → Bool
  | .block b => !b.stmts.any Flow.dissolves
  | .stmt (.ifThen _ (.bool ..) _ _) => false
  | .stmt (.ifThen _ c a b) => c.hasCall || !(a.isEmpty && b.all (·.isEmpty))
  | _ => true

namespace Flow

/-! One statement. -/

mutual
theorem exec_of_isEmpty {M S : Type} {I : Machine M} {scope : M → S} (h : I.Scoped scope) :
    (s : Stmt) → s.isEmpty = true → ∀ m, s.exec I m = (.normal, m)
  | .empty _, _, _ => rfl
  | .block _ (.mk i ss), hs, m => by
    have hss := execs_of_allEmpty h ss hs m
    rw [Stmt.exec, Block.exec, hss, h.leave_eq m m rfl]
theorem execs_of_allEmpty {M S : Type} {I : Machine M} {scope : M → S} (h : I.Scoped scope) :
    (ss : List Stmt) → Stmt.allEmpty ss = true → ∀ m, Stmt.execs I ss m = (.normal, m)
  | [], _, _ => rfl
  | s :: ss, hs, m => by
    rw [Stmt.allEmpty, Bool.and_eq_true] at hs
    rw [Stmt.execs_cons, exec_of_isEmpty h s hs.1, Completion.normal_andThen,
      execs_of_allEmpty h ss hs.2]
end

variable {ss : List Stmt} {b : Block}

section

variable {M S : Type} {I : Machine M} {scope : M → S} (h : I.Scoped scope)
include h

theorem scope_case (cs : List Case) (i : Nat) (m : M) : scope (Case.exec I i cs m).2 = scope m := by
  induction cs generalizing i m with
  | nil => rfl
  | cons c cs ih =>
    cases c with
    | run l b =>
      cases i with
      | zero =>
        obtain ⟨j, ss⟩ := b
        exact h.leave _ _
      | succ i => exact ih i m
    | fallThrough l =>
      rw [Case.exec]
      exact ih _ m

theorem scope_stmt : (s : Stmt) → s.isDecl = false → DeclsInBlocks s.visits → ∀ m,
    scope (s.exec I m).2 = scope m
  -- a block goes back to its scope whatever is in it, so only branches are looked into
  | .block _ (.mk ..), _, _, _ => h.leave _ _
  | .assign .., _, _, _ => h.assign _ _ _
  | .call .., _, _, _ => h.call _ _
  | .ifThen _ c a none, _, hd, m => by
    have ha := (hd.tail.append).2
    have hs := h.test c m
    rw [Stmt.exec]
    generalize I.test c m = r at hs ⊢
    obtain ⟨taken, m'⟩ := r
    cases taken with
    | true => exact (scope_stmt a hd.branches.1 ha m').trans hs
    | false => exact hs
  | .ifThen _ c a (some b), _, hd, m => by
    have ha := hd.tail.append.1.append.2
    have hb := hd.tail.append.2
    have hs := h.test c m
    rw [Stmt.exec]
    generalize I.test c m = r at hs ⊢
    obtain ⟨taken, m'⟩ := r
    cases taken with
    | true => exact (scope_stmt a hd.branches.1 ha m').trans hs
    | false => exact (scope_stmt b (hd.branches.2 b rfl) hb m').trans hs
  | .switch _ e cs, _, _, m => by
    have hs := h.select e (cs.map Case.label) m
    rw [Stmt.exec]
    generalize I.select e (cs.map Case.label) m = r at hs ⊢
    obtain ⟨_ | i, m'⟩ := r
    · exact hs
    · exact (scope_case h cs i m').trans hs
  | .ret _ none, _, _, _ => rfl
  | .ret _ (some e), _, _, m => by
    have hs := h.call e m
    rw [Stmt.exec]
    generalize I.call e m = r at hs ⊢
    obtain ⟨exits, m'⟩ := r
    cases exits <;> exact hs
  | .exit _, _, _, _ | .empty _, _, _, _ => rfl

theorem scope_stmts (hs : ss.any (·.isDecl) = false)
    (hd : DeclsInBlocks (Stmt.allVisits ss)) (m : M) : scope (Stmt.execs I ss m).2 = scope m := by
  induction ss generalizing m with
  | nil => rfl
  | cons s ss ih =>
    rw [any_cons, Bool.or_eq_false_iff] at hs
    have hscope := scope_stmt h s hs.1 hd.append.1 m
    rw [Stmt.execs_cons]
    generalize s.exec I m = r at hscope ⊢
    obtain ⟨c, m'⟩ := r
    cases c with
    | normal => exact (ih hs.2 hd.append.2 m').trans hscope
    | returned | exited => exact hscope

theorem exec_block (hb : b.hasDecls = false) (hd : DeclsInBlocks b.visits) (m : M) :
    b.exec I m = Stmt.execs I b.stmts m := by
  obtain ⟨i, ss⟩ := b
  exact Prod.ext rfl (h.leave_eq _ _ (scope_stmts h hb hd.tail m))

theorem execs_flatten (hd : DeclsInBlocks (Stmt.allVisits ss)) (m : M) :
    Stmt.execs I (flatten ss) m = Stmt.execs I ss m := by
  fun_induction flatten ss generalizing m with
  | case1 => rfl
  | case2 t ss ih => exact ih hd.append.2 m
  | case3 t b ss ih =>
    rw [Stmt.execs_append, Stmt.execs_cons, funext (ih hd.append.2)]
    congr 1
    -- a block with declarations stays, any other one leaves in the scope it was entered in
    split
    · exact Stmt.execs_singleton ..
    · rename_i hb
      exact (exec_block h (by simpa using hb) hd.append.1.tail m).symm
  | case4 s ss _ _ ih => rw [Stmt.execs_cons, Stmt.execs_cons, funext (ih hd.append.2)]

theorem execs_branch (s : Stmt) (m : M) :
    Stmt.execs I ((branch s).map (·.get s)) m = s.exec I m := by
  fun_cases branch s with
  | case1 t u a b =>
    cases b <;> exact (Stmt.execs_singleton ..).trans (by rw [Stmt.exec, h.test_bool]; rfl)
  | case2 t u a b =>
    cases b with
    | none => rw [Stmt.exec, h.test_bool]; rfl
    | some b => exact (Stmt.execs_singleton ..).trans (by rw [Stmt.exec, h.test_bool]; rfl)
  | case3 t c a b _ _ hempty =>
    simp only [Bool.and_eq_true, Bool.not_eq_true'] at hempty
    obtain ⟨⟨ha, hb⟩, hc⟩ := hempty
    have htest := h.test_eq c m hc
    have ha := exec_of_isEmpty h a ha
    cases b with
    | none =>
      rw [Stmt.exec]
      generalize I.test c m = r at htest ⊢
      obtain ⟨taken, m'⟩ := r
      obtain rfl : m' = m := htest
      cases taken with
      | true => exact (ha m').symm
      | false => rfl
    | some b =>
      have hb := exec_of_isEmpty h b hb
      rw [Stmt.exec]
      generalize I.test c m = r at htest ⊢
      obtain ⟨taken, m'⟩ := r
      obtain rfl : m' = m := htest
      cases taken with
      | true => exact (ha m').symm
      | false => exact (hb m').symm
  | case4 | case5 => exact Stmt.execs_singleton ..

end

/-! What is left. -/

def Settled (vs : List Visit) : Prop := ∀ v ∈ vs, v.branchesPlain = true ∧ v.settled = true

theorem Settled.declsInBlocks (h : Settled vs) : DeclsInBlocks vs := fun v hv => (h v hv).1

theorem settled_append : Settled (vs ++ ws) ↔ Settled vs ∧ Settled ws :=
  forall_mem_append

theorem settled_cons :
    Settled (v :: vs) ↔ (v.branchesPlain = true ∧ v.settled = true) ∧ Settled vs := forall_mem_cons

theorem settled_nil : Settled [] := forall_mem_nil _

theorem settled_exprs (es : List Expr) : Settled (es.map .expr) := by
  intro v hv
  obtain ⟨e, -, rfl⟩ := mem_map.1 hv
  exact ⟨rfl, rfl⟩

theorem settled_expr? (e : Option Expr) : Settled (Expr.visits? e) := by
  cases e with
  | none => exact settled_nil
  | some e => exact settled_exprs _

theorem flatten_eq_self (h : ss.any dissolves = false) : flatten ss = ss := by
  fun_induction flatten ss with
  | case1 => rfl
  | case2 => cases h
  | case3 t b ss ih =>
    obtain ⟨hb, hss⟩ := Bool.or_eq_false_iff.1 (any_cons.symm.trans h)
    rw [dissolves, Bool.not_eq_false'] at hb
    rw [if_pos hb, ih hss]
    rfl
  | case4 s ss _ _ ih => rw [ih (Bool.or_eq_false_iff.1 (any_cons.symm.trans h)).2]

theorem flatten_subset (ss : List Stmt) : Stmt.allVisits (flatten ss) ⊆ Stmt.allVisits ss := by
  fun_induction flatten ss with
  | case1 => exact fun _ h => h
  | case2 t ss ih => exact fun v hv => mem_append_right _ (ih hv)
  | case3 t b ss ih =>
    rw [Stmt.allVisits_append]
    refine append_subset.2 ⟨fun v hv => mem_append_left _ ?_,
      fun v hv => mem_append_right _ (ih hv)⟩
    split at hv
    · simpa only [Stmt.allVisits, append_nil] using hv
    · obtain ⟨i, ss⟩ := b
      exact mem_cons_of_mem _ (mem_cons_of_mem _ hv)
  | case4 s ss _ _ ih =>
    exact append_subset.2 ⟨subset_append_left .., fun v hv => mem_append_right _ (ih hv)⟩

theorem any_flatten (h : Settled (Stmt.allVisits ss)) :
    (flatten ss).any dissolves = false := by
  fun_induction flatten ss with
  | case1 => rfl
  | case2 t ss ih => exact ih (settled_append.1 h).2
  | case3 t b ss ih =>
    obtain ⟨hb, hss⟩ := settled_append.1 h
    rw [any_append, ih hss, Bool.or_false]
    split
    · rename_i hdecls
      simp [dissolves, hdecls]
    · -- the statements that take its place are those of a settled block
      obtain ⟨i, ss⟩ := b
      simpa [Visit.settled] using (settled_cons.1 (settled_cons.1 hb).2).1.2
  | case4 s ss hempty hblock ih =>
    rw [any_cons, ih (settled_append.1 h).2, Bool.or_false]
    cases s with
    | empty t => exact absurd rfl (hempty t)
    | block t b => exact absurd rfl (hblock t b)
    | _ => rfl

variable {s : Stmt}

theorem branch_of_settled (h : (Visit.stmt s).settled = true) : branch s = [.keep] := by
  fun_cases branch s with
  | case1 | case2 => cases h
  | case3 t c a b ht hf hempty =>
    simp only [Bool.and_eq_true, Bool.not_eq_true'] at hempty
    cases c with
    | bool => cases h
    | _ => simp [Visit.settled, hempty] at h
  | case4 | case5 => rfl

def Drawn (vs vs' : List Visit) : Prop := ∀ d', .enter d' ∈ vs' → ∃ d, .enter d ∈ vs ∧ d.Same d'

namespace Drawn

variable {vs vs' ws ws' : List Visit}

theorem refl (vs : List Visit) : Drawn vs vs := fun d hd => ⟨d, hd, .refl d⟩

theorem append (h : Drawn vs vs') (h' : Drawn ws ws') : Drawn (vs ++ ws) (vs' ++ ws') := by
  intro d' hd
  rcases mem_append.1 hd with hd | hd
  · obtain ⟨d, hd, hs⟩ := h d' hd
    exact ⟨d, mem_append_left _ hd, hs⟩
  · obtain ⟨d, hd, hs⟩ := h' d' hd
    exact ⟨d, mem_append_right _ hd, hs⟩

theorem cons (hv : Drawn [v] [v']) (h : Drawn vs vs') : Drawn (v :: vs) (v' :: vs') := append hv h

theorem stmt (h : Drawn vs vs') (s s' : Stmt) : Drawn (.stmt s :: vs) (.stmt s' :: vs') := by
  refine cons ?_ h
  intro d hd
  cases mem_singleton.1 hd

theorem block (h : Drawn vs vs') (b b' : Block) : Drawn (.block b :: vs) (.block b' :: vs') := by
  refine cons ?_ h
  intro d hd
  cases mem_singleton.1 hd

theorem decl (h : Drawn vs vs') (hd : d.Same d') :
    Drawn (.enter d :: (vs ++ [.leave d])) (.enter d' :: (vs' ++ [.leave d'])) := by
  refine cons ?_ (append h ?_)
  · intro e he
    cases mem_singleton.1 he
    exact ⟨d, mem_singleton_self _, hd⟩
  · intro e he
    cases mem_singleton.1 he

theorem mono (h : Drawn vs vs') (hs : ws' ⊆ vs') : Drawn vs ws' := fun d hd => h d (hs hd)

end Drawn

structure Kept (r : (M : Type) → Machine M → M → Completion × M) (vs : List Visit)
    (r' : (M : Type) → Machine M → M → Completion × M) (vs' : List Visit) : Prop where
  exec : ∀ {M S : Type} {I : Machine M} {scope : M → S}, I.Scoped scope → ∀ m, r' M I m = r M I m
  settled : Settled vs'
  drawn : Drawn vs vs'

def KeptStmt (s s' : Stmt) : Prop :=
  Kept (fun _ I => s.exec I) s.visits (fun _ I => s'.exec I) s'.visits ∧
    (s'.isDecl = true → s.isDecl = true)

def KeptBlock (b b' : Block) : Prop := Kept (fun _ I => b.exec I) b.visits (fun _ I => b'.exec I)
    b'.visits

def KeptStmts (ss ss' : List Stmt) : Prop :=
  Kept (fun _ I => Stmt.execs I ss) (Stmt.allVisits ss) (fun _ I => Stmt.execs I ss')
    (Stmt.allVisits ss')

structure KeptCases (cs cs' : List Case) : Prop where
  labels : cs'.map Case.label = cs.map Case.label
  exec : ∀ i, Kept (fun _ I => Case.exec I i cs) (Case.visits cs) (fun _ I => Case.exec I i cs')
    (Case.visits cs')

structure KeptDecl (d d' : Decl) : Prop where
  same : d.Same d'
  settled : Settled d'.visits
  drawn : Drawn d.visits d'.visits

structure KeptDecls (ds ds' : List Decl) : Prop where
  same : List.Forall₂ Decl.Same ds ds'
  settled : Settled (Decl.allVisits ds')
  drawn : Drawn (Decl.allVisits ds) (Decl.allVisits ds')

structure StmtTo (s : Stmt) (ss : List Stmt) : Prop where
  kept : KeptStmts [s] ss
  length : ss.length ≤ 1
  decl : ∀ s' ∈ ss, s'.isDecl = true → s.isDecl = true

structure Inner (s s' : Stmt) : Prop where
  exec : ∀ {M S : Type} {I : Machine M} {scope : M → S}, I.Scoped scope →
    ∀ m, s'.exec I m = s.exec I m
  plain : (Visit.stmt s').branchesPlain = true
  settled : Settled s'.visits.tail
  drawn : Drawn s.visits s'.visits
  decl : s'.isDecl = s.isDecl

theorem allVisits_singleton (s : Stmt) : Stmt.allVisits [s] = s.visits := append_nil _

theorem visits_eq_cons (s : Stmt) : s.visits = .stmt s :: s.visits.tail := by
  cases s with
  | ifThen t c a b => cases b <;> rfl
  | _ => rfl

structure Comes (s : Stmt) (ss : List Stmt) : Prop where
  settled : Settled (Stmt.allVisits ss)
  subset : Stmt.allVisits ss ⊆ s.visits
  length : ss.length ≤ 1
  decl : ∀ s' ∈ ss, s'.isDecl = true → s.isDecl = true

theorem comes_nil (s : Stmt) : Comes s [] :=
  ⟨settled_nil, nil_subset _, Nat.zero_le _, forall_mem_nil _⟩

theorem comes_singleton (hs : Settled s'.visits) (hsub : s'.visits ⊆ s.visits)
    (hd : s'.isDecl = true → s.isDecl = true) : Comes s [s'] :=
  ⟨(allVisits_singleton s').symm ▸ hs, (allVisits_singleton s').symm ▸ hsub, le_rfl,
    fun _ hx => mem_singleton.1 hx ▸ hd⟩

theorem comes_branch (hplain : (Visit.stmt s).branchesPlain = true)
    (hs : Settled s.visits.tail) : Comes s ((branch s).map (·.get s)) := by
  have hself (hsettled : (Visit.stmt s).settled = true) : Comes s [s] :=
    comes_singleton (visits_eq_cons s ▸ settled_cons.2 ⟨⟨hplain, hsettled⟩, hs⟩) (fun _ hv => hv) id
  have hpart {a : Stmt} (hsub : a.visits ⊆ s.visits.tail) (hd : a.isDecl = false) :
      Comes s [a] := by
    refine comes_singleton (fun v hv => hs v (hsub hv)) (fun v hv => ?_)
      (fun h => by rw [hd] at h; cases h)
    exact mem_of_mem_tail (hsub hv)
  have hbranches : ∀ {t c a b}, s = .ifThen t c a b → a.isDecl = false ∧
      ∀ s ∈ b, s.isDecl = false := by
    rintro t c a b rfl
    simpa [Visit.branchesPlain, Option.all_eq_true] using hplain
  fun_cases branch s with
  | case1 t u a b =>
    refine hpart ?_ (hbranches rfl).1
    cases b with
    | none => exact subset_append_right ..
    | some b => exact fun v hv => mem_append_left _ (mem_append_right _ hv)
  | case2 t u a b =>
    cases b with
    | none => exact comes_nil _
    | some b => exact hpart (subset_append_right ..) ((hbranches rfl).2 b rfl)
  | case3 => exact comes_nil _
  | case4 t c a b ht hf hempty =>
    refine hself ?_
    cases c with
    | bool u v =>
      cases v with
      | true => exact absurd rfl (ht u)
      | false => exact absurd rfl (hf u)
    | _ =>
      rw [Bool.not_eq_true, Bool.and_eq_false_iff, Bool.not_eq_false'] at hempty
      simp only [Visit.settled, Bool.or_eq_true, Bool.not_eq_true']
      exact hempty.symm
  | case5 s ht hf hif =>
    refine hself ?_
    cases s with
    | ifThen t c a b => exact absurd rfl (hif t c a b)
    | _ => rfl

theorem Inner.stmtTo (h : Inner s s') : StmtTo s ((branch s').map (·.get s')) := by
  obtain ⟨hsettled, hsub, hlen, hdecl⟩ := comes_branch h.plain h.settled
  refine ⟨⟨fun hI m => ?_, hsettled, ?_⟩, hlen, fun x hx hd => h.decl ▸ hdecl x hx hd⟩
  · rw [execs_branch hI, h.exec hI, Stmt.execs_singleton]
  · rw [allVisits_singleton]
    exact h.drawn.mono hsub

/-! The edit. -/

def Runs {α : Type} (x : Editing Unit α) (Q : α → Prop) : Prop := ∀ n, Q (x () n).1.1

namespace Runs

variable {α β : Type} {x : Editing Unit α} {P : α → Prop} {Q : β → Prop}

theorem pure (h : P a) : Runs (Pure.pure a) P := fun _ => h

theorem bind (hx : Runs x P) (hf : ∀ a, P a → Runs (f a) Q) :
    Runs (x >>= f) Q := by
  intro n
  rw [Supply.stateT_bind_apply]
  exact hf _ (hx n) _

end Runs

variable {k : Continuation Unit}

theorem plainExprs : editor.PlainExprs := ⟨fun _ => rfl, fun _ => rfl⟩

theorem runs_around
    (h : Runs x fun xs => ∃ e, xs = [e] ∧ Inner s (e.get s)) :
    Runs (editor.aroundStmt k false s x) fun xs => StmtTo s (xs.map (·.get s)) := by
  rw [Editor.aroundStmt_descend rfl]
  refine h.bind ?_
  rintro _ ⟨e, rfl, hin⟩ n
  have hget (y : Edit Stmt) : (e.andThen y).get s = y.get (e.get s) := Edit.get_andThen s e y
  have hto := hin.stmtTo
  simpa [Editor.leaveEach_singleton, editor, Function.comp_def, hget] using hto

theorem inner_leaf (hplain : (Visit.stmt s).branchesPlain = true) (hs : Settled s.visits.tail) :
    Inner s s := ⟨fun _ _ => rfl, hplain, hs, .refl _, rfl⟩

theorem runs_single (h : StmtTo s (xs.map (·.get s))) :
    Runs (Editor.single xs s) fun x => KeptStmt s (x.get s) := by
  obtain ⟨⟨hexec, hsettled, hdrawn⟩, hlen, hdecl⟩ := h
  obtain _ | ⟨x, _ | ⟨y, xs⟩⟩ := xs
  · -- the new empty statement stands for one that came to nothing
    intro n
    refine ⟨⟨fun hI m => ?_, ?_, ?_⟩, fun h => absurd h Bool.false_ne_true⟩
    · exact (hexec hI m).trans (Stmt.execs_singleton ..)
    · exact settled_cons.2 ⟨⟨rfl, rfl⟩, settled_nil⟩
    · intro d hd
      cases mem_singleton.1 hd
  · refine .pure ⟨⟨fun hI m => ?_, ?_, ?_⟩, hdecl _ (mem_singleton_self _)⟩
    · rw [← Stmt.execs_singleton, ← Stmt.execs_singleton]
      exact hexec hI m
    · rw [← allVisits_singleton]
      exact hsettled
    · rw [← allVisits_singleton, ← allVisits_singleton]
      exact hdrawn
  · simp at hlen

theorem runs_leaveBlock (b : Block) :
    Runs (editor.leaveBlock b) fun y => y.get b = b.withStmts (flatten b.stmts) := by
  intro n
  obtain ⟨i, ss⟩ := b
  have hleave : editor.leaveBlock (.mk i ss) = if ss.any dissolves then
    pure (.put (Block.mk i (flatten ss))) else pure .keep := rfl
  rw [hleave]
  split
  · rfl
  · rename_i hnone
    exact congrArg (Block.mk i) (flatten_eq_self (by simpa using hnone)).symm

theorem KeptStmts.block (h : KeptStmts ss ss') (i : NodeId) :
    KeptBlock (.mk i ss) (.mk i (flatten ss')) where
  exec hI m := by
    simp only [Block.exec, execs_flatten hI h.settled.declsInBlocks, h.exec hI]
  settled := by
    refine settled_cons.2 ⟨⟨rfl, ?_⟩, fun v hv => h.settled v (flatten_subset _ hv)⟩
    rw [Visit.settled, Block.stmts, any_flatten h.settled]
    rfl
  drawn := (h.drawn.mono (flatten_subset _)).block _ _

theorem KeptBlock.same {b' : Block} (h : KeptBlock b b') : b.Same b' :=
  fun _ _ _ _ hI m => ⟨h.exec hI m, fun calls => h.exec hI.recording (m, calls)⟩

theorem keptDecl_refl (h : Settled d.visits) : KeptDecl d d := ⟨.refl d, h, .refl _⟩

theorem settled_decl (h : Settled vs) :
    Settled (.enter d :: (vs ++ [.leave d])) :=
  settled_cons.2 ⟨⟨rfl, rfl⟩, settled_append.2 ⟨h, settled_cons.2 ⟨⟨rfl, rfl⟩, settled_nil⟩⟩⟩

theorem settled_keys (ks : List Key) : Settled (ks.flatMap Key.visits) := by
  intro v hv
  obtain ⟨key, -, hv⟩ := mem_flatMap.1 hv
  rcases mem_cons.1 hv with rfl | hv
  · exact ⟨rfl, rfl⟩
  · exact settled_exprs _ v hv

theorem runs_declared (h : KeptDecl d (x.get d)) :
    Runs (Editor.declared t d [x]) fun xs => ∃ e, xs = [e] ∧
      Inner (.decl t d) (e.get (.decl t d)) := by
  have hin : Inner (.decl t d) (.decl t (x.get d)) := by
    refine ⟨fun hI m => ?_, rfl, h.settled, h.drawn.stmt _ _, rfl⟩
    simp only [Stmt.exec, ← hI.declare_bare (x.get d), h.same.bare, hI.declare_bare]
  cases x with
  | keep | put d' => exact .pure ⟨_, rfl, hin⟩

theorem runs_aroundDecl (h : Runs (editor.declParts k d) fun x => KeptDecl d (x.get d)) :
    Runs (editor.visitDecl k false d) fun xs => ∃ x, xs = [x] ∧ KeptDecl d (x.get d) := by
  rw [Editor.visitDecl_eq, Editor.aroundDecl_descend rfl]
  refine h.bind fun x hx => .pure ⟨x, ?_, hx⟩
  simp

mutual
theorem runs_stmt : (s : Stmt) → DeclsInBlocks s.visits →
    Runs (editor.visitStmt k false s) fun xs => StmtTo s (xs.map (·.get s))
  | .block t b, hd => runs_around <| (runs_block b hd.tail).bind fun x hx => .pure ⟨_, rfl, by
    rw [Edit.get_map]
    exact ⟨hx.exec, rfl, hx.settled, hx.drawn.stmt _ _, rfl⟩⟩
  | .assign t l r, _ => runs_around <| by
    simp only [plainExprs.visitExpr, pure_bind, Edit.map₂_keep]
    exact .pure ⟨_, rfl, inner_leaf rfl (settled_append.2 ⟨settled_exprs _, settled_exprs _⟩)⟩
  | .call t e, _ => runs_around <| by
    simp only [plainExprs.visitExpr, pure_bind, Edit.map_keep]
    exact .pure ⟨_, rfl, inner_leaf rfl (settled_exprs _)⟩
  | .ifThen t c a none, hd => runs_around <| by
    simp only [plainExprs.visitExpr, pure_bind]
    refine (runs_stmt a hd.tail.append.2).bind fun xs hxs => (runs_single hxs).bind
      fun x hx => .pure ⟨_, rfl, ?_⟩
    obtain ⟨⟨hexec, hsettled, hdrawn⟩, hdecl⟩ := hx
    rw [Edit.get_map₂ (Stmt.ifThen t · · none) c a]
    have hplain : (x.get a).isDecl = false := by
      rw [hd.branches.1] at hdecl
      simpa using hdecl
    refine ⟨fun hI m => by simp only [Stmt.exec, Edit.get_keep, hexec hI], ?_,
      settled_append.2 ⟨settled_exprs _, hsettled⟩, ((Drawn.refl _).append hdrawn).stmt _ _, rfl⟩
    simp [Visit.branchesPlain, hplain]
  | .ifThen t c a (some b), hd => runs_around <| by
    simp only [plainExprs.visitExpr, pure_bind]
    refine (runs_stmt a hd.tail.append.1.append.2).bind fun xs hxs => (runs_single hxs).bind
      fun x hx => ?_
    refine (runs_stmt b hd.tail.append.2).bind fun ys hys => (runs_single hys).bind
      fun y hy => .pure ⟨_, rfl, ?_⟩
    obtain ⟨⟨hexec, hsettled, hdrawn⟩, hdecl⟩ := hx
    obtain ⟨⟨hexec', hsettled', hdrawn'⟩, hdecl'⟩ := hy
    rw [Editor.get_ifElse]
    have hplain : (x.get a).isDecl = false ∧ (y.get b).isDecl = false := by
      rw [hd.branches.1] at hdecl
      rw [hd.branches.2 b rfl] at hdecl'
      exact ⟨by simpa using hdecl, by simpa using hdecl'⟩
    refine ⟨fun hI m => by simp only [Stmt.exec, Edit.get_keep, hexec hI, hexec' hI], ?_,
      settled_append.2 ⟨settled_append.2 ⟨settled_exprs _, hsettled⟩, hsettled'⟩,
      (((Drawn.refl _).append hdrawn).append hdrawn').stmt _ _, rfl⟩
    simp [Visit.branchesPlain, hplain]
  | .switch t e cs, hd => runs_around <| by
    simp only [plainExprs.visitExpr, pure_bind]
    refine (runs_cases cs hd.tail.append.2).bind fun x hx => .pure ⟨_, rfl, ?_⟩
    rw [Edit.get_map₂ (Stmt.switch t)]
    refine ⟨fun hI m => ?_, rfl, settled_append.2 ⟨settled_exprs _, (hx.exec 0).settled⟩,
      ((Drawn.refl _).append (hx.exec 0).drawn).stmt _ _, rfl⟩
    simp only [Stmt.exec, hx.labels, (hx.exec _).exec hI, Edit.get_keep]
  | .decl t d, hd => runs_around <| (runs_decl d hd.tail).bind <| by
    rintro _ ⟨x, rfl, hx⟩
    exact runs_declared hx
  | .ret t e, _ => runs_around <| by
    simp only [plainExprs.visitExpr?, pure_bind, Edit.map_keep]
    exact .pure ⟨_, rfl, inner_leaf rfl (settled_expr? e)⟩
  | .exit t, _ | .empty t, _ => runs_around <| .pure ⟨_, rfl, inner_leaf rfl settled_nil⟩
theorem runs_block : (b : Block) → DeclsInBlocks b.visits →
    Runs (editor.visitBlock k b) fun x => KeptBlock b (x.get b)
  | .mk i ss, hd => by
    refine (runs_stmts ss hd.tail).bind fun x hx => (runs_leaveBlock _).bind fun y hy => .pure ?_
    rw [Edit.get_andThen, hy, Edit.get_map]
    exact hx.block i
theorem runs_stmts : (ss : List Stmt) → DeclsInBlocks (Stmt.allVisits ss) →
    Runs (editor.visitStmts k ss) fun x => KeptStmts ss (x.get ss)
  | [], _ => .pure ⟨fun _ _ => rfl, settled_nil, .refl _⟩
  | s :: ss, hd => by
    refine (runs_stmt s hd.append.1).bind fun xs hxs => (runs_stmts ss hd.append.2).bind
      fun y hy => .pure ?_
    have hget : ((Splice.toEdit s xs).map₂ (· ++ ·) [s] ss y).get (s :: ss) = xs.map (·.get s) ++
        y.get ss := by
      rw [← Splice.get_toEdit]
      exact Edit.get_map₂ (· ++ ·) [s] ss _ _
    rw [hget]
    have hs := hxs.kept
    refine ⟨fun hI m => ?_, ?_, ?_⟩
    · rw [Stmt.execs_append, hs.exec hI, Stmt.execs_singleton, Stmt.execs_cons, ← funext
        (hy.exec hI)]
    · rw [Stmt.allVisits_append]
      exact settled_append.2 ⟨hs.settled, hy.settled⟩
    · rw [Stmt.allVisits_append, Stmt.allVisits, ← allVisits_singleton s]
      exact hs.drawn.append hy.drawn
theorem runs_cases : (cs : List Case) → DeclsInBlocks (Case.visits cs) →
    Runs (editor.visitCases k cs) fun x => KeptCases cs (x.get cs)
  | [], _ => .pure ⟨rfl, fun _ => ⟨fun _ _ => rfl, settled_nil, .refl _⟩⟩
  | .run l b :: cs, hd => by
    refine (runs_block b hd.append.1).bind fun x hx => (runs_cases cs hd.append.2).bind
      fun y hy => .pure ?_
    rw [Edit.get_map₂ (· :: ·), Edit.get_map]
    refine ⟨congrArg (l :: ·) hy.labels, fun i => ⟨fun hI m => ?_,
      settled_append.2 ⟨hx.settled, (hy.exec 0).settled⟩, hx.drawn.append (hy.exec 0).drawn⟩⟩
    cases i with
    | zero => exact hx.exec hI m
    | succ i => exact (hy.exec i).exec hI m
  | .fallThrough l :: cs, hd => by
    refine (runs_cases cs hd).bind fun y hy => .pure ?_
    rw [Edit.get_map (Case.fallThrough l :: ·)]
    refine ⟨congrArg (l :: ·) hy.labels, fun i =>
      ⟨fun hI m => ?_, (hy.exec 0).settled, (hy.exec 0).drawn⟩⟩
    simp only [Case.exec]
    exact (hy.exec (i - 1)).exec hI m
theorem runs_decl : (d : Decl) → DeclsInBlocks d.visits →
    Runs (editor.visitDecl k false d) fun xs => ∃ x, xs = [x] ∧ KeptDecl d (x.get d)
  | .action h ps b, hd => runs_aroundDecl <| by
    refine (runs_block b hd.tail.append.1).bind fun x hx => .pure ?_
    rw [Edit.get_map]
    have hsame := Decl.Same.action h ps hx.same
    exact ⟨hsame, settled_decl hx.settled, hx.drawn.decl hsame⟩
  | .control h tps ps cps ls b, hd => runs_aroundDecl <| by
    refine (runs_decls ls hd.tail.append.1.append.1).bind fun x hx => ?_
    refine (runs_block b hd.tail.append.1.append.2).bind fun y hy => .pure ?_
    rw [Edit.get_map₂ (Decl.control h tps ps cps)]
    have hsame := Decl.Same.control h tps ps cps hx.same hy.same
    exact ⟨hsame, settled_decl (settled_append.2 ⟨hx.settled, hy.settled⟩),
      (hx.drawn.append hy.drawn).decl hsame⟩
  | .table h ks as d, _ => runs_aroundDecl <| by
    simp only [Editor.declParts, plainExprs.visitKeys fun _ => rfl, plainExprs.visitExprs,
      plainExprs.visitExpr?, pure_bind, Edit.map₂_keep]
    exact .pure (keptDecl_refl (settled_decl (settled_append.2 ⟨settled_append.2
      ⟨settled_keys ks, settled_exprs _⟩, settled_expr? d⟩)))
  | .inst h t as, _ => runs_aroundDecl <| by
    simp only [Editor.declParts, plainExprs.visitExprs, pure_bind, Edit.map_keep]
    exact .pure (keptDecl_refl (settled_decl (settled_exprs _)))
  | .var h t e, _ => runs_aroundDecl <| by
    simp only [Editor.declParts, plainExprs.visitExpr?, pure_bind, Edit.map_keep]
    exact .pure (keptDecl_refl (settled_decl (settled_expr? e)))
  | .const h t e, _ => runs_aroundDecl <| by
    simp only [Editor.declParts, plainExprs.visitExpr, pure_bind, Edit.map_keep]
    exact .pure (keptDecl_refl (settled_decl (settled_exprs _)))
  | .header .., _ | .struct .., _ | .externType .., _ | .externFn .., _ | .package .., _ =>
    runs_aroundDecl <| .pure (keptDecl_refl (@settled_decl _ [] settled_nil))
theorem runs_decls : (ds : List Decl) → DeclsInBlocks (Decl.allVisits ds) →
    Runs (editor.visitDecls k ds) fun x => KeptDecls ds (x.get ds)
  | [], _ => .pure ⟨.nil, settled_nil, .refl _⟩
  | d :: ds, hd => by
    refine (runs_decl d hd.append.1).bind ?_
    rintro _ ⟨x, rfl, hx⟩
    refine (runs_decls ds hd.append.2).bind fun y hy => .pure ?_
    have hget : ((Splice.toEdit d [x]).map₂ (· ++ ·) [d] ds y).get (d :: ds) = x.get d ::
        y.get ds := by
      refine (Edit.get_map₂ (· ++ ·) [d] ds _ _).trans ?_
      rw [Splice.get_toEdit]
      rfl
    rw [hget]
    exact ⟨.cons hx.same hy.same, settled_append.2 ⟨hx.settled, hy.settled⟩,
      hx.drawn.append hy.drawn⟩
end

theorem aroundStmt_keep (hs : (Visit.stmt s).settled = true)
    (hx : x = pure [.keep]) : editor.aroundStmt k false s x = pure [.keep] := by
  have hleave : editor.leaveStmt s = pure [.keep] := congrArg pure (branch_of_settled hs)
  rw [Editor.aroundStmt_descend rfl, hx, pure_bind, Editor.leaveEach_singleton,
    Edit.get_keep, hleave]
  rfl

theorem visitDecl_keep (h : editor.declParts k d = pure .keep) :
    editor.visitDecl k false d = pure [.keep] := by
  rw [Editor.visitDecl_eq, Editor.aroundDecl_descend rfl, h]
  rfl

theorem leaveBlock_keep (h : (Visit.block b).settled = true) :
    editor.leaveBlock b = pure .keep := by
  have hleave : editor.leaveBlock b = if b.stmts.any dissolves then
    pure (.put (b.withStmts (flatten b.stmts))) else pure .keep := rfl
  rw [hleave, if_neg (by simpa [Visit.settled] using h)]

mutual
theorem stmt_keep : (s : Stmt) → Settled s.visits → editor.visitStmt k false s = pure [.keep]
  | .block t b, h => aroundStmt_keep rfl (by rw [block_keep b (settled_cons.1 h).2]; rfl)
  | .assign t l r, _ =>
    aroundStmt_keep rfl (by rw [plainExprs.visitExpr, plainExprs.visitExpr]; rfl)
  | .call t e, _ => aroundStmt_keep rfl (by rw [plainExprs.visitExpr]; rfl)
  | .ifThen t c a none, h => by
    obtain ⟨⟨-, hs⟩, hparts⟩ := settled_cons.1 h
    refine aroundStmt_keep hs ?_
    rw [plainExprs.visitExpr, stmt_keep a (settled_append.1 hparts).2]
    rfl
  | .ifThen t c a (some b), h => by
    obtain ⟨⟨-, hs⟩, hparts⟩ := settled_cons.1 h
    obtain ⟨hca, hb⟩ := settled_append.1 hparts
    refine aroundStmt_keep hs ?_
    rw [plainExprs.visitExpr, stmt_keep a (settled_append.1 hca).2, stmt_keep b hb]
    rfl
  | .switch t e cs, h => aroundStmt_keep rfl (by
    rw [plainExprs.visitExpr, cases_keep cs (settled_append.1 (settled_cons.1 h).2).2]
    rfl)
  | .decl t d, h => aroundStmt_keep rfl (by rw [decl_keep d (settled_cons.1 h).2]; rfl)
  | .ret t e, _ => aroundStmt_keep rfl (by rw [plainExprs.visitExpr?]; rfl)
  | .exit t, _ | .empty t, _ => rfl
theorem block_keep : (b : Block) → Settled b.visits → editor.visitBlock k b = pure .keep
  | .mk i ss, h => by
    obtain ⟨⟨-, hb⟩, hss⟩ := settled_cons.1 h
    simp [Editor.visitBlock, stmts_keep ss hss, leaveBlock_keep hb]
theorem stmts_keep : (ss : List Stmt) → Settled (Stmt.allVisits ss) →
    editor.visitStmts k ss = pure .keep
  | [], _ => rfl
  | s :: ss, h => by
    obtain ⟨hs, hss⟩ := settled_append.1 h
    rw [Editor.visitStmts, stmt_keep s hs, stmts_keep ss hss]
    rfl
theorem cases_keep : (cs : List Case) → Settled (Case.visits cs) →
    editor.visitCases k cs = pure .keep
  | [], _ => rfl
  | .run l b :: cs, h => by
    obtain ⟨hb, hcs⟩ := settled_append.1 h
    rw [Editor.visitCases, block_keep b hb, cases_keep cs hcs]
    rfl
  | .fallThrough l :: cs, h => by
    rw [Editor.visitCases, cases_keep cs h]
    rfl
theorem decl_keep : (d : Decl) → Settled d.visits → editor.visitDecl k false d = pure [.keep]
  | .action h ps b, hd => visitDecl_keep (by
    rw [Editor.declParts, block_keep b (settled_append.1 (settled_cons.1 hd).2).1]
    rfl)
  | .control h tps ps cps ls b, hd => visitDecl_keep (by
    obtain ⟨hls, hb⟩ := settled_append.1 (settled_append.1 (settled_cons.1 hd).2).1
    rw [Editor.declParts, decls_keep ls hls, block_keep b hb]
    rfl)
  | .table h ks as d, _ => visitDecl_keep (by
    rw [Editor.declParts, plainExprs.visitKeys fun _ => rfl, plainExprs.visitExprs,
      plainExprs.visitExpr?]
    rfl)
  | .inst h t as, _ => visitDecl_keep (by rw [Editor.declParts, plainExprs.visitExprs]; rfl)
  | .var h t e, _ => visitDecl_keep (by rw [Editor.declParts, plainExprs.visitExpr?]; rfl)
  | .const h t e, _ => visitDecl_keep (by rw [Editor.declParts, plainExprs.visitExpr]; rfl)
  | .header .., _ | .struct .., _ | .externType .., _ | .externFn .., _ | .package .., _ => rfl
theorem decls_keep : (ds : List Decl) → Settled (Decl.allVisits ds) →
    editor.visitDecls k ds = pure .keep
  | [], _ => rfl
  | d :: ds, h => by
    obtain ⟨hd, hds⟩ := settled_append.1 h
    rw [Editor.visitDecls, decl_keep d hd, decls_keep ds hds]
    rfl
end

end Flow

namespace Program

/-- Simplified bodies run the same: from the same state to the same state, with the same completion
and the same calls, on every machine on which conditions without calls have no effect. What is left
is settled, and a second round returns the program as it is. -/
theorem simplifyFlow_spec {p : Program} (hp : DeclsInBlocks p.visits) (n : Nat) :
    let q := (p.simplifyFlow n).1.get p
    List.Forall₂ Decl.Same p.decls q.decls ∧
      (∀ d', .enter d' ∈ q.visits → ∃ d, .enter d ∈ p.visits ∧ d.Same d') ∧
      (∀ v ∈ q.visits, v.settled = true) ∧ ∀ n', q.simplifyFlow n' = (.keep, n') := by
  have hkept := Flow.runs_decls (k := Editor.stop) p.decls hp n
  have hq : ((p.simplifyFlow n).1.get p) =
      ⟨(Flow.editor.visitDecls Editor.stop p.decls () n).1.1.get p.decls⟩ :=
        Edit.get_map Program.mk p.decls _
  intro q
  obtain ⟨hsame, hsettled, hdrawn⟩ := hkept
  simp only [q, hq]
  refine ⟨hsame, hdrawn, fun v hv => (hsettled v hv).2, fun n' => ?_⟩
  have hstays := Flow.decls_keep (k := Editor.stop) _ hsettled
  simp [simplifyFlow, Editor.program, Editor.decls, hstays]

def counting : Interp Nat where
  assign _ _ m := m + 1
  call _ m := (false, m + 1)
  declare _ m := m
  test
    | .bool _ b, m => (b, m)
    | _, m => (false, m)
  select _ _ m := (none, m)

def callF : Stmt := .call ⟨⟨10⟩, none⟩ (.call ⟨⟨11⟩, none⟩ (.path ⟨⟨12⟩, none⟩ "f") [] [])

def blocks : Block := .mk ⟨1⟩
  [.ifThen ⟨⟨2⟩, none⟩ (.bool ⟨⟨3⟩, none⟩ true) (.block ⟨⟨4⟩, none⟩ (.mk ⟨5⟩ [.empty ⟨⟨6⟩, none⟩]))
    (some (.ret ⟨⟨7⟩, none⟩ none)), .block ⟨⟨8⟩, none⟩ (.mk ⟨9⟩ [callF])]

theorem blocks_simplified : DeclsInBlocks (Program.mk [.action ⟨⟨0⟩, "a", none⟩ [] blocks]).visits ∧
    ∀ m, (Block.mk ⟨1⟩ [callF]).exec counting.flat m = blocks.exec counting.flat m := by
  have hp : DeclsInBlocks (Program.mk [.action ⟨⟨0⟩, "a", none⟩ [] blocks]).visits := by decide
  have hflat : counting.flat.Scoped fun _ => () := by
    refine Machine.scoped_flat (fun _ _ _ => rfl) (fun c m _ => ?_) fun _ _ => rfl
    cases c <;> rfl
  have hsame : List.Forall₂ Decl.Same [.action ⟨⟨0⟩, "a", none⟩ [] blocks]
      [.action ⟨⟨0⟩, "a", none⟩ [] (.mk ⟨1⟩ [callF])] := (simplifyFlow_spec hp 13).1
  refine ⟨hp, fun m => ?_⟩
  cases hsame with
  | cons hd _ =>
    cases hd with
    | action _ _ body => exact (body _ _ _ _ hflat m).1

end Program

end MatchAction
