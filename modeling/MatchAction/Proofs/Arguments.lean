import MatchAction.Proofs.ActionInlining
import MatchAction.Proofs.Bodies
import MatchAction.Proofs.Classification
import MatchAction.Proofs.Effects
import MatchAction.Proofs.Equality
import MatchAction.Proofs.Toplevel

/-!
Arguments of inlined calls. What takes the place of a call evaluates the arguments, runs the body
and writes the results back, also where the body is left by `exit`. The arguments that results go
to are written out again for that, so calls and indices in them are evaluated anew; where they are
fixed parts of variables, every argument is evaluated once and denotes throughout what it denoted
at the call.
-/

namespace MatchAction

open List

/-! What is done before the body, and after it. -/

section

variable {S : Type} {front co : List Stmt} {b : Block} {ρ ρ₁ : Env} {n n₁ : Nat}
    {es fs : List Effect}
  {P : Env → Prop}

theorem execs_around (hfront : Stmt.Does front ρ n es ρ₁ n₁)
    (hco : ∀ ρ' n', P ρ' → Stmt.Does co ρ' n' fs ρ' n') (hP : P ρ₁) (hret : b.hasReturn = false)
    (I : Ops S) (htame : ∀ a ∈ b.atoms, Tame I (fun _ => none) P a) (k : Nat) (st : S) :
    let q := Stmt.execs (I.machine fun _ => none) b.stmts ⟨ρ₁, n₁, Effect.runs I es st⟩
    Stmt.execs (I.machine fun _ => none) (front ++ (copyOutBeforeExit co b k).1.stmts ++ co)
      ⟨ρ, n, st⟩ = (q.1, { q.2 with state := Effect.runs I fs q.2.state }) := by
  have hback : ∀ m : Config S, P m.env → Stmt.execs (I.machine fun _ => none) co m =
      (.normal, { m with state := Effect.runs I fs m.state }) := fun m hm =>
    hco m.env m.next hm S I m.state
  have henv := env_execs htame (m := ⟨ρ₁, n₁, Effect.runs I es st⟩) hP
  have hne : (Stmt.execs (I.machine fun _ => none) b.stmts ⟨ρ₁, n₁, Effect.runs I es st⟩).1 ≠
      .returned := by
    obtain ⟨i, ss⟩ := b
    exact Stmt.execs_ne_returned (I.machine fun _ => none) ss hret _
  rw [Stmt.execs_append, Stmt.execs_append, hfront S I st, Completion.normal_andThen,
    execs_copyOutBeforeExit hback htame k hP]
  exact ActionInlining.andThen_writeBack hne (hback _ henv)

theorem effects_around (hfront : Stmt.Does front ρ n es ρ₁ n₁)
    (hco : ∀ ρ' n', P ρ' → Stmt.Does co ρ' n' fs ρ' n') (hP : P ρ₁) (hret : b.hasReturn = false)
    (htame : ∀ (S : Type) (I : Ops S), ∀ a ∈ b.atoms, Tame I (fun _ => none) P a)
    (k : Nat) (I : Ops S)
    (st : S) :
    Stmt.effects I (front ++ (copyOutBeforeExit co b k).1.stmts ++ co) ⟨ρ, n, st⟩ =
      es ++ Stmt.effects I b.stmts ⟨ρ₁, n₁, Effect.runs I es st⟩ ++ fs := by
  have hrun := execs_around hfront hco hP hret I.recorded (htame _ _) k (st, [])
  have hbody := Stmt.execs_recorded I b.stmts ⟨ρ₁, n₁, Effect.runs I es st⟩ es
  rw [Effect.runs_recorded, nil_append] at hrun
  rw [Config.map] at hbody
  rw [hbody] at hrun
  rw [Stmt.effects, Config.map, hrun, Effect.runs_recorded]
  rfl

end

/-! The parts of what takes the place of a call. Parameters come with their variables' names. -/

def outputs (ps : List (Param × String)) (args : List Expr) : List ((Param × String) × Expr) :=
  (ps.zip args).filter fun x => x.1.1.direction.copiesOut

def Effect.writes (ρ : Env) (ps : List (Param × String)) (args : List Expr) : List Effect :=
  (outputs ps args).map fun x => .assign (x.2.term ρ) ((ρ x.1.2).getD .unbound)

def Effect.reads (ρ : Env) (ps : List (Param × String)) (args : List Expr) : List Effect :=
  ((ps.zip args).filter fun x => x.1.1.direction.copiesIn).map fun x =>
    .assign ((ρ x.1.2).getD .unbound) (x.2.term ρ)

def Effect.makes (ρ : Env) : List (Param × String) → List Expr → Nat → List Effect
  | (p, _) :: ps, a :: as, k =>
    .create k p.type (if p.direction.copiesIn then [a.term ρ] else []) :: makes ρ ps as (k + 1)
  | _, _, _ => []

def Env.locations (ρ : Env) : List String → Nat → Env
  | [], _ => ρ
  | x :: xs, k => (ρ.set x (.loc k)).locations xs (k + 1)

section

variable {ρ : Env} {ps : List (Param × String)} {args : List Expr}

theorem Env.locations_of_not_mem (h : x ∉ xs) (ρ : Env) (k : Nat) :
    ρ.locations xs k x = ρ x := by
  induction xs generalizing ρ k with
  | nil => rfl
  | cons y xs ih =>
    rw [mem_cons, not_or] at h
    exact (ih h.2 _ _).trans (Env.set_of_ne ρ h.1 _)

theorem Env.located_locations (h : x ∈ xs) (ρ : Env) (k : Nat) :
    (ρ.locations xs k).Located x := by
  induction xs generalizing ρ k with
  | nil => cases h
  | cons y xs ih =>
    by_cases hx : x ∈ xs
    · exact ih hx _ _
    · obtain rfl : x = y := (mem_cons.1 h).resolve_right hx
      exact ⟨k, (Env.locations_of_not_mem hx _ _).trans (Env.set_self ρ x _)⟩

theorem does_copyOuts (ps : List (Param × String)) (args : List Expr) (k : Nat)
    (ρ : Env) (n : Nat) : Stmt.Does (copyOuts ps args k).1 ρ n (Effect.writes ρ ps args) ρ n := by
  intro S I st
  induction ps generalizing args k st with
  | nil => rfl
  | cons x ps ih =>
    obtain ⟨p, name⟩ := x
    cases args with
    | nil => rfl
    | cons a args =>
      cases hp : p.direction.copiesOut with
      | false =>
        simp only [copyOuts, hp, Bool.false_eq_true, if_false, Effect.writes, outputs,
          zip_cons_cons, filter_cons]
        exact ih args k st
      | true =>
        simp only [copyOuts, hp, if_true, Supply.bind_apply, Supply.pure_apply,
          Stmt.execs_cons, Stmt.exec,
          Ops.machine_assign, Completion.normal_andThen, Expr.term_copy, Expr.term,
            Effect.writes, outputs,
          zip_cons_cons, filter_cons, map_cons, Effect.runs_cons]
        exact ih args _ _

theorem does_copyIns (ps : List (Param × String)) (args : List Expr) (k : Nat) (ρ : Env) (n : Nat) :
    Stmt.Does (ControlInlining.copyIns ps args k).1 ρ n (Effect.reads ρ ps args) ρ n := by
  intro S I st
  induction ps generalizing args k st with
  | nil => rfl
  | cons x ps ih =>
    obtain ⟨p, name⟩ := x
    cases args with
    | nil => rfl
    | cons a args =>
      cases hp : p.direction.copiesIn with
      | false =>
        simp only [ControlInlining.copyIns, hp, Bool.false_eq_true, if_false, Effect.reads,
          zip_cons_cons, filter_cons]
        exact ih args k st
      | true =>
        simp only [ControlInlining.copyIns, hp, if_true, Supply.bind_apply, Supply.pure_apply,
          Stmt.execs_cons, Stmt.exec, Ops.machine_assign, Completion.normal_andThen, Expr.term,
            Effect.reads,
          zip_cons_cons, filter_cons, map_cons, Effect.runs_cons]
        exact ih args _ _

theorem passes_eq {S : Type} (I : Ops S) (hlen : args.length = ps.length) {m : Config S} :
    m.passes I ps (Expr.terms ρ args) = ⟨m.env.locations (ps.map (·.2)) m.next, m.next + ps.length,
      Effect.runs I (Effect.makes ρ ps args m.next) m.state⟩ := by
  induction ps generalizing args m with
  | nil => rfl
  | cons x ps ih =>
    obtain ⟨p, name⟩ := x
    cases args with
    | nil => cases hlen
    | cons a args =>
      have hrest := ih (Nat.succ.inj hlen) (m := m.pass I p name (a.term ρ))
      rw [Expr.terms, Config.passes, hrest]
      simp only [Config.pass, Config.bind, map_cons, Env.locations, length_cons, Effect.makes,
        Effect.runs_cons, Effect.run, Nat.add_assoc, Nat.add_comm 1]

theorem does_paramDecls (hlen : args.length = ps.length)
    (h : ∀ x ∈ ps.map (·.2), ∀ t, .path t x ∉ Expr.walks args) (k : Nat) (ρ : Env) (n : Nat) :
    Stmt.Does (ActionInlining.paramDecls ps args k).1 ρ n (Effect.makes ρ ps args n)
      (ρ.locations (ps.map (·.2)) n) (n + ps.length) := by
  intro S I st
  rw [ActionInlining.execs_paramDecls I (fun _ => none) h, passes_eq I hlen]

theorem Direction.copiesOut_of_copiesIn {d : Direction} (h : d.copiesIn = false) :
    d.copiesOut = true := by
  cases d with
  | output => rfl
  | _ => cases h

theorem calls_assign (l r : Term) : (Effect.assign l r).calls = l.calls ++ r.calls := by
  rw [Effect.calls, Effect.terms, Term.allCalls, Term.allCalls, Term.allCalls, append_nil]

theorem Env.Located.calls (h : ρ.Located x) : ((ρ x).getD .unbound).calls = [] := by
  obtain ⟨k, hk⟩ := h
  rw [hk, Option.getD_some, Term.calls]

theorem outputs_subset_cons : outputs ps args ⊆ outputs (x :: ps) (a :: args) :=
  filter_subset _ (subset_cons_self _ _)

theorem calls_makes (hlen : args.length = ps.length) (hsteady : ∀ x ∈ outputs ps args, x.2.Steady ρ)
    (k : Nat) : (Effect.makes ρ ps args k).flatMap Effect.calls = Term.allCalls
      (Expr.terms ρ args) := by
  induction ps generalizing args k with
  | nil =>
    rw [length_eq_zero_iff.1 hlen]
    rfl
  | cons x ps ih =>
    obtain ⟨p, name⟩ := x
    cases args with
    | nil => cases hlen
    | cons a args =>
      have hrest := ih (Nat.succ.inj hlen) (fun x hx => hsteady x (outputs_subset_cons hx)) (k + 1)
      rw [Effect.makes, flatMap_cons, hrest, Expr.terms, Term.allCalls]
      congr 1
      cases hp : p.direction.copiesIn with
      | true => simp [Effect.calls, Effect.terms, Term.allCalls]
      | false =>
        have ha : a.Steady ρ := hsteady ((p, name), a) (by
          simp [outputs, Direction.copiesOut_of_copiesIn hp])
        rw [ha.calls_eq_nil]
        rfl

theorem calls_reads (hlen : args.length = ps.length) (hsteady : ∀ x ∈ outputs ps args, x.2.Steady ρ)
    (hps : ∀ x ∈ ps, ρ.Located x.2) :
    (Effect.reads ρ ps args).flatMap Effect.calls = Term.allCalls (Expr.terms ρ args) := by
  induction ps generalizing args with
  | nil =>
    rw [length_eq_zero_iff.1 hlen]
    rfl
  | cons x ps ih =>
    obtain ⟨p, name⟩ := x
    cases args with
    | nil => cases hlen
    | cons a args =>
      have hrest := ih (Nat.succ.inj hlen) (fun x hx => hsteady x (outputs_subset_cons hx))
        fun x hx => hps x (.tail _ hx)
      rw [Expr.terms, Term.allCalls, ← hrest]
      cases hp : p.direction.copiesIn with
      | true =>
        simp only [Effect.reads, zip_cons_cons, filter_cons, hp, if_true, map_cons,
          flatMap_cons, calls_assign, (hps _ (.head _)).calls, nil_append]
      | false =>
        have ha : a.Steady ρ := hsteady ((p, name), a) (by
          simp [outputs, Direction.copiesOut_of_copiesIn hp])
        simp [Effect.reads, hp, ha.calls_eq_nil]

def Undisturbed (ps : List (Param × String)) (args : List Expr) (ρ ρ' : Env) : Prop :=
  ∀ x, (x ∈ ps.map (·.2) ∨ ∃ t, .path t x ∈ Expr.walks args) → ρ' x = ρ x

theorem Undisturbed.writes (h : Undisturbed ps args ρ ρ') :
    Effect.writes ρ' ps args = Effect.writes ρ ps args := by
  refine map_congr_left fun x hx => ?_
  obtain ⟨hps, hargs⟩ := of_mem_zip (mem_filter.1 hx).1
  have hterm : x.2.term ρ' = x.2.term ρ := x.2.term_congr fun t n hn =>
    h n (.inr ⟨t, Expr.walk_subset_walks hargs hn⟩)
  rw [hterm, h _ (.inl (mem_map_of_mem hps))]

theorem tame_renamed {r : Renaming} {c : Checked} {b : Block} (hret : b.hasReturn = false)
    (h : ∀ d ∈ b.declared, r.newName (.decl d) ∉ ps.map (·.2) ∧
      ∀ t, .path t (r.newName (.decl d)) ∉ Expr.walks args) (k : Nat) {S : Type} (I : Ops S) :
    ∀ a ∈ (r.visitedBlock c k b).atoms, Tame I (fun _ => none) (Undisturbed ps args ρ) a := by
  refine ActionInlining.tame_visitedBlock I hret (fun d hd ρ' hρ t x hx => ?_) k
  have hne : x ≠ r.newName (.decl d) := by
    rintro rfl
    rcases hx with hx | ⟨t, hx⟩
    · exact (h d hd).1 hx
    · exact (h d hd).2 t hx
  exact (Env.set_of_ne ρ' hne t).trans (hρ x hx)

end

/-- The statements `ss` have taken the place of a call with the arguments `args` of something that
does `body`. Every argument is evaluated once, before the body; and however the body ends, the
results are written to what the arguments denoted at the call. -/
structure EvaluatesOnce {S : Type} (I : Ops S) (ps : List (Param × String)) (args : List Expr)
    (body ss : List Stmt) (m : Config S) (before after : List Effect) (m₁ : Config S) : Prop where
  effects : Stmt.effects I ss m = before ++ Stmt.effects I body m₁ ++ after
  start : m₁.state = Effect.runs I before m.state
  completes : (Stmt.execs (I.machine fun _ => none) ss m).1 =
    (Stmt.execs (I.machine fun _ => none) body m₁).1
  calls : before.flatMap Effect.calls = Term.allCalls (Expr.terms m.env args)
  noCalls : after.flatMap Effect.calls = []
  writes : after = (outputs ps args).map fun x =>
    .assign (x.2.term m.env) ((m₁.env x.1.2).getD .unbound)
  located : ∀ x ∈ ps, m₁.env.Located x.2
  denotes : ∀ x ∈ outputs ps args, ∀ (L V : Type) (D : Denotation S L V) (st : S),
    D.locate st (x.2.term m.env) = D.locate m.state (x.2.term m.env)

theorem evaluatesOnce {ps : List (Param × String)} {args : List Expr} {front : List Stmt}
    {b : Block} {ρ ρ₁ : Env} {n n₁ : Nat} {es : List Effect} (hfront : Stmt.Does front ρ n es ρ₁ n₁)
    (hkept : ∀ t x, .path t x ∈ Expr.walks args → ρ₁ x = ρ x) (hlocated : ∀ x ∈ ps, ρ₁.Located x.2)
    (hret : b.hasReturn = false)
    (htame : ∀ (S : Type) (I : Ops S), ∀ a ∈ b.atoms, Tame I (fun _ => none)
      (Undisturbed ps args ρ₁) a)
    (hcalls : es.flatMap Effect.calls = Term.allCalls (Expr.terms ρ args))
    (hsteady : ∀ x ∈ outputs ps args, x.2.Steady ρ) (k k₁ k₂ : Nat) {S : Type}
    (I : Ops S) (st : S) :
    EvaluatesOnce I ps args b.stmts
      (front ++ (copyOutBeforeExit (copyOuts ps args k).1 (b.copy k₁).1
      k₂).1.stmts ++ (copyOuts ps args k).1) ⟨ρ, n, st⟩ es (Effect.writes ρ₁ ps args)
      ⟨ρ₁, n₁, Effect.runs I es st⟩ := by
  have hterm : ∀ x ∈ outputs ps args, x.2.term ρ₁ = x.2.term ρ := fun x hx =>
    x.2.term_congr fun t y hy => hkept t y
      (Expr.walk_subset_walks (of_mem_zip (mem_filter.1 hx).1).2 hy)
  have hco : ∀ ρ' n', Undisturbed ps args ρ₁ ρ' →
      Stmt.Does (copyOuts ps args k).1 ρ' n' (Effect.writes ρ₁ ps args) ρ' n' := fun ρ' n' h =>
    h.writes ▸ does_copyOuts ps args k ρ' n'
  have htame' : ∀ (S : Type) (I : Ops S), ∀ a ∈ (b.copy k₁).1.atoms,
      Tame I (fun _ => none) (Undisturbed ps args ρ₁) a := fun S I => tame_copy (htame S I) k₁
  have hret' : (b.copy k₁).1.hasReturn = false := (b.hasReturn_copy k₁).trans hret
  have hrun := execs_around hfront hco (fun _ _ => rfl) hret' I (htame' S I) k₂ st
  have heffects := effects_around hfront hco (fun _ _ => rfl) hret' htame' k₂ I st
  have hcopy : Stmt.effects I (b.copy k₁).1.stmts ⟨ρ₁, n₁, Effect.runs I es st⟩ =
      Stmt.effects I b.stmts ⟨ρ₁, n₁, Effect.runs I es st⟩ := by
    rw [Stmt.effects, Stmt.effects, Block.execs_copy]
  refine ⟨?_, rfl, ?_, hcalls, ?_, ?_, hlocated, fun x hx L V D st' =>
    (hsteady x hx).locate_eq D st' st⟩
  · rw [heffects, hcopy]
  · rw [hrun, Block.execs_copy]
  · refine flatMap_eq_nil_iff.2 fun e he => ?_
    obtain ⟨x, hx, rfl⟩ := mem_map.1 he
    have hps := (of_mem_zip (mem_filter.1 hx).1).1
    rw [calls_assign, hterm x hx, (hsteady x hx).calls_eq_nil, (hlocated _ hps).calls]
    rfl
  · exact map_congr_left fun x hx => by rw [hterm x hx]

theorem Check.arity_apply (t : Tag) (i : NodeId) (hty : ty = .decl (.control h tps ps cps ls b) as)
    (k : Option Nat) (c : Checker) :
    ∃ sig, (member t i ty "apply" k c).1 = .method sig ∧ sig.arity = ps.length :=
  hty ▸ ⟨_, rfl, length_paramTypes ps c⟩

namespace Program

variable {p : Program}

theorem path_mem_used (herr : p.check.errors = [])
    (h : .expr (.path t x) ∈ p.visits) : x ∈ (Names.ofProgram p).used := by
  obtain ⟨sc, hpl⟩ := exists_place h
  obtain ⟨r, hr⟩ := Option.isSome_iff_exists.1 (fine_of_errors herr _ hpl)
  obtain ⟨rfl, hmem⟩ := lookup_of_place hpl hr
  rw [names_referents]
  exact mem_map_of_mem hmem

theorem apply_of_receiver (hids : p.NodesApart) (herr : p.check.errors = [])
    (hs : .stmt (.call t (.call t₁ (.member t₂ r "apply") ts args)) ∈ p.visits)
    (href : p.check.refs.get? r.id = some x)
    (htype : p.check.types.get? r.id = some (.decl (.control h tps ps cps ls b) tys)) :
    args.length = ps.length ∧
      Call.kind? p.check.refs p.check.types (.call t₁ (.member t₂ r "apply") ts args) =
        some (.apply x (.control h tps ps cps ls b)) := by
  obtain ⟨sc, hpl⟩ := exists_place hs
  obtain ⟨c₀, c₁, hby⟩ := exists_checkedBy hids hpl rfl
  have hready := hby.ready.tail
  have herrors := hby.errors herr
  have htypes := hby.types
  have hclear := hby.clear
  cases hby.step with
  | invoked =>
    have hsub : (Expr.member t₂ r "apply").visits ⊆
        (Stmt.call t (.call t₁ (.member t₂ r "apply") ts args)).visits := by
      rw [Stmt.visits, Expr.visits_call]
      exact subset_cons_of_subset _ (subset_cons_of_subset _ (subset_append_left _ _))
    have hmem : r.id ∈ nodeIds (Expr.member t₂ r "apply").visits := .tail _ r.id_mem_visits
    have hbase : (Check.expr r c₀).1 = .decl (.control h tps ps cps ls b) tys := by
      have hread := htypes r.id (nodeIds_subset hsub hmem)
      rw [Check.frame_callee hready hclear hmem, htype] at hread
      have hparts := Expr.visits_call t₁ (.member t₂ r "apply") ts args ▸ hready
      have hget := Check.get?_receiver hparts.tail.left hclear (some args.length)
      exact Option.some.inj (hget.symm.trans hread.symm)
    obtain ⟨sig, hcallee, harity⟩ : ∃ sig, (Check.callee args.length (.member t₂ r "apply") c₀).1 =
        .method sig ∧ sig.arity = ps.length := by
      exact Check.arity_apply t₂ r.id hbase (some args.length) (Check.expr r c₀).2
    have hne : (Check.callee args.length (.member t₂ r "apply") c₀).1 ≠ .error := fun he => by
      cases hcallee.symm.trans he
    obtain ⟨hmethod, has⟩ := Check.get?_call hready hclear
    rw [hcallee, ← htypes _ (nodeIds_subset hsub (Expr.id_mem_visits _))] at hmethod
    rw [Check.expr_call] at herrors
    obtain ⟨sig', hsig', harity', -⟩ := Check.method_of_call has hne herrors
    cases hcallee.symm.trans hsig'
    refine ⟨harity'.symm.trans harity, ?_⟩
    simp only [Call.kind?, Call.classify, Call.signature?_of_method hmethod, Call.calleeKind,
      Call.memberKind, htype, Call.object, href]
    rfl

end Program

/-- What results are written to is a fixed part of a variable. -/
def SteadyOutputs (ps : List Param) (args : List Expr) (ρ : Env) : Prop :=
  ∀ x ∈ ps.zip args, x.1.direction.copiesOut = true → x.2.Steady ρ

section

variable {p : Program} {ns : Names} {own : List Referent} {r₀ r : Renaming} {ps : List Param}
  {b : Block} {args : List Expr}

theorem SteadyOutputs.renamed (h : SteadyOutputs ps args ρ) (r : Renaming) :
    ∀ x ∈ outputs (renamedParams r ps) args, x.2.Steady ρ := by
  intro x hx
  obtain ⟨hzip, hout⟩ := mem_filter.1 hx
  rw [renamedParams_eq, zip_map_left] at hzip
  obtain ⟨y, hy, rfl⟩ := mem_map.1 hzip
  exact h y hy hout

theorem Renaming.Fresh.params_apart (h : Fresh ns (own.map fun x => (x.id, x.name)) r₀ r)
    (hps : ∀ q ∈ ps, .param q ∈ own) (hargs : ∀ t x, .path t x ∈ Expr.walks args → x ∈ ns.used) :
    ∀ x ∈ (renamedParams r ps).map (·.2), ∀ t, .path t x ∉ Expr.walks args := by
  rw [map_snd_renamedParams]
  intro x hx t ht
  obtain ⟨y, hy, rfl⟩ := mem_map.1 hx
  obtain ⟨q, hq, rfl⟩ := mem_map.1 hy
  exact (h.newName_of_mem (hps q hq)).2 (hargs t _ ht)

theorem Renaming.Fresh.declared_apart (h : Fresh ns (own.map fun x => (x.id, x.name)) r₀ r)
    (hids : p.NodesApart) (hown : own ⊆ p.referents) (hps : ∀ q ∈ ps, .param q ∈ own)
    (hb : ∀ d ∈ b.declared, .decl d ∈ own)
    (hargs : ∀ t x, .path t x ∈ Expr.walks args → x ∈ ns.used) :
    ∀ d ∈ b.declared, r.newName (.decl d) ∉ (renamedParams r ps).map (·.2) ∧
      ∀ t, .path t (r.newName (.decl d)) ∉ Expr.walks args := by
  intro d hd
  refine ⟨fun hmem => ?_, fun t ht => (h.newName_of_mem (hb d hd)).2 (hargs t _ ht)⟩
  rw [map_snd_renamedParams] at hmem
  obtain ⟨y, hy, he⟩ := mem_map.1 hmem
  obtain ⟨q, hq, rfl⟩ := mem_map.1 hy
  have hid := h.id_eq (hps q hq) (hb d hd) he
  cases Program.eq_decl_of_id hids (hown (hps q hq)) (Program.mem_allDecls_of_referent
    (hown (hb d hd))) hid

end

namespace ActionInlining

variable {p : Program} {ns : Names} {h : Head} {ps : List Param} {b : Block} {t t₁ t₂ : Tag}
    {f : String}
  {ts : List TypeExpr} {args : List Expr}

theorem splice_evaluatesOnce (hids : p.NodesApart) (herr : p.check.errors = [])
    (hcall : .stmt (.call t (.call t₁ (.path t₂ f) ts args)) ∈ p.visits)
    (haction : p.check.refs.get? t₂.id = some (.decl (.action h ps b))) (hret : b.hasReturn = false)
    (hns : (Names.ofProgram p).used ⊆ ns.used) (span : Option Span) (k : Nat) :
    ∃ r k' t' i ss, (splice p.check span args ps b ns k).1.1 = .block t' (.mk i ss) ∧
      Renaming.Fresh ns ((renewedBy ps b).map fun x => (x.id, x.name)) .empty r ∧
      ∀ (S : Type) (I : Ops S) (m : Config S), SteadyOutputs ps args m.env → ∃ before after m₁,
        EvaluatesOnce I (renamedParams r ps) args (r.visitedBlock p.check k' b).stmts ss m before
          after m₁ := by
  obtain ⟨hlen, hmem, hused⟩ := args_of_call hids herr hcall haction
  obtain ⟨r, k₁, k₂, k₃, k₄, k₅, t', i, hr, hs⟩ := splice_eq p.check span args ps b ns k
  have hvisit : .enter (.action h ps b) ∈ p.visits := by
    rcases Program.mem_referents hmem with ⟨d, hd, he⟩ | ⟨_, _, _, _, he⟩
    · cases he
      exact Program.mem_allDecls.1 hd
    · cases he
  have hfresh : Renaming.Fresh ns ((renewedBy ps b).map fun x => (x.id, x.name)) .empty r :=
    hr ▸ fresh_renameFresh _ _ _ _ _
  have hps : ∀ q ∈ ps, .param q ∈ renewedBy ps b := fun q hq =>
    mem_append_left _ (mem_map_of_mem hq)
  have hdeclared : ∀ d ∈ b.declared, .decl d ∈ renewedBy ps b := fun d hd =>
    mem_append_right _ (mem_map_of_mem hd)
  have hargs : ∀ t x, .path t x ∈ Expr.walks args → x ∈ ns.used := fun t x hx => hns (hused t x hx)
  have hapart := hfresh.params_apart hps hargs
  have hlen' : args.length = (renamedParams r ps).length := hlen.trans (length_map _).symm
  refine ⟨r, k₃, t', i, _, hs, hfresh, fun S I m hsteady => ?_⟩
  have hsteady := hsteady.renamed r
  have hbody := hfresh.declared_apart hids (renewedBy_subset hvisit) hps hdeclared hargs
  exact ⟨_, _, _, evaluatesOnce (does_paramDecls hlen' hapart k₁ m.env m.next)
    (fun t x hx => Env.locations_of_not_mem (fun hmem => hapart x hmem t hx) _ _)
    (fun x hx => Env.located_locations (mem_map_of_mem hx) _ _)
    ((r.hasReturn_block _ _ b k₃).trans hret) (fun S I => tame_renamed hret hbody k₃ I)
    (calls_makes hlen' hsteady m.next) hsteady k₂ k₄ k₅ I m.state⟩

theorem leaveStmt_of_site (hids : p.NodesApart) (herr : p.check.errors = [])
    (hcall : .stmt (.call t (.call t₁ (.path t₂ f) ts args)) ∈ p.visits)
    (haction : p.check.refs.get? t₂.id = some (.decl (.action h ps b))) (hret : b.hasReturn = false)
    (hsite : (sites.find? (·.site == t.id)).map (·.callee) = some h.id) (k : Nat) :
    ((splicer p.check p caller sites).leaveStmt (.call t (.call t₁ (.path t₂ f) ts args)) ns
      k).1.1 = [.put (splice p.check t.span args ps b ns k).1.1] := by
  obtain ⟨hlen, hmem, -⟩ := args_of_call hids herr hcall haction
  obtain ⟨e, he, hcallee⟩ := Option.map_eq_some_iff.1 hsite
  have hfound : (sites.find? (·.site == t.id)).bind (fun e => p.declOf? e.callee) =
      some (.action h ps b) := by
    rw [he, Option.bind_some, hcallee]
    exact Program.declOf?_of_mem hids hmem
  have hspliceable : spliceable (.call t (.call t₁ (.path t₂ f) ts args)) (.action h ps b) =
      true := by
    simp [spliceable, hlen, hret]
  simp only [splicer, Stmt.id, Stmt.tag, hfound, hspliceable, if_true]
  rfl

end ActionInlining

namespace ControlInlining

variable {p : Program} {ns : Names} {style : InlineStyle} {h : Head} {tps : List String}
  {ps cps : List Param} {ls : List Decl} {b : Block} {q : Prepared}

def renewed (ps : List Param) (ls : List Decl) (b : Block) : List Referent :=
  ps.map .param ++ (ls ++ b.declared).map .decl

theorem renewed_subset (hd : .enter (.control h tps ps cps ls b) ∈ p.visits) :
    renewed ps ls b ⊆ p.referents := by
  intro x hx
  rcases mem_append.1 hx with hx | hx
  · obtain ⟨q, hq, rfl⟩ := mem_map.1 hx
    exact Program.referents_subset hd (by simp [Decl.referents, Decl.params, hq])
  · obtain ⟨d, hmem, rfl⟩ := mem_map.1 hx
    have hbelow := Program.visits_subset_of_enter hd
    refine Program.referents_subset ?_ d.self_mem_referents
    rcases mem_append.1 hmem with hl | hdecl
    · exact hbelow (by simp [Decl.visits, Decl.mem_allVisits.2 ⟨d, hl, d.enter_mem_visits⟩])
    · obtain ⟨t, ht⟩ := ActionInlining.mem_declared.1 hdecl
      have hin : .stmt (.decl t d) ∈ (Decl.control h tps ps cps ls b).visits := by
        simp [Decl.visits, ht]
      exact Program.enter_mem_visits (hbelow hin)

theorem exists_fresh_of_prepare
    (hq : (prepare style c inst cargs (.control h tps ps cps ls b) ns k).1.1 = some q) :
    b.hasReturn = false ∧ ∃ r k', q.params = renamedParams r ps ∧ q.body = r.visitedBlock c k' b ∧
      Renaming.Fresh ns ((renewed ps ls b).map fun x => (x.id, x.name))
        (substitute cps cargs .empty) r := by
  have hlist : ps.map (fun p => (p.id, p.name)) ++ ls.map (fun d => (d.id, d.name)) ++
      b.declared.map (fun d => (d.id, d.name)) = (renewed ps ls b).map fun x => (x.id, x.name) := by
    rw [renewed, map_append, map_map, map_map, map_append, append_assoc]
    rfl
  cases hb : b.hasReturn with
  | true =>
    simp only [prepare, hb] at hq
    cases hq
  | false =>
    refine ⟨rfl, ?_⟩
    simp only [prepare, hb, hlist] at hq
    have hfresh := fresh_renameFresh (style.localName inst.name)
      ((renewed ps ls b).map fun x => (x.id, x.name)) (substitute cps cargs .empty) ns k
    cases hq
    exact ⟨_, _, rfl, rfl, hfresh⟩

variable {t t₁ t₂ : Tag} {e : Expr} {ts : List TypeExpr} {args : List Expr}

theorem splice_evaluatesOnce (hids : p.NodesApart) (herr : p.check.errors = [])
    (hcall : .stmt (.call t (.call t₁ (.member t₂ e "apply") ts args)) ∈ p.visits)
    (hlen : args.length = ps.length) (hvisit : .enter (.control h tps ps cps ls b) ∈ p.visits)
    (hns : (Names.ofProgram p).used ⊆ ns.used) {inst : Head} {cargs : List Expr} {k₀ : Nat}
    (hq : (prepare style p.check inst cargs (.control h tps ps cps ls b) ns k₀).1.1 = some q)
    (span : Option Span) (k : Nat) :
    ∃ t' i ss, (splice q span args k).1 = .block t' (.mk i ss) ∧
      ∀ (S : Type) (I : Ops S) (m : Config S), (∀ x ∈ q.params, m.env.Located x.2) →
        SteadyOutputs ps args m.env → ∃ before after m₁,
          EvaluatesOnce I q.params args q.body.stmts ss m before after m₁ := by
  obtain ⟨hret, r, k', hparams, hbody, hfresh⟩ := exists_fresh_of_prepare hq
  have hps : ∀ q ∈ ps, .param q ∈ renewed ps ls b := fun q hq =>
    mem_append_left _ (mem_map_of_mem hq)
  have hdeclared : ∀ d ∈ b.declared, .decl d ∈ renewed ps ls b := fun d hd =>
    mem_append_right _ (mem_map_of_mem (mem_append_right _ hd))
  have hargs : ∀ t x, .path t x ∈ Expr.walks args → x ∈ ns.used := fun t x hx => by
    obtain ⟨sc, hpl⟩ := Program.exists_place hcall
    have hwalk : .path t x ∈ (Expr.call t₁ (.member t₂ e "apply") ts args).walk := by
      simp [Expr.walk, hx]
    exact hns (Program.path_mem_used herr (Program.mem_visits (p.closed_places _ hpl
      (.tail _ (mem_map_of_mem (mem_map_of_mem hwalk))))))
  have hlen' : args.length = q.params.length := by
    rw [hparams, hlen]
    exact (length_map _).symm
  have happart := hfresh.declared_apart hids (renewed_subset hvisit) hps hdeclared hargs
  refine ⟨_, _, _, rfl, fun S I m hlocated hsteady => ?_⟩
  have hsteady : ∀ x ∈ outputs q.params args, x.2.Steady m.env := hparams ▸ hsteady.renamed r
  have htame : ∀ (S : Type) (I : Ops S), ∀ a ∈ q.body.atoms,
      Tame I (fun _ => none) (Undisturbed q.params args m.env) a := by
    rw [hparams, hbody]
    exact fun S I => tame_renamed hret happart k' I
  exact ⟨_, _, _, evaluatesOnce (does_copyIns q.params args _ m.env m.next)
    (fun _ _ _ => rfl) hlocated (by rw [hbody]; exact (r.hasReturn_block _ _ b k').trans hret) htame
    (calls_reads hlen' hsteady hlocated) hsteady _ _ _ I m.state⟩

end ControlInlining

namespace Inlining

/-- Inlining evaluates each argument once, where results go to fixed parts of variables. The block
in the place of a call of an action, or of an application of an instance, makes the calls in the
arguments first, each once; then it does what the renamed body does; and at last, also if the body
leaves by `exit`, it writes the results to what the arguments denoted at the call. -/
theorem arguments_evaluated_once {p : Program} {ns : Names} (hids : p.NodesApart)
    (herr : p.check.errors = []) (hns : (Names.ofProgram p).used ⊆ ns.used) (k : Nat) :
    (∀ {t t₁ t₂ f ts args h ps b} (caller : NodeId) {sites : List InlineEdge},
      .stmt (.call t (.call t₁ (.path t₂ f) ts args)) ∈ p.visits →
      p.check.refs.get? t₂.id = some (.decl (.action h ps b)) → b.hasReturn = false →
      (sites.find? (·.site == t.id)).map (·.callee) = some h.id →
      ∃ r k' t' i ss, ((ActionInlining.splicer p.check p caller sites).leaveStmt
          (.call t (.call t₁ (.path t₂ f) ts args)) ns k).1.1 = [.put (.block t' (.mk i ss))] ∧
        Renaming.Fresh ns ((ActionInlining.renewedBy ps b).map fun x => (x.id, x.name)) .empty r ∧
        ∀ (S : Type) (I : Ops S) (m : Config S), SteadyOutputs ps args m.env → ∃ before after m₁,
          EvaluatesOnce I (renamedParams r ps) args (r.visitedBlock p.check k' b).stmts ss m
            before after m₁) ∧
    ∀ {t t₁ t₂ e ts args inst h tps ps cps ls b tys style q} {prepared} (cargs : List Expr)
      (k₀ : Nat),
      .stmt (.call t (.call t₁ (.member t₂ e "apply") ts args)) ∈ p.visits →
      p.check.refs.get? e.id = some (.decl inst) →
      p.check.types.get? e.id = some (.decl (.control h tps ps cps ls b) tys) →
      (ControlInlining.prepare style p.check inst.head cargs (.control h tps ps cps ls b)
        ns k₀).1.1 = some q →
      prepared.lookup inst.id = some q →
      ∃ t' i ss, ((ControlInlining.splicer p.check prepared).leaveStmt
          (.call t (.call t₁ (.member t₂ e "apply") ts args)) () k).1.1 =
            [.put (.block t' (.mk i ss))] ∧
        ∀ (S : Type) (I : Ops S) (m : Config S), (∀ x ∈ q.params, m.env.Located x.2) →
          SteadyOutputs ps args m.env → ∃ before after m₁,
            EvaluatesOnce I q.params args q.body.stmts ss m before after m₁ := by
  constructor
  · intro t t₁ t₂ f ts args h ps b caller sites hcall haction hret hsite
    obtain ⟨r, k', t', i, ss, hs, hfresh, honce⟩ :=
      ActionInlining.splice_evaluatesOnce hids herr hcall haction hret hns t.span k
    refine ⟨r, k', t', i, ss, ?_, hfresh, honce⟩
    rw [ActionInlining.leaveStmt_of_site hids herr hcall haction hret hsite, hs]
  · intro t t₁ t₂ e ts args inst h tps ps cps ls b tys style q prepared cargs k₀ hcall href htype hq
      hlookup
    obtain ⟨hlen, hkind⟩ := Program.apply_of_receiver hids herr hcall href htype
    have hvisit : .enter (.control h tps ps cps ls b) ∈ p.visits :=
      Program.mem_allDecls.1 (p.made_types (E := True) (.inl trivial) htype).1
    obtain ⟨t', i, ss, hs, honce⟩ :=
      ControlInlining.splice_evaluatesOnce hids herr hcall hlen hvisit hns hq t.span k
    refine ⟨t', i, ss, ?_, honce⟩
    simp only [ControlInlining.splicer, hkind, hlookup, ← hs]
    rfl

def asked (i : Nat) : Expr := .call ⟨⟨i⟩, none⟩ (.path ⟨⟨i + 1⟩, none⟩ "f") [] []

def element (i : Nat) (index : Expr) : Expr :=
  .member ⟨⟨i⟩, none⟩ (.index ⟨⟨i + 1⟩, none⟩ (.path ⟨⟨i + 2⟩, none⟩ "h") index) "x"

def one (i : Nat) : Expr := .lit ⟨⟨i⟩, none⟩ 1 (.bits 8 false)

def stacked (more locals : List Decl) (ss : List Stmt) : Program := ⟨[
  .externFn ⟨⟨0⟩, "f", none⟩ ⟨.bits 8 false, "f", [], [], none⟩,
  .header ⟨⟨1⟩, "H", none⟩ [⟨.bits 8 false, "x"⟩]] ++ more ++
  [.control ⟨⟨2⟩, "c", none⟩ [] [⟨⟨3⟩, "h", .inout, .stack (.named "H") 3, none⟩] [] locals
    (.mk ⟨4⟩ ss)]⟩

def passing (i : Nat) : List Param :=
  [⟨⟨i⟩, "to", .inout, .bits 8 false, none⟩, ⟨⟨i + 1⟩, "from", .input, .bits 8 false, none⟩]

def leaving (i : Nat) : Block := .mk ⟨i⟩ [
  .assign ⟨⟨i + 1⟩, none⟩ (.path ⟨⟨i + 2⟩, none⟩ "to") (.path ⟨⟨i + 3⟩, none⟩ "from"),
    .exit ⟨⟨i + 4⟩, none⟩]

def called : Stmt := .call ⟨⟨30⟩, none⟩ (.call ⟨⟨31⟩, none⟩ (.path ⟨⟨32⟩, none⟩ "a") []
  [element 33 (one 36), asked 37])

def applied : Stmt := .call ⟨⟨40⟩, none⟩ (.call ⟨⟨41⟩, none⟩
  (.member ⟨⟨42⟩, none⟩ (.path ⟨⟨43⟩, none⟩ "d")
  "apply") [] [element 44 (one 47), asked 48])

def mover : Decl := .control ⟨⟨10⟩, "M", none⟩ [] (passing 11) [] [] (leaving 13)

def mounted : Decl := .inst ⟨⟨28⟩, "d", none⟩ (.named "M") []

def passed : Program := stacked [mover]
  [.action ⟨⟨20⟩, "a", none⟩ (passing 21) (leaving 23), mounted] [called, applied]

theorem steady_element (h : ρ.Located "h") (i j : Nat) : (element i (one j)).Steady ρ where
  fixed := rfl
  located t x hx := by
    obtain ⟨-, rfl⟩ : t = ⟨⟨i + 2⟩, none⟩ ∧ x = "h" := by simpa [element, one, Expr.walk] using hx
    exact h

theorem steady_passing (h : ρ.Located "h") (i j k l : Nat) :
    SteadyOutputs (passing i) [element j (one k), asked l] ρ := by
  intro x hx hout
  rcases mem_cons.1 hx with rfl | hx
  · exact steady_element h j k
  · obtain rfl := mem_singleton.1 hx
    cases hout

def places : Env := Env.locations (fun _ => none) ["h", "d_to", "d_from"] 0

theorem calls_passing (i j k : Nat) :
    Term.allCalls (Expr.terms places [element i (one j), asked k]) = [.call .unbound [] []] :=
  rfl

theorem passed_evaluated_once :
    (passed.NodesApart ∧ passed.check.errors = []) ∧
    (∃ r k t i ss, ((ActionInlining.splicer passed.check passed ⟨2⟩
        [⟨⟨2⟩, ⟨20⟩, ⟨30⟩⟩]).leaveStmt called
        (.ofProgram passed) 50).1.1 = [.put (.block t (.mk i ss))] ∧
      ∀ (S : Type) (I : Ops S) (st : S), ∃ before after m₁,
        EvaluatesOnce I (renamedParams r (passing 21))
        [element 33 (one 36), asked 37] (r.visitedBlock passed.check k (leaving 23)).stmts ss
        ⟨places, 3, st⟩ before after m₁ ∧ before.flatMap Effect.calls = [.call .unbound [] []]) ∧
    ∃ q t i ss, (ControlInlining.prepare .simple passed.check mounted.head [] mover
      (.ofProgram passed) 50).1.1 = some q ∧
      ((ControlInlining.splicer passed.check [(mounted.id, q)]).leaveStmt applied () 60).1.1 =
        [.put (.block t (.mk i ss))] ∧
      ∀ (S : Type) (I : Ops S) (st : S), ∃ before after m₁, EvaluatesOnce I q.params
        [element 44 (one 47), asked 48] q.body.stmts ss ⟨places, 3, st⟩ before after m₁ ∧
        before.flatMap Effect.calls = [.call .unbound [] []] := by
  have hids : passed.NodesApart := by decide
  have herr : passed.check.errors = [] := List.isEmpty_iff.1 (by decide +kernel)
  have hh : places.Located "h" := ⟨0, rfl⟩
  refine ⟨⟨hids, herr⟩, ?_, ?_⟩
  · have hcall : .stmt called ∈ passed.visits := List.mem_of_getElem? (i := 22) (by decide +kernel)
    unfold called at hcall ⊢
    have haction : passed.check.refs.get? ⟨32⟩ = some (.decl (.action ⟨⟨20⟩, "a", none⟩ (passing 21)
      (leaving 23))) := by decide +kernel
    have hsite : ([⟨⟨2⟩, ⟨20⟩, ⟨30⟩⟩].find? fun e : InlineEdge => e.site == ⟨30⟩).map (·.callee) =
      some ⟨20⟩ := rfl
    obtain ⟨r, k', t, i, ss, hs, -, honce⟩ := (arguments_evaluated_once hids herr
      (List.Subset.refl (Names.ofProgram passed).used) 50).1 ⟨2⟩ hcall haction rfl hsite
    refine ⟨r, k', t, i, ss, hs, fun S I st => ?_⟩
    obtain ⟨before, after, m₁, h⟩ := honce S I ⟨places, 3, st⟩ (steady_passing hh 21 33 36 37)
    exact ⟨before, after, m₁, h, h.calls.trans (calls_passing 33 36 37)⟩
  · have hcall : .stmt applied ∈ passed.visits := List.mem_of_getElem? (i := 31) (by decide +kernel)
    have href : passed.check.refs.get? ⟨43⟩ = some (.decl mounted) := by decide +kernel
    have htype : passed.check.types.get? ⟨43⟩ = some (.decl mover []) := by decide +kernel
    have hprepared : (ControlInlining.prepare .simple passed.check mounted.head [] mover
        (.ofProgram passed) 50).1.1.map (·.params.map (·.2)) =
          some ["d_to", "d_from"] := by decide +kernel
    obtain ⟨q, hq, hnames⟩ := Option.map_eq_some_iff.1 hprepared
    have hlookup : [(mounted.id, q)].lookup mounted.id = some q := rfl
    -- The theorem is about a control declared as such, not about the name `mover`.
    unfold applied mover at *
    obtain ⟨t, i, ss, hs, honce⟩ := (arguments_evaluated_once hids herr
      (List.Subset.refl (Names.ofProgram passed).used) 60).2 [] 50 hcall href htype hq hlookup
    refine ⟨q, t, i, ss, hq, hs, fun S I st => ?_⟩
    have hlocated : ∀ x ∈ q.params, places.Located x.2 := fun x hx => by
      have hx := List.mem_map_of_mem (f := Prod.snd) hx
      rw [hnames] at hx
      exact Env.located_locations (.tail _ hx) _ _
    obtain ⟨before, after, m₁, h⟩ := honce S I ⟨places, 3, st⟩ hlocated
      (steady_passing hh 11 44 47 48)
    exact ⟨before, after, m₁, h, h.calls.trans (calls_passing 44 47 48)⟩

def setter : Decl := .action ⟨⟨10⟩, "a", none⟩ [⟨⟨11⟩, "y", .inout, .bits 8 false, none⟩]
  (.mk ⟨12⟩ [.assign ⟨⟨13⟩, none⟩ (.path ⟨⟨14⟩, none⟩ "y") (one 15)])

def chosen : Stmt := .call ⟨⟨20⟩, none⟩ (.call ⟨⟨21⟩, none⟩ (.path ⟨⟨22⟩, none⟩ "a") []
  [element 23 (asked 26)])

def calledTwice : Program := stacked [] [setter] [chosen]

def idle : Ops Unit := ⟨fun _ _ _ => (), fun _ _ => (), fun _ _ _ _ => (), fun _ _ => (true, ()),
  fun _ _ _ => (none, ())⟩

def chosenInlined : List Stmt := [
  .decl ⟨⟨40⟩, none⟩ (.var ⟨⟨39⟩, "y_0", none⟩ (.bits 8 false) (some (element 23 (asked 26)))),
  .assign ⟨⟨29⟩, none⟩ (.path ⟨⟨30⟩, none⟩ "y_0") (one 31),
  .assign ⟨⟨38⟩, none⟩ (element 32 (asked 35)) (.path ⟨⟨37⟩, none⟩ "y_0")]

/-- A call in the index of an argument that is written to is made before the body and once more when
the result is written back. -/
theorem index_called_twice :
    calledTwice.ids.Nodup ∧ (Names.ofProgram calledTwice).used.Nodup ∧
      calledTwice.check.errors = [] ∧
    ∃ t i ss, ((ActionInlining.splicer calledTwice.check calledTwice ⟨2⟩
        [⟨⟨2⟩, ⟨10⟩, ⟨20⟩⟩]).leaveStmt chosen
        (.ofProgram calledTwice) 28).1.1 = [.put (.block t (.mk i ss))] ∧
      (Stmt.effects idle ss ⟨Env.set (fun _ => none) "h" (.loc 0), 1, ()⟩).flatMap Effect.calls =
        [.call .unbound [] [], .call .unbound [] []] :=
  ⟨by decide, by decide, List.isEmpty_iff.1 (by decide +kernel), ⟨⟨41⟩, none⟩, ⟨42⟩,
    chosenInlined, by decide +kernel, rfl⟩

end Inlining

end MatchAction
