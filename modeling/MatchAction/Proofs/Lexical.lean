import Mathlib.Algebra.Order.Group.Multiset
import Mathlib.Tactic.Abel
import MatchAction.Proofs.Resolution

namespace MatchAction

open List

abbrev Enclosing := List (List Referent)

def Enclosing.meaning (env : Enclosing) (n : String) : Option Referent :=
  env.findSome? fun frame => frame.find? (·.name == n)

abbrev Sight := Enclosing × Visit

def Enclosing.all (env : Enclosing) (vs : List Visit) : List Sight := vs.map fun v => (env, v)

def Stmt.declares : Stmt → List Referent
  | .decl _ d => [.decl d]
  | _ => []

mutual
def Stmt.sights (env : Enclosing) : Stmt → List Sight
  | .block t b => (env, .stmt (.block t b)) :: b.sights env
  | .assign t l r => (env, .stmt (.assign t l r)) :: env.all (l.visits ++ r.visits)
  | .call t e => (env, .stmt (.call t e)) :: env.all e.visits
  | .ifThen t c a none => (env, .stmt (.ifThen t c a none)) :: (env.all c.visits ++ a.sights env)
  | .ifThen t c a (some b) =>
    (env, .stmt (.ifThen t c a (some b))) :: (env.all c.visits ++ a.sights env ++ b.sights env)
  | .switch t e cs => (env, .stmt (.switch t e cs)) :: (env.all e.visits ++ Case.sights env cs)
  | .decl t d => (env, .stmt (.decl t d)) :: d.sights env
  | .ret t e => (env, .stmt (.ret t e)) :: env.all (Expr.visits? e)
  | .exit t => [(env, .stmt (.exit t))]
  | .empty t => [(env, .stmt (.empty t))]
def Block.sights (env : Enclosing) : Block → List Sight
  | .mk i ss => (env, .block (.mk i ss)) :: Stmt.allSights env [] ss
def Stmt.allSights (env : Enclosing) (frame : List Referent) : List Stmt → List Sight
  | [] => []
  | s :: ss => s.sights (frame :: env) ++ Stmt.allSights env (frame ++ s.declares) ss
def Case.sights (env : Enclosing) : List Case → List Sight
  | [] => []
  | .run _ b :: cs => b.sights env ++ Case.sights env cs
  | .fallThrough _ :: cs => Case.sights env cs
def Decl.sights (env : Enclosing) : Decl → List Sight
  | .action h ps (.mk i ss) =>
    (env, .enter (.action h ps (.mk i ss))) :: (env, .block (.mk i ss))
      :: (Stmt.allSights env (ps.map .param) ss ++ [(env, .leave (.action h ps (.mk i ss)))])
  | .table h ks as d =>
    (env, .enter (.table h ks as d))
      :: (env.all (ks.flatMap Key.visits ++ (Expr.walks as).map .expr ++ Expr.visits? d)
        ++ [(env, .leave (.table h ks as d))])
  | .control h tps ps cps ls b =>
    (env, .enter (.control h tps ps cps ls b))
      :: (Decl.allSights env ((cps ++ ps).map .param) ls
        ++ b.sights (((cps ++ ps).map .param ++ ls.map .decl) :: env)
        ++ [(env, .leave (.control h tps ps cps ls b))])
  | .inst h t as =>
    (env, .enter (.inst h t as))
      :: (env.all ((Expr.walks as).map .expr) ++ [(env, .leave (.inst h t as))])
  | .var h t e =>
    (env, .enter (.var h t e)) :: (env.all (Expr.visits? e) ++ [(env, .leave (.var h t e))])
  | .const h t e =>
    (env, .enter (.const h t e)) :: (env.all e.visits ++ [(env, .leave (.const h t e))])
  | d => [(env, .enter d), (env, .leave d)]
def Decl.allSights (env : Enclosing) (frame : List Referent) : List Decl → List Sight
  | [] => []
  | d :: ds => d.sights (frame :: env) ++ Decl.allSights env (frame ++ [.decl d]) ds
end

def Program.sights (p : Program) : List Sight := p.decls.flatMap (·.sights [p.decls.map .decl])

def Sight.unresolved? : Sight → Option TypeError
  | (env, .expr (.path t n)) =>
    if (env.meaning n).isSome then none else some ⟨.unresolvedName n, t.span⟩
  | _ => none

def Block.frame (b : Block) : List Referent := b.stmts.flatMap Stmt.declares

def Case.frames : List Case → List (List Referent)
  | [] => []
  | .run _ b :: cs => b.frame :: Case.frames cs
  | .fallThrough _ :: cs => Case.frames cs

def Visit.frames : Visit → List (List Referent)
  | .stmt (.block _ b) => [b.frame]
  | .stmt (.switch _ _ cs) => Case.frames cs
  | .enter (.action _ ps b) => [ps.map .param ++ b.frame]
  | .enter (.control _ _ ps cps ls b) => [(cps ++ ps).map .param ++ ls.map .decl, b.frame]
  | _ => []

def Program.frames (p : Program) : List (List Referent) :=
  p.decls.map .decl :: p.visits.flatMap Visit.frames

/-- The faults of a frame that has `seen` already and declares more: one for each name it has. -/
def clashesAfter (seen : List Referent) : List Referent → List TypeError
  | [] => []
  | r :: rs =>
    ((seen.find? (·.name == r.name)).map fun first =>
      ⟨.duplicate r.name first.span, r.span⟩).toList ++ clashesAfter (seen ++ [r]) rs

def clashes (frame : List Referent) : List TypeError := clashesAfter [] frame

def Sight.clashes (s : Sight) : List TypeError := s.2.frames.flatMap MatchAction.clashes

theorem clashesAfter_append (seen rs rs' : List Referent) :
    clashesAfter seen (rs ++ rs') = clashesAfter seen rs ++ clashesAfter (seen ++ rs) rs' := by
  induction rs generalizing seen with
  | nil => simp [clashesAfter]
  | cons r rs ih => simp [clashesAfter, ih]

def Visit.branchesPlain : Visit → Bool
  | .stmt (.ifThen _ _ a b) => !a.isDecl && b.all (!·.isDecl)
  | _ => true

def DeclsInBlocks (vs : List Visit) : Prop := ∀ v ∈ vs, v.branchesPlain

instance (vs : List Visit) : Decidable (DeclsInBlocks vs) :=
  inferInstanceAs (Decidable (∀ v ∈ vs, v.branchesPlain))

namespace DeclsInBlocks

variable {vs : List Visit}

theorem append (h : DeclsInBlocks (vs ++ ws)) :
    DeclsInBlocks vs ∧ DeclsInBlocks ws := forall_mem_append.1 h

theorem tail (h : DeclsInBlocks (v :: vs)) : DeclsInBlocks vs :=
  (forall_mem_cons.1 h).2

theorem branches
    (h : DeclsInBlocks (.stmt (.ifThen t c a b) :: vs)) :
    a.isDecl = false ∧ ∀ s ∈ b, s.isDecl = false := by
  simpa [Visit.branchesPlain, Option.all_eq_true] using (forall_mem_cons.1 h).1

end DeclsInBlocks

theorem Stmt.declares_eq_nil {s : Stmt} (h : s.isDecl = false) : s.declares = [] := by
  cases s <;> first
    | rfl
    | cases h

variable {sc : Scopes} {env : Enclosing} {frame : List Referent}

namespace Scopes

def Holds (f : Frame) (frame : List Referent) : Prop :=
  ∀ n, f.lookup n = frame.find? (·.name == n)

def Shows (sc : Scopes) (env : Enclosing) : Prop := List.Forall₂ Holds (sc.inner ++ [sc.top]) env

theorem Shows.lookup (h : sc.Shows env) (n : String) :
    sc.lookup n = env.meaning n := by
  have hall : sc.lookup n = (sc.inner ++ [sc.top]).findSome? (·.lookup n) := by
    simp [Scopes.lookup]
  rw [hall, Enclosing.meaning]
  unfold Shows at h
  generalize sc.inner ++ [sc.top] = fs at h
  induction h with
  | nil => rfl
  | cons hf _ ih => rw [findSome?_cons, findSome?_cons, hf n, ih]

theorem Shows.push (h : sc.Shows env) : sc.push.Shows ([] :: env) :=
  .cons (fun _ => rfl) h

theorem Shows.pop
    (h : sc.Shows (frame :: frame' :: env)) : sc.pop.Shows (frame' :: env) := by
  obtain ⟨inner, top, tps⟩ := sc
  cases inner with
  | nil =>
    obtain ⟨-, hnil⟩ := forall₂_cons.1 h
    cases hnil
  | cons f fs => exact (forall₂_cons.1 h).2

theorem Shows.innermost
    (h : sc.Shows (frame :: env)) : Holds sc.innermost frame := by
  obtain ⟨inner, top, tps⟩ := sc
  cases inner <;> exact (forall₂_cons.1 h).1

theorem Holds.kept (h : Holds f frame)
    (hr : (f.lookup r.name).isSome) : Holds f (frame ++ [r]) := by
  intro n
  rw [h r.name] at hr
  rw [h n, find?_append, find?_singleton]
  by_cases hn : r.name = n
  · subst hn
    exact (Option.or_of_isSome hr).symm
  · simp [hn]

theorem Holds.added (h : Holds f frame)
    (hr : f.lookup r.name = none) : Holds ((r.name, r) :: f) (frame ++ [r]) := by
  intro n
  rw [lookup_cons, find?_append, find?_singleton]
  by_cases hn : n = r.name
  · subst hn
    rw [h] at hr
    simp [hr]
  · simp [beq_eq_false_iff_ne.2 hn, Ne.symm hn, h n]

theorem Shows.define
    (h : sc.Shows (frame :: env)) (r : Referent) :
    (sc.define r.name r).2.Shows ((frame ++ [r]) :: env) := by
  have hin := h.innermost
  obtain ⟨inner, top, tps⟩ := sc
  unfold Scopes.define
  split
  · rename_i r' hr
    have hkept := hin.kept (Option.isSome_iff_exists.2 ⟨r', hr⟩)
    cases inner <;> exact .cons hkept (forall₂_cons.1 h).2
  · rename_i hr
    have hadded := hin.added hr
    cases inner <;> exact .cons hadded (forall₂_cons.1 h).2

end Scopes

def coded (code : String) (es : List TypeError) : List TypeError := es.filter (·.fault.code == code)

@[simp] theorem coded_append (code : String) (es es' : List TypeError) :
    coded code (es ++ es') = coded code es ++ coded code es' := filter_append ..

theorem TypeFault.isNaming_of_code {f : TypeFault} (h : f.code = "E0001" ∨ f.code = "E0002") :
    f.isNaming := by
  cases f <;> simp [TypeFault.code] at h <;> rfl

theorem coded_eq_nil {code : String} (hcode : code = "E0001" ∨ code = "E0002") {es : List TypeError}
    (h : ∀ e ∈ es, e.fault.isNaming = false) : coded code es = [] := by
  refine filter_eq_nil_iff.2 fun e he hc => ?_
  rw [← eq_of_beq hc] at hcode
  exact Bool.false_ne_true ((h e he).symm.trans (TypeFault.isNaming_of_code hcode))

namespace Check

variable {α β : Type}

/-- A step that declares `rs` in the innermost frame, opens and closes frames with the faults `es`,
and passes the nodes `ss`: what it reports about names. -/
structure Scoping (x : Check α) (rs : List Referent) (es : List TypeError)
    (ss : List Referent → Enclosing → List Sight) : Prop where
  shows : ∀ {c frame env}, c.scopes.Shows (frame :: env) →
    (x c).2.scopes.Shows ((frame ++ rs) :: env)
  unresolved : ∀ {c frame env}, c.scopes.Shows (frame :: env) →
    coded "E0001" (x c).2.errors =
      coded "E0001" c.errors ++ (ss frame env).filterMap Sight.unresolved?
  duplicate : ∀ {c frame env}, c.scopes.Shows (frame :: env) →
    (coded "E0002" (x c).2.errors).Perm (coded "E0002" c.errors ++
      (clashesAfter frame rs ++ (es ++ (ss frame env).flatMap Sight.clashes)))

theorem Quiet.coded_errors (hx : Quiet x)
    (hcode : code = "E0001" ∨ code = "E0002") (c : Checker) :
    coded code (x c).2.errors = coded code c.errors := by
  obtain ⟨es, hes, hnone⟩ := hx.reports c
  rw [hes, coded_append, coded_eq_nil hcode hnone, append_nil]

theorem Quiet.scoping (hx : Quiet x) : Scoping x [] [] fun _ _ => [] where
  shows {c frame env} h := by rwa [hx.scopes, append_nil]
  unresolved _ := by rw [hx.coded_errors (.inl rfl), filterMap_nil, append_nil]
  duplicate _ := by
    rw [hx.coded_errors (.inr rfl)]
    exact .of_eq (append_nil _).symm

namespace Scoping

variable {x : Check α} {g : α → Check β} {rs rs' : List Referent} {es es' : List TypeError}
  {ss ss' : List Referent → Enclosing → List Sight}

theorem perm_interleave {γ : Type} (o k e s k' e' s' : List γ) :
    ((o ++ (k ++ (e ++ s))) ++ (k' ++ (e' ++ s'))).Perm
      (o ++ ((k ++ k') ++ ((e ++ e') ++ (s ++ s')))) := by
  simp only [← Multiset.coe_eq_coe, ← Multiset.coe_add]
  abel

theorem bind (hx : Scoping x rs es ss) (hg : ∀ a, Scoping (g a) rs' es' ss') :
    Scoping (x >>= g) (rs ++ rs') (es ++ es') fun frame env =>
      ss frame env ++ ss' (frame ++ rs) env where
  shows h := by
    rw [← append_assoc]
    exact (hg _).shows (hx.shows h)
  unresolved h := by
    rw [bind_apply, (hg _).unresolved (hx.shows h), hx.unresolved h, filterMap_append,
      append_assoc]
  duplicate {c frame env} h := by
    rw [clashesAfter_append, flatMap_append]
    exact ((hg _).duplicate (hx.shows h)).trans
      (((hx.duplicate h).append_right _).trans (perm_interleave ..))

theorem quiet_bind (hy : Quiet y)
    (hg : ∀ b, Scoping (g b) rs es ss) : Scoping (y >>= g) rs es ss := by
  simpa using hy.scoping.bind hg

theorem bind_quiet (hx : Scoping x rs es ss) (hg : ∀ a, Quiet (g a)) :
    Scoping (x >>= g) rs es ss := by
  simpa using hx.bind fun a => (hg a).scoping

theorem of_eq (hx : Scoping x rs es ss) (hrs : rs' = rs) (hes : es' = es)
    (hss : ∀ frame env, ss' frame env = ss frame env) : Scoping x rs' es' ss' := by
  rw [hrs, hes, funext fun frame => funext (hss frame)]
  exact hx

theorem cons (hx : Scoping x rs es ss) (v : Visit) (hv : ∀ env, Sight.unresolved? (env, v) = none)
    (hes : es = v.frames.flatMap clashes ++ es') :
    Scoping x rs es' fun frame env => (frame :: env, v) :: ss frame env where
  shows := hx.shows
  unresolved h := by rw [hx.unresolved h, filterMap_cons, hv]
  duplicate {c frame env} h := by
    refine (hx.duplicate h).trans ?_
    rw [hes, flatMap_cons]
    simp only [← Multiset.coe_eq_coe, ← Multiset.coe_add, Sight.clashes]
    abel

theorem snoc (hx : Scoping x rs es ss) (v : Visit) (hv : ∀ env, Sight.unresolved? (env, v) = none)
    (hes : v.frames = []) :
    Scoping x rs es fun frame env => ss frame env ++ [(frame :: env, v)] where
  shows := hx.shows
  unresolved h := by simp [hx.unresolved h, hv]
  duplicate {c frame env} h := by
    simpa [Sight.clashes, hes] using hx.duplicate h

theorem within (hx : Scoping x rs es ss) (d : Decl)
    (hes : es = (Visit.enter d).frames.flatMap clashes ++ es') : Scoping x rs es' fun frame env =>
      (frame :: env, .enter d) :: (ss frame env ++ [(frame :: env, .leave d)]) :=
  (hx.snoc (.leave d) (fun _ => rfl) rfl).cons (.enter d) (fun _ => rfl) hes

theorem inFrame {x : Check Unit} (hx : Scoping x rs es ss) :
    Scoping (inFrame x) [] (clashes rs ++ es) fun frame env => ss [] (frame :: env) where
  shows {c frame env} h := by
    have hin := hx.shows (c := { c with scopes := c.scopes.push }) h.push
    rw [append_nil]
    exact hin.pop
  unresolved {c frame env} h := hx.unresolved (c := { c with scopes := c.scopes.push }) h.push
  duplicate {c frame env} h := by
    rw [clashesAfter, nil_append, append_assoc]
    exact hx.duplicate (c := { c with scopes := c.scopes.push }) h.push

theorem withTypeParams (names : List String) (hx : Scoping x rs es ss) :
    Scoping (withTypeParams names x) rs es ss where
  shows {c _ _} h := hx.shows (c := { c with scopes := c.scopes.pushTypeParams names }) h
  unresolved {c _ _} h := hx.unresolved (c := { c with scopes := c.scopes.pushTypeParams names }) h
  duplicate {c _ _} h := hx.duplicate (c := { c with scopes := c.scopes.pushTypeParams names }) h

end Scoping

theorem scoping_refer (i : NodeId) (r : Referent) (hx : Quiet x) :
    Scoping (refer i r >>= fun _ => x) [] [] fun _ _ => [] where
  shows h := by
    rw [append_nil, bind_apply, hx.scopes]
    exact h
  unresolved h := by
    rw [bind_apply, hx.coded_errors (.inl rfl), filterMap_nil, append_nil]
    rfl
  duplicate h := by
    rw [bind_apply, hx.coded_errors (.inr rfl)]
    exact .of_eq (append_nil _).symm

theorem scoping_path (t : Tag) (n : String) :
    Scoping (path t n) [] [] fun frame env => [(frame :: env, .expr (.path t n))] := by
  -- A path has one of two outcomes, by the meaning of the name.
  have hcases {c : Checker} {frame : List Referent} {env : Enclosing}
      (h : c.scopes.Shows (frame :: env)) :
      (path t n c).2.scopes = c.scopes ∧
        coded "E0001" (path t n c).2.errors = coded "E0001" c.errors ++
          (Sight.unresolved? (frame :: env, .expr (.path t n))).toList ∧
        coded "E0002" (path t n c).2.errors = coded "E0002" c.errors := by
    have hmeaning := h.lookup n
    cases hl : c.scopes.lookup n with
    | none =>
      rw [path_of_lookup_none hl]
      rw [hl] at hmeaning
      simp only [Sight.unresolved?, ← hmeaning]
      exact ⟨rfl, coded_append .., (coded_append ..).trans (append_nil _)⟩
    | some r =>
      rw [path_of_lookup hl]
      rw [hl] at hmeaning
      have hq := quiet_referentType t r
      have hr := (resolves_refer (c := c) t.id r hq).scopes
      simp only [Sight.unresolved?, ← hmeaning]
      refine ⟨hr, ?_, ?_⟩
      · rw [bind_apply, hq.coded_errors (.inl rfl)]
        exact (append_nil _).symm
      · rw [bind_apply, hq.coded_errors (.inr rfl)]
        rfl
  constructor
  · intro c frame env h
    rw [(hcases h).1, append_nil]
    exact h
  · intro c frame env h
    rw [(hcases h).2.1]
    rfl
  · intro c frame env h
    rw [(hcases h).2.2]
    exact .of_eq (append_nil _).symm

theorem scoping_instantiate {γ : Type} {y : Check β} {es : List TypeError}
    {ss : List Referent → Enclosing → List Sight} (hy : Scoping y [] es ss) (i : NodeId)
    (ty : TypeExpr) {k : Ty → Check γ} (hk : ∀ t, Quiet (k t)) (sp : Option Span) (n : Nat) :
    Scoping (resolveType ty sp >>= fun t => y >>= fun _ => instantiate i t n sp >>= fun _ => k t)
      [] es ss := by
  refine .quiet_bind (quiet_resolveType ty sp) fun t => ?_
  have hend : Scoping (instantiate i t n sp >>= fun _ => k t) [] [] fun _ _ => [] := by
    unfold instantiate
    cases t.decl? with
    | none => exact (hk t).scoping
    | some d => exact scoping_refer i (.decl d) ((quiet_constructorArity d n sp).bind fun _ => hk t)
  simpa using hy.bind fun _ => hend

theorem scoping_rules : ExprRules (.types (fun _ => True) True) (fun _ => True)
    (fun _ _ _ x => Quiet x)
    fun _ _ _ vs x => Scoping x [] [] fun frame env => Enclosing.all (frame :: env) vs where
  toRules := quiet_rules
  left _ := trivial
  bound _ := trivial
  setType _ _ := quiet_setType _ _
  step := Quiet.scoping
  seq hx hf := (hx.bind hf).of_eq rfl rfl fun frame env => by
    rw [append_nil]
    exact map_append
  node {_ _ _ _ _ v} hv hx := by
    cases v with
    | expr e =>
      cases e with
      | path => cases hv
      | _ => exact hx.cons _ (fun _ => rfl) rfl
    | key k => exact hx.cons _ (fun _ => rfl) rfl
    | _ => cases hv
  path n _ := scoping_path _ n
  construct t ty as hy := (scoping_instantiate (hy (P := False)) t.id ty (fun _ => .pure _) t.span
    as.length).cons (.expr (.construct t ty as)) (fun _ => rfl) rfl

theorem scoping_define (r : Referent) :
    Scoping (define r.name r.span r) [r] [] fun _ _ => [] := by
  have hdef {c : Checker} {frame : List Referent} {env : Enclosing}
      (h : c.scopes.Shows (frame :: env)) : (define r.name r.span r c).2.errors =
        c.errors ++ clashesAfter frame [r] := by
    rw [define_apply, clashesAfter, clashesAfter, append_nil, ← h.innermost r.name]
    unfold Scopes.define
    cases c.scopes.innermost.lookup r.name with
    | some first => rfl
    | none => cases c.scopes.inner <;> exact (append_nil _).symm
  have hcode (code : String) (frame : List Referent) :
      coded code (clashesAfter frame [r]) = if code = "E0002" then clashesAfter frame
        [r] else [] := by
    rw [clashesAfter, clashesAfter, append_nil]
    cases frame.find? (·.name == r.name) with
    | none => split <;> rfl
    | some first =>
      split
      · subst code
        rfl
      · rename_i hne
        exact filter_eq_nil_iff.2 (by simpa [TypeFault.code] using Ne.symm hne)
  constructor
  · intro c frame env h
    rw [(define_spec r.name r.span r c).1]
    exact h.define r
  · intro c frame env h
    rw [hdef h, coded_append, hcode, if_neg (by decide)]
    rfl
  · intro c frame env h
    rw [hdef h, coded_append, hcode, if_pos rfl]
    exact .of_eq (by simp)

theorem scoping_defineParams (ps : List Param) :
    Scoping (defineParams ps) (ps.map .param) [] fun _ _ => [] := by
  induction ps with
  | nil => exact (Quiet.pure ()).scoping
  | cons p ps ih =>
    have hp := Scoping.quiet_bind (quiet_paramType p) fun _ => scoping_define (.param p)
    exact hp.bind fun _ => ih

theorem scoping_defineAll (ds : List Decl) :
    Scoping (defineAll ds) (ds.map .decl) [] fun _ _ => [] := by
  induction ds with
  | nil => exact (Quiet.pure ()).scoping
  | cons d ds ih => exact (scoping_define (.decl d)).bind fun _ => ih

theorem scoping_expr (e : Expr) : Scoping (expr e) [] [] fun frame env =>
    Enclosing.all (frame :: env) e.visits := (scoping_rules).expr (P := False) e fun _ _ => trivial

theorem scoping_actionEntries (es : List Expr) : Scoping (actionEntries es) [] [] fun frame env =>
    Enclosing.all (frame :: env) ((Expr.walks es).map .expr) :=
  (scoping_rules).actionEntries (P := False) es fun _ _ => trivial

theorem scoping_condition (t : Tag) (e : Expr) : Scoping (condition t e) [] [] fun frame env =>
    Enclosing.all (frame :: env) e.visits :=
  (scoping_rules).condition (P := False) t e fun _ _ => trivial

theorem scoping_initialised (h : Head) (ty : TypeExpr) (e : Option Expr) :
    Scoping (initialised h ty e) [] [] fun frame env =>
      Enclosing.all (frame :: env) (Expr.visits? e) :=
  (scoping_rules).initialised (P := False) trivial ty e fun _ _ => trivial

theorem scoping_declStmt (t : Tag)
    (hd : Scoping (decl d) [] [] fun frame env => d.sights (frame :: env)) :
    Scoping (stmt (.decl t d)) [.decl d] [] fun frame env =>
      (frame :: env, .stmt (.decl t d)) :: d.sights (frame :: env) :=
  ((hd.bind fun _ => scoping_define (.decl d)).cons (.stmt (.decl t d)) (fun _ => rfl) rfl).of_eq
    rfl rfl fun frame env => by simp

mutual
theorem scoping_stmt : (s : Stmt) → DeclsInBlocks s.visits →
    Scoping (stmt s) s.declares [] fun frame env => s.sights (frame :: env)
  | .block t b, h => (scoping_block b h.tail).cons (.stmt (.block t b)) (fun _ => rfl)
      (by simp [Visit.frames])
  | .assign t l r, _ => (scoping_rules.assign (P := False) t l r (fun _ _ => trivial)
      fun _ _ => trivial).cons (.stmt (.assign t l r)) (fun _ => rfl) rfl
  | .call t e, _ => ((scoping_expr e).bind_quiet fun _ => .pure ()).cons (.stmt (.call t e))
      (fun _ => rfl) rfl
  | .ifThen t c a none, h => by
    have ha := scoping_stmt a h.tail.append.2
    rw [Stmt.declares_eq_nil h.branches.1] at ha
    exact (((scoping_condition t c).bind fun _ => ha).cons (.stmt (.ifThen t c a none))
      (fun _ => rfl) rfl).of_eq rfl rfl fun frame env => by simp [Stmt.sights]
  | .ifThen t c a (some b), h => by
    have ha := scoping_stmt a h.tail.append.1.append.2
    have hb := scoping_stmt b h.tail.append.2
    rw [Stmt.declares_eq_nil h.branches.1] at ha
    rw [Stmt.declares_eq_nil (h.branches.2 b rfl)] at hb
    exact (((scoping_condition t c).bind fun _ => ha.bind fun _ => hb).cons
      (.stmt (.ifThen t c a (some b))) (fun _ => rfl) rfl).of_eq rfl rfl
        fun frame env => by simp [Stmt.sights]
  | .switch t e cs, h => by
    have hcs := (scoping_expr e).bind fun _ => scoping_cases cs h.tail.append.2
    exact (hcs.cons (.stmt (.switch t e cs)) (fun _ => rfl) (by simp [Visit.frames])).of_eq rfl rfl
      fun frame env => by simp [Stmt.sights]
  | .decl t d, h => scoping_declStmt t (scoping_decl d h.tail)
  | .ret t e, _ => (scoping_rules.expr? (P := False) e fun _ _ => trivial).cons (.stmt (.ret t e))
      (fun _ => rfl) rfl
  | .exit t, _ => (Quiet.pure ()).scoping.cons (.stmt (.exit t)) (fun _ => rfl) rfl
  | .empty t, _ => (Quiet.pure ()).scoping.cons (.stmt (.empty t)) (fun _ => rfl) rfl
theorem scoping_block : (b : Block) → DeclsInBlocks b.visits →
    Scoping (block b) [] (clashes b.frame) fun frame env => b.sights (frame :: env)
  | .mk i ss, h => ((scoping_stmts ss h.tail).inFrame.cons (.block (.mk i ss)) (fun _ => rfl)
      rfl).of_eq rfl (append_nil _).symm fun _ _ => rfl
theorem scoping_stmts : (ss : List Stmt) → DeclsInBlocks (Stmt.allVisits ss) →
    Scoping (stmts ss) (ss.flatMap Stmt.declares) [] fun frame env => Stmt.allSights env frame ss
  | [], _ => (Quiet.pure ()).scoping
  | s :: ss, h => ((scoping_stmt s h.append.1).bind fun _ => scoping_stmts ss h.append.2).of_eq
      flatMap_cons rfl fun _ _ => rfl
theorem scoping_cases : (cs : List Case) → DeclsInBlocks (Case.visits cs) →
    Scoping (cases cs) [] ((Case.frames cs).flatMap clashes) fun frame env =>
      Case.sights (frame :: env) cs
  | [], _ => (Quiet.pure ()).scoping
  | .run _ b :: cs, h => ((scoping_block b h.append.1).bind fun _ =>
      scoping_cases cs h.append.2).of_eq rfl flatMap_cons fun frame env => by
        simp [Case.sights]
  | .fallThrough _ :: cs, h => scoping_cases cs h
theorem scoping_decl : (d : Decl) → DeclsInBlocks d.visits →
    Scoping (decl d) [] [] fun frame env => d.sights (frame :: env)
  | .header h fs, _ => (quiet_fieldTypes h.span fs).scoping.within (.header h fs) rfl
  | .struct h fs, _ => (quiet_fieldTypes h.span fs).scoping.within (.struct h fs) rfl
  | .externType h tps cs ms, _ =>
    (quiet_externMethods tps (cs ++ ms)).scoping.within (.externType h tps cs ms) rfl
  | .externFn h m, _ => ((quiet_methodType m).bind fun _ => quiet_setType _ _).scoping.within
      (.externFn h m) rfl
  | .action h ps (.mk i ss), hb => by
    have hin := ((scoping_defineParams ps).bind fun _ =>
      scoping_stmts ss hb.tail.append.1.tail).inFrame
    have hd := Scoping.quiet_bind (quiet_actionType ps) fun sig =>
      Scoping.quiet_bind (quiet_setType h.id (.method sig)) fun _ => hin
    exact (hd.cons (.block (.mk i ss)) (fun _ => rfl) rfl).within (.action h ps (.mk i ss)) (by
      simp [Visit.frames, Block.frame, Block.stmts])
  | .table h ks as d, _ => by
    have hks := scoping_rules.keys (P := False) ks fun _ _ => trivial
    have hd := hks.bind fun _ => (scoping_actionEntries as).bind fun _ =>
      (scoping_actionEntries d.toList).bind_quiet fun _ =>
        quiet_setType h.id (.table (.table h ks as d))
    exact (hd.within (.table h ks as d) rfl).of_eq rfl rfl fun frame env => by
      cases d <;> simp [Decl.sights, Enclosing.all, Expr.visits?, Expr.visits, Expr.walks]
  | .control h tps ps cps ls b, hb => by
    have hin := ((scoping_defineParams cps).bind fun _ => (scoping_defineParams ps).bind fun _ =>
      (scoping_locals ls hb.tail.append.1.append.1).bind fun _ =>
        scoping_block b hb.tail.append.1.append.2).inFrame
    exact ((hin.withTypeParams tps).within (.control h tps ps cps ls b) (by
      simp [Visit.frames])).of_eq rfl rfl fun frame env => by simp [Decl.sights]
  | .package h tps ps, _ => (quiet_withTypeParams tps ((quiet_paramTypes ps).bind fun _ =>
      .pure ())).scoping.within (.package h tps ps) rfl
  | .inst h ty as, _ =>
    (scoping_instantiate (scoping_rules.exprs (P := False) as fun _ _ => trivial) h.id ty
      (fun t => quiet_setType h.id t) h.span as.length).within (.inst h ty as) rfl
  | .var h ty e, _ => (scoping_initialised h ty e).within (.var h ty e) rfl
  | .const h ty e, _ => (scoping_initialised h ty (some e)).within (.const h ty e) rfl
theorem scoping_locals : (ds : List Decl) → DeclsInBlocks (Decl.allVisits ds) →
    Scoping (locals ds) (ds.map .decl) [] fun frame env => Decl.allSights env frame ds
  | [], _ => (Quiet.pure ()).scoping
  | d :: ds, h =>
    ((scoping_decl d h.append.1).bind fun _ => (scoping_define (.decl d)).bind fun _ =>
      scoping_locals ds h.append.2).of_eq rfl rfl fun frame env => by simp [Decl.allSights]
end

theorem scoping_decls (ds : List Decl) (h : DeclsInBlocks (Decl.allVisits ds)) :
    Scoping (decls ds) [] [] fun frame env => ds.flatMap (·.sights (frame :: env)) := by
  induction ds with
  | nil => exact (Quiet.pure ()).scoping
  | cons d ds ih =>
    exact ((scoping_decl d h.append.1).bind fun _ => ih h.append.2).of_eq rfl rfl
      fun frame env => by simp

theorem scoping_program (p : Program) (h : DeclsInBlocks p.visits) :
    Scoping (program p) (p.decls.map .decl) [] fun frame env =>
      p.decls.flatMap (·.sights ((frame ++ p.decls.map .decl) :: env)) :=
  ((scoping_defineAll p.decls).bind fun _ => scoping_decls p.decls h).of_eq
    (append_nil _).symm rfl fun _ _ => rfl

end Check

def Place.Alike (pl : Place) (s : Sight) : Prop := pl.1.Shows s.1 ∧ pl.2 = s.2

theorem Scopes.Shows.all (h : sc.Shows env) (vs : List Visit) :
    List.Forall₂ Place.Alike (sc.all vs) (env.all vs) := by
  rw [Scopes.all, Enclosing.all, forall₂_map_left_iff, forall₂_map_right_iff,
    forall₂_same]
  exact fun v _ => ⟨h, rfl⟩

theorem Scopes.Shows.after
    (h : sc.Shows (frame :: env)) {s : Stmt} (hs : DeclsInBlocks s.visits) :
    (s.after sc).Shows ((frame ++ s.declares) :: env) := by
  have hx := (Check.scoping_stmt s hs).shows (c := ⟨sc, .empty, .empty, []⟩) h
  rwa [(Check.walks_stmt s).scopes] at hx

theorem Scopes.Shows.declareParams
    (h : sc.Shows (frame :: env)) (ps : List Param) :
    (sc.declareParams ps).Shows ((frame ++ ps.map .param) :: env) := by
  have hx := (Check.scoping_defineParams ps).shows (c := ⟨sc, .empty, .empty, []⟩) h
  rwa [(Check.walks_defineParams ps).scopes] at hx

theorem Scopes.Shows.declares
    (h : sc.Shows (frame :: env)) (ds : List Decl) :
    (sc.declares ds).Shows ((frame ++ ds.map .decl) :: env) := by
  have hx := (Check.scoping_defineAll ds).shows (c := ⟨sc, .empty, .empty, []⟩) h
  rwa [(Check.walks_defineAll ds).scopes] at hx

theorem Scopes.Shows.enterControl (h : sc.Shows env)
    (tps : List String) (ps cps : List Param) :
    (sc.enterControl tps ps cps).Shows ((cps ++ ps).map .param :: env) := by
  have hpush : (sc.pushTypeParams tps).push.Shows ([] :: env) := h.push
  rw [map_append]
  exact (hpush.declareParams cps).declareParams ps

mutual
theorem Stmt.alike : (s : Stmt) → DeclsInBlocks s.visits → {sc : Scopes} →
    {frame : List Referent} → {env : Enclosing} → sc.Shows (frame :: env) →
    List.Forall₂ Place.Alike (s.places sc) (s.sights (frame :: env))
  | .block _ b, h, _, _, _, hs => .cons ⟨hs, rfl⟩ (Block.alike b h.tail hs)
  | .assign _ l r, _, _, _, _, hs | .call _ e, _, _, _, _, hs => .cons ⟨hs, rfl⟩ (hs.all _)
  | .ifThen _ c a none, h, _, _, _, hs => .cons ⟨hs, rfl⟩
      (rel_append (hs.all _) (Stmt.alike a h.tail.append.2 hs))
  | .ifThen _ c a (some b), h, _, frame, _, hs => by
    have ha := h.tail.append.1.append.2
    have hafter := hs.after ha
    rw [Stmt.declares_eq_nil h.branches.1, append_nil] at hafter
    exact .cons ⟨hs, rfl⟩ (rel_append (rel_append (hs.all _) (Stmt.alike a ha hs))
      (Stmt.alike b h.tail.append.2 hafter))
  | .switch _ e cs, h, _, _, _, hs => .cons ⟨hs, rfl⟩
      (rel_append (hs.all _) (Case.alike cs h.tail.append.2 hs))
  | .decl _ d, h, _, _, _, hs => .cons ⟨hs, rfl⟩ (Decl.alike d h.tail hs)
  | .ret _ e, _, _, _, _, hs => .cons ⟨hs, rfl⟩ (hs.all _)
  | .exit _, _, _, _, _, hs | .empty _, _, _, _, _, hs => .cons ⟨hs, rfl⟩ .nil
theorem Block.alike : (b : Block) → DeclsInBlocks b.visits → {sc : Scopes} →
    {frame : List Referent} → {env : Enclosing} → sc.Shows (frame :: env) →
    List.Forall₂ Place.Alike (b.places sc) (b.sights (frame :: env))
  | .mk _ ss, h, _, _, _, hs => .cons ⟨hs, rfl⟩ (Stmt.alikes ss h.tail hs.push)
theorem Stmt.alikes : (ss : List Stmt) → DeclsInBlocks (Stmt.allVisits ss) → {sc : Scopes} →
    {frame : List Referent} → {env : Enclosing} → sc.Shows (frame :: env) →
    List.Forall₂ Place.Alike (Stmt.allPlaces sc ss) (Stmt.allSights env frame ss)
  | [], _, _, _, _, _ => .nil
  | s :: ss, h, _, _, _, hs => rel_append (Stmt.alike s h.append.1 hs)
      (Stmt.alikes ss h.append.2 (hs.after h.append.1))
theorem Case.alike : (cs : List Case) → DeclsInBlocks (Case.visits cs) → {sc : Scopes} →
    {frame : List Referent} → {env : Enclosing} → sc.Shows (frame :: env) →
    List.Forall₂ Place.Alike (Case.places sc cs) (Case.sights (frame :: env) cs)
  | [], _, _, _, _, _ => .nil
  | .run _ b :: cs, h, _, _, _, hs => rel_append (Block.alike b h.append.1 hs)
      (Case.alike cs h.append.2 hs)
  | .fallThrough _ :: cs, h, _, _, _, hs => Case.alike cs h hs
theorem Decl.alike : (d : Decl) → DeclsInBlocks d.visits → {sc : Scopes} →
    {frame : List Referent} → {env : Enclosing} → sc.Shows (frame :: env) →
    List.Forall₂ Place.Alike (d.places sc) (d.sights (frame :: env))
  | .action h ps (.mk i ss), hb, _, _, _, hs => .cons ⟨hs, rfl⟩ (.cons ⟨hs, rfl⟩
      (rel_append (Stmt.alikes ss hb.tail.append.1.tail (hs.push.declareParams ps))
        (.cons ⟨hs, rfl⟩ .nil)))
  | .table h ks as d, _, _, _, _, hs =>
    .cons ⟨hs, rfl⟩ (rel_append (hs.all _) (.cons ⟨hs, rfl⟩ .nil))
  | .control h tps ps cps ls b, hb, _, _, _, hs => by
    have hin := hs.enterControl tps ps cps
    exact .cons ⟨hs, rfl⟩ (rel_append (rel_append
      (Decl.alikes ls hb.tail.append.1.append.1 hin)
      (Block.alike b hb.tail.append.1.append.2 (hin.declares ls))) (.cons ⟨hs, rfl⟩ .nil))
  | .inst h t as, _, _, _, _, hs | .var h t e, _, _, _, _, hs | .const h t e, _, _, _, _, hs =>
    .cons ⟨hs, rfl⟩ (rel_append (hs.all _) (.cons ⟨hs, rfl⟩ .nil))
  | .header .., _, _, _, _, hs | .struct .., _, _, _, _, hs | .externType .., _, _, _, _, hs
  | .externFn .., _, _, _, _, hs | .package .., _, _, _, _, hs =>
    .cons ⟨hs, rfl⟩ (.cons ⟨hs, rfl⟩ .nil)
theorem Decl.alikes : (ds : List Decl) → DeclsInBlocks (Decl.allVisits ds) → {sc : Scopes} →
    {frame : List Referent} → {env : Enclosing} → sc.Shows (frame :: env) →
    List.Forall₂ Place.Alike (Decl.allPlaces sc ds) (Decl.allSights env frame ds)
  | [], _, _, _, _, _ => .nil
  | d :: ds, h, _, _, _, hs => rel_append (Decl.alike d h.append.1 hs)
      (Decl.alikes ds h.append.2 (hs.define (.decl d)))
end

theorem Scopes.shows_empty : Scopes.empty.Shows [[]] := .cons (fun _ => rfl) .nil

namespace Program

variable {p : Program}

theorem alike (h : DeclsInBlocks p.visits) : List.Forall₂ Place.Alike p.places p.sights := by
  have hdecls {ds : List Decl} (h : DeclsInBlocks (Decl.allVisits ds)) :
      List.Forall₂ Place.Alike (ds.flatMap (·.places p.top))
        (ds.flatMap (·.sights [p.decls.map .decl])) := by
    induction ds with
    | nil => exact .nil
    | cons d ds ih =>
      exact rel_append (Decl.alike d h.append.1 (Scopes.shows_empty.declares p.decls))
        (ih h.append.2)
  exact hdecls h

theorem map_snd_sights (h : DeclsInBlocks p.visits) : p.sights.map (·.2) = p.visits := by
  rw [← p.map_snd_places, eq_comm, ← forall₂_eq_eq_eq, forall₂_map_left_iff,
    forall₂_map_right_iff]
  exact (alike h).imp fun _ _ ha => ha.2

theorem exists_alike (h : DeclsInBlocks p.visits) (hs : s ∈ p.sights) :
    ∃ pl ∈ p.places, pl.Alike s := by
  obtain ⟨i, hi, rfl⟩ := mem_iff_getElem.1 hs
  have hlen := (alike h).length_eq
  exact ⟨p.places[i], getElem_mem _, (forall₂_iff_get.1 (alike h)).2 i (hlen ▸ hi) hi⟩

theorem get?_refs_path (hids : (nodeIds p.visits).Nodup)
    (hpl : (sc, .expr (.path t n)) ∈ p.places) : p.check.refs.get? t.id = sc.lookup n := by
  cases hl : sc.lookup n with
  | some r => exact get?_refs_check hids hpl (by simp [Place.use?, hl])
  | none =>
    refine Option.eq_none_iff_forall_ne_some.2 fun r hr => ?_
    have huse := use?_of_get? hids hpl rfl hr
    simp [Place.use?, hl] at huse

/-- References are what lexical scoping says they are, and so are the names reported: one error for
each path that means nothing, in the order of the text, and one for each declaration whose name its
frame has already. -/
theorem check_lexical (p : Program) (hids : (nodeIds p.visits).Nodup)
    (hdecls : DeclsInBlocks p.visits) :
    p.sights.map (·.2) = p.visits ∧
    (∀ env t n, (env, .expr (.path t n)) ∈ p.sights →
      p.check.refs.get? t.id = env.meaning n) ∧
    coded "E0001" p.check.errors = p.sights.filterMap Sight.unresolved? ∧
    (coded "E0002" p.check.errors).Perm (p.frames.flatMap clashes) := by
  have hscoping := Check.scoping_program p hdecls
  refine ⟨map_snd_sights hdecls, fun env t n hmem => ?_, ?_, ?_⟩
  · obtain ⟨pl, hpl, hshows, hv⟩ := exists_alike hdecls hmem
    obtain ⟨sc, v⟩ := pl
    subst hv
    rw [get?_refs_path hids hpl, hshows.lookup n]
  · exact hscoping.unresolved (c := ⟨.empty, .empty, .empty, []⟩) Scopes.shows_empty
  · have hdup := hscoping.duplicate (c := ⟨.empty, .empty, .empty, []⟩) Scopes.shows_empty
    rw [frames, List.flatMap_cons, ← map_snd_sights hdecls, List.flatMap_map, List.flatMap_assoc]
    exact hdup

end Program

namespace Lexical

def outer : Param := ⟨⟨3⟩, "x", .inout, .bits 8 false, none⟩

def inner : Decl := .var ⟨⟨17⟩, "x", none⟩ (.bits 8 false) (some (.path ⟨⟨18⟩, none⟩ "x"))

/-- The name `x` is that of a constant, a parameter, a local and a variable of a block; an action
reads `y` before it is declared. -/
def layered : Program := ⟨[
  .const ⟨⟨0⟩, "x", none⟩ (.bits 8 false) (.lit ⟨⟨1⟩, none⟩ 1 (.bits 8 false)),
  .control ⟨⟨2⟩, "c", none⟩ [] [outer] [] [
    .action ⟨⟨4⟩, "a", none⟩ [⟨⟨5⟩, "x", .inout, .bits 8 false, none⟩]
      (.mk ⟨6⟩ [.assign ⟨⟨7⟩, none⟩ (.path ⟨⟨8⟩, none⟩ "x") (.path ⟨⟨9⟩, none⟩ "y")]),
    .var ⟨⟨10⟩, "y", none⟩ (.bits 8 false) (some (.path ⟨⟨11⟩, none⟩ "x")),
    .var ⟨⟨12⟩, "x", none⟩ (.bits 8 false) none]
    (.mk ⟨13⟩ [.block ⟨⟨14⟩, none⟩ (.mk ⟨15⟩ [.decl ⟨⟨16⟩, none⟩ inner,
      .assign ⟨⟨19⟩, none⟩ (.path ⟨⟨20⟩, none⟩ "x") (.path ⟨⟨21⟩, none⟩ "y")])])]⟩

theorem check_layered :
    ((nodeIds layered.visits).Nodup ∧ DeclsInBlocks layered.visits) ∧
    layered.check.refs.get? ⟨9⟩ = none ∧
    layered.check.refs.get? ⟨18⟩ = some (.param outer) ∧
    layered.check.refs.get? ⟨20⟩ = some (.decl inner) ∧
    coded "E0001" layered.check.errors = [⟨.unresolvedName "y", none⟩] ∧
    (coded "E0002" layered.check.errors).Perm [⟨.duplicate "x" none, none⟩] := by
  have hids : (nodeIds layered.visits).Nodup := by decide
  have hdecls : DeclsInBlocks layered.visits := by decide
  obtain ⟨-, hrefs, hunresolved, hduplicate⟩ := Program.check_lexical layered hids hdecls
  exact ⟨⟨hids, hdecls⟩, hrefs _ ⟨⟨9⟩, none⟩ _ (List.mem_of_getElem? (i := 8) rfl),
    hrefs _ ⟨⟨18⟩, none⟩ _ (List.mem_of_getElem? (i := 20) rfl),
    hrefs _ ⟨⟨20⟩, none⟩ _ (List.mem_of_getElem? (i := 23) rfl), hunresolved, hduplicate⟩

end Lexical

end MatchAction
