import MatchAction.Proofs.Correspondence

namespace MatchAction

open List

structure Spelling where
  decl : NodeId → String → String
  use : NodeId → String → String
  label : NodeId → String → String

def Head.spelled (σ : Spelling) (h : Head) : Head := { h with name := σ.decl h.id h.name }

def Label.spelled (f : String → String) : Label → Label
  | .name n => .name (f n)
  | .default => .default

section

variable (σ : Spelling)

mutual
def Stmt.spelled : Stmt → Stmt
  | .block t b => .block t b.spelled
  | .assign t l r => .assign t (l.spelled σ.use) (r.spelled σ.use)
  | .call t e => .call t (e.spelled σ.use)
  | .ifThen t c a none => .ifThen t (c.spelled σ.use) a.spelled none
  | .ifThen t c a (some b) => .ifThen t (c.spelled σ.use) a.spelled (some b.spelled)
  | .switch t e cs => .switch t (e.spelled σ.use) (Case.spelleds (σ.label e.id) cs)
  | .decl t d => .decl t d.spelled
  | .ret t e => .ret t (e.map (Expr.spelled σ.use))
  | .exit t => .exit t
  | .empty t => .empty t
def Block.spelled : Block → Block
  | .mk i ss => .mk i (Stmt.spelleds ss)
def Stmt.spelleds : List Stmt → List Stmt
  | [] => []
  | s :: ss => s.spelled :: Stmt.spelleds ss
def Case.spelleds (f : String → String) : List Case → List Case
  | [] => []
  | .run l b :: cs => .run (l.spelled f) b.spelled :: Case.spelleds f cs
  | .fallThrough l :: cs => .fallThrough (l.spelled f) :: Case.spelleds f cs
def Decl.spelled : Decl → Decl
  | .header h fs => .header (h.spelled σ) fs
  | .struct h fs => .struct (h.spelled σ) fs
  | .externType h tps cs ms => .externType (h.spelled σ) tps cs ms
  | .externFn h m => .externFn (h.spelled σ) m
  | .action h ps b => .action (h.spelled σ) ps b.spelled
  | .table h ks as d => .table (h.spelled σ) (ks.map (Key.spelled σ.use)) (Expr.spelleds σ.use as)
      (d.map (Expr.spelled σ.use))
  | .control h tps ps cps ls b =>
    .control (h.spelled σ) tps ps cps (Decl.spelleds ls) b.spelled
  | .package h tps ps => .package (h.spelled σ) tps ps
  | .inst h t as => .inst (h.spelled σ) t (Expr.spelleds σ.use as)
  | .var h t e => .var (h.spelled σ) t (e.map (Expr.spelled σ.use))
  | .const h t e => .const (h.spelled σ) t (e.spelled σ.use)
def Decl.spelleds : List Decl → List Decl
  | [] => []
  | d :: ds => d.spelled :: Decl.spelleds ds
end

def Program.spelled (p : Program) : Program := ⟨Decl.spelleds σ p.decls⟩

theorem Decl.spelleds_eq_map (ds : List Decl) : Decl.spelleds σ ds = ds.map (Decl.spelled σ) := by
  induction ds with
  | nil => rfl
  | cons d ds ih => rw [Decl.spelleds, ih, map_cons]

theorem Decl.head_spelled (d : Decl) : (d.spelled σ).head = d.head.spelled σ := by
  cases d <;> rfl

theorem Decl.alike_spelled (d : Decl) : d.Alike (d.spelled σ) := by
  cases d <;> constructor <;> rfl

def Spelling.versions : Versions where
  decl := Decl.spelled σ
  alike := Decl.alike_spelled σ
  path := σ.use

def Referent.key : Referent → String
  | .decl d => σ.decl d.id d.name
  | .param p => p.name

def Frame.spelled (f : Frame) : Frame :=
  List.map (fun x => (x.2.key σ, x.2.over (Decl.spelled σ))) f

def Scopes.spelled (sc : Scopes) : Scopes :=
  ⟨sc.inner.map (Frame.spelled σ), sc.top.spelled σ, sc.typeParams⟩

def Checker.spelled (c : Checker) : Checker := c.over (Decl.spelled σ) (c.scopes.spelled σ)

/-- Among the referents `R`, those that had different names have different names, and types have
their old names. -/
structure Spelling.Apart (R : Referent → Prop) : Prop where
  name : ∀ {r r'}, R r → R r' → r.key σ = r'.key σ → r.name = r'.name
  types : ∀ {d}, R (.decl d) → d.isType = true → σ.decl d.id d.name = d.name

def Place.Spelled : Place → Prop
  | (sc, .expr (.path t n)) => ∀ r, sc.lookup n = some r → σ.use t.id n = r.key σ
  | _ => True

end

section

variable {σ : Spelling} {R : Referent → Prop}

variable {r : Referent}

theorem Scopes.Hold.define_same {sc : Scopes} (h : sc.Hold R R) (hr : R r) :
    (sc.define r.name r).2.Hold R R := by
  by_cases hi : sc.inner = []
  · obtain ⟨inner, top, tps⟩ := sc
    obtain rfl : inner = [] := hi
    unfold Scopes.define
    split
    · exact h
    · exact ⟨h.inner, forall_mem_cons.2 ⟨⟨rfl, hr⟩, h.top⟩⟩
  · exact h.define hi hr

theorem Scopes.Hold.pop {sc : Scopes} (h : sc.Hold R R) : sc.pop.Hold R R :=
  ⟨fun f hf => h.inner f (mem_of_mem_tail hf), h.top⟩

variable {n : String}

theorem Frame.lookup_spelled (hσ : σ.Apart R) {f : Frame} (hf : ∀ x ∈ f, x.2.name = x.1 ∧ R x.2)
    (h : f.lookup n = some r) :
    (f.spelled σ).lookup (r.key σ) = some (r.over (Decl.spelled σ)) := by
  obtain ⟨hname, hr⟩ := hf _ (Scopes.mem_of_lookup h)
  obtain rfl : r.name = n := hname
  induction f with
  | nil => cases h
  | cons x f ih =>
    obtain ⟨k, v⟩ := x
    obtain ⟨hv, hvR⟩ := hf _ (.head _)
    obtain rfl : v.name = k := hv
    rw [lookup_cons] at h
    rw [Frame.spelled, map_cons, lookup_cons]
    by_cases hn : r.name = v.name
    · rw [beq_iff_eq.2 hn] at h
      cases h
      rw [beq_self_eq_true]
    · rw [beq_eq_false_iff_ne.2 hn] at h
      rw [beq_eq_false_iff_ne.2 fun hkey => hn (hσ.name hr hvR hkey)]
      exact ih (fun x hx => hf x (.tail _ hx)) h

theorem Frame.lookup_spelled_none (hσ : σ.Apart R) {f : Frame}
    (hf : ∀ x ∈ f, x.2.name = x.1 ∧ R x.2) (hr : R r)
    (h : f.lookup r.name = none) : (f.spelled σ).lookup (r.key σ) = none := by
  rw [lookup_eq_none_iff] at h ⊢
  intro x hx
  obtain ⟨y, hy, rfl⟩ := mem_map.1 hx
  obtain ⟨hname, hyR⟩ := hf y hy
  refine bne_iff_ne.2 fun hkey => ?_
  exact bne_iff_ne.1 (h y hy) ((hσ.name hr hyR hkey).trans hname)

variable {es : List Expr}

namespace Scopes

variable {sc : Scopes}

theorem lookup_spelled (hσ : σ.Apart R) (h : sc.Hold R R)
    (hl : sc.lookup n = some r) :
    (sc.spelled σ).lookup (r.key σ) = some (r.over (Decl.spelled σ)) := by
  obtain ⟨hname, hr⟩ := h.lookup hl
  obtain rfl : r.name = n := hname
  obtain ⟨inner, top, tps⟩ := sc
  have hr : R r := hr.elim id id
  unfold Scopes.lookup at hl ⊢
  induction inner with
  | nil => exact Frame.lookup_spelled hσ h.top hl
  | cons f fs ih =>
    have hf := h.inner f (.head _)
    simp only [Scopes.spelled, map_cons, findSome?_cons] at hl ⊢
    cases hfl : f.lookup r.name with
    | some r' =>
      rw [hfl] at hl
      cases hl
      rw [Frame.lookup_spelled hσ hf hfl]
      rfl
    | none =>
      rw [hfl] at hl
      rw [Frame.lookup_spelled_none hσ hf hr hfl]
      exact ih ⟨fun g hg => h.inner g (.tail _ hg), h.top⟩ hl

theorem innermost_spelled (sc : Scopes) : (sc.spelled σ).innermost = sc.innermost.spelled σ := by
  obtain ⟨inner, top, tps⟩ := sc
  cases inner <;> rfl

theorem Hold.innermost (h : sc.Hold R R) : ∀ x ∈ sc.innermost, x.2.name = x.1 ∧ R x.2 := by
  obtain ⟨inner, top, tps⟩ := sc
  cases inner with
  | nil => exact h.top
  | cons f fs => exact h.inner f (.head _)

theorem define_spelled (hσ : σ.Apart R) (h : sc.Hold R R) (hr : R r)
    (hn : sc.innermost.lookup r.name = none) :
    (sc.spelled σ).define (r.key σ) (r.over (Decl.spelled σ)) =
      (none, (sc.define r.name r).2.spelled σ) := by
  have hn' : (sc.spelled σ).innermost.lookup (r.key σ) = none := by
    rw [innermost_spelled]
    exact Frame.lookup_spelled_none hσ h.innermost hr hn
  unfold Scopes.define
  rw [hn, hn']
  obtain ⟨inner, top, tps⟩ := sc
  cases inner <;> rfl

theorem Hold.match_spelled (hσ : σ.Apart R) (h : sc.Hold R R)
    (hes : ∀ e ∈ es, Place.Spelled σ (sc, .expr e)) : sc.Match σ.versions es (sc.spelled σ) where
  typeParams := rfl
  types {n d} hl ht _ := by
    obtain ⟨hname, hr⟩ := h.lookup hl
    have hkey : (Referent.decl d).key σ = n := (hσ.types (hr.elim id id) ht).trans hname
    exact hkey ▸ lookup_spelled hσ h hl
  paths {t n r} hmem hl _ := by
    change (sc.spelled σ).lookup (σ.use t.id n) = _
    rw [hes _ hmem r hl]
    exact lookup_spelled hσ h hl

end Scopes

namespace Check

/-- A step that goes through the other spelling as through the program itself. -/
structure Retraces (σ : Spelling) (R : Referent → Prop) (x x' : Check Unit) (f : Scopes → Scopes)
    (ps : Scopes → List Place) : Prop extends Walks x f ps where
  hold : ∀ {sc}, sc.Hold R R → (f sc).Hold R R
  same : ∀ c, c.scopes.Hold R R → (∀ pl ∈ ps c.scopes, pl.Spelled σ) → (x c).2.errors = [] →
    x' (c.spelled σ) = ((), (x c).2.spelled σ)

variable {x x' y y' : Check Unit} {f g : Scopes → Scopes} {ps qs : Scopes → List Place}

namespace Retraces

theorem bind (hx : Retraces σ R x x' f ps) (hy : Retraces σ R y y' g qs) :
    Retraces σ R (x >>= fun _ => y) (x' >>= fun _ => y') (fun sc => g (f sc))
      fun sc => ps sc ++ qs (f sc) where
  toWalks := hx.toWalks.bind fun _ => hy.toWalks
  hold h := hy.hold (hx.hold h)
  same c hc hps h := by
    have hmid := (hy.errors _ h).1
    rw [bind_apply, hx.same c hc (fun pl hpl => hps pl (mem_append_left _ hpl)) hmid]
    refine hy.same (x c).2 ?_ (fun pl hpl => hps pl (mem_append_right _ ?_)) h
    · rw [hx.scopes]
      exact hx.hold hc
    · rwa [hx.scopes] at hpl

theorem places (hx : Retraces σ R x x' f ps) (hw : Walks x g qs) (hf : ∀ sc, g sc = f sc)
    (hs : ∀ sc, ps sc ⊆ qs sc) : Retraces σ R x x' g qs where
  toWalks := hw
  hold {sc} h := by
    rw [hf sc]
    exact hx.hold h
  same c hc hqs := hx.same c hc fun pl hpl => hqs pl (hs _ hpl)

theorem of_echoes (hσ : σ.Apart R) (he : Echoes (.exact σ.versions) es id x x')
    (hw : Walks x id ps) (hes : ∀ sc, ∀ e ∈ es, (sc, .expr e) ∈ ps sc) :
    Retraces σ R x x' id ps where
  toWalks := hw
  hold h := h
  same c hc hps h := by
    have hm := hc.match_spelled hσ fun e he => hps _ (hes _ e he)
    refine (he.apply_over c _ hm h fun _ _ => trivial).trans ?_
    rw [Checker.spelled, he.scopes]
    rfl

theorem of_pathless (hσ : σ.Apart R) (he : Echoes (.exact σ.versions) [] id x x')
    (hw : Walks x id ps) :
    Retraces σ R x x' id ps := .of_echoes hσ he hw fun _ _ h => absurd h not_mem_nil

theorem of_quiet (hσ : σ.Apart R) (he : Echoes (.exact σ.versions) [] id x x') (hq : Quiet x) :
    Retraces σ R x x' id fun _ => [] := .of_pathless hσ he hq.walks

end Retraces

theorem retraces_pure (hσ : σ.Apart R) : Retraces σ R (pure ()) (pure ()) id fun _ => [] :=
  .of_quiet hσ (.pure id ()) (.pure ())

theorem retraces_withScopes (hf : ∀ sc, f' (sc.spelled σ) = (f sc).spelled σ)
    (hold : ∀ {sc}, sc.Hold R R → (f sc).Hold R R) :
    Retraces σ R (withScopes f) (withScopes f') f fun _ => [] where
  toWalks := walks_withScopes f
  hold := hold
  same c _ _ _ := by
    change ((), (⟨f' (c.scopes.spelled σ), _, _, _⟩ : Checker)) = _
    rw [hf]
    rfl

theorem retraces_inFrame (hx : Retraces σ R x x' f ps) (hf : ∀ sc : Scopes, (f sc.push).pop = sc) :
    Retraces σ R (inFrame x) (inFrame x') id fun sc => ps sc.push := by
  have hpush : Retraces σ R (withScopes .push) (withScopes .push) .push fun _ => [] :=
    retraces_withScopes (fun _ => rfl) .push
  have hpop : Retraces σ R (withScopes .pop) (withScopes .pop) .pop fun _ => [] :=
    retraces_withScopes (fun sc => by simp [Scopes.spelled, Scopes.pop, map_tail]) .pop
  exact (hpush.bind (hx.bind hpop)).places (walks_inFrame hx.toWalks hf) (fun sc => (hf sc).symm)
    fun sc => by simp

theorem retraces_withTypeParams (names : List String) (hx : Retraces σ R x x' f ps)
    (hf : ∀ sc : Scopes, (f (sc.pushTypeParams names)).popTypeParams = sc) :
    Retraces σ R (withTypeParams names x) (withTypeParams names x') id
      fun sc => ps (sc.pushTypeParams names) := by
  have hpush : Retraces σ R (withScopes (·.pushTypeParams names))
      (withScopes (·.pushTypeParams names)) (·.pushTypeParams names) fun _ => [] :=
    retraces_withScopes (fun _ => rfl) fun h => h.pushTypeParams names
  have hpop : Retraces σ R (withScopes .popTypeParams) (withScopes .popTypeParams) .popTypeParams
      fun _ => [] := retraces_withScopes (fun _ => rfl) fun h => ⟨h.inner, h.top⟩
  exact (hpush.bind (hx.bind hpop)).places (walks_withTypeParams names hx.toWalks hf)
    (fun sc => (hf sc).symm) fun sc => by simp

theorem define_of_new (h : c.scopes.innermost.lookup n = none)
    (sp : Option Span) (r : Referent) :
    define n sp r c = ((), { c with scopes := (c.scopes.define n r).2 }) := by
  rw [define_apply]
  unfold Scopes.define
  rw [h]
  cases c.scopes.inner <;> rfl

theorem retraces_define (hσ : σ.Apart R) (hr : R r) (sp : Option Span) :
    Retraces σ R (define r.name sp r) (define (r.key σ) sp (r.over (Decl.spelled σ)))
      (fun sc => (sc.define r.name r).2) fun _ => [] where
  toWalks := walks_define r.name sp r
  hold h := h.define_same hr
  same c hc _ h := by
    have hn := ((define_spec r.name sp r c).2.2 h).2
    have hdef : (c.spelled σ).scopes.define (r.key σ) (r.over (Decl.spelled σ)) = _ :=
      Scopes.define_spelled hσ hc hr hn
    rw [define_apply, hdef, define_of_new hn]
    rfl

theorem retraces_defineParams (hσ : σ.Apart R) (qs : List Param) (hqs : ∀ q ∈ qs, R (.param q)) :
    Retraces σ R (defineParams qs) (defineParams qs) (·.declareParams qs) fun _ => [] := by
  induction qs with
  | nil => exact retraces_pure hσ
  | cons q qs ih =>
    have htype : Retraces σ R (paramType q >>= fun _ => pure ()) (paramType q >>=
      fun _ => pure ()) id fun _ => [] :=
      .of_quiet hσ ((echoes_paramType q).bind fun _ => .pure id ())
        ((quiet_paramType q).bind fun _ => .pure ())
    have hdefine := retraces_define hσ (hqs q (.head _)) q.span
    exact ((htype.bind hdefine).bind (ih fun q hq => hqs q (.tail _ hq))).places
      (walks_defineParams (q :: qs)) (fun _ => rfl) fun _ => by simp

theorem retraces_defineDecl (hσ : σ.Apart R) (hd : R (.decl d)) :
    Retraces σ R (defineDecl d) (defineDecl (d.spelled σ)) (·.declare d) fun _ => [] := by
  have hname : (d.spelled σ).name = (Referent.decl d).key σ := congrArg Head.name (d.head_spelled σ)
  have hspan : (d.spelled σ).span = (d.head.spelled σ).span := congrArg Head.span (d.head_spelled σ)
  rw [defineDecl, defineDecl, hname, hspan]
  exact retraces_define hσ hd d.span

variable {e : Expr}

theorem mem_all_exprs {sc : Scopes} (h : e ∈ es) :
    (sc, .expr e) ∈ sc.all (es.map .expr) := mem_map_of_mem (mem_map_of_mem h)

theorem mem_all_visits? {sc : Scopes} {x : Option Expr} (h : e ∈ Expr.walks x.toList) :
    (sc, .expr e) ∈ sc.all (Expr.visits? x) := by
  rw [Expr.visits?_eq]
  exact mem_all_exprs h

theorem mem_all_keys {sc : Scopes} {ks : List Key}
    (h : e ∈ Expr.walks (ks.map (·.expr))) : (sc, .expr e) ∈ sc.all (ks.flatMap Key.visits) := by
  induction ks with
  | nil => cases h
  | cons k ks ih =>
    rw [flatMap_cons, Scopes.all_append]
    rcases mem_append.1 h with h | h
    · exact mem_append_left _ (.tail _ (mem_all_exprs h))
    · exact mem_append_right _ (ih h)

theorem retraces_condition (hσ : σ.Apart R) (t : Tag) (e : Expr) :
    Retraces σ R (condition t e) (condition t (e.spelled σ.use)) id fun sc => sc.all e.visits :=
  .of_echoes hσ (echoes_condition t e (List.Subset.refl _)) (walks_condition t e) fun _ _ he =>
    mem_all_exprs he

theorem retraces_expr (hσ : σ.Apart R) (e : Expr) :
    Retraces σ R (expr e >>= fun _ => pure ()) (expr (e.spelled σ.use) >>= fun _ => pure ()) id
      fun sc => sc.all e.visits :=
  .of_echoes hσ ((echoes_expr e (List.Subset.refl _)).bind fun _ => .pure id ())
    ((walks_expr e).bind_quiet fun _ => .pure ()) fun _ _ he => mem_all_exprs he

mutual
theorem retraces_stmt (hσ : σ.Apart R) : (s : Stmt) → Brings R s.visits →
    Retraces σ R (stmt s) (stmt (s.spelled σ)) (s.after ·) fun sc => s.places sc
  | .block t b, hb => (retraces_block hσ b (hb.mono fun _ hv => .tail _ hv)).places
      (walks_stmt (.block t b)) (fun _ => rfl) fun _ => subset_cons_self _ _
  | .assign t l r, _ => .of_echoes hσ (echoes_assign t l r (subset_append_left _ r.walk)
      (subset_append_right _ _)) (walks_stmt (.assign t l r)) fun _ _ he => .tail _ (by
        rw [Expr.visits, Expr.visits, ← map_append]
        exact mem_all_exprs he)
  | .call t e, _ => (retraces_expr hσ e).places (walks_stmt (.call t e)) (fun _ => rfl)
      fun _ => subset_cons_self _ _
  | .ifThen t c a none, hb => by
    have ha := retraces_stmt hσ a hb.tail.append.2
    exact ((retraces_condition hσ t c).bind ha).places (walks_stmt (.ifThen t c a none))
      (fun _ => rfl) fun _ => subset_cons_self _ _
  | .ifThen t c a (some b), hb => by
    have ha := retraces_stmt hσ a hb.tail.append.1.append.2
    have hb := retraces_stmt hσ b hb.tail.append.2
    exact ((retraces_condition hσ t c).bind (ha.bind hb)).places
      (walks_stmt (.ifThen t c a (some b))) (fun _ => rfl) fun sc => by
        simp [Stmt.places]
  | .switch t e cs, hb => by
    have hcs := retraces_cases hσ (σ.label e.id) cs hb.tail.append.2
    exact ((retraces_expr hσ e).bind hcs).places (walks_stmt (.switch t e cs)) (fun _ => rfl)
      fun _ => subset_cons_self _ _
  | .decl t d, hb => by
    have hd := retraces_decl hσ d (hb.mono fun v hv => .tail _ hv)
    have hr : R (.decl d) := hb (.enter d) (.tail _ d.enter_mem_visits) _ d.self_mem_referents
    exact (hd.bind (retraces_defineDecl hσ hr)).places (walks_stmt (.decl t d)) (fun _ => rfl)
      fun sc => by simp [Stmt.places]
  | .ret t e, _ => .of_echoes hσ (echoes_expr? e (List.Subset.refl _)) (walks_stmt (.ret t e))
      fun _ _ he => .tail _ (mem_all_visits? he)
  | .exit t, _ =>
    (retraces_pure hσ).places (walks_stmt (.exit t)) (fun _ => rfl) fun _ => nil_subset _
  | .empty t, _ =>
    (retraces_pure hσ).places (walks_stmt (.empty t)) (fun _ => rfl) fun _ => nil_subset _
theorem retraces_block (hσ : σ.Apart R) : (b : Block) → Brings R b.visits →
    Retraces σ R (block b) (block (b.spelled σ)) id fun sc => b.places sc
  | .mk i ss, hb =>
    (retraces_inFrame (retraces_stmts hσ ss (hb.mono fun _ hv => .tail _ hv)) fun sc =>
      (Stmt.afters_inner sc.inner_push_ne ss).2).places (walks_block (.mk i ss)) (fun _ => rfl)
      fun _ => subset_cons_self _ _
theorem retraces_stmts (hσ : σ.Apart R) : (ss : List Stmt) → Brings R (Stmt.allVisits ss) →
    Retraces σ R (stmts ss) (stmts (Stmt.spelleds σ ss)) (Stmt.afters · ss) fun sc =>
      Stmt.allPlaces sc ss
  | [], _ => retraces_pure hσ
  | s :: ss, hb => (retraces_stmt hσ s hb.append.1).bind
      (retraces_stmts hσ ss hb.append.2)
theorem retraces_cases (hσ : σ.Apart R) (f : String → String) : (cs : List Case) →
    Brings R (Case.visits cs) → Retraces σ R (cases cs) (cases (Case.spelleds σ f cs)) id fun sc =>
      Case.places sc cs
  | [], _ => retraces_pure hσ
  | .run _ b :: cs, hb => (retraces_block hσ b hb.append.1).bind
      (retraces_cases hσ f cs hb.append.2)
  | .fallThrough _ :: cs, hb => retraces_cases hσ f cs hb
theorem retraces_decl (hσ : σ.Apart R) : (d : Decl) → Brings R d.visits →
    Retraces σ R (decl d) (decl (d.spelled σ)) id fun sc => d.places sc
  | .header h fs, _ => .of_pathless hσ (echoes_fieldTypes h.span fs) (walks_decl (.header h fs))
  | .struct h fs, _ => .of_pathless hσ (echoes_fieldTypes h.span fs) (walks_decl (.struct h fs))
  | .externType h tps cs ms, _ => .of_pathless hσ (echoes_externMethods tps (cs ++ ms))
      (walks_decl (.externType h tps cs ms))
  | .externFn h m, _ => .of_pathless hσ ((echoes_methodType m).bind fun s =>
      echoes_setType h.id (.method s)) (walks_decl (.externFn h m))
  | .action h ps (.mk i ss), hb => by
    have hps : ∀ p ∈ ps, R (.param p) := fun p hp =>
      hb (.enter (.action h ps (.mk i ss))) (.head _) _
        (by simp [Visit.referents, Decl.referents, Decl.params, hp])
    have hss := retraces_stmts hσ ss hb.tail.append.1.tail
    have hin := retraces_inFrame ((retraces_defineParams hσ ps hps).bind hss) fun sc =>
      sc.pop_action ps ss
    have hsig : Retraces σ R (actionType ps >>= fun s => setType h.id (.method s))
        (actionType ps >>= fun s => setType h.id (.method s)) id fun _ => [] :=
      .of_quiet hσ ((echoes_actionType ps).bind fun s => echoes_setType h.id (.method s))
        ((quiet_actionType ps).bind fun _ => quiet_setType _ _)
    exact (hsig.bind hin).places (walks_decl (.action h ps (.mk i ss))) (fun _ => rfl)
      fun _ pl hpl => .tail _ (.tail _ (mem_append_left _ (by simpa using hpl)))
  | .table h ks as d, _ => by
    have hd : (d.map (Expr.spelled σ.use)).toList = Expr.spelleds σ.use d.toList := by
      cases d <;> rfl
    have he : Echoes (.exact σ.versions) (Expr.walks (ks.map (·.expr)) ++ (Expr.walks as ++
        Expr.walks d.toList)) id (decl (.table h ks as d))
          (decl ((Decl.table h ks as d).spelled σ)) := by
      simp only [decl, Decl.spelled, hd]
      exact (echoes_keys ks (subset_append_left _ _)).bind fun _ =>
        (echoes_actionEntries as fun e he => mem_append_right _ (mem_append_left _ he)).bind
          fun _ => (echoes_actionEntries d.toList fun e he =>
            mem_append_right _ (mem_append_right _ he)).bind fun _ =>
              echoes_setType h.id (.table (.table h ks as d))
    refine .of_echoes hσ he (walks_decl (.table h ks as d)) fun sc e he => ?_
    refine .tail _ (mem_append_left _ ?_)
    rw [Scopes.all_append, Scopes.all_append]
    simp only [mem_append] at he ⊢
    rcases he with he | he | he
    · exact .inl (.inl (mem_all_keys he))
    · exact .inl (.inr (mem_all_exprs he))
    · exact .inr (mem_all_visits? he)
  | .control h tps ps cps ls b, hb => by
    have hps : ∀ p ∈ cps ++ ps, R (.param p) := fun p hp =>
      hb (.enter (.control h tps ps cps ls b)) (.head _) _
        (by simpa [Visit.referents, Decl.referents, Decl.params] using hp)
    have hls := retraces_locals hσ ls hb.tail.append.1.append.1
    have hbody := retraces_block hσ b hb.tail.append.1.append.2
    have hcps := retraces_defineParams hσ cps fun p hp => hps p (mem_append_left _ hp)
    have hps := retraces_defineParams hσ ps fun p hp => hps p (mem_append_right _ hp)
    have hin := retraces_inFrame (hcps.bind (hps.bind (hls.bind hbody))) fun sc =>
      sc.pop_control ps cps ls
    exact (retraces_withTypeParams tps hin fun _ => rfl).places
      (walks_decl (.control h tps ps cps ls b)) (fun _ => rfl)
      fun _ pl hpl => .tail _ (mem_append_left _ hpl)
  | .package h tps ps, _ => .of_pathless hσ (echoes_withTypeParams tps
      ((echoes_paramTypes ps).bind fun _ => .pure id ())) (walks_decl (.package h tps ps))
  | .inst h ty as, _ => by
    have he : Echoes (.exact σ.versions) (Expr.walks as) id (decl (.inst h ty as))
        (decl ((Decl.inst h ty as).spelled σ)) := by
      simp only [decl, Decl.spelled, Expr.length_spelleds]
      exact (echoes_resolveType ty h.span).bind fun t => (echoes_exprs as (List.Subset.refl _)).bind
        fun _ => (echoes_instantiate h.id t _ h.span).bind fun _ => echoes_setType h.id t
    exact .of_echoes hσ he (walks_decl (.inst h ty as)) fun _ _ he =>
      .tail _ (mem_append_left _ (mem_all_exprs he))
  | .var h ty e, _ => .of_echoes hσ (echoes_initialised h rfl rfl ty e (List.Subset.refl _))
      (walks_decl (.var h ty e)) fun _ _ he => .tail _ (mem_append_left _ (mem_all_visits? he))
  | .const h ty e, _ => .of_echoes hσ (echoes_initialised h rfl rfl ty (some e)
      (List.Subset.refl _)) (walks_decl (.const h ty e)) fun sc _ he =>
        .tail _ (mem_append_left _ (mem_all_visits? (x := some e) he))
theorem retraces_locals (hσ : σ.Apart R) : (ds : List Decl) → Brings R (Decl.allVisits ds) →
    Retraces σ R (locals ds) (locals (Decl.spelleds σ ds)) (·.declares ds) fun sc =>
      Decl.allPlaces sc ds
  | [], _ => retraces_pure hσ
  | d :: ds, hb => by
    have hd := retraces_decl hσ d hb.append.1
    have hdefine := retraces_defineDecl hσ (hb.decl (.head ds))
    have hds := retraces_locals hσ ds hb.append.2
    exact (hd.bind (hdefine.bind hds)).places (walks_locals (d :: ds)) (fun _ => rfl)
      fun sc => by simp [Decl.allPlaces]
end

theorem retraces_defineAll (hσ : σ.Apart R) (ds : List Decl) (hds : ∀ d ∈ ds, R (.decl d)) :
    Retraces σ R (defineAll ds) (defineAll (Decl.spelleds σ ds)) (·.declares ds) fun _ => [] := by
  induction ds with
  | nil => exact retraces_pure hσ
  | cons d ds ih =>
    exact ((retraces_defineDecl hσ (hds d (.head _))).bind (ih fun d hd =>
      hds d (.tail _ hd))).places (walks_defineAll (d :: ds)) (fun _ => rfl) fun _ => by simp

theorem retraces_decls (hσ : σ.Apart R) (ds : List Decl) (hb : Brings R (Decl.allVisits ds)) :
    Retraces σ R (decls ds) (decls (Decl.spelleds σ ds)) id fun sc => ds.flatMap (·.places sc) := by
  induction ds with
  | nil => exact retraces_pure hσ
  | cons d ds ih =>
    exact (retraces_decl hσ d hb.append.1).bind
      (ih hb.append.2)

end Check

end

section

@[simp] theorem filterMap_decl?_expr (es : List Expr) :
    es.filterMap (Visit.decl? ∘ Visit.expr) = [] := by
  induction es with
  | nil => rfl
  | cons e es ih => exact ih

@[simp] theorem Expr.decls_visits (e : Expr) : e.visits.filterMap Visit.decl? = [] := by
  rw [Expr.visits, filterMap_map, filterMap_decl?_expr]

@[simp] theorem Expr.decls_visits? (e : Option Expr) :
    (Expr.visits? e).filterMap Visit.decl? = [] := by
  cases e with
  | none => rfl
  | some e => exact e.decls_visits

@[simp] theorem decls_keys (ks : List Key) : (ks.flatMap Key.visits).filterMap Visit.decl? =
    [] := by
  induction ks with
  | nil => rfl
  | cons k ks ih =>
    rw [flatMap_cons, filterMap_append, ih, append_nil]
    exact k.expr.decls_visits

variable (σ : Spelling)

mutual
theorem Stmt.decls_spelled : (s : Stmt) → (s.spelled σ).visits.filterMap Visit.decl? =
    (s.visits.filterMap Visit.decl?).map (Decl.spelled σ)
  | .block t b => Block.decls_spelled b
  | .assign .. | .call .. => by simp [Stmt.spelled, Stmt.visits, filterMap_cons, Visit.decl?]
  | .ifThen _ _ a none => by
    simp [Stmt.spelled, Stmt.visits, filterMap_cons, Visit.decl?, Stmt.decls_spelled a]
  | .ifThen _ _ a (some b) => by
    simp [Stmt.spelled, Stmt.visits, filterMap_cons, Visit.decl?, Stmt.decls_spelled a,
      Stmt.decls_spelled b]
  | .switch _ _ cs => by
    simp [Stmt.spelled, Stmt.visits, filterMap_cons, Visit.decl?, Case.decls_spelled _ cs]
  | .decl _ d => Decl.decls_spelled d
  | .ret .. => by simp [Stmt.spelled, Stmt.visits, filterMap_cons, Visit.decl?]
  | .exit _ | .empty _ => rfl
theorem Block.decls_spelled : (b : Block) → (b.spelled σ).visits.filterMap Visit.decl? =
    (b.visits.filterMap Visit.decl?).map (Decl.spelled σ)
  | .mk _ ss => Stmt.decls_spelleds ss
theorem Stmt.decls_spelleds : (ss : List Stmt) →
    (Stmt.allVisits (Stmt.spelleds σ ss)).filterMap Visit.decl? =
      ((Stmt.allVisits ss).filterMap Visit.decl?).map (Decl.spelled σ)
  | [] => rfl
  | s :: ss => by
    simp [Stmt.spelleds, Stmt.allVisits, Stmt.decls_spelled s, Stmt.decls_spelleds ss]
theorem Case.decls_spelled (f : String → String) : (cs : List Case) →
    (Case.visits (Case.spelleds σ f cs)).filterMap Visit.decl? =
      ((Case.visits cs).filterMap Visit.decl?).map (Decl.spelled σ)
  | [] => rfl
  | .run _ b :: cs => by
    simp [Case.spelleds, Case.visits, Block.decls_spelled b, Case.decls_spelled f cs]
  | .fallThrough _ :: cs => Case.decls_spelled f cs
theorem Decl.decls_spelled : (d : Decl) → (d.spelled σ).visits.filterMap Visit.decl? =
    (d.visits.filterMap Visit.decl?).map (Decl.spelled σ)
  | .action _ _ b => by
    simp [Decl.spelled, Decl.visits, filterMap_cons, Visit.decl?, Block.decls_spelled b]
  | .table .. => by simp [Decl.spelled, Decl.visits, filterMap_cons, Visit.decl?]
  | .control _ _ _ _ ls b => by
    simp [Decl.spelled, Decl.visits, filterMap_cons, Visit.decl?, Block.decls_spelled b,
      Decl.decls_spelleds ls]
  | .inst .. | .var .. | .const
    .. => by simp [Decl.spelled, Decl.visits, filterMap_cons, Visit.decl?]
  | .header .. | .struct .. | .externType .. | .externFn .. | .package .. => rfl
theorem Decl.decls_spelleds : (ds : List Decl) →
    (Decl.allVisits (Decl.spelleds σ ds)).filterMap Visit.decl? =
      ((Decl.allVisits ds).filterMap Visit.decl?).map (Decl.spelled σ)
  | [] => rfl
  | d :: ds => by
    simp [Decl.spelleds, Decl.allVisits, Decl.decls_spelled d, Decl.decls_spelleds ds]
end

end

def Spelling.same : Spelling := ⟨fun _ n => n, fun _ n => n, fun _ n => n⟩

mutual
theorem Expr.spelled_same : (e : Expr) → e.spelled Spelling.same.use = e
  | .lit .. | .bool .. | .path .. => rfl
  | .member t b n => congrArg (Expr.member t · n) (Expr.spelled_same b)
  | .index t b i => congrArg₂ (Expr.index t) (Expr.spelled_same b) (Expr.spelled_same i)
  | .call t c ts as => congrArg₂ (Expr.call t · ts ·) (Expr.spelled_same c) (Expr.spelleds_same as)
  | .construct t ty as => congrArg (Expr.construct t ty) (Expr.spelleds_same as)
  | .unary t op e => congrArg (Expr.unary t op) (Expr.spelled_same e)
  | .binary t op l r => congrArg₂ (Expr.binary t op) (Expr.spelled_same l) (Expr.spelled_same r)
theorem Expr.spelleds_same : (es : List Expr) → Expr.spelleds Spelling.same.use es = es
  | [] => rfl
  | e :: es => congrArg₂ List.cons (Expr.spelled_same e) (Expr.spelleds_same es)
end

@[simp] theorem Expr.map_spelled_same (e : Option Expr) :
    e.map (Expr.spelled Spelling.same.use) = e := by
  cases e with
  | none => rfl
  | some e => exact congrArg some e.spelled_same

theorem Key.map_spelled_same (ks : List Key) : ks.map (Key.spelled Spelling.same.use) = ks := by
  refine (map_congr_left fun k _ => ?_).trans (map_id ks)
  rw [Key.spelled, Expr.spelled_same]
  rfl

theorem Label.spelled_same (l : Label) (i : NodeId) : l.spelled (Spelling.same.label i) = l := by
  cases l <;> rfl

mutual
theorem Stmt.spelled_same : (s : Stmt) → s.spelled .same = s
  | .block t b => congrArg (Stmt.block t) (Block.spelled_same b)
  | .assign t l r => congrArg₂ (Stmt.assign t) l.spelled_same r.spelled_same
  | .call t e => congrArg (Stmt.call t) e.spelled_same
  | .ifThen t c a none => congrArg₂ (Stmt.ifThen t · · none) c.spelled_same (Stmt.spelled_same a)
  | .ifThen t c a (some b) => by
    rw [Stmt.spelled, Expr.spelled_same, Stmt.spelled_same a, Stmt.spelled_same b]
  | .switch t e cs => congrArg₂ (Stmt.switch t) e.spelled_same (Case.spelleds_same e.id cs)
  | .decl t d => congrArg (Stmt.decl t) (Decl.spelled_same d)
  | .ret t e => congrArg (Stmt.ret t) (Expr.map_spelled_same e)
  | .exit _ | .empty _ => rfl
theorem Block.spelled_same : (b : Block) → b.spelled .same = b
  | .mk i ss => congrArg (Block.mk i) (Stmt.spelleds_same ss)
theorem Stmt.spelleds_same : (ss : List Stmt) → Stmt.spelleds .same ss = ss
  | [] => rfl
  | s :: ss => congrArg₂ List.cons (Stmt.spelled_same s) (Stmt.spelleds_same ss)
theorem Case.spelleds_same (i : NodeId) : (cs : List Case) →
    Case.spelleds .same (Spelling.same.label i) cs = cs
  | [] => rfl
  | .run l b :: cs => by
    rw [Case.spelleds, Label.spelled_same, Block.spelled_same b, Case.spelleds_same i cs]
  | .fallThrough l :: cs => by rw [Case.spelleds, Label.spelled_same, Case.spelleds_same i cs]
theorem Decl.spelled_same : (d : Decl) → d.spelled .same = d
  | .action h ps b => congrArg (Decl.action h ps) (Block.spelled_same b)
  | .table h ks as d => by
    rw [Decl.spelled, Key.map_spelled_same, Expr.spelleds_same, Expr.map_spelled_same]
    rfl
  | .control h tps ps cps ls b =>
    congrArg₂ (Decl.control h tps ps cps) (Decl.spelleds_same ls) (Block.spelled_same b)
  | .inst h t as => congrArg (Decl.inst h t) (Expr.spelleds_same as)
  | .var h t e => congrArg (Decl.var h t) (Expr.map_spelled_same e)
  | .const h t e => congrArg (Decl.const h t) e.spelled_same
  | .header .. | .struct .. | .externType .. | .externFn .. | .package .. => rfl
theorem Decl.spelleds_same : (ds : List Decl) → Decl.spelleds .same ds = ds
  | [] => rfl
  | d :: ds => congrArg₂ List.cons (Decl.spelled_same d) (Decl.spelleds_same ds)
end

theorem Program.spelled_same (p : Program) : p.spelled .same = p :=
  congrArg Program.mk (Decl.spelleds_same p.decls)

namespace Program

variable {p : Program} {σ : Spelling}

theorem check_spelled (hσ : σ.Apart (· ∈ p.referents)) (hpl : ∀ pl ∈ p.places, pl.Spelled σ)
    (herr : p.check.errors = []) : (p.spelled σ).check =
      ⟨p.check.refs.over (Decl.spelled σ), p.check.types.over (Decl.spelled σ), []⟩ := by
  have hb := p.brings_visits
  have hall := (Check.retraces_defineAll hσ p.decls fun d hd => hb.decl hd).bind
    (Check.retraces_decls hσ p.decls hb)
  have hempty : Scopes.empty.Hold (· ∈ p.referents) (· ∈ p.referents) :=
    ⟨fun _ hf => absurd hf not_mem_nil, fun _ hx => absurd hx not_mem_nil⟩
  have hsame : Check.program (p.spelled σ) ⟨.empty, .empty, .empty, []⟩ = _ :=
    hall.same ⟨.empty, .empty, .empty, []⟩ hempty hpl herr
  change (⟨(Check.program (p.spelled σ) ⟨.empty, .empty, .empty, []⟩).2.refs,
    (Check.program (p.spelled σ) ⟨.empty, .empty, .empty, []⟩).2.types,
    (Check.program (p.spelled σ) ⟨.empty, .empty, .empty, []⟩).2.errors⟩ : Checked) = _
  rw [hsame]
  exact congrArg (Checked.mk _ _) herr

end Program

end MatchAction
