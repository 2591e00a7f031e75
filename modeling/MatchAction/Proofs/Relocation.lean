import MatchAction.Proofs.Outward

namespace MatchAction

open List

open Check Hoist

/-- The type of each variable is known at some place whose types are in sight farther out. -/
def Resolvable (outer : Scopes) (ds : List Decl) : Prop :=
  ∀ hd ty e, .var hd ty e ∈ ds → ∃ sc, outer.TypesFrom sc ∧ (sc.resolve ty).unknown = []

variable {ds : List Decl}

section

variable {outer : Scopes}

theorem Resolvable.nil : Resolvable outer [] := fun _ _ _ h => absurd h not_mem_nil

theorem Resolvable.append (hds : Resolvable outer ds) (hes : Resolvable outer es) :
    Resolvable outer (ds ++ es) := fun hd ty e h =>
  (mem_append.1 h).elim (hds hd ty e) (hes hd ty e)

theorem Stmt.typesFrom_after : (s : Stmt) → Holds s.visits → ∀ {sc : Scopes}, outer.TypesFrom sc →
    outer.TypesFrom (s.after sc)
  | .decl t d, hh, _, h => by
    have hd : d.flaw .block = 0 := hh t d (.head _)
    refine h.define d.name ?_
    rintro _ ⟨⟩
    cases d <;> first | rfl | cases hd
  | .ifThen _ _ a none, hh, _, h => a.typesFrom_after hh.tail.append.2 h
  | .ifThen _ _ a (some b), hh, _, h => b.typesFrom_after hh.tail.append.2
      (a.typesFrom_after hh.tail.append.1.append.2 h)
  | .block .., _, _, h | .assign .., _, _, h | .call .., _, _, h | .switch .., _, _,
    h | .ret .., _, _, h
  | .exit _, _, _, h | .empty _, _, _, h => h

theorem resolvable_decl (hd : d.flaw .block = 0) (h : outer.TypesFrom c.scopes)
    (herr : (Check.decl d c).2.errors = []) : Resolvable outer (declsOf d.visits) := by
  intro hd' ty e hm
  rw [d.declsOf_of_flaw hd] at hm
  cases mem_singleton.1 hm
  refine ⟨c.scopes, h, ?_⟩
  have hresolve : (resolveType ty hd'.span c).2.errors = [] := by
    cases e with
    | none => exact (quiet_setType _ _).errors _ herr
    | some e =>
      exact ((walks_expr e).errors _ ((quiet_expect _ _ _).errors _
        ((quiet_setType _ _).errors _ herr))).1
  exact map_eq_nil_iff.1 (append_eq_nil_iff.1 hresolve).2

mutual
theorem resolvable_stmt : (s : Stmt) → Holds s.visits → ∀ {c}, outer.TypesFrom c.scopes →
    (stmt s c).2.errors = [] → Resolvable outer (declsOf s.visits)
  | .block _ b, hh, _, h, herr => resolvable_block b hh.tail h herr
  | .ifThen t x a none, hh, c, h, herr => by
    have hcond := (walks_condition t x).scopes c
    rw [Stmt.visits, declsOf_stmt, declsOf_append, declsOf_expr]
    exact resolvable_stmt a hh.tail.append.2 (hcond ▸ h) herr
  | .ifThen t x a (some b), hh, c, h, herr => by
    have hcond := (walks_condition t x).scopes c
    have ha : Holds a.visits := hh.tail.append.1.append.2
    have hthen := (walks_stmt a).scopes (condition t x c).2
    rw [Stmt.visits, declsOf_stmt, declsOf_append, declsOf_append, declsOf_expr]
    refine (resolvable_stmt a ha (hcond ▸ h) ((walks_stmt b).errors _ herr).1).append
      (resolvable_stmt b hh.tail.append.2 ?_ herr)
    exact hthen ▸ a.typesFrom_after ha (hcond ▸ h)
  | .switch _ e cs, hh, c, h, herr => by
    have hvalue := (walks_expr e).scopes c
    rw [Stmt.visits, declsOf_stmt, declsOf_append, declsOf_expr]
    exact resolvable_cases cs hh.tail.append.2 (hvalue ▸ h) herr
  | .decl t d, hh, _, h, herr =>
    resolvable_decl (hh t d (.head _)) h ((walks_define d.name d.span (.decl d)).errors _ herr).1
  | .assign .., _, _, _, _ | .call .., _, _, _, _ | .ret .., _, _, _,
    _ => by simp [Stmt.visits, Resolvable.nil]
  | .exit _, _, _, _, _ | .empty _, _, _, _, _ => .nil
theorem resolvable_block : (b : Block) → Holds b.visits → ∀ {c}, outer.TypesFrom c.scopes →
    (block b c).2.errors = [] → Resolvable outer (declsOf b.visits)
  | .mk _ ss, hh, _, h, herr => resolvable_stmts ss hh.tail h.push herr
theorem resolvable_stmts : (ss : List Stmt) → Holds (Stmt.allVisits ss) →
    ∀ {c}, outer.TypesFrom c.scopes →
    (stmts ss c).2.errors = [] → Resolvable outer (declsOf (Stmt.allVisits ss))
  | [], _, _, _, _ => .nil
  | s :: ss, hh, c, h, herr => by
    have hs : Holds s.visits := hh.mono (subset_append_left _ _)
    have hscopes := (walks_stmt s).scopes c
    rw [Stmt.allVisits, declsOf_append]
    exact (resolvable_stmt s hs h ((walks_stmts ss).errors _ herr).1).append
      (resolvable_stmts ss hh.append.2
        (hscopes ▸ s.typesFrom_after hs h) herr)
theorem resolvable_cases : (cs : List Case) → Holds (Case.visits cs) →
    ∀ {c}, outer.TypesFrom c.scopes →
    (Check.cases cs c).2.errors = [] → Resolvable outer (declsOf (Case.visits cs))
  | [], _, _, _, _ => .nil
  | .run _ b :: cs, hh, c, h, herr => by
    have hscopes := (walks_block b).scopes c
    rw [Case.visits, declsOf_append]
    exact (resolvable_block b hh.append.1 h
      ((walks_cases cs).errors _ herr).1).append
      (resolvable_cases cs hh.append.2 (hscopes ▸ h) herr)
  | .fallThrough _ :: cs, hh, _, h, herr => resolvable_cases cs hh h herr
end

end

/-! New paths. -/

def Checker.Agrees (R : NodeId → Referent → Prop) (c : Checker) : Prop :=
  ∀ i r, (i, r) ∈ c.refs.targets.entries → R i r

theorem Check.Walks.agrees {R : NodeId → Referent → Prop} {α : Type} {x : Check α}
    {f : Scopes → Scopes}
    {ps : Scopes → List Place} {c : Checker} (hx : Walks x f ps) (h : (x c).2.Agrees R) :
      c.Agrees R :=
  fun i r hr => h i r ((hx.targets c (i, r)).2 (.inl hr))

def Refers (R : NodeId → Referent → Prop) (i : NodeId) (h : Head) : Prop := ∃ r, R i r ∧ r.id = h.id

def InSight (V : Versions) (M : List Decl) (sc : Scopes) : Prop :=
  ∀ m ∈ M, sc.lookup m.name = some (.decl (V.decl m))

section

variable {p : Program} {V : Versions} {n₀ : Nat} {A : NodeId → Head → Prop}
    {T : List String} {b : Block}
  {R : NodeId → Referent → Prop}

theorem refers_assigned (B : Body p V T b)
    (hT : hd.name ∉ T) (hs : (Stmt.decl t (.var hd ty (some e))).visits.Sublist b.visits)
    (h : InSight V (moved T b.visits) c.scopes)
    (hR : (stmt (.assign t' (.path l hd.name) e) c).2.Agrees R) : Refers R l.id hd := by
  obtain ⟨hv, hm⟩ := B.moves (hs.subset (.tail _ (Decl.enter_mem_visits _))) hT
  have hl : c.scopes.lookup hd.name = some (.decl (V.decl (.var hd ty (some e)))) := h _ hm
  refine ⟨.decl (V.decl (.var hd ty (some e))), hR _ _ ?_, (V.alike _).id⟩
  refine ((walks_stmt (.assign t' (.path l hd.name) e)).targets c _).2 (.inr ?_)
  refine mem_filterMap.2 ⟨(c.scopes, .expr (.path l hd.name)), ?_, ?_⟩
  · simp [Stmt.places, Scopes.all, Expr.visits, Expr.walk]
  · simp [Place.use?, hl]

theorem InSight.declare (B : Body p V T b) (hd : .enter d ∈ b.visits)
    (hm : Hoist.moves T d = false) (h : InSight V (moved T b.visits) sc) :
    InSight V (moved T b.visits) (sc.declare d) := by
  intro m hmem
  have hne : m.name ≠ d.name := fun he => (B.stays hd hm).2 (he ▸ mem_map_of_mem hmem)
  rw [Scopes.declare, Scopes.lookup_define_eq, if_neg fun hc => hne hc.2]
  exact h m hmem

mutual
theorem refers_stmt (B : Body p V T b) : {s : Stmt} → {ss : List Stmt} → StmtTo A T n₀ s ss →
    s.visits.Sublist b.visits → ∀ {c}, InSight V (moved T b.visits) c.scopes →
    (stmts ss c).2.Agrees R →
    StmtTo (Refers R) T n₀ s ss ∧ InSight V (moved T b.visits) (stmts ss c).2.scopes
  | _, _, .gone t hT ty, _, _, h, _ => ⟨.gone t hT ty, h⟩
  | _, _, .assigned t hT ty e hi _ hj, hs, c, h, hR => by
    rw [stmts_singleton] at hR ⊢
    refine ⟨.assigned t hT ty e hi (refers_assigned B hT hs h hR) hj, ?_⟩
    rw [(walks_stmt _).scopes]
    exact h
  | _, _, .stays t hd hm, hs, c, h, _ => by
    refine ⟨.stays t hd hm, ?_⟩
    rw [stmts_singleton, (walks_stmt _).scopes]
    exact h.declare B (hs.subset (.tail _ (Decl.enter_mem_visits _))) hm
  | _, _, .block t hb, hs, c, h, hR => by
    rw [stmts_singleton] at hR ⊢
    refine ⟨.block t (refers_block B hb ((sublist_cons_self _ _).trans hs) h hR), ?_⟩
    rw [(walks_stmt _).scopes]
    exact h
  | _, _, .ifThen t e ha hd, hs, c, h, hR => by
    have hparts := (sublist_cons_self _ _).trans hs
    have hcond := (walks_condition t e).scopes c
    rw [stmts_singleton] at hR ⊢
    obtain ⟨hto, hafter⟩ := refers_stmt B ha ((sublist_append_right _ _).trans hparts)
      (c := (condition t e c).2) (by rw [hcond]; exact h) (by rw [stmts_singleton]; exact hR)
    rw [stmts_singleton] at hafter
    exact ⟨.ifThen t e hto hd, hafter⟩
  | _, [.ifThen _ _ _ (some b₁)], .ifElse t e ha hd hb hd', hs, c, h, hR => by
    have hparts := (sublist_cons_self _ _).trans hs
    have hcond := (walks_condition t e).scopes c
    rw [stmts_singleton] at hR ⊢
    obtain ⟨hto, hmid⟩ := refers_stmt B ha ((sublist_append_right _ _).trans
      ((sublist_append_left _ _).trans hparts)) (c := (condition t e c).2)
      (by rw [hcond]; exact h) (by
        rw [stmts_singleton]
        exact (walks_stmt b₁).agrees hR)
    obtain ⟨hto', hafter⟩ := refers_stmt B hb ((sublist_append_right _ _).trans hparts) hmid (by
      rw [stmts_singleton, stmts_singleton]
      exact hR)
    rw [stmts_singleton, stmts_singleton] at hafter
    exact ⟨.ifElse t e hto hd hto' hd', hafter⟩
  | _, _, .switch t e hcs, hs, c, h, hR => by
    have hparts := (sublist_cons_self _ _).trans hs
    have hvalue := (walks_expr e).scopes c
    rw [stmts_singleton] at hR ⊢
    refine ⟨.switch t e (refers_cases B hcs ((sublist_append_right _ _).trans hparts)
      (c := (expr e c).2) (by rw [hvalue]; exact h) hR), ?_⟩
    rw [(walks_stmt _).scopes]
    exact h
  | _, _, .assign t l r, _, _, h, _ => by
    rw [stmts_singleton, (walks_stmt _).scopes]
    exact ⟨.assign t l r, h⟩
  | _, _, .call t e, _, _, h, _ => by
    rw [stmts_singleton, (walks_stmt _).scopes]
    exact ⟨.call t e, h⟩
  | _, _, .ret t e, _, _, h, _ => by
    rw [stmts_singleton, (walks_stmt _).scopes]
    exact ⟨.ret t e, h⟩
  | _, _, .exit t, _, _, h, _ => ⟨.exit t, h⟩
  | _, _, .empty t, _, _, h, _ => ⟨.empty t, h⟩
theorem refers_block (B : Body p V T b) : {b₁ b₂ : Block} → BlockTo A T n₀ b₁ b₂ →
    b₁.visits.Sublist b.visits → ∀ {c}, InSight V (moved T b.visits) c.scopes →
    (block b₂ c).2.Agrees R → BlockTo (Refers R) T n₀ b₁ b₂
  | _, _, .mk i hss, hs, c, h, hR =>
    .mk i (refers_stmts B hss ((sublist_cons_self _ _).trans hs)
      (c := { c with scopes := c.scopes.push }) h hR).1
theorem refers_stmts (B : Body p V T b) : {ss ss' : List Stmt} → StmtsTo A T n₀ ss ss' →
    (Stmt.allVisits ss).Sublist b.visits → ∀ {c}, InSight V (moved T b.visits) c.scopes →
    (stmts ss' c).2.Agrees R →
    StmtsTo (Refers R) T n₀ ss ss' ∧ InSight V (moved T b.visits) (stmts ss' c).2.scopes
  | _, _, .nil, _, _, h, _ => ⟨.nil, h⟩
  | _, _, @StmtsTo.cons _ _ _ _ _ _ us ht htss, hs, _, h, hR => by
    rw [stmts_append] at hR ⊢
    obtain ⟨hto, hmid⟩ := refers_stmt B ht ((sublist_append_left _ _).trans hs) h
      ((walks_stmts us).agrees hR)
    obtain ⟨htos, hafter⟩ := refers_stmts B htss ((sublist_append_right _ _).trans hs) hmid hR
    exact ⟨.cons hto htos, hafter⟩
theorem refers_cases (B : Body p V T b) : {cs cs' : List Case} → CasesTo A T n₀ cs cs' →
    (Case.visits cs).Sublist b.visits → ∀ {c}, InSight V (moved T b.visits) c.scopes →
    (Check.cases cs' c).2.Agrees R → CasesTo (Refers R) T n₀ cs cs'
  | _, _, .nil, _, _, _, _ => .nil
  | _, .run _ b₂ :: cs₂, .run l hb hcs, hs, c, h, hR => by
    have hscopes := (walks_block b₂).scopes c
    refine .run l (refers_block B hb ((sublist_append_left _ _).trans hs) h
      ((walks_cases cs₂).agrees hR)) ?_
    exact refers_cases B hcs ((sublist_append_right _ _).trans hs) (c := (block b₂ c).2)
      (by rw [hscopes]; exact h) hR
  | _, _, .fallThrough l hcs, hs, _, h, hR => .fallThrough l (refers_cases B hcs hs h hR)
end

end

/-! The output has the versions of what is declared. -/

def Versions.Covers (V : Versions) (vs : List Visit) : Prop :=
  ∀ e e', .enter e' ∈ vs → e.Alike e' → V.decl e = e'

variable {vs : List Visit}

theorem Body.ofBlockTo (hb : BlockTo A T n₀ b b') (hV : V.Covers vs)
    (hleft : declsOf b'.visits ⊆ declsOf vs) (hmoved : ∀ m ∈ moved T b.visits, .enter m.frame ∈ vs)
    (hin : b.visits.Sublist p.visits) (htidy : Tidy b.visits) : Body p V T b where
  within := hin
  tidy := htidy
  versions d hd := by
    cases hm : Hoist.moves T d with
    | false =>
      have hd' : d ∈ declsOf b'.visits := by
        rw [hb.declsOf_eq, left, mem_filter, hm]
        exact ⟨hd, rfl⟩
      exact hV d d (mem_declsOf.1 (hleft hd')) (.refl d)
    | true =>
      refine hV d d.frame (hmoved d (mem_filter.2 ⟨hd, hm⟩)) ?_
      cases d with
      | var h ty e => exact .var rfl ty ty e none
      | _ => cases hm

variable {front : List Stmt}

namespace Hoist

variable {A : NodeId → Head → Prop} {T : List String} {n₀ : Nat} {d d' : Decl}

theorem ActionTo.alike (h : ActionTo A T n₀ d d') : d.Alike d' := by
  cases h with
  | mk h ps => exact .action rfl ps _ _

theorem LocalTo.alike (h : LocalTo A T n₀ d d') : d.Alike d' := by
  cases h with
  | action h => exact h.alike
  | same => exact .refl d

theorem DeclTo.alike (h : DeclTo A T n₀ d d') : d.Alike d' := by
  cases h with
  | action h => exact h.alike
  | control h tps ps cps => exact .control rfl tps ps cps _ _ _ _
  | same => exact .refl d

theorem ActionTo.head (h : ActionTo A T n₀ d d') : d'.head = d.head := by
  cases h with
  | mk => rfl

theorem LocalTo.head (h : LocalTo A T n₀ d d') : d'.head = d.head := by
  cases h with
  | action h => exact h.head
  | same => rfl

theorem DeclTo.head (h : DeclTo A T n₀ d d') : d'.head = d.head := by
  cases h with
  | action h => exact h.head
  | control | same => rfl

theorem enter_mem_front {ms : List Decl} (h : List.Forall₂ (fun m s => ∃ t : Tag,
      n₀ ≤ t.id.val ∧ s = .decl t m.frame) ms front) {m : Decl} (hm : m ∈ ms) :
    .enter m.frame ∈ Stmt.allVisits front := by
  induction h with
  | nil => cases hm
  | cons hd _ ih =>
    obtain ⟨t, -, rfl⟩ := hd
    rcases mem_cons.1 hm with rfl | hm
    · exact mem_append_left _ (.tail _ (Decl.enter_mem_visits _))
    · exact mem_append_right _ (ih hm)

end Hoist

def Scopes.Within (T : List String) (sc : Scopes) : Prop := ∀ n r, sc.lookup n = some r → n ∈ T

namespace Scopes.Within

variable {T : List String} {sc : Scopes}

theorem define (h : sc.Within T) (n : String) (r : Referent) :
    (sc.define n r).2.Within (n :: T) := by
  intro m x hl
  rw [lookup_define_eq] at hl
  split at hl
  · rename_i hcond
    exact hcond.2 ▸ .head _
  · exact .tail _ (h m x hl)

theorem mono (h : sc.Within T) (hs : T ⊆ T') : sc.Within T' := fun n r hl =>
  hs (h n r hl)

theorem declareParams (h : sc.Within T) (ps : List Param) :
    (sc.declareParams ps).Within (ps.map (·.name) ++ T) := by
  induction ps generalizing sc T with
  | nil => exact h
  | cons q ps ih =>
    refine (ih (h.define q.name (.param q))).mono fun n hn => ?_
    simpa [or_left_comm] using hn

theorem declares (h : sc.Within T) (ds : List Decl) :
    (sc.declares ds).Within (ds.map (·.name) ++ T) := by
  induction ds generalizing sc T with
  | nil => exact h
  | cons d ds ih =>
    refine (ih (h.define d.name (.decl d))).mono fun n hn => ?_
    simpa [or_left_comm] using hn

end Scopes.Within

namespace Check

theorem locals_append (ds es : List Decl) :
    locals (ds ++ es) = (locals ds >>= fun _ => locals es) := by
  induction ds with
  | nil => rfl
  | cons d ds ih => simp only [cons_append, locals, ih, bind_assoc]

theorem stmts_front (h : List.Forall₂ (fun m s => ∃ t : Tag,
      n₀ ≤ t.id.val ∧ s = .decl t m.frame) ms front) : stmts front =
        locals (ms.map Decl.frame) := by
  induction h with
  | nil => rfl
  | cons hd _ ih =>
    obtain ⟨t, -, rfl⟩ := hd
    simp only [stmts, stmt, map_cons, locals, ih, bind_assoc]

end Check

namespace Beside

variable {p : Program} {V : Versions} {n₀ : Nat} {A : NodeId → Head → Prop}
    {T : List String} {b : Block}
  {R : NodeId → Referent → Prop} {M : List Decl} {outer : Scopes} {c c' : Checker}

theorem restart (h : Beside p V n₀ M outer [] c c') (outer' : Scopes) :
    Beside p V n₀ M outer' [] c c' :=
  ⟨h.names, h.refs, h.types, h.errors, h.clear, h.pending, h.among, h.nodup,
    fun hne => absurd rfl hne, fun hm => absurd hm not_mem_nil⟩

theorem fronts_append (S : Setting p V n₀) (B : Body p V T b) (hT : c.scopes.Within T)
    (hres : Resolvable c.scopes (declsOf b.visits)) (M₁ M₂ : List Decl)
    (hM : M₁ ++ M₂ = moved T b.visits) (h : Beside p V n₀ M₁ c.scopes M₁ c c') :
    Beside p V n₀ (M₁ ++ M₂) c.scopes (M₁ ++ M₂) c (locals (M₂.map Decl.frame) c').2 := by
  induction M₂ generalizing M₁ c' with
  | nil =>
    rw [append_nil]
    exact h
  | cons m M₂ ih =>
    have hm : m ∈ moved T b.visits := hM ▸ mem_append_right _ (.head _)
    obtain ⟨hin, hmoves⟩ := mem_moved.1 hm
    cases m with
    | var hd ty e =>
      have hname : hd.name ∉ T := of_decide_eq_true hmoves
      have henter := B.within.subset hin
      have hr : .decl (.var hd ty e) ∈ p.referents :=
        mem_flatMap.2 ⟨_, Program.mem_allDecls.2 henter, Decl.self_mem_referents _⟩
      have hl : c.scopes.lookup hd.name = none := by
        cases hl : c.scopes.lookup hd.name with
        | none => rfl
        | some r => exact absurd (hT _ r hl) hname
      have hnames : ((moved T b.visits).map (·.name)).Nodup :=
        B.tidy.nodup.sublist (filter_sublist.map _)
      rw [← hM, map_append, map_cons, List.nodup_append] at hnames
      have hname' : hd.name ∉ M₁.map (·.name) := fun hmem => hnames.2.2 _ hmem _ (.head _) rfl
      have hid : hd.id ∉ M₁.map Decl.id := fun hmem => by
        obtain ⟨m, hm, hid⟩ := mem_map.1 hmem
        cases S.eq_enter (h.pending m hm) henter (congrArg some hid)
        exact hname' (mem_map_of_mem hm)
      have hsight : ∀ {n r}, c.scopes.lookup n = some r → r.id ≠ hd.id := fun {n r} hl hid => by
        obtain ⟨hheld, hn⟩ := h.names.held hl
        cases Program.eq_decl_of_id S.ids hheld (Program.mem_allDecls.2 henter) hid
        have hn : hd.name = n := hn
        exact hname (hn ▸ hT n _ hl)
      have hfront := h.front S henter (B.moves hin hname).1 hl hname' hid hsight
        (hres hd ty e (mem_declsOf.2 hin))
      have hrest := ih (M₁ ++ [.var hd ty e]) (by rw [append_assoc]; exact hM) hfront
      rw [append_assoc] at hrest
      exact hrest
    | _ => cases hmoves

theorem fronts (S : Setting p V n₀) (B : Body p V T b) (hT : c.scopes.Within T)
    (hres : Resolvable c.scopes (declsOf b.visits)) (h : Beside p V n₀ [] outer [] c c') :
    Beside p V n₀ (moved T b.visits) c.scopes (moved T b.visits ++ []) c
      (locals ((moved T b.visits).map Decl.frame) c').2 := by
  rw [append_nil]
  exact fronts_append S B hT hres [] _ rfl (h.restart c.scopes)

theorem ofParams (S : Setting p V n₀) (ps : List Param) (hps : ∀ q ∈ ps, .param q ∈ p.referents)
    (h : Beside p V n₀ [] outer [] c c') (herr : (defineParams ps c).2.errors = []) :
    Beside p V n₀ [] outer [] (defineParams ps c).2 (defineParams ps c').2 := by
  induction ps generalizing c c' with
  | nil => exact h
  | cons q ps ih =>
    have hq := hps q (.head _)
    have hdefine := ((walks_defineParams ps).errors _ herr).1
    have htype := ((walks_define q.name q.span (.param q)).errors _ hdefine).1
    have hstep := (h.step S (echoes_paramType q) (sets_paramType (L := fun _ => False)
      (S.param_apart hq)) (fun m hm => absurd hm not_mem_nil) htype).2
    exact ih (fun q hq => hps q (.tail _ hq)) (hstep.define ⟨hq, rfl⟩ not_mem_nil not_mem_nil
      trivial (fun hne => absurd rfl hne) q.span hdefine) herr

theorem ofActionBody (S : Setting p V n₀) (hps : ∀ q ∈ ps, .param q ∈ p.referents)
    (B : Body p V (ps.map (·.name) ++ T) (.mk i ss))
    (hss : StmtsTo A (ps.map (·.name) ++ T) n₀ ss ss')
    (hfront : stmts front = locals ((moved (ps.map (·.name) ++ T) (Block.mk i ss).visits).map
      Decl.frame))
    (hT : c.scopes.Within T) (h : Beside p V n₀ [] outer [] c c')
    (herr : (stmts ss (defineParams ps c).2).2.errors = [])
    (hR : (stmts (front ++ ss') (defineParams ps c').2).2.Agrees R) :
    Beside p V n₀ (moved (ps.map (·.name) ++ T) (Block.mk i ss).visits) outer []
      (stmts ss (defineParams ps c).2).2 (stmts (front ++ ss') (defineParams ps c').2).2 ∧
      StmtsTo (Refers R) (ps.map (·.name) ++ T) n₀ ss ss' := by
  have hpar := h.ofParams S ps hps ((walks_stmts ss).errors _ herr).1
  have hwithin : (defineParams ps c).2.scopes.Within (ps.map (·.name) ++ T) := by
    rw [(walks_defineParams ps).scopes]
    exact hT.declareParams ps
  have hres := resolvable_stmts ss (B.tidy.holds.mono (subset_cons_self _ _)) (.refl _) herr
  have hfronts := hpar.fronts S B hwithin hres
  rw [stmts_append, hfront] at hR ⊢
  exact ⟨(hfronts.ofStmts S B hss (sublist_cons_self _ _) herr).restart outer,
    (refers_stmts B hss (sublist_cons_self _ _) hfronts.names.moved hR).1⟩

theorem ofAction (S : Setting p V n₀) (hV : V.Covers vs) {d d' : Decl}
    (hto : ActionTo A T n₀ d d') (hd : d.visits.Sublist p.visits) (hd' : d'.visits ⊆ vs)
    (htidy : ∀ b, d.body? = some b → Tidy b.visits) (hT : c.scopes.Within T)
    (h : Beside p V n₀ [] outer [] c c') (herr : (Check.decl d c).2.errors = [])
    (hR : (Check.decl d' c').2.Agrees R) :
    Beside p V n₀ [] outer [] (Check.decl d c).2 (Check.decl d' c').2 ∧
      ActionTo (Refers R) T n₀ d d' := by
  cases hto with
  | @mk h₀ ps b b' hb front hfront =>
  have B : Body p V (ps.map (·.name) ++ T) b := by
    refine .ofBlockTo hb hV (fun e he => ?_) (fun m hm => ?_)
      (((sublist_append_left _ _).trans (sublist_cons_self _ _)).trans hd) (htidy b rfl)
    · refine mem_declsOf.2 (hd' ?_)
      obtain ⟨j, ss⟩ := b'
      have hin : .enter e ∈ Stmt.allVisits ss := by simpa [Block.visits] using mem_declsOf.1 he
      simp [Decl.visits, Block.visits, Block.stmts, Stmt.allVisits_append, hin]
    · have hin := enter_mem_front hfront hm
      exact hd' (by simp [Decl.visits, Block.visits, Stmt.allVisits_append, hin])
  cases hb with
  | @mk i ss ss' hss =>
  have hready := (Program.ready_visits S.ids).sublist hd
  have hps : ∀ q ∈ ps, ¬ p.nodes q.id := hready.clear (Decl.enter_mem_visits _)
  have hparams : ∀ q ∈ ps, .param q ∈ p.referents := fun q hq => mem_flatMap.2
    ⟨_, Program.mem_allDecls.2 (hd.subset (Decl.enter_mem_visits _)), by
      simp [Decl.referents, Decl.params, hq]⟩
  have hecho : Echoes (.until V n₀ []) p.exprs id
      (actionType ps >>= fun s => setType h₀.id (.method s))
      (actionType ps >>= fun s => setType h₀.id (.method s)) :=
    (echoes_actionType ps).bind fun s => echoes_setType h₀.id (.method s)
  have hsets : Sets p.nodes (fun _ => True) Any
      (actionType ps >>= fun s => setType h₀.id (.method s)) :=
    (sets_actionType hps).bind fun s hs => sets_setType (fun _ => trivial) hs fun hw =>
      absurd hw (hready.not_written_decl (Decl.enter_mem_visits _) rfl)
  have hw := walks_inFrame ((walks_defineParams ps).bind fun _ => walks_stmts ss) fun sc =>
    sc.pop_action ps ss
  have hw' := walks_inFrame ((walks_defineParams ps).bind fun _ => walks_stmts (front ++ ss'))
      fun sc =>
    sc.pop_action ps (front ++ ss')
  have hstep := (h.step S hecho hsets (fun m hm => absurd hm not_mem_nil) (hw.errors _ herr).1).2
  obtain ⟨hafter, hto⟩ := hstep.push.ofActionBody S hparams B hss (stmts_front hfront)
    (hecho.scopes c ▸ hT) herr hR
  exact ⟨hstep.inFrame hw hw' hafter (List.Subset.refl []), .mk h₀ ps (.mk i hto) hfront⟩

theorem ofPlain (S : Setting p V n₀) (hb : d.body? = none) (hv : V.decl d = d)
    (hd : d.visits.Sublist p.visits) (h : Beside p V n₀ [] outer [] c c')
    (herr : (Check.decl d c).2.errors = []) :
    Beside p V n₀ [] outer [] (Check.decl d c).2 (Check.decl d c').2 :=
  (h.step S (echoes_plain S.path hb hv hd.subset)
    (runs_decl d ((Program.ready_visits S.ids).sublist hd)).sets (fun _ hm => absurd hm not_mem_nil)
    herr).2

theorem defines (S : Setting p V n₀) (hv : V.decl d = d') (hhead : d'.head = d.head)
    (hd : .enter d ∈ p.visits) (h : Beside p V n₀ [] outer [] c c')
    (herr : (defineDecl d c).2.errors = []) :
    Beside p V n₀ [] outer [] (defineDecl d c).2 (defineDecl d' c').2 := by
  have hr : .decl d ∈ p.referents :=
    mem_flatMap.2 ⟨d, Program.mem_allDecls.2 hd, d.self_mem_referents⟩
  have hdef := h.define ⟨hr, rfl⟩ not_mem_nil not_mem_nil
    ((Program.ready_visits S.ids).clear hd) (fun hne => absurd rfl hne) d.span herr
  rw [Referent.over, hv] at hdef
  have hname : d'.name = d.name := congrArg Head.name hhead
  have hspan : d'.span = d.span := congrArg Head.span hhead
  rw [defineDecl, defineDecl, hname, hspan]
  exact hdef

theorem ofLocals (S : Setting p V n₀) (hV : V.Covers vs) {ls ls' : List Decl}
    (hto : List.Forall₂ (LocalTo A T n₀) ls ls') (hls : (Decl.allVisits ls).Sublist p.visits)
    (hls' : Decl.allVisits ls' ⊆ vs) (htidy : ∀ l ∈ ls, ∀ b, l.body? = some b → Tidy b.visits)
    (hflaw : ∀ l ∈ ls, l.flaw .control = 0) (hnames : ∀ l ∈ ls, l.name ∈ T) (hT : c.scopes.Within T)
    (h : Beside p V n₀ [] outer [] c c') (herr : (locals ls c).2.errors = [])
    (hR : (locals ls' c').2.Agrees R) :
    Beside p V n₀ [] outer [] (locals ls c).2 (locals ls' c').2 ∧
      List.Forall₂ (LocalTo (Refers R) T n₀) ls ls' := by
  induction hto generalizing c c' with
  | nil => exact ⟨h, .nil⟩
  | @cons d d' ls ls' hd hto ih =>
    have hself : d.visits.Sublist p.visits := (sublist_append_left _ _).trans hls
    have hself' : d'.visits ⊆ vs := List.Subset.trans (subset_append_left _ _) hls'
    have hv : V.decl d = d' := hV d d' (hself' d'.enter_mem_visits) hd.alike
    have hdefine := ((walks_locals ls).errors _ herr).1
    have hdecl := ((walks_define d.name d.span (.decl d)).errors _ hdefine).1
    have hRdecl : (Check.decl d' c').2.Agrees R :=
      (walks_define d'.name d'.span (.decl d')).agrees ((walks_locals ls').agrees hR)
    have hone : Beside p V n₀ [] outer [] (Check.decl d c).2 (Check.decl d' c').2 ∧
        LocalTo (Refers R) T n₀ d d' := by
      cases hd with
      | action hact =>
        obtain ⟨hafter, hact⟩ := h.ofAction S hV hact hself hself' (htidy d (.head _)) hT
          hdecl hRdecl
        exact ⟨hafter, .action hact⟩
      | same hact =>
        have hb : d.body? = none := by
          have hd := hflaw d (.head _)
          cases d with
          | action => cases hact
          | control => cases hd
          | _ => rfl
        exact ⟨h.ofPlain S hb hv hself hdecl, .same hact⟩
    have hscopes : (defineDecl d (Check.decl d c).2).2.scopes.Within T := by
      rw [defineDecl, (walks_define _ _ _).scopes, (walks_decl d).scopes]
      refine (hT.define d.name (.decl d)).mono fun n hn => ?_
      rcases mem_cons.1 hn with rfl | hn
      · exact hnames d (.head _)
      · exact hn
    have hafter := hone.1.defines S hv hd.head (hself.subset d.enter_mem_visits) hdefine
    obtain ⟨hrest, hto⟩ := ih ((sublist_append_right _ _).trans hls)
      (List.Subset.trans (subset_append_right _ _) hls') (fun l hl => htidy l (.tail _ hl))
      (fun l hl => hflaw l (.tail _ hl)) (fun l hl => hnames l (.tail _ hl)) hscopes hafter herr hR
    exact ⟨hrest, .cons hone.2 hto⟩

theorem pushTypeParams (h : Beside p V n₀ M outer [] c c') (tps : List String) :
    Beside p V n₀ M outer [] { c with scopes := c.scopes.pushTypeParams tps }
      { c' with scopes := c'.scopes.pushTypeParams tps } :=
  ⟨h.names.pushTypeParams tps, h.refs, h.types, h.errors, h.clear.pushTypeParams tps,
    h.pending, h.among, h.nodup, fun hne => absurd rfl hne, fun hm => absurd hm not_mem_nil⟩

theorem withTypeParams (hx : Walks x id ps)
    (hx' : Walks x' id ps') (tps : List String) (h : Beside p V n₀ M outer [] c c')
    (he : Beside p V n₀ M outer [] (x { c with scopes := c.scopes.pushTypeParams tps }).2
      (x' { c' with scopes := c'.scopes.pushTypeParams tps }).2) :
    Beside p V n₀ M outer [] (Check.withTypeParams tps x c).2
      (Check.withTypeParams tps x' c').2 := by
  rw [withTypeParams_apply, withTypeParams_apply, hx.scopes, hx'.scopes]
  exact h.back he (List.Subset.refl [])

theorem ofControlBody (S : Setting p V n₀) (hV : V.Covers vs) {ps cps : List Param}
    (hps : ∀ q ∈ ps ++ cps, .param q ∈ p.referents) {T' : List String} {ls ls' : List Decl}
    {b b' : Block}
    (hT' : T' = ls.map (·.name) ++ (ps ++ cps).map (·.name) ++ T)
    (hto : List.Forall₂ (LocalTo A T' n₀) ls ls') (hls : (Decl.allVisits ls).Sublist p.visits)
    (hls' : Decl.allVisits ls' ⊆ vs) (htidy : ∀ l ∈ ls, ∀ b, l.body? = some b → Tidy b.visits)
    (hflaw : ∀ l ∈ ls, l.flaw .control = 0) (B : Body p V T' b) (hb : BlockTo A T' n₀ b b')
    (h : Beside p V n₀ [] outer [] c c') (hT : c.scopes.Within T)
    (herr : (block b (locals ls (defineParams ps (defineParams cps c).2).2).2).2.errors = [])
    (hR : (block b' (locals (ls' ++ (moved T' b.visits).map Decl.frame)
      (defineParams ps (defineParams cps c').2).2).2).2.Agrees R) :
    Beside p V n₀ (moved T' b.visits) outer []
      (block b (locals ls (defineParams ps (defineParams cps c).2).2).2).2
      (block b' (locals (ls' ++ (moved T' b.visits).map Decl.frame)
        (defineParams ps (defineParams cps c').2).2).2).2 ∧
      List.Forall₂ (LocalTo (Refers R) T' n₀) ls ls' ∧ BlockTo (Refers R) T' n₀ b b' := by
  have hlocals := ((walks_block b).errors _ herr).1
  have hparams := ((walks_locals ls).errors _ hlocals).1
  have hcps := ((walks_defineParams ps).errors _ hparams).1
  -- the parameters
  have hpar := (h.ofParams S cps (fun q hq => hps q (mem_append_right _ hq)) hcps).ofParams S ps
    (fun q hq => hps q (mem_append_left _ hq)) hparams
  have hwithin : (defineParams ps (defineParams cps c).2).2.scopes.Within T' := by
    rw [(walks_defineParams ps).scopes, (walks_defineParams cps).scopes]
    refine ((hT.declareParams cps).declareParams ps).mono fun n hn => ?_
    rw [hT', append_assoc, map_append, append_assoc]
    exact mem_append_right _ hn
  -- the locals
  rw [locals_append] at hR ⊢
  obtain ⟨hafter, hto⟩ := hpar.ofLocals S hV hto hls hls' htidy hflaw
    (fun l hl => by simpa [hT'] using .inl ⟨l, hl, rfl⟩) hwithin hlocals
    ((walks_locals _).agrees ((walks_block b').agrees hR))
  have hwithin' : (locals ls (defineParams ps (defineParams cps c).2).2).2.scopes.Within T' := by
    rw [(walks_locals ls).scopes]
    refine (hwithin.declares ls).mono (append_subset.2 ⟨fun n hn => ?_, List.Subset.refl _⟩)
    rw [hT', append_assoc]
    exact mem_append_left _ hn
  -- the body
  have hfronts := hafter.fronts S B hwithin' (resolvable_block b B.tidy.holds (.refl _) herr)
  exact ⟨(hfronts.ofBlock S B hb (List.Sublist.refl _) herr).restart outer, hto,
    refers_block B hb (List.Sublist.refl _) hfronts.names.moved hR⟩

theorem ofDecl (S : Setting p V n₀) (hp : p.Orderly) (hV : V.Covers vs)
    (hto : DeclTo A T n₀ d d') (hd : d.visits.Sublist p.visits) (hd' : d'.visits ⊆ vs)
    (htidy : ∀ e, .enter e ∈ d.visits → ∀ b, e.body? = some b → Tidy b.visits)
    (hT : c.scopes.Within T)
    (h : Beside p V n₀ [] outer [] c c') (herr : (Check.decl d c).2.errors = [])
    (hR : (Check.decl d' c').2.Agrees R) :
    Beside p V n₀ [] outer [] (Check.decl d c).2 (Check.decl d' c').2 ∧
      DeclTo (Refers R) T n₀ d d' := by
  have hself := htidy d d.enter_mem_visits
  have halike := hto.alike
  cases hto with
  | action hact =>
    obtain ⟨hafter, hact⟩ := h.ofAction S hV hact hd hd' hself hT herr hR
    exact ⟨hafter, .action hact⟩
  | same ha hc =>
    have hb : d.body? = none := by
      cases d with
      | action => cases ha
      | control => cases hc
      | _ => rfl
    exact ⟨h.ofPlain S hb (hV d d (hd' d.enter_mem_visits) halike) hd herr, .same ha hc⟩
  | @control h₀ tps ps cps ls ls' b b' T' hT' hls hb =>
    have hparts : (Decl.allVisits ls ++ b.visits).Sublist p.visits :=
      ((sublist_append_left _ _).trans (sublist_cons_self _ _)).trans hd
    have hlocals : ∀ l ∈ ls, .enter l ∈ (Decl.control h₀ tps ps cps ls b).visits := fun l hl => by
      simp [Decl.visits, Decl.mem_allVisits.2 ⟨l, hl, l.enter_mem_visits⟩]
    have henter := hd.subset (Decl.enter_mem_visits _)
    have hparams : ∀ q ∈ ps ++ cps, .param q ∈ p.referents := fun q hq => mem_flatMap.2
      ⟨_, Program.mem_allDecls.2 henter, by simpa [Decl.referents, Decl.params, or_comm] using hq⟩
    have B : Body p V T' b := by
      refine .ofBlockTo hb hV (fun e he => ?_) (fun m hm => ?_)
        ((sublist_append_right _ _).trans hparts) (hself b rfl)
      · exact mem_declsOf.2 (hd' (by simp [Decl.visits, mem_declsOf.1 he]))
      · have hin : .enter m.frame ∈ Decl.allVisits (ls' ++ (moved T' b.visits).map Decl.frame) :=
          Decl.mem_allVisits.2 ⟨_, mem_append_right _ (mem_map_of_mem hm), Decl.enter_mem_visits _⟩
        exact hd' (by simp [Decl.visits, hin])
    have hw := walks_inFrame ((walks_defineParams cps).bind fun _ => (walks_defineParams ps).bind
        fun _ =>
      (walks_locals ls).bind fun _ => walks_block b) fun sc => sc.pop_control ps cps ls
    have hw' := walks_inFrame ((walks_defineParams cps).bind fun _ => (walks_defineParams ps).bind
        fun _ =>
      (walks_locals (ls' ++ (moved T' b.visits).map Decl.frame)).bind fun _ => walks_block b')
        fun sc =>
      sc.pop_control ps cps _
    obtain ⟨hafter, hls, hb⟩ := (h.pushTypeParams tps).push.ofControlBody S hV hparams hT' hls
      ((sublist_append_left _ _).trans hparts)
      (fun v hv => hd' (by simp [Decl.visits, Decl.allVisits_append, hv]))
      (fun l hl => htidy l (hlocals l hl)) (hp.locals henter) B hb hT herr hR
    exact ⟨h.withTypeParams hw hw' tps ((h.pushTypeParams tps).inFrame hw hw' hafter
      (List.Subset.refl [])), .control h₀ tps ps cps hT' hls hb⟩

theorem ofDefineAll (S : Setting p V n₀) (hV : V.Covers vs)
    (hto : List.Forall₂ (DeclTo A T n₀) ds ds') (hds : Decl.allVisits ds ⊆ p.visits)
    (hds' : Decl.allVisits ds' ⊆ vs) (h : Beside p V n₀ [] outer [] c c')
    (herr : (defineAll ds c).2.errors = []) :
    Beside p V n₀ [] outer [] (defineAll ds c).2 (defineAll ds' c').2 := by
  induction hto generalizing c c' with
  | nil => exact h
  | @cons d d' ds ds' hd hto ih =>
    have hdefine := ((walks_defineAll ds).errors _ herr).1
    have hv : V.decl d = d' := hV d d' (hds' (mem_append_left _ d'.enter_mem_visits)) hd.alike
    have hafter := h.defines S hv hd.head (hds (mem_append_left _ d.enter_mem_visits)) hdefine
    exact ih (fun v hv => hds (mem_append_right _ hv)) (fun v hv => hds' (mem_append_right _ hv))
      hafter herr

theorem ofDecls (S : Setting p V n₀) (hp : p.Orderly) (hV : V.Covers vs)
    {ds' : List Decl} (hto : List.Forall₂ (DeclTo A T n₀) ds ds')
    (hds : (Decl.allVisits ds).Sublist p.visits) (hds' : Decl.allVisits ds' ⊆ vs)
    (htidy : ∀ e, .enter e ∈ Decl.allVisits ds → ∀ b, e.body? = some b → Tidy b.visits)
    (hT : c.scopes.Within T) (h : Beside p V n₀ [] outer [] c c')
    (herr : (decls ds c).2.errors = [])
    (hR : (decls ds' c').2.Agrees R) :
    Beside p V n₀ [] outer [] (decls ds c).2 (decls ds' c').2 ∧
      List.Forall₂ (DeclTo (Refers R) T n₀) ds ds' := by
  induction hto generalizing c c' with
  | nil => exact ⟨h, .nil⟩
  | @cons d d' ds ds' hd hto ih =>
    have hdecl := ((walks_decls ds).errors _ herr).1
    have hscopes := (walks_decl d).scopes c
    obtain ⟨hafter, hone⟩ := h.ofDecl S hp hV hd ((sublist_append_left _ _).trans hds)
      (fun v hv => hds' (mem_append_left _ hv)) (fun e he => htidy e (mem_append_left _ he)) hT
        hdecl
      ((walks_decls ds').agrees hR)
    obtain ⟨hrest, hto⟩ := ih ((sublist_append_right _ _).trans hds)
      (fun v hv => hds' (mem_append_right _ hv)) (fun e he => htidy e (mem_append_right _ he))
      (hscopes ▸ hT) hafter herr hR
    exact ⟨hrest, .cons hone hto⟩

end Beside

end MatchAction
