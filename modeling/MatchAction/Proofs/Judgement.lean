import MatchAction.Proofs.Steadiness

/-!
When a program is accepted. A check walks through the program with a state, but whether it reports
something at a node depends on the names in sight there and on the declared types of the values
that are named. So a program is accepted if and only if each of its nodes is, taken by itself; this
needs types to be declared at the toplevel, since the types of parameters are written down anew at
every use.
-/

namespace MatchAction

open List

/-! What is checked at a node itself, and not at the nodes below it. -/

def Visit.exprs (v : Visit) : List Expr := v.inner.filterMap Visit.expr?

theorem Visit.mem_exprs {v : Visit} {e : Expr} : e ∈ v.exprs ↔ .expr e ∈ v.inner := by
  refine mem_filterMap.trans ⟨?_, fun h => ⟨_, h, rfl⟩⟩
  rintro ⟨w, hw, he⟩
  cases w <;> cases he
  exact hw

namespace Check

def value (h : Head) (type : TypeExpr) (e : Option Expr) : Check Unit := do
  let declared ← resolveType type h.span
  match e with
  | some e =>
    let found ← expr e
    expect declared found (e.span.or h.span)
  | none => pure ()

theorem initialised_apply (h : Head) (ty : TypeExpr) (e : Option Expr) (c : Checker) :
    initialised h ty e c = setType h.id (c.scopes.resolve ty).type (value h ty e c).2 := by
  cases e <;> rfl

def instanced (h : Head) (type : TypeExpr) (as : List Expr) : Check Unit := do
  let t ← resolveType type h.span
  let _ ← exprs as
  instantiate h.id t as.length h.span

/-- What is checked at a node. Types are written down for the expressions of the node and for
parameters, and not for the node itself. -/
def node : Visit → Check Unit
  | .stmt (.assign t l r) => assign t l r
  | .stmt (.call _ e) => do let _ ← expr e
  | .stmt (.ifThen t c _ _) => condition t c
  | .stmt (.switch _ e _) => do let _ ← expr e
  | .stmt (.ret _ e) => expr? e
  | .enter (.header h fs) => fieldTypes h.span fs
  | .enter (.struct h fs) => fieldTypes h.span fs
  | .enter (.externType _ tps cs ms) => externMethods tps (cs ++ ms)
  | .enter (.externFn _ m) => do let _ ← methodType m
  | .enter (.action _ ps _) => do let _ ← paramTypes ps
  | .enter (.control _ tps ps cps _ _) => withTypeParams tps do let _ ← paramTypes (cps ++ ps)
  | .enter (.package _ tps ps) => withTypeParams tps do let _ ← paramTypes ps
  | .enter (.table _ ks as d) => do
    keys ks
    actionEntries as
    actionEntries d.toList
  | .enter (.inst h ty as) => instanced h ty as
  | .enter (.var h ty e) => value h ty e
  | .enter (.const h ty e) => value h ty (some e)
  | _ => pure ()

section

variable {V : Versions} {L : Likeness V} {es : List Expr}

theorem echoes_value (h : Head) (ty : TypeExpr) (e : Option Expr) (he : Expr.walks e.toList ⊆ es) :
    Echoes L es id (value h ty e) (value h ty (e.map (Expr.spelled V.path))) := by
  refine (echoes_resolveType ty h.span).bind fun declared => ?_
  cases e with
  | none => exact .pure id ()
  | some e =>
    simp only [Option.map_some, Expr.span_spelled]
    exact (echoes_expr e fun x hx => he (mem_append_left _ hx)).bind fun found =>
      echoes_expect declared found _

theorem echoes_instanced (h : Head) (ty : TypeExpr) (as : List Expr) (has : Expr.walks as ⊆ es) :
    Echoes L es id (instanced h ty as) (instanced h ty (Expr.spelleds V.path as)) := by
  simp only [instanced, Expr.length_spelleds]
  exact (echoes_resolveType ty h.span).bind fun t => (echoes_exprs as has).bind fun _ =>
    echoes_instantiate h.id t _ h.span

theorem echoes_node (hpath : V.path = Spelling.same.use) (v : Visit) (h : v.exprs ⊆ es) :
    Echoes L es id (node v) (node v) := by
  have hexpr : ∀ {e : Expr}, e.walk ⊆ es → Echoes L es (Ty.over V.decl) (expr e) (expr e) := by
    intro e he
    have hecho := echoes_expr (L := L) e he
    rwa [hpath, Expr.spelled_same] at hecho
  have hwalk : ∀ {e : Expr}, e.visits ⊆ v.inner → e.walk ⊆ es := fun he x hx =>
    h (Visit.mem_exprs.2 (he (mem_map_of_mem hx)))
  have hwalks : ∀ {as : List Expr}, (Expr.walks as).map Visit.expr ⊆ v.inner → Expr.walks as ⊆ es :=
    fun has x hx => h (Visit.mem_exprs.2 (has (mem_map_of_mem hx)))
  have hopt : ∀ {e : Option Expr}, Expr.visits? e ⊆ v.inner → Expr.walks e.toList ⊆ es :=
    fun he x hx => h (Visit.mem_exprs.2 (he (mem_visits? hx)))
  have hvalue : ∀ (hd : Head) (ty : TypeExpr) (e : Option Expr), Expr.walks e.toList ⊆ es →
      Echoes L es id (value hd ty e) (value hd ty e) := by
    intro hd ty e he
    have hecho := echoes_value (L := L) hd ty e he
    rwa [hpath, Expr.map_spelled_same] at hecho
  cases v with
  | stmt s =>
    cases s with
    | assign t l r =>
      have hecho := echoes_assign (L := L) t l r (hwalk (subset_append_left _ _))
        (hwalk (subset_append_right _ _))
      rwa [hpath, Expr.spelled_same, Expr.spelled_same] at hecho
    | call t e => exact (hexpr (hwalk (List.Subset.refl _))).bind fun _ => .pure id ()
    | ifThen t c a b =>
      have hecho := echoes_condition (L := L) t c (hwalk (List.Subset.refl _))
      rwa [hpath, Expr.spelled_same] at hecho
    | switch t e cs => exact (hexpr (hwalk (List.Subset.refl _))).bind fun _ => .pure id ()
    | ret t e =>
      have hecho := echoes_expr? (L := L) e (hopt (List.Subset.refl _))
      rwa [hpath, Expr.map_spelled_same] at hecho
    | _ => exact .pure id ()
  | enter d =>
    cases d with
    | header hd fs => exact echoes_fieldTypes hd.span fs
    | struct hd fs => exact echoes_fieldTypes hd.span fs
    | externType hd tps cs ms => exact echoes_externMethods tps (cs ++ ms)
    | externFn hd m => exact (echoes_methodType m).bind fun _ => .pure id ()
    | action hd ps b => exact (echoes_paramTypes ps).bind fun _ => .pure id ()
    | control hd tps ps cps ls b =>
      exact echoes_withTypeParams tps ((echoes_paramTypes (cps ++ ps)).bind fun _ => .pure id ())
    | package hd tps ps =>
      exact echoes_withTypeParams tps ((echoes_paramTypes ps).bind fun _ => .pure id ())
    | table hd ks as d =>
      have hks := echoes_keys (L := L) ks fun x hx =>
        h (Visit.mem_exprs.2 (mem_append_left _ (mem_keyVisits hx)))
      have has := echoes_actionEntries (L := L) as (hwalks fun w hw =>
        mem_append_right _ (mem_append_left _ hw))
      have hd := echoes_actionEntries (L := L) d.toList (hwalks fun w hw =>
        mem_append_right _ (mem_append_right _ hw))
      rw [hpath, Key.map_spelled_same] at hks
      rw [hpath, Expr.spelleds_same] at has hd
      exact hks.bind fun _ => has.bind fun _ => hd
    | inst hd ty as =>
      have hecho := echoes_instanced (L := L) hd ty as (hwalks (List.Subset.refl _))
      rwa [hpath, Expr.spelleds_same] at hecho
    | var hd ty e => exact hvalue hd ty e (hopt (List.Subset.refl _))
    | const hd ty e => exact hvalue hd ty (some e) (hopt (List.Subset.refl _))
  | _ => exact .pure id ()

end

variable {p : Program} {R : Region p}

theorem sets_node (hids : p.NodesApart) {v : Visit} (hv : v ∈ p.visits)
    (hin : v.inner.Sublist p.visits) : Sets p.nodes (· ∈ nodeIds v.inner) Any (node v) := by
  have hready : Ready p.nodes p.IsEntry p.visits := Program.ready_visits hids
  have hr := hready.sublist hin
  have hexpr : ∀ {e : Expr}, e.visits.Sublist v.inner →
      Sets p.nodes (· ∈ nodeIds v.inner) (Ty.Clear p.nodes) (expr e) := fun he =>
    (runs_expr _ (hr.sublist he)).sets.mono fun i hi => nodeIds_subset he.subset hi
  have hvalue : ∀ (hd : Head) (ty : TypeExpr) (e : Option Expr), (Expr.visits? e).Sublist v.inner →
      Sets p.nodes (· ∈ nodeIds v.inner) Any (value hd ty e) := by
    intro hd ty e he
    refine (sets_resolveType ty hd.span).bind fun declared _ => ?_
    cases e with
    | none => exact .pure trivial
    | some e => exact (hexpr he).bind fun _ _ => sets_expect _ _ _
  cases v with
  | stmt s =>
    cases s with
    | assign t l r =>
      refine (hexpr (sublist_append_left _ _)).bind fun lt _ =>
        (hexpr (sublist_append_right _ _)).bind fun rt _ => (sets_isLeftValue l.id).bind
          fun _ _ => ?_
      exact .ite ((sets_report _ _).bind fun _ _ => sets_expect _ _ _) (sets_expect _ _ _)
    | call t e => exact (hexpr (List.Sublist.refl _)).bind fun _ _ => .pure trivial
    | ifThen t c a b =>
      exact (hexpr (List.Sublist.refl _)).bind fun _ _ => .ite (sets_report _ _) (.pure trivial)
    | switch t e cs => exact (hexpr (List.Sublist.refl _)).bind fun _ _ => .pure trivial
    | ret t e => exact (runs_expr? hr).sets
    | _ => exact .pure trivial
  | enter d =>
    have hclear := hready.clear hv
    cases d with
    | header hd fs => exact sets_fieldTypes hd.span fs
    | struct hd fs => exact sets_fieldTypes hd.span fs
    | externType hd tps cs ms =>
      exact sets_externMethods tps fun m hm q hq => hclear q (mem_flatMap.2 ⟨m, hm, hq⟩)
    | externFn hd m => exact (sets_methodType hclear).bind fun _ _ => .pure trivial
    | action hd ps b => exact (sets_paramTypes hclear).bind fun _ _ => .pure trivial
    | control hd tps ps cps ls b =>
      exact sets_withTypeParams tps ((sets_paramTypes hclear).bind fun _ _ => .pure trivial)
    | package hd tps ps =>
      exact sets_withTypeParams tps ((sets_paramTypes hclear).bind fun _ _ => .pure trivial)
    | table hd ks as d =>
      have hentries : ∀ e ∈ as ++ d.toList, p.IsEntry e := hready.entries _ hv
      have hks := (runs_keys hr.left).sets
      have has := (runs_actionEntries (fun e he => hentries e (mem_append_left _ he))
        hr.right.left).sets
      have hd := (runs_actionEntries (fun e he => hentries e (mem_append_right _ he))
        hr.right.right).sets
      refine (hks.mono fun i hi => nodeIds_subset (fun w hw => mem_append_left _ hw) hi).bind
        fun _ _ => (has.mono fun i hi => nodeIds_subset (fun w hw =>
          mem_append_right _ (mem_append_left _ hw)) hi).bind fun _ _ =>
            hd.mono fun i hi => nodeIds_subset (fun w hw =>
              mem_append_right _ (mem_append_right _ hw)) hi
    | inst hd ty as =>
      exact (sets_resolveType ty hd.span).bind fun _ _ => (runs_exprs as hr).sets.bind fun _ _ =>
        sets_instantiate _ _ _ _
    | var hd ty e => exact hvalue hd ty e (List.Sublist.refl _)
    | const hd ty e => exact hvalue hd ty (some e) (List.Sublist.refl _)
  | _ => exact .pure trivial

/-- What is checked at a node keeps the types of the parameters in scope. The parameters of a
control are read with its type parameters in sight. -/
theorem steady_node {v : Visit} (hv : v ∈ p.visits) (hin : v.inner ⊆ p.visits)
    (hc : ∀ d, v = .enter d → d.isControl = false) :
    Steady R (· ∈ nodeIds v.inner) True Any (node v) := by
  let L : NodeId → Prop := (· ∈ nodeIds v.inner)
  have hnode : ∀ e : Expr, .expr e ∈ v.inner → L e.id ∧ p.nodes e.id := fun e he =>
    ⟨mem_filterMap.2 ⟨_, he, rfl⟩, mem_filterMap.2 ⟨_, hin he, rfl⟩⟩
  have hwalk : ∀ {e : Expr}, e.visits ⊆ v.inner → ∀ x ∈ e.walk, L x.id ∧ p.nodes x.id :=
    fun he x hx => hnode x (he (mem_map_of_mem hx))
  have hwalks : ∀ {as : List Expr}, (Expr.walks as).map Visit.expr ⊆ v.inner →
      ∀ x ∈ Expr.walks as, L x.id ∧ p.nodes x.id :=
        fun has x hx => hnode x (has (mem_map_of_mem hx))
  have hopt : ∀ {e : Option Expr}, Expr.visits? e ⊆ v.inner →
      ∀ x ∈ Expr.walks e.toList, L x.id ∧ p.nodes x.id :=
        fun he x hx => hnode x (he (mem_visits? hx))
  have hvalue : ∀ (hd : Head) (ty : TypeExpr) (e : Option Expr),
      (∀ x ∈ Expr.walks e.toList, L x.id ∧ p.nodes x.id) → Steady R L True Any (value hd ty e) := by
    intro hd ty e he
    refine (steady_resolveType ty hd.span).bind fun declared => ?_
    cases e with
    | none => exact .pure fun _ => trivial
    | some e =>
      exact (steady_expr e fun x hx => he x (mem_append_left _ hx)).bind fun _ =>
        steady_rules.expect declared _ _
  cases v with
  | stmt s =>
    cases s with
    | assign t l r =>
      exact steady_exprRules.assign t l r (hwalk (subset_append_left _ _))
        (hwalk (subset_append_right _ _))
    | call t e =>
      exact (steady_expr e (hwalk (List.Subset.refl _))).bind fun _ => .pure fun _ => trivial
    | ifThen t c a b => exact steady_exprRules.condition t c (hwalk (List.Subset.refl _))
    | switch t e cs =>
      exact (steady_expr e (hwalk (List.Subset.refl _))).bind fun _ => .pure fun _ => trivial
    | ret t e => exact steady_exprRules.expr? e (hopt (List.Subset.refl _))
    | _ => exact .pure fun _ => trivial
  | enter d =>
    have hd : d ∈ p.allDecls := Program.mem_allDecls.2 hv
    cases d with
    | header h fs => exact steady_rules.fieldTypes h.span fs
    | struct h fs => exact steady_rules.fieldTypes h.span fs
    | externType h tps cs ms =>
      exact steady_rules.externMethods tps fun _ m hm =>
        ⟨_, hd, rfl, fun q hq => mem_flatMap.2 ⟨m, hm, hq⟩⟩
    | externFn h m =>
      exact (steady_methodType hd rfl (List.Subset.refl _)).bind fun _ => .pure fun _ => trivial
    | action h ps b =>
      exact (steady_rules.paramTypes fun _ q hq => ⟨_, hd, hq⟩).bind fun _ => .pure fun _ => trivial
    | control h tps ps cps ls b => cases hc _ rfl
    | package h tps ps =>
      refine (leaf_withTypeParams tps ((leaf_paramTypes ps).bind fun _ => .pure
        fun _ => trivial)).steady (fun c {q} hq => ?_) fun c {i} _ => ?_
      · exact get?_paramTypes (R.not_param hd rfl (List.Subset.refl _) hq)
          { c with scopes := c.scopes.pushTypeParams tps }
      · exact congrArg (List.contains · i) (leftValues_paramTypes ps
          { c with scopes := c.scopes.pushTypeParams tps })
    | table h ks as d =>
      have hks := (steady_exprRules (R := R)).keys (P := True) ks fun x hx =>
        hnode x (mem_append_left _ (mem_keyVisits hx))
      exact hks.bind fun _ => (steady_exprRules.actionEntries as (hwalks fun w hw =>
        mem_append_right _ (mem_append_left _ hw))).bind fun _ =>
          steady_exprRules.actionEntries d.toList (hwalks fun w hw =>
            mem_append_right _ (mem_append_right _ hw))
    | inst h ty as =>
      exact (steady_resolveType ty h.span).bind fun _ =>
        (steady_exprRules.exprs as (hwalks (List.Subset.refl _))).bind fun _ =>
          steady_instantiate h.id _ _
    | var h ty e => exact hvalue h ty e (hopt (List.Subset.refl _))
    | const h ty e => exact hvalue h ty (some e) (hopt (List.Subset.refl _))
  | _ => exact .pure fun _ => trivial

end Check

/-! Nodes by themselves. -/

def Likeness.on (V : Versions) (K U : NodeId → Prop) : Likeness V where
  refs r r' := ∀ i ∈ r.used, U i ∨ i ∈ r'.used
  types t t' := ∀ i, K i → t'.get? i = (t.get? i).map (Ty.over V.decl) ∧
    t'.isLeftValue i = t.isLeftValue i
  known := K
  setRef {r r'} i x h j hj := by
    rcases mem_cons.1 hj with rfl | hj
    · exact .inr (Referent.id_over V x ▸ .head _)
    · exact (h j hj).imp_right (.tail _)
  markUsed {r r'} i h j hj := by
    rcases mem_cons.1 hj with rfl | hj
    · exact .inr (.head _)
    · exact (h j hj).imp_right (.tail _)
  get? h hi := (h _ hi).1
  isLeftValue h hi := (h _ hi).2
  set i ty h j hj := by
    refine ⟨?_, (h j hj).2⟩
    rw [Types.get?_set_eq, Types.get?_set_eq]
    split
    · rfl
    · exact (h j hj).1
  setLeftValue i h j hj := by
    refine ⟨(h j hj).1, ?_⟩
    simp only [Types.isLeftValue, Types.setLeftValue, contains_cons]
    exact congrArg _ (h j hj).2
  setBindings _ _ h := h

def Checker.starting (T : NodeMap Ty) (sc : Scopes) : Checker := ⟨sc, .empty, ⟨T, [], .empty⟩, []⟩

namespace Place

def outcome (T : NodeMap Ty) (pl : Place) : Checker := (Check.node pl.2 (.starting T pl.1)).2

/-- Its types are read when the node is checked: an expression of the node, or a value that one of
them names. -/
inductive Reads (kept : NodeId → Prop) (pl : Place) : NodeId → Prop
  | expr {e : Expr} (h : e ∈ pl.2.exprs) : Reads kept pl e.id
  | value {t : Tag} {n : String} {r : Referent} (h : .path t n ∈ pl.2.exprs)
    (hl : pl.1.lookup n = some r) (hk : kept r.id) (hr : r.isValue = true) : Reads kept pl r.id

end Place

namespace Check

variable {V : Versions} {v : Visit} {c c' : Checker}

theorem node_alike (U : NodeId → Prop) (hpath : V.path = Spelling.same.use)
    (hm : c.scopes.Match V v.exprs c'.scopes) (he : c'.errors = c.errors)
    (hu : ∀ i ∈ c.refs.used, U i ∨ i ∈ c'.refs.used)
    (ht : ∀ i, Place.Reads V.kept (c.scopes, v) i →
      c'.types.get? i = (c.types.get? i).map (Ty.over V.decl) ∧
        c'.types.isLeftValue i = c.types.isLeftValue i)
    (h : (node v c).2.errors = []) (hk : ∀ i ∈ (node v c).2.refs.used, V.kept i) :
    (node v c').2.errors = [] ∧ ∀ i ∈ (node v c).2.refs.used, U i ∨
      i ∈ (node v c').2.refs.used := by
  let L : Likeness V := .on V (Place.Reads V.kept (c.scopes, v)) U
  have hlike : c.Like L v.exprs c' :=
    ⟨hm, hu, ht, he, fun e he => .expr he, fun hmem hl hk hr => .value hmem hl hk hr⟩
  obtain ⟨-, hafter, -⟩ := (echoes_node hpath v (List.Subset.refl _)).same hlike h hk
  exact ⟨hafter.errors.trans h, hafter.refs⟩

end Check

def Decl.written? : Decl → Option TypeExpr
  | .var _ ty _ | .const _ ty _ | .inst _ ty _ => some ty
  | _ => none

def Scopes.Admits : Scopes → List Param → Prop
  | _, [] => True
  | sc, q :: qs => (sc.resolve q.type).unknown = [] ∧ sc.innermost.lookup q.name = none ∧
    (sc.declareParam q).Admits qs

def Scopes.Takes : Scopes → List Decl → Prop
  | _, [] => True
  | sc, d :: ds => sc.innermost.lookup d.name = none ∧ (sc.declare d).Takes ds

namespace Place

/-- The names that a declaration brings into sight are new where it does so. Those inside it are
told apart where it ends. -/
def Apart : Place → Prop
  | (sc, .stmt (.decl _ d)) => sc.innermost.lookup d.name = none
  | (sc, .leave (.action _ ps _)) => sc.push.Admits ps
  | (sc, .leave (.control _ tps ps cps ls _)) =>
    (sc.pushTypeParams tps).push.Admits (cps ++ ps) ∧ (sc.enterControl tps ps cps).Takes ls
  | _ => True

structure Judged (T : NodeMap Ty) (pl : Place) : Prop where
  errors : (pl.outcome T).errors = []
  apart : pl.Apart

def declares : Place → List (NodeId × Ty)
  | (sc, .enter (.action _ ps _)) => ps.map fun q => (q.id, (sc.resolve q.type).type)
  | (sc, .enter (.control _ tps ps cps _ _)) =>
    (cps ++ ps).map fun q => (q.id, ((sc.pushTypeParams tps).resolve q.type).type)
  | (sc, .enter d) => (d.written?.map fun ty => (d.id, (sc.resolve ty).type)).toList
  | _ => []

def Told (T : NodeMap Ty) (pl : Place) : Prop := ∀ x ∈ pl.declares, T.get? x.1 = some x.2

end Place

end MatchAction
