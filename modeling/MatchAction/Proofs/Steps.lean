import MatchAction.Proofs.Typing

namespace MatchAction

open List

theorem Expr.self_mem_walk (e : Expr) : e ∈ e.walk := by
  cases e <;> exact .head _

variable {e : Expr}

theorem Expr.walk_subset_walks (h : e ∈ es) : e.walk ⊆ Expr.walks es := by
  induction es with
  | nil => cases h
  | cons x es ih =>
    rcases mem_cons.1 h with rfl | h
    · exact subset_append_left _ _
    · exact subset_append_of_subset_right _ (ih h)

theorem Expr.id_mem_visits (e : Expr) : e.id ∈ nodeIds e.visits := by
  cases e <;> exact .head _

theorem Expr.visits_call (t : Tag) (f : Expr) (ts : List TypeExpr) (as : List Expr) :
    (Expr.call t f ts as).visits =
      .expr (.call t f ts as) :: (f.visits ++ (Expr.walks as).map .expr) := by
  simp [Expr.visits, Expr.walk]

def Visit.under : Visit → List Visit
  | .expr e => e.visits
  | .stmt s => s.visits
  | _ => []

def Visit.isStep : Visit → Bool
  | .expr _ => true
  | .stmt (.assign ..) => true
  | .stmt (.call ..) => true
  | _ => false

def Visit.entries : Visit → List Expr
  | .enter (.table _ _ as d) => as ++ d.toList
  | _ => []

variable {v : Visit} {i : NodeId} {pl : Place}

namespace Check

variable {α β : Type} {N : Nodes} {L : NodeId → Prop} {Entry : Expr → Prop} {post : α → Prop}
  {post' : β → Prop}

/-- How a node is checked; only some calls are entries of a table's action list. -/
inductive Step (Entry : Expr → Prop) : Place → Checker → Checker → Prop
  | whole (e : Expr) (c : Checker) : Step Entry (c.scopes, .expr e) c (expr e c).2
  | called (k : Nat) (e : Expr) (c : Checker) : Step Entry (c.scopes, .expr e) c (callee k e c).2
  | listed {e : Expr} (he : Entry e) (c : Checker) :
    Step Entry (c.scopes, .expr e) c (actionEntry e c).2
  | assigned (t : Tag) (l r : Expr) (c : Checker) :
    Step Entry (c.scopes, .stmt (.assign t l r)) c (assign t l r c).2
  | invoked (t : Tag) (e : Expr) (c : Checker) :
    Step Entry (c.scopes, .stmt (.call t e)) c (expr e c).2

theorem get?_set (types : Types) (i : NodeId) (t : Ty) : (types.set i t).get? i = some t := by
  rw [Types.get?, Types.set, NodeMap.get?_insert, if_pos rfl]

theorem get?_typed (t : Tag) (x : Check Ty) (c : Checker) :
    (typed t x c).2.types.get? t.id = some (typed t x c).1 := get?_set _ _ _

theorem get?_expr (e : Expr) (c : Checker) : (expr e c).2.types.get? e.id = some (expr e c).1 := by
  cases e with
  | call t f ts as => rw [expr_call]; exact get?_typed _ _ _
  | _ => exact get?_typed _ _ _

theorem get?_callee (k : Nat) (e : Expr) (c : Checker) :
    (callee k e c).2.types.get? e.id = some (callee k e c).1 := by
  cases e with
  | member t b n => exact get?_typed _ _ _
  | _ => exact get?_expr _ _

variable {t : Tag} {n : String} {b : Expr}

namespace Step

variable {sc : Scopes} {c₀ c₁ : Checker}

theorem get?_isSome (h : Step Entry (sc, .expr e) c₀ c₁) :
    (c₁.types.get? e.id).isSome := by
  cases h with
  | whole => rw [get?_expr]; rfl
  | called k => rw [get?_callee]; rfl
  | listed he =>
    cases e with
    | call t f ts as =>
      rw [actionEntry_call]
      exact Option.isSome_iff_exists.2 ⟨_, get?_set _ _ _⟩
    | _ => exact Option.isSome_iff_exists.2 ⟨_, get?_expr _ _⟩

theorem path (h : Step Entry (sc, .expr (.path t n)) c₀ c₁) :
    c₀.scopes = sc ∧ c₁ = (expr (.path t n) c₀).2 := by
  cases h <;> exact ⟨rfl, rfl⟩

theorem member (h : Step Entry (sc, .expr (.member t b n)) c₀ c₁) :
    c₀.scopes = sc ∧ ∃ k, c₁ = (typed t (expr b >>= fun ty => member t b.id ty n k) c₀).2 := by
  cases h with
  | called k => exact ⟨rfl, some k, rfl⟩
  | _ => exact ⟨rfl, none, rfl⟩

theorem call
    (h : Step Entry (sc, .expr (.call t f ts as)) c₀ c₁) (he : ¬ Entry (.call t f ts as)) :
    c₁ = (expr (.call t f ts as) c₀).2 := by
  cases h with
  | listed h => exact absurd h he
  | _ => rfl

theorem assign (h : Step Entry (sc, .stmt (.assign t l r)) c₀ c₁) :
    c₁ = (assign t l r c₀).2 := by
  cases h
  rfl

end Step

structure Later (c c' : Checker) : Prop where
  leftValues : c.types.leftValues ⊆ c'.types.leftValues
  errors : c'.errors = [] → c.errors = []

theorem Later.refl (c : Checker) : Later c c := ⟨List.Subset.refl _, id⟩

variable {c : Checker}

theorem Later.trans (h : Later c c') (h' : Later c' c'') : Later c c'' :=
  ⟨List.Subset.trans h.leftValues h'.leftValues, fun he => h.errors (h'.errors he)⟩

theorem Quiet.later (hx : Quiet x) (c : Checker) : Later c (x c).2 :=
  ⟨(hx.grows c).leftValues, hx.errors c⟩

theorem Walks.later
    (hx : Walks x f ps) (c : Checker) : Later c (x c).2 :=
  ⟨(hx.grows c).leftValues, fun he => (hx.errors c he).1⟩

structure Kept (is : List NodeId) (c c' : Checker) : Prop extends Later c c' where
  types : ∀ i ∈ is, c'.types.get? i = c.types.get? i
  bindings : ∀ i ∈ is, c'.types.bindings.get? i = c.types.bindings.get? i

theorem Kept.refl (is : List NodeId) (c : Checker) : Kept is c c :=
  ⟨.refl c, fun _ _ => rfl, fun _ _ => rfl⟩

def Unbound (is : List NodeId) (c : Checker) : Prop := ∀ i ∈ is, c.types.bindings.get? i = none

/-- What a walk needs to know of the nodes it lists: they have identities of their own, all of `N`,
what they declare is clear of `N`, and only values have written types. -/
structure Ready (N : Nodes) (Entry : Expr → Prop) (vs : List Visit) : Prop where
  nodup : (nodeIds vs).Nodup
  known : ∀ i ∈ nodeIds vs, N i
  brings : Brings (Referent.Clear N) vs
  entries : ∀ v ∈ vs, ∀ e ∈ v.entries, Entry e
  written : ∀ v ∈ vs, ∀ i, v.id? = some i → N.written i → ∃ d, v = .enter d ∧ d.isValue = true

variable {d : Decl}

namespace Ready

variable {vs ws : List Visit}

theorem sublist (h : Ready N Entry ws) (hs : vs.Sublist ws) : Ready N Entry vs where
  nodup := h.nodup.sublist (hs.filterMap _)
  known i hi := h.known i (nodeIds_subset hs.subset hi)
  brings := h.brings.mono hs.subset
  entries v hv := h.entries v (hs.subset hv)
  written v hv := h.written v (hs.subset hv)

theorem left (h : Ready N Entry (vs ++ ws)) : Ready N Entry vs :=
  h.sublist (sublist_append_left _ _)

theorem right (h : Ready N Entry (vs ++ ws)) : Ready N Entry ws :=
  h.sublist (sublist_append_right _ _)

theorem tail (h : Ready N Entry (v :: vs)) : Ready N Entry vs :=
  h.sublist (sublist_cons_self _ _)

theorem disjoint (h : Ready N Entry (vs ++ ws)) (hi : i ∈ nodeIds vs) :
    i ∉ nodeIds ws := by
  have hnd := h.nodup
  rw [nodeIds_append] at hnd
  exact fun hi' => (List.nodup_append.1 hnd).2.2 i hi i hi' rfl

theorem head_not_mem (h : Ready N Entry (v :: vs)) (hv : v.id? = some i) :
    i ∉ nodeIds vs :=
  Ready.disjoint (show Ready N Entry ([v] ++ vs) from h) (mem_filterMap.2 ⟨v, .head _, hv⟩)

theorem clear (h : Ready N Entry vs) (hd : .enter d ∈ vs) : d.Clear N :=
  h.brings _ hd _ d.self_mem_referents

theorem not_written_expr (h : Ready N Entry vs) (he : .expr e ∈ vs) :
    ¬ N.written e.id := fun hw => by
  obtain ⟨d, hd, -⟩ := h.written _ he _ rfl hw
  cases hd

theorem not_written_decl (h : Ready N Entry vs) (hd : .enter d ∈ vs)
    (hv : d.isValue = false) : ¬ N.written d.id := fun hw => by
  obtain ⟨d', hd', hv'⟩ := h.written _ hd _ rfl hw
  cases hd'
  simp [hv] at hv'

end Ready

def Done (N : Nodes) (Entry : Expr → Prop) (vs : List Visit) (c' : Checker) (pl : Place) : Prop :=
  pl.2.under ⊆ vs ∧ Ready N Entry pl.2.under ∧
    ∃ c₀ c₁, Step Entry pl c₀ c₁ ∧ c₀.Clear N ∧ Unbound (nodeIds pl.2.under) c₀ ∧
      Kept (nodeIds pl.2.under) c₁ c'

theorem Done.later (h : Done N Entry vs c pl)
    (hs : vs ⊆ ws) (hk : Kept (nodeIds vs) c c') : Done N Entry ws c' pl := by
  obtain ⟨hunder, hready, c₀, c₁, hstep, hclear, hunbound, hkept⟩ := h
  refine ⟨List.Subset.trans hunder hs, hready, c₀, c₁, hstep, hclear, hunbound,
    hkept.toLater.trans hk.toLater, fun i hi => ?_, fun i hi => ?_⟩
  · exact (hk.types i (nodeIds_subset hunder hi)).trans (hkept.types i hi)
  · exact (hk.bindings i (nodeIds_subset hunder hi)).trans (hkept.bindings i hi)

structure Still (N : Nodes) (L : NodeId → Prop) (post : α → Prop) (x : Check α) : Prop where
  sets : Sets N L post x
  scopes : ∀ {c}, c.Clear N → (x c).2.scopes = c.scopes
  later : ∀ {c}, c.Clear N → Later c (x c).2

namespace Still

theorem quiet (hs : Sets N L post x) (hq : Quiet x) : Still N L post x :=
  ⟨hs, fun _ => hq.scopes _, fun _ => hq.later _⟩

theorem pure (h : post a) : Still N L post (Pure.pure a) := .quiet (.pure h) (.pure a)

theorem bind (hx : Still N L post x)
    (hy : ∀ a, post a → Still N L post' (y a)) : Still N L post' (x >>= y) where
  sets := hx.sets.bind fun a ha => (hy a ha).sets
  scopes hc := ((hy _ (hx.sets.result hc)).scopes (hx.sets.clear hc)).trans (hx.scopes hc)
  later hc := (hx.later hc).trans ((hy _ (hx.sets.result hc)).later (hx.sets.clear hc))

end Still

theorem Sets.kept (hx : Sets N L post x) (hc : c.Clear N)
    (hl : Later c (x c).2) (h : ∀ i ∈ is, N i ∧ ¬ L i) : Kept is c (x c).2 :=
  ⟨hl, fun i hi => hx.frame hc (h i hi).1 (h i hi).2, fun i hi => hx.bound hc (h i hi).2⟩

theorem still_instantiate (i : NodeId) (t : Ty) (n : Nat) (sp : Option Span) :
    Still N L Any (instantiate i t n sp) where
  sets := sets_instantiate i t n sp
  scopes _ := (resolves_instantiate i t n sp (.pure ())).scopes
  later _ := ⟨(resolves_instantiate i t n sp (.pure ())).grows.leftValues, errors_instantiate⟩

theorem still_setType (i : NodeId) {t : Ty} (ht : t.Clear N)
    (hw : N.written i → t.signature? = none) : Still N (· = i) Any (setType i t) :=
  .quiet (sets_setType (fun _ => rfl) ht hw) (quiet_setType i t)

/-- A walk over the nodes `vs`, at the places `ps`, each of which is checked by a step. -/
structure Runs (N : Nodes) (Entry : Expr → Prop) (vs : List Visit) (f : Scopes → Scopes)
    (ps : Scopes → List Place) (post : α → Prop) (x : Check α) : Prop where
  sets : Sets N (· ∈ nodeIds vs) post x
  scopes : ∀ {c}, c.Clear N → (x c).2.scopes = f c.scopes
  later : ∀ {c}, c.Clear N → Later c (x c).2
  runs : ∀ {c}, c.Clear N → Unbound (nodeIds vs) c →
    ∀ pl ∈ ps c.scopes, pl.2.isStep = true → Done N Entry vs (x c).2 pl

theorem Still.runs (hx : Still N L post x)
    (hL : ∀ i, L i → i ∈ nodeIds vs) : Runs N Entry vs id (fun _ => []) post x where
  sets := hx.sets.mono hL
  scopes := hx.scopes
  later := hx.later
  runs _ _ _ h := absurd h not_mem_nil

theorem Still.silent (hx : Still N (fun _ => False) post x) :
    Runs N Entry vs id (fun _ => []) post x := hx.runs fun _ hi => hi.elim

namespace Runs

variable {vs ws : List Visit} {f g : Scopes → Scopes} {ps qs : Scopes → List Place} {x : Check α}
  {y : α → Check β}

theorem join (hx : Runs N Entry vs f ps post x)
    (hy : ∀ a, post a → Runs N Entry ws g qs post' (y a)) (hvs : vs ⊆ us) (hws : ws ⊆ us)
    (h : ∀ i ∈ nodeIds vs, N i ∧ i ∉ nodeIds ws) :
    Runs N Entry us (fun sc => g (f sc)) (fun sc => ps sc ++ qs (f sc)) post' (x >>= y) where
  sets := (hx.sets.mono fun _ hi => nodeIds_subset hvs hi).bind fun a ha =>
    (hy a ha).sets.mono fun _ hi => nodeIds_subset hws hi
  scopes hc := by
    rw [bind_apply, (hy _ (hx.sets.result hc)).scopes (hx.sets.clear hc), hx.scopes hc]
  later hc := (hx.later hc).trans ((hy _ (hx.sets.result hc)).later (hx.sets.clear hc))
  runs {c} hc hb pl hpl hstep := by
    have hy' := hy _ (hx.sets.result hc)
    have hc' := hx.sets.clear hc
    have hb' : Unbound (nodeIds ws) (x c).2 := fun i hi =>
      (hx.sets.bound hc fun hi' => (h i hi').2 hi).trans (hb i (nodeIds_subset hws hi))
    rcases mem_append.1 hpl with hpl | hpl
    · exact (hx.runs hc (fun i hi => hb i (nodeIds_subset hvs hi)) pl hpl hstep).later hvs
        (hy'.sets.kept hc' (hy'.later hc') h)
    · rw [← hx.scopes hc] at hpl
      exact (hy'.runs hc' hb' pl hpl hstep).later hws (.refl _ _)

theorem bind (hx : Runs N Entry vs f ps post x)
    (hy : ∀ a, post a → Runs N Entry ws g qs post' (y a)) (h : Ready N Entry (vs ++ ws)) :
    Runs N Entry (vs ++ ws) (fun sc => g (f sc)) (fun sc => ps sc ++ qs (f sc)) post' (x >>= y) :=
  hx.join hy (subset_append_left _ _) (subset_append_right _ _) fun i hi =>
    ⟨h.left.known i hi, h.disjoint hi⟩

theorem followed (hx : Runs N Entry vs f ps post x) (hy : ∀ a, post a → Still N L post' (y a))
    (hs : vs ⊆ ws) (hL : ∀ i, L i → i ∈ nodeIds ws) (hN : ∀ i ∈ nodeIds vs, N i ∧ ¬ L i) :
    Runs N Entry ws f ps post' (x >>= y) where
  sets := (hx.sets.mono fun _ hi => nodeIds_subset hs hi).bind fun a ha => (hy a ha).sets.mono hL
  scopes hc := ((hy _ (hx.sets.result hc)).scopes (hx.sets.clear hc)).trans (hx.scopes hc)
  later hc := (hx.later hc).trans ((hy _ (hx.sets.result hc)).later (hx.sets.clear hc))
  runs {c} hc hb pl hpl hstep := by
    have hy' := hy _ (hx.sets.result hc)
    have hc' := hx.sets.clear hc
    exact (hx.runs hc (fun i hi => hb i (nodeIds_subset hs hi)) pl hpl hstep).later hs
      (hy'.sets.kept hc' (hy'.later hc') hN)

theorem bind_still (hx : Runs N Entry vs f ps post x)
    (hy : ∀ a, post a → Still N (fun _ => False) post' (y a)) (h : Ready N Entry vs) :
    Runs N Entry vs f ps post' (x >>= y) :=
  hx.followed hy (List.Subset.refl _) (fun _ hi => hi.elim) fun i hi => ⟨h.known i hi, id⟩

theorem ended (hx : Runs N Entry vs f ps post x)
    (hy : ∀ a, post a → Still N (· = i) post' (y a)) (hv : v.id? = some i)
    (h : Ready N Entry (v :: vs)) : Runs N Entry (v :: vs) f ps post' (x >>= y) := by
  refine hx.followed hy (subset_cons_self _ _) ?_ fun j hj => ⟨h.tail.known j hj, ?_⟩
  · rintro j rfl
    exact mem_filterMap.2 ⟨v, .head _, hv⟩
  · rintro rfl
    exact h.head_not_mem hv hj

theorem still_bind {z : Check β} {y : β → Check α} (hz : Still N (fun _ => False) post' z)
    (hy : ∀ b, post' b → Runs N Entry vs f ps post (y b)) (h : Ready N Entry vs) :
    Runs N Entry vs f ps post (z >>= y) := by
  have hz' : Runs N Entry [] id (fun _ => []) post' z := hz.silent
  exact hz'.bind hy h

theorem widen (hx : Runs N Entry vs f ps post x) (hs : vs ⊆ ws)
    (hp : ∀ sc, ∀ pl ∈ qs sc, pl ∈ ps sc ∨ pl.2.isStep = false) :
    Runs N Entry ws f qs post x where
  sets := hx.sets.mono fun _ hi => nodeIds_subset hs hi
  scopes := hx.scopes
  later := hx.later
  runs {c} hc hb pl hpl hstep := by
    have hpl' := (hp _ pl hpl).resolve_right (by simp [hstep])
    exact (hx.runs hc (fun i hi => hb i (nodeIds_subset hs hi)) pl hpl' hstep).later hs (.refl _ _)

theorem step (hx : Runs N Entry vs f ps post x) (hv : v.under = vs)
    (h : Ready N Entry vs) (hstep : ∀ c, Step Entry (c.scopes, v) c (x c).2) :
    Runs N Entry vs f (fun sc => (sc, v) :: ps sc) post x where
  sets := hx.sets
  scopes := hx.scopes
  later := hx.later
  runs {c} hc hb pl hpl hs := by
    rcases mem_cons.1 hpl with rfl | hpl
    · exact ⟨hv ▸ List.Subset.refl _, hv ▸ h, c, _, hstep c, hc, hv ▸ hb, .refl _ _⟩
    · exact hx.runs hc hb pl hpl hs

end Runs

theorem runs_typed {f : Scopes → Scopes} {ps : Scopes → List Place} {vs : List Visit} {x : Check Ty}
    (he : e.id = t.id) (h : Ready N Entry (.expr e :: vs))
    (hx : Runs N Entry vs f ps (Ty.Clear N) x) :
    Runs N Entry (.expr e :: vs) f ps (Ty.Clear N) (typed t x) :=
  hx.ended (fun _ hty => (still_setType t.id hty fun hw =>
    absurd (he ▸ hw) (h.not_written_expr (.head _))).bind fun _ _ => .pure hty) (congrArg some he) h

theorem runs_node
    (he : e.id = t.id) (hexpr : expr e = typed t x) (hvs : e.visits = .expr e :: vs)
    (h : Ready N Entry e.visits) (hps : ∀ sc, ps sc = sc.all vs)
    (hx : Runs N Entry vs id ps (Ty.Clear N) x) :
    Runs N Entry e.visits id (fun sc => sc.all e.visits) (Ty.Clear N) (expr e) := by
  have hstep : ∀ c, Step Entry (c.scopes, .expr e) c (typed t x c).2 := fun c => hexpr ▸ .whole e c
  have hown := h
  rw [hvs] at hown
  rw [hexpr]
  have hrun := (runs_typed he hown hx).step (v := .expr e) hvs hown hstep
  rw [← hvs] at hrun
  refine hrun.widen (List.Subset.refl _) fun sc pl hpl => .inl ?_
  rw [hps]
  rw [hvs] at hpl
  exact hpl

theorem still_member (t : Tag) (b : NodeId) (hty : ty.Clear N) (n : String)
    (arity : Option Nat) : Still N (fun _ => False) (Ty.Clear N) (member t b ty n arity) :=
  .quiet (sets_member t b hty n arity) (quiet_member t b ty n arity)

theorem runs_called (n : String) (k : Nat)
    (h : Ready N Entry (Expr.member t b n).visits)
    (hb : Runs N Entry b.visits id (fun sc => sc.all b.visits) (Ty.Clear N) (expr b)) :
    Runs N Entry (Expr.member t b n).visits id (fun sc => sc.all (Expr.member t b n).visits)
      (Ty.Clear N) (callee k (.member t b n)) :=
  (runs_typed rfl h (hb.bind_still (fun _ hb => still_member t b.id hb n (some k)) h.tail)).step
    (v := .expr (.member t b n)) rfl h fun c => .called k (.member t b n) c

theorem runs_applied {f : Expr} {ts : List TypeExpr} {as : List Expr} {x : Check Ty}
    {y : Ty → List Ty → Check β} (h : Ready N Entry (Expr.call t f ts as).visits)
    (hf : Runs N Entry f.visits id (fun sc => sc.all f.visits) (Ty.Clear N) x)
    (has : Runs N Entry ((Expr.walks as).map .expr) id
      (fun sc => sc.all ((Expr.walks as).map .expr)) (Ty.AllClear N) (exprs as))
    (hy : ∀ ty tys, ty.Clear N → Ty.AllClear N tys → Still N (· = t.id) post' (y ty tys))
    (hstep : ∀ c, Step Entry (c.scopes, .expr (.call t f ts as)) c
      ((x >>= fun ty => exprs as >>= fun tys => y ty tys) c).2) :
    Runs N Entry (Expr.call t f ts as).visits id (fun sc => sc.all (Expr.call t f ts as).visits)
      post' (x >>= fun ty => exprs as >>= fun tys => y ty tys) := by
  have hvs := Expr.visits_call t f ts as
  have hr := hvs ▸ h
  have hargs : Ready N Entry (.expr (.call t f ts as) :: (Expr.walks as).map .expr) :=
    hr.sublist ((sublist_append_right _ _).cons_cons _)
  have hend : ∀ ty, ty.Clear N → Runs N Entry (.expr (.call t f ts as) :: (Expr.walks as).map .expr)
      id (fun sc => sc.all ((Expr.walks as).map .expr)) post'
      (exprs as >>= fun tys => y ty tys) :=
    fun ty hty => has.ended (fun tys htys => hy ty tys hty htys) rfl hargs
  have hrun : Runs N Entry (Expr.call t f ts as).visits id
      (fun sc => sc.all f.visits ++ sc.all ((Expr.walks as).map .expr)) post'
      (x >>= fun ty => exprs as >>= fun tys => y ty tys) := by
    refine hf.join hend ?_ ?_ fun i hi => ?_
    · rw [hvs]
      exact subset_cons_of_subset _ (subset_append_left _ _)
    · rw [hvs]
      exact cons_subset_cons _ (subset_append_right _ _)
    · refine ⟨hr.tail.left.known i hi, fun hi' => ?_⟩
      rcases mem_cons.1 (hi' : i ∈ t.id :: nodeIds _) with rfl | hi'
      · exact hr.head_not_mem rfl (nodeIds_subset (subset_append_left _ _) hi)
      · exact hr.tail.disjoint hi hi'
  refine (hrun.step (v := .expr (.call t f ts as)) rfl h hstep).widen (List.Subset.refl _)
    fun sc pl hpl => .inl ?_
  rw [hvs] at hpl
  rw [← Scopes.all_append]
  exact hpl

mutual
theorem runs_expr : (e : Expr) → Ready N Entry e.visits →
    Runs N Entry e.visits id (fun sc => sc.all e.visits) (Ty.Clear N) (expr e)
  | .lit t n ty, h => runs_node rfl rfl rfl h (fun _ => rfl) <|
      (Still.quiet (sets_resolveType ty t.span) (quiet_resolveType ty t.span)).silent
  | .bool t b, h => runs_node rfl rfl rfl h (fun _ => rfl) <|
      (Still.pure trivial).silent
  | .path t n, h => by
    have hpath : Still N (fun _ => False) (Ty.Clear N) (path t n) :=
      ⟨sets_path t n, fun _ => (walks_path t n).scopes _, fun _ => (walks_path t n).later _⟩
    exact runs_node rfl rfl rfl h (fun _ => rfl) hpath.silent
  | .member t b n, h => runs_node rfl rfl rfl h (fun _ => rfl) <|
      (runs_expr b h.tail).bind_still (fun _ hb => still_member t b.id hb n none) h.tail
  | .index t b i, h => by
    have hvs : (Expr.index t b i).visits = .expr (.index t b i) :: (b.visits ++ i.visits) := by
      simp [Expr.visits, Expr.walk]
    have hr := (hvs ▸ h).tail
    have hi : ∀ ty, ty.Clear N → Runs N Entry i.visits id (fun sc => sc.all i.visits) (Ty.Clear N)
        (expr i >>= fun _ => index t b.id ty) := fun ty hb =>
      (runs_expr i hr.right).bind_still (fun _ _ => .quiet (sets_index t b.id hb)
        (quiet_index t b.id ty)) hr.right
    exact runs_node rfl rfl hvs h (fun sc => (sc.all_append _ _).symm)
      ((runs_expr b hr.left).bind hi hr)
  | .call t c ts as, h => by
    have hvs := Expr.visits_call t c ts as
    have hr := (hvs ▸ h).tail
    have hc : Runs N Entry c.visits id (fun sc => sc.all c.visits) (Ty.Clear N)
        (callee as.length c) := by
      cases c with
      | member mt b n => exact runs_called n as.length hr.left (runs_expr b hr.left.tail)
      | _ => exact runs_expr _ hr.left
    have hcall : ∀ ty tys, ty.Clear N → Ty.AllClear N tys → Still N (· = t.id) (Ty.Clear N)
        (typed t (call t c ty ts as tys)) := fun ty tys hty htys =>
      (Still.quiet (sets_call (L := (· = t.id)) rfl c hty ts as htys)
        (quiet_call t c ty ts as tys)).bind fun _ hr => (still_setType t.id hr fun hw =>
          absurd hw (h.not_written_expr (e := .call t c ts as) (.head _))).bind fun _ _ => .pure hr
    rw [expr_call]
    exact runs_applied h hc (runs_exprs as hr.right) hcall fun st => by
      have hwhole : Step Entry (st.scopes, .expr (.call t c ts as)) st _ := .whole _ st
      rw [expr_call] at hwhole
      exact hwhole
  | .construct t ty as, h => runs_node rfl rfl rfl h (fun _ => rfl) <|
      Runs.still_bind (.quiet (sets_resolveType ty t.span) (quiet_resolveType ty t.span))
        (fun target hty => (runs_exprs as h.tail).bind_still (fun _ _ =>
          (still_instantiate t.id target as.length t.span).bind fun _ _ => .pure hty) h.tail) h.tail
  | .unary t op e, h => runs_node rfl rfl rfl h (fun _ => rfl) <|
      (runs_expr e h.tail).bind_still (fun _ he => .pure (by
        cases op <;> first | exact he | trivial)) h.tail
  | .binary t op l r, h => by
    have hvs : (Expr.binary t op l r).visits = .expr (.binary t op l r) ::
        (l.visits ++ r.visits) := by
      simp [Expr.visits, Expr.walk]
    have hr := (hvs ▸ h).tail
    have hboth : ∀ lt, lt.Clear N → Runs N Entry r.visits id (fun sc => sc.all r.visits)
        (Ty.Clear N) (expr r >>= fun rt => pure (binaryType op lt rt)) := fun lt hl => by
      refine (runs_expr r hr.right).bind_still (fun rt hrt => .pure ?_) hr.right
      unfold binaryType
      split
      · trivial
      · split
        · exact hrt
        · exact hl
    exact runs_node rfl rfl hvs h (fun sc => (sc.all_append _ _).symm)
      ((runs_expr l hr.left).bind hboth hr)
theorem runs_exprs : (es : List Expr) → Ready N Entry ((Expr.walks es).map .expr) →
    Runs N Entry ((Expr.walks es).map .expr) id (fun sc => sc.all ((Expr.walks es).map .expr))
      (Ty.AllClear N) (exprs es)
  | [], _ => (Still.pure trivial).silent
  | e :: es, h => by
    have hvs : (Expr.walks (e :: es)).map Visit.expr = e.visits ++ (Expr.walks es).map .expr :=
      map_append
    rw [hvs] at h ⊢
    refine Runs.widen ((runs_expr e h.left).bind (fun _ he => (runs_exprs es h.right).bind_still
      (fun _ hes => .pure ⟨he, hes⟩) h.right) h) (List.Subset.refl _) fun sc pl hpl => .inl ?_
    rw [Scopes.all_append] at hpl
    exact hpl
end

theorem runs_callee (k : Nat) (h : Ready N Entry e.visits) :
    Runs N Entry e.visits id (fun sc => sc.all e.visits) (Ty.Clear N) (callee k e) := by
  cases e with
  | member t b n => exact runs_called n k h (runs_expr b h.tail)
  | _ => exact runs_expr _ h

theorem runs_expr? {e : Option Expr} (h : Ready N Entry (Expr.visits? e)) :
    Runs N Entry (Expr.visits? e) id (fun sc => sc.all (Expr.visits? e)) Any (expr? e) := by
  cases e with
  | none => exact (Still.pure trivial).silent
  | some e => exact (runs_expr e h).bind_still (fun _ _ => .pure trivial) h

theorem still_report (f : TypeFault) (sp : Option Span) (hf : f.isNaming = false) :
    Still N L Any (report f sp) := .quiet (sets_report f sp) (quiet_report f sp hf)

theorem still_entryFault (t : Tag) (c : Expr) (k : Nat) (ty : Ty) :
    Still N L Any (entryFault t c k ty) := by
  unfold entryFault
  split
  · split
    · exact still_report _ _ rfl
    · exact .pure trivial
  · exact .pure trivial
  · exact still_report _ _ rfl

theorem runs_actionEntry (he : Entry e) (h : Ready N Entry e.visits) :
    Runs N Entry e.visits id (fun sc => sc.all e.visits) Any (actionEntry e) := by
  cases e with
  | call t c ts as =>
    have hr := (Expr.visits_call t c ts as ▸ h).tail
    rw [actionEntry_call]
    refine runs_applied h (runs_expr c hr.left) (runs_exprs as hr.right) (fun ct _ _ _ =>
      (still_entryFault t c _ ct).bind fun _ _ => still_setType t.id trivial fun _ => rfl)
        fun st => ?_
    rw [← actionEntry_call]
    exact .listed he st
  | _ => exact (runs_expr _ h).bind_still (fun _ _ => .pure trivial) h

theorem runs_actionEntries (he : ∀ e ∈ es, Entry e)
    (h : Ready N Entry ((Expr.walks es).map .expr)) :
    Runs N Entry ((Expr.walks es).map .expr) id (fun sc => sc.all ((Expr.walks es).map .expr)) Any
      (actionEntries es) := by
  induction es with
  | nil => exact (Still.pure trivial).silent
  | cons e es ih =>
    have hvs : (Expr.walks (e :: es)).map Visit.expr = e.visits ++ (Expr.walks es).map .expr :=
      map_append
    rw [hvs] at h ⊢
    have hes := ih (fun e h => he e (.tail _ h)) h.right
    refine Runs.widen ((runs_actionEntry (he e (.head _)) h.left).bind (fun _ _ => hes) h)
      (List.Subset.refl _) fun sc pl hpl => .inl ?_
    rw [Scopes.all_append] at hpl
    exact hpl

theorem runs_keys (h : Ready N Entry (ks.flatMap Key.visits)) :
    Runs N Entry (ks.flatMap Key.visits) id (fun sc => sc.all (ks.flatMap Key.visits)) Any
      (keys ks) := by
  induction ks with
  | nil => exact (Still.pure trivial).silent
  | cons k ks ih =>
    have hr : Ready N Entry (.key k :: (k.expr.visits ++ ks.flatMap Key.visits)) := h
    refine Runs.widen ((runs_expr k.expr hr.tail.left).bind (fun _ _ => ih hr.tail.right) hr.tail)
      (subset_cons_self _ _) fun sc pl hpl => ?_
    have hpl' : pl ∈ (sc, .key k) :: sc.all (k.expr.visits ++ ks.flatMap Key.visits) := hpl
    rw [Scopes.all_append] at hpl'
    rcases mem_cons.1 hpl' with rfl | hpl'
    · exact .inr rfl
    · exact .inl hpl'

theorem runs_condition (t : Tag) (h : Ready N Entry e.visits) :
    Runs N Entry e.visits id (fun sc => sc.all e.visits) Any (condition t e) :=
  (runs_expr e h).bind_still (fun _ _ => .quiet (.ite (sets_report _ _) (.pure trivial))
    (.ite (quiet_report _ _ rfl) (.pure _))) h

theorem still_expect (t u : Ty) (sp : Option Span) : Still N L Any (expect t u sp) :=
  .quiet (sets_expect t u sp) (quiet_expect t u sp)

theorem runs_assign (t : Tag) (h : Ready N Entry (Stmt.assign t l r).visits) :
    Runs N Entry (Stmt.assign t l r).visits id (fun sc => (Stmt.assign t l r).places sc) Any
      (assign t l r) := by
  have hr : Ready N Entry (l.visits ++ r.visits) := h.tail
  have hrest : ∀ lt, lt.Clear N → Runs N Entry r.visits id (fun sc => sc.all r.visits) Any
      (expr r >>= fun rt => isLeftValue l.id >>= fun v =>
        if !lt.isError && !v then
          report .notLeftValue (l.span.or t.span) >>= fun _ => expect lt rt (r.span.or t.span)
        else expect lt rt (r.span.or t.span)) := fun lt _ =>
    (runs_expr r hr.right).bind_still (fun rt _ => (Still.quiet (sets_isLeftValue l.id)
      (quiet_isLeftValue l.id)).bind fun v _ => by
        split
        · exact (still_report _ _ rfl).bind fun _ _ => still_expect _ _ _
        · exact still_expect _ _ _) hr.right
  have hrun : Runs N Entry (Stmt.assign t l r).visits id
      (fun sc => sc.all l.visits ++ sc.all r.visits) Any (assign t l r) :=
    ((runs_expr l hr.left).bind hrest hr).widen (subset_cons_self _ _) fun _ _ h => .inl h
  refine (hrun.step (v := .stmt (.assign t l r)) rfl h
    fun c => .assigned t l r c).widen (List.Subset.refl _) fun sc pl hpl => .inl ?_
  rw [← Scopes.all_append]
  exact hpl

theorem runs_invocation (t : Tag) (h : Ready N Entry (Stmt.call t e).visits) :
    Runs N Entry (Stmt.call t e).visits id (fun sc => (Stmt.call t e).places sc) Any
      (stmt (.call t e)) := by
  have hrun : Runs N Entry (Stmt.call t e).visits id (fun sc => sc.all e.visits) Any
      (stmt (.call t e)) :=
    ((runs_expr e h.tail).bind_still (fun _ _ => .pure trivial) h.tail).widen
      (subset_cons_self _ _) fun _ _ hpl => .inl hpl
  exact hrun.step (v := .stmt (.call t e)) rfl h fun c => .invoked t e c

theorem runs_initialised {h : Head} (hd : d.id = h.id) (ty : TypeExpr) {e : Option Expr}
    (hr : Ready N Entry (.enter d :: Expr.visits? e)) :
    Runs N Entry (.enter d :: Expr.visits? e) id (fun sc => sc.all (Expr.visits? e)) Any
      (initialised h ty e) := by
  refine Runs.still_bind (.quiet (sets_resolveWritten ty h.span) (quiet_resolveType ty h.span))
    (fun declared hty => ?_) hr
  have hset : Still N (· = h.id) Any (setType h.id declared) :=
    still_setType h.id hty.1 fun _ => hty.2
  cases e with
  | none =>
    refine hset.runs ?_
    rintro i rfl
    exact mem_filterMap.2 ⟨_, .head _, congrArg some hd⟩
  | some e =>
    exact (runs_expr e hr.tail).ended (fun _ _ => (still_expect _ _ _).bind fun _ _ => hset)
      (congrArg some hd) hr

theorem runs_inFrame (hx : Runs N Entry vs f ps Any x)
    (hf : ∀ sc : Scopes, (f sc.push).pop = sc) :
    Runs N Entry vs id (fun sc => ps sc.push) Any (inFrame x) where
  sets := sets_inFrame hx.sets
  scopes {c} hc := by
    change (x { c with scopes := c.scopes.push }).2.scopes.pop = c.scopes
    rw [hx.scopes (hc.withScopes hc.scopes.push)]
    exact hf _
  later {c} hc := by
    have h := hx.later (hc.withScopes hc.scopes.push)
    exact ⟨h.leftValues, h.errors⟩
  runs {c} hc hb pl hpl hs := (hx.runs (hc.withScopes hc.scopes.push) hb pl hpl hs).later
    (List.Subset.refl _) ⟨⟨List.Subset.refl _, id⟩, fun _ _ => rfl, fun _ _ => rfl⟩

theorem runs_withTypeParams (names : List String) (hx : Runs N Entry vs f ps Any x)
    (hf : ∀ sc : Scopes, (f (sc.pushTypeParams names)).popTypeParams = sc) :
    Runs N Entry vs id (fun sc => ps (sc.pushTypeParams names)) Any (withTypeParams names x) where
  sets := sets_withTypeParams names hx.sets
  scopes {c} hc := by
    change (x { c with scopes := c.scopes.pushTypeParams names }).2.scopes.popTypeParams = c.scopes
    rw [hx.scopes (hc.pushTypeParams names)]
    exact hf _
  later {c} hc := by
    have h := hx.later (hc.pushTypeParams names)
    exact ⟨h.leftValues, h.errors⟩
  runs {c} hc hb pl hpl hs := (hx.runs (hc.pushTypeParams names) hb pl hpl hs).later
    (List.Subset.refl _) ⟨⟨List.Subset.refl _, id⟩, fun _ _ => rfl, fun _ _ => rfl⟩

theorem runs_names
    (hw : Walks x f fun _ => []) (hs : Sets N (· ∈ nodeIds vs) Any x) :
    Runs N Entry vs f (fun _ => []) Any x :=
  ⟨hs, fun _ => hw.scopes _, fun _ => hw.later _, fun _ _ _ h => absurd h not_mem_nil⟩

theorem runs_defineDecl (hd : d.Clear N) :
    Runs N Entry [] (·.declare d) (fun _ => []) Any (defineDecl d) :=
  runs_names (walks_define d.name d.span (.decl d)) (sets_defineDecl hd)

theorem runs_defineParams (h : ∀ q ∈ ps, ¬ N q.id) :
    Runs N Entry [] (·.declareParams ps) (fun _ => []) Any (defineParams ps) :=
  runs_names (walks_defineParams ps) (sets_defineParams h)

theorem Runs.stmt (hx : Runs N Entry vs f ps post x) (hs : (Visit.stmt s).isStep = false) :
    Runs N Entry (.stmt s :: vs) f (fun sc => (sc, .stmt s) :: ps sc) post x :=
  hx.widen (subset_cons_self _ _) fun _ _ hpl => by
    rcases mem_cons.1 hpl with rfl | hpl
    · exact .inr hs
    · exact .inl hpl

theorem runs_declared (h : Ready N Entry d.visits)
    (hd : Runs N Entry d.visits id (fun sc => d.places sc) Any (decl d)) :
    Runs N Entry d.visits (·.declare d) (fun sc => d.places sc) Any
      (decl d >>= fun _ => defineDecl d) := by
  refine Runs.widen (hd.join (fun _ _ => runs_defineDecl (h.clear d.enter_mem_visits))
    (List.Subset.refl _) (nil_subset _) fun i hi => ⟨h.known i hi, not_mem_nil⟩)
    (List.Subset.refl _) fun sc pl hpl => .inl (mem_append_left _ hpl)

theorem Runs.declaration (hx : Runs N Entry (.enter d :: vs) id ps Any x) (qs : Scopes → List Place)
    (hs : vs ⊆ ws)
    (hp : ∀ sc, ∀ pl ∈ qs sc, pl ∈ ps sc ∨ pl.2.isStep = false)
    (hd : d.visits = .enter d :: (ws ++ [.leave d]))
    (hps : ∀ sc, d.places sc = (sc, .enter d) :: (qs sc ++ [(sc, .leave d)])) :
    Runs N Entry d.visits id (fun sc => d.places sc) Any x := by
  refine hx.widen ?_ fun sc pl hpl => ?_
  · rw [hd]
    exact cons_subset_cons _ (subset_append_of_subset_left _ hs)
  · simp only [hps, mem_cons, mem_append, not_mem_nil, or_false] at hpl
    rcases hpl with rfl | hpl | rfl
    · exact .inr rfl
    · exact hp sc pl hpl
    · exact .inr rfl

theorem runs_plain (hx : Still N (· = d.id) Any x)
    (hp : ∀ sc, d.places sc = [(sc, .enter d), (sc, .leave d)]) :
    Runs N Entry d.visits id (fun sc => d.places sc) Any x := by
  refine (hx.runs ?_ : Runs N Entry d.visits id _ Any x).widen (List.Subset.refl _)
    fun sc pl hpl => .inr ?_
  · rintro i rfl
    exact mem_filterMap.2 ⟨_, d.enter_mem_visits, rfl⟩
  · rw [hp] at hpl
    rcases mem_cons.1 hpl with rfl | hpl
    · rfl
    · rw [mem_singleton.1 hpl]
      rfl

mutual
theorem runs_stmt : (s : Stmt) → Ready N Entry s.visits →
    Runs N Entry s.visits (s.after ·) (fun sc => s.places sc) Any (stmt s)
  | .block t b, h => (runs_block b h.tail).stmt rfl
  | .assign t l r, h => runs_assign t h
  | .call t e, h => runs_invocation t h
  | .ifThen t c a none, h => ((runs_condition t h.tail.left).bind
      (fun _ _ => runs_stmt a h.tail.right) h.tail).stmt rfl
  | .ifThen t c a (some b), h => by
    have hr : Ready N Entry (c.visits ++ (a.visits ++ b.visits)) :=
      append_assoc c.visits _ _ ▸ h.tail
    have hab := (runs_stmt a hr.right.left).bind (fun _ _ => runs_stmt b hr.right.right) hr.right
    refine (((runs_condition t hr.left).bind (fun _ _ => hab) hr).stmt
      (s := .ifThen t c a (some b)) rfl).widen ?_ fun sc pl hpl => .inl ?_
    · rw [Stmt.visits, append_assoc]
      exact List.Subset.refl _
    · rw [Stmt.places, append_assoc] at hpl
      exact hpl
  | .switch t e cs, h => ((runs_expr e h.tail.left).bind (fun _ _ => runs_cases cs h.tail.right)
      h.tail).stmt rfl
  | .decl t d, h => (runs_declared h.tail (runs_decl d h.tail)).stmt rfl
  | .ret t e, h => (runs_expr? h.tail).stmt rfl
  | .exit t, _ | .empty t, _ => (Still.pure trivial).silent.stmt rfl
theorem runs_block : (b : Block) → Ready N Entry b.visits →
    Runs N Entry b.visits id (fun sc => b.places sc) Any (block b)
  | .mk i ss, h => (runs_inFrame (runs_stmts ss h.tail) fun sc =>
      (Stmt.afters_inner sc.inner_push_ne ss).2).widen (subset_cons_self _ _) fun _ _ hpl => by
        rcases mem_cons.1 hpl with rfl | hpl
        · exact .inr rfl
        · exact .inl hpl
theorem runs_stmts : (ss : List Stmt) → Ready N Entry (Stmt.allVisits ss) →
    Runs N Entry (Stmt.allVisits ss) (Stmt.afters · ss) (fun sc => Stmt.allPlaces sc ss) Any
      (stmts ss)
  | [], _ => (Still.pure trivial).silent
  | s :: ss, h => (runs_stmt s h.left).bind (fun _ _ => runs_stmts ss h.right) h
theorem runs_cases : (cs : List Case) → Ready N Entry (Case.visits cs) →
    Runs N Entry (Case.visits cs) id (fun sc => Case.places sc cs) Any (cases cs)
  | [], _ => (Still.pure trivial).silent
  | .run _ b :: cs, h => (runs_block b h.left).bind (fun _ _ => runs_cases cs h.right) h
  | .fallThrough _ :: cs, h => runs_cases cs h
theorem runs_decl : (d : Decl) → Ready N Entry d.visits →
    Runs N Entry d.visits id (fun sc => d.places sc) Any (decl d)
  | .header h fs, _ | .struct h fs, _ =>
    runs_plain (.quiet (sets_fieldTypes _ _) (quiet_fieldTypes _ _)) fun _ => rfl
  | .externType h tps cs ms, hr => runs_plain (.quiet (sets_externMethods tps fun m hm q hq =>
      hr.clear (.head _) q (mem_flatMap.2 ⟨m, hm, hq⟩)) (quiet_externMethods _ _)) fun _ => rfl
  | .externFn h m, hr => runs_plain ((Still.quiet (sets_methodType (hr.clear (.head _)))
      (quiet_methodType m)).bind fun s hs => still_setType h.id (t := .method s) hs fun hw =>
        absurd hw (hr.not_written_decl (d := .externFn h m) (.head _) rfl)) fun _ => rfl
  | .action h ps (.mk i ss), hr => by
    have hps : ∀ q ∈ ps, ¬ N q.id := hr.clear (.head _)
    have hss : Ready N Entry (.enter (.action h ps (.mk i ss)) :: Stmt.allVisits ss) :=
      hr.sublist (((sublist_append_left _ _).trans (sublist_cons_self _ _)).cons_cons _)
    have hhead : Runs N Entry [.enter (.action h ps (.mk i ss))] id (fun _ => []) Any
        (actionType ps >>= fun s => setType h.id (.method s)) :=
      ((Still.quiet (sets_actionType hps) (quiet_actionType ps)).bind fun s hs =>
        still_setType h.id (t := .method s) hs fun hw => absurd hw
          (hr.not_written_decl (d := .action h ps (.mk i ss)) (.head _) rfl)).runs
            fun i hi => hi ▸ .head _
    have hbody := runs_inFrame ((runs_defineParams hps).bind (fun _ _ => runs_stmts ss hss.tail)
      hss.tail) fun sc => sc.pop_action ps ss
    refine (hhead.bind (fun _ _ => hbody) hss).declaration (fun sc => (sc, .block (.mk i ss)) ::
      Stmt.allPlaces (sc.push.declareParams ps) ss) (subset_cons_self _ _)
      (fun sc pl hpl => ?_) rfl fun _ => rfl
    rcases mem_cons.1 hpl with rfl | hpl
    · exact .inr rfl
    · exact .inl hpl
  | .table h ks as d, hr => by
    have hvs : (Decl.table h ks as d).visits = .enter (.table h ks as d) :: ((ks.flatMap Key.visits
        ++ ((Expr.walks as).map .expr ++ (Expr.walks d.toList).map .expr))
          ++ [.leave (.table h ks as d)]) := by
      simp only [Decl.visits, Expr.visits?_eq, append_assoc]
    have hin : Ready N Entry (ks.flatMap Key.visits ++ ((Expr.walks as).map .expr
        ++ (Expr.walks d.toList).map .expr)) := by
      exact (hvs ▸ hr).tail.left
    have hentries : ∀ e ∈ as ++ d.toList, Entry e := hr.entries _ (.head _)
    have hall := (runs_keys hin.left).bind (fun _ _ => (runs_actionEntries (fun e he => hentries e
      (mem_append_left _ he)) hin.right.left).bind (fun _ _ => runs_actionEntries
        (fun e he => hentries e (mem_append_right _ he)) hin.right.right) hin.right) hin
    refine (hall.ended (v := .enter (.table h ks as d)) (fun _ _ =>
      still_setType h.id (t := .table (.table h ks as d)) (fun _ hq => absurd hq not_mem_nil)
        fun _ => rfl) rfl
        (hr.sublist (hvs ▸ (sublist_append_left _ _).cons_cons _))).declaration _
      (List.Subset.refl _) (fun _ _ hpl => .inl hpl) hvs fun sc => ?_
    simp only [Decl.places, Expr.visits?_eq, Scopes.all_append, append_assoc, id]
  | .control h tps ps cps ls b, hr => by
    have hps : ∀ q ∈ cps ++ ps, ¬ N q.id := hr.clear (.head _)
    have hin : Ready N Entry (Decl.allVisits ls ++ b.visits) := hr.tail.left
    have hbody := (runs_locals ls hin.left).bind (fun _ _ => runs_block b hin.right) hin
    have hparams := (runs_defineParams fun q hq => hps q (mem_append_left _ hq)).bind
      (fun _ _ => (runs_defineParams fun q hq => hps q (mem_append_right _ hq)).bind
        (fun _ _ => hbody) hin) hin
    have hframe := runs_inFrame hparams fun sc => sc.pop_control ps cps ls
    exact ((runs_withTypeParams tps hframe fun _ => rfl).widen (subset_cons_self _ _)
      fun _ _ hpl => .inl hpl).declaration _ (List.Subset.refl _) (fun _ _ hpl => .inl hpl) rfl
        fun _ => rfl
  | .package h tps ps, hr => runs_plain (.quiet (sets_withTypeParams tps
      ((sets_paramTypes (hr.clear (.head _))).bind fun _ _ => .pure trivial))
        (quiet_withTypeParams tps ((quiet_paramTypes ps).bind fun _ => .pure _))) fun _ => rfl
  | .inst h ty as, hr => by
    have hin : Ready N Entry (.enter (.inst h ty as) :: (Expr.walks as).map .expr) :=
      hr.sublist ((sublist_append_left _ _).cons_cons _)
    refine Runs.declaration (Runs.still_bind (.quiet (sets_resolveWritten ty h.span)
      (quiet_resolveType ty h.span)) (fun t hty => (runs_exprs as hin.tail).ended (fun _ _ =>
        (still_instantiate h.id t as.length h.span).bind fun _ _ =>
          still_setType h.id hty.1 fun _ => hty.2) rfl hin)
            hin) _ (List.Subset.refl _) (fun _ _ hpl => .inl hpl) rfl fun _ => rfl
  | .var h ty e, hr => (runs_initialised rfl ty
      (hr.sublist ((sublist_append_left _ _).cons_cons _))).declaration _ (List.Subset.refl _)
        (fun _ _ hpl => .inl hpl) rfl fun _ => rfl
  | .const h ty e, hr => (runs_initialised (e := some e) rfl ty
      (hr.sublist ((sublist_append_left _ _).cons_cons _))).declaration _ (List.Subset.refl _)
        (fun _ _ hpl => .inl hpl) rfl fun _ => rfl
theorem runs_locals : (ds : List Decl) → Ready N Entry (Decl.allVisits ds) →
    Runs N Entry (Decl.allVisits ds) (·.declares ds) (fun sc => Decl.allPlaces sc ds)
      Any (locals ds)
  | [], _ => (Still.pure trivial).silent
  | d :: ds, h => (runs_declared h.left (runs_decl d h.left)).bind
      (fun _ _ => runs_locals ds h.right) h
end

theorem runs_decls (h : Ready N Entry (Decl.allVisits ds)) :
    Runs N Entry (Decl.allVisits ds) id (fun sc => ds.flatMap (·.places sc)) Any (decls ds) := by
  induction ds with
  | nil => exact (Still.pure trivial).silent
  | cons d ds ih => exact (runs_decl d h.left).bind (fun _ _ => ih h.right) h

theorem get?_receiver
    (h : Ready N Entry (Expr.member t b n).visits) (hc : c.Clear N) (k : Option Nat) :
    (typed t (expr b >>= fun ty => member t b.id ty n k) c).2.types.get? b.id =
      some (expr b c).1 := by
  have hb := (runs_expr b h.tail).sets
  have hid : b.id ∈ nodeIds b.visits := b.id_mem_visits
  have hmem : Sets N (· = t.id) Any (typed t (member t b.id (expr b c).1 n k)) :=
    (sets_member t b.id (hb.result hc) n k).bind fun ty hty =>
      (sets_setType (L := (· = t.id)) (fun _ => rfl) hty fun hw => absurd hw
        (h.not_written_expr (e := .member t b n) (.head _))).bind fun _ _ => .pure trivial
  refine (hmem.frame (hb.clear hc) (h.tail.known _ hid) ?_).trans (get?_expr b c)
  intro heq
  rw [heq] at hid
  exact h.head_not_mem rfl hid

end Check

namespace Program

variable {p : Program}

def IsEntry (p : Program) (e : Expr) : Prop := e ∈ p.visits.flatMap Visit.entries

def nodes (p : Program) : Nodes where
  once i := i ∈ nodeIds p.visits
  written i := ∃ r ∈ p.referents, r.isValue = true ∧ r.id = i

structure CheckedBy (p : Program) (pl : Place) (c₀ c₁ : Checker) : Prop where
  step : Check.Step p.IsEntry pl c₀ c₁
  clear : c₀.Clear p.nodes
  unbound : Check.Unbound (nodeIds pl.2.under) c₀
  under : pl.2.under ⊆ p.visits
  ready : Check.Ready p.nodes p.IsEntry pl.2.under
  types : ∀ i ∈ nodeIds pl.2.under, p.check.types.get? i = c₁.types.get? i
  bindings : ∀ i ∈ nodeIds pl.2.under,
    p.check.types.bindings.get? i = c₁.types.bindings.get? i
  leftValues : c₁.types.leftValues ⊆ p.check.types.leftValues
  errors : p.check.errors = [] → c₁.errors = []

theorem CheckedBy.isLeftValue (h : p.CheckedBy pl c₀ c₁)
    (hi : c₁.types.isLeftValue i = true) : p.check.types.isLeftValue i = true :=
  contains_iff_mem.2 (h.leftValues (contains_iff_mem.1 hi))

theorem enter_of_written (hids : p.NodesApart) (hv : v ∈ p.visits)
    (hi : v.id? = some i) (hw : p.nodes.written i) : ∃ d, v = .enter d ∧ d.isValue = true := by
  obtain ⟨r, hr, hvalue, rfl⟩ := hw
  have hnode : r.id ∈ nodeIds p.visits := mem_filterMap.2 ⟨v, hv, hi⟩
  rcases mem_referents hr with ⟨d, hd, rfl⟩ | ⟨d, hd, q, hq, rfl⟩
  · refine ⟨d, ?_, hvalue⟩
    exact eq_of_nodup_filterMap hids.nodes hv (mem_allDecls.1 hd) hi rfl
  · exact absurd hnode (hids.params d hd q hq)

theorem ready_visits (hids : p.NodesApart) : Check.Ready p.nodes p.IsEntry p.visits where
  nodup := hids.nodes
  known _ hi := hi
  brings := brings_clear hids
  entries v hv _ he := mem_flatMap.2 ⟨v, hv, he⟩
  written _ hv _ hi hw := enter_of_written hids hv hi hw

theorem clear_start (p : Program) : Checker.Clear p.nodes ⟨.empty, .empty, .empty, []⟩ :=
  ⟨fun f hf => by
    rw [mem_singleton.1 hf]
    exact fun _ h => absurd h not_mem_nil, fun _ h => absurd h not_mem_nil,
      fun _ h => absurd h not_mem_nil⟩

theorem exists_checkedBy (hids : p.NodesApart) (hpl : pl ∈ p.places)
    (hs : pl.2.isStep = true) : ∃ c₀ c₁, p.CheckedBy pl c₀ c₁ := by
  let c : Checker := ⟨.empty, .empty, .empty, []⟩
  have hready := ready_visits hids
  have hdecls : ∀ d ∈ p.decls, d.Clear p.nodes := fun d hd =>
    hready.clear (visits_subset_of_mem hd d.enter_mem_visits)
  have hc : c.Clear p.nodes := p.clear_start
  have hdefine := Check.sets_defineAll (L := fun _ => False) hdecls
  have hc' := hdefine.clear hc
  have hb : Check.Unbound (nodeIds p.visits) (Check.defineAll p.decls c).2 := fun _ _ =>
    hdefine.bound hc id
  have htop : (Check.defineAll p.decls c).2.scopes = p.top :=
    (Check.walks_defineAll p.decls).scopes c
  obtain ⟨hunder, hready, c₀, c₁, hstep, hclear, hunbound, hkept⟩ :=
    (Check.runs_decls hready).runs hc' hb pl (htop ▸ hpl) hs
  exact ⟨c₀, c₁, hstep, hclear, hunbound, hunder, hready, hkept.types, hkept.bindings,
    hkept.leftValues, hkept.errors⟩

end Program

end MatchAction
