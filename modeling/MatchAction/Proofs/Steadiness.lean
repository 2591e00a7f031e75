import MatchAction.Proofs.Outward

/-!
What checking an expression leaves as it was. The type of a parameter is written down anew wherever
the declaration that has it is used, and as the written type is read there. Where no type is
declared farther in than some outer place, it is read as there, so the parameters in scope keep
their types. And what can be written to is marked at the expressions that are checked.
-/

namespace MatchAction

open List hiding modify

def Versions.refl : Versions where
  decl d := d
  alike := .refl
  path := Spelling.same.use

mutual
@[simp] theorem Ty.over_refl : (t : Ty) → t.over (fun d => d) = t
  | .decl d as => congrArg (Ty.decl d) (Ty.overs_refl as)
  | .stack e n => congrArg (Ty.stack · n) (Ty.over_refl e)
  | .method s => congrArg Ty.method (Signature.over_refl s)
  | .bool | .bits .. | .int | .void | .param _ | .table _ | .applyResult _ | .actionEnum
    _ | .error => rfl
theorem Ty.overs_refl : (ts : List Ty) → Ty.overs (fun d => d) ts = ts
  | [] => rfl
  | t :: ts => by rw [Ty.overs, Ty.over_refl t, Ty.overs_refl ts]
theorem Signature.over_refl : (s : Signature) → s.over (fun d => d) = s
  | .mk tps ps r => by rw [Signature.over, ParamTy.overs_refl ps, Ty.over_refl r]
theorem ParamTy.overs_refl : (ps : List ParamTy) → ParamTy.overs (fun d => d) ps = ps
  | [] => rfl
  | .mk n d t :: ps => by rw [ParamTy.overs, ParamTy.over, Ty.over_refl t, ParamTy.overs_refl ps]
end

theorem Ty.map_over_refl (t : Option Ty) : t.map (Ty.over Versions.refl.decl) = t := by
  cases t with
  | none => rfl
  | some t => exact congrArg some t.over_refl

theorem Referent.over_refl (r : Referent) : r.over (fun d => d) = r := by
  cases r <;> rfl

namespace Scopes.TypesFrom

variable {outer sc : Scopes}

theorem resolve (h : outer.TypesFrom sc) (hty : (sc.resolve ty).unknown = []) :
    outer.resolve ty = sc.resolve ty := by
  have hm : sc.Match .refl [] outer :=
    ⟨h.typeParams, fun hl ht _ => h.types hl ht, fun h => absurd h not_mem_nil⟩
  refine (hm.resolve ty hty fun _ _ => trivial).trans ?_
  rw [← hty, Versions.refl, Ty.over_refl]

end Scopes.TypesFrom

def Program.regime (p : Program) : Regime := ⟨(· ∈ p.allDecls), True, fun _ => True⟩

/-- Declarations that share a parameter write down the same type for it, and have bodies or not
alike. -/
structure Program.Coherent (p : Program) : Prop extends p.NodesApart where
  shared : ∀ d ∈ p.allDecls, ∀ d' ∈ p.allDecls, ∀ q ∈ d.params, ∀ q' ∈ d'.params, q.id = q'.id →
    q.type = q'.type ∧ d.body?.isSome = d'.body?.isSome

/-- Parameters of actions and controls whose types are read at `base`. -/
structure Region (p : Program) where
  ids : p.Coherent
  base : Scopes
  param : Param → Prop
  own : ∀ {q}, param q → ∃ d ∈ p.allDecls, d.body?.isSome ∧ q ∈ d.params

def Checker.Holds {p : Program} (R : Region p) (c : Checker) : Prop :=
  ∀ q, R.param q → c.types.get? q.id = some (R.base.resolve q.type).type

variable {d : Decl} {q : Param}

variable {i : NodeId} {qs : List Param}

namespace Region

variable {p : Program} (R : Region p)

theorem ext (hd : d ∈ p.allDecls) {q' : Param} (hq' : q' ∈ d.params) (hq : R.param q)
    (h : q.id = q'.id) : q.type = q'.type ∧ d.body?.isSome := by
  obtain ⟨d', hd', hbody, hq⟩ := R.own hq
  obtain ⟨htype, hsome⟩ := R.ids.shared d' hd' d hd q hq q' hq' h
  exact ⟨htype, hsome.symm.trans hbody⟩

theorem apart (hi : p.nodes i) (hq : R.param q) : q.id ≠ i := by
  obtain ⟨d, hd, -, hq⟩ := R.own hq
  exact fun h => R.ids.params d hd q hq (h ▸ hi)

theorem not_param (hd : d ∈ p.allDecls) (hb : d.body? = none)
    (hqs : qs ⊆ d.params) (hq : R.param q) : q.id ∉ qs.map (·.id) := by
  intro hmem
  obtain ⟨q', hq', hid⟩ := mem_map.1 hmem
  have hbody := (R.ext hd (hqs hq') hq hid.symm).2
  rw [hb] at hbody
  cases hbody

end Region

namespace Check

variable {α β γ : Type} {L : NodeId → Prop}

variable {t : Tag} {p : Program} {R : Region p} {P : Prop} {Q : α → Prop} {Q' : β → Prop}

/-- A step that, given `P`, keeps the types of the parameters if it reports nothing, and marks left
values of `L` only. -/
structure Steady (R : Region p) (L : NodeId → Prop) (P : Prop) (Q : α → Prop) (x : Check α) :
    Prop where
  scopes : ∀ c, (x c).2.scopes = c.scopes
  errors : ∀ c, (x c).2.errors = [] → c.errors = []
  fit : ∀ {c}, P → c.Fit p.regime → (x c).2.Fit p.regime
  result : ∀ {c}, P → c.Fit p.regime → Q (x c).1
  holds : ∀ {c}, P → c.Fit p.regime → R.base.TypesFrom c.scopes → (x c).2.errors = [] →
    c.Holds R → (x c).2.Holds R
  lefts : ∀ {c}, P → c.Fit p.regime → ∀ {i}, ¬ L i →
    (x c).2.types.isLeftValue i = c.types.isLeftValue i

theorem Leaf.steady (hx : Leaf p.regime P Q x)
    (ht : ∀ c {q}, R.param q → (x c).2.types.get? q.id = c.types.get? q.id)
    (hl : ∀ c {i}, ¬ L i → (x c).2.types.isLeftValue i = c.types.isLeftValue i) :
    Steady R L P Q x where
  scopes := hx.quiet.scopes
  errors := hx.quiet.errors
  fit hP hc := hx.fit hP hc (.inl trivial)
  result hP hc := hx.result hP hc (.inl trivial)
  holds _ _ _ _ hr q hq := (ht _ hq).trans (hr q hq)
  lefts _ _ _ hi := hl _ hi

theorem Leaf.idle (hx : Leaf p.regime P Q x) (h : ∀ c, (x c).2.types = c.types) :
    Steady R L P Q x :=
  hx.steady (fun c {_} _ => by rw [h c]) fun c {_} _ => by rw [h c]

namespace Steady

theorem pure (h : P → Q a) : Steady R L P Q (Pure.pure a) :=
  (Leaf.pure h).idle fun _ => rfl

theorem bind (hx : Steady R L P Q x)
    (hf : ∀ a, Steady R L (P ∧ Q a) Q' (f a)) : Steady R L P Q' (x >>= f) where
  scopes c := ((hf _).scopes _).trans (hx.scopes c)
  errors c h := hx.errors c ((hf _).errors _ h)
  fit hP hc := (hf _).fit ⟨hP, hx.result hP hc⟩ (hx.fit hP hc)
  result hP hc := (hf _).result ⟨hP, hx.result hP hc⟩ (hx.fit hP hc)
  holds {c} hP hc hsc he hr := by
    have hmid := hx.holds hP hc hsc ((hf _).errors _ he) hr
    refine (hf _).holds ⟨hP, hx.result hP hc⟩ (hx.fit hP hc) ?_ he hmid
    rw [hx.scopes]
    exact hsc
  lefts hP hc _ hi := ((hf _).lefts ⟨hP, hx.result hP hc⟩ (hx.fit hP hc) hi).trans
    (hx.lefts hP hc hi)

theorem given (hq : Quiet x) (h : P → Steady R L P Q x) : Steady R L P Q x :=
  ⟨hq.scopes, hq.errors, fun hP => (h hP).fit hP, fun hP => (h hP).result hP,
    fun hP => (h hP).holds hP, fun hP => (h hP).lefts hP⟩

end Steady

theorem get?_setType_of_ne (h : j ≠ i) (t : Ty) (c : Checker) :
    (setType i t c).2.types.get? j = c.types.get? j :=
  (Types.get?_set_eq c.types i j t).trans (if_neg h)

theorem steady_setType (hi : p.nodes i) {t : Ty} (ht : P → p.regime.Fits t) :
    Steady R L P Any (setType i t) :=
  (leaf_setType i ht).steady (fun c {_} hq => get?_setType_of_ne (R.apart hi hq) t c)
    fun _ {_} _ => rfl

theorem steady_resolveType (t : TypeExpr) (sp : Option Span) :
    Steady R L P p.regime.Fits (resolveType t sp) := (leaf_resolveType t sp).idle fun _ => rfl

theorem steady_report (f : TypeFault) (sp : Option Span) (hf : f.isNaming = false) :
    Steady R L P Any (report f sp) := (leaf_report f sp hf).idle fun _ => rfl

theorem steady_paramType (hd : d ∈ p.allDecls) (hq : q ∈ d.params) :
    Steady R L P p.regime.Fits (paramType q) := by
  have hleaf : Leaf p.regime P p.regime.Fits (paramType q) := leaf_paramType q
  refine ⟨hleaf.quiet.scopes, hleaf.quiet.errors, fun hP hc => hleaf.fit hP hc (.inl trivial),
    fun hP hc => hleaf.result hP hc (.inl trivial), fun {c} _ _ hsc he hr q' hq' => ?_,
    fun _ _ _ _ => rfl⟩
  have hu : (c.scopes.resolve q.type).unknown = [] :=
    map_eq_nil_iff.1 (append_eq_nil_iff.1 he).2
  have hget : (paramType q c).2.types.get? q'.id =
      if q'.id = q.id then some (c.scopes.resolve q.type).type else c.types.get? q'.id :=
    Types.get?_set_eq ..
  rw [hget]
  split
  · rename_i hid
    rw [(R.ext hd hq hq' hid).1, hsc.resolve hu]
  · exact hr q' hq'

theorem get?_paramTypes (hi : i ∉ qs.map (·.id)) (c : Checker) :
    (paramTypes qs c).2.types.get? i = c.types.get? i := by
  induction qs generalizing c with
  | nil => rfl
  | cons q qs ih =>
    obtain ⟨hne, hrest⟩ := ne_and_not_mem_of_not_mem_cons hi
    refine (ih hrest (paramType q c).2).trans ?_
    exact (Types.get?_set_eq ..).trans (if_neg hne)

theorem leftValues_paramTypes (qs : List Param) (c : Checker) :
    (paramTypes qs c).2.types.leftValues = c.types.leftValues := by
  induction qs generalizing c with
  | nil => rfl
  | cons q qs ih => exact ih (paramType q c).2

theorem steady_methodType (hd : d ∈ p.allDecls) (hb : d.body? = none)
    (hm : m.params ⊆ d.params) :
    Steady R L P (Signature.Made p.regime.decl p.regime.error) (methodType m) :=
  (leaf_methodType m).steady
    (fun c {_} hq => get?_paramTypes (R.not_param hd hb hm hq)
      { c with scopes := c.scopes.pushTypeParams _ })
    fun c {_} _ => congrArg (List.contains · _) (leftValues_paramTypes m.params
      { c with scopes := c.scopes.pushTypeParams _ })

theorem steady_externMethodType (hd : d ∈ p.allDecls) (hb : d.body? = none)
    (tps : List String) (hm : m.params ⊆ d.params) :
    Steady R L P (Signature.Made p.regime.decl p.regime.error) (externMethodType tps m) :=
  ((leaf_rules).externMethodType tps fun _ => trivial).steady
    (fun c {_} hq => get?_paramTypes (R.not_param hd hb hm hq)
      { c with scopes := (c.scopes.pushTypeParams _).pushTypeParams _ })
    fun c {_} _ => congrArg (List.contains · _) (leftValues_paramTypes m.params
      { c with scopes := (c.scopes.pushTypeParams _).pushTypeParams _ })

theorem steady_setLeftValue (hi : L i) : Steady R L P Any (setLeftValue i) := by
  refine (leaf_setLeftValue i).steady (fun _ {_} _ => rfl) fun c {j} hj => ?_
  have hne : j ≠ i := fun h => hj (h ▸ hi)
  change List.contains (i :: c.types.leftValues) j = List.contains c.types.leftValues j
  rw [contains_cons, beq_eq_false_iff_ne.2 hne, Bool.false_or]

abbrev Allowed.steady (p : Program) (L : NodeId → Prop) : Allowed where
  decl := p.regime.decl
  error := p.regime.error
  param q := ∃ d ∈ p.allDecls, q ∈ d.params
  method m := ∃ d ∈ p.allDecls, d.body? = none ∧ m.params ⊆ d.params
  left := L
  bound _ := True
  action hd hq := ⟨_, hd, hq⟩
  control hd hq := ⟨_, hd, mem_append_right _ hq⟩
  externFn hd := ⟨_, hd, rfl, List.Subset.refl _⟩
  externType hd hm := ⟨_, hd, rfl, fun _ hq => mem_flatMap.2 ⟨_, mem_append_right _ hm, hq⟩⟩

theorem steady_rules : Rules (.steady p L) fun _ => Steady R L where
  pure := .pure
  bind := .bind
  resolveType := steady_resolveType
  paramType hq := .given (quiet_paramType _) fun hP => by
    obtain ⟨d, hd, hq⟩ := hq hP
    exact steady_paramType hd hq
  methodType hm := .given (quiet_methodType _) fun hP => by
    obtain ⟨d, hd, hb, hm⟩ := hm hP
    exact steady_methodType hd hb hm
  externMethodType tps _ hm :=
    .given ((quiet_rules).externMethodType (P := False) tps nofun) fun hP => by
      obtain ⟨d, hd, hb, hm⟩ := hm hP
      exact steady_externMethodType hd hb tps hm
  report := steady_report
  fail f sp hf := (leaf_fail f sp hf).idle fun _ => rfl
  typeOf? i := (leaf_typeOf? i).idle fun _ => rfl
  isLeftValue i := (leaf_isLeftValue i).idle fun _ => rfl
  setLeftValue := steady_setLeftValue
  setBindings b _ := ((leaf_rules).setBindings b trivial).steady (fun _ {_} _ => rfl)
    fun _ {_} _ => rfl

theorem steady_referentType (ht : L t.id) (hr : r.Made p.regime.decl) :
    Steady R L P p.regime.Fits (referentType t r) :=
  (steady_rules).referentType trivial ht fun _ => hr

theorem steady_path (ht : L t.id) (n : String) :
    Steady R L P p.regime.Fits (path t n) where
  scopes := (walks_path t n).scopes
  errors c he := ((walks_path t n).errors c he).1
  fit hP hc := ((sound_path t n).keeps hP hc (.inl trivial)).1
  result hP hc := ((sound_path t n).keeps hP hc (.inl trivial)).2
  holds {c} _ hc hsc he hr := by
    cases hl : c.scopes.lookup n with
    | none =>
      rw [path_of_lookup_none hl] at he
      exact absurd he (errors_report_ne _ _ c)
    | some r =>
      rw [path_of_lookup hl] at he ⊢
      have hc' : (refer t.id r c).2.Fit p.regime := ⟨hc.made, hc.typed, hc.types⟩
      exact (steady_referentType (P := True) ht (hc.made.lookup hl)).holds trivial hc' hsc he hr
  lefts {c} _ hc {i} hi := by
    cases hl : c.scopes.lookup n with
    | none =>
      rw [path_of_lookup_none hl]
      rfl
    | some r =>
      rw [path_of_lookup hl]
      have hc' : (refer t.id r c).2.Fit p.regime := ⟨hc.made, hc.typed, hc.types⟩
      exact (steady_referentType (P := True) (R := R) ht (hc.made.lookup hl)).lefts trivial hc' hi

theorem types_constructorArity (d : Decl) (n : Nat) (sp : Option Span) (c : Checker) :
    (constructorArity d n sp c).2.types = c.types := by
  unfold constructorArity
  cases constructorArities d with
  | nil => rfl
  | cons k ks =>
    rw [apply_ite (fun x : Check Unit => (x c).2.types)]
    exact ite_self _

theorem types_instantiate (i : NodeId) (t : Ty) (n : Nat) (sp : Option Span) (c : Checker) :
    (instantiate i t n sp c).2.types = c.types := by
  unfold instantiate
  cases t.decl? with
  | none => rfl
  | some d => exact types_constructorArity d n sp _

theorem steady_instantiate (i : NodeId) {t : Ty} (n : Nat) (sp : Option Span) :
    Steady R L P Any (instantiate i t n sp) where
  scopes _ := (resolves_instantiate i t n sp (.pure ())).scopes
  errors _ := errors_instantiate
  fit _ hc := fit_instantiate hc (.inl trivial)
  result _ _ := trivial
  holds {c} _ _ _ _ hr q hq := by
    rw [types_instantiate]
    exact hr q hq
  lefts {c} _ _ _ _ := by rw [types_instantiate]

theorem steady_exprRules : ExprRules (.steady p L) (fun i => L i ∧ p.nodes i) (fun _ => Steady R L)
    fun _ P Q _ x => Steady R L P Q x where
  toRules := steady_rules
  left := And.left
  bound _ := trivial
  setType hi := steady_setType hi.2
  step hx := hx
  seq := .bind
  node _ hx := hx
  path n ht := steady_path ht.1 n
  construct t ty as hy := (steady_resolveType ty t.span).bind fun _ => hy.bind fun _ =>
    (steady_instantiate t.id as.length t.span).bind fun _ => .pure fun h => h.1.1.2

theorem steady_expr (e : Expr) (h : ∀ x ∈ e.walk, L x.id ∧ p.nodes x.id) :
    Steady R L P p.regime.Fits (expr e) := (steady_exprRules).expr e h

end Check

end MatchAction
