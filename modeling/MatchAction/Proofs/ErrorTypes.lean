import MatchAction.Proofs.Typing

namespace MatchAction

open List hiding modify

/-- What types may be built from: declarations of `decl`, and the error type if `error` holds.
Values of `late` need no type yet. -/
structure Regime where
  decl : Decl → Prop
  error : Prop
  late : NodeId → Prop

abbrev Regime.Fits (S : Regime) : Ty → Prop := Ty.Made S.decl S.error

def Referent.Typed (S : Regime) (types : Types) (r : Referent) : Prop :=
  r.isValue = true → ¬ S.late r.id → (types.get? r.id).isSome

def Place.Timely (late : NodeId → Prop) : Place → Prop
  | (sc, .expr (.path _ n)) => ∀ r, sc.lookup n = some r → ¬ late r.id
  | _ => True

structure Checker.Fit (S : Regime) (c : Checker) : Prop where
  made : c.scopes.Made S.decl
  typed : c.scopes.All (Referent.Typed S c.types)
  types : ∀ e ∈ c.types.types.entries, S.Fits e.2

variable {i : NodeId} {t : Ty}

namespace Checker.Fit

variable {S : Regime} {c c' : Checker}

theorem typeOf (h : c.Fit S) (ht : c.types.get? i = some t) : S.Fits t :=
  h.types (i, t) (NodeMap.mem_of_get? ht)

theorem grow (h : c.Fit S) (hs : c'.scopes = c.scopes) (hg : c.types.Grows c'.types)
    (ht : ∀ e ∈ c'.types.types.entries, S.Fits e.2) : c'.Fit S where
  made := by rw [hs]; exact h.made
  typed := by
    rw [hs]
    exact fun f hf x hx hv hl => hg.typed (h.typed f hf x hx hv hl)
  types := ht

end Checker.Fit

variable {d : Decl} {ds : List Decl}

namespace Check

variable {α β : Type} {S : Regime} {P : Prop} {Q : α → Prop} {Q' : β → Prop}

/-- A quiet step that, given `P`, keeps to the regime if it reports nothing. The precondition is a
part of the statement since a step is quiet on whatever it is run. -/
structure Leaf (S : Regime) (P : Prop) (Q : α → Prop) (x : Check α) : Prop where
  quiet : Quiet x
  types : ∀ {c}, P → c.Fit S → S.error ∨ (x c).2.errors = [] →
    ∀ e ∈ (x c).2.types.types.entries, S.Fits e.2
  result : ∀ {c}, P → c.Fit S → S.error ∨ (x c).2.errors = [] → Q (x c).1

namespace Leaf

theorem fit (hx : Leaf S P Q x) (hP : P) (hc : c.Fit S)
    (he : S.error ∨ (x c).2.errors = []) : (x c).2.Fit S :=
  hc.grow (hx.quiet.scopes c) (hx.quiet.grows c) (hx.types hP hc he)

theorem pure (h : P → Q a) : Leaf S P Q (Pure.pure a) :=
  ⟨.pure a, fun _ hc _ => hc.types, fun hP _ _ => h hP⟩

theorem bind (hx : Leaf S P Q x)
    (hf : ∀ a, Leaf S (P ∧ Q a) Q' (f a)) : Leaf S P Q' (x >>= f) where
  quiet := hx.quiet.bind fun a => (hf a).quiet
  types {c} hP hc he := by
    have he' := he.imp_right ((hf _).quiet.errors (x c).2)
    exact (hf _).types ⟨hP, hx.result hP hc he'⟩ (hx.fit hP hc he') he
  result {c} hP hc he := by
    have he' := he.imp_right ((hf _).quiet.errors (x c).2)
    exact (hf _).result ⟨hP, hx.result hP hc he'⟩ (hx.fit hP hc he') he

theorem same (hx : Quiet x) (ht : ∀ c, (x c).2.types.types = c.types.types)
    (hr : ∀ {c}, P → c.Fit S → S.error ∨ (x c).2.errors = [] → Q (x c).1) : Leaf S P Q x where
  quiet := hx
  types {c} _ hc _ := by rw [ht c]; exact hc.types
  result := hr

end Leaf

theorem leaf_report (f : TypeFault) (sp : Option Span) (hf : f.isNaming = false) :
    Leaf S P Any (report f sp) :=
  .same (quiet_report f sp hf) (fun _ => rfl) fun _ _ _ => trivial

theorem leaf_fail (f : TypeFault) (sp : Option Span) (hf : f.isNaming = false) :
    Leaf S P S.Fits (report f sp >>= fun _ => pure Ty.error) :=
  .same ((quiet_report f sp hf).bind fun _ => .pure _) (fun _ => rfl) fun {c} _ _ he =>
    he.resolve_right (errors_report_ne f sp c)

theorem leaf_setType (i : NodeId) (ht : P → S.Fits t) : Leaf S P Any (setType i t) where
  quiet := quiet_setType i t
  types hP hc _ := forall_mem_cons.2 ⟨ht hP, hc.types⟩
  result _ _ _ := trivial

theorem leaf_setLeftValue (i : NodeId) : Leaf S P Any (setLeftValue i) :=
  .same (quiet_setLeftValue i) (fun _ => rfl) fun _ _ _ => trivial

theorem leaf_isLeftValue (i : NodeId) : Leaf S P Any (isLeftValue i) :=
  .same (quiet_isLeftValue i) (fun _ => rfl) fun _ _ _ => trivial

theorem leaf_typeOf? (i : NodeId) :
    Leaf S P (fun t : Option Ty => ∀ u, t = some u → S.Fits u) (typeOf? i) :=
  .same (quiet_typeOf? i) (fun _ => rfl) fun _ hc _ _ hu => hc.typeOf hu

theorem leaf_resolveType (t : TypeExpr) (sp : Option Span) :
    Leaf S P S.Fits (resolveType t sp) :=
  .same (quiet_resolveType t sp) (fun _ => rfl) fun _ hc he => by
    refine hc.made.resolve t (he.imp_right fun he => ?_)
    exact map_eq_nil_iff.1 (append_eq_nil_iff.1 he).2

theorem leaf_paramType (p : Param) : Leaf S P S.Fits (paramType p) :=
  (leaf_resolveType _ _).bind fun _ => (leaf_setType p.id And.right).bind fun _ =>
    .pure fun h => h.1.2

theorem leaf_withTypeParams (names : List String) (hx : Leaf S P Q x) :
    Leaf S P Q (withTypeParams names x) where
  quiet := quiet_withTypeParams names hx.quiet
  types {c} hP hc he := hx.types (c := { c with scopes := c.scopes.pushTypeParams names }) hP
    ⟨hc.made, hc.typed, hc.types⟩ he
  result {c} hP hc he := hx.result (c := { c with scopes := c.scopes.pushTypeParams names }) hP
    ⟨hc.made, hc.typed, hc.types⟩ he

theorem leaf_typeRules : TypeRules (.types S.decl S.error) fun _ => Leaf S :=
  ⟨.pure, .bind, leaf_resolveType, fun _ => leaf_paramType _⟩

theorem leaf_rules : Rules (.types S.decl S.error) fun _ => Leaf S where
  toTypeRules := leaf_typeRules
  methodType _ := (leaf_typeRules).methodType leaf_withTypeParams fun _ _ _ => trivial
  externMethodType tps _ _ :=
    (leaf_typeRules).externMethodType leaf_withTypeParams tps fun _ _ _ => trivial
  report := leaf_report
  fail := leaf_fail
  typeOf? := leaf_typeOf?
  isLeftValue := leaf_isLeftValue
  setLeftValue _ := leaf_setLeftValue _
  setBindings b _ := .same ((quiet_rules).setBindings (P := False) b trivial) (fun _ => rfl)
    fun _ _ _ => trivial

theorem leaf_paramTypes (ps : List Param) :
    Leaf S P (ParamTy.AllMade S.decl S.error) (paramTypes ps) :=
  (leaf_rules).paramTypes fun _ _ _ => trivial

theorem leaf_methodType (m : Method) :
    Leaf S P (Signature.Made S.decl S.error) (methodType m) := (leaf_rules).methodType
      fun _ => trivial

theorem leaf_actionType (ps : List Param) :
    Leaf S P (Signature.Made S.decl S.error) (actionType ps) :=
  (leaf_rules).actionType fun _ _ _ => trivial

theorem fits_referentType (t : Tag) (hc : c.Fit S)
    (hr : r.Made S.decl) (ht : S.error ∨ (r.isValue = true → (c.types.get? r.id).isSome))
    (he : S.error ∨ (referentType t r c).2.errors = []) :
    (∀ e ∈ (referentType t r c).2.types.types.entries, S.Fits e.2) ∧
      S.Fits (referentType t r c).1 := by
  have hvalue : r.isValue = true → S.Fits ((c.types.get? r.id).getD .error) := by
    intro hv
    cases hT : c.types.get? r.id with
    | none => exact ht.resolve_right fun h => by simpa [hT] using h hv
    | some T => exact hc.typeOf hT
  cases r with
  | param p =>
    simp only [referentType]
    split
    · exact ⟨hc.types, hvalue rfl⟩
    · exact ⟨hc.types, hvalue rfl⟩
  | decl d =>
    cases d with
    | var h ty e => exact ⟨hc.types, hvalue rfl⟩
    | const h ty e => exact ⟨hc.types, hvalue rfl⟩
    | inst h ty as => exact ⟨hc.types, hvalue rfl⟩
    | action h ps b =>
      have hx : Leaf S True S.Fits (actionType ps >>= fun s => pure (.method s)) :=
        (leaf_actionType ps).bind fun _ => .pure And.right
      exact ⟨hx.types trivial hc he, hx.result trivial hc he⟩
    | externFn h m =>
      have hx : Leaf S True S.Fits (methodType m >>= fun s => pure (.method s)) :=
        (leaf_methodType m).bind fun _ => .pure And.right
      exact ⟨hx.types trivial hc he, hx.result trivial hc he⟩
    | table h ks as d => exact ⟨hc.types, hr⟩
    | _ => exact ⟨hc.types, hr, trivial⟩

structure Sound (S : Regime) (P : Prop) (Q : α → Prop) (f : Scopes → Scopes)
    (ps : Scopes → List Place) (x : Check α) : Prop where
  walks : Walks x f ps
  keeps : ∀ {c}, P → c.Fit S →
    S.error ∨ (x c).2.errors = [] ∧ (∀ pl ∈ ps c.scopes, pl.Timely S.late) →
      (x c).2.Fit S ∧ Q (x c).1

theorem Leaf.sound (hx : Leaf S P Q x) : Sound S P Q id (fun _ => []) x where
  walks := hx.quiet.walks
  keeps hP hc he := by
    have he' := he.imp_right And.left
    exact ⟨hx.fit hP hc he', hx.result hP hc he'⟩

namespace Sound

variable {f g : Scopes → Scopes} {ps qs : Scopes → List Place} {x : Check α} {y : α → Check β}

theorem bind (hx : Sound S P Q f ps x) (hy : ∀ a, Sound S (P ∧ Q a) Q' g qs (y a)) :
    Sound S P Q' (fun sc => g (f sc)) (fun sc => ps sc ++ qs (f sc)) (x >>= y) where
  walks := hx.walks.bind fun a => (hy a).walks
  keeps {c} hP hc he := by
    obtain ⟨hc', ha⟩ := hx.keeps hP hc <| he.imp_right fun ⟨he, hps⟩ =>
      ⟨((hy _).walks.errors _ he).1, fun pl hpl => hps pl (mem_append_left _ hpl)⟩
    refine (hy _).keeps ⟨hP, ha⟩ hc' (he.imp_right fun ⟨he, hps⟩ => ⟨he, fun pl hpl => ?_⟩)
    rw [hx.walks.scopes] at hpl
    exact hps pl (mem_append_right _ hpl)

theorem widen (hx : Sound S P Q f ps x) (hw : Walks x g qs) (hs : ∀ sc, ps sc ⊆ qs sc) :
    Sound S P Q g qs x where
  walks := hw
  keeps hP hc he :=
    hx.keeps hP hc (he.imp_right fun ⟨he, hps⟩ => ⟨he, fun pl hpl => hps pl (hs _ hpl)⟩)

theorem bind_leaf (hx : Sound S P Q f ps x) (hy : ∀ a, Leaf S (P ∧ Q a) Q' (y a)) :
    Sound S P Q' f ps (x >>= y) :=
  (hx.bind fun a => (hy a).sound).widen (hx.walks.bind_quiet fun a => (hy a).quiet) fun _ => by simp

theorem leaf_bind {z : Check β} {y : β → Check α} (hz : Leaf S P Q' z)
    (hy : ∀ b, Sound S (P ∧ Q' b) Q f ps (y b)) : Sound S P Q f ps (z >>= y) :=
  (hz.sound.bind hy).widen (.quiet_bind hz.quiet fun b => (hy b).walks) fun _ => by simp

end Sound

theorem sound_path (t : Tag) (n : String) :
    Sound S P S.Fits id (fun sc => [(sc, .expr (.path t n))]) (path t n) where
  walks := walks_path t n
  keeps {c} _ hc he := by
    have hw := walks_path t n
    cases h : c.scopes.lookup n with
    | none =>
      have herr : S.error := he.resolve_right fun he => by
        rw [path_of_lookup_none h] at he
        exact errors_report_ne _ _ c he.1
      rw [path_of_lookup_none h]
      exact ⟨⟨hc.made, hc.typed, hc.types⟩, herr⟩
    | some r =>
      have hc' : (refer t.id r c).2.Fit S := ⟨hc.made, hc.typed, hc.types⟩
      have hr := fits_referentType t hc' (hc.made.lookup h)
        (he.imp_right fun he hv => hc.typed.lookup h hv (he.2 _ (.head _) r h))
        (by rw [path_of_lookup h] at he; exact he.imp_right And.left)
      refine ⟨hc.grow (hw.scopes c) (hw.grows c) ?_, ?_⟩
      · rw [path_of_lookup h]
        exact hr.1
      · rw [path_of_lookup h]
        exact hr.2

theorem fit_instantiate
    (hc : c.Fit S) (he : S.error ∨ (instantiate i t n sp c).2.errors = []) :
    (instantiate i t n sp c).2.Fit S := by
  unfold instantiate at he ⊢
  cases hd : t.decl? with
  | none => exact hc
  | some d =>
    rw [hd] at he
    have hc' : (refer i (.decl d) c).2.Fit S := ⟨hc.made, hc.typed, hc.types⟩
    exact ((leaf_rules).constructorArity (P := True) d n sp).fit trivial hc' he

theorem sound_instantiate {γ : Type} {Q : γ → Prop} {y : Check β} {ps : Scopes → List Place}
    (hy : Sound S P Q' id ps y) {ty : TypeExpr} (v : Visit)
    (hfine : ∀ sc, Place.Fine (sc, v))
    (huse : ∀ sc, Place.use? (sc, v) = (sc.resolve ty).type.decl?.map fun d => (i, .decl d))
    {k : Ty → Check γ} (hk : ∀ t, Leaf S (S.Fits t) Q (k t)) (sp : Option Span) (n : Nat) :
    Sound S P Q id (fun sc => (sc, v) :: ps sc)
      (resolveType ty sp >>= fun t => y >>= fun _ => instantiate i t n sp >>= fun _ => k t) where
  walks := walks_instantiate hy.walks v hfine huse (fun t => (hk t).quiet) sp n
  keeps {c} hP hc he := by
    have hr := leaf_resolveType (S := S) (P := P) ty sp
    let t := (resolveType ty sp c).1
    let c₁ := (resolveType ty sp c).2
    have he₃ : S.error ∨ (instantiate i t n sp (y c₁).2).2.errors = [] :=
      he.imp_right fun he => (hk t).quiet.errors _ he.1
    have he₂ : S.error ∨ (y c₁).2.errors = [] := he₃.imp_right errors_instantiate
    have he₁ : S.error ∨ c₁.errors = [] := he₂.imp_right fun he => (hy.walks.errors c₁ he).1
    have hc₂ := (hy.keeps hP (hr.fit hP hc he₁) (by
      refine he₂.elim .inl fun h₂ => he.imp_right fun he => ⟨h₂, fun pl hpl => ?_⟩
      rw [hr.quiet.scopes] at hpl
      exact he.2 pl (.tail _ hpl))).1
    have hc₃ := fit_instantiate hc₂ he₃
    have he₄ := he.imp_right And.left
    exact ⟨(hk t).fit (hr.result hP hc he₁) hc₃ he₄, (hk t).result (hr.result hP hc he₁) hc₃ he₄⟩

theorem sound_rules : ExprRules (.types S.decl S.error) (fun _ => True) (fun _ => Leaf S)
    fun _ P Q vs x => Sound S P Q id (fun sc => sc.all vs) x where
  toRules := leaf_rules
  left _ := trivial
  bound _ := trivial
  setType _ := leaf_setType _
  step := Leaf.sound
  seq hx hf := (hx.bind hf).widen ((hx.walks.bind fun a => (hf a).walks).of_eq (fun _ => rfl)
    fun sc =>
    sc.all_append _ _) fun sc => by rw [id, sc.all_append]; exact List.Subset.refl _
  node hv hx := hx.widen ((walks_rules).node (P := False) (Q := Any) hv hx.walks) fun _ =>
    subset_cons_self _ _
  path n _ := sound_path _ n
  construct t ty as hy := sound_instantiate hy (.expr (.construct t ty as)) (fun _ => trivial)
    (fun _ => rfl) (fun _ => .pure fun h => h) t.span as.length

theorem sound_expr (e : Expr) : Sound S P S.Fits id (fun sc => sc.all e.visits) (expr e) :=
  (sound_rules).expr e fun _ _ => trivial

theorem sound_actionEntries (es : List Expr) :
    Sound S P Any id (fun sc => sc.all ((Expr.walks es).map .expr)) (actionEntries es) :=
  (sound_rules).actionEntries es fun _ _ => trivial

theorem sound_condition (t : Tag) (e : Expr) :
    Sound S P Any id (fun sc => sc.all e.visits) (condition t e) :=
  (sound_rules).condition t e fun _ _ => trivial

theorem sound_initialised (h : Head) (ty : TypeExpr) (e : Option Expr) :
    Sound S P Any id (fun sc => sc.all (Expr.visits? e)) (initialised h ty e) :=
  (sound_rules).initialised trivial ty e fun _ _ => trivial

theorem fit_define (hc : c.Fit S) (n : String) (sp : Option Span)
    (hr : r.Made S.decl) (ht : r.Typed S c.types) : (define n sp r c).2.Fit S where
  made := by
    rw [(define_spec n sp r c).1]
    exact hc.made.define n hr
  typed := by
    rw [(define_spec n sp r c).1, types_define]
    exact hc.typed.define n ht
  types := by
    rw [types_define]
    exact hc.types

theorem sound_defineParam (p : Param) :
    Sound S P Any (·.declareParam p) (fun _ => []) (defineParam p) where
  walks := .quiet_bind (quiet_paramType p) fun _ => walks_define p.name p.span (.param p)
  keeps {c} hP hc he := by
    have hp := (leaf_paramType (S := S) (P := P) p).fit hP hc <| he.imp_right fun he =>
      ((define_spec p.name p.span (.param p) _).2.2 he.1).1
    refine ⟨fit_define hp p.name p.span (r := .param p) trivial fun _ _ => ?_, trivial⟩
    change (NodeMap.get? (NodeMap.insert _ p.id _) p.id).isSome
    rw [NodeMap.get?_insert, if_pos rfl]
    rfl

theorem sound_defineParams (qs : List Param) :
    Sound S P Any (·.declareParams qs) (fun _ => []) (defineParams qs) := by
  induction qs generalizing P with
  | nil => exact (Leaf.pure fun _ => trivial).sound
  | cons q qs ih => exact (sound_defineParam q).bind fun _ => ih

theorem typed_value (hd : d.isValue = true) (c : Checker) :
    ((decl d c).2.types.get? d.id).isSome := by
  have hset : ∀ (m : NodeMap Ty) (i : NodeId) (t : Ty), ((m.insert i t).get? i).isSome := by
    intro m i t
    rw [NodeMap.get?_insert, if_pos rfl]
    rfl
  cases d with
  | inst h ty as => exact hset _ _ _
  | var h ty e => cases e <;> exact hset _ _ _
  | const h ty e => exact hset _ _ _
  | _ => cases hd

theorem sound_declared (hd : Sound S P Any id (fun sc => d.places sc) (decl d))
    (hS : S.decl d) :
    Sound S P Any (·.declare d) (fun sc => d.places sc) (decl d >>= fun _ => defineDecl d) where
  walks := (hd.walks.bind fun _ => walks_define d.name d.span (.decl d)).of_eq (fun _ => rfl)
    fun _ => (append_nil _).symm
  keeps {c} hP hc he := by
    have hc' := (hd.keeps hP hc (he.imp_right fun ⟨he, hps⟩ =>
      ⟨((define_spec d.name d.span (.decl d) _).2.2 he).1, hps⟩)).1
    exact ⟨fit_define hc' d.name d.span (r := .decl d) hS fun hv _ => typed_value hv c, trivial⟩

theorem sound_inFrame
    (hx : Sound S P Any f ps x) (hf : ∀ sc : Scopes, (f sc.push).pop = sc) :
    Sound S P Any id (fun sc => ps sc.push) (inFrame x) where
  walks := walks_inFrame hx.walks hf
  keeps {c} hP hc he := by
    have h := (hx.keeps (c := { c with scopes := c.scopes.push }) hP
      ⟨hc.made.push, hc.typed.push, hc.types⟩ he).1
    exact ⟨⟨h.made.pop, h.typed.pop, h.types⟩, trivial⟩

theorem sound_withTypeParams
    (names : List String) (hx : Sound S P Any f ps x)
    (hf : ∀ sc : Scopes, (f (sc.pushTypeParams names)).popTypeParams = sc) :
    Sound S P Any id (fun sc => ps (sc.pushTypeParams names)) (withTypeParams names x) where
  walks := walks_withTypeParams names hx.walks hf
  keeps {c} hP hc he := by
    have h := (hx.keeps (c := { c with scopes := c.scopes.pushTypeParams names }) hP
      ⟨hc.made, hc.typed, hc.types⟩ he).1
    exact ⟨⟨h.made, h.typed, h.types⟩, trivial⟩

theorem made_of_brings (h : Brings (Referent.Made S.decl) vs)
    (hd : .enter d ∈ vs) : S.decl d := h _ hd _ d.self_mem_referents

mutual
theorem sound_stmt : (s : Stmt) → Brings (Referent.Made S.decl) s.visits → ∀ {P : Prop},
    Sound S P Any (s.after ·) (fun sc => s.places sc) (stmt s)
  | .block t b, h, _ => (sound_block b h.tail).widen
      (walks_stmt (.block t b)) fun _ => subset_cons_self _ _
  | .assign t l r, _, _ => (sound_rules.assign t l r (fun _ _ => trivial) fun _ _ => trivial).widen
      (walks_stmt (.assign t l r)) fun _ => subset_cons_self _ _
  | .call t e, _, _ => ((sound_expr e).bind_leaf fun _ => .pure fun _ => trivial).widen
      (walks_stmt (.call t e)) fun _ => subset_cons_self _ _
  | .ifThen t c a none, h, _ => ((sound_condition t c).bind fun _ =>
      sound_stmt a h.tail.append.2).widen
      (walks_stmt (.ifThen t c a none)) fun _ => subset_cons_self _ _
  | .ifThen t c a (some b), h, _ => ((sound_condition t c).bind fun _ =>
      (sound_stmt a h.tail.append.1.append.2).bind fun _ =>
        sound_stmt b h.tail.append.2).widen
      (walks_stmt (.ifThen t c a (some b))) fun _ => by
        rw [Stmt.places, append_assoc]
        exact subset_cons_self _ _
  | .switch t e cs, h, _ => ((sound_expr e).bind fun _ =>
      sound_cases cs h.tail.append.2).widen
      (walks_stmt (.switch t e cs)) fun _ => subset_cons_self _ _
  | .decl t d, h, _ => by
    have hd : Brings (Referent.Made S.decl) d.visits := h.tail
    exact (sound_declared (sound_decl d hd) (made_of_brings hd d.enter_mem_visits)).widen
      (walks_stmt (.decl t d)) fun _ => subset_cons_self _ _
  | .ret t e, _, _ =>
    (sound_rules.expr? e fun _ _ => trivial).widen (walks_stmt (.ret t e)) fun _ =>
      subset_cons_self _ _
  | .exit t, _, _ => (Leaf.pure fun _ => trivial).sound.widen (walks_stmt (.exit t)) fun _ =>
      nil_subset _
  | .empty t, _, _ => (Leaf.pure fun _ => trivial).sound.widen (walks_stmt (.empty t)) fun _ =>
      nil_subset _
theorem sound_block : (b : Block) → Brings (Referent.Made S.decl) b.visits → ∀ {P : Prop},
    Sound S P Any id (fun sc => b.places sc) (block b)
  | .mk i ss, h, _ =>
    (sound_inFrame (sound_stmts ss h.tail) fun sc =>
      (Stmt.afters_inner sc.inner_push_ne ss).2).widen
        (walks_block (.mk i ss)) fun _ => subset_cons_self _ _
theorem sound_stmts : (ss : List Stmt) → Brings (Referent.Made S.decl) (Stmt.allVisits ss) →
    ∀ {P : Prop}, Sound S P Any (Stmt.afters · ss) (fun sc => Stmt.allPlaces sc ss) (stmts ss)
  | [], _, _ => (Leaf.pure fun _ => trivial).sound
  | s :: ss, h, _ => (sound_stmt s h.append.1).bind fun _ =>
      sound_stmts ss h.append.2
theorem sound_cases : (cs : List Case) → Brings (Referent.Made S.decl) (Case.visits cs) →
    ∀ {P : Prop}, Sound S P Any id (fun sc => Case.places sc cs) (cases cs)
  | [], _, _ => (Leaf.pure fun _ => trivial).sound
  | .run _ b :: cs, h, _ => (sound_block b h.append.1).bind
      fun _ => sound_cases cs h.append.2
  | .fallThrough _ :: cs, h, _ => sound_cases cs h
theorem sound_decl : (d : Decl) → Brings (Referent.Made S.decl) d.visits → ∀ {P : Prop},
    Sound S P Any id (fun sc => d.places sc) (decl d)
  | .header h fs, _, _ =>
    (leaf_rules.fieldTypes _ _).sound.widen (walks_decl (.header h fs)) fun _ =>
      nil_subset _
  | .struct h fs, _, _ =>
    (leaf_rules.fieldTypes _ _).sound.widen (walks_decl (.struct h fs)) fun _ =>
      nil_subset _
  | .externType h tps cs ms, _, _ => (leaf_rules.externMethods _ fun _ _ _ => trivial).sound.widen
      (walks_decl (.externType h tps cs ms)) fun _ => nil_subset _
  | .externFn h m, _, _ =>
    ((leaf_methodType m).bind fun _ => leaf_setType h.id And.right).sound.widen
      (walks_decl (.externFn h m)) fun _ => nil_subset _
  | .action h ps (.mk i ss), hb, _ => by
    have hss : Brings (Referent.Made S.decl) (Stmt.allVisits ss) := hb.tail.append.1.tail
    refine Sound.widen (Sound.leaf_bind (leaf_actionType ps) fun _ =>
      Sound.leaf_bind (leaf_setType h.id And.right) fun _ =>
        sound_inFrame ((sound_defineParams ps).bind fun _ => sound_stmts ss hss) fun sc =>
          sc.pop_action ps ss)
      (walks_decl (.action h ps (.mk i ss))) fun sc => ?_
    exact fun pl hpl => .tail _ (.tail _ (mem_append_left _ hpl))
  | .table h ks as d, hb, _ => by
    have hmade : S.decl (.table h ks as d) := hb (.enter (.table h ks as d)) (.head _) _ (.head _)
    refine Sound.widen ((sound_rules.keys ks fun _ _ => trivial).bind fun _ =>
      (sound_actionEntries as).bind fun _ =>
        (sound_actionEntries d.toList).bind_leaf fun _ => leaf_setType h.id fun _ => hmade)
      (walks_decl (.table h ks as d)) fun sc => ?_
    simp only [id, ← Expr.visits?_eq, ← Scopes.all_append, ← append_assoc]
    exact fun pl hpl => .tail _ (mem_append_left _ hpl)
  | .control h tps ps cps ls b, hb, _ => by
    have hls : Brings (Referent.Made S.decl) (Decl.allVisits ls) := hb.tail.append.1.append.1
    have hbody : Brings (Referent.Made S.decl) b.visits := hb.tail.append.1.append.2
    refine Sound.widen (sound_withTypeParams tps (sound_inFrame ((sound_defineParams cps).bind
      fun _ => (sound_defineParams ps).bind fun _ => (sound_locals ls hls).bind fun _ =>
        sound_block b hbody)
        fun sc => sc.pop_control ps cps ls) fun _ => rfl)
      (walks_decl (.control h tps ps cps ls b)) fun sc => ?_
    exact fun pl hpl => .tail _ (mem_append_left _ hpl)
  | .package h tps ps, _, _ => (leaf_withTypeParams tps ((leaf_paramTypes ps).bind fun _ =>
      .pure fun _ => trivial)).sound.widen (walks_decl (.package h tps ps)) fun _ =>
        nil_subset _
  | .inst h ty as, _, _ => (sound_instantiate (sound_rules.exprs as fun _ _ => trivial)
      (.enter (.inst h ty as)) (fun _ => trivial) (fun _ => rfl) (fun _ => leaf_setType h.id
        fun h => h) h.span as.length).widen (walks_decl (.inst h ty as)) fun _ pl hpl => by
          rcases mem_cons.1 hpl with rfl | hpl
          · exact .head _
          · exact .tail _ (mem_append_left _ hpl)
  | .var h ty e, _, _ => (sound_initialised h ty e).widen (walks_decl (.var h ty e)) fun _ pl hpl =>
      .tail _ (mem_append_left _ hpl)
  | .const h ty e, _, _ => (sound_initialised h ty (some e)).widen (walks_decl (.const h ty e))
      fun _ pl hpl => .tail _ (mem_append_left _ hpl)
theorem sound_locals : (ds : List Decl) → Brings (Referent.Made S.decl) (Decl.allVisits ds) →
    ∀ {P : Prop}, Sound S P Any (·.declares ds) (fun sc => Decl.allPlaces sc ds) (locals ds)
  | [], _, _ => (Leaf.pure fun _ => trivial).sound
  | d :: ds, h, _ => by
    have hd : Brings (Referent.Made S.decl) d.visits := h.append.1
    exact (sound_declared (sound_decl d hd) (made_of_brings hd d.enter_mem_visits)).bind fun _ =>
      sound_locals ds h.append.2
end

theorem fit_defineAll (hS : ∀ d ∈ ds, S.decl d ∧ (d.isValue = true → S.late d.id))
    (hc : c.Fit S) : (defineAll ds c).2.Fit S := by
  induction ds generalizing c with
  | nil => exact hc
  | cons d ds ih =>
    obtain ⟨hd, hlate⟩ := hS d (.head _)
    refine ih (fun d hd => hS d (.tail _ hd)) ?_
    exact fit_define hc d.name d.span (r := .decl d) hd fun hv hl => absurd (hlate hv) hl

end Check

def Late (ds : List Decl) (i : NodeId) : Prop := ∃ d ∈ ds, d.isValue = true ∧ d.id = i

def OnTime (sc : Scopes) : List Decl → Prop
  | [] => True
  | d :: ds => (∀ pl ∈ d.places sc, pl.Timely (Late (d :: ds))) ∧ OnTime sc ds

variable {E : Prop}

namespace Check

theorem fit_caughtUp
    (h : (decl d c).2.Fit ⟨D, E, Late (d :: ds)⟩) : (decl d c).2.Fit ⟨D, E, Late ds⟩ where
  made := h.made
  typed f hf x hx hv hl := by
    by_cases hd : d.isValue = true ∧ d.id = x.2.id
    · rw [← hd.2]
      exact typed_value hd.1 c
    · refine h.typed f hf x hx hv ?_
      rintro ⟨e, he, hev, hid⟩
      rcases mem_cons.1 he with rfl | he
      · exact hd ⟨hev, hid⟩
      · exact hl ⟨e, he, hev, hid⟩
  types := h.types

theorem fit_decls
    (hb : Brings (Referent.Made D) (Decl.allVisits ds)) (hc : c.Fit ⟨D, E, Late ds⟩)
    (he : E ∨ (decls ds c).2.errors = [] ∧ OnTime c.scopes ds) :
    (decls ds c).2.Fit ⟨D, E, Late []⟩ := by
  induction ds generalizing c with
  | nil => exact hc
  | cons d ds ih =>
    have hd : Brings (Referent.Made D) d.visits := hb.mono (subset_append_left _ _)
    have hfit := ((sound_decl (S := ⟨D, E, Late (d :: ds)⟩) d hd (P := True)).keeps trivial hc <|
      he.imp_right fun ⟨he, ht⟩ => ⟨((walks_decls ds).errors _ he).1, ht.1⟩).1
    refine ih hb.append.2 (fit_caughtUp hfit) ?_
    refine he.imp_right fun ⟨he, ht⟩ => ⟨he, ?_⟩
    rw [(walks_decl d).scopes]
    exact ht.2

end Check

/-- Every type that is written down is built from declarations of the program; and without the error
type, if no error is reported and values are used after their declaration. -/
theorem Program.made_types (p : Program)
    (h : E ∨ p.check.errors = [] ∧ OnTime p.top p.decls)
    (hT : p.check.types.get? i = some T) : T.Made (· ∈ p.allDecls) E := by
  let S : Regime := ⟨(· ∈ p.allDecls), E, Late p.decls⟩
  have hdecls : ∀ d ∈ p.decls, S.decl d ∧ (d.isValue = true → S.late d.id) := fun d hd =>
    ⟨mem_allDecls.2 (visits_subset_of_mem hd d.enter_mem_visits), fun hv => ⟨d, hd, hv, rfl⟩⟩
  have hnil : (⟨.empty, .empty, .empty, []⟩ : Checker).Fit S := by
    refine ⟨fun f hf => ?_, fun f hf => ?_, fun _ h => absurd h not_mem_nil⟩ <;>
    · rw [mem_singleton.1 hf]
      exact fun _ h => absurd h not_mem_nil
  have hbrings : Brings (Referent.Made (· ∈ p.allDecls)) p.visits :=
    brings_made fun d hd => mem_allDecls.2 hd
  have htop : (Check.defineAll p.decls ⟨.empty, .empty, .empty, []⟩).2.scopes = p.top :=
    (Check.walks_defineAll p.decls).scopes _
  exact (Check.fit_decls hbrings (Check.fit_defineAll hdecls hnil) (htop ▸ h)).typeOf hT

end MatchAction
