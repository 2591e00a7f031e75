import MatchAction.Proofs.Resolution

namespace MatchAction

open List hiding modify

def Scopes.All (R : Referent → Prop) (sc : Scopes) : Prop :=
  ∀ f ∈ sc.top :: sc.inner, ∀ x ∈ f, R x.2

abbrev Scopes.Made (D : Decl → Prop) : Scopes → Prop := Scopes.All (Referent.Made D)

variable {r : Referent}

section

variable {D : Decl → Prop} {E : Prop}

namespace Scopes

variable {sc : Scopes} {R : Referent → Prop}

theorem All.push (h : sc.All R) : sc.push.All R := by
  intro f hf
  rcases mem_cons.1 hf with rfl | hf
  · exact h _ (.head _)
  rcases mem_cons.1 hf with rfl | hf
  · exact fun x hx => absurd hx not_mem_nil
  · exact h f (.tail _ hf)

theorem All.pop (h : sc.All R) : sc.pop.All R := by
  intro f hf
  rcases mem_cons.1 hf with rfl | hf
  · exact h _ (.head _)
  · exact h f (.tail _ (mem_of_mem_tail hf))

theorem All.define (h : sc.All R) (n : String) (hr : R r) :
    (sc.define n r).2.All R := by
  obtain ⟨inner, top, tps⟩ := sc
  unfold Scopes.define
  split
  · exact h
  · cases inner with
    | nil =>
      refine forall_mem_singleton.2 (forall_mem_cons.2 ⟨hr, ?_⟩)
      exact h top (.head _)
    | cons f fs =>
      refine forall_mem_cons.2 ⟨h top (.head _), forall_mem_cons.2 ⟨?_, ?_⟩⟩
      · exact forall_mem_cons.2 ⟨hr, h f (.tail _ (.head _))⟩
      · exact fun g hg => h g (.tail _ (.tail _ hg))

theorem All.lookup (h : sc.All R) (hl : sc.lookup n = some r) :
    R r := by
  unfold Scopes.lookup at hl
  rcases Option.or_eq_some_iff.1 hl with hl | ⟨-, hl⟩
  · obtain ⟨f, hf, hl⟩ := exists_of_findSome?_eq_some hl
    exact h f (.tail _ hf) _ (mem_of_lookup hl)
  · exact h _ (.head _) _ (mem_of_lookup hl)

theorem Made.resolveName (h : sc.Made D) (n : String) (hargs : Ty.AllMade D E args)
    (hn : E ∨ (sc.resolveName n args).unknown = []) : (sc.resolveName n args).type.Made D E := by
  revert hn
  unfold Scopes.resolveName
  split
  · exact fun _ => trivial
  · split
    · rename_i d hl
      split
      · exact fun _ => ⟨h.lookup hl, hargs⟩
      · exact fun hn => hn.resolve_right (cons_ne_nil _ _)
    · exact fun hn => hn.resolve_right (cons_ne_nil _ _)

mutual
theorem Made.resolve (h : sc.Made D) : (t : TypeExpr) → E ∨ (sc.resolve t).unknown = [] →
    (sc.resolve t).type.Made D E
  | .bool, _ | .bits .., _ | .int, _ | .void, _ => trivial
  | .named n, hn => h.resolveName n trivial hn
  | .specialized n args, hn => by
    have hargs := hn.imp_right fun hn => (append_eq_nil_iff.1 hn).1
    exact h.resolveName n (Made.resolves h args hargs)
      (hn.imp_right fun hn => (append_eq_nil_iff.1 hn).2)
  | .stack e _, hn => Made.resolve h e hn
theorem Made.resolves (h : sc.Made D) : (ts : List TypeExpr) → E ∨ (sc.resolves ts).2.2 = [] →
    Ty.AllMade D E (sc.resolves ts).1
  | [], _ => trivial
  | t :: ts, hn => ⟨Made.resolve h t (hn.imp_right fun hn => (append_eq_nil_iff.1 hn).1),
      Made.resolves h ts (hn.imp_right fun hn => (append_eq_nil_iff.1 hn).2)⟩
end

end Scopes

end

section

variable (N : NodeId → Prop)

def Decl.Clear (d : Decl) : Prop := ∀ q ∈ d.params, ¬ N q.id

abbrev Referent.Clear : Referent → Prop := Referent.Made (Decl.Clear N)

abbrev Ty.Clear : Ty → Prop := Ty.Made (Decl.Clear N) True

abbrev Ty.AllClear : List Ty → Prop := Ty.AllMade (Decl.Clear N) True

abbrev Signature.Clear : Signature → Prop := Signature.Made (Decl.Clear N) True

abbrev ParamTy.AllClear : List ParamTy → Prop := ParamTy.AllMade (Decl.Clear N) True

abbrev Bindings.Clear : Bindings → Prop := Bindings.Made (Decl.Clear N) True

abbrev Scopes.Clear : Scopes → Prop := Scopes.Made (Decl.Clear N)

end

def Decl.isValue : Decl → Bool
  | .inst .. | .var .. | .const .. => true
  | _ => false

def Referent.isValue : Referent → Bool
  | .decl d => d.isValue
  | .param _ => true

structure Nodes where
  once : NodeId → Prop
  written : NodeId → Prop

instance : CoeFun Nodes fun _ => NodeId → Prop := ⟨Nodes.once⟩

instance : CoeOut Nodes (NodeId → Prop) := ⟨Nodes.once⟩

structure Checker.Clear (N : Nodes) (c : Checker) : Prop where
  scopes : c.scopes.Clear N
  types : ∀ e ∈ c.types.types.entries, e.2.Clear N
  written : ∀ e ∈ c.types.types.entries, N.written e.1 → e.2.signature? = none

variable {c : Checker} {i : NodeId}

theorem Checker.Clear.typeOf (h : c.Clear N)
    (ht : c.types.get? i = some t) : t.Clear N :=
  h.types (i, t) (NodeMap.mem_of_get? ht)

theorem Checker.Clear.withScopes (h : c.Clear N)
    (hsc : sc.Clear N) : ({ c with scopes := sc } : Checker).Clear N :=
  ⟨hsc, h.types, h.written⟩

theorem Checker.Clear.pushTypeParams (h : c.Clear N) (tps : List String) :
    ({ c with scopes := c.scopes.pushTypeParams tps } : Checker).Clear N :=
      ⟨h.scopes, h.types, h.written⟩

namespace Scopes

variable {sc : Scopes}

theorem signature?_resolveName (n : String) (args : List Ty) :
    (sc.resolveName n args).type.signature? = none := by
  unfold Scopes.resolveName
  split
  · rfl
  · split
    · split <;> rfl
    · rfl

theorem signature?_resolve (t : TypeExpr) : (sc.resolve t).type.signature? = none := by
  cases t with
  | named n => exact signature?_resolveName n []
  | specialized n args => exact signature?_resolveName n _
  | _ => rfl

end Scopes

namespace Check

variable {α β : Type} {N : Nodes} {L : NodeId → Prop} {post : α → Prop} {post' : β → Prop}

/-- A step that types nodes of `L` only, as far as those of `N` are concerned, and binds type
parameters for nodes of `L` only. -/
structure Sets (N : Nodes) (L : NodeId → Prop) (post : α → Prop) (x : Check α) : Prop where
  clear : ∀ {c}, c.Clear N → (x c).2.Clear N
  result : ∀ {c}, c.Clear N → post (x c).1
  frame : ∀ {c}, c.Clear N → ∀ {i}, N i → ¬ L i → (x c).2.types.get? i = c.types.get? i
  bound : ∀ {c}, c.Clear N → ∀ {i}, ¬ L i →
    (x c).2.types.bindings.get? i = c.types.bindings.get? i

namespace Sets

theorem pure (h : post a) : Sets N L post (Pure.pure a) :=
  ⟨fun hc => hc, fun _ => h, fun _ _ _ _ => rfl, fun _ _ _ => rfl⟩

theorem bind (hx : Sets N L post x)
    (hf : ∀ a, post a → Sets N L post' (f a)) : Sets N L post' (x >>= f) where
  clear hc := (hf _ (hx.result hc)).clear (hx.clear hc)
  result hc := (hf _ (hx.result hc)).result (hx.clear hc)
  frame hc _ hN hL :=
    ((hf _ (hx.result hc)).frame (hx.clear hc) hN hL).trans (hx.frame hc hN hL)
  bound hc _ hL := ((hf _ (hx.result hc)).bound (hx.clear hc) hL).trans (hx.bound hc hL)

theorem mono (hx : Sets N L post x) (hL : ∀ i, L i → L' i) :
    Sets N L' post x :=
  ⟨hx.clear, hx.result, fun hc _ hN hi => hx.frame hc hN fun h => hi (hL _ h),
    fun hc _ hi => hx.bound hc fun h => hi (hL _ h)⟩

theorem ite {p : Prop} [Decidable p] (hx : Sets N L post x)
    (hy : Sets N L post y) : Sets N L post (if p then x else y) := by
  split
  · exact hx
  · exact hy

theorem of_apply (h : ∀ {c}, c.Clear N → ∃ y, Sets N L post y ∧ x c = y c) : Sets N L post x where
  clear hc := by
    obtain ⟨y, hy, he⟩ := h hc
    exact he ▸ hy.clear hc
  result hc := by
    obtain ⟨y, hy, he⟩ := h hc
    exact he ▸ hy.result hc
  frame hc _ hN hL := by
    obtain ⟨y, hy, he⟩ := h hc
    exact he ▸ hy.frame hc hN hL
  bound hc _ hL := by
    obtain ⟨y, hy, he⟩ := h hc
    exact he ▸ hy.bound hc hL

theorem quiet (hs : ∀ c, (x c).2.scopes = c.scopes)
    (ht : ∀ c, (x c).2.types.types = c.types.types)
    (hb : ∀ c, (x c).2.types.bindings = c.types.bindings)
    (hr : ∀ {c}, c.Clear N → post (x c).1) : Sets N L post x where
  clear {c} hc := ⟨by rw [hs c]; exact hc.scopes, by rw [ht c]; exact hc.types,
    by rw [ht c]; exact hc.written⟩
  result hc := hr hc
  frame {c} _ i _ _ := congrArg (NodeMap.get? · i) (ht c)
  bound {c} _ i _ := congrArg (NodeMap.get? · i) (hb c)

end Sets

theorem sets_report (f : TypeFault) (sp : Option Span) : Sets N L Any (report f sp) :=
  .quiet (fun _ => rfl) (fun _ => rfl) (fun _ => rfl) fun _ => trivial

theorem sets_setType (hi : N i → L i) (ht : t.Clear N)
    (hw : N.written i → t.signature? = none) : Sets N L Any (setType i t) where
  clear hc := ⟨hc.scopes, forall_mem_cons.2 ⟨ht, hc.types⟩,
    forall_mem_cons.2 ⟨hw, hc.written⟩⟩
  result _ := trivial
  frame {c} _ j hN hL := by
    refine (NodeMap.get?_insert c.types.types i j t).trans (if_neg ?_)
    rintro rfl
    exact hL (hi hN)
  bound _ _ _ := rfl

theorem sets_setLeftValue (i : NodeId) : Sets N L Any (setLeftValue i) :=
  .quiet (fun _ => rfl) (fun _ => rfl) (fun _ => rfl) fun _ => trivial

theorem sets_isLeftValue (i : NodeId) : Sets N L Any (isLeftValue i) :=
  .quiet (fun _ => rfl) (fun _ => rfl) (fun _ => rfl) fun _ => trivial

theorem sets_typeOf? (i : NodeId) :
    Sets N L (fun t : Option Ty => ∀ u, t = some u → u.Clear N) (typeOf? i) :=
  .quiet (fun _ => rfl) (fun _ => rfl) (fun _ => rfl) fun hc _ hu => hc.typeOf hu

def Written (N : Nodes) (t : Ty) : Prop := t.Clear N ∧ t.signature? = none

theorem sets_resolveWritten (t : TypeExpr) (sp : Option Span) :
    Sets N L (Written N) (resolveType t sp) :=
  .quiet (fun _ => rfl) (fun _ => rfl) (fun _ => rfl) fun hc =>
    ⟨hc.scopes.resolve t (.inl trivial), Scopes.signature?_resolve t⟩

theorem sets_resolveType (t : TypeExpr) (sp : Option Span) :
    Sets N L (Ty.Clear N) (resolveType t sp) :=
  have h := sets_resolveWritten (N := N) (L := L) t sp
  ⟨h.clear, fun hc => (h.result hc).1, h.frame, h.bound⟩

theorem sets_paramType (hp : ¬ N p.id) :
    Sets N L (Ty.Clear N) (paramType p) :=
  (sets_resolveWritten _ _).bind fun _ ht =>
    (sets_setType (fun h => absurd h hp) ht.1 fun _ => ht.2).bind fun _ _ => .pure ht.1

theorem sets_withTypeParams (names : List String) (hx : Sets N L post x) :
    Sets N L post (withTypeParams names x) where
  clear {c} hc := by
    have h := hx.clear (hc.pushTypeParams names)
    exact h.withScopes h.scopes
  result {c} hc := hx.result (hc.pushTypeParams names)
  frame {c} hc _ hN hL :=
    hx.frame (hc.pushTypeParams names) hN hL
  bound {c} hc _ hL := hx.bound (hc.pushTypeParams names) hL

theorem sets_refer (i : NodeId) (r : Referent) : Sets N L Any (refer i r) :=
  .quiet (fun _ => rfl) (fun _ => rfl) (fun _ => rfl) fun _ => trivial

theorem sets_setBindings (hi : L i) (b : Bindings) :
    Sets N L Any (modify fun c => { c with types := c.types.setBindings i b }) where
  clear hc := ⟨hc.scopes, hc.types, hc.written⟩
  result _ := trivial
  frame _ _ _ _ := rfl
  bound {c} _ j hL := by
    refine (NodeMap.get?_insert c.types.bindings i j b).trans (if_neg ?_)
    rintro rfl
    exact hL hi

abbrev Allowed.clear (N : Nodes) (L : NodeId → Prop) : Allowed where
  decl := Decl.Clear N
  error := True
  param q := ¬ N q.id
  method m := ∀ q ∈ m.params, ¬ N q.id
  left _ := True
  bound := L
  action hd hq := hd _ hq
  control hd hq := hd _ (mem_append_right _ hq)
  externFn hd _ hq := hd _ hq
  externType hd hm _ hq := hd _ (mem_flatMap.2 ⟨_, mem_append_right _ hm, hq⟩)

theorem sets_typeRules : TypeRules (.clear N L) fun _ P Q x => P → Sets N L Q x where
  pure h hP := .pure (h hP)
  bind hx hf hP := (hx hP).bind fun a ha => hf a ⟨hP, ha⟩
  resolveType t sp _ := sets_resolveType t sp
  paramType hq hP := sets_paramType (hq hP)

theorem sets_rules : Rules (.clear N L) fun _ P Q x => P → Sets N L Q x where
  toTypeRules := sets_typeRules
  methodType := (sets_typeRules).methodType fun names hx hP => sets_withTypeParams names (hx hP)
  externMethodType tps _ :=
    (sets_typeRules).externMethodType (fun names hx hP => sets_withTypeParams names (hx hP)) tps
  report f sp _ _ := sets_report f sp
  fail f sp _ _ := (sets_report f sp).bind fun _ _ => .pure trivial
  typeOf? i _ := sets_typeOf? i
  isLeftValue i _ := sets_isLeftValue i
  setLeftValue _ _ := sets_setLeftValue _
  setBindings b hi _ := sets_setBindings hi b

variable {ps : List Param}

theorem sets_paramTypes (hps : ∀ p ∈ ps, ¬ N p.id) :
    Sets N L (ParamTy.AllClear N) (paramTypes ps) := (sets_rules).paramTypes (fun _ => hps) trivial

theorem sets_methodType (hm : ∀ q ∈ m.params, ¬ N q.id) :
    Sets N L (Signature.Clear N) (methodType m) := (sets_rules).methodType (fun _ => hm) trivial

theorem sets_actionType (hps : ∀ p ∈ ps, ¬ N p.id) :
    Sets N L (Signature.Clear N) (actionType ps) := (sets_rules).actionType (fun _ => hps) trivial

theorem sets_instantiate (i : NodeId) (t : Ty) (n : Nat) (sp : Option Span) :
    Sets N L Any (instantiate i t n sp) := by
  unfold instantiate
  split
  · exact (sets_refer _ _).bind fun _ _ => (sets_rules).constructorArity _ _ _ trivial
  · exact .pure trivial

theorem sets_expect (t u : Ty) (sp : Option Span) : Sets N L Any (expect t u sp) :=
  (sets_rules).expect t u sp trivial

theorem sets_referentType (t : Tag) (hr : r.Clear N) :
    Sets N L (Ty.Clear N) (referentType t r) :=
  (sets_rules).referentType trivial trivial (fun _ => hr) trivial

theorem sets_path (t : Tag) (n : String) : Sets N L (Ty.Clear N) (path t n) := by
  refine .of_apply fun {c} hc => ?_
  cases h : c.scopes.lookup n with
  | none =>
    exact ⟨_, (sets_report _ _).bind fun _ _ => .pure (a := Ty.error) trivial,
      path_of_lookup_none h t⟩
  | some r =>
    exact ⟨_, (sets_refer _ _).bind fun _ _ => sets_referentType t (hc.scopes.lookup h),
      path_of_lookup h t⟩

variable {ty : Ty}

theorem sets_member (t : Tag) (b : NodeId) (hty : ty.Clear N) (n : String)
    (arity : Option Nat) : Sets N L (Ty.Clear N) (member t b ty n arity) :=
  (sets_rules).member trivial b (fun _ => hty) n arity trivial

theorem sets_index (t : Tag) (b : NodeId) (hty : ty.Clear N) :
    Sets N L (Ty.Clear N) (index t b ty) := (sets_rules).index trivial b (fun _ => hty) trivial

theorem sets_receiverBindings (e : Expr) : Sets N L (Bindings.Clear N) (receiverBindings e) :=
  (sets_rules).receiverBindings e trivial

theorem sets_bindWritten (sp : Option Span) (ns : List String) (ts : List TypeExpr)
    (hb : b.Clear N) : Sets N L (Bindings.Clear N) (bindWritten sp ns ts b) :=
  (sets_rules).bindWritten sp ns ts (fun _ => hb) trivial

theorem sets_arguments (sp : Option Span) (b : Bindings) (ps : List ParamTy) (as : List Expr)
    (ts : List Ty) : Sets N L Any (arguments sp b ps as ts) :=
  (sets_rules).arguments sp b ps as ts trivial

theorem sets_call {t : Tag} (ht : L t.id) (e : Expr) (hty : ty.Clear N)
    (ts : List TypeExpr) (as : List Expr) {tys : List Ty} (htys : Ty.AllClear N tys) :
    Sets N L (Ty.Clear N) (call t e ty ts as tys) :=
  (sets_rules).call ht e (fun _ => hty) ts as (fun _ => htys) trivial

theorem sets_define (n : String) (sp : Option Span) (hr : r.Clear N) :
    Sets N L Any (define n sp r) where
  clear {c} hc := by
    refine ⟨?_, ?_, ?_⟩
    · rw [(define_spec n sp r c).1]
      exact hc.scopes.define n hr
    · rw [types_define]
      exact hc.types
    · rw [types_define]
      exact hc.written
  result _ := trivial
  frame {c} _ _ _ _ := by rw [types_define]
  bound {c} _ _ _ := by rw [types_define]

theorem sets_inFrame (hx : Sets N L Any x) : Sets N L Any (inFrame x) where
  clear {c} hc := by
    have h := hx.clear (hc.withScopes hc.scopes.push)
    exact h.withScopes h.scopes.pop
  result _ := trivial
  frame {c} hc _ hN hL := hx.frame (hc.withScopes hc.scopes.push) hN hL
  bound {c} hc _ hL := hx.bound (hc.withScopes hc.scopes.push) hL

theorem sets_defineParams (hps : ∀ p ∈ ps, ¬ N p.id) :
    Sets N L Any (defineParams ps) := by
  induction ps with
  | nil => exact .pure trivial
  | cons p ps ih =>
    have hp : Sets N L Any (defineParam p) := (sets_paramType (hps p (.head _))).bind fun _ _ =>
      sets_define _ _ trivial
    exact hp.bind fun _ _ => ih fun q hq => hps q (.tail _ hq)

theorem sets_fieldTypes (sp : Option Span) (fs : List Field) :
    Sets N L Any (fieldTypes sp fs) := (sets_rules).fieldTypes sp fs trivial

theorem sets_externMethods (tps : List String)
    (hms : ∀ m ∈ ms, ∀ q ∈ m.params, ¬ N q.id) : Sets N L Any (externMethods tps ms) :=
  (sets_rules).externMethods tps (fun _ => hms) trivial

theorem sets_defineDecl (hd : d.Clear N) : Sets N L Any (defineDecl d) :=
  sets_define _ _ hd

theorem sets_defineAll (h : ∀ d ∈ ds, d.Clear N) :
    Sets N L Any (defineAll ds) := by
  induction ds with
  | nil => exact .pure trivial
  | cons d ds ih =>
    exact (sets_defineDecl (h d (.head _))).bind fun _ _ => ih fun d hd => h d (.tail _ hd)

end Check

theorem brings_made (h : ∀ d, .enter d ∈ vs → D d) :
    Brings (Referent.Made D) vs := by
  intro v hv r hr
  cases v with
  | enter d =>
    cases r with
    | param q => trivial
    | decl d' =>
      have he : d' = d := by cases d <;> simpa [Visit.referents, Decl.referents] using hr
      exact he ▸ h d hv
  | _ => cases hr

namespace Program

variable {p : Program}

theorem brings_clear (hids : p.NodesApart) :
    Brings (Referent.Clear (· ∈ nodeIds p.visits)) p.visits :=
  brings_made fun d hd => hids.params d (mem_allDecls.2 hd)

end Program

end MatchAction
