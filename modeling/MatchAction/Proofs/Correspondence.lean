import MatchAction.Proofs.ErrorFree

/-!
Checks that correspond. What a check finds out depends on declarations through their identities and
signatures only, and on names through what they stand for. So a program whose declarations are other
versions of those of another one, with the same identities and signatures, is checked alike if its
names stand for the other versions: the tables are the same up to the versions, and nothing is
reported if nothing was.
-/

namespace MatchAction

open List hiding modify

inductive Decl.Alike : Decl → Decl → Prop
  | header {h h' : Head} (hid : h'.id = h.id) (fs : List Field) :
    Alike (.header h fs) (.header h' fs)
  | struct {h h' : Head} (hid : h'.id = h.id) (fs : List Field) :
    Alike (.struct h fs) (.struct h' fs)
  | externType {h h' : Head} (hid : h'.id = h.id) (tps : List String) (cs ms : List Method) :
    Alike (.externType h tps cs ms) (.externType h' tps cs ms)
  | externFn {h h' : Head} (hid : h'.id = h.id) (m : Method) :
    Alike (.externFn h m) (.externFn h' m)
  | action {h h' : Head} (hid : h'.id = h.id) (ps : List Param) (b b' : Block) :
    Alike (.action h ps b) (.action h' ps b')
  | table {h h' : Head} (hid : h'.id = h.id) (ks ks' : List Key) (as as' : List Expr)
    (d d' : Option Expr) : Alike (.table h ks as d) (.table h' ks' as' d')
  | control {h h' : Head} (hid : h'.id = h.id) (tps : List String) (ps cps : List Param)
    (ls ls' : List Decl) (b b' : Block) :
    Alike (.control h tps ps cps ls b) (.control h' tps ps cps ls' b')
  | package {h h' : Head} (hid : h'.id = h.id) (tps : List String) (ps : List Param) :
    Alike (.package h tps ps) (.package h' tps ps)
  | inst {h h' : Head} (hid : h'.id = h.id) (t t' : TypeExpr) (as as' : List Expr) :
    Alike (.inst h t as) (.inst h' t' as')
  | var {h h' : Head} (hid : h'.id = h.id) (t t' : TypeExpr) (e e' : Option Expr) :
    Alike (.var h t e) (.var h' t' e')
  | const {h h' : Head} (hid : h'.id = h.id) (t t' : TypeExpr) (e e' : Expr) :
    Alike (.const h t e) (.const h' t' e')

namespace Decl.Alike

variable {d d' : Decl}

theorem refl (d : Decl) : d.Alike d := by
  cases d <;> constructor <;> rfl

theorem id (h : d.Alike d') : d'.id = d.id := by
  cases h <;> assumption

theorem isType (h : d.Alike d') : d'.isType = d.isType := by
  cases h <;> rfl

theorem constructorArities (h : d.Alike d') :
    Check.constructorArities d' = Check.constructorArities d := by
  cases h <;> first | rfl | (rename_i cs _; cases cs <;> rfl)

end Decl.Alike

/-- Other versions of declarations, and other names for paths. What is not kept has no other version
that a name stands for. -/
structure Versions where
  decl : Decl → Decl
  alike : ∀ d : Decl, d.Alike (decl d)
  path : NodeId → String → String
  kept : NodeId → Prop := fun _ => True

section

variable (φ : Decl → Decl)

mutual
def Ty.over : Ty → Ty
  | .decl d as => .decl (φ d) (Ty.overs as)
  | .stack e n => .stack e.over n
  | .method s => .method s.over
  | .table d => .table (φ d)
  | .applyResult d => .applyResult (φ d)
  | .actionEnum d => .actionEnum (φ d)
  | t => t
def Ty.overs : List Ty → List Ty
  | [] => []
  | t :: ts => t.over :: Ty.overs ts
def Signature.over : Signature → Signature
  | .mk tps ps r => .mk tps (ParamTy.overs ps) r.over
def ParamTy.over : ParamTy → ParamTy
  | .mk n d t => .mk n d t.over
def ParamTy.overs : List ParamTy → List ParamTy
  | [] => []
  | p :: ps => p.over :: ParamTy.overs ps
end

def Bindings.over (b : Bindings) : Bindings := List.map (fun x => (x.1, x.2.over φ)) b

def Referent.over : Referent → Referent
  | .decl d => .decl (φ d)
  | .param p => .param p

def NodeMap.over {α : Type} (f : α → α) (m : NodeMap α) : NodeMap α :=
  ⟨m.entries.map fun e => (e.1, f e.2)⟩

def Refs.over (r : Refs) : Refs := ⟨r.targets.over (Referent.over φ), r.used⟩

def Types.over (t : Types) : Types :=
  ⟨t.types.over (Ty.over φ), t.leftValues, t.bindings.over (Bindings.over φ)⟩

def Checker.over (sc : Scopes) (c : Checker) : Checker :=
  ⟨sc, c.refs.over φ, c.types.over φ, c.errors⟩

end

theorem lookup_map_snd {κ α β : Type} [BEq κ] (f : α → β) (l : List (κ × α)) (k : κ) :
    (l.map fun x => (x.1, f x.2)).lookup k = (l.lookup k).map f := by
  induction l with
  | nil => rfl
  | cons x l ih =>
    obtain ⟨k', a⟩ := x
    simp only [map_cons, lookup_cons]
    cases k == k' with
    | true => rfl
    | false => exact ih

theorem NodeMap.get?_over {α : Type} (f : α → α) (m : NodeMap α) (i : NodeId) :
    (m.over f).get? i = (m.get? i).map f := lookup_map_snd f m.entries i

theorem Refs.get?_over (φ : Decl → Decl) (r : Refs) (i : NodeId) :
    (r.over φ).get? i = (r.get? i).map (Referent.over φ) := NodeMap.get?_over _ r.targets i

theorem Types.get?_over (φ : Decl → Decl) (t : Types) (i : NodeId) :
    (t.over φ).get? i = (t.get? i).map (Ty.over φ) := NodeMap.get?_over _ t.types i

section

variable {φ : Decl → Decl}

theorem Bindings.get?_over (b : Bindings) (n : String) :
    (b.over φ).get? n = (b.get? n).map (Ty.over φ) :=
  lookup_map_snd (Ty.over φ) b n

@[simp] theorem Bindings.binds_over (b : Bindings) (n : String) :
    (b.over φ).binds n = b.binds n := by
  rw [Bindings.binds, Bindings.binds, Bindings.get?_over, Option.isSome_map]

theorem Bindings.over_insert (b : Bindings) (n : String) (t : Ty) :
    (b.insert n t).over φ = (b.over φ).insert n (t.over φ) := by
  simp [Bindings.over, Bindings.insert, filter_map, Function.comp_def]

theorem Bindings.over_foldl_insert (ns : List String) (ts : List Ty) (b : Bindings) :
    ((ns.zip ts).foldl (fun b (n, t) => b.insert n t) b).over φ =
      (ns.zip (Ty.overs φ ts)).foldl (fun b (n, t) => b.insert n t) (b.over φ) := by
  induction ns generalizing ts b with
  | nil => rfl
  | cons n ns ih =>
    cases ts with
    | nil => rfl
    | cons t ts =>
      simp only [zip_cons_cons, foldl_cons, Ty.overs]
      rw [ih, Bindings.over_insert]

@[simp] theorem Ty.isError_over (t : Ty) : (t.over φ).isError = t.isError := by
  cases t <;> rfl

@[simp] theorem Ty.isBool_over (t : Ty) : (t.over φ).isBool = t.isBool := by
  cases t <;> rfl

theorem Ty.decl?_over (t : Ty) : (t.over φ).decl? = t.decl?.map φ := by
  cases t <;> rfl

theorem ParamTy.overs_eq_map (ps : List ParamTy) :
    ParamTy.overs φ ps = ps.map (ParamTy.over φ) := by
  induction ps with
  | nil => rfl
  | cons p ps ih => rw [ParamTy.overs, ih, map_cons]

theorem Signature.params_over (s : Signature) :
    (s.over φ).params = s.params.map (ParamTy.over φ) := by
  obtain ⟨tps, ps, r⟩ := s
  exact ParamTy.overs_eq_map ps

@[simp] theorem Signature.arity_over (s : Signature) : (s.over φ).arity = s.arity := by
  rw [Signature.arity, Signature.params_over, length_map, Signature.arity]

@[simp] theorem Signature.typeParams_over (s : Signature) :
    (s.over φ).typeParams = s.typeParams := by
  obtain ⟨tps, ps, r⟩ := s
  rfl

@[simp] theorem Signature.ret_over (s : Signature) : (s.over φ).ret = s.ret.over φ := by
  obtain ⟨tps, ps, r⟩ := s
  rfl

@[simp] theorem ParamTy.direction_over (p : ParamTy) : (p.over φ).direction = p.direction := by
  obtain ⟨n, d, t⟩ := p
  rfl

@[simp] theorem ParamTy.type_over (p : ParamTy) : (p.over φ).type = p.type.over φ := by
  obtain ⟨n, d, t⟩ := p
  rfl

mutual
theorem Ty.over_subst (b : Bindings) : (t : Ty) → (t.subst b).over φ = (t.over φ).subst (b.over φ)
  | .param n => by
    rw [show (Ty.param n).over φ = .param n from rfl, Ty.subst, Ty.subst, Bindings.get?_over]
    cases b.get? n <;> rfl
  | .decl d as => congrArg (Ty.decl (φ d)) (Ty.overs_substs b as)
  | .stack e n => congrArg (Ty.stack · n) (Ty.over_subst b e)
  | .method s => congrArg Ty.method (Signature.over_subst b s)
  | .bool | .bits .. | .int | .void | .table _ | .applyResult _ | .actionEnum _ | .error => rfl
theorem Ty.overs_substs (b : Bindings) : (ts : List Ty) →
    Ty.overs φ (Ty.substs b ts) = Ty.substs (b.over φ) (Ty.overs φ ts)
  | [] => rfl
  | t :: ts => by simp only [Ty.overs, Ty.substs, Ty.over_subst b t, Ty.overs_substs b ts]
theorem Signature.over_subst (b : Bindings) : (s : Signature) →
    (s.subst b).over φ = (s.over φ).subst (b.over φ)
  | .mk tps ps r => by
    simp only [Signature.over, Signature.subst, ParamTy.overs_substs b ps, Ty.over_subst b r,
      Bindings.binds_over]
theorem ParamTy.overs_substs (b : Bindings) : (ps : List ParamTy) →
    ParamTy.overs φ (ParamTy.substs b ps) = ParamTy.substs (b.over φ) (ParamTy.overs φ ps)
  | [] => rfl
  | .mk n d t :: ps => by
    simp only [ParamTy.overs, ParamTy.over, ParamTy.substs, ParamTy.subst, Ty.over_subst b t,
      ParamTy.overs_substs b ps]
end

mutual
theorem Bindings.over_unify : (t u : Ty) → ∀ b : Bindings,
    (t.unify u b).over φ = (t.over φ).unify (u.over φ) (b.over φ)
  | .param n, u, b => by
    simp only [Ty.over, Ty.unify, Ty.isError_over, Bindings.binds_over]
    split
    · rfl
    · exact Bindings.over_insert b n u
  | .decl d ts, u, b => by
    cases u with
    | decl d' us => exact Bindings.over_unifies ts us b
    | _ => rfl
  | .stack t n, u, b => by
    cases u with
    | stack u n' => exact Bindings.over_unify t u b
    | _ => rfl
  | .bool, _, _ | .bits .., _, _ | .int, _, _ | .void, _, _ | .method _, _, _ | .table _, _, _
  | .applyResult _, _, _ | .actionEnum _, _, _ | .error, _, _ => rfl
theorem Bindings.over_unifies : (ts us : List Ty) → ∀ b : Bindings,
    (Ty.unifies ts us b).over φ = Ty.unifies (Ty.overs φ ts) (Ty.overs φ us) (b.over φ)
  | t :: ts, u :: us, b => by
    rw [Ty.unifies, Bindings.over_unifies ts us, Bindings.over_unify t u b]
    rfl
  | [], _, _ | _ :: _, [], _ => rfl
end

theorem Check.over_unifyAll (ps : List ParamTy) (ts : List Ty) (b : Bindings) :
    (Check.unifyAll ps ts b).over φ =
      Check.unifyAll (ps.map (ParamTy.over φ)) (ts.map (Ty.over φ)) (b.over φ) := by
  induction ps generalizing ts b with
  | nil => rfl
  | cons p ps ih =>
    cases ts with
    | nil => rfl
    | cons t ts =>
      rw [Check.unifyAll, ih, Bindings.over_unify, ← ParamTy.type_over]
      rfl

end

mutual
theorem Ty.over_over (φ ψ : Decl → Decl) : (t : Ty) → (t.over φ).over ψ = t.over (ψ ∘ φ)
  | .decl d as => congrArg (Ty.decl (ψ (φ d))) (Ty.overs_overs φ ψ as)
  | .stack e n => congrArg (Ty.stack · n) (Ty.over_over φ ψ e)
  | .method s => congrArg Ty.method (Signature.over_over φ ψ s)
  | .bool | .bits .. | .int | .void | .param _ | .table _ | .applyResult _ | .actionEnum _
  | .error => rfl
theorem Ty.overs_overs (φ ψ : Decl → Decl) : (ts : List Ty) →
    Ty.overs ψ (Ty.overs φ ts) = Ty.overs (ψ ∘ φ) ts
  | [] => rfl
  | t :: ts => by simp only [Ty.overs, Ty.over_over φ ψ t, Ty.overs_overs φ ψ ts]
theorem Signature.over_over (φ ψ : Decl → Decl) : (s : Signature) →
    (s.over φ).over ψ = s.over (ψ ∘ φ)
  | .mk tps ps r => by simp only [Signature.over, ParamTy.overs_overs φ ψ ps, Ty.over_over φ ψ r]
theorem ParamTy.overs_overs (φ ψ : Decl → Decl) : (ps : List ParamTy) →
    ParamTy.overs ψ (ParamTy.overs φ ps) = ParamTy.overs (ψ ∘ φ) ps
  | [] => rfl
  | .mk n d t :: ps => by
    simp only [ParamTy.overs, ParamTy.over, Ty.over_over φ ψ t, ParamTy.overs_overs φ ψ ps]
end

def Decl.token (d : Decl) : Decl := .header ⟨d.id, "", none⟩ []

theorem Decl.token_inj {d d' : Decl} : d.token = d'.token ↔ d.id = d'.id := by
  simp [token]

mutual
theorem Ty.beq_iff : (t u : Ty) → (t.beq u ↔ t.over .token = u.over .token)
  | .decl d ts, u => by cases u <;> simp [Ty.over, Ty.beq, Decl.token_inj, Ty.beqs_iff ts]
  | .stack t n, u => by cases u <;> simp [Ty.over, Ty.beq, Ty.beq_iff t]
  | .method s, u => by cases u <;> simp [Ty.over, Ty.beq, Signature.beq_iff s]
  | .table d, u | .applyResult d, u | .actionEnum d, u => by
    cases u <;> simp [Ty.over, Ty.beq, Decl.token_inj]
  | .bool, u | .bits .., u | .int, u | .void, u | .param _, u | .error, u => by
    cases u <;> simp [Ty.over, Ty.beq]
theorem Ty.beqs_iff : (ts us : List Ty) →
    (Ty.beqs ts us ↔ Ty.overs .token ts = Ty.overs .token us)
  | [], us => by cases us <;> simp [Ty.overs, Ty.beqs]
  | t :: ts, us => by cases us <;> simp [Ty.overs, Ty.beqs, Ty.beq_iff t, Ty.beqs_iff ts]
theorem Signature.beq_iff : (s s' : Signature) → (s.beq s' ↔ s.over .token = s'.over .token)
  | .mk tps ps r, .mk tps' ps' r' => by
    simp [Signature.over, Signature.beq, ParamTy.beqs_iff ps, Ty.beq_iff r, and_assoc]
theorem ParamTy.beqs_iff : (ps ps' : List ParamTy) →
    (ParamTy.beqs ps ps' ↔ ParamTy.overs .token ps = ParamTy.overs .token ps')
  | [], ps' => by cases ps' <;> simp [ParamTy.overs, ParamTy.beqs]
  | .mk n d t :: ps, [] => by simp [ParamTy.overs, ParamTy.beqs]
  | .mk n d t :: ps, .mk n' d' t' :: ps' => by
    simp [ParamTy.overs, ParamTy.over, ParamTy.beqs, ParamTy.beq, Ty.beq_iff t,
      ParamTy.beqs_iff ps, and_assoc]
end

section

variable (V : Versions)

theorem Ty.beq_over (t u : Ty) : (t.over V.decl).beq (u.over V.decl) = t.beq u := by
  have htoken : Decl.token ∘ V.decl = Decl.token := by
    funext d
    exact Decl.token_inj.2 (V.alike d).id
  rw [Bool.eq_iff_iff, Ty.beq_iff, Ty.beq_iff, Ty.over_over, Ty.over_over, htoken]

theorem Ty.accepts_over (t u : Ty) : (t.over V.decl).accepts (u.over V.decl) = t.accepts u := by
  have h := Ty.beq_over V t u
  cases t <;> cases u <;> first | rfl | exact h

theorem Referent.id_over (r : Referent) : (r.over V.decl).id = r.id := by
  cases r with
  | decl d => exact (V.alike d).id
  | param p => rfl

theorem Refs.over_set (r : Refs) (i : NodeId) (x : Referent) :
    (r.set i x).over V.decl = (r.over V.decl).set i (x.over V.decl) := by
  rw [Refs.set, Refs.set, Referent.id_over]
  rfl

end

section

variable (use : NodeId → String → String)

mutual
def Expr.spelled : Expr → Expr
  | .path t n => .path t (use t.id n)
  | .member t b n => .member t b.spelled n
  | .index t b i => .index t b.spelled i.spelled
  | .call t c ts as => .call t c.spelled ts (Expr.spelleds as)
  | .construct t ty as => .construct t ty (Expr.spelleds as)
  | .unary t op e => .unary t op e.spelled
  | .binary t op l r => .binary t op l.spelled r.spelled
  | e => e
def Expr.spelleds : List Expr → List Expr
  | [] => []
  | e :: es => e.spelled :: Expr.spelleds es
end

theorem Expr.spelleds_eq_map (es : List Expr) :
    Expr.spelleds use es = es.map (Expr.spelled use) := by
  induction es with
  | nil => rfl
  | cons e es ih => rw [Expr.spelleds, ih, map_cons]

@[simp] theorem Expr.length_spelleds (es : List Expr) :
    (Expr.spelleds use es).length = es.length := by
  rw [Expr.spelleds_eq_map, length_map]

@[simp] theorem Expr.tag_spelled (e : Expr) : (e.spelled use).tag = e.tag := by
  cases e <;> rfl

@[simp] theorem Expr.id_spelled (e : Expr) : (e.spelled use).id = e.id :=
  congrArg Tag.id (e.tag_spelled use)

@[simp] theorem Expr.span_spelled (e : Expr) : (e.spelled use).span = e.span :=
  congrArg Tag.span (e.tag_spelled use)

def Key.spelled (k : Key) : Key := { k with expr := k.expr.spelled use }

end

structure Scopes.Match (V : Versions) (es : List Expr) (sc sc' : Scopes) : Prop where
  typeParams : sc'.typeParams = sc.typeParams
  types : ∀ {n d}, sc.lookup n = some (.decl d) → d.isType = true → V.kept d.id →
    sc'.lookup n = some (.decl (V.decl d))
  paths : ∀ {t n r}, .path t n ∈ es → sc.lookup n = some r → V.kept r.id →
    sc'.lookup (V.path t.id n) = some (r.over V.decl)

namespace Scopes.Match

variable {V : Versions} {es : List Expr} {sc sc' : Scopes}

theorem pushTypeParams (h : sc.Match V es sc') (names : List String) :
    (sc.pushTypeParams names).Match V es (sc'.pushTypeParams names) :=
  ⟨congrArg (names :: ·) h.typeParams, h.types, h.paths⟩

theorem resolveName (h : sc.Match V es sc')
    (hn : (sc.resolveName n ts).unknown = []) (hk : ∀ i ∈ (sc.resolveName n ts).uses, V.kept i) :
    sc'.resolveName n (Ty.overs V.decl ts) = ⟨(sc.resolveName n ts).type.over V.decl,
      (sc.resolveName n ts).uses, []⟩ := by
  have hparam : sc'.isTypeParam n = sc.isTypeParam n := by
    rw [Scopes.isTypeParam, h.typeParams, Scopes.isTypeParam]
  unfold Scopes.resolveName at hn hk ⊢
  rw [hparam]
  by_cases hp : sc.isTypeParam n = true
  · simp only [if_pos hp]
    rfl
  · simp only [if_neg hp] at hn hk ⊢
    split at hn
    · rename_i d hd
      split at hn
      · rename_i ht
        simp only [hd, if_pos ht] at hk
        simp only [h.types hd ht (hk _ (.head _)), (V.alike d).isType, if_pos ht, (V.alike d).id]
        rfl
      · cases hn
    · cases hn

mutual
theorem resolve (h : sc.Match V es sc') : (ty : TypeExpr) → (sc.resolve ty).unknown = [] →
    (∀ i ∈ (sc.resolve ty).uses, V.kept i) →
    sc'.resolve ty = ⟨(sc.resolve ty).type.over V.decl, (sc.resolve ty).uses, []⟩
  | .bool, _, _ | .bits .., _, _ | .int, _, _ | .void, _, _ => rfl
  | .named _, hu, hk => h.resolveName hu hk
  | .specialized base as, hu, hk => by
    obtain ⟨has, hbase⟩ := append_eq_nil_iff.1 hu
    obtain ⟨hkas, hkbase⟩ := forall_mem_append.1 hk
    obtain ⟨hts, huses, hunknown⟩ := resolves h as has hkas
    simp only [Scopes.resolve, hts, huses, hunknown, h.resolveName hbase hkbase, nil_append]
  | .stack e n, hu, hk => by
    simp only [Scopes.resolve, resolve h e hu hk]
    rfl
theorem resolves (h : sc.Match V es sc') : (tys : List TypeExpr) → (sc.resolves tys).2.2 = [] →
    (∀ i ∈ (sc.resolves tys).2.1, V.kept i) →
    (sc'.resolves tys).1 = Ty.overs V.decl (sc.resolves tys).1 ∧
      (sc'.resolves tys).2.1 = (sc.resolves tys).2.1 ∧ (sc'.resolves tys).2.2 = []
  | [], _, _ => ⟨rfl, rfl, rfl⟩
  | ty :: tys, hu, hk => by
    obtain ⟨hty, htys⟩ := append_eq_nil_iff.1 hu
    obtain ⟨hkty, hktys⟩ := forall_mem_append.1 hk
    obtain ⟨hts, huses, hunknown⟩ := resolves h tys htys hktys
    simp only [Scopes.resolves, resolve h ty hty hkty, hts, huses, hunknown, append_nil, and_true]
    rfl
end

end Scopes.Match

/-- Tables that are alike: the same is written to both, and the types of the nodes that are known
are the same up to the versions. -/
structure Likeness (V : Versions) where
  refs : Refs → Refs → Prop
  types : Types → Types → Prop
  known : NodeId → Prop
  setRef : ∀ {r r'} i x, refs r r' → refs (r.set i x) (r'.set i (x.over V.decl))
  markUsed : ∀ {r r'} i, refs r r' → refs (r.markUsed i) (r'.markUsed i)
  get? : ∀ {t t' i}, types t t' → known i → t'.get? i = (t.get? i).map (Ty.over V.decl)
  isLeftValue : ∀ {t t' i}, types t t' → known i → t'.isLeftValue i = t.isLeftValue i
  set : ∀ {t t'} i ty, types t t' → types (t.set i ty) (t'.set i (ty.over V.decl))
  setLeftValue : ∀ {t t'} i, types t t' → types (t.setLeftValue i) (t'.setLeftValue i)
  setBindings : ∀ {t t'} i b, types t t' →
    types (t.setBindings i b) (t'.setBindings i (b.over V.decl))

def Likeness.exact (V : Versions) : Likeness V where
  refs r r' := r' = r.over V.decl
  types t t' := t' = t.over V.decl
  known _ := True
  setRef i x h := h ▸ (Refs.over_set V _ i x).symm
  markUsed _ h := h ▸ rfl
  get? {t _ i} h _ := h ▸ t.get?_over V.decl i
  isLeftValue h _ := h ▸ rfl
  set _ _ h := h ▸ rfl
  setLeftValue _ h := h ▸ rfl
  setBindings _ _ h := h ▸ rfl

theorem Likeness.foldl_markUsed (L : Likeness V) (is : List NodeId)
    (h : L.refs r r') : L.refs (is.foldl Refs.markUsed r) (is.foldl Refs.markUsed r') := by
  induction is generalizing r r' with
  | nil => exact h
  | cons i is ih => exact ih (L.markUsed i h)

structure Checker.Like {V : Versions} (L : Likeness V) (es : List Expr) (c c' : Checker) :
    Prop where
  names : c.scopes.Match V es c'.scopes
  refs : L.refs c.refs c'.refs
  types : L.types c.types c'.types
  errors : c'.errors = c.errors
  exprs : ∀ e ∈ es, L.known e.id
  values : ∀ {t n r}, .path t n ∈ es → c.scopes.lookup n = some r → V.kept r.id → r.isValue = true →
    L.known r.id

variable {i : NodeId}

namespace Checker.Like

variable {V : Versions} {L : Likeness V} {es : List Expr} {c c' : Checker}

theorem known (h : c.Like L es c') (hi : i ∈ es.map (·.id)) : L.known i := by
  obtain ⟨e, he, rfl⟩ := mem_map.1 hi
  exact h.exprs e he

theorem withTypes (h : c.Like L es c') (ht : L.types t t') :
    ({ c with types := t } : Checker).Like L es { c' with types := t' } :=
  ⟨h.names, h.refs, ht, h.errors, h.exprs, h.values⟩

theorem withRefs (h : c.Like L es c') (hr : L.refs r r') :
    ({ c with refs := r } : Checker).Like L es { c' with refs := r' } :=
  ⟨h.names, hr, h.types, h.errors, h.exprs, h.values⟩

theorem pushTypeParams (h : c.Like L es c') (names : List String) :
    ({ c with scopes := c.scopes.pushTypeParams names } : Checker).Like L es
      { c' with scopes := c'.scopes.pushTypeParams names } :=
  ⟨h.names.pushTypeParams names, h.refs, h.types, h.errors, h.exprs, h.values⟩

end Checker.Like

namespace Check

variable {α β γ δ : Type} {V : Versions} {L : Likeness V} {es : List Expr}

/-- Where `x` reports nothing and uses what is kept, `x'` does the same to the other versions. -/
structure Echoes (L : Likeness V) (es : List Expr) (f : α → β) (x : Check α) (x' : Check β) :
    Prop where
  scopes : ∀ c, (x c).2.scopes = c.scopes
  errors : ∀ c, (x c).2.errors = [] → c.errors = []
  used : ∀ c, c.refs.used ⊆ (x c).2.refs.used
  same : ∀ {c c'}, c.Like L es c' → (x c).2.errors = [] → (∀ i ∈ (x c).2.refs.used, V.kept i) →
    (x' c').1 = f (x c).1 ∧ (x c).2.Like L es (x' c').2 ∧ (x' c').2.scopes = c'.scopes

namespace Echoes

variable {f : α → β} {g : γ → δ} {x : Check α} {x' : Check β} {k : α → Check γ} {k' : β → Check δ}

theorem apply_over (hx : Echoes (.exact V) es f x x') (c : Checker) (sc' : Scopes)
    (hm : c.scopes.Match V es sc') (h : (x c).2.errors = [])
    (hk : ∀ i ∈ (x c).2.refs.used, V.kept i) :
    x' (c.over V.decl sc') = (f (x c).1, (x c).2.over V.decl sc') := by
  have hlike : c.Like (.exact V) es (c.over V.decl sc') :=
    ⟨hm, rfl, rfl, rfl, fun _ _ => trivial, fun _ _ _ _ => trivial⟩
  obtain ⟨hresult, hafter, hscopes⟩ := hx.same hlike h hk
  refine Prod.ext hresult ?_
  change Checker.mk _ _ _ _ = Checker.mk _ _ _ _
  rw [hscopes, hafter.errors]
  exact congrArg₂ (Checker.mk sc' · · _) hafter.refs hafter.types

theorem pure (f : α → β) (a : α) : Echoes L es f (Pure.pure a) (Pure.pure (f a)) :=
  ⟨fun _ => rfl, fun _ h => h, fun _ => List.Subset.refl _, fun h _ _ => ⟨rfl, h, rfl⟩⟩

theorem pure_of_eq (h : b = f a) : Echoes L es f (Pure.pure a) (Pure.pure b) :=
  h ▸ .pure f a

theorem bind (hx : Echoes L es f x x') (hk : ∀ a, Echoes L es g (k a) (k' (f a))) :
    Echoes L es g (x >>= k) (x' >>= k') where
  scopes c := ((hk _).scopes _).trans (hx.scopes c)
  errors c h := hx.errors c ((hk _).errors _ h)
  used c := List.Subset.trans (hx.used c) ((hk _).used _)
  same {c c'} hc h hused := by
    obtain ⟨hresult, hmid, hscopes⟩ := hx.same hc ((hk _).errors _ h) fun i hi =>
      hused i ((hk _).used _ hi)
    obtain ⟨hresult', hafter, hscopes'⟩ := (hk _).same hmid h hused
    rw [bind_apply, hresult]
    exact ⟨hresult', hafter, hscopes'.trans hscopes⟩

theorem of_report (hx : Quiet x) (hr : ∀ c, (x c).2.errors ≠ []) :
    Echoes L es f x x' :=
  ⟨hx.scopes, hx.errors, hx.used, fun {c _} _ h => absurd h (hr c)⟩

theorem report_bind {k : Unit → Check γ} {x' : Check δ} (fault : TypeFault) (sp : Option Span)
    (hf : fault.isNaming = false) (hk : ∀ u, Quiet (k u)) :
    Echoes L es g (report fault sp >>= k) x' :=
  .of_report ((quiet_report fault sp hf).bind hk) fun c h =>
    errors_report_ne fault sp c ((hk ()).errors _ h)

theorem report {x' : Check Unit} (fault : TypeFault) (sp : Option Span)
    (hf : fault.isNaming = false) : Echoes L es id (Check.report fault sp) x' :=
  .of_report (quiet_report fault sp hf) (errors_report_ne fault sp)

theorem ite {p : Prop} [Decidable p] (hx : Echoes L es f x x')
    (hy : Echoes L es f y y') : Echoes L es f (if p then x else y) (if p then x' else y') := by
  split
  · exact hx
  · exact hy

theorem read (f : α → β) (r : Checker → α) (r' : Checker → β)
    (h : ∀ {c c'}, c.Like L es c' → r' c' = f (r c)) :
    Echoes L es f (fun c => (r c, c) : Check α) (fun c => (r' c, c) : Check β) :=
  ⟨fun _ => rfl, fun _ h => h, fun _ => List.Subset.refl _, fun hc _ _ => ⟨h hc, hc, rfl⟩⟩

theorem typed (s s' : Types → Types) (h : ∀ {t t'}, L.types t t' → L.types (s t) (s' t')) :
    Echoes L es id (modify fun c => { c with types := s c.types })
      (modify fun c => { c with types := s' c.types }) :=
  ⟨fun _ => rfl, fun _ h => h, fun _ => List.Subset.refl _, fun hc _ _ =>
    ⟨rfl, hc.withTypes (h hc.types), rfl⟩⟩

end Echoes

theorem echoes_setType (i : NodeId) (t : Ty) :
    Echoes L es id (setType i t) (setType i (t.over V.decl)) :=
  .typed (·.set i t) (·.set i (t.over V.decl)) (L.set i t)

theorem echoes_setLeftValue (i : NodeId) : Echoes L es id (setLeftValue i) (setLeftValue i) :=
  .typed (·.setLeftValue i) (·.setLeftValue i) (L.setLeftValue i)

theorem echoes_typeOf? (hi : i ∈ es.map (·.id)) :
    Echoes L es (Option.map (Ty.over V.decl)) (typeOf? i) (typeOf? i) :=
  .read _ (fun c => c.types.get? i) (fun c => c.types.get? i) fun hc =>
    L.get? hc.types (hc.known hi)

theorem echoes_isLeftValue (hi : i ∈ es.map (·.id)) :
    Echoes L es id (isLeftValue i) (isLeftValue i) :=
  .read _ (fun c => c.types.isLeftValue i) (fun c => c.types.isLeftValue i) fun hc =>
    L.isLeftValue hc.types (hc.known hi)

variable {b : NodeId}

theorem echoes_inheritLeftValue (hb : b ∈ es.map (·.id)) (i : NodeId) :
    Echoes L es id (inheritLeftValue b i) (inheritLeftValue b i) :=
  (echoes_isLeftValue hb).bind fun _ => .ite (echoes_setLeftValue i) (.pure id ())

theorem echoes_refer (i : NodeId) (r : Referent) :
    Echoes L es id (refer i r) (refer i (r.over V.decl)) :=
  ⟨fun _ => rfl, fun _ h => h, fun _ _ hi => .tail _ hi, fun hc _ _ =>
    ⟨rfl, hc.withRefs (L.setRef i r hc.refs), rfl⟩⟩

theorem echoes_resolveType (t : TypeExpr) (sp : Option Span) :
    Echoes L es (Ty.over V.decl) (resolveType t sp) (resolveType t sp) where
  scopes := (quiet_resolveType t sp).scopes
  errors := (quiet_resolveType t sp).errors
  used := (quiet_resolveType t sp).used
  same {c c'} hc h hused := by
    have hu : (c.scopes.resolve t).unknown = [] :=
      map_eq_nil_iff.1 (append_eq_nil_iff.1 h).2
    have hr := hc.names.resolve t hu fun i hi => hused i ((mem_used_foldl_markUsed _ _).2 (.inl hi))
    refine ⟨congrArg Resolution.type hr, ⟨hc.names, ?_, hc.types, ?_, hc.exprs, hc.values⟩, rfl⟩
    · change L.refs ((c.scopes.resolve t).uses.foldl Refs.markUsed c.refs)
        ((c'.scopes.resolve t).uses.foldl Refs.markUsed c'.refs)
      rw [hr]
      exact L.foldl_markUsed _ hc.refs
    · change c'.errors ++ (c'.scopes.resolve t).unknown.map _ =
        c.errors ++ (c.scopes.resolve t).unknown.map _
      rw [hr, hu, hc.errors]

theorem echoes_paramType (p : Param) :
    Echoes L es (Ty.over V.decl) (paramType p) (paramType p) :=
  (echoes_resolveType _ _).bind fun _ => (echoes_setType _ _).bind fun _ => .pure _ _

theorem echoes_paramTypes (ps : List Param) :
    Echoes L es (List.map (ParamTy.over V.decl)) (paramTypes ps) (paramTypes ps) := by
  induction ps with
  | nil => exact .pure _ _
  | cons p ps ih => exact (echoes_paramType p).bind fun _ => ih.bind fun _ => .pure _ _

theorem withTypeParams_apply (names : List String) (x : Check α) (c : Checker) :
    withTypeParams names x c = ((x { c with scopes := c.scopes.pushTypeParams names }).1,
      { (x { c with scopes := c.scopes.pushTypeParams names }).2 with
        scopes := (x { c with scopes := c.scopes.pushTypeParams names }).2.scopes.popTypeParams
          }) :=
  rfl

theorem echoes_withTypeParams (names : List String)
    (hx : Echoes L es f x x') :
    Echoes L es f (withTypeParams names x) (withTypeParams names x') where
  scopes c := by
    have h := hx.scopes { c with scopes := c.scopes.pushTypeParams names }
    change ((x { c with scopes := c.scopes.pushTypeParams names }).2.scopes).popTypeParams = _
    rw [h]
    rfl
  errors c := hx.errors { c with scopes := c.scopes.pushTypeParams names }
  used c := hx.used { c with scopes := c.scopes.pushTypeParams names }
  same {c c'} hc h hused := by
    obtain ⟨hresult, hafter, hscopes⟩ := hx.same (hc.pushTypeParams names) h hused
    have hscopes₀ := hx.scopes { c with scopes := c.scopes.pushTypeParams names }
    rw [withTypeParams_apply, withTypeParams_apply, hscopes, hscopes₀]
    exact ⟨hresult, ⟨hc.names, hafter.refs, hafter.types, hafter.errors, hc.exprs, hc.values⟩, rfl⟩

theorem echoes_methodType (m : Method) :
    Echoes L es (Signature.over V.decl) (methodType m) (methodType m) :=
  echoes_withTypeParams _ <| (echoes_paramTypes _).bind fun ps =>
    (echoes_resolveType _ _).bind fun r => by
      simpa [Signature.over, ParamTy.overs_eq_map] using
        Echoes.pure (Signature.over V.decl) (.mk m.typeParams ps r)

theorem echoes_externMethodType (tps : List String) (m : Method) :
    Echoes L es (Signature.over V.decl) (externMethodType tps m) (externMethodType tps m) :=
  (echoes_withTypeParams tps (echoes_methodType m)).bind fun s => by
    obtain ⟨own, ps, r⟩ := s
    exact .pure (Signature.over V.decl) (.mk (tps ++ own) ps r)

theorem echoes_actionType (ps : List Param) :
    Echoes L es (Signature.over V.decl) (actionType ps) (actionType ps) :=
  (echoes_paramTypes ps).bind fun ps => by
    simpa [Signature.over, ParamTy.overs_eq_map, Ty.over] using
      Echoes.pure (Signature.over V.decl) (.mk [] ps .void)

theorem echoes_constructorArity (d : Decl) (n : Nat) (sp : Option Span) :
    Echoes L es id (constructorArity d n sp) (constructorArity (V.decl d) n sp) := by
  unfold constructorArity
  rw [(V.alike d).constructorArities]
  cases constructorArities d with
  | nil => exact .pure id ()
  | cons k ks => exact .ite (.pure id ()) (.report _ _ rfl)

theorem echoes_instantiate (i : NodeId) (t : Ty) (n : Nat) (sp : Option Span) :
    Echoes L es id (instantiate i t n sp) (instantiate i (t.over V.decl) n sp) := by
  unfold instantiate
  rw [Ty.decl?_over]
  cases t.decl? with
  | none => exact .pure id ()
  | some d => exact (echoes_refer i (.decl d)).bind fun _ => echoes_constructorArity d n sp

theorem echoes_expect (t u : Ty) (sp : Option Span) :
    Echoes L es id (expect t u sp) (expect (t.over V.decl) (u.over V.decl) sp) := by
  unfold expect
  rw [Ty.accepts_over]
  exact .ite (.pure id ()) (.report _ _ rfl)

theorem echoes_declaredType (hi : L.known i) :
    Echoes L es (Ty.over V.decl) (declaredType i) (declaredType i) :=
  .read _ (fun c => (c.types.get? i).getD .error) (fun c => (c.types.get? i).getD .error)
    fun {c _} hc => by
    rw [L.get? hc.types hi]
    cases c.types.get? i <;> rfl

theorem echoes_method (hx : Echoes L es (Signature.over V.decl) x x) :
    Echoes L es (Ty.over V.decl) (x >>= fun s => pure (.method s))
      (x >>= fun s => pure (.method s)) :=
  hx.bind fun s => .pure (Ty.over V.decl) (.method s)

theorem echoes_referentType (t : Tag) (hr : r.isValue = true → L.known r.id) :
    Echoes L es (Ty.over V.decl) (referentType t r) (referentType t (r.over V.decl)) := by
  cases r with
  | param p =>
    have hrest : Echoes L es (Ty.over V.decl) (declaredType p.id) (declaredType p.id) :=
      echoes_declaredType (hr rfl)
    exact .ite ((echoes_setLeftValue t.id).bind fun _ => hrest) hrest
  | decl d =>
    change Echoes L es _ _ (referentType t (.decl (V.decl d)))
    have hvalue : ∀ {i i'}, L.known i → i' = i →
        Echoes L es (Ty.over V.decl) (declaredType i) (declaredType i') := by
      rintro _ i hi rfl
      exact echoes_declaredType hi
    have halike := V.alike d
    generalize hd : V.decl d = d' at halike
    cases halike with
    | var hid => exact (echoes_setLeftValue t.id).bind fun _ => hvalue (hr rfl) hid
    | const hid => exact hvalue (hr rfl) hid
    | inst hid => exact hvalue (hr rfl) hid
    | action hid ps => exact echoes_method (echoes_actionType ps)
    | externFn hid m => exact echoes_method (echoes_methodType m)
    | table => exact .pure_of_eq (congrArg Ty.table hd.symm)
    | _ => exact .pure_of_eq (congrArg (Ty.decl · []) hd.symm)

theorem echoes_path (hmem : .path t n ∈ es) :
    Echoes L es (Ty.over V.decl) (path t n) (path t (V.path t.id n)) where
  scopes := (walks_path t n).scopes
  errors c h := ((walks_path t n).errors c h).1
  used := (walks_path t n).used
  same {c c'} hc h hused := by
    cases hl : c.scopes.lookup n with
    | none =>
      rw [path_of_lookup_none hl] at h
      exact absurd h (errors_report_ne _ _ c)
    | some r =>
      rw [path_of_lookup hl] at h hused ⊢
      have hkept : V.kept r.id := hused _ ((quiet_referentType t r).used _ (.head _))
      have hl' : c'.scopes.lookup (V.path t.id n) = some (r.over V.decl) :=
        hc.names.paths hmem hl hkept
      rw [path_of_lookup hl']
      exact ((echoes_refer t.id r).bind fun _ =>
        echoes_referentType t (hc.values hmem hl hkept)).same hc h hused

theorem echoes_unknownMember {f : Ty → β} {x' : Check β} (t : Tag) (b : Ty) (n : String) :
    Echoes L es f (unknownMember t b n) x' := .report_bind _ _ rfl fun _ => .pure _

theorem echoes_fieldType (t : Tag) (hb : b ∈ es.map (·.id)) (ty ty' : Ty) (isHeader : Bool)
    (fs : List Field) (n : String) : Echoes L es (Ty.over V.decl) (fieldType t b ty isHeader fs n)
      (fieldType t b ty' isHeader fs n) := by
  unfold fieldType
  cases fs.find? (·.name == n) with
  | some f => exact (echoes_inheritLeftValue hb _).bind fun _ => echoes_resolveType _ _
  | none =>
    cases BuiltIn.ofName? n with
    | some b =>
      refine .ite ?_ (echoes_unknownMember _ _ _)
      cases b <;> exact .pure (Ty.over V.decl) (.method _)
    | none => exact echoes_unknownMember _ _ _

theorem echoes_methodMember (t : Tag) (ty ty' : Ty) (tps : List String) (ms : List Method)
    (n : String) (arity : Option Nat) : Echoes L es (Ty.over V.decl)
      (methodMember t ty tps ms n arity) (methodMember t ty' tps ms n arity) := by
  unfold methodMember
  cases arity with
  | some k =>
    dsimp only
    cases Method.find? ms n k with
    | some m => exact echoes_method (echoes_externMethodType tps m)
    | none =>
      cases Method.named? ms n with
      | some m => exact .report_bind _ _ rfl fun _ => .pure _
      | none => exact echoes_unknownMember _ _ _
  | none =>
    cases Method.named? ms n with
    | some m => exact echoes_method (echoes_externMethodType tps m)
    | none => exact echoes_unknownMember _ _ _

theorem echoes_stackMember (t : Tag) (hb : b ∈ es.map (·.id)) (e : Ty) (k : Nat) (n : String) :
    Echoes L es (Ty.over V.decl) (stackMember t b e k n)
      (stackMember t b (e.over V.decl) k n) := by
  unfold stackMember
  split
  · exact (echoes_inheritLeftValue hb _).bind fun _ => .pure _ e
  · exact (echoes_inheritLeftValue hb _).bind fun _ => .pure _ e
  · exact .pure _ (Ty.bits 32 false)
  · exact .pure _ (Ty.bits 32 false)
  · exact .pure _ (Ty.bits 32 false)
  · exact .pure (Ty.over V.decl) (.method _)
  · exact .pure (Ty.over V.decl) (.method _)
  · exact echoes_unknownMember _ _ _

theorem echoes_member (t : Tag) (hb : b ∈ es.map (·.id)) (ty : Ty) (n : String)
    (arity : Option Nat) :
    Echoes L es (Ty.over V.decl) (member t b ty n arity) (member t b (ty.over V.decl) n arity) := by
  cases ty with
  | decl d ts =>
    change Echoes L es _ _ (member t b (.decl (V.decl d) (Ty.overs V.decl ts)) n arity)
    have halike := V.alike d
    generalize V.decl d = d' at halike
    cases halike with
    | header hid fs => exact echoes_fieldType _ hb _ _ _ _ _
    | struct hid fs => exact echoes_fieldType _ hb _ _ _ _ _
    | externType hid tps cs ms => exact echoes_methodMember _ _ _ _ _ _ _
    | control hid tps ps cps =>
      exact .ite (echoes_method (echoes_actionType ps)) (echoes_unknownMember _ _ _)
    | _ => exact echoes_unknownMember _ _ _
  | error => exact .pure _ Ty.error
  | table d => exact .ite (.pure (Ty.over V.decl) (.method _)) (echoes_unknownMember _ _ _)
  | applyResult d =>
    simp only [member, Ty.over]
    split
    · exact .pure _ Ty.bool
    · exact .pure _ Ty.bool
    · exact .pure (Ty.over V.decl) (.actionEnum d)
    · exact echoes_unknownMember _ _ _
  | stack e k => exact echoes_stackMember _ hb _ _ _
  | _ => exact echoes_unknownMember _ _ _

theorem echoes_index (t : Tag) (hb : b ∈ es.map (·.id)) (ty : Ty) :
    Echoes L es (Ty.over V.decl) (index t b ty) (index t b (ty.over V.decl)) := by
  cases ty with
  | stack e k => exact (echoes_inheritLeftValue hb _).bind fun _ => .pure _ e
  | error => exact .pure _ Ty.error
  | _ => exact echoes_unknownMember _ _ _

theorem echoes_receiverBindings (e : Expr) (h : e.walk ⊆ es) : Echoes L es (Bindings.over V.decl)
    (receiverBindings e) (receiverBindings (e.spelled V.path)) := by
  have hnone : Echoes L es (Bindings.over V.decl) (pure []) (pure []) := .pure _ _
  cases e with
  | member t b n =>
    simp only [receiverBindings, Expr.spelled, Expr.id_spelled]
    refine (echoes_typeOf? (mem_map_of_mem (h (.tail _ b.self_mem_walk)))).bind fun ty => ?_
    cases ty with
    | none => exact hnone
    | some ty =>
      cases ty with
      | decl d ts =>
        simp only [Option.map_some, Ty.over]
        have halike := V.alike d
        generalize V.decl d = d' at halike
        cases halike with
        | externType hid tps => exact .pure_of_eq (Bindings.over_foldl_insert tps ts []).symm
        | _ => exact hnone
      | _ => exact hnone
  | _ => exact hnone

theorem echoes_bindWritten (sp : Option Span) (ns : List String) (ts : List TypeExpr)
    (b : Bindings) : Echoes L es (Bindings.over V.decl) (bindWritten sp ns ts b)
      (bindWritten sp ns ts (b.over V.decl)) := by
  induction ns generalizing ts b with
  | nil => exact .pure _ b
  | cons n ns ih =>
    cases ts with
    | nil => exact .pure _ b
    | cons t ts =>
      refine (echoes_resolveType t sp).bind fun ty => ?_
      rw [← Bindings.over_insert]
      exact ih ts _

theorem echoes_callBindings (t : Tag) (e : Expr) (h : e.walk ⊆ es) (sig : Signature)
    (ts : List TypeExpr)
    (tys : List Ty) : Echoes L es (Bindings.over V.decl) (callBindings t e sig ts tys)
      (callBindings t (e.spelled V.path) (sig.over V.decl) ts (tys.map (Ty.over V.decl))) := by
  unfold callBindings
  refine (echoes_receiverBindings e h).bind fun b => ?_
  simp only [Signature.typeParams_over, Bindings.binds_over]
  refine (echoes_bindWritten _ _ ts b).bind fun b' => .pure_of_eq ?_
  rw [Signature.params_over, over_unifyAll]

theorem echoes_arguments (sp : Option Span) (b : Bindings) (ps : List ParamTy) (as : List Expr)
    (h : as ⊆ es) (ts : List Ty) : Echoes L es id (arguments sp b ps as ts)
      (arguments sp (b.over V.decl) (ps.map (ParamTy.over V.decl)) (as.map (Expr.spelled V.path))
        (ts.map (Ty.over V.decl))) := by
  induction ps generalizing as ts with
  | nil => exact .pure id ()
  | cons p ps ih =>
    cases as with
    | nil => exact .pure id ()
    | cons a as =>
      cases ts with
      | nil => exact .pure id ()
      | cons t ts =>
        simp only [arguments, map_cons, ParamTy.direction_over, Ty.isError_over,
          Expr.id_spelled, Expr.span_spelled, ParamTy.type_over, ← Ty.over_subst]
        refine (echoes_isLeftValue (mem_map_of_mem (h (.head _)))).bind fun v => ?_
        exact .ite (.report_bind _ _ rfl fun _ => (quiet_expect _ _ _).bind fun _ =>
          quiet_arguments _ _ _ _ _) ((echoes_expect _ t _).bind fun _ =>
            ih as (fun a ha => h (.tail _ ha)) ts)

theorem echoes_note (i : NodeId) (b : Bindings) :
    Echoes L es id (note i b) (note i (b.over V.decl)) := by
  unfold note
  rw [show (b.over V.decl).isEmpty = b.isEmpty from isEmpty_map]
  exact .ite (.pure id ()) (.typed (·.setBindings i b) (·.setBindings i (b.over V.decl))
    (L.setBindings i b))

theorem echoes_call (t : Tag) (e : Expr) (he : e.walk ⊆ es) (ty : Ty) (ts : List TypeExpr)
    (as : List Expr) (has : as ⊆ es) (tys : List Ty) :
      Echoes L es (Ty.over V.decl) (call t e ty ts as tys)
      (call t (e.spelled V.path) (ty.over V.decl) ts (as.map (Expr.spelled V.path))
        (tys.map (Ty.over V.decl))) := by
  cases ty with
  | method sig =>
    by_cases ha : sig.arity = as.length
    · rw [call_method t e ts ha, show (Ty.method sig).over V.decl =
        .method (sig.over V.decl) from rfl, call_method t (e.spelled V.path) ts (by simpa using ha)]
      refine (echoes_callBindings t e he sig ts tys).bind fun b => ?_
      rw [Signature.params_over, Signature.ret_over, ← Ty.over_subst]
      exact (echoes_arguments _ b _ as has tys).bind fun _ => (echoes_note t.id b).bind
        fun _ => .pure _ _
    · unfold call
      simp only [if_pos ha]
      exact .report_bind _ _ rfl fun _ => .pure _
  | error => exact .pure _ Ty.error
  | _ => exact .report_bind _ _ rfl fun _ => .pure _

theorem echoes_typed (t : Tag) (hx : Echoes L es (Ty.over V.decl) x x') :
    Echoes L es (Ty.over V.decl) (typed t x) (typed t x') :=
  hx.bind fun ty => (echoes_setType t.id ty).bind fun _ => .pure _ ty

theorem unaryType_over (op : UnaryOp) (t : Ty) :
    unaryType op (t.over V.decl) = (unaryType op t).over V.decl := by
  cases op <;> rfl

theorem binaryType_over (op : BinaryOp) (l r : Ty) :
    binaryType op (l.over V.decl) (r.over V.decl) = (binaryType op l r).over V.decl := by
  unfold binaryType
  split
  · rfl
  · cases l <;> rfl

mutual
theorem echoes_expr : (e : Expr) → e.walk ⊆ es →
    Echoes L es (Ty.over V.decl) (expr e) (expr (e.spelled V.path))
  | .lit t n ty, _ => echoes_typed t (echoes_resolveType ty t.span)
  | .bool t b, _ => echoes_typed t (.pure _ Ty.bool)
  | .path t n, h => echoes_typed t (echoes_path (h (.head _)))
  | .member t b n, h => by
    have hb := echoes_expr b fun e he => h (.tail _ he)
    simp only [expr, Expr.spelled, Expr.id_spelled]
    exact echoes_typed t (hb.bind fun ty =>
      echoes_member t (mem_map_of_mem (h (.tail _ b.self_mem_walk))) ty n none)
  | .index t b i, h => by
    have hb := echoes_expr b fun e he => h (.tail _ (mem_append_left _ he))
    have hi := echoes_expr i fun e he => h (.tail _ (mem_append_right _ he))
    simp only [expr, Expr.spelled, Expr.id_spelled]
    exact echoes_typed t (hb.bind fun ty => hi.bind fun _ => echoes_index t (mem_map_of_mem
      (h (.tail _ (mem_append_left _ b.self_mem_walk)))) ty)
  | .call t c ts as, h => by
    have hc := echoes_expr c fun e he => h (.tail _ (mem_append_left _ he))
    have has := echoes_exprs as fun e he => h (.tail _ (mem_append_right _ he))
    have hcallee : Echoes L es (Ty.over V.decl) (callee as.length c)
        (callee as.length (c.spelled V.path)) := by
      cases c with
      | member mt b n =>
        have hb := echoes_expr b fun e he => h (.tail _ (mem_append_left _ (.tail _ he)))
        simp only [callee, Expr.spelled, Expr.id_spelled]
        exact echoes_typed mt (hb.bind fun ty => echoes_member mt (mem_map_of_mem
          (h (.tail _ (mem_append_left _ (.tail _ b.self_mem_walk))))) ty n _)
      | _ => exact hc
    simp only [Expr.spelled, expr_call, Expr.length_spelleds]
    refine echoes_typed t (hcallee.bind fun ty => has.bind fun tys => ?_)
    rw [Expr.spelleds_eq_map]
    exact echoes_call t c (fun e he => h (.tail _ (mem_append_left _ he))) ty ts as (fun a ha =>
      h (.tail _ (mem_append_right _ (Expr.walk_subset_walks ha a.self_mem_walk)))) tys
  | .construct t ty as, h => by
    have has := echoes_exprs as fun e he => h (.tail _ he)
    simp only [expr, Expr.spelled, Expr.length_spelleds]
    exact echoes_typed t ((echoes_resolveType ty t.span).bind fun target => has.bind fun _ =>
      (echoes_instantiate t.id target _ t.span).bind fun _ => .pure _ target)
  | .unary t op e, h => by
    have he := echoes_expr e fun e he => h (.tail _ he)
    exact echoes_typed t (he.bind fun ty => .pure_of_eq (unaryType_over op ty))
  | .binary t op l r, h => by
    have hl := echoes_expr l fun e he => h (.tail _ (mem_append_left _ he))
    have hr := echoes_expr r fun e he => h (.tail _ (mem_append_right _ he))
    exact echoes_typed t (hl.bind fun lt => hr.bind fun rt =>
      .pure_of_eq (binaryType_over op lt rt))
theorem echoes_exprs : (as : List Expr) → Expr.walks as ⊆ es →
    Echoes L es (List.map (Ty.over V.decl)) (exprs as) (exprs (Expr.spelleds V.path as))
  | [], _ => .pure _ []
  | a :: as, h => (echoes_expr a fun _ he => h (mem_append_left _ he)).bind fun t =>
      (echoes_exprs as fun _ he => h (mem_append_right _ he)).bind fun ts => .pure _ (t :: ts)
end

theorem echoes_expr? (e : Option Expr) (h : Expr.walks e.toList ⊆ es) :
    Echoes L es id (expr? e) (expr? (e.map (Expr.spelled V.path))) := by
  cases e with
  | none => exact .pure id ()
  | some e => exact (echoes_expr e fun x hx => h (mem_append_left _ hx)).bind fun _ => .pure id ()

theorem echoes_entryFault (t : Tag) (c : Expr) (k : Nat) (ty : Ty) :
    Echoes L es id (entryFault t c k ty) (entryFault t (c.spelled V.path) k (ty.over V.decl)) := by
  cases ty with
  | method sig =>
    simp only [entryFault, Ty.over, Signature.arity_over]
    exact .ite (.report _ _ rfl) (.pure id ())
  | error => exact .pure id ()
  | _ => exact .report _ _ rfl

theorem echoes_actionEntry (e : Expr) (h : e.walk ⊆ es) :
    Echoes L es id (actionEntry e) (actionEntry (e.spelled V.path)) := by
  cases e with
  | call t c ts as =>
    have hc := echoes_expr (L := L) c fun _ he => h (.tail _ (mem_append_left _ he))
    have has := echoes_exprs (L := L) as fun _ he => h (.tail _ (mem_append_right _ he))
    simp only [Expr.spelled, actionEntry_call, Expr.length_spelleds]
    exact hc.bind fun ty => has.bind fun _ => (echoes_entryFault t c _ ty).bind fun _ =>
      echoes_setType t.id .void
  | _ => exact (echoes_expr _ h).bind fun _ => .pure id ()

theorem echoes_actionEntries (as : List Expr) (h : Expr.walks as ⊆ es) :
    Echoes L es id (actionEntries as) (actionEntries (Expr.spelleds V.path as)) := by
  induction as with
  | nil => exact .pure id ()
  | cons a as ih =>
    exact (echoes_actionEntry a fun e he => h (mem_append_left _ he)).bind fun _ =>
      ih fun e he => h (mem_append_right _ he)

theorem echoes_keys (ks : List Key) (h : Expr.walks (ks.map (·.expr)) ⊆ es) :
    Echoes L es id (keys ks) (keys (ks.map (Key.spelled V.path))) := by
  induction ks with
  | nil => exact .pure id ()
  | cons k ks ih =>
    exact (echoes_expr k.expr fun e he => h (mem_append_left _ he)).bind fun _ =>
      ih fun e he => h (mem_append_right _ he)

theorem echoes_condition (t : Tag) (e : Expr) (h : e.walk ⊆ es) :
    Echoes L es id (condition t e) (condition t (e.spelled V.path)) := by
  refine (echoes_expr e h).bind fun ty => ?_
  rw [Ty.isBool_over, Ty.isError_over]
  exact .ite (.report _ _ rfl) (.pure id ())

theorem echoes_assign (t : Tag) (l r : Expr) (hl : l.walk ⊆ es) (hr : r.walk ⊆ es) :
    Echoes L es id (assign t l r) (assign t (l.spelled V.path) (r.spelled V.path)) := by
  refine (echoes_expr l hl).bind fun lt => (echoes_expr r hr).bind fun rt => ?_
  simp only [Expr.id_spelled, Expr.span_spelled, Ty.isError_over]
  exact (echoes_isLeftValue (mem_map_of_mem (hl l.self_mem_walk))).bind fun _ =>
    .ite (.report_bind _ _ rfl fun _ => quiet_expect _ _ _) (echoes_expect lt rt _)

theorem echoes_initialised (h : Head) (hid : h'.id = h.id) (hspan : h'.span = h.span)
    (ty : TypeExpr) (e : Option Expr) (he : Expr.walks e.toList ⊆ es) :
    Echoes L es id (initialised h ty e) (initialised h' ty (e.map (Expr.spelled V.path))) := by
  unfold initialised
  rw [hid, hspan]
  refine (echoes_resolveType ty h.span).bind fun declared => ?_
  cases e with
  | none => exact echoes_setType h.id declared
  | some e =>
    simp only [Option.map_some, Expr.span_spelled]
    exact (echoes_expr e fun x hx => he (mem_append_left _ hx)).bind fun found =>
      (echoes_expect declared found _).bind fun _ => echoes_setType h.id declared

theorem echoes_fieldTypes (sp : Option Span) (fs : List Field) :
    Echoes L es id (fieldTypes sp fs) (fieldTypes sp fs) := by
  induction fs with
  | nil => exact .pure id ()
  | cons f fs ih => exact (echoes_resolveType _ _).bind fun _ => ih

theorem echoes_externMethods (tps : List String) (ms : List Method) :
    Echoes L es id (externMethods tps ms) (externMethods tps ms) := by
  induction ms with
  | nil => exact .pure id ()
  | cons m ms ih => exact (echoes_externMethodType _ _).bind fun _ => ih

end Check

end MatchAction
