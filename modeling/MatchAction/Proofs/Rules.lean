import MatchAction.Tree.Walk
import MatchAction.Typing.Check

namespace MatchAction

open List hiding modify

section

variable (D : Decl → Prop) (E : Prop)

def Referent.Made : Referent → Prop
  | .decl d => D d
  | .param _ => True

mutual
def Ty.Made : Ty → Prop
  | .decl d as => D d ∧ Ty.AllMade as
  | .stack e _ => e.Made
  | .method s => s.Made
  | .table d => D d
  | .applyResult d => D d
  | .actionEnum d => D d
  | .error => E
  | _ => True
def Ty.AllMade : List Ty → Prop
  | [] => True
  | t :: ts => t.Made ∧ Ty.AllMade ts
def Signature.Made : Signature → Prop
  | .mk _ ps r => ParamTy.AllMade ps ∧ r.Made
def ParamTy.AllMade : List ParamTy → Prop
  | [] => True
  | .mk _ _ t :: ps => t.Made ∧ ParamTy.AllMade ps
end

def Bindings.Made (b : Bindings) : Prop := ∀ x ∈ b, x.2.Made D E

end

variable {b : Bindings} {t : Ty}

section

variable {D : Decl → Prop} {E : Prop}

theorem Bindings.Made.get? (h : b.Made D E)
    (ht : b.get? n = some t) : t.Made D E := by
  induction b with
  | nil => cases ht
  | cons x b ih =>
    obtain ⟨k, v⟩ := x
    rw [Bindings.get?, lookup_cons] at ht
    split at ht
    · cases ht
      exact h _ (.head _)
    · exact ih (fun x hx => h x (.tail _ hx)) ht

theorem Bindings.Made.insert (h : b.Made D E) (n : String)
    (ht : t.Made D E) : (b.insert n t).Made D E :=
  forall_mem_cons.2 ⟨ht, fun x hx => h x (mem_filter.1 hx).1⟩

mutual
theorem Ty.Made.subst (hb : b.Made D E) : (t : Ty) → t.Made D E →
    (t.subst b).Made D E
  | .param n, h => by
    rw [Ty.subst]
    cases hn : b.get? n with
    | none => exact h
    | some t => exact hb.get? hn
  | .decl d as, h => ⟨h.1, Ty.AllMade.substs hb as h.2⟩
  | .stack e n, h => Ty.Made.subst hb e h
  | .method s, h => Signature.Made.subst hb s h
  | .bool, h | .bits .., h | .int, h | .void, h | .table _, h | .applyResult _, h | .actionEnum _, h
  | .error, h => h
theorem Ty.AllMade.substs (hb : b.Made D E) : (ts : List Ty) → Ty.AllMade D E ts →
    Ty.AllMade D E (Ty.substs b ts)
  | [], h => h
  | t :: ts, h => ⟨Ty.Made.subst hb t h.1, Ty.AllMade.substs hb ts h.2⟩
theorem Signature.Made.subst (hb : b.Made D E) : (s : Signature) → s.Made D E →
    (s.subst b).Made D E
  | .mk _ ps r, h => ⟨ParamTy.AllMade.substs hb ps h.1, Ty.Made.subst hb r h.2⟩
theorem ParamTy.AllMade.substs (hb : b.Made D E) : (ps : List ParamTy) →
    ParamTy.AllMade D E ps → ParamTy.AllMade D E (ParamTy.substs b ps)
  | [], h => h
  | .mk _ _ t :: ps, h => ⟨Ty.Made.subst hb t h.1, ParamTy.AllMade.substs hb ps h.2⟩
end

mutual
theorem Bindings.Made.unify {b : Bindings} (hb : b.Made D E) : (t u : Ty) → u.Made D E →
    (t.unify u b).Made D E := by
  intro t u hu
  unfold Ty.unify
  split
  · split
    · exact hb
    · exact hb.insert _ hu
  · exact Bindings.Made.unifies hb _ _ hu.2
  · exact Bindings.Made.unify hb _ _ hu
  · exact hb
theorem Bindings.Made.unifies {b : Bindings} (hb : b.Made D E) : (ts us : List Ty) →
    Ty.AllMade D E us → (Ty.unifies ts us b).Made D E
  | t :: ts, u :: us, h => Bindings.Made.unifies (Bindings.Made.unify hb t u h.1) ts us h.2
  | [], _, _ => hb
  | _ :: _, [], _ => hb
end

theorem BuiltIn.made_signature (b : BuiltIn) : b.signature.Made D E := by
  cases b <;> simp [BuiltIn.signature, Signature.Made, ParamTy.AllMade, Ty.Made]

theorem made_zip {ns : List String} {ts : List Ty} (hts : Ty.AllMade D E ts)
    (hb : b.Made D E) :
    Bindings.Made D E ((ns.zip ts).foldl (fun b (n, t) => b.insert n t) b) := by
  induction ns generalizing ts b with
  | nil => exact hb
  | cons n ns ih =>
    cases ts with
    | nil => exact hb
    | cons t ts => exact ih hts.2 (hb.insert n hts.1)

theorem made_unifyAll (hts : Ty.AllMade D E ts)
    (hb : b.Made D E) : (Check.unifyAll ps ts b).Made D E := by
  induction ps generalizing ts b with
  | nil => exact hb
  | cons p ps ih =>
    cases ts with
    | nil => exact hb
    | cons t ts => exact ih hts.2 (hb.unify p.type t hts.1)

end

def Visit.isInert : Visit → Bool
  | .expr (.path ..) | .expr (.construct ..) => false
  | .expr _ | .key _ => true
  | _ => false

def TypeFault.isNaming : TypeFault → Bool
  | .unresolvedName .. | .duplicate .. => true
  | _ => false

namespace Check

variable {α β : Type}

@[simp] theorem pure_apply (a : α) (c : Checker) : (pure a : Check α) c = (a, c) := rfl

@[simp] theorem bind_apply (x : Check α) (f : α → Check β) (c : Checker) :
    (x >>= f) c = f (x c).1 (x c).2 := rfl

abbrev Any (_ : α) : Prop := True

/-- What steps may build types from, which parameters and methods they may type on the way, and for
which nodes they may mark left values and bind type parameters. What a declaration offers to its
uses is allowed with it. -/
structure Allowed where
  decl : Decl → Prop
  error : Prop
  param : Param → Prop
  method : Method → Prop
  left : NodeId → Prop
  bound : NodeId → Prop
  action {h ps b q} : decl (.action h ps b) → q ∈ ps → param q
  control {h tps ps cps ls b q} : decl (.control h tps ps cps ls b) → q ∈ ps → param q
  externFn {h m} : decl (.externFn h m) → method m
  externType {h tps cs ms m} : decl (.externType h tps cs ms) → m ∈ ms → method m

namespace Allowed

abbrev types (D : Decl → Prop) (E : Prop) : Allowed :=
  ⟨D, E, fun _ => True, fun _ => True, fun _ => True, fun _ => True, fun _ _ => trivial,
    fun _ _ => trivial, fun _ => trivial, fun _ _ => trivial⟩

variable (M : Allowed)

abbrev Fits : Ty → Prop := Ty.Made M.decl M.error

abbrev Signs : Signature → Prop := Signature.Made M.decl M.error

abbrev Binds : Bindings → Prop := Bindings.Made M.decl M.error

end Allowed

section

variable (M : Allowed) (K : (α : Type) → Prop → (α → Prop) → Check α → Prop)

/-- `K P Q x`, read as "given `P`, the step `x` does right and has a result of `Q`", holds of the
steps that read written types. -/
structure TypeRules : Prop where
  pure {α : Type} {P : Prop} {Q : α → Prop} {a : α} : (P → Q a) → K α P Q (Pure.pure a)
  bind {α β : Type} {P : Prop} {Q : α → Prop} {Q' : β → Prop} {x : Check α} {f : α → Check β} :
    K α P Q x → (∀ a, K β (P ∧ Q a) Q' (f a)) → K β P Q' (x >>= f)
  resolveType {P : Prop} (t : TypeExpr) (sp : Option Span) : K Ty P M.Fits (resolveType t sp)
  paramType {P : Prop} {q : Param} : (P → M.param q) → K Ty P M.Fits (paramType q)

structure Rules : Prop extends TypeRules M K where
  methodType {P : Prop} {m : Method} : (P → M.method m) → K Signature P M.Signs (methodType m)
  externMethodType {P : Prop} (tps : List String) {m : Method} :
    (P → M.method m) → K Signature P M.Signs (externMethodType tps m)
  report {P : Prop} (f : TypeFault) (sp : Option Span) :
    f.isNaming = false → K Unit P Any (report f sp)
  fail {P : Prop} (f : TypeFault) (sp : Option Span) :
    f.isNaming = false → K Ty P M.Fits (Check.report f sp >>= fun _ => Pure.pure Ty.error)
  typeOf? {P : Prop} (i : NodeId) :
    K (Option Ty) P (fun t => ∀ u, t = some u → M.Fits u) (typeOf? i)
  isLeftValue {P : Prop} (i : NodeId) : K Bool P Any (isLeftValue i)
  setLeftValue {P : Prop} {i : NodeId} : M.left i → K Unit P Any (setLeftValue i)
  setBindings {P : Prop} {i : NodeId} (b : Bindings) : M.bound i →
    K Unit P Any (modify fun c => { c with types := c.types.setBindings i b })

end

variable {M : Allowed} {K : (α : Type) → Prop → (α → Prop) → Check α → Prop} {P : Prop}

theorem ite_rule {p : Prop} [Decidable p] {Q : α → Prop} {x y : Check α} (hx : K α P Q x)
    (hy : K α P Q y) : K α P Q (if p then x else y) := by
  split
  · exact hx
  · exact hy

namespace TypeRules

variable (R : TypeRules M K)

include R

theorem paramTypes {ps : List Param} (hps : P → ∀ q ∈ ps, M.param q) :
    K _ P (ParamTy.AllMade M.decl M.error) (paramTypes ps) := by
  induction ps generalizing P with
  | nil => exact R.pure fun _ => trivial
  | cons p ps ih =>
    exact R.bind (R.paramType fun h => hps h p (.head _)) fun _ =>
      R.bind (ih fun h q hq => hps h.1 q (.tail _ hq)) fun _ => R.pure fun h => ⟨h.1.2, h.2⟩

theorem actionType {ps : List Param} (hps : P → ∀ q ∈ ps, M.param q) :
    K _ P M.Signs (actionType ps) :=
  R.bind (R.paramTypes hps) fun _ => R.pure fun h => ⟨h.2, trivial⟩

section

variable (hw : ∀ {α : Type} {P : Prop} {Q : α → Prop} {x : Check α} (names : List String),
  K α P Q x → K α P Q (withTypeParams names x))

include hw

theorem methodType {m : Method} (hm : P → ∀ q ∈ m.params, M.param q) :
    K _ P M.Signs (methodType m) :=
  hw _ <| R.bind (R.paramTypes hm) fun _ => R.bind (R.resolveType _ _) fun _ =>
    R.pure fun h => ⟨h.1.2, h.2⟩

theorem externMethodType (tps : List String) {m : Method} (hm : P → ∀ q ∈ m.params, M.param q) :
    K _ P M.Signs (externMethodType tps m) :=
  R.bind (hw tps (R.methodType hw hm)) fun s => R.pure fun h => by
    obtain ⟨tps', ps, r⟩ := s
    exact h.2

end

theorem fieldTypes (sp : Option Span) (fs : List Field) : K _ P Any (fieldTypes sp fs) := by
  induction fs generalizing P with
  | nil => exact R.pure fun _ => trivial
  | cons f fs ih => exact R.bind (R.resolveType _ _) fun _ => ih

theorem bindWritten (sp : Option Span) (ns : List String) (ts : List TypeExpr) {b : Bindings}
    (hb : P → M.Binds b) : K _ P M.Binds (bindWritten sp ns ts b) := by
  induction ns generalizing P ts b with
  | nil => exact R.pure hb
  | cons n ns ih =>
    cases ts with
    | nil => exact R.pure hb
    | cons t ts =>
      exact R.bind (R.resolveType _ _) fun ty => ih ts fun h => (hb h.1).insert n h.2

end TypeRules

namespace Rules

variable (R : Rules M K) {t : Tag}

include R

theorem externMethods (tps : List String) {ms : List Method} (hms : P → ∀ m ∈ ms, M.method m) :
    K _ P Any (externMethods tps ms) := by
  induction ms generalizing P with
  | nil => exact R.pure fun _ => trivial
  | cons m ms ih =>
    exact R.bind (R.externMethodType _ fun h => hms h m (.head _)) fun _ =>
      ih fun h m hm => hms h.1 m (.tail _ hm)

theorem constructorArity (d : Decl) (n : Nat) (sp : Option Span) :
    K _ P Any (constructorArity d n sp) := by
  unfold Check.constructorArity
  split
  · exact R.pure fun _ => trivial
  · exact ite_rule (R.pure fun _ => trivial) (R.report _ _ rfl)

theorem declaredType (hE : M.error) (i : NodeId) : K _ P M.Fits (declaredType i) :=
  R.bind (R.typeOf? i) fun t => R.pure fun h => by
    cases t with
    | none => exact hE
    | some t => exact h.2 t rfl

theorem referentType (hE : M.error) (ht : M.left t.id) {r : Referent} (hr : P → r.Made M.decl) :
    K _ P M.Fits (referentType t r) := by
  have hleft : ∀ i, K _ P M.Fits (Check.setLeftValue t.id >>= fun _ => Check.declaredType i) :=
    fun i => R.bind (R.setLeftValue ht) fun _ => R.declaredType hE i
  cases r with
  | param p => exact ite_rule (hleft _) (R.declaredType hE _)
  | decl d =>
    cases d with
    | var h ty e => exact hleft _
    | const h ty e => exact R.declaredType hE _
    | inst h ty as => exact R.declaredType hE _
    | action h ps b =>
      exact R.bind (R.actionType fun h _ => M.action (hr h)) fun _ => R.pure And.right
    | externFn h m =>
      exact R.bind (R.methodType fun h => M.externFn (hr h)) fun _ => R.pure And.right
    | table h ks as d => exact R.pure hr
    | _ => exact R.pure fun h => ⟨hr h, trivial⟩

theorem expect (t u : Ty) (sp : Option Span) : K _ P Any (expect t u sp) :=
  ite_rule (R.pure fun _ => trivial) (R.report _ _ rfl)

theorem inheritLeftValue (b : NodeId) (ht : M.left t.id) : K _ P Any (inheritLeftValue b t.id) :=
  R.bind (R.isLeftValue b) fun _ => ite_rule (R.setLeftValue ht) (R.pure fun _ => trivial)

theorem fieldType (ht : M.left t.id) (b : NodeId) (ty : Ty) (isHeader : Bool) (fs : List Field)
    (n : String) : K _ P M.Fits (fieldType t b ty isHeader fs n) := by
  unfold Check.fieldType
  split
  · exact R.bind (R.inheritLeftValue _ ht) fun _ => R.resolveType _ _
  · split
    · exact ite_rule (R.pure fun _ => BuiltIn.made_signature _) (R.fail _ _ rfl)
    · exact R.fail _ _ rfl

theorem methodMember (t : Tag) (ty : Ty) (tps : List String) {ms : List Method}
    (hms : P → ∀ m ∈ ms, M.method m) (n : String) (arity : Option Nat) :
    K _ P M.Fits (methodMember t ty tps ms n arity) := by
  have hmethod : ∀ m ∈ ms, K _ P M.Fits
      (Check.externMethodType tps m >>= fun s => Pure.pure (Ty.method s)) := fun m hm =>
    R.bind (R.externMethodType tps fun h => hms h m hm) fun _ => R.pure And.right
  unfold Check.methodMember
  split
  · split
    · rename_i m hm
      exact hmethod m (mem_of_find?_eq_some hm)
    · exact R.fail _ _ rfl
    · exact R.fail _ _ rfl
  · split
    · rename_i m hm
      exact hmethod m (mem_of_find?_eq_some hm)
    · exact R.fail _ _ rfl

theorem stackMember (ht : M.left t.id) (b : NodeId) {e : Ty} (he : P → M.Fits e) (k : Nat)
    (n : String) : K _ P M.Fits (stackMember t b e k n) := by
  unfold Check.stackMember
  split <;> first
    | exact R.pure fun _ => trivial
    | exact R.pure fun _ => BuiltIn.made_signature _
    | exact R.fail _ _ rfl
    | exact R.bind (R.inheritLeftValue _ ht) fun _ => R.pure fun h => he h.1

variable {ty : Ty}

theorem member (ht : M.left t.id) (b : NodeId) (hty : P → M.Fits ty) (n : String)
    (arity : Option Nat) : K _ P M.Fits (member t b ty n arity) := by
  unfold Check.member
  split
  · exact R.pure hty
  · exact R.fieldType ht _ _ _ _ _
  · exact R.fieldType ht _ _ _ _ _
  · exact R.methodMember _ _ _ (fun h _ => M.externType (hty h).1) _ _
  · exact ite_rule (R.bind (R.actionType fun h _ => M.control (hty h).1) fun _ => R.pure And.right)
      (R.fail _ _ rfl)
  · exact ite_rule (R.pure fun h => ⟨trivial, hty h⟩) (R.fail _ _ rfl)
  · split
    · exact R.pure fun _ => trivial
    · exact R.pure fun _ => trivial
    · exact R.pure hty
    · exact R.fail _ _ rfl
  · exact R.stackMember ht b (fun h => by exact hty h) _ _
  · exact R.fail _ _ rfl

theorem index (ht : M.left t.id) (b : NodeId) (hty : P → M.Fits ty) :
    K _ P M.Fits (index t b ty) := by
  unfold Check.index
  split
  · exact R.bind (R.inheritLeftValue _ ht) fun _ => R.pure fun h => hty h.1
  · exact R.pure hty
  · exact R.fail _ _ rfl

theorem receiverBindings (e : Expr) : K _ P M.Binds (receiverBindings e) := by
  unfold Check.receiverBindings
  split
  · refine R.bind (R.typeOf? _) fun ty => ?_
    split
    · exact R.pure fun h => made_zip (h.2 _ rfl).2 nofun
    · exact R.pure fun _ => nofun
  · exact R.pure fun _ => nofun

theorem arguments (sp : Option Span) (b : Bindings) (ps : List ParamTy) (as : List Expr)
    (ts : List Ty) : K _ P Any (arguments sp b ps as ts) := by
  induction ps generalizing P as ts with
  | nil => exact R.pure fun _ => trivial
  | cons p ps ih =>
    cases as with
    | nil => exact R.pure fun _ => trivial
    | cons a as =>
      cases ts with
      | nil => exact R.pure fun _ => trivial
      | cons t ts =>
        have hrest : ∀ {P : Prop}, K _ P Any (Check.expect (p.type.subst b) t (a.span.or sp) >>=
            fun _ => Check.arguments sp b ps as ts) :=
          R.bind (R.expect _ t _) fun _ => ih as ts
        exact R.bind (R.isLeftValue _) fun v =>
          ite_rule (R.bind (R.report _ _ rfl) fun _ => hrest) hrest

theorem call (ht : M.bound t.id) (e : Expr) (hty : P → M.Fits ty) (ts : List TypeExpr)
    (as : List Expr) {tys : List Ty} (htys : P → Ty.AllMade M.decl M.error tys) :
    K _ P M.Fits (call t e ty ts as tys) := by
  unfold Check.call
  split
  · rename_i sig
    refine ite_rule (R.fail _ _ rfl) (R.bind (R.receiverBindings e) fun b =>
      R.bind (R.bindWritten _ _ _ And.right) fun b' => R.bind (R.arguments _ _ _ _ _) fun _ => ?_)
    have hret : ((P ∧ M.Binds b) ∧ M.Binds b') ∧ Any () →
        M.Fits (sig.ret.subst (unifyAll sig.params tys b')) := by
      rintro ⟨⟨⟨hP, -⟩, hb'⟩, -⟩
      obtain ⟨tps, ps, r⟩ := sig
      exact Ty.Made.subst (made_unifyAll (htys hP) hb') r (hty hP).2
    exact ite_rule (R.bind (R.setBindings _ ht) fun _ => R.pure fun h => hret h.1) (R.pure hret)
  · exact R.pure hty
  · exact R.fail _ _ rfl

end Rules

def callee (k : Nat) : Expr → Check Ty
  | .member t b n => typed t do
    let ty ← expr b
    member t b.id ty n (some k)
  | e => expr e

theorem expr_call (t : Tag) (c : Expr) (ts : List TypeExpr) (as : List Expr) :
    expr (.call t c ts as) = typed t (callee as.length c >>= fun ty => exprs as >>= fun tys =>
      call t c ty ts as tys) := by
  cases c <;> rfl

def entryFault (t : Tag) (c : Expr) (k : Nat) : Ty → Check Unit
  | .method sig => if sig.arity < k then report (.argumentCount (calleeName c) sig.arity k) t.span
      else pure ()
  | .error => pure ()
  | other => report (.notCallable other) c.span

theorem actionEntry_call (t : Tag) (c : Expr) (ts : List TypeExpr) (as : List Expr) :
    actionEntry (.call t c ts as) = (expr c >>= fun ct => exprs as >>= fun _ =>
      entryFault t c as.length ct >>= fun _ => setType t.id .void) := by
  simp only [actionEntry]
  refine congrArg _ (funext fun ct => congrArg _ (funext fun _ => ?_))
  cases ct with
  | method sig =>
    simp only [entryFault]
    split <;> rfl
  | _ => rfl

/-- `H P Q vs x`, read as "given `P`, the step `x` goes over the nodes `vs` and has a result of
`Q`", holds of walks over expressions whose nodes are all of `V`. -/
structure ExprRules (M : Allowed) (V : NodeId → Prop)
    (K : (α : Type) → Prop → (α → Prop) → Check α → Prop)
    (H : (α : Type) → Prop → (α → Prop) → List Visit → Check α → Prop) :
      Prop extends Rules M K where
  left {i : NodeId} : V i → M.left i
  bound {i : NodeId} : V i → M.bound i
  setType {P : Prop} {i : NodeId} {t : Ty} : V i → (P → M.Fits t) → K Unit P Any (setType i t)
  step {α : Type} {P : Prop} {Q : α → Prop} {x : Check α} : K α P Q x → H α P Q [] x
  seq {α β : Type} {P : Prop} {Q : α → Prop} {Q' : β → Prop} {vs ws : List Visit} {x : Check α}
    {f : α → Check β} : H α P Q vs x → (∀ a, H β (P ∧ Q a) Q' ws (f a)) →
      H β P Q' (vs ++ ws) (x >>= f)
  node {α : Type} {P : Prop} {Q : α → Prop} {vs : List Visit} {x : Check α} {v : Visit} :
    v.isInert = true → H α P Q vs x → H α P Q (v :: vs) x
  path {P : Prop} {t : Tag} (n : String) : V t.id → H Ty P M.Fits [.expr (.path t n)] (path t n)
  construct {α : Type} {P : Prop} {Q : α → Prop} {vs : List Visit} {y : Check α} (t : Tag)
    (ty : TypeExpr) (as : List Expr) : (∀ {P : Prop}, H α P Q vs y) →
      H Ty P M.Fits (.expr (.construct t ty as) :: vs) (Check.resolveType ty t.span >>=
        fun target =>
        y >>= fun _ => instantiate t.id target as.length t.span >>= fun _ => Pure.pure target)

namespace ExprRules

variable {V : NodeId → Prop} {H : (α : Type) → Prop → (α → Prop) → List Visit → Check α → Prop}

section

variable (R : ExprRules M V K H) {Q : α → Prop} {Q' : β → Prop} {vs : List Visit}

include R

theorem seq_step {x : Check α} {f : α → Check β} (hx : H α P Q vs x)
    (hf : ∀ a, K β (P ∧ Q a) Q' (f a)) : H β P Q' vs (x >>= f) := by
  have h := R.seq hx fun a => R.step (hf a)
  rwa [append_nil] at h

theorem step_seq {x : Check α} {f : α → Check β} (hx : K α P Q x)
    (hf : ∀ a, H β (P ∧ Q a) Q' vs (f a)) : H β P Q' vs (x >>= f) := by
  have h := R.seq (R.step hx) hf
  exact h

theorem typed {t : Tag} {x : Check Ty} (ht : V t.id) (hx : H Ty P M.Fits vs x) :
    H Ty P M.Fits vs (typed t x) :=
  R.seq_step hx fun _ => R.bind (R.setType ht And.right) fun _ => R.pure fun h => h.1.2

end

mutual
theorem expr (R : ExprRules M V K H) : (e : Expr) → (∀ x ∈ e.walk, V x.id) → ∀ {P : Prop},
    H Ty P M.Fits e.visits (expr e)
  | .lit t n ty, h, _ => R.node rfl (R.typed (h _ (.head _)) (R.step (R.resolveType ty t.span)))
  | .bool t b, h, _ => R.node rfl (R.typed (h _ (.head _)) (R.step (R.pure fun _ => trivial)))
  | .path t n, h, _ => R.typed (h _ (.head _)) (R.path n (h _ (.head _)))
  | .member t b n, h, _ => R.node rfl <| R.typed (h _ (.head _)) <|
      R.seq_step (expr R b fun x hx => h x (.tail _ hx)) fun _ =>
        R.member (R.left (h _ (.head _))) _ And.right n none
  | .index t b i, h, _ => by
    rw [Expr.visits, Expr.walk, map_cons, map_append]
    exact R.node rfl <| R.typed (h _ (.head _)) <|
      R.seq (expr R b fun x hx => h x (.tail _ (mem_append_left _ hx))) fun _ =>
        R.seq_step (expr R i fun x hx => h x (.tail _ (mem_append_right _ hx))) fun _ =>
          R.index (R.left (h _ (.head _))) _ fun h => h.1.2
  | .call t c ts as, h, P => by
    have hcallee : ∀ x ∈ c.walk, V x.id := fun x hx => h x (.tail _ (mem_append_left _ hx))
    have hc : H Ty P M.Fits c.visits (callee as.length c) := by
      cases c with
      | member mt b n =>
        exact R.node rfl <| R.typed (hcallee _ (.head _)) <|
          R.seq_step (expr R b fun x hx => hcallee x (.tail _ hx)) fun _ =>
            R.member (R.left (hcallee _ (.head _))) _ And.right n _
      | _ => exact expr R _ hcallee
    rw [expr_call, Expr.visits, Expr.walk, map_cons, map_append]
    exact R.node rfl <| R.typed (h _ (.head _)) <| R.seq hc fun _ =>
      R.seq_step (exprs R as fun x hx => h x (.tail _ (mem_append_right _ hx))) fun _ =>
        R.call (R.bound (h _ (.head _))) c (fun h => h.1.2) ts as And.right
  | .construct t ty as, h, _ => R.typed (h _ (.head _)) <|
      R.construct t ty as (exprs R as fun x hx => h x (.tail _ hx))
  | .unary t op e, h, _ => R.node rfl <| R.typed (h _ (.head _)) <|
      R.seq_step (expr R e fun x hx => h x (.tail _ hx)) fun _ => R.pure fun hty => by
        cases op <;> first | exact hty.2 | trivial
  | .binary t op l r, h, _ => by
    rw [Expr.visits, Expr.walk, map_cons, map_append]
    exact R.node rfl <| R.typed (h _ (.head _)) <|
      R.seq (expr R l fun x hx => h x (.tail _ (mem_append_left _ hx))) fun _ =>
        R.seq_step (expr R r fun x hx => h x (.tail _ (mem_append_right _ hx))) fun _ =>
          R.pure fun hty => by
            unfold binaryType
            split
            · trivial
            · split
              · exact hty.2
              · exact hty.1.2
theorem exprs (R : ExprRules M V K H) : (es : List Expr) → (∀ x ∈ Expr.walks es, V x.id) →
    ∀ {P : Prop}, H _ P (Ty.AllMade M.decl M.error) ((Expr.walks es).map .expr) (exprs es)
  | [], _, _ => R.step (R.pure fun _ => trivial)
  | e :: es, h, _ => by
    rw [Expr.walks, map_append]
    exact R.seq (expr R e fun x hx => h x (mem_append_left _ hx)) fun _ =>
      R.seq_step (exprs R es fun x hx => h x (mem_append_right _ hx)) fun _ =>
        R.pure fun h => ⟨h.1.2, h.2⟩
end

variable (R : ExprRules M V K H)

include R

theorem expr? (e : Option Expr) (h : ∀ x ∈ Expr.walks e.toList, V x.id) :
    H _ P Any (Expr.visits? e) (expr? e) := by
  cases e with
  | none => exact R.step (R.pure fun _ => trivial)
  | some e =>
    exact R.seq_step (R.expr e fun x hx => h x (mem_append_left _ hx)) fun _ =>
      R.pure fun _ => trivial

theorem actionEntry (e : Expr) (h : ∀ x ∈ e.walk, V x.id) : H _ P Any e.visits (actionEntry e) := by
  cases e with
  | call t c ts as =>
    have hfault (ty : Ty) {P : Prop} : K _ P Any (entryFault t c as.length ty) := by
      cases ty with
      | method sig => exact ite_rule (R.report _ _ rfl) (R.pure fun _ => trivial)
      | error => exact R.pure fun _ => trivial
      | _ => exact R.report _ _ rfl
    rw [actionEntry_call, Expr.visits, Expr.walk, map_cons, map_append]
    exact R.node rfl <| R.seq (R.expr c fun x hx => h x (.tail _ (mem_append_left _ hx))) fun ty =>
      R.seq_step (R.exprs as fun x hx => h x (.tail _ (mem_append_right _ hx))) fun _ =>
        R.bind (hfault ty) fun _ => R.setType (h _ (.head _)) fun _ => trivial
  | _ => exact R.seq_step (R.expr _ h) fun _ => R.pure fun _ => trivial

theorem actionEntries (es : List Expr) (h : ∀ x ∈ Expr.walks es, V x.id) :
    H _ P Any ((Expr.walks es).map .expr) (actionEntries es) := by
  induction es generalizing P with
  | nil => exact R.step (R.pure fun _ => trivial)
  | cons e es ih =>
    rw [Expr.walks, map_append]
    exact R.seq (R.actionEntry e fun x hx => h x (mem_append_left _ hx)) fun _ =>
      ih fun x hx => h x (mem_append_right _ hx)

theorem keys (ks : List Key) (h : ∀ x ∈ Expr.walks (ks.map (·.expr)), V x.id) :
    H _ P Any (ks.flatMap Key.visits) (keys ks) := by
  induction ks generalizing P with
  | nil => exact R.step (R.pure fun _ => trivial)
  | cons k ks ih =>
    exact R.node rfl <| R.seq (R.expr k.expr fun x hx => h x (mem_append_left _ hx)) fun _ =>
      ih fun x hx => h x (mem_append_right _ hx)

theorem condition (t : Tag) (e : Expr) (h : ∀ x ∈ e.walk, V x.id) :
    H _ P Any e.visits (condition t e) :=
  R.seq_step (R.expr e h) fun _ => ite_rule (R.report _ _ rfl) (R.pure fun _ => trivial)

theorem assign (t : Tag) (l r : Expr) (hl : ∀ x ∈ l.walk, V x.id) (hr : ∀ x ∈ r.walk, V x.id) :
    H _ P Any (l.visits ++ r.visits) (assign t l r) :=
  R.seq (R.expr l hl) fun lt => R.seq_step (R.expr r hr) fun rt => R.bind (R.isLeftValue l.id)
    fun _ =>
    ite_rule (R.bind (R.report _ _ rfl) fun _ => R.expect lt rt _) (R.expect lt rt _)

theorem initialised {h : Head} (hh : V h.id) (ty : TypeExpr) (e : Option Expr)
    (he : ∀ x ∈ Expr.walks e.toList, V x.id) : H _ P Any (Expr.visits? e) (initialised h ty e) := by
  refine R.step_seq (R.resolveType ty h.span) fun declared => ?_
  cases e with
  | none => exact R.step (R.setType hh And.right)
  | some e =>
    exact R.seq_step (R.expr e fun x hx => he x (mem_append_left _ hx)) fun _ =>
      R.bind (R.expect _ _ _) fun _ => R.setType hh fun h => h.1.1.2

end ExprRules

end Check

end MatchAction
