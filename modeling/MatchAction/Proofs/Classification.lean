import MatchAction.Call
import MatchAction.Proofs.Equality
import MatchAction.Proofs.ErrorFree

namespace MatchAction

mutual
theorem Ty.subst_nil : (t : Ty) → t.subst [] = t
  | .param _ => rfl
  | .decl d as => congrArg (Ty.decl d) (Ty.substs_nil as)
  | .stack e n => congrArg (Ty.stack · n) (Ty.subst_nil e)
  | .method s => congrArg Ty.method (Signature.subst_nil s)
  | .bool | .bits .. | .int | .void | .table _ | .applyResult _ | .actionEnum _ | .error => rfl
theorem Ty.substs_nil : (ts : List Ty) → Ty.substs [] ts = ts
  | [] => rfl
  | t :: ts => by rw [Ty.substs, Ty.subst_nil t, Ty.substs_nil ts]
theorem Signature.subst_nil : (s : Signature) → s.subst [] = s
  | .mk tps ps r => by
    have htps : tps.filter (!Bindings.binds [] ·) = tps := List.filter_eq_self.2 fun _ _ => rfl
    rw [Signature.subst, htps, ParamTy.substs_nil ps, Ty.subst_nil r]
theorem ParamTy.substs_nil : (ps : List ParamTy) → ParamTy.substs [] ps = ps
  | [] => rfl
  | .mk n d t :: ps => by rw [ParamTy.substs, ParamTy.subst, Ty.subst_nil t, ParamTy.substs_nil ps]
end

theorem ParamTy.length_substs (b : Bindings) (ps : List ParamTy) :
    (ParamTy.substs b ps).length = ps.length := by
  induction ps with
  | nil => rfl
  | cons p ps ih => exact congrArg (· + 1) ih

@[simp] theorem Signature.arity_subst (b : Bindings) (s : Signature) :
    (s.subst b).arity = s.arity := by
  obtain ⟨tps, ps, r⟩ := s
  exact ParamTy.length_substs b ps

@[simp] theorem Signature.ret_subst (b : Bindings) (s : Signature) :
    (s.subst b).ret = s.ret.subst b := by
  obtain ⟨tps, ps, r⟩ := s
  rfl

def Decl.isExternFn : Decl → Bool
  | .externFn .. => true
  | _ => false

def Ty.isApplied : Ty → Bool
  | .table _ => true
  | .decl d _ => d.isControl
  | _ => false

def Ty.isExtern : Ty → Bool
  | .decl (.externType ..) _ => true
  | _ => false

inductive Offers : Ty → String → Nat → Prop
  | applied {ty : Ty} {k : Nat} (h : ty.isApplied = true) : Offers ty "apply" k
  | method {h : Head} {tps : List String} {cs ms : List Method} {args : List Ty} {n : String}
    {k : Nat} {m : Method} (hm : Method.find? ms n k = some m) :
    Offers (.decl (.externType h tps cs ms) args) n k
  | header {h : Head} {fs : List Field} {args : List Ty} {n : String} {k : Nat} {b : BuiltIn}
    (hb : BuiltIn.ofName? n = some b) (hs : b.onStack = false) :
    Offers (.decl (.header h fs) args) n k
  | stack {e : Ty} {size : Nat} {n : String} {k : Nat} {b : BuiltIn}
    (hb : BuiltIn.ofName? n = some b) (hs : b.onStack = true) : Offers (.stack e size) n k
  | element {e : Ty} {size : Nat} {n : String} {k : Nat} {sig : Signature}
    (he : e.signature? = some sig) : Offers (.stack e size) n k

variable {t : Tag} {n : String} {sig : Signature}

namespace Check

variable {b : NodeId}

theorem builtIn_of_fieldType
    (h : (fieldType t b ty isHeader fs n c).1.signature? = some sig) :
    isHeader = true ∧ ∃ o, BuiltIn.ofName? n = some o ∧ o.onStack = false := by
  unfold fieldType at h
  cases hf : fs.find? (·.name == n) with
  | some f =>
    rw [hf] at h
    have hnone : (resolveType f.type t.span (inheritLeftValue b t.id c).2).1.signature? = none :=
      Scopes.signature?_resolve f.type
    cases hnone.symm.trans h
  | none =>
    rw [hf] at h
    cases ho : BuiltIn.ofName? n with
    | none =>
      rw [ho] at h
      cases h
    | some o =>
      rw [ho] at h
      by_cases hcond : (isHeader && !o.onStack) = true
      · simp only [Bool.and_eq_true, Bool.not_eq_true'] at hcond
        exact ⟨hcond.1, o, rfl, hcond.2⟩
      · simp only [hcond] at h
        cases h

theorem offers_of_stackMember (k : Nat)
    (h : (stackMember t b e size n c).1.signature? = some sig) : Offers (.stack e size) n k := by
  unfold stackMember at h
  split at h
  · exact .element h
  · exact .element h
  · cases h
  · cases h
  · cases h
  · exact .stack (b := .pushFront) rfl rfl
  · exact .stack (b := .popFront) rfl rfl
  · cases h

theorem offers_of_member (h : (member t b ty n (some k) c).1.signature? = some sig) :
    Offers ty n k := by
  have happly : ∀ {x : Check Ty}, ty.isApplied = true →
      ((if n == "apply" then x else unknownMember t ty n : Check Ty) c).1.signature? = some sig →
        Offers ty n k := by
    intro x hty h
    by_cases hn : n = "apply"
    · exact hn ▸ .applied hty
    · rw [if_neg (by simpa using hn)] at h
      cases h
  unfold member at h
  split at h
  · cases h
  · obtain ⟨-, o, ho, hs⟩ := builtIn_of_fieldType h
    exact .header ho hs
  · exact absurd (builtIn_of_fieldType h).1 (by simp)
  · rename_i ms _
    unfold methodMember at h
    cases hm : Method.find? ms n k with
    | some m => exact .method hm
    | none => cases hn : Method.named? ms n <;> simp only [hm, hn] at h <;> cases h
  · exact happly rfl h
  · exact happly rfl h
  · split at h <;> cases h
  · exact offers_of_stackMember k h
  · cases h

variable {N : Nodes} {L : NodeId → Prop} {Entry : Expr → Prop}

theorem sets_callBindings (t : Tag) (f : Expr) (ts : List TypeExpr) (htys : Ty.AllClear N tys) :
    Sets N L (Bindings.Clear N) (callBindings t f sig ts tys) :=
  (sets_receiverBindings f).bind fun _ hb => (sets_bindWritten _ _ _ hb).bind fun _ hb' =>
    .pure (made_unifyAll htys hb')

theorem get?_note (hc : c.types.bindings.get? i = none) (b : Bindings) :
    ((note i b c).2.types.bindings.get? i).getD [] = b := by
  unfold note
  cases b with
  | nil =>
    rw [if_pos List.isEmpty_nil]
    exact congrArg (·.getD []) hc
  | cons x b =>
    rw [if_neg (by simp)]
    exact congrArg (·.getD []) ((NodeMap.get?_insert _ i i (x :: b)).trans (if_pos rfl))

theorem bindings_expr_call
    (h : Ready N Entry (Expr.call t f ts as).visits) (hc : c.Clear N)
    (hb : c.types.bindings.get? t.id = none)
    (hf : (callee as.length f c).1 = .method sig) (ha : sig.arity = as.length) :
    ∃ b, (expr (.call t f ts as) c).1 = sig.ret.subst b ∧
      ((expr (.call t f ts as) c).2.types.bindings.get? t.id).getD [] = b := by
  have hr := Expr.visits_call t f ts as ▸ h
  have hself : t.id ∉ nodeIds (f.visits ++ (Expr.walks as).map .expr) := hr.head_not_mem rfl
  have hcallee := (runs_callee as.length hr.tail.left).sets
  have hargs := (runs_exprs as hr.tail.right).sets
  let c₁ := (callee as.length f c).2
  let c₂ := (exprs as c₁).2
  have hc₁ : c₁.Clear N := hcallee.clear hc
  have hc₂ : c₂.Clear N := hargs.clear hc₁
  let tys := (exprs as c₁).1
  let x := callBindings t f sig ts tys c₂
  have hbindings : Sets N (fun _ => False) (Bindings.Clear N) (callBindings t f sig ts tys) :=
    sets_callBindings t f ts (hargs.result hc₁)
  have hnone : (arguments t.span x.1 sig.params as tys x.2).2.types.bindings.get? t.id = none :=
    calc (arguments t.span x.1 sig.params as tys x.2).2.types.bindings.get? t.id
      _ = x.2.types.bindings.get? t.id :=
        (sets_arguments (L := fun _ => False) _ _ _ _ _).bound (hbindings.clear hc₂) id
      _ = c₂.types.bindings.get? t.id := hbindings.bound hc₂ id
      _ = c₁.types.bindings.get? t.id := hargs.bound hc₁ fun hi =>
        hself (nodeIds_subset (List.subset_append_right _ _) hi)
      _ = c.types.bindings.get? t.id := hcallee.bound hc fun hi =>
        hself (nodeIds_subset (List.subset_append_left _ _) hi)
      _ = none := hb
  have heq : expr (.call t f ts as) c = typed t (call t f (.method sig) ts as tys) c₂ := by
    rw [expr_call, ← hf]
    rfl
  rw [heq, call_method t f ts ha]
  exact ⟨x.1, rfl, get?_note hnone x.1⟩

theorem called_of_referentType
    (hv : r.isValue = true → ∀ T, c.types.get? r.id = some T → T.signature? = none)
    (h : (referentType t r c).1.signature? = some sig) :
    ∃ d, r = .decl d ∧ (d.isExternFn = true ∨ d.isAction = true) := by
  have hvalue : r.isValue = true → ((c.types.get? r.id).getD .error).signature? = none := by
    intro hr
    cases hT : c.types.get? r.id with
    | none => rfl
    | some T => exact hv hr T hT
  cases r with
  | param q =>
    have hnone : (referentType t (.param q) c).1.signature? = none := by
      simp only [referentType]
      split <;> exact hvalue rfl
    cases hnone.symm.trans h
  | decl d =>
    cases d with
    | externFn => exact ⟨_, rfl, .inl rfl⟩
    | action => exact ⟨_, rfl, .inr rfl⟩
    | var => cases (hvalue rfl).symm.trans h
    | const => cases (hvalue rfl).symm.trans h
    | inst => cases (hvalue rfl).symm.trans h
    | _ => cases h

end Check

def Ty.hasOperations : Ty → Bool
  | .decl (.header ..) _ => true
  | .stack .. => true
  | _ => false

theorem Ty.eq_false_of_isApplied {T : Ty} (h : T.isApplied = true) :
    T.isExtern = false ∧ T.hasOperations = false := by
  cases T with
  | table d => exact ⟨rfl, rfl⟩
  | decl d as => cases d <;> first | exact ⟨rfl, rfl⟩ | cases h
  | _ => cases h

/-- The kind of a call, as the tables have it: a path decides by what it refers to, a member by the
type of its receiver. -/
def CallKind.Describes (c : Checked) (k : CallKind) : Expr → Prop
  | .path t _ => ∃ d, c.refs.decl? t.id = some d ∧
      (d.isExternFn = true ∧ k = .externFunction d ∨ d.isAction = true ∧ k = .action d)
  | .member _ b n => ∃ T, c.types.get? b.id = some T ∧
      ((∃ r d, k = .apply r d) ↔ T.isApplied = true ∧ n = "apply") ∧
      ((∃ r d m, k = .externMethod r d m) ↔ T.isExtern = true) ∧
      ((∃ o, k = .builtIn o b) ↔ T.isExtern = false ∧ ¬ (T.isApplied = true ∧ n = "apply"))
  | _ => False

def Expr.IsNamed (types : Types) : Expr → Prop
  | .path .. => True
  | .member _ (.path ..) _ => True
  | .member _ b _ => ∃ T, types.get? b.id = some T ∧ T.hasOperations = true
  | _ => False

/-- If what is called is a member of a stack, the elements of the stack are no methods. -/
def Expr.NoElement (types : Types) : Expr → Prop
  | .member _ b _ => ∀ e k, types.get? b.id = some (.stack e k) → e.signature? = none
  | _ => True

namespace Call

variable {c : Checked}

theorem describes_pathKind (hd : c.refs.decl? t.id = some d)
    (h : d.isExternFn = true ∨ d.isAction = true) (k : Nat) :
    ∃ kind : CallKind, calleeKind c.refs c.types (.path t n) k = .ok kind ∧
      kind.Describes c (.path t n) := by
  cases d with
  | externFn => exact ⟨_, by simp only [calleeKind, pathKind, hd], _, hd, .inl ⟨rfl, rfl⟩⟩
  | action => exact ⟨_, by simp only [calleeKind, pathKind, hd], _, hd, .inr ⟨rfl, rfl⟩⟩
  | _ => rcases h with h | h <;> cases h

theorem signature?_of_method
    (h : types.get? j = some (.method sig)) :
    signature? types i j = some (sig.subst ((types.bindings.get? i).getD [])) := by
  rw [signature?, h]
  cases types.bindings.get? i with
  | none => exact congrArg some sig.subst_nil.symm
  | some b => rfl

theorem describes_memberKind {b : Expr} {k : Nat} {T : Ty}
    (hT : c.types.get? b.id = some T) (ho : Offers T n k)
    (hr : T.hasOperations = true ∨ ∃ r, c.refs.get? b.id = some r)
    (he : ∀ e size, T = .stack e size → e.signature? = none) :
    ∃ kind : CallKind, calleeKind c.refs c.types (.member t b n) k = .ok kind ∧
      kind.Describes c (.member t b n) := by
  cases ho with
  | applied happlied =>
    obtain ⟨hno, hop⟩ := Ty.eq_false_of_isApplied happlied
    obtain ⟨r, hr⟩ := hr.resolve_left (by simp [hop])
    have hobject : object c.refs b = .ok r := by rw [object, hr]
    obtain ⟨d, hd⟩ : ∃ d, memberKind c.refs c.types b "apply" k = .ok (.apply r d) := by
      cases T with
      | table d => exact ⟨d, by simp only [memberKind, hT, hobject]; rfl⟩
      | decl d as =>
        cases d with
        | control => exact ⟨_, by simp only [memberKind, hT, hobject]; rfl⟩
        | _ => cases happlied
      | _ => cases happlied
    exact ⟨_, hd, T, hT, by simp [happlied], by simp [hno], by simp [happlied]⟩
  | @method h tps cs ms args _ _ m hm =>
    obtain ⟨r, hr⟩ := hr.resolve_left (by simp [Ty.hasOperations])
    have hkind : memberKind c.refs c.types b n k =
        .ok (.externMethod r (.externType h tps cs ms) m) := by
      simp only [memberKind, hT, hm, object, hr]
      rfl
    exact ⟨_, hkind, _, hT, by simp [Ty.isApplied, Decl.isControl], by simp [Ty.isExtern],
      by simp [Ty.isExtern]⟩
  | @header h fs args _ _ o hb hs =>
    have hkind : memberKind c.refs c.types b n k = .ok (.builtIn o b) := by
      simp only [memberKind, hT, builtIn?, hb, Option.filter, hs]
      rfl
    exact ⟨_, hkind, _, hT, by simp [Ty.isApplied, Decl.isControl], by simp [Ty.isExtern],
      by simp [Ty.isExtern, Ty.isApplied, Decl.isControl]⟩
  | @stack e size _ _ o hb hs =>
    have hkind : memberKind c.refs c.types b n k = .ok (.builtIn o b) := by
      simp only [memberKind, hT, builtIn?, hb, Option.filter, hs]
      rfl
    exact ⟨_, hkind, _, hT, by simp [Ty.isApplied], by simp [Ty.isExtern],
      by simp [Ty.isExtern, Ty.isApplied]⟩
  | element helem => cases (he _ _ rfl).symm.trans helem

end Call

namespace Program

variable {p : Program}

theorem get?_ref_of_path (hids : p.NodesApart) (herr : p.check.errors = [])
    (h : (sc, .expr (.path t n)) ∈ p.places) :
    ∃ r, sc.lookup n = some r ∧ p.check.refs.get? t.id = some r := by
  obtain ⟨r, hr⟩ := Option.isSome_iff_exists.1 (fine_of_errors herr _ h)
  exact ⟨r, hr, get?_refs_check hids.nodes h (by simp [Place.use?, hr])⟩

theorem exists_ref_of_path (hids : p.NodesApart) (herr : p.check.errors = [])
    (h : .expr (.path t n) ∈ p.visits) : ∃ r, p.check.refs.get? t.id = some r := by
  obtain ⟨sc, hpl⟩ := exists_place h
  obtain ⟨r, -, hr⟩ := get?_ref_of_path hids herr hpl
  exact ⟨r, hr⟩

theorem called_of_path (hids : p.NodesApart) (herr : p.check.errors = [])
    (h : .expr (.path t n) ∈ p.visits)
    (hT : p.check.types.get? t.id = some (.method sig)) :
    ∃ d, p.check.refs.decl? t.id = some d ∧ (d.isExternFn = true ∨ d.isAction = true) := by
  obtain ⟨sc, hpl⟩ := exists_place h
  obtain ⟨r, hl, hr⟩ := get?_ref_of_path hids herr hpl
  obtain ⟨c₀, c₁, hby⟩ := exists_checkedBy hids hpl rfl
  obtain ⟨rfl, rfl⟩ := hby.step.path
  have hfound : (Check.expr (.path t n) c₀).1 = .method sig := by
    have htype := (hby.types t.id (.head _)).symm.trans hT
    rw [show t.id = (Expr.path t n).id from rfl, Check.get?_expr] at htype
    exact Option.some.inj htype
  have hpath : (Check.expr (.path t n) c₀).1 =
      (Check.referentType t r (Check.refer t.id r c₀).2).1 := by
    change (Check.path t n c₀).1 = _
    rw [Check.path_of_lookup hl]
    rfl
  have hwritten : r.isValue = true → ∀ T, c₀.types.get? r.id = some T → T.signature? = none :=
    fun hv T hT => hby.clear.written (r.id, T) (NodeMap.mem_of_get? hT)
      ⟨r, (lookup_of_place hpl hl).2, hv, rfl⟩
  obtain ⟨d, rfl, hd⟩ := Check.called_of_referentType (c := (Check.refer t.id r c₀).2)
    hwritten (by rw [← hpath, hfound]; rfl)
  exact ⟨d, by rw [Refs.decl?, hr]; rfl, hd⟩

/-- A call is what the check took it for. -/
theorem classify_call (hids : p.NodesApart) (herr : p.check.errors = []) {t : Tag} {f : Expr}
    {ts : List TypeExpr} {as : List Expr} (hcall : .expr (.call t f ts as) ∈ p.visits)
    (hentry : ¬ p.IsEntry (.call t f ts as)) {T : Ty} (hT : p.check.types.get? f.id = some T)
    (hne : T ≠ .error) (hnamed : f.IsNamed p.check.types) (helem : f.NoElement p.check.types) :
    ∃ sig kind, T = .method sig ∧
      let own := sig.subst ((p.check.types.bindings.get? t.id).getD [])
      Call.classify p.check.refs p.check.types (.call t f ts as) = .ok ⟨kind, own, as⟩ ∧
        own.arity = as.length ∧ p.check.types.get? t.id = some own.ret ∧
        kind.Describes p.check f := by
  obtain ⟨sc, hpl⟩ := exists_place hcall
  obtain ⟨c₀, c₁, hby⟩ := exists_checkedBy hids hpl rfl
  obtain rfl := hby.step.call hentry
  have hsub : f.visits ⊆ (Expr.call t f ts as).visits := by
    rw [Expr.visits_call]
    exact List.subset_cons_of_subset _ (List.subset_append_left _ _)
  have hbelow : f.visits ⊆ p.visits := List.Subset.trans hsub hby.under
  obtain ⟨hf, has⟩ := Check.get?_call hby.ready hby.clear
  have hcallee : (Check.callee as.length f c₀).1 = T :=
    Option.some.inj (hf.symm.trans
      ((hby.types f.id (nodeIds_subset hsub f.id_mem_visits)).symm.trans hT))
  have herrors := hby.errors herr
  rw [Check.expr_call] at herrors
  obtain ⟨sig, hsig, harity, -⟩ := Check.method_of_call has (hcallee ▸ hne) herrors
  obtain ⟨b, hret, hbound⟩ := Check.bindings_expr_call hby.ready hby.clear
    (hby.unbound t.id (.head _)) hsig harity
  obtain rfl : T = .method sig := hcallee.symm.trans hsig
  have hself : t.id ∈ nodeIds (Expr.call t f ts as).visits := .head _
  have hb : (p.check.types.bindings.get? t.id).getD [] =
    b := by rw [hby.bindings t.id hself, hbound]
  have htype : p.check.types.get? t.id = some (sig.subst b).ret := by
    rw [hby.types t.id hself, Signature.ret_subst, ← hret]
    exact Check.get?_expr (.call t f ts as) c₀
  obtain ⟨kind, hkind, hdescribes⟩ : ∃ kind : CallKind,
      Call.calleeKind p.check.refs p.check.types f as.length = .ok kind ∧
        kind.Describes p.check f := by
    cases f with
    | path pt n =>
      obtain ⟨d, hd, hcalled⟩ := called_of_path hids herr (hbelow (.head _)) hT
      exact Call.describes_pathKind hd hcalled as.length
    | member mt r n =>
      have hready := hby.ready
      rw [Visit.under, Expr.visits_call] at hready
      have hr : p.check.types.get? r.id = some (Check.expr r c₀).1 := by
        have hmem : r.id ∈ nodeIds (Expr.member mt r n).visits := .tail _ r.id_mem_visits
        rw [hby.types r.id (nodeIds_subset hsub hmem), Check.frame_callee hby.ready hby.clear hmem]
        exact Check.get?_receiver hready.tail.left hby.clear (some as.length)
      refine Call.describes_memberKind hr (Check.offers_of_member (c := (Check.expr r c₀).2)
        (congrArg Ty.signature? hcallee)) ?_ fun e k he => helem e k (he ▸ hr)
      cases r with
      | path rt m =>
        obtain ⟨x, hx⟩ := exists_ref_of_path hids herr (hbelow (.tail _ (.head _)))
        exact .inr ⟨x, hx⟩
      | _ =>
        obtain ⟨T, hT, hop⟩ := hnamed
        exact .inl (Option.some.inj (hT.symm.trans hr) ▸ hop)
    | _ => exact hnamed.elim
  refine ⟨sig, kind, rfl, ?_⟩
  rw [hb]
  refine ⟨?_, by rw [Signature.arity_subst, harity], htype, hdescribes⟩
  simp only [Call.classify, Call.signature?_of_method hT, hb, hkind]

end Program

namespace Classification

def inferred : Expr := .call ⟨⟨10⟩, none⟩ (.member ⟨⟨11⟩, none⟩ (.path ⟨⟨12⟩, none⟩ "e") "m") []
  [.path ⟨⟨13⟩, none⟩ "v", .path ⟨⟨14⟩, none⟩ "v"]

def generic : Program := ⟨[
  .externType ⟨⟨0⟩, "E", none⟩ ["T"] [⟨.void, "E", [], [], none⟩]
    [⟨.named "R", "m", ["R"], [⟨⟨1⟩, "x", .input, .named "T", none⟩,
      ⟨⟨2⟩, "y", .input, .named "R", none⟩], none⟩],
  .control ⟨⟨3⟩, "c", none⟩ [] [⟨⟨4⟩, "v", .inout, .bits 8 false, none⟩] []
    [.inst ⟨⟨5⟩, "e", none⟩ (.specialized "E" [.bits 8 false]) []]
    (.mk ⟨6⟩ [.assign ⟨⟨7⟩, none⟩ (.path ⟨⟨8⟩, none⟩ "v") inferred])]⟩

def declared : Signature :=
  .mk ["T", "R"] [.mk "x" .input (.param "T"), .mk "y" .input (.param "R")] (.param "R")

theorem classify_call_inferred :
    (generic.NodesApart ∧ generic.check.errors = [] ∧ .expr inferred ∈ generic.visits ∧
      ¬ generic.IsEntry inferred ∧ generic.check.types.get? ⟨11⟩ = some (.method declared)) ∧
    ∃ kind, Call.classify generic.check.refs generic.check.types inferred = .ok ⟨kind,
        .mk [] [.mk "x" .input (.bits 8 false), .mk "y" .input (.bits 8 false)] (.bits 8 false),
        [.path ⟨⟨13⟩, none⟩ "v", .path ⟨⟨14⟩, none⟩ "v"]⟩ ∧
      generic.check.types.get? ⟨10⟩ = some (.bits 8 false) ∧
      ∃ r d m, kind = .externMethod r d m := by
  have hids : generic.NodesApart := by decide
  have herr : generic.check.errors = [] := List.isEmpty_iff.1 (by decide +kernel)
  have hcall : .expr inferred ∈ generic.visits := List.mem_of_getElem? (i := 8) rfl
  have hentry : ¬ generic.IsEntry inferred := fun h => by
    have hid := List.mem_map_of_mem (f := Expr.id) h
    revert hid
    decide
  have hT : generic.check.types.get? ⟨11⟩ = some (.method declared) := by decide +kernel
  have hreceiver : ∃ d as, generic.check.types.get? ⟨12⟩ = some (.decl d as) ∧
      (Ty.decl d as).isExtern = true := by
    have hextern : (generic.check.types.get? ⟨12⟩).map Ty.isExtern = some true := by decide +kernel
    obtain ⟨T, hT, hT'⟩ := Option.map_eq_some_iff.1 hextern
    cases T with
    | decl d as => exact ⟨d, as, hT, hT'⟩
    | _ => cases hT'
  obtain ⟨d, as, hd, hextern⟩ := hreceiver
  have hbound : declared.subst ((generic.check.types.bindings.get? ⟨10⟩).getD []) =
      .mk [] [.mk "x" .input (.bits 8 false), .mk "y" .input (.bits 8 false)] (.bits 8 false) := by
    decide +kernel
  have helem : (Expr.member ⟨⟨11⟩, none⟩ (.path ⟨⟨12⟩, none⟩ "e") "m").NoElement
      generic.check.types := fun e k he => by
    cases hd.symm.trans he
  obtain ⟨sig, kind, hsig, hclass, -, hret, T, hreceived, -, hmethod, -⟩ :=
    Program.classify_call hids herr hcall hentry hT (by simp) trivial helem
  obtain rfl := Ty.method.inj hsig
  rw [hbound] at hclass hret
  obtain rfl := Option.some.inj (hd.symm.trans hreceived)
  exact ⟨⟨hids, herr, hcall, hentry, hT⟩, kind, hclass, hret, hmethod.2 hextern⟩

def next : Expr := .call ⟨⟨7⟩, none⟩ (.member ⟨⟨8⟩, none⟩ (.call ⟨⟨9⟩, none⟩
  (.path ⟨⟨10⟩, none⟩ "mk") [] [.path ⟨⟨11⟩, none⟩ "a"]) "next") [] []

/-- A stack of actions: the external function binds its type parameter to the type of one. -/
def stacked : Program := ⟨[
  .externFn ⟨⟨0⟩, "mk", none⟩ ⟨.stack (.named "T") 3, "mk", ["T"],
    [⟨⟨1⟩, "x", .input, .named "T", none⟩], none⟩,
  .action ⟨⟨2⟩, "a", none⟩ [] (.mk ⟨3⟩ []),
  .control ⟨⟨4⟩, "c", none⟩ [] [] [] [] (.mk ⟨5⟩ [.call ⟨⟨6⟩, none⟩ next])]⟩

/-- The call of its next element is accepted, and is of no kind. -/
theorem next_action_unclassified :
    stacked.ids.Nodup ∧ stacked.check.errors = [] ∧ .expr next ∈ stacked.visits ∧
      ¬ stacked.IsEntry next ∧
      stacked.check.types.get? ⟨8⟩ = some (.method (.mk [] [] .void)) ∧
      stacked.check.types.get? ⟨9⟩ = some (.stack (.method (.mk [] [] .void)) 3) ∧
      stacked.check.types.get? ⟨7⟩ = some .void ∧
      Call.classify stacked.check.refs stacked.check.types next =
        .error (.call next .noCallKind) := by
  refine ⟨by decide, List.isEmpty_iff.1 (by decide +kernel), List.mem_of_getElem? (i := 8) rfl,
    fun h => ?_, by decide +kernel, by decide +kernel, by decide +kernel, by decide +kernel⟩
  have hid := List.mem_map_of_mem (f := Expr.id) h
  revert hid
  decide

end Classification

end MatchAction
