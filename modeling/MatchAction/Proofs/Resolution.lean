import Mathlib.Data.List.Nodup
import MatchAction.Proofs.Places
import MatchAction.Proofs.Rules

/-!
What a check resolves. References are written down by one walk and depend on the names in sight
alone, so the table of references can be read off the places of the program; and a program without
errors has every path in sight of what it names.
-/

namespace MatchAction

open List hiding modify

def Place.use? : Place → Option (NodeId × Referent)
  | (sc, .expr (.path t n)) => (sc.lookup n).map fun x => (t.id, x)
  | (sc, .expr (.construct t ty _)) => (sc.resolve ty).type.decl?.map fun d => (t.id, .decl d)
  | (sc, .enter (.inst h ty _)) => (sc.resolve ty).type.decl?.map fun d => (h.id, .decl d)
  | _ => none

def Place.Fine : Place → Prop
  | (sc, .expr (.path _ n)) => (sc.lookup n).isSome
  | (sc, .stmt (.decl _ d)) => sc.innermost.lookup d.name = none
  | (sc, .stmt (.call _ (.call _ (.path _ f) _ as))) => ∀ h ps b,
    sc.lookup f = some (.decl (.action h ps b)) → as.length = ps.length
  | (sc, .enter (.action _ ps _)) => ∀ q ∈ ps, (sc.resolve q.type).unknown = []
  | _ => True

structure Types.Grows (t t' : Types) : Prop where
  typed : ∀ {i}, (t.get? i).isSome → (t'.get? i).isSome
  leftValues : t.leftValues ⊆ t'.leftValues

namespace Types.Grows

theorem refl (t : Types) : t.Grows t := ⟨id, List.Subset.refl _⟩

theorem trans {t t' t'' : Types} (h : t.Grows t') (h' : t'.Grows t'') : t.Grows t'' :=
  ⟨fun hi => h'.typed (h.typed hi), List.Subset.trans h.leftValues h'.leftValues⟩

theorem set (t : Types) (i : NodeId) (ty : Ty) : t.Grows (t.set i ty) where
  typed {j} hj := by
    rw [Types.get?, Types.set, NodeMap.get?_insert]
    split
    · rfl
    · exact hj
  leftValues := List.Subset.refl _

theorem setLeftValue (t : Types) (i : NodeId) : t.Grows (t.setLeftValue i) :=
  ⟨id, subset_cons_self _ _⟩

end Types.Grows

def Refs.Marked (r : Refs) : Prop := ∀ u ∈ r.targets.entries, u.2.id ∈ r.used

variable {i : NodeId} {r : Referent} {d : Decl}

namespace Check

variable {α β : Type}

/-- A step that brings nothing into sight and resolves nothing; what it reports stays, and is not
about names; what it types stays typed, and what is used stays used. -/
structure Quiet (x : Check α) : Prop where
  scopes : ∀ c, (x c).2.scopes = c.scopes
  targets : ∀ c, (x c).2.refs.targets = c.refs.targets
  reports : ∀ c, ∃ es, (x c).2.errors = c.errors ++ es ∧ ∀ e ∈ es, e.fault.isNaming = false
  grows : ∀ c : Checker, c.types.Grows (x c).2.types
  used : ∀ c : Checker, c.refs.used ⊆ (x c).2.refs.used

namespace Quiet

theorem errors (hx : Quiet x) (c : Checker) (h : (x c).2.errors = []) :
    c.errors = [] := by
  obtain ⟨es, hes, -⟩ := hx.reports c
  rw [hes] at h
  exact (append_eq_nil_iff.1 h).1

theorem reports_nil (es : List TypeError) :
    ∃ es', es = es ++ es' ∧ ∀ e ∈ es', e.fault.isNaming = false :=
  ⟨[], (append_nil es).symm, nofun⟩

theorem pure (a : α) : Quiet (Pure.pure a) :=
  ⟨fun _ => rfl, fun _ => rfl, fun c => reports_nil c.errors, fun c => .refl c.types,
    fun _ => List.Subset.refl _⟩

theorem bind {x : Check α} {f : α → Check β} (hx : Quiet x) (hf : ∀ a, Quiet (f a)) :
    Quiet (x >>= f) where
  scopes c := ((hf _).scopes _).trans (hx.scopes c)
  targets c := ((hf _).targets _).trans (hx.targets c)
  reports c := by
    obtain ⟨es, hes, hnone⟩ := hx.reports c
    obtain ⟨es', hes', hnone'⟩ := (hf (x c).1).reports (x c).2
    exact ⟨es ++ es', by rw [bind_apply, hes', hes, append_assoc],
      forall_mem_append.2 ⟨hnone, hnone'⟩⟩
  grows c := (hx.grows c).trans ((hf _).grows _)
  used c := List.Subset.trans (hx.used c) ((hf _).used _)

theorem ite {p : Prop} [Decidable p] (hx : Quiet x) (hy : Quiet y) :
    Quiet (if p then x else y) := by
  split
  · exact hx
  · exact hy

theorem read (f : Checker → α) : Quiet (fun c => (f c, c) : Check α) :=
  ⟨fun _ => rfl, fun _ => rfl, fun c => reports_nil c.errors, fun c => .refl c.types,
    fun _ => List.Subset.refl _⟩

theorem typed (f : Types → Types) (hf : ∀ t : Types, t.Grows (f t)) :
    Quiet (modify fun c => { c with types := f c.types }) :=
  ⟨fun _ => rfl, fun _ => rfl, fun c => reports_nil c.errors, fun c => hf c.types,
    fun _ => List.Subset.refl _⟩

end Quiet

theorem quiet_report (f : TypeFault) (sp : Option Span) (hf : f.isNaming = false) :
    Quiet (report f sp) where
  scopes _ := rfl
  targets _ := rfl
  reports _ := ⟨[⟨f, sp⟩], rfl, forall_mem_singleton.2 hf⟩
  grows c := .refl c.types
  used _ := List.Subset.refl _

theorem errors_report_ne (f : TypeFault) (sp : Option Span) (c : Checker) :
    (report f sp c).2.errors ≠ [] :=
  fun h => by simpa using (append_eq_nil_iff.1 (h : c.errors ++ [⟨f, sp⟩] = [])).2

theorem quiet_setType (i : NodeId) (t : Ty) : Quiet (setType i t) :=
  .typed (·.set i t) fun ts => .set ts i t

theorem quiet_setLeftValue (i : NodeId) : Quiet (setLeftValue i) :=
  .typed (·.setLeftValue i) fun ts => .setLeftValue ts i

theorem quiet_typeOf? (i : NodeId) : Quiet (typeOf? i) := .read fun c => c.types.get? i

theorem quiet_isLeftValue (i : NodeId) : Quiet (isLeftValue i) :=
    .read fun c => c.types.isLeftValue i

theorem targets_foldl_markUsed (is : List NodeId) (r : Refs) :
    (is.foldl Refs.markUsed r).targets = r.targets := by
  induction is generalizing r with
  | nil => rfl
  | cons i is ih => exact ih (r.markUsed i)

theorem mem_used_foldl_markUsed (is : List NodeId) (r : Refs) :
    i ∈ (is.foldl Refs.markUsed r).used ↔ i ∈ is ∨ i ∈ r.used := by
  induction is generalizing r with
  | nil => simp
  | cons j is ih => simp [ih, Refs.markUsed, or_left_comm, or_assoc]

theorem quiet_resolveType (t : TypeExpr) (sp : Option Span) : Quiet (resolveType t sp) where
  scopes _ := rfl
  targets _ := targets_foldl_markUsed _ _
  reports c := ⟨_, rfl, fun e he => by
    obtain ⟨n, -, rfl⟩ := mem_map.1 he
    rfl⟩
  grows c := .refl c.types
  used _ _ hi := (mem_used_foldl_markUsed _ _).2 (.inr hi)

theorem quiet_paramType (p : Param) : Quiet (paramType p) :=
  (quiet_resolveType _ _).bind fun _ => (quiet_setType _ _).bind fun _ => .pure _

theorem quiet_withTypeParams (names : List String) (hx : Quiet x) :
    Quiet (withTypeParams names x) where
  scopes c := by
    have h := hx.scopes { c with scopes := c.scopes.pushTypeParams names }
    change ((x { c with scopes := c.scopes.pushTypeParams names }).2.scopes).popTypeParams = _
    rw [h]
    rfl
  targets c := hx.targets { c with scopes := c.scopes.pushTypeParams names }
  reports c := hx.reports { c with scopes := c.scopes.pushTypeParams names }
  grows c := hx.grows { c with scopes := c.scopes.pushTypeParams names }
  used c := hx.used { c with scopes := c.scopes.pushTypeParams names }

theorem quiet_typeRules : TypeRules (.types (fun _ => True) True) fun _ _ _ x => Quiet x :=
  ⟨fun _ => .pure _, .bind, quiet_resolveType, fun _ => quiet_paramType _⟩

theorem quiet_methodType (m : Method) : Quiet (methodType m) :=
  (quiet_typeRules).methodType (P := True) quiet_withTypeParams fun _ _ _ => trivial

theorem quiet_rules : Rules (.types (fun _ => True) True) fun _ _ _ x => Quiet x where
  toTypeRules := quiet_typeRules
  methodType _ := quiet_methodType _
  externMethodType tps _ _ :=
    (quiet_typeRules).externMethodType (P := True) quiet_withTypeParams tps fun _ _ _ => trivial
  report := quiet_report
  fail f sp hf := (quiet_report f sp hf).bind fun _ => .pure _
  typeOf? := quiet_typeOf?
  isLeftValue := quiet_isLeftValue
  setLeftValue _ := quiet_setLeftValue _
  setBindings b _ := .typed (·.setBindings _ b) fun _ => ⟨id, List.Subset.refl _⟩

-- Whether a step is quiet does not depend on types: nothing need be given for those it starts from.

theorem quiet_paramTypes (ps : List Param) : Quiet (paramTypes ps) :=
  (quiet_rules).paramTypes (P := False) nofun

theorem quiet_actionType (ps : List Param) : Quiet (actionType ps) :=
  (quiet_rules).actionType (P := False) nofun

theorem quiet_constructorArity (d : Decl) (n : Nat) (sp : Option Span) :
    Quiet (constructorArity d n sp) := (quiet_rules).constructorArity (P := False) d n sp

theorem quiet_inheritLeftValue (b : NodeId) (t : Tag) : Quiet (inheritLeftValue b t.id) :=
  (quiet_rules).inheritLeftValue (P := False) b trivial

theorem quiet_expect (e f : Ty) (sp : Option Span) : Quiet (expect e f sp) :=
  (quiet_rules).expect (P := False) e f sp

theorem quiet_referentType (t : Tag) (r : Referent) : Quiet (referentType t r) :=
  (quiet_rules).referentType (P := False) trivial trivial nofun

theorem quiet_member (t : Tag) (b : NodeId) (ty : Ty) (n : String) (arity : Option Nat) :
    Quiet (member t b ty n arity) := (quiet_rules).member (P := False) trivial b nofun n arity

theorem quiet_index (t : Tag) (b : NodeId) (ty : Ty) : Quiet (index t b ty) :=
  (quiet_rules).index (P := False) trivial b nofun

theorem quiet_arguments (sp : Option Span) (b : Bindings) (ps : List ParamTy) (as : List Expr)
    (ts : List Ty) : Quiet (arguments sp b ps as ts) :=
  (quiet_rules).arguments (P := False) sp b ps as ts

theorem quiet_call (t : Tag) (e : Expr) (ty : Ty) (ts : List TypeExpr) (as : List Expr)
    (tys : List Ty) : Quiet (call t e ty ts as tys) :=
  (quiet_rules).call (P := False) trivial e nofun ts as nofun

theorem quiet_fieldTypes (sp : Option Span) (fs : List Field) : Quiet (fieldTypes sp fs) :=
  (quiet_rules).fieldTypes (P := False) sp fs

theorem quiet_externMethods (tps : List String) (ms : List Method) :
    Quiet (externMethods tps ms) := (quiet_rules).externMethods (P := False) tps nofun

/-- A step that changes the names in sight by `f` and resolves what stands at the places `ps`. -/
structure Walks (x : Check α) (f : Scopes → Scopes) (ps : Scopes → List Place) : Prop where
  scopes : ∀ c, (x c).2.scopes = f c.scopes
  targets : ∀ c u, u ∈ (x c).2.refs.targets.entries ↔
    u ∈ c.refs.targets.entries ∨ u ∈ (ps c.scopes).filterMap Place.use?
  errors : ∀ c, (x c).2.errors = [] → c.errors = [] ∧ ∀ pl ∈ ps c.scopes, pl.Fine
  grows : ∀ c : Checker, c.types.Grows (x c).2.types
  used : ∀ c : Checker, c.refs.used ⊆ (x c).2.refs.used
  marks : ∀ c : Checker, c.refs.Marked → (x c).2.refs.Marked

theorem Quiet.marks (hx : Quiet x) (c : Checker) (h : c.refs.Marked) :
    (x c).2.refs.Marked := fun u hu => hx.used c (h u (hx.targets c ▸ hu))

theorem Quiet.walks (hx : Quiet x) : Walks x id fun _ => [] where
  scopes := hx.scopes
  targets c u := by simp [hx.targets c]
  errors c h := ⟨hx.errors c h, by simp⟩
  grows := hx.grows
  used := hx.used
  marks := hx.marks

namespace Walks

variable {x : Check α} {g : α → Check β} {f f' : Scopes → Scopes} {ps ps' : Scopes → List Place}

theorem bind (hx : Walks x f ps) (hg : ∀ a, Walks (g a) f' ps') :
    Walks (x >>= g) (fun sc => f' (f sc)) fun sc => ps sc ++ ps' (f sc) where
  scopes c := by rw [bind_apply, (hg _).scopes, hx.scopes]
  targets c u := by
    rw [bind_apply, (hg _).targets, hx.targets, hx.scopes, filterMap_append, mem_append,
      or_assoc]
  errors c h := by
    obtain ⟨h₁, hg'⟩ := (hg _).errors _ h
    obtain ⟨h₂, hx'⟩ := hx.errors _ h₁
    rw [hx.scopes] at hg'
    refine ⟨h₂, fun pl hpl => ?_⟩
    rcases mem_append.1 hpl with hpl | hpl
    · exact hx' pl hpl
    · exact hg' pl hpl
  grows c := (hx.grows c).trans ((hg _).grows _)
  used c := List.Subset.trans (hx.used c) ((hg _).used _)
  marks c h := (hg _).marks _ (hx.marks c h)

theorem quiet_bind (hy : Quiet y) (hg : ∀ b, Walks (g b) f ps) :
    Walks (y >>= g) f ps := by
  simpa using hy.walks.bind hg

theorem bind_quiet (hx : Walks x f ps) (hg : ∀ a, Quiet (g a)) : Walks (x >>= g) f ps := by
  simpa using hx.bind fun a => (hg a).walks

theorem cons_of_errors (hx : Walks x f ps) (v : Visit) (hu : ∀ sc, Place.use? (sc, v) = none)
    (hp : ∀ c, (x c).2.errors = [] → Place.Fine (c.scopes, v)) :
    Walks x f fun sc => (sc, v) :: ps sc where
  scopes := hx.scopes
  targets c u := by rw [hx.targets, filterMap_cons, hu]
  errors c h := ⟨(hx.errors c h).1, forall_mem_cons.2 ⟨hp c h, (hx.errors c h).2⟩⟩
  grows := hx.grows
  used := hx.used
  marks := hx.marks

theorem cons (hx : Walks x f ps) (v : Visit) (hu : ∀ sc, Place.use? (sc, v) = none)
    (hp : ∀ sc, Place.Fine (sc, v)) : Walks x f fun sc => (sc, v) :: ps sc :=
  hx.cons_of_errors v hu fun _ _ => hp _

theorem snoc (hx : Walks x f ps) (v : Visit) (hu : ∀ sc, Place.use? (sc, v) = none)
    (hp : ∀ sc, Place.Fine (sc, v)) : Walks x f fun sc => ps sc ++ [(sc, v)] where
  scopes := hx.scopes
  targets c u := by simp [hx.targets, hu]
  errors c h := ⟨(hx.errors c h).1, forall_mem_append.2
    ⟨(hx.errors c h).2, forall_mem_singleton.2 (hp _)⟩⟩
  grows := hx.grows
  used := hx.used
  marks := hx.marks

theorem within (hx : Walks x f ps) (d : Decl) (hd : ∀ sc, Place.use? (sc, .enter d) = none)
    (hp : ∀ sc, Place.Fine (sc, .enter d)) :
    Walks x f fun sc => (sc, .enter d) :: (ps sc ++ [(sc, .leave d)]) :=
  (hx.snoc (.leave d) (fun _ => rfl) fun _ => trivial).cons (.enter d) hd hp

theorem of_eq (hx : Walks x f ps) (hs : ∀ sc, f' sc = f sc) (h : ∀ sc, ps' sc = ps sc) :
    Walks x f' ps' := by
  rw [funext hs, funext h]
  exact hx

end Walks

variable {c : Checker}

/-- What a step that brings nothing into sight makes of the state if it resolves `us`. -/
structure Resolves (us : List (NodeId × Referent)) (c c' : Checker) : Prop where
  scopes : c'.scopes = c.scopes
  targets : c'.refs.targets.entries = us ++ c.refs.targets.entries
  errors : c'.errors = [] → c.errors = []
  grows : c.types.Grows c'.types
  used : c.refs.used ⊆ c'.refs.used
  marks : c.refs.Marked → c'.refs.Marked

theorem Quiet.resolves (hx : Quiet x) : Resolves [] c (x c).2 :=
  ⟨hx.scopes c, congrArg NodeMap.entries (hx.targets c), hx.errors c, hx.grows c, hx.used c,
    hx.marks c⟩

theorem resolves_refer (i : NodeId) (r : Referent) (hx : Quiet x) :
    Resolves [(i, r)] c ((refer i r >>= fun _ => x) c).2 where
  scopes := hx.scopes _
  targets := congrArg NodeMap.entries (hx.targets (refer i r c).2)
  errors := hx.errors _
  grows := hx.grows (refer i r c).2
  used _ hj := hx.used (refer i r c).2 (.tail _ hj)
  marks h := hx.marks (refer i r c).2 (forall_mem_cons.2 ⟨.head _, fun u hu => .tail _ (h u hu)⟩)

theorem resolves_instantiate (i : NodeId) (t : Ty) (n : Nat) (sp : Option Span) {y : Check α}
    (hy : Quiet y) : Resolves (t.decl?.map fun d => (i, .decl d)).toList c
      ((instantiate i t n sp >>= fun _ => y) c).2 := by
  unfold instantiate
  cases t.decl? with
  | none => exact hy.resolves
  | some d => exact resolves_refer i (.decl d) ((quiet_constructorArity d n sp).bind fun _ => hy)

theorem errors_instantiate
    (h : (instantiate i t n sp c).2.errors = []) : c.errors = [] :=
  (resolves_instantiate i t n sp (.pure ())).errors h

theorem path_apply (t : Tag) (n : String) (c : Checker) :
    path t n c = (match c.scopes.lookup n with
      | none => report (.unresolvedName n) t.span >>= fun _ => pure .error
      | some r => refer t.id r >>= fun _ => referentType t r : Check Ty) c := rfl

theorem path_of_lookup (h : c.scopes.lookup n = some r)
    (t : Tag) : path t n c = (refer t.id r >>= fun _ => referentType t r) c := by
  rw [path_apply, h]

theorem path_of_lookup_none (h : c.scopes.lookup n = none)
    (t : Tag) : path t n c = (report (.unresolvedName n) t.span >>= fun _ => pure .error) c := by
  rw [path_apply, h]

theorem walks_path (t : Tag) (n : String) :
    Walks (path t n) id fun sc => [(sc, .expr (.path t n))] := by
  -- A path that names nothing is reported.
  have hpath : ∀ c : Checker,
      Resolves ((c.scopes.lookup n).map fun r => (t.id, r)).toList c (path t n c).2 ∧
        ((path t n c).2.errors = [] → (c.scopes.lookup n).isSome) := by
    intro c
    cases h : c.scopes.lookup n with
    | none =>
      rw [path_of_lookup_none h]
      exact ⟨⟨rfl, rfl, fun he => absurd he (errors_report_ne _ _ c), .refl _, List.Subset.refl _,
        id⟩, fun he => absurd he (errors_report_ne _ _ c)⟩
    | some r =>
      rw [path_of_lookup h]
      exact ⟨resolves_refer t.id r (quiet_referentType t r), fun _ => rfl⟩
  refine ⟨fun c => (hpath c).1.scopes, fun c u => ?_, fun c he => ?_, fun c => (hpath c).1.grows,
    fun c => (hpath c).1.used, fun c => (hpath c).1.marks⟩
  · rw [(hpath c).1.targets, mem_append, or_comm]
    simp only [filterMap_cons, Place.use?]
    cases c.scopes.lookup n <;> rfl
  · exact ⟨(hpath c).1.errors he, forall_mem_singleton.2 ((hpath c).2 he)⟩

theorem walks_instantiate {γ : Type} {y : Check β} {ps : Scopes → List Place} (hy : Walks y id ps)
    {ty : TypeExpr} (v : Visit) (hfine : ∀ sc, Place.Fine (sc, v))
    (huse : ∀ sc, Place.use? (sc, v) = (sc.resolve ty).type.decl?.map fun d => (i, .decl d))
    {k : Ty → Check γ} (hk : ∀ t, Quiet (k t)) (sp : Option Span) (n : Nat) :
    Walks (resolveType ty sp >>= fun t => y >>= fun _ => instantiate i t n sp >>= fun _ => k t) id
      fun sc => (sc, v) :: ps sc := by
  have hr := quiet_resolveType ty sp
  have hval : ∀ c, (resolveType ty sp c).1 = (c.scopes.resolve ty).type := fun _ => rfl
  have hend : ∀ (t : Ty) c, Resolves (t.decl?.map fun d => (i, .decl d)).toList c
      ((instantiate i t n sp >>= fun _ => k t) c).2 :=
        fun t c => resolves_instantiate i t n sp (hk t)
  constructor
  · intro c
    rw [bind_apply, bind_apply, (hend _ _).scopes, hy.scopes, hr.scopes]
  · intro c u
    rw [bind_apply, bind_apply, (hend _ _).targets, mem_append, hy.targets, hr.scopes, hr.targets,
      hval, filterMap_cons, huse]
    cases (c.scopes.resolve ty).type.decl? with
    | none => exact or_iff_right not_mem_nil
    | some d => simp only [Option.map_some, Option.toList_some, mem_cons, not_mem_nil, or_false,
        or_left_comm]
  · intro c h
    rw [bind_apply, bind_apply] at h
    obtain ⟨h', hf⟩ := hy.errors _ ((hend _ _).errors h)
    rw [hr.scopes] at hf
    exact ⟨hr.errors c h', forall_mem_cons.2 ⟨hfine _, hf⟩⟩
  · exact fun c => (hr.grows c).trans ((hy.grows _).trans (hend _ _).grows)
  · exact fun c => List.Subset.trans (hr.used c) (List.Subset.trans (hy.used _) (hend _ _).used)
  · exact fun c hm => (hend _ _).marks (hy.marks _ (hr.marks c hm))

theorem walks_rules : ExprRules (.types (fun _ => True) True) (fun _ => True)
    (fun _ _ _ x => Quiet x) fun _ _ _ vs x => Walks x id fun sc => sc.all vs where
  toRules := quiet_rules
  left _ := trivial
  bound _ := trivial
  setType _ _ := quiet_setType _ _
  step := Quiet.walks
  seq hx hf := (hx.bind hf).of_eq (fun _ => rfl) fun sc => sc.all_append _ _
  node {_ _ _ _ _ v} hv hx := by
    cases v with
    | expr e =>
      cases e with
      | path | construct => cases hv
      | _ => exact hx.cons _ (fun _ => rfl) fun _ => trivial
    | key k => exact hx.cons _ (fun _ => rfl) fun _ => trivial
    | _ => cases hv
  path n _ := walks_path _ n
  construct t ty as hy := walks_instantiate (hy (P := False)) (.expr (.construct t ty as))
    (fun _ => trivial) (fun _ => rfl) (fun _ => .pure _) t.span as.length

theorem walks_expr (e : Expr) : Walks (expr e) id fun sc => sc.all e.visits :=
  (walks_rules).expr (P := False) e fun _ _ => trivial

theorem walks_exprs (es : List Expr) :
    Walks (exprs es) id fun sc => sc.all ((Expr.walks es).map .expr) :=
  (walks_rules).exprs (P := False) es fun _ _ => trivial

theorem walks_actionEntries (es : List Expr) :
    Walks (actionEntries es) id fun sc => sc.all ((Expr.walks es).map .expr) :=
  (walks_rules).actionEntries (P := False) es fun _ _ => trivial

theorem walks_condition (t : Tag) (e : Expr) :
    Walks (condition t e) id fun sc => sc.all e.visits :=
  (walks_rules).condition (P := False) t e fun _ _ => trivial

theorem walks_initialised (h : Head) (ty : TypeExpr) (e : Option Expr) :
    Walks (initialised h ty e) id fun sc => sc.all (Expr.visits? e) :=
  (walks_rules).initialised (P := False) trivial ty e fun _ _ => trivial

theorem length_paramTypes (ps : List Param) (c : Checker) :
    (paramTypes ps c).1.length = ps.length := by
  induction ps generalizing c with
  | nil => rfl
  | cons p ps ih => exact congrArg (· + 1) (ih _)

theorem length_args_of_errors
    (hf : c.scopes.lookup f = some (.decl (.action h ps b))) (t t' : Tag) (ts : List TypeExpr)
    (as : List Expr) (he : (expr (.call t (.path t' f) ts as) c).2.errors = []) :
    as.length = ps.length := by
  have hval : (expr (.path t' f) c).1 = .method (.mk []
      (paramTypes ps (refer t'.id (.decl (.action h ps b)) c).2).1 .void) := by
    change (path t' f c).1 = _
    rw [path_of_lookup hf]
    rfl
  refine Classical.byContradiction fun hne => ?_
  have hcall : (call t (.path t' f) (expr (.path t' f) c).1 ts as
      (exprs as (expr (.path t' f) c).2).1 (exprs as (expr (.path t' f) c).2).2).2.errors = [] := he
  have harity : (Signature.mk [] (paramTypes ps (refer t'.id (.decl (.action h ps b)) c).2).1
      .void).arity ≠ as.length := by
    rw [Signature.arity, Signature.params, length_paramTypes]
    exact fun h => hne h.symm
  rw [hval, call, if_pos harity] at hcall
  exact errors_report_ne _ _ _ hcall

theorem walks_withScopes (f : Scopes → Scopes) : Walks (withScopes f) f fun _ => [] where
  scopes _ := rfl
  targets c u := by
    simp [withScopes, modify, modifyGet, MonadStateOf.modifyGet, StateT.modifyGet]
    rfl
  errors c h := ⟨h, by simp⟩
  grows c := .refl c.types
  used _ := List.Subset.refl _
  marks _ h := h

theorem walks_inFrame
    (hx : Walks x f ps) (hf : ∀ sc : Scopes, (f sc.push).pop = sc) :
    Walks (inFrame x) id fun sc => ps sc.push :=
  ((walks_withScopes .push).bind fun _ => hx.bind fun _ => walks_withScopes .pop).of_eq
    (fun sc => (hf sc).symm) fun sc => by simp

theorem walks_withTypeParams
    (names : List String) (hx : Walks x f ps)
    (hf : ∀ sc : Scopes, (f (sc.pushTypeParams names)).popTypeParams = sc) :
    Walks (withTypeParams names x) id fun sc => ps (sc.pushTypeParams names) :=
  ((walks_withScopes (·.pushTypeParams names)).bind fun _ => hx.bind fun a =>
    (walks_withScopes .popTypeParams).bind_quiet fun _ => .pure a).of_eq
    (fun sc => (hf sc).symm) fun sc => by simp

theorem define_apply (n : String) (sp : Option Span) (r : Referent) (c : Checker) :
    define n sp r c = (match c.scopes.define n r with
      | (some previous, _) => report (.duplicate n previous.span) sp
      | (none, scopes) => set { c with scopes := scopes } : Check Unit) c := rfl

theorem define_spec (n : String) (sp : Option Span) (r : Referent) (c : Checker) :
    (define n sp r c).2.scopes = (c.scopes.define n r).2 ∧
      (define n sp r c).2.refs = c.refs ∧
      ((define n sp r c).2.errors = [] →
        c.errors = [] ∧ c.scopes.innermost.lookup n = none) := by
  rw [define_apply]
  unfold Scopes.define
  cases h : c.scopes.innermost.lookup n with
  | some r' => exact ⟨rfl, rfl, fun he => absurd he (errors_report_ne _ _ c)⟩
  | none =>
    cases hi : c.scopes.inner with
    | nil => exact ⟨rfl, rfl, fun he => ⟨he, rfl⟩⟩
    | cons f fs => exact ⟨rfl, rfl, fun he => ⟨he, rfl⟩⟩

theorem types_define (n : String) (sp : Option Span) (r : Referent) (c : Checker) :
    (define n sp r c).2.types = c.types := by
  rw [define_apply]
  generalize c.scopes.define n r = x
  obtain ⟨_ | previous, scopes⟩ := x <;> rfl

theorem walks_define (n : String) (sp : Option Span) (r : Referent) :
    Walks (define n sp r) (fun sc => (sc.define n r).2) fun _ => [] where
  scopes c := (define_spec n sp r c).1
  targets c u := by simp [(define_spec n sp r c).2.1]
  errors c h := ⟨((define_spec n sp r c).2.2 h).1, by simp⟩
  grows c := by
    rw [types_define]
    exact .refl c.types
  used c := by
    rw [(define_spec n sp r c).2.1]
    exact List.Subset.refl _
  marks c h := by
    rw [(define_spec n sp r c).2.1]
    exact h

theorem walks_defineParams (ps : List Param) :
    Walks (defineParams ps) (·.declareParams ps) fun _ => [] := by
  induction ps with
  | nil => exact (Quiet.pure ()).walks
  | cons p ps ih =>
    have hp := Walks.quiet_bind (quiet_paramType p) fun _ => walks_define p.name p.span (.param p)
    exact (hp.bind fun _ => ih).of_eq (fun _ => rfl) fun _ => rfl

theorem walks_defineAll (ds : List Decl) :
    Walks (defineAll ds) (·.declares ds) fun _ => [] := by
  induction ds with
  | nil => exact (Quiet.pure ()).walks
  | cons d ds ih =>
    exact ((walks_define d.name d.span (.decl d)).bind fun _ => ih).of_eq (fun _ => rfl)
      fun _ => rfl

theorem nodup_cons_of_define {ds : List Decl} {sc : Scopes}
    (hd : sc.innermost.lookup d.name = none)
    (h : (ds.map (·.name)).Nodup ∧
      ∀ e ∈ ds, (sc.define d.name (.decl d)).2.innermost.lookup e.name = none) :
    ((d :: ds).map (·.name)).Nodup ∧ ∀ e ∈ d :: ds, sc.innermost.lookup e.name = none := by
  obtain ⟨hnodup, hfree⟩ := h
  rw [Scopes.innermost_define hd] at hfree
  have hne (e : Decl) (he : e ∈ ds) : e.name ≠ d.name ∧ sc.innermost.lookup e.name = none := by
    have hlookup := hfree e he
    rw [lookup_cons] at hlookup
    split at hlookup
    · cases hlookup
    · rename_i hname
      exact ⟨by simpa using hname, hlookup⟩
  refine ⟨nodup_cons.2 ⟨fun hmem => ?_, hnodup⟩,
    forall_mem_cons.2 ⟨hd, fun e he => (hne e he).2⟩⟩
  obtain ⟨e, he, hname⟩ := mem_map.1 hmem
  exact (hne e he).1 hname

theorem nodup_of_defineAll {ds : List Decl} (h : (defineAll ds c).2.errors = []) :
    (ds.map (·.name)).Nodup ∧ ∀ d ∈ ds, c.scopes.innermost.lookup d.name = none := by
  induction ds generalizing c with
  | nil => exact ⟨.nil, nofun⟩
  | cons d ds ih =>
    obtain ⟨hscopes, -, herr⟩ := define_spec d.name d.span (.decl d) c
    have hrest := ih (c := (define d.name d.span (.decl d) c).2) h
    rw [hscopes] at hrest
    exact nodup_cons_of_define (herr ((walks_defineAll ds).errors _ h).1).2 hrest

theorem walks_callStmt (t : Tag) (e : Expr) :
    Walks (stmt (.call t e)) id fun sc => (sc, .stmt (.call t e)) :: sc.all e.visits := by
  have h := (walks_expr e).bind_quiet fun _ => Quiet.pure ()
  have huse : ∀ sc, Place.use? (sc, .stmt (.call t e)) = none := fun _ => rfl
  constructor
  · exact h.scopes
  · intro c u
    rw [filterMap_cons, huse]
    exact h.targets c u
  · intro c he
    obtain ⟨h₁, h₂⟩ := h.errors c he
    refine ⟨h₁, forall_mem_cons.2 ⟨?_, h₂⟩⟩
    unfold Place.Fine
    split
    · rename_i heq
      cases heq
    · rename_i heq
      cases heq
    · rename_i heq
      cases heq
      exact fun hd ps b hl => length_args_of_errors hl _ _ _ _ he
    · rename_i heq
      cases heq
    · trivial
  · exact h.grows
  · exact h.used
  · exact h.marks

theorem walks_declStmt (t : Tag) (hd : Walks (decl d) id fun sc => d.places sc) :
    Walks (stmt (.decl t d)) (·.declare d) fun sc => (sc, .stmt (.decl t d)) :: d.places sc := by
  have h := hd.bind fun _ => walks_define d.name d.span (.decl d)
  have huse : ∀ sc, Place.use? (sc, .stmt (.decl t d)) = none := fun _ => rfl
  constructor
  · exact h.scopes
  · intro c u
    rw [filterMap_cons, huse, ← append_nil (d.places c.scopes)]
    exact h.targets c u
  · intro c he
    obtain ⟨h₁, h₂⟩ := h.errors c he
    rw [append_nil] at h₂
    refine ⟨h₁, forall_mem_cons.2 ⟨?_, h₂⟩⟩
    have hn := ((define_spec d.name d.span (.decl d) (decl d c).2).2.2 he).2
    rw [hd.scopes] at hn
    exact hn
  · exact h.grows
  · exact h.used
  · exact h.marks

theorem unknown_of_paramTypes {qs : List Param} (h : (paramTypes qs c).2.errors = []) :
    ∀ q ∈ qs, (c.scopes.resolve q.type).unknown = [] := by
  induction qs generalizing c with
  | nil => exact forall_mem_nil _
  | cons q qs ih =>
    have hrest : (paramTypes qs (paramType q c).2).2.errors = [] := h
    have hfirst := (quiet_paramTypes qs).errors _ hrest
    exact forall_mem_cons.2 ⟨map_eq_nil_iff.1 (append_eq_nil_iff.1 hfirst).2,
      ih (c := (paramType q c).2) hrest⟩

mutual
theorem walks_stmt : (s : Stmt) → Walks (stmt s) (s.after ·) fun sc => s.places sc
  | .block t b => (walks_block b).cons (.stmt (.block t b)) (fun _ => rfl) fun _ => trivial
  | .assign t l r => (walks_rules.assign (P := False) t l r (fun _ _ => trivial)
      fun _ _ => trivial).cons (.stmt (.assign t l r)) (fun _ => rfl) fun _ => trivial
  | .call t e => walks_callStmt t e
  | .ifThen t c a none => ((walks_condition t c).bind fun _ => walks_stmt a).cons
      (.stmt (.ifThen t c a none)) (fun _ => rfl) fun _ => trivial
  | .ifThen t c a (some b) => by
    have h := ((walks_condition t c).bind fun _ => (walks_stmt a).bind fun _ => walks_stmt b).cons
      (.stmt (.ifThen t c a (some b))) (fun _ => rfl) fun _ => trivial
    exact h.of_eq (fun _ => rfl) fun sc => by simp [Stmt.places]
  | .switch t e cs => ((walks_expr e).bind fun _ => walks_cases cs).cons (.stmt (.switch t e cs))
      (fun _ => rfl) fun _ => trivial
  | .decl t d => walks_declStmt t (walks_decl d)
  | .ret t e => (walks_rules.expr? (P := False) e fun _ _ => trivial).cons (.stmt (.ret t e))
      (fun _ => rfl) fun _ => trivial
  | .exit t => (Quiet.pure ()).walks.cons (.stmt (.exit t)) (fun _ => rfl) fun _ => trivial
  | .empty t => (Quiet.pure ()).walks.cons (.stmt (.empty t)) (fun _ => rfl) fun _ => trivial
theorem walks_block : (b : Block) → Walks (block b) id fun sc => b.places sc
  | .mk i ss => (walks_inFrame (walks_stmts ss) fun sc =>
      (Stmt.afters_inner sc.inner_push_ne ss).2).cons (.block (.mk i ss)) (fun _ => rfl)
      fun _ => trivial
theorem walks_stmts : (ss : List Stmt) → Walks (stmts ss) (Stmt.afters · ss) fun sc =>
    Stmt.allPlaces sc ss
  | [] => (Quiet.pure ()).walks
  | s :: ss => (walks_stmt s).bind fun _ => walks_stmts ss
theorem walks_cases : (cs : List Case) → Walks (cases cs) id fun sc => Case.places sc cs
  | [] => (Quiet.pure ()).walks
  | .run _ b :: cs => (walks_block b).bind fun _ => walks_cases cs
  | .fallThrough _ :: cs => walks_cases cs
theorem walks_decl : (d : Decl) → Walks (decl d) id fun sc => d.places sc
  | .header h fs => (quiet_fieldTypes h.span fs).walks.within (.header h fs) (fun _ => rfl)
      fun _ => trivial
  | .struct h fs => (quiet_fieldTypes h.span fs).walks.within (.struct h fs) (fun _ => rfl)
      fun _ => trivial
  | .externType h tps cs ms =>
    (quiet_externMethods tps (cs ++ ms)).walks.within (.externType h tps cs ms)
      (fun _ => rfl) fun _ => trivial
  | .externFn h m => ((quiet_methodType m).bind fun _ => quiet_setType _ _).walks.within
      (.externFn h m) (fun _ => rfl) fun _ => trivial
  | .action h ps (.mk i ss) => by
    have hin := walks_inFrame ((walks_defineParams ps).bind fun _ => walks_stmts ss) fun sc =>
      sc.pop_action ps ss
    have hd := Walks.quiet_bind (quiet_actionType ps) fun sig =>
      Walks.quiet_bind (quiet_setType h.id (.method sig)) fun _ => hin
    refine ((hd.cons (.block (.mk i ss)) (fun _ => rfl) fun _ => trivial).snoc
      (.leave (.action h ps (.mk i ss))) (fun _ => rfl) fun _ => trivial).cons_of_errors
        (.enter (.action h ps (.mk i ss))) (fun _ => rfl) fun c he => ?_
    exact unknown_of_paramTypes (hin.errors _ he).1
  | .table h ks as d => by
    have hks := walks_rules.keys (P := False) ks fun _ _ => trivial
    have hd := hks.bind fun _ => (walks_actionEntries as).bind fun _ =>
      (walks_actionEntries d.toList).bind_quiet fun _ =>
        quiet_setType h.id (.table (.table h ks as d))
    exact (hd.within (.table h ks as d) (fun _ => rfl) fun _ => trivial).of_eq (fun _ => rfl)
      fun sc => by
      cases d <;> simp [Decl.places, Scopes.all, Expr.visits?, Expr.visits, Expr.walks]
  | .control h tps ps cps ls b => by
    have hin := walks_inFrame ((walks_defineParams cps).bind fun _ =>
      (walks_defineParams ps).bind fun _ => (walks_locals ls).bind fun _ => walks_block b)
      fun sc => sc.pop_control ps cps ls
    exact (walks_withTypeParams tps hin fun _ => rfl).within (.control h tps ps cps ls b)
      (fun _ => rfl) fun _ => trivial
  | .package h tps ps => (quiet_withTypeParams tps ((quiet_paramTypes ps).bind fun _ =>
      .pure ())).walks.within (.package h tps ps) (fun _ => rfl) fun _ => trivial
  | .inst h ty as => (walks_instantiate (walks_exprs as) (.enter (.inst h ty as)) (fun _ => trivial)
      (fun _ => rfl) (fun t => quiet_setType h.id t) h.span as.length).snoc (.leave (.inst h ty as))
      (fun _ => rfl) fun _ => trivial
  | .var h ty e => (walks_initialised h ty e).within (.var h ty e) (fun _ => rfl) fun _ => trivial
  | .const h ty e => (walks_initialised h ty (some e)).within (.const h ty e) (fun _ => rfl)
      fun _ => trivial
theorem walks_locals : (ds : List Decl) → Walks (locals ds) (·.declares ds) fun sc =>
    Decl.allPlaces sc ds
  | [] => (Quiet.pure ()).walks
  | d :: ds => ((walks_decl d).bind fun _ => (walks_define d.name d.span (.decl d)).bind fun _ =>
      walks_locals ds)
end

theorem walks_decls (ds : List Decl) :
    Walks (decls ds) id fun sc => ds.flatMap (·.places sc) := by
  induction ds with
  | nil => exact (Quiet.pure ()).walks
  | cons d ds ih => exact (walks_decl d).bind fun _ => ih

theorem walks_program (p : Program) : Walks (program p) (·.declares p.decls) fun sc =>
    p.decls.flatMap (·.places (sc.declares p.decls)) :=
  (walks_defineAll p.decls).bind fun _ => walks_decls p.decls

end Check

namespace Program

theorem mem_targets_check (p : Program) (u : NodeId × Referent) :
    u ∈ p.check.refs.targets.entries ↔ u ∈ p.places.filterMap Place.use? := by
  have h := (Check.walks_program p).targets ⟨.empty, .empty, .empty, []⟩ u
  exact h.trans (or_iff_right not_mem_nil)

theorem marked_check (p : Program) : p.check.refs.Marked :=
  (Check.walks_program p).marks ⟨.empty, .empty, .empty, []⟩ fun _ hu => absurd hu not_mem_nil

theorem fine_of_errors {p : Program} (h : p.check.errors = []) : ∀ pl ∈ p.places, pl.Fine :=
  ((Check.walks_program p).errors ⟨.empty, .empty, .empty, []⟩ h).2

theorem nodup_names_of_errors {p : Program} (herr : p.check.errors = []) :
    (p.decls.map (·.name)).Nodup :=
  (Check.nodup_of_defineAll ((Check.walks_decls p.decls).errors _ herr).1).1

/-- The identities of everything a name can refer to or a table can be asked about. -/
def ids (p : Program) : List NodeId :=
  nodeIds p.visits ++ p.allDecls.flatMap fun d => d.params.map (·.id)

structure Distinct (p : Program) (n : Nat) : Prop where
  nodup : (nodeIds p.visits).Nodup
  lt : ∀ i ∈ nodeIds p.visits, i.val < n

/-- No two nodes have one identity, and no parameter has that of a node. Parameters may share
theirs, as those of copied actions do. -/
structure NodesApart (p : Program) : Prop where
  nodes : (nodeIds p.visits).Nodup
  params : ∀ d ∈ p.allDecls, ∀ q ∈ d.params, q.id ∉ nodeIds p.visits

instance (p : Program) : Decidable p.NodesApart :=
  decidable_of_iff ((nodeIds p.visits).Nodup ∧
      ∀ d ∈ p.allDecls, ∀ q ∈ d.params, q.id ∉ nodeIds p.visits)
    ⟨fun h => ⟨h.1, h.2⟩, fun h => ⟨h.nodes, h.params⟩⟩

theorem nodesApart_of_ids {p : Program} (h : p.ids.Nodup) : p.NodesApart where
  nodes := (List.nodup_append.1 h).1
  params d hd _ hq hn :=
    (List.nodup_append.1 h).2.2 _ hn _ (mem_flatMap.2 ⟨d, hd, mem_map_of_mem hq⟩) rfl

end Program

variable {pl : Place}

theorem Place.id?_of_use? (h : pl.use? = some u) :
    pl.2.id? = some u.1 := by
  unfold Place.use? at h
  split at h
  · obtain ⟨r, -, rfl⟩ := Option.map_eq_some_iff.1 h
    rfl
  · obtain ⟨r, -, rfl⟩ := Option.map_eq_some_iff.1 h
    rfl
  · obtain ⟨r, -, rfl⟩ := Option.map_eq_some_iff.1 h
    rfl
  · cases h

theorem eq_of_nodup_filterMap {α β : Type} {f : α → Option β} {l : List α}
    (h : (l.filterMap f).Nodup) {a b : α} (ha : a ∈ l) (hb : b ∈ l) {i : β} (hai : f a = some i)
    (hbi : f b = some i) : a = b := by
  induction l with
  | nil => cases ha
  | cons x l ih =>
    have hx : f x = some i → i ∉ l.filterMap f := fun hx => by
      rw [filterMap_cons, hx] at h
      exact (nodup_cons.1 h).1
    have hl : (l.filterMap f).Nodup := by
      rw [filterMap_cons] at h
      split at h
      · exact h
      · exact (nodup_cons.1 h).2
    rcases mem_cons.1 ha with rfl | hal <;> rcases mem_cons.1 hb with rfl | hbl
    · rfl
    · exact absurd (mem_filterMap.2 ⟨b, hbl, hbi⟩) (hx hai)
    · exact absurd (mem_filterMap.2 ⟨a, hal, hai⟩) (hx hbi)
    · exact ih hl hal hbl

theorem NodeMap.mem_of_get? {α : Type} {m : NodeMap α} {a : α} (h : m.get? i = some a) :
    (i, a) ∈ m.entries := by
  obtain ⟨l₁, l₂, hsplit, -⟩ := lookup_eq_some_iff.1 h
  rw [hsplit]
  exact mem_append_right _ (.head _)

theorem NodeMap.get?_of_mem {α : Type} {m : NodeMap α} {a : α}
    (h : (i, a) ∈ m.entries) (hu : ∀ b, (i, b) ∈ m.entries → b = a) : m.get? i = some a := by
  obtain ⟨es⟩ := m
  simp only [NodeMap.get?] at h hu ⊢
  induction es with
  | nil => cases h
  | cons e es ih =>
    obtain ⟨j, b⟩ := e
    rw [lookup_cons]
    by_cases hj : i = j
    · subst hj
      rw [hu b (.head _)]
      simp
    · have hm : (i, a) ∈ es := by
        rcases mem_cons.1 h with he | hm
        · exact absurd (congrArg Prod.fst he) hj
        · exact hm
      rw [beq_eq_false_iff_ne.2 hj]
      exact ih hm fun b hb => hu b (.tail _ hb)

theorem Program.use?_of_target {p : Program} (hids : (nodeIds p.visits).Nodup)
    (hpl : pl ∈ p.places) (hi : pl.2.id? = some i)
    (hr : (i, r) ∈ p.check.refs.targets.entries) : pl.use? = some (i, r) := by
  have hnodes : (p.places.filterMap fun pl => pl.2.id?).Nodup := by
    rw [nodeIds, ← p.map_snd_places, filterMap_map] at hids
    exact hids
  obtain ⟨pl', hpl', hu'⟩ := mem_filterMap.1 ((p.mem_targets_check _).1 hr)
  rwa [← eq_of_nodup_filterMap hnodes hpl' hpl (Place.id?_of_use? hu') hi]

theorem Program.get?_refs_check {p : Program} (hids : (nodeIds p.visits).Nodup)
    (hpl : pl ∈ p.places) (hu : pl.use? = some (i, r)) :
    p.check.refs.get? i = some r := by
  refine NodeMap.get?_of_mem ((p.mem_targets_check _).2 (mem_filterMap.2 ⟨pl, hpl, hu⟩)) ?_
  intro r' hr'
  rw [use?_of_target hids hpl (Place.id?_of_use? hu) hr'] at hu
  cases hu
  rfl

theorem Program.use?_of_get? {p : Program} (hids : (nodeIds p.visits).Nodup)
    (hpl : pl ∈ p.places) (hi : pl.2.id? = some i)
    (hr : p.check.refs.get? i = some r) : pl.use? = some (i, r) :=
  use?_of_target hids hpl hi (NodeMap.mem_of_get? hr)

namespace Program

variable {p : Program}

theorem mem_referents (h : x ∈ p.referents) :
    (∃ d ∈ p.allDecls, x = .decl d) ∨ ∃ d ∈ p.allDecls, ∃ q ∈ d.params, x = .param q := by
  obtain ⟨d, hd, hx⟩ := mem_flatMap.1 h
  have hcons : x = .decl d ∨ x ∈ d.params.map Referent.param := by
    cases d with
    | externType h tps cs ms => exact .inl (mem_singleton.1 hx)
    | _ => exact mem_cons.1 hx
  rcases hcons with rfl | hx
  · exact .inl ⟨d, hd, rfl⟩
  · obtain ⟨q, hq, rfl⟩ := mem_map.1 hx
    exact .inr ⟨d, hd, q, hq, rfl⟩

theorem eq_decl_of_id (hids : p.NodesApart) (hx : x ∈ p.referents) (hd : d ∈ p.allDecls)
    (h : x.id = d.id) : x = .decl d := by
  have hnode {d : Decl} (hd : d ∈ p.allDecls) : d.id ∈ nodeIds p.visits :=
    mem_filterMap.2 ⟨.enter d, mem_allDecls.1 hd, rfl⟩
  rcases mem_referents hx with ⟨d', hd', rfl⟩ | ⟨d', hd', q, hq, rfl⟩
  · have he := eq_of_nodup_filterMap hids.nodes (mem_allDecls.1 hd) (mem_allDecls.1 hd') rfl
      (congrArg some h)
    cases he
    rfl
  · have hq' := hids.params d' hd' q hq
    exact absurd (hnode hd) (h ▸ hq')

theorem referent_ext_id (hids : p.ids.Nodup) {x y : Referent} (hx : x ∈ p.referents)
    (hy : y ∈ p.referents) (h : x.id = y.id) : x = y := by
  have hapart := nodesApart_of_ids hids
  rcases mem_referents hx with ⟨d, hd, rfl⟩ | ⟨d, hd, q, hq, rfl⟩
  · exact (eq_decl_of_id hapart hy hd h.symm).symm
  · rcases mem_referents hy with ⟨d', hd', rfl⟩ | ⟨d', hd', q', hq', rfl⟩
    · exact eq_decl_of_id hapart hx hd' h
    · have hparams := (List.nodup_append.1 hids).2.1
      rw [← map_flatMap] at hparams
      have hq₁ : q ∈ p.allDecls.flatMap Decl.params := mem_flatMap.2 ⟨d, hd, hq⟩
      have hq₂ : q' ∈ p.allDecls.flatMap Decl.params := mem_flatMap.2 ⟨d', hd', hq'⟩
      rw [inj_on_of_nodup_map hparams hq₁ hq₂ h]

theorem referent_ext_name (hnames : (Names.ofProgram p).used.Nodup)
    (hx : x ∈ p.referents) (hy : y ∈ p.referents) (h : x.name = y.name) : x = y := by
  rw [names_referents] at hnames
  exact inj_on_of_nodup_map hnames hx hy h

theorem mem_allDecls_of_referent (hd : .decl d ∈ p.referents) : d ∈ p.allDecls := by
  rcases mem_referents hd with ⟨d', hd', he⟩ | ⟨_, _, _, _, he⟩
  · cases he
    exact hd'
  · cases he

theorem declOf?_of_mem (hids : p.NodesApart) (hd : .decl d ∈ p.referents) :
    p.declOf? d.id = some d := by
  have hall : d ∈ p.allDecls := mem_allDecls_of_referent hd
  have hsome : (p.declOf? d.id).isSome := by
    rw [declOf?, find?_isSome]
    exact ⟨d, hall, beq_self_eq_true _⟩
  obtain ⟨d', hd'⟩ := Option.isSome_iff_exists.1 hsome
  have hfind : p.allDecls.find? (·.id == d.id) = some d' := hd'
  have hid := find?_some hfind
  have hmem : .decl d' ∈ p.referents :=
    mem_flatMap.2 ⟨d', mem_of_find?_eq_some hfind, d'.self_mem_referents⟩
  have he := eq_decl_of_id hids hmem hall (eq_of_beq hid)
  cases he
  exact hd'

end Program

end MatchAction
