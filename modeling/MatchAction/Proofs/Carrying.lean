import MatchAction.Proofs.Verdict

/-!
A program that carries another one on. If each of its nodes is one that the other program accepts,
with names that stand for the same things or for other versions of them, or one that is accepted
anywhere, then the program is accepted, and its paths mean what they meant. Declarations that
nothing uses may be gone.
-/

namespace MatchAction

open List

/-! Names in sight. -/

/-- Names stand for the other versions, as far as these are kept. A name of `N` that is free stays
so, and no other name stands for anything before. -/
structure Scopes.Carries (V : Versions) (N : String → Prop) (sc sc' : Scopes) : Prop where
  typeParams : sc'.typeParams = sc.typeParams
  lookup : ∀ {n r}, sc.lookup n = some r → V.kept r.id → sc'.lookup n = some (r.over V.decl)
  within : ∀ {n r}, sc.lookup n = some r → N n
  level : ∀ {n}, N n → sc.innermost.lookup n = none → sc'.innermost.lookup n = none

namespace Scopes.Carries

variable {V : Versions} {N : String → Prop} {sc sc' outer : Scopes} {n : String} {r : Referent}

theorem empty : Scopes.empty.Carries V N .empty := ⟨rfl, nofun, nofun, fun _ h => h⟩

theorem push (h : sc.Carries V N sc') : sc.push.Carries V N sc'.push :=
  ⟨h.typeParams, h.lookup, h.within, fun _ _ => rfl⟩

theorem pushTypeParams (h : sc.Carries V N sc') (tps : List String) :
    (sc.pushTypeParams tps).Carries V N (sc'.pushTypeParams tps) :=
  ⟨congrArg (tps :: ·) h.typeParams, h.lookup, h.within, h.level⟩

theorem toMatch (h : sc.Carries V N sc') (hpath : V.path = Spelling.same.use) (es : List Expr) :
    sc.Match V es sc' where
  typeParams := h.typeParams
  types hl _ hk := h.lookup hl hk
  paths _ hl hk := by
    rw [hpath]
    exact h.lookup hl hk

theorem define (h : sc.Carries V N sc') (hn : N n) (hnew : sc.innermost.lookup n = none)
    (r : Referent) : (sc.define n r).2.Carries V N (sc'.define n (r.over V.decl)).2 := by
  have hnew' := h.level hn hnew
  refine ⟨?_, fun {m x} hl hk => ?_, fun {m x} hl => ?_, fun {m} hm hl => ?_⟩
  · rw [typeParams_define, typeParams_define, h.typeParams]
  · rw [lookup_define_eq, hnew] at hl
    rw [lookup_define_eq, hnew']
    split at hl
    · rename_i hcond
      cases hl
      rw [if_pos ⟨rfl, hcond.2⟩]
    · rename_i hcond
      rw [if_neg fun hc => hcond ⟨rfl, hc.2⟩]
      exact h.lookup hl hk
  · rw [lookup_define_eq] at hl
    split at hl
    · rename_i hcond
      exact hcond.2 ▸ hn
    · exact h.within hl
  · rw [innermost_define_new hnew, lookup_cons] at hl
    rw [innermost_define_new hnew', lookup_cons]
    cases hmn : m == n with
    | true =>
      rw [hmn] at hl
      cases hl
    | false =>
      rw [hmn] at hl
      exact h.level hm hl

theorem defineGone (h : sc.Carries V N sc') (hn : N n) (hnew : sc.innermost.lookup n = none)
    (hr : ¬ V.kept r.id) : (sc.define n r).2.Carries V N sc' := by
  refine ⟨?_, fun {m x} hl hk => ?_, fun {m x} hl => ?_, fun {m} hm hl => ?_⟩
  · rw [typeParams_define, h.typeParams]
  · rw [lookup_define_eq] at hl
    split at hl
    · cases hl
      exact absurd hk hr
    · exact h.lookup hl hk
  · rw [lookup_define_eq] at hl
    split at hl
    · rename_i hcond
      exact hcond.2 ▸ hn
    · exact h.within hl
  · rw [innermost_define_new hnew, lookup_cons] at hl
    cases hmn : m == n with
    | true =>
      rw [hmn] at hl
      cases hl
    | false =>
      rw [hmn] at hl
      exact h.level hm hl

theorem admits (hpath : V.path = Spelling.same.use) (h : sc.Carries V N sc')
    (ho : outer.TypesFrom sc) (hn : ∀ q ∈ qs, N q.name)
    (hk : ∀ q ∈ qs, ∀ i ∈ (outer.resolve q.type).uses, V.kept i) (ha : sc.Admits qs) :
    sc'.Admits qs ∧ (sc.declareParams qs).Carries V N (sc'.declareParams qs) := by
  induction qs generalizing sc sc' with
  | nil => exact ⟨trivial, h⟩
  | cons q qs ih =>
    obtain ⟨hknown, hnew, hrest⟩ := ha
    have hname := hn q (.head _)
    have hnext : (sc.declareParam q).Carries V N (sc'.declareParam q) :=
      h.define hname hnew (.param q)
    obtain ⟨hadmits, hcarries⟩ := ih hnext (Check.typesFrom_declareParam ho q)
      (fun q hq => hn q (.tail _ hq)) (fun q hq => hk q (.tail _ hq)) hrest
    refine ⟨⟨?_, h.level hname hnew, hadmits⟩, hcarries⟩
    have hused := hk q (.head _)
    rw [ho.resolve hknown] at hused
    rw [(h.toMatch hpath []).resolve q.type hknown hused]

end Scopes.Carries

/-! Nodes. -/

inductive Visit.Alike : Visit → Visit → Prop
  | refl (v : Visit) : Alike v v
  | ifThen (t : Tag) (c : Expr) (a a' : Stmt) (b b' : Option Stmt) :
    Alike (.stmt (.ifThen t c a b)) (.stmt (.ifThen t c a' b'))
  | switch (t : Tag) (e : Expr) (cs cs' : List Case) :
    Alike (.stmt (.switch t e cs)) (.stmt (.switch t e cs'))
  | action (h : Head) (ps : List Param) (b b' : Block) :
    Alike (.enter (.action h ps b)) (.enter (.action h ps b'))
  | control (h : Head) (tps : List String) (ps cps : List Param) (ls ls' : List Decl)
    (b b' : Block) :
    Alike (.enter (.control h tps ps cps ls b)) (.enter (.control h tps ps cps ls' b'))

namespace Visit.Alike

variable {v v' : Visit}

theorem node (h : v.Alike v') : Check.node v' = Check.node v := by
  cases h <;> rfl

theorem exprs (h : v.Alike v') : v'.exprs = v.exprs := by
  cases h <;> rfl

theorem declares (h : v.Alike v') (sc : Scopes) : Place.declares (sc, v') = Place.declares
    (sc, v) := by
  cases h <;> rfl

end Visit.Alike

variable {ty : TypeExpr} {hd : Head}

namespace Check

variable {c : Checker}

theorem resolve_of_bind {α : Type} {sp : Option Span} {k : Ty → Check α}
    (he : ∀ t c, (k t c).2.errors = [] → c.errors = [])
    (hu : ∀ t c, c.refs.used ⊆ (k t c).2.refs.used)
    (h : ((resolveType ty sp >>= k) c).2.errors = []) :
    (c.scopes.resolve ty).unknown = [] ∧
      (c.scopes.resolve ty).uses ⊆ ((resolveType ty sp >>= k) c).2.refs.used := by
  have hfirst := he _ _ h
  refine ⟨map_eq_nil_iff.1 (append_eq_nil_iff.1 hfirst).2, fun i hi => ?_⟩
  exact hu _ _ ((mem_used_foldl_markUsed _ _).2 (.inl hi))

theorem resolve_value {e : Option Expr}
    (h : (value hd ty e c).2.errors = []) :
    (c.scopes.resolve ty).unknown = [] ∧ (c.scopes.resolve ty).uses ⊆
      (value hd ty e c).2.refs.used := by
  cases e with
  | none => exact resolve_of_bind (fun _ _ h => h) (fun _ _ => List.Subset.refl _) h
  | some e =>
    have hrest (t : Ty) := (walks_expr e).bind_quiet fun found => quiet_expect t found
      (e.span.or hd.span)
    exact resolve_of_bind (fun t c h => ((hrest t).errors c h).1) (fun t c => (hrest t).used c) h

theorem used_instantiate (i : NodeId) (t : Ty) (n : Nat) (sp : Option Span) (c : Checker) :
    c.refs.used ⊆ (instantiate i t n sp c).2.refs.used :=
  (resolves_instantiate i t n sp (.pure ())).used

theorem resolve_instanced {as : List Expr}
    (h : (instanced hd ty as c).2.errors = []) :
    (c.scopes.resolve ty).unknown = [] ∧ (c.scopes.resolve ty).uses ⊆
      (instanced hd ty as c).2.refs.used :=
  resolve_of_bind (fun _ c h => ((walks_exprs as).errors c (errors_instantiate h)).1)
    (fun _ c => List.Subset.trans ((walks_exprs as).used c) (used_instantiate _ _ _ _ _)) h

end Check

variable {kept : NodeId → Prop}

namespace Place

variable {V : Versions} {T T' : NodeMap Ty} {pl pl' : Place} {n₀ : Nat}

structure Over (V : Versions) (pl pl' : Place) : Prop where
  visit : pl.2.Alike pl'.2
  names : pl.1.Match V pl.2.exprs pl'.1

/-- A new node that is accepted whatever the types of values are. -/
structure Safe (n₀ : Nat) (pl : Place) : Prop where
  errors : ∀ T, (pl.outcome T).errors = []
  declares : pl.declares = []
  exprs : ∀ e ∈ pl.2.exprs, n₀ ≤ e.id.val

theorem safe_of_plain (h : pl.2.isPlain = true) : pl.Safe n₀ := by
  obtain ⟨sc, v⟩ := pl
  refine ⟨fun _ => (judged_of_plain h).errors, ?_, fun e he => ?_⟩
  · cases v with
    | enter d => cases h
    | _ => rfl
  · cases v with
    | stmt s => cases s <;> first | cases he | cases h
    | enter d => cases h
    | _ => cases he

theorem safe_leave (sc : Scopes) (d : Decl) : Safe n₀ (sc, .leave d) := ⟨fun _ => rfl, rfl, nofun⟩

theorem safe_decl (sc : Scopes) (t : Tag) (d : Decl) : Safe n₀ (sc, .stmt (.decl t d)) :=
  ⟨fun _ => rfl, rfl, nofun⟩

theorem errors_over (hpath : V.path = Spelling.same.use) (h : pl.Accepted T V.kept)
    (ho : pl.Over V pl')
    (hT : ∀ i, pl.Reads V.kept i → T'.get? i = (T.get? i).map (Ty.over V.decl)) :
    (pl'.outcome T').errors = [] := by
  rw [outcome, ho.visit.node]
  exact (Check.node_alike (c := .starting T pl.1) (fun _ => True) hpath (by exact ho.names)
    (show (Checker.starting T' pl'.1).errors = _ from rfl)
    (fun _ hi => absurd hi not_mem_nil) (fun i hi => ⟨hT i hi, rfl⟩) h.errors h.used).1

theorem resolve_written
    (hty : d.written? = some ty) (h : Accepted T kept (sc, .enter d)) :
    (sc.resolve ty).unknown = [] ∧ ∀ i ∈ (sc.resolve ty).uses, kept i := by
  cases d with
  | var hd ty e | const hd ty e =>
    cases hty
    exact (Check.resolve_value h.errors).imp_right fun hu i hi => h.used i (hu hi)
  | inst hd ty as =>
    cases hty
    exact (Check.resolve_instanced h.errors).imp_right fun hu i hi => h.used i (hu hi)
  | _ => cases hty

theorem resolve_action
    (ha : Accepted T kept (sc, .enter (.action h ps b))) (hq : q ∈ ps) :
    (sc.resolve q.type).unknown = [] ∧ ∀ i ∈ (sc.resolve q.type).uses, kept i :=
  ⟨Check.unknown_of_paramTypes (c := .starting T sc) ha.errors q hq,
    fun i hi => ha.used i (Check.mem_used_paramTypes.2 (.inr ⟨q, hq, hi⟩))⟩

theorem resolve_control (ha : Accepted T kept (sc, .enter (.control h tps ps cps ls b)))
    (hq : q ∈ cps ++ ps) : ((sc.pushTypeParams tps).resolve q.type).unknown = [] ∧
      ∀ i ∈ ((sc.pushTypeParams tps).resolve q.type).uses, kept i :=
  ⟨Check.unknown_of_paramTypes (c := .starting T (sc.pushTypeParams tps)) ha.errors q hq,
    fun i hi => ha.used i (Check.mem_used_paramTypes.2 (.inr ⟨q, hq, hi⟩))⟩

theorem told_over (h : pl.Accepted T₁ V.kept) (ho : pl.Over V pl') (ht : pl.Told T) :
    pl'.Told (T.over (Ty.over V.decl)) := by
  obtain ⟨sc, v⟩ := pl
  obtain ⟨sc', v'⟩ := pl'
  intro x hx
  rw [ho.visit.declares] at hx
  cases v with
  | enter d =>
    have hwritten {ty : TypeExpr} (hty : d.written? = some ty)
      (hmem : (d.id, (sc.resolve ty).type) ∈
        declares (sc, .enter d)) (heq : x = (d.id, (sc'.resolve ty).type)) :
        (T.over (Ty.over V.decl)).get? x.1 = some x.2 := by
      obtain ⟨hknown, hused⟩ := resolve_written hty h
      rw [heq, NodeMap.get?_over, ho.names.resolve ty hknown hused]
      exact congrArg _ (ht _ hmem)
    cases d with
    | action hd ps b =>
      obtain ⟨q, hq, rfl⟩ := mem_map.1 hx
      obtain ⟨hknown, hused⟩ := resolve_action h hq
      rw [NodeMap.get?_over, ho.names.resolve q.type hknown hused]
      exact congrArg _ (ht _ (mem_map_of_mem hq))
    | control hd tps ps cps ls b =>
      obtain ⟨q, hq, rfl⟩ := mem_map.1 hx
      obtain ⟨hknown, hused⟩ := resolve_control h hq
      rw [NodeMap.get?_over, (ho.names.pushTypeParams tps).resolve q.type hknown hused]
      exact congrArg _ (ht _ (mem_map_of_mem hq))
    | var hd ty e => exact hwritten rfl (.head _) (mem_singleton.1 hx)
    | const hd ty e => exact hwritten rfl (.head _) (mem_singleton.1 hx)
    | inst hd ty as => exact hwritten rfl (.head _) (mem_singleton.1 hx)
    | _ => cases hx
  | _ => cases hx

end Place

/-! Every expression is checked at one node. -/

def Owned (l : List Place) : Prop := ∀ sc e, (sc, .expr e) ∈ l → ∃ v, (sc, v) ∈ l ∧ e ∈ v.exprs

theorem owned_listing : Listing Owned where
  nil _ _ h := absurd h not_mem_nil
  append h h' sc e he := by
    rcases mem_append.1 he with he | he
    · obtain ⟨v, hv, hmem⟩ := h sc e he
      exact ⟨v, mem_append_left _ hv, hmem⟩
    · obtain ⟨v, hv, hmem⟩ := h' sc e he
      exact ⟨v, mem_append_right _ hv, hmem⟩
  node {sc v l} h hv _ sc' e he := by
    rcases mem_cons.1 he with heq | he
    · injection heq with _ heq
      rw [← heq] at hv
      cases hv
    · rcases mem_append.1 he with he | he
      · obtain ⟨w, hw, heq⟩ := mem_map.1 he
        cases heq
        exact ⟨v, .head _, Visit.mem_exprs.2 hw⟩
      · obtain ⟨w, hw, hmem⟩ := h sc' e he
        exact ⟨w, .tail _ (mem_append_right _ hw), hmem⟩

theorem Program.owned_places (p : Program) : Owned p.places := owned_listing.program p

theorem Program.expr_mem_places {p : Program} {sc : Scopes} {v : Visit} (h : (sc, v) ∈ p.places)
    {e : Expr} (he : e ∈ v.exprs) : (sc, .expr e) ∈ p.places := by
  have hinner : Listing fun l => ∀ pl ∈ l, pl.1.all pl.2.inner ⊆ l :=
    listing_with (fun _ _ => rfl) (fun _ _ => rfl) fun _ _ h => .tail _ (mem_append_left _ h)
  exact hinner.program p _ h (mem_map_of_mem (Visit.mem_exprs.1 he))

/-! Programs. -/

/-- The node carries on one of the places, or is new and accepted anywhere. -/
structure Place.Drawn (V : Versions) (n₀ : Nat) (ps : List Place) (pl' : Place) : Prop where
  apart : pl'.Apart
  source : (∃ pl ∈ ps, pl.Over V pl') ∨ pl'.Safe n₀

inductive Decl.Carried (V : Versions) (n₀ : Nat) (sc sc' : Scopes) : List Decl → List Decl → Prop
  | nil : Carried V n₀ sc sc' [] []
  | cons {d d' : Decl} {ds ds' : List Decl} (id : d'.id = d.id) (value : d'.isValue = d.isValue)
    (places : ∀ pl' ∈ d'.places sc', Place.Drawn V n₀ (d.places sc) pl')
    (tail : Carried V n₀ sc sc' ds ds') :
    Carried V n₀ sc sc' (d :: ds) (d' :: ds')
  | gone {d : Decl} {ds ds' : List Decl} (unused : ¬ V.kept d.id)
    (tail : Carried V n₀ sc sc' ds ds') : Carried V n₀ sc sc' (d :: ds) ds'

variable {i : NodeId}

namespace Decl.Carried

variable {V : Versions} {n₀ : Nat} {sc sc' : Scopes} {ds ds' : List Decl} {T : NodeId → NodeMap Ty}

theorem mem_valueIds (h : Carried V n₀ sc sc' ds ds') (hk : V.kept i) :
    i ∈ valueIds ds' ↔ i ∈ valueIds ds := by
  induction h with
  | nil => exact Iff.rfl
  | @cons d d' ds ds' id value places tail ih =>
    rw [valueIds, valueIds, filter_cons, filter_cons, value]
    split
    · rw [map_cons, map_cons, mem_cons, mem_cons, id]
      exact or_congr Iff.rfl ih
    · exact ih
  | @gone d ds ds' unused tail ih =>
    rw [ih, valueIds, valueIds, filter_cons]
    split
    · rw [map_cons, mem_cons]
      refine (or_iff_right fun heq => ?_).symm
      exact unused (heq ▸ hk)
    · exact Iff.rfl

/-- What is carried on comes from a declaration with the same identity. -/
theorem source (h : Carried V n₀ sc sc' ds ds') (ha : Accepted T V.kept sc ds) (hd' : d' ∈ ds') :
    ∃ d ∈ ds, d'.id = d.id ∧ d'.isValue = d.isValue ∧ ∀ pl' ∈ d'.places sc',
      (∃ pl ∈ d.places sc, pl.Over V pl' ∧ ∃ T₁, pl.Accepted T₁ V.kept) ∨ pl'.Safe n₀ := by
  induction h with
  | nil => cases hd'
  | @cons d e' ds ds' id value places tail ih =>
    rcases mem_cons.1 hd' with rfl | hd'
    · refine ⟨d, .head _, id, value, fun pl' hpl => (places pl' hpl).source.imp_left ?_⟩
      rintro ⟨pl, hmem, ho⟩
      exact ⟨pl, hmem, ho, _, ha.1 pl hmem⟩
    · obtain ⟨d, hd, hsource⟩ := ih ha.2 hd'
      exact ⟨d, .tail _ hd, hsource⟩
  | gone unused tail ih =>
    obtain ⟨d, hd, hsource⟩ := ih ha.2 hd'
    exact ⟨d, .tail _ hd, hsource⟩

theorem accepted (hpath : V.path = Spelling.same.use)
    (hexprs : ∀ d ∈ ds, ∀ pl ∈ d.places sc, ∀ e ∈ pl.2.exprs, (T d.id).get? e.id = none)
    (h : Carried V n₀ sc sc' ds ds') (ha : Accepted T V.kept sc ds) :
    Accepted (fun i => (T i).over (Ty.over V.decl)) (fun _ => True) sc' ds' := by
  induction h with
  | nil => trivial
  | @cons d d' ds ds' id value places tail ih =>
    refine ⟨fun pl' hpl => ⟨⟨?_, (places pl' hpl).apart⟩, fun _ _ => trivial⟩,
      ih (fun d hd => hexprs d (.tail _ hd)) ha.2⟩
    rcases (places pl' hpl).source with ⟨pl, hmem, ho⟩ | hsafe
    · refine Place.errors_over hpath (ha.1 pl hmem) ho fun i hi => ?_
      rw [NodeMap.get?_without, NodeMap.get?_without, NodeMap.get?_over, id]
      cases hi with
      | expr he =>
        rw [hexprs d (.head _) pl hmem _ he, Option.map_none, ite_self, ite_self]
        rfl
      | value hpath hl hk hr =>
        simp only [(cons id value places tail).mem_valueIds hk]
        split <;> rfl
    · exact hsafe.errors _
  | gone unused tail ih => exact ih (fun d hd => hexprs d (.tail _ hd)) ha.2

end Decl.Carried

theorem Decl.Accepted.mono (hk : ∀ i, kept i → kept' i) :
    {ds : List Decl} → Decl.Accepted T kept sc ds → Decl.Accepted T kept' sc ds
  | [], h => h
  | _ :: _, h =>
    ⟨fun pl hpl => ⟨(h.1 pl hpl).toJudged, fun i hi => hk i ((h.1 pl hpl).used i hi)⟩, h.2.mono hk⟩

structure Program.Carried (V : Versions) (n₀ : Nat) (p q : Program) : Prop where
  ids : q.Coherent
  flat : q.Flat
  names : Scopes.empty.Takes q.decls
  decls : Decl.Carried V n₀ p.top q.top p.decls q.decls

structure Program.Sound (V : Versions) (n₀ : Nat) (p : Program) : Prop where
  ids : p.Coherent
  below : ∀ i ∈ p.ids, i.val < n₀
  flat : p.Flat
  errors : p.check.errors = []
  path : V.path = Spelling.same.use
  kept : ∀ i ∈ p.check.refs.used, V.kept i

namespace Program

variable {V : Versions} {n₀ : Nat} {p q : Program}

theorem Sound.tells (S : p.Sound V n₀) : p.Tells p.declared :=
  tells_declared S.ids S.flat S.errors

theorem Sound.accepted (S : p.Sound V n₀) : p.Accepted p.declared V.kept :=
  have h := accepted_of_check S.ids S.tells S.flat S.errors
  ⟨h.names, h.nodes.mono S.kept⟩

theorem below_of_declared (hlt : ∀ i ∈ p.ids, i.val < n₀) (hi : n₀ ≤ i.val) :
    (p.declared j).get? i = none := by
  by_contra hne
  obtain ⟨d, henter, hown⟩ := enter_of_declared hne
  refine absurd (hlt i ?_) (Nat.not_lt.2 hi)
  rcases hown with hid | ⟨q, hq, hid⟩
  · exact mem_append_left _ (mem_filterMap.2 ⟨_, henter, congrArg some hid⟩)
  · exact mem_append_right _ (mem_flatMap.2 ⟨d, mem_allDecls.2 henter, mem_map.2 ⟨q, hq, hid⟩⟩)

theorem get?_refs_eq (hids : p.NodesApart) (hpl : pl ∈ p.places)
    (hi : pl.2.id? = some i) : p.check.refs.get? i = pl.use?.map Prod.snd := by
  cases hu : pl.use? with
  | none =>
    refine Option.eq_none_iff_forall_ne_some.2 fun r hr => ?_
    rw [use?_of_get? hids.nodes hpl hi hr] at hu
    cases hu
  | some u =>
    obtain ⟨j, r⟩ := u
    have hj := Place.id?_of_use? hu
    rw [hi] at hj
    cases hj
    exact get?_refs_check hids.nodes hpl hu

namespace Carried

theorem source (S : p.Sound V n₀) (h : p.Carried V n₀ q) {pl' : Place} (hpl : pl' ∈ q.places) :
    (∃ pl ∈ p.places, pl.Over V pl' ∧ ∃ T₁, pl.Accepted T₁ V.kept) ∨ pl'.Safe n₀ := by
  obtain ⟨d', hd', hpl⟩ := mem_flatMap.1 hpl
  obtain ⟨d, hd, -, -, hsource⟩ := h.decls.source S.accepted.nodes hd'
  refine (hsource pl' hpl).imp_left ?_
  rintro ⟨pl, hmem, ho⟩
  exact ⟨pl, mem_flatMap.2 ⟨d, hd, hmem⟩, ho⟩

theorem tells (S : p.Sound V n₀) (h : p.Carried V n₀ q) :
    q.Tells fun i => (p.declared i).over (Ty.over V.decl) where
  told d' hd' e' he' hown pl' hpl := by
    obtain ⟨d, hd, hid, -, -⟩ := h.decls.source S.accepted.nodes hd'
    obtain ⟨e, he, hid', hvalue, hsource⟩ := h.decls.source S.accepted.nodes he'
    rcases hsource pl' hpl with ⟨pl, hmem, ho, T₁, ha⟩ | hsafe
    · rw [hvalue, hid, hid'] at hown
      rw [hid]
      exact Place.told_over ha ho (S.tells.told d hd e he hown pl hmem)
    · intro x hx
      rw [hsafe.declares] at hx
      cases hx
  exprs d' hd' e he := by
    obtain ⟨d, hd, hid, -, -⟩ := h.decls.source S.accepted.nodes hd'
    rw [← q.map_snd_places] at he
    obtain ⟨⟨sc, w⟩, hpl, rfl⟩ := mem_map.1 he
    obtain ⟨v, hv, hmem⟩ := q.owned_places sc e hpl
    rw [NodeMap.get?_over, Option.map_eq_none_iff, hid]
    rcases h.source S hv with ⟨pl, hpl, ho, -⟩ | hsafe
    · exact S.tells.exprs d hd e (mem_visits (expr_mem_places hpl (ho.visit.exprs ▸ hmem)))
    · exact below_of_declared S.below (hsafe.exprs e hmem)

theorem errors (S : p.Sound V n₀) (h : p.Carried V n₀ q) : q.check.errors = [] := by
  refine check_of_accepted h.ids (h.tells S) h.flat
    ⟨h.names, h.decls.accepted S.path (fun d hd pl hpl e he => ?_) S.accepted.nodes⟩
  exact S.tells.exprs d hd e (mem_visits (expr_mem_places (mem_flatMap.2 ⟨d, hd, hpl⟩) he))

theorem paths (S : p.Sound V n₀) (h : p.Carried V n₀ q) {t : Tag} {n : String}
    (hpath : .expr (.path t n) ∈ q.visits) (hlt : t.id.val < n₀) :
    .expr (.path t n) ∈ p.visits ∧
      ∃ r r', p.check.refs.get? t.id = some r ∧ q.check.refs.get? t.id = some r' ∧
        r'.id = r.id := by
  rw [← q.map_snd_places] at hpath
  obtain ⟨⟨sc', w⟩, hpl', rfl⟩ := mem_map.1 hpath
  obtain ⟨v, hv, hmem⟩ := q.owned_places sc' _ hpl'
  rcases h.source S hv with ⟨⟨sc, v₀⟩, hpl, ho, -⟩ | hsafe
  · have hsrc : (sc, .expr (.path t n)) ∈ p.places := expr_mem_places hpl (ho.visit.exprs ▸ hmem)
    obtain ⟨r, hl⟩ := Option.isSome_iff_exists.1 (fine_of_errors S.errors _ hsrc)
    have huse : Place.use? (sc, .expr (.path t n)) = some (t.id, r) := by simp [Place.use?, hl]
    have hused : r.id ∈ p.check.refs.used :=
      p.marked_check _ ((p.mem_targets_check _).2 (mem_filterMap.2 ⟨_, hsrc, huse⟩))
    have hl' := ho.names.paths (ho.visit.exprs ▸ hmem) hl (S.kept _ hused)
    rw [S.path] at hl'
    refine ⟨mem_visits hsrc, r, r.over V.decl, get?_refs_check S.ids.nodes hsrc huse,
      get?_refs_check h.ids.nodes hpl' ?_, r.id_over V⟩
    exact congrArg (Option.map _) hl'
  · exact absurd hlt (Nat.not_lt.2 (hsafe.exprs _ hmem))

theorem instances (S : p.Sound V n₀) (h : p.Carried V n₀ q)
    (hinst : .enter (.inst hd ty as) ∈ q.visits) : .enter (.inst hd ty as) ∈ p.visits ∧
      (q.check.refs.get? hd.id).map (·.id) = (p.check.refs.get? hd.id).map (·.id) := by
  rw [← q.map_snd_places] at hinst
  obtain ⟨⟨sc', w⟩, hpl', rfl⟩ := mem_map.1 hinst
  rcases h.source S hpl' with ⟨⟨sc, v⟩, hpl, ho, T₁, ha⟩ | hsafe
  · have hv : v = .enter (.inst hd ty as) := by
      cases ho.visit
      rfl
    subst hv
    refine ⟨mem_visits hpl, ?_⟩
    obtain ⟨hknown, hused⟩ := Place.resolve_written rfl ha
    rw [get?_refs_eq (i := hd.id) h.ids.toNodesApart hpl' rfl,
      get?_refs_eq (i := hd.id) S.ids.toNodesApart hpl rfl, Place.use?, Place.use?,
      ho.names.resolve ty hknown hused]
    simp only [Ty.decl?_over, Option.map_map]
    refine congrArg (Option.map · _) (funext fun d => ?_)
    exact (V.alike d).id
  · cases hsafe.declares

end Carried

end Program

namespace Program.Follows

variable {p q : Program} {n n' : Nat}

theorem mem_nodeIds (h : p.Follows n q n') (hi : i ∈ nodeIds q.visits) (hlt : i.val < n) :
    i ∈ nodeIds p.visits := by
  have hcount := h.weight (.counting i) (Weights.silent_counting i) (Weights.flaws_counting i _)
  rw [Weights.total_counting, Weights.total_counting, Weights.spent_counting,
    if_neg fun hc => absurd hc.1 (Nat.not_le.2 hlt)] at hcount
  have hpos := count_pos_iff.2 hi
  exact count_pos_iff.1 (by omega)

/-- Nothing brings a parameter that was not there. -/
theorem nodesApart (h : p.Follows n q n') (hids : p.NodesApart) (hlt : ∀ i ∈ p.ids, i.val < n)
    (hps : ∀ d ∈ q.allDecls, ∀ x ∈ d.params, ∃ d' ∈ p.allDecls, x ∈ d'.params) :
    q.NodesApart ∧ ∀ i ∈ q.ids, i.val < n' := by
  have hdistinct : q.Distinct n' :=
    h.distinct ⟨hids.nodes, fun i hi => hlt i (mem_append_left _ hi)⟩
  have hparam {d : Decl} (hd : d ∈ q.allDecls) {x : Param} (hx : x ∈ d.params) : x.id.val < n := by
    obtain ⟨d', hd', hx⟩ := hps d hd x hx
    exact hlt _ (mem_append_right _ (mem_flatMap.2 ⟨d', hd', mem_map_of_mem hx⟩))
  refine ⟨⟨hdistinct.nodup, fun d hd x hx hmem => ?_⟩, fun i hi => ?_⟩
  · obtain ⟨d', hd', hx'⟩ := hps d hd x hx
    exact hids.params d' hd' x hx' (h.mem_nodeIds hmem (hparam hd hx))
  · rcases mem_append.1 hi with hi | hi
    · exact hdistinct.lt i hi
    · obtain ⟨d, hd, hi⟩ := mem_flatMap.1 hi
      obtain ⟨x, hx, rfl⟩ := mem_map.1 hi
      exact Nat.lt_of_lt_of_le (hparam hd hx) h.le

end Program.Follows

end MatchAction
