import MatchAction.Proofs.Judgement

/-!
A program is accepted if and only if its nodes are, one by one. While a toplevel declaration is
checked, what is in sight has the type that is declared for it: values since they are typed once,
and parameters since no type is declared farther in than they are. So a check reports something at
a node if and only if it does so when it begins there.
-/

namespace MatchAction

open List

def Typeless (vs : List Visit) : Prop := ∀ d, .enter d ∈ vs → d.isType = false

theorem Typeless.mono (h : Typeless ws) (hs : vs ⊆ ws) : Typeless vs :=
  fun d hd => h d (hs hd)

theorem Typeless.tail (h : Typeless (v :: vs)) : Typeless vs := h.mono (subset_cons_self _ _)

theorem Typeless.append (h : Typeless (vs ++ ws)) : Typeless vs ∧ Typeless ws :=
  ⟨h.mono (subset_append_left _ _), h.mono (subset_append_right _ _)⟩

def Visit.isPlain : Visit → Bool
  | .stmt (.block ..) | .stmt (.exit _) | .stmt (.empty _) | .block _ | .key _ | .expr _ => true
  | _ => false

theorem Visit.isPlain_inner {v w : Visit} (h : w ∈ v.inner) : w.isPlain = true := by
  rcases inner_cases h with ⟨k, rfl⟩ | ⟨e, rfl⟩ <;> rfl

theorem Decl.places_of_bodiless {d : Decl} (hb : d.body? = none) (sc : Scopes) : d.places sc =
    (sc, .enter d) :: (sc.all (Visit.enter d).inner ++ [(sc, .leave d)]) := by
  cases d with
  | action | control => cases hb
  | table => simp only [places, Visit.inner, Expr.visits?_eq, Scopes.all_append, append_assoc]
  | _ => rfl

theorem Decl.visits_of_bodiless {d : Decl} (hb : d.body? = none) :
    d.visits = .enter d :: ((Visit.enter d).inner ++ [.leave d]) := by
  cases d with
  | action | control => cases hb
  | table => simp only [visits, Visit.inner, Expr.visits?_eq, append_assoc]
  | _ => rfl

theorem Check.node_plain (h : v.isPlain = true) : Check.node v = pure () := by
  cases v with
  | stmt s => cases s <;> first | rfl | cases h
  | enter d | leave d => cases h
  | _ => rfl

theorem Place.judged_of_plain {T : NodeMap Ty} {pl : Place} (h : pl.2.isPlain = true) :
    pl.Judged T where
  errors := by
    rw [Place.outcome, Check.node_plain h]
    rfl
  apart := by
    obtain ⟨sc, v⟩ := pl
    cases v with
    | stmt s => cases s <;> trivial
    | enter d | leave d => cases h
    | _ => trivial

variable {r : Referent}

theorem Program.referent_ne {p : Program} (hids : p.NodesApart) (hr : r ∈ p.referents) {w : Visit}
    (hw : w ∈ p.visits) (hplain : w.isPlain = true) : w.id? ≠ some r.id := by
  intro hid
  rcases mem_referents hr with ⟨d, hd, rfl⟩ | ⟨d, hd, q, hq, rfl⟩
  · have hsame := eq_of_nodup_filterMap hids.nodes hw (mem_allDecls.1 hd) hid rfl
    subst hsame
    cases hplain
  · exact hids.params d hd q hq (mem_filterMap.2 ⟨w, hw, hid⟩)

/-- What is known while a toplevel declaration is checked: the types of values, and the names by
which written types are read. -/
structure Outlook (p : Program) where
  ids : p.Coherent
  types : NodeMap Ty
  base : Scopes
  exprs : ∀ e, .expr e ∈ p.visits → types.get? e.id = none

namespace Outlook

variable {p : Program} (O : Outlook p)

def under (tps : List String) : Outlook p := { O with base := O.base.pushTypeParams tps }

def Owns (q : Param) : Prop :=
  O.types.get? q.id = some (O.base.resolve q.type).type ∧ ∃ d ∈ p.allDecls, d.body?.isSome ∧
    q ∈ d.params

structure Knows (t : Types) (r : Referent) : Prop where
  held : r ∈ p.referents
  type : r.isValue = true → t.get? r.id = O.types.get? r.id
  typed : r.isValue = true → ¬ Late p.decls r.id → (O.types.get? r.id).isSome
  param : ∀ q, r = .param q → O.Owns q

/-- Nothing is reported yet, no type has come into sight, values have the types they are known to
have, and only expressions can be written to. -/
structure Stands (c : Checker) : Prop where
  errors : c.errors = []
  fit : c.Fit p.regime
  clear : c.Clear p.nodes
  base : O.base.TypesFrom c.scopes
  names : c.scopes.All (O.Knows c.types)
  lefts : ∀ {i}, c.types.isLeftValue i = true → ∃ w ∈ p.visits, w.isPlain = true ∧ w.id? = some i

def Ahead (p : Program) (vs : List Visit) (c : Checker) : Prop :=
  ∀ i ∈ nodeIds vs, c.types.get? i = none ∧ c.types.isLeftValue i = false ∧ ¬ Late p.decls i

variable {O}

theorem Ahead.mono (h : Ahead p ws c) (hs : vs ⊆ ws) : Ahead p vs c :=
  fun i hi => h i (nodeIds_subset hs hi)

theorem Knows.later (h : O.Knows t r)
    (ht : r.isValue = true → t'.get? r.id = t.get? r.id) : O.Knows t' r where
  held := h.held
  type hr := (ht hr).trans (h.type hr)
  typed := h.typed
  param := h.param

namespace Stands

variable {c : Checker}

def region (h : O.Stands c) : Region p where
  ids := O.ids
  base := O.base
  param q := ∃ f ∈ c.scopes.top :: c.scopes.inner, ∃ x ∈ f, x.2 = .param q
  own := by
    rintro q ⟨f, hf, x, hx, he⟩
    exact ((h.names f hf x hx).param q he).2

theorem holds (h : O.Stands c) : c.Holds h.region := by
  rintro q ⟨f, hf, x, hx, he⟩
  have hknown := h.names f hf x hx
  rw [he] at hknown
  exact (hknown.type rfl).trans (hknown.param q rfl).1

theorem isLeftValue (h : O.Stands c) (hr : r ∈ p.referents) :
    c.types.isLeftValue r.id = false := by
  by_contra hleft
  obtain ⟨w, hw, hplain, hid⟩ := h.lefts (Bool.not_eq_false _ ▸ hleft)
  exact Program.referent_ne O.ids.toNodesApart hr hw hplain hid

theorem not_mem_inner (h : O.Stands c) {v : Visit} (hin : v.inner ⊆ p.visits) {f : Frame}
    (hf : f ∈ c.scopes.top :: c.scopes.inner) {x : String × Referent} (hx : x ∈ f) :
    x.2.id ∉ nodeIds v.inner := by
  intro hmem
  obtain ⟨w, hw, hid⟩ := mem_filterMap.1 hmem
  exact Program.referent_ne O.ids.toNodesApart (h.names f hf x hx).held (hin hw)
    (Visit.isPlain_inner hw) hid

end Stands

end Outlook

namespace Check

open Outlook

variable {p : Program} {O : Outlook p} {v : Visit} {c : Checker}

variable {i : NodeId}

theorem frame_node (h : O.Stands c) (hv : v ∈ p.visits) (hin : v.inner.Sublist p.visits)
    (hc : ∀ d, v = .enter d → d.isControl = false) (hi : p.nodes i)
    (hn : i ∉ nodeIds v.inner) : (node v c).2.types.get? i = c.types.get? i ∧
      (node v c).2.types.isLeftValue i = c.types.isLeftValue i :=
  ⟨(sets_node O.ids.toNodesApart hv hin).frame h.clear hi hn,
    (steady_node (R := h.region) hv hin.subset hc).lefts trivial h.fit hn⟩

theorem scopes_node (v : Visit) (c : Checker) : (node v c).2.scopes = c.scopes :=
  (echoes_node (L := .exact .refl) rfl v (List.Subset.refl _)).scopes c

theorem errors_node (h : (node v c).2.errors = []) : c.errors = [] :=
  (echoes_node (L := .exact .refl) rfl v (List.Subset.refl _)).errors c h

theorem used_node (v : Visit) (c : Checker) : c.refs.used ⊆ (node v c).2.refs.used :=
  (echoes_node (L := .exact .refl) rfl v (List.Subset.refl _)).used c

theorem stands_node (h : O.Stands c) (hv : v ∈ p.visits) (hin : v.inner.Sublist p.visits)
    (hc : ∀ d, v = .enter d → d.isControl = false) (he : (node v c).2.errors = []) :
    O.Stands (node v c).2 := by
  have hsteady := steady_node (R := h.region) hv hin.subset hc
  refine ⟨he, hsteady.fit trivial h.fit, (sets_node O.ids.toNodesApart hv hin).clear h.clear, ?_,
    ?_, fun {i} hi => ?_⟩
  · rw [scopes_node]
    exact h.base
  · rw [scopes_node]
    intro f hf x hx
    have hknown := h.names f hf x hx
    refine hknown.later fun hr => ?_
    rcases Program.mem_referents hknown.held with ⟨d, hd, heq⟩ | ⟨d, hd, q, hq, heq⟩
    · refine (frame_node h hv hin hc ?_ (h.not_mem_inner hin.subset hf hx)).1
      rw [heq]
      exact mem_filterMap.2 ⟨_, Program.mem_allDecls.1 hd, rfl⟩
    · have hq : h.region.param q := ⟨f, hf, x, hx, heq⟩
      rw [heq]
      exact (hsteady.holds trivial h.fit h.base he h.holds q hq).trans (h.holds q hq).symm
  · by_cases hmem : i ∈ nodeIds v.inner
    · obtain ⟨w, hw, hid⟩ := mem_filterMap.1 hmem
      exact ⟨w, hin.subset hw, Visit.isPlain_inner hw, hid⟩
    · exact h.lefts ((hsteady.lefts trivial h.fit hmem).symm.trans hi)

theorem reads_eq (h : O.Stands c) (ha : Ahead p v.inner c) (hin : v.inner ⊆ p.visits)
    (hi : Place.Reads (fun _ => True) (c.scopes, v) i) :
    c.types.get? i = O.types.get? i ∧ c.types.isLeftValue i = false := by
  cases hi with
  | expr he =>
    have hmem := Visit.mem_exprs.1 he
    have hahead := ha _ (mem_filterMap.2 ⟨_, hmem, rfl⟩)
    exact ⟨hahead.1.trans (O.exprs _ (hin hmem)).symm, hahead.2.1⟩
  | value hmem hl hk hr =>
    have hknown := h.names.lookup hl
    exact ⟨hknown.type hr, h.isLeftValue hknown.held⟩

theorem Scopes.match_refl (es : List Expr) (sc : Scopes) : sc.Match .refl es sc where
  typeParams := rfl
  types h _ _ := h
  paths {_ _ r} _ h _ := h.trans (congrArg some (Referent.over_refl r).symm)

theorem node_of_outcome (h : O.Stands c) (ha : Ahead p v.inner c) (hin : v.inner ⊆ p.visits)
    (he : (Place.outcome O.types (c.scopes, v)).errors = []) :
    (node v c).2.errors = [] ∧ (Place.outcome O.types (c.scopes, v)).refs.used ⊆
      (node v c).2.refs.used := by
  have hsame := node_alike (V := .refl) (c := .starting O.types c.scopes) (fun _ => False) rfl
    (by exact Scopes.match_refl _ _) (show c.errors = [] from h.errors) (fun _ hi =>
      absurd hi not_mem_nil) (fun i hi => ?_) he
    fun _ _ => trivial
  · exact ⟨hsame.1, fun i hi => (hsame.2 i hi).resolve_left id⟩
  · have hread := reads_eq h ha hin hi
    rw [Ty.map_over_refl]
    exact hread

theorem outcome_of_node (h : O.Stands c) (ha : Ahead p v.inner c) (hin : v.inner ⊆ p.visits)
    (he : (node v c).2.errors = []) : (Place.outcome O.types (c.scopes, v)).errors = [] := by
  refine (node_alike (V := .refl) (c := c) (fun _ => True) rfl (by exact Scopes.match_refl _ _)
    (show (Checker.starting O.types c.scopes).errors = _ from h.errors.symm) (fun _ _ =>
      .inl trivial) (fun i hi => ?_) he
    fun _ _ => trivial).1
  have hread := reads_eq h ha hin hi
  rw [Ty.map_over_refl]
  exact ⟨hread.1.symm, hread.2.symm⟩

/-! Steps over many nodes. -/

variable {d : Decl} {ty : TypeExpr}

section

variable {P P' : Prop} {vs ws : List Visit} {f g : Scopes → Scopes} {N M : Scopes → Prop}
  {ps qs : Scopes → List Place} {x y : Check Unit}

variable (O) in
def Told (ps : List Place) : Prop := ∀ pl ∈ ps, pl.Told O.types

variable (O) in
/-- What happened between two states: nothing was reported if and only if `N` holds and the places
are accepted one by one. Then nodes other than `vs` are as they were, and what the places use is
used. -/
structure Account (vs : List Visit) (N : Prop) (ps : List Place) (c c' : Checker) : Prop where
  accepts : c'.errors = [] ↔ N ∧ ∀ pl ∈ ps, pl.Judged O.types
  stands : c'.errors = [] → O.Stands c'
  frame : c'.errors = [] → ∀ {i}, p.nodes i → i ∉ nodeIds vs →
    c'.types.get? i = c.types.get? i ∧ c'.types.isLeftValue i = c.types.isLeftValue i
  uses : c'.errors = [] → ∀ pl ∈ ps, (pl.outcome O.types).refs.used ⊆ c'.refs.used

variable (O) in
/-- A step over the nodes `vs` at the places `ps`, which accounts for itself given `P`. -/
structure Judges (P : Prop) (vs : List Visit) (f : Scopes → Scopes) (N : Scopes → Prop)
    (ps : Scopes → List Place) (x : Check Unit) : Prop where
  scopes : ∀ c, (x c).2.scopes = f c.scopes
  errors : ∀ c, (x c).2.errors = [] → c.errors = []
  used : ∀ c : Checker, c.refs.used ⊆ (x c).2.refs.used
  account : ∀ {c}, P → O.Stands c → Ahead p vs c → Told O (ps c.scopes) →
    Account O vs (N c.scopes) (ps c.scopes) c (x c).2

namespace Judges

theorem pure : Judges O P [] id (fun _ => True) (fun _ => []) (Pure.pure ()) where
  scopes _ := rfl
  errors _ h := h
  used _ := List.Subset.refl _
  account _ hc _ _ := ⟨⟨fun _ => ⟨trivial, fun _ h => absurd h not_mem_nil⟩, fun _ => hc.errors⟩,
    fun _ => hc, fun _ _ _ _ => ⟨rfl, rfl⟩, fun _ _ h => absurd h not_mem_nil⟩

theorem bind (hx : Judges O P vs f N ps x) (hy : Judges O P' ws g M qs y)
    (h : ∀ i ∈ nodeIds ws, p.nodes i ∧ i ∉ nodeIds vs)
    (hP : ∀ {c}, P → O.Stands c → Told O (ps c.scopes) → (x c).2.errors = [] → P') :
    Judges O P (vs ++ ws) (fun sc => g (f sc)) (fun sc => N sc ∧ M (f sc))
      (fun sc => ps sc ++ qs (f sc)) (x >>= fun _ => y) where
  scopes c := by rw [bind_apply, hy.scopes, hx.scopes]
  errors c he := hx.errors c (hy.errors _ he)
  used c := List.Subset.trans (hx.used c) (hy.used _)
  account {c} hp hc ha ht := by
    have htx : Told O (ps c.scopes) := fun pl hpl => ht pl (mem_append_left _ hpl)
    have hfirst := hx.account hp hc (ha.mono (subset_append_left _ _)) htx
    have hsecond (he : (x c).2.errors = []) :
        Account O ws (M (f c.scopes)) (qs (f c.scopes)) (x c).2 (y (x c).2).2 := by
      have hahead : Ahead p ws (x c).2 := fun i hi => by
        obtain ⟨htype, hleft⟩ := hfirst.frame he (h i hi).1 (h i hi).2
        rw [htype, hleft]
        exact ha i (nodeIds_subset (subset_append_right _ _) hi)
      have hacc := hy.account (c := (x c).2) (hP hp hc htx he) (hfirst.stands he) hahead
      rw [hx.scopes c] at hacc
      exact hacc fun pl hpl => ht pl (mem_append_right _ hpl)
    refine ⟨⟨fun he => ?_, ?_⟩, fun he => ?_, fun he i hi hn => ?_, fun he pl hpl => ?_⟩
    · have hmid := hy.errors _ he
      obtain ⟨hN, hps⟩ := hfirst.accepts.1 hmid
      obtain ⟨hM, hqs⟩ := (hsecond hmid).accepts.1 he
      exact ⟨⟨hN, hM⟩, forall_mem_append.2 ⟨hps, hqs⟩⟩
    · rintro ⟨⟨hN, hM⟩, hall⟩
      obtain ⟨hps, hqs⟩ := forall_mem_append.1 hall
      have hmid := hfirst.accepts.2 ⟨hN, hps⟩
      exact (hsecond hmid).accepts.2 ⟨hM, hqs⟩
    · exact (hsecond (hy.errors _ he)).stands he
    · have hmid := hy.errors _ he
      rw [nodeIds_append, mem_append, not_or] at hn
      obtain ⟨htype, hleft⟩ := hfirst.frame hmid hi hn.1
      obtain ⟨htype', hleft'⟩ := (hsecond hmid).frame he hi hn.2
      exact ⟨htype'.trans htype, hleft'.trans hleft⟩
    · have hmid := hy.errors _ he
      rcases mem_append.1 hpl with hpl | hpl
      · exact List.Subset.trans (hfirst.uses hmid pl hpl) (hy.used _)
      · exact (hsecond hmid).uses he pl hpl

theorem given (hx : Judges O P vs f N ps x) (h : P' → P) : Judges O P' vs f N ps x :=
  ⟨hx.scopes, hx.errors, hx.used, fun hP => hx.account (h hP)⟩

theorem widen (hx : Judges O P vs f N ps x) (hs : vs ⊆ ws) (hp : ∀ sc, ps sc ⊆ qs sc)
    (hN : ∀ sc, (M sc ∧ ∀ pl ∈ qs sc, pl.Judged O.types) ↔ N sc ∧ ∀ pl ∈ ps sc, pl.Judged O.types)
    (hu : ∀ sc, ∀ pl ∈ qs sc, pl ∈ ps sc ∨ node pl.2 = Pure.pure ()) :
    Judges O P ws f M qs x where
  scopes := hx.scopes
  errors := hx.errors
  used := hx.used
  account {c} hP hc ha ht := by
    have hacc := hx.account hP hc (ha.mono hs) fun pl hpl => ht pl (hp _ hpl)
    refine ⟨hacc.accepts.trans (hN _).symm, hacc.stands, fun he i hi hn =>
      hacc.frame he hi fun h => hn (nodeIds_subset hs h), fun he pl hpl => ?_⟩
    rcases hu _ pl hpl with hpl | hsilent
    · exact hacc.uses he pl hpl
    · rw [Place.outcome, hsilent]
      exact nil_subset _

theorem plain (hx : Judges O P vs f N ps x) (hs : vs ⊆ ws) (hp : ∀ sc, ps sc ⊆ qs sc)
    (h : ∀ sc, ∀ pl ∈ qs sc, pl ∈ ps sc ∨ pl.2.isPlain = true) : Judges O P ws f N qs x := by
  refine hx.widen hs hp (fun sc => and_congr_right fun _ => ⟨fun hall pl hpl => hall pl (hp sc hpl),
    fun hall pl hpl => ?_⟩) fun sc pl hpl => (h sc pl hpl).imp_right node_plain
  exact (h sc pl hpl).elim (hall pl) Place.judged_of_plain

theorem inFrame (hx : Judges O P vs f N ps x) (hf : ∀ sc : Scopes, (f sc.push).pop = sc) :
    Judges O P vs id (fun sc => N sc.push) (fun sc => ps sc.push) (Check.inFrame x) where
  scopes c := (congrArg Scopes.pop (hx.scopes _)).trans (hf _)
  errors c := hx.errors { c with scopes := c.scopes.push }
  used c := hx.used { c with scopes := c.scopes.push }
  account {c} hP hc ha ht := by
    have hpush : O.Stands { c with scopes := c.scopes.push } :=
      ⟨hc.errors, ⟨hc.fit.made.push, hc.fit.typed.push, hc.fit.types⟩,
        hc.clear.withScopes hc.clear.scopes.push, hc.base.push, hc.names.push, hc.lefts⟩
    have hacc := hx.account hP hpush ha ht
    refine ⟨hacc.accepts, fun he => ?_, hacc.frame, hacc.uses⟩
    have h := hacc.stands he
    refine ⟨he, ⟨h.fit.made.pop, h.fit.typed.pop, h.fit.types⟩,
      h.clear.withScopes h.clear.scopes.pop, ?_, h.names.pop, h.lefts⟩
    change O.base.TypesFrom (x { c with scopes := c.scopes.push }).2.scopes.pop
    rw [hx.scopes, hf]
    exact hc.base

end Judges

theorem judges_node (hv : v ∈ p.visits) (hin : v.inner.Sublist p.visits)
    (hc : ∀ d, v = .enter d → d.isControl = false) (hapart : ∀ sc : Scopes, Place.Apart (sc, v)) :
    Judges O P v.inner id (fun _ => True) (fun sc => [(sc, v)]) (node v) where
  scopes := scopes_node v
  errors _ := errors_node
  used := used_node v
  account {c} _ h ha _ := by
    refine ⟨⟨fun he => ⟨trivial, ?_⟩, fun hall => ?_⟩, stands_node h hv hin hc,
      fun _ i => frame_node h hv hin hc, fun he => ?_⟩
    · exact forall_mem_singleton.2 ⟨outcome_of_node h ha hin.subset he, hapart _⟩
    · exact (node_of_outcome h ha hin.subset (hall.2 _ (.head _)).errors).1
    · exact forall_mem_singleton.2
        (node_of_outcome h ha hin.subset (outcome_of_node h ha hin.subset he)).2

theorem stands_setType (h : O.Stands c) (hnone : c.types.get? i = none)
    (hlate : ¬ Late p.decls i) (hfits : p.regime.Fits t) (hclear : t.Clear p.nodes)
    (hsig : p.nodes.written i → t.signature? = none) : O.Stands (setType i t c).2 where
  errors := h.errors
  fit := (leaf_setType i fun _ => hfits).fit (P := True) trivial h.fit (.inl trivial)
  clear := (sets_setType (L := fun _ => True) (fun _ => trivial) hclear hsig).clear h.clear
  base := h.base
  names f hf x hx := by
    have hknown := h.names f hf x hx
    refine hknown.later fun hr => get?_setType_of_ne (fun heq => ?_) t c
    have htyped := hknown.typed hr (heq ▸ hlate)
    rw [← hknown.type hr, heq, hnone] at htyped
    cases htyped
  lefts := h.lefts

theorem stands_late (h : O.Stands c) {O' : Outlook p} (hbase : O'.base = O.base) {t : Ty}
    (hlate : Late p.decls i) (hnone : O.types.get? i = none) (htold : O'.types.get? i = some t)
    (hsame : ∀ j, j ≠ i → O'.types.get? j = O.types.get? j) (hfits : p.regime.Fits t)
    (hclear : t.Clear p.nodes) (hsig : t.signature? = none) : O'.Stands (setType i t c).2 where
  errors := h.errors
  fit := (leaf_setType i fun _ => hfits).fit (P := True) trivial h.fit (.inl trivial)
  clear := (sets_setType (L := fun _ => True) (fun _ => trivial) hclear fun _ => hsig).clear h.clear
  base := hbase ▸ h.base
  names f hf x hx := by
    have hknown := h.names f hf x hx
    refine ⟨hknown.held, fun hr => ?_, fun hr hl => ?_, fun q hq => ?_⟩
    · by_cases heq : x.2.id = i
      · rw [heq, htold]
        exact (Types.get?_set_eq ..).trans (if_pos rfl)
      · rw [hsame _ heq, ← hknown.type hr]
        exact get?_setType_of_ne heq t c
    · have hne : x.2.id ≠ i := fun heq => hl (heq ▸ hlate)
      rw [hsame _ hne]
      exact hknown.typed hr hl
    · obtain ⟨htype, hd⟩ := hknown.param q hq
      have hne : q.id ≠ i := fun heq => by
        rw [heq, hnone] at htype
        cases htype
      refine ⟨?_, hd⟩
      rw [hbase, hsame _ hne]
      exact htype
  lefts := h.lefts

theorem judges_headed (hv : .enter d ∈ p.visits)
    (hin : (Visit.enter d).inner.Sublist p.visits) (hc : d.isControl = false)
    (hx : ∀ c, ∃ t, x c = setType d.id t (node (.enter d) c).2 ∧
      (c.Fit p.regime → p.regime.Fits t) ∧ (c.Clear p.nodes → t.Clear p.nodes) ∧
        (p.nodes.written d.id → t.signature? = none)) :
    Judges O P (.enter d :: (Visit.enter d).inner) id (fun _ => True) (fun sc => [(sc, .enter d)])
      x := by
  have hnode : Judges O P _ id (fun _ => True) (fun sc => [(sc, .enter d)]) (node (.enter d)) :=
    judges_node hv hin (fun _ he => by cases he; exact hc) fun _ => by cases d <;> trivial
  have hid : p.nodes d.id := mem_filterMap.2 ⟨_, hv, rfl⟩
  have hout : d.id ∉ nodeIds (Visit.enter d).inner := fun hmem => by
    obtain ⟨w, hw, he⟩ := mem_filterMap.1 hmem
    have hsame := eq_of_nodup_filterMap O.ids.nodes (hin.subset hw) hv he rfl
    subst hsame
    cases Visit.isPlain_inner hw
  have hstate (c : Checker) : ∃ t, (x c).2 = (setType d.id t (node (.enter d) c).2).2 :=
    (hx c).imp fun t h => congrArg Prod.snd h.1
  refine ⟨fun c => ?_, fun c he => ?_, fun c => ?_, fun {c} hP h ha ht => ?_⟩
  · obtain ⟨t, heq⟩ := hstate c
    rw [heq]
    exact scopes_node _ c
  · obtain ⟨t, heq⟩ := hstate c
    rw [heq] at he
    exact errors_node he
  · obtain ⟨t, heq⟩ := hstate c
    rw [heq]
    exact used_node _ c
  · obtain ⟨t, heq, hfits, hclear, hsig⟩ := hx c
    have hacc := hnode.account hP h (ha.mono (subset_cons_self _ _)) ht
    rw [heq]
    refine ⟨hacc.accepts, fun he => ?_, fun he i hi hn => ?_, hacc.uses⟩
    · have hown := ha d.id (.head _)
      refine stands_setType (hacc.stands he) ?_ hown.2.2 (hfits h.fit) (hclear h.clear) hsig
      exact (hacc.frame he hid hout).1.trans hown.1
    · obtain ⟨htype, hleft⟩ := hacc.frame he hi fun hmem => hn (.tail _ hmem)
      have hne : i ≠ d.id := fun heq => hn (heq ▸ mem_cons_self)
      exact ⟨(get?_setType_of_ne hne t _).trans htype, hleft⟩

theorem errors_define :
    (define n sp r c).2.errors = [] ↔ c.errors = [] ∧ c.scopes.innermost.lookup n = none := by
  refine ⟨(define_spec n sp r c).2.2, fun ⟨he, hnone⟩ => ?_⟩
  rw [define_apply]
  unfold Scopes.define
  rw [hnone]
  cases c.scopes.inner <;> exact he

theorem stands_define (h : O.Stands c) (n : String) (sp : Option Span)
    (hr : O.Knows c.types r) (hmade : r.Made p.regime.decl) (hclear : r.Clear p.nodes)
    (htype : ∀ d, r = .decl d → d.isType = false) (he : (define n sp r c).2.errors = []) :
    O.Stands (define n sp r c).2 where
  errors := he
  fit := fit_define h.fit n sp hmade fun _ hl => absurd trivial hl
  clear := (sets_define (L := fun _ => True) n sp hclear).clear h.clear
  base := by
    rw [(define_spec n sp r c).1]
    exact h.base.define n htype
  names := by
    rw [(define_spec n sp r c).1, types_define]
    exact h.names.define n hr
  lefts := by
    rw [types_define]
    exact h.lefts

theorem judges_defineParam (q : Param) :
    Judges O (O.Owns q) [] (·.declareParam q)
      (fun sc => (sc.resolve q.type).unknown = [] ∧ sc.innermost.lookup q.name = none) (fun _ => [])
      (defineParam q) where
  scopes c := (define_spec q.name q.span (.param q) (paramType q c).2).1
  errors c he := (quiet_paramType q).errors c (errors_define.1 he).1
  used c := by
    change c.refs.used ⊆ (define q.name q.span (.param q) (paramType q c).2).2.refs.used
    rw [(define_spec q.name q.span (.param q) _).2.1]
    exact (quiet_paramType q).used c
  account {c} hq h _ _ := by
    obtain ⟨htold, d, hd, hbody, hqd⟩ := hq
    have happly : (defineParam q c).2 = (define q.name q.span (.param q) (paramType q c).2).2 := rfl
    have hresolve : (paramType q c).2.errors = [] ↔ (c.scopes.resolve q.type).unknown = [] := by
      change c.errors ++ List.map _ _ = [] ↔ _
      rw [h.errors, nil_append, map_eq_nil_iff]
    have hget (i : NodeId) : (paramType q c).2.types.get? i =
        if i = q.id then some (c.scopes.resolve q.type).type else c.types.get? i :=
          Types.get?_set_eq ..
    have hparam (hu : (c.scopes.resolve q.type).unknown = []) : O.Stands (paramType q c).2 := by
      refine ⟨hresolve.2 hu, (leaf_paramType q).fit (P := True) trivial h.fit (.inl trivial),
        (sets_paramType (L := fun _ => True) (O.ids.params d hd q hqd)).clear h.clear,
        h.base, fun f hf x hx => ?_, h.lefts⟩
      have hknown := h.names f hf x hx
      refine ⟨hknown.held, fun hr => ?_, hknown.typed, hknown.param⟩
      rw [hget]
      split
      · rename_i heq
        rw [heq, htold, h.base.resolve hu]
      · exact hknown.type hr
    have hknows (hu : (c.scopes.resolve q.type).unknown = []) :
        O.Knows (paramType q c).2.types (.param q) := by
      refine ⟨mem_flatMap.2 ⟨d, hd, ?_⟩, fun _ => ?_, fun _ _ => ?_, fun q' he => ?_⟩
      · cases d with
        | externType => cases hbody
        | _ => exact .tail _ (mem_map_of_mem hqd)
      · exact ((hget q.id).trans (if_pos rfl)).trans ((h.base.resolve hu) ▸ htold.symm)
      · rw [show (Referent.param q).id = q.id from rfl, htold]
        rfl
      · cases he
        exact ⟨htold, d, hd, hbody, hqd⟩
    have hiff : (defineParam q c).2.errors = [] ↔ (c.scopes.resolve q.type).unknown = [] ∧
        c.scopes.innermost.lookup q.name = none := errors_define.trans (and_congr_left' hresolve)
    refine ⟨⟨fun he => ⟨hiff.1 he, fun _ hpl => absurd hpl not_mem_nil⟩, fun hall => hiff.2 hall.1⟩,
      fun he => ?_, fun he i hi _ => ?_, fun _ _ hpl => absurd hpl not_mem_nil⟩
    · have hu := (hiff.1 he).1
      exact stands_define (hparam hu) q.name q.span (hknows hu) trivial trivial
        (fun _ he => by cases he) he
    · have hne : i ≠ q.id := fun heq => O.ids.params d hd q hqd (heq ▸ hi)
      rw [happly, types_define]
      exact ⟨(hget i).trans (if_neg hne), rfl⟩

theorem judges_defineParams : (qs : List Param) → Judges O (∀ q ∈ qs, O.Owns q) []
    (·.declareParams qs) (·.Admits qs) (fun _ => []) (defineParams qs)
  | [] => .pure
  | q :: qs => by
    have hq : Judges O (∀ q' ∈ q :: qs, O.Owns q') [] (·.declareParam q) _ (fun _ => [])
        (defineParam q) :=
      (judges_defineParam q).given fun h => h q (.head _)
    refine (hq.bind (judges_defineParams qs) (fun _ hi => absurd hi not_mem_nil)
      fun h _ _ _ q' hq' => h q' (.tail _ hq')).widen (List.Subset.refl _)
        (fun _ => List.Subset.refl _) (fun sc => ?_) fun _ _ hpl => .inl hpl
    simp only [Scopes.Admits, and_assoc]
    rfl

theorem decl_of_written (h : d.written? = some ty) (c : Checker) :
    decl d c = setType d.id (c.scopes.resolve ty).type (node (.enter d) c).2 := by
  cases d with
  | var hd ty e =>
    cases h
    exact initialised_apply hd _ e c
  | const hd ty e =>
    cases h
    exact initialised_apply hd _ (some e) c
  | inst hd ty as =>
    cases h
    rfl
  | _ => cases h

theorem mem_declares (h : d.written? = some ty) (sc : Scopes) :
    (d.id, (sc.resolve ty).type) ∈ Place.declares (sc, .enter d) := by
  cases d <;> cases h <;> exact .head _

theorem exists_written (h : d.isValue = true) : ∃ ty, d.written? = some ty := by
  cases d <;> first | exact ⟨_, rfl⟩ | cases h

theorem judges_declared (hd : Judges O P d.visits id (fun _ => True) (fun sc => d.places sc)
    (decl d)) (hv : .enter d ∈ p.visits) (htype : d.isType = false) :
    Judges O P d.visits (·.declare d) (fun sc => sc.innermost.lookup d.name = none)
      (fun sc => d.places sc) (decl d >>= fun _ => defineDecl d) where
  scopes c := by
    rw [bind_apply, defineDecl, (define_spec _ _ _ _).1, hd.scopes]
    rfl
  errors c he := hd.errors c (errors_define.1 he).1
  used c := by
    rw [bind_apply, defineDecl, (define_spec _ _ _ _).2.1]
    exact hd.used c
  account {c} hP h ha ht := by
    have hacc := hd.account hP h ha ht
    have hmem := Program.mem_allDecls.2 hv
    have hscopes : (decl d c).2.scopes = c.scopes := hd.scopes c
    have hiff : (defineDecl d (decl d c).2).2.errors = [] ↔ (decl d c).2.errors = [] ∧
        c.scopes.innermost.lookup d.name = none := errors_define.trans (by rw [hscopes])
    have hknows : O.Knows (decl d c).2.types (.decl d) := by
      have hvalue (hr : d.isValue = true) : (decl d c).2.types.get? d.id = O.types.get? d.id ∧
          (O.types.get? d.id).isSome := by
        obtain ⟨ty, hty⟩ := exists_written hr
        have htold := ht _ (d.enter_mem_places c.scopes) _ (mem_declares hty c.scopes)
        have hset : (decl d c).2.types.get? d.id = some (c.scopes.resolve ty).type := by
          rw [decl_of_written hty c]
          exact (Types.get?_set_eq ..).trans (if_pos rfl)
        rw [hset, htold]
        exact ⟨rfl, rfl⟩
      exact ⟨Program.referents_subset hv d.self_mem_referents, fun hr => (hvalue hr).1,
        fun hr _ => (hvalue hr).2, fun _ he => by cases he⟩
    refine ⟨⟨fun he => ?_, fun h => ?_⟩, fun he => ?_, fun he i hi hn => ?_, fun he pl hpl => ?_⟩
    · obtain ⟨hdecl, hnone⟩ := hiff.1 he
      exact ⟨hnone, (hacc.accepts.1 hdecl).2⟩
    · exact hiff.2 ⟨hacc.accepts.2 ⟨trivial, h.2⟩, h.1⟩
    · refine stands_define (hacc.stands (hiff.1 he).1) d.name d.span hknows hmem ?_
        (fun _ he => ?_) he
      · exact (Program.ready_visits O.ids.toNodesApart).clear hv
      · cases he
        exact htype
    · rw [bind_apply, defineDecl, types_define]
      exact hacc.frame (hiff.1 he).1 hi hn
    · rw [bind_apply, defineDecl, (define_spec _ _ _ _).2.1]
      exact hacc.uses (hiff.1 he).1 pl hpl

end

/-! Statements and declarations. -/

section

variable {vs ws : List Visit} {f g : Scopes → Scopes} {ps qs : Scopes → List Place}
    {x y : Check Unit}

theorem apart_of_sublist (O : Outlook p) (h : (vs ++ ws).Sublist p.visits) :
    ∀ i ∈ nodeIds ws, p.nodes i ∧ i ∉ nodeIds vs := by
  intro i hi
  have hnd := O.ids.nodes.sublist (h.filterMap Visit.id?)
  rw [filterMap_append] at hnd
  refine ⟨nodeIds_subset h.subset (nodeIds_subset (subset_append_right _ _) hi), fun hi' => ?_⟩
  exact (List.nodup_append.1 hnd).2.2 i hi' i hi rfl

theorem Judges.next (hx : Judges O True vs f (fun _ => True) ps x)
    (hy : Judges O True ws g (fun _ => True) qs y) (h : (vs ++ ws).Sublist p.visits) :
    Judges O True (vs ++ ws) (fun sc => g (f sc)) (fun _ => True) (fun sc => ps sc ++ qs (f sc))
      (x >>= fun _ => y) :=
  (hx.bind hy (apart_of_sublist O h) fun _ _ _ _ => trivial).widen (List.Subset.refl _)
    (fun _ => List.Subset.refl _) (fun _ => by simp only [true_and]) fun _ _ hpl => .inl hpl

theorem judges_own {v : Visit} (hv : v ∈ p.visits) (hin : v.inner.Sublist p.visits)
    (hc : ∀ d, v = .enter d → d.isControl = false) (hapart : ∀ sc : Scopes, Place.Apart (sc, v)) :
    Judges O True v.inner id (fun _ => True) (fun sc => (sc, v) :: sc.all v.inner) (node v) := by
  refine (judges_node hv hin hc hapart).plain (List.Subset.refl _)
    (fun _ => cons_subset_cons _ (nil_subset _)) fun sc pl hpl => ?_
  rcases mem_cons.1 hpl with rfl | hpl
  · exact .inl (.head _)
  · obtain ⟨w, hw, rfl⟩ := mem_map.1 hpl
    exact .inr (Visit.isPlain_inner hw)

theorem Judges.stmt (hx : Judges O True vs f (fun _ => True) ps x)
    (hs : (Visit.stmt s).isPlain = true) :
    Judges O True (.stmt s :: vs) f (fun _ => True) (fun sc => (sc, .stmt s) :: ps sc) x :=
  hx.plain (subset_cons_self _ _) (fun _ => subset_cons_self _ _) fun _ pl hpl => by
    rcases mem_cons.1 hpl with rfl | hpl
    · exact .inr hs
    · exact .inl hpl

theorem judged_leave (hb : d.body? = none) (T : NodeMap Ty) (sc : Scopes) :
    Place.Judged T (sc, .leave d) where
  errors := rfl
  apart := by cases d <;> trivial

theorem place_of_bodiless (hb : d.body? = none) {sc : Scopes} {pl : Place}
    (hpl : pl ∈ d.places sc) :
    pl = (sc, .enter d) ∨ (∀ T, pl.Judged T) ∧ node pl.2 = Pure.pure () := by
  rw [d.places_of_bodiless hb] at hpl
  rcases mem_cons.1 hpl with rfl | hpl
  · exact .inl rfl
  · rcases mem_append.1 hpl with hpl | hpl
    · obtain ⟨w, hw, rfl⟩ := mem_map.1 hpl
      have hplain := Visit.isPlain_inner hw
      exact .inr ⟨fun _ => Place.judged_of_plain hplain, node_plain hplain⟩
    · cases mem_singleton.1 hpl
      exact .inr ⟨fun T => judged_leave hb T sc, rfl⟩

theorem Judges.bodiless (hx : Judges O True vs id (fun _ => True) (fun sc => [(sc, .enter d)]) x)
    (hvs : vs ⊆ ws) (hb : d.body? = none) :
    Judges O True ws id (fun _ => True) (fun sc => d.places sc) x := by
  have hsub (sc : Scopes) : [(sc, .enter d)] ⊆ d.places sc :=
    cons_subset.2 ⟨d.enter_mem_places sc, nil_subset _⟩
  refine hx.widen hvs hsub (fun sc => and_congr_right fun _ =>
    ⟨fun hall pl hpl => hall pl (hsub sc hpl),
    fun hall pl hpl => ?_⟩) fun sc pl hpl => (place_of_bodiless hb hpl).imp
      mem_singleton.2 And.right
  rcases place_of_bodiless hb hpl with rfl | h
  · exact hall _ (.head _)
  · exact h.1 _

theorem isControl_of_isType (h : d.isType = false) : d.isControl = false := by
  cases d <;> first | rfl | cases h

theorem judges_signed (hv : .enter d ∈ p.visits)
    (hin : (Visit.enter d).inner.Sublist p.visits) (hvalue : d.isValue = false)
    (hc : d.isControl = false)
    (hx : ∀ c, x c = setType d.id (.method (sig c).1) (node (.enter d) c).2)
    (hleaf : Leaf p.regime True (Signature.Made p.regime.decl p.regime.error) sig)
    (hsets : Sets p.nodes (fun _ => True) (Signature.Clear p.nodes) sig) :
    Judges O True (.enter d :: (Visit.enter d).inner) id (fun _ => True)
      (fun sc => [(sc, .enter d)]) x :=
  judges_headed hv hin hc fun c => ⟨_, hx c, fun h => hleaf.result trivial h (.inl trivial),
    hsets.result,
    fun hw => absurd hw ((Program.ready_visits O.ids.toNodesApart).not_written_decl hv hvalue)⟩

theorem judges_value (hty : d.written? = some ty) (hv : .enter d ∈ p.visits)
    (hin : (Visit.enter d).inner.Sublist p.visits) :
    Judges O True (.enter d :: (Visit.enter d).inner) id (fun _ => True)
      (fun sc => [(sc, .enter d)]) (decl d) := by
  refine judges_headed hv hin (by cases d <;> first | rfl | cases hty) fun c =>
    ⟨_, decl_of_written hty c, ?_⟩
  exact ⟨fun h => h.made.resolve ty (.inl trivial), fun h => h.scopes.resolve ty (.inl trivial),
    fun _ => Scopes.signature?_resolve ty⟩

mutual
theorem judges_stmt : (s : Stmt) → s.visits.Sublist p.visits → Typeless s.visits →
    Judges O True s.visits (s.after ·) (fun _ => True) (fun sc => s.places sc) (stmt s)
  | .block t b, hs, ht => (judges_block b ((sublist_cons_self _ _).trans hs)
      ht.tail).stmt rfl
  | .assign t l r, hs, _ => (judges_own (v := .stmt (.assign t l r)) (hs.subset (.head _))
      ((sublist_cons_self _ _).trans hs) nofun fun _ => trivial).plain (subset_cons_self _ _)
        (fun _ => List.Subset.refl _) fun _ _ hpl => .inl hpl
  | .call t e, hs, _ => (judges_own (v := .stmt (.call t e)) (hs.subset (.head _))
      ((sublist_cons_self _ _).trans hs) nofun fun _ => trivial).plain (subset_cons_self _ _)
        (fun _ => List.Subset.refl _) fun _ _ hpl => .inl hpl
  | .ifThen t c a none, hs, ht => by
    have hin := (sublist_cons_self _ _).trans hs
    exact ((judges_own (v := .stmt (.ifThen t c a none)) (hs.subset (.head _))
      ((sublist_append_left _ _).trans hin) nofun fun _ => trivial).next (judges_stmt a
        ((sublist_append_right _ _).trans hin) ht.tail.append.2)
          hin).plain (subset_cons_self _ _) (fun _ => List.Subset.refl _) fun _ _ hpl => .inl hpl
  | .ifThen t c a (some b), hs, ht => by
    have hin : (c.visits ++ (a.visits ++ b.visits)).Sublist p.visits :=
      append_assoc c.visits _ _ ▸ (sublist_cons_self _ _).trans hs
    have hab := (sublist_append_right _ _).trans hin
    have hnext := (judges_own (O := O) (v := .stmt (.ifThen t c a (some b))) (hs.subset (.head _))
      ((sublist_append_left _ _).trans hin) nofun fun _ => trivial).next
        ((judges_stmt a ((sublist_append_left _ _).trans hab) ht.tail.append.1.append.2).next
          (judges_stmt b ((sublist_append_right _ _).trans hab) ht.tail.append.2) hab) hin
    refine hnext.plain ?_ (fun sc => ?_) fun sc pl hpl => .inl ?_
    · rw [Stmt.visits, append_assoc]
      exact subset_cons_self _ _
    · rw [Stmt.places, append_assoc]
      exact List.Subset.refl _
    · rw [Stmt.places, append_assoc] at hpl
      exact hpl
  | .switch t e cs, hs, ht => by
    have hin := (sublist_cons_self _ _).trans hs
    exact ((judges_own (v := .stmt (.switch t e cs)) (hs.subset (.head _))
      ((sublist_append_left _ _).trans hin) nofun fun _ => trivial).next (judges_cases cs
        ((sublist_append_right _ _).trans hin) ht.tail.append.2)
          hin).plain (subset_cons_self _ _) (fun _ => List.Subset.refl _) fun _ _ hpl => .inl hpl
  | .decl t d, hs, ht => by
    have hin : d.visits.Sublist p.visits := (sublist_cons_self _ _).trans hs
    have htd : Typeless d.visits := ht.tail
    have htype := htd d d.enter_mem_visits
    have hd := judges_declared (judges_decl d hin (isControl_of_isType htype)
      (htd.mono (tail_subset _))) (hin.subset d.enter_mem_visits) htype
    refine hd.widen (subset_cons_self _ _) (fun _ => subset_cons_self _ _) (fun sc => ?_)
      fun _ pl hpl => ?_
    · simp only [Stmt.places, forall_mem_cons, true_and]
      exact and_congr_left' ⟨fun h => h.apart, fun h => ⟨rfl, h⟩⟩
    · rcases mem_cons.1 hpl with rfl | hpl
      · exact .inr rfl
      · exact .inl hpl
  | .ret t e, hs, _ => (judges_own (v := .stmt (.ret t e)) (hs.subset (.head _))
      ((sublist_cons_self _ _).trans hs) nofun fun _ => trivial).plain (subset_cons_self _ _)
        (fun _ => List.Subset.refl _) fun _ _ hpl => .inl hpl
  | .exit t, _, _ | .empty t, _, _ => (Judges.pure (O := O) (P := True)).stmt rfl
theorem judges_block : (b : Block) → b.visits.Sublist p.visits → Typeless b.visits →
    Judges O True b.visits id (fun _ => True) (fun sc => b.places sc) (block b)
  | .mk i ss, hs, ht => ((judges_stmts ss ((sublist_cons_self _ _).trans hs)
      ht.tail).inFrame fun sc =>
        (Stmt.afters_inner sc.inner_push_ne ss).2).plain (subset_cons_self _ _)
          (fun _ => subset_cons_self _ _) fun _ _ hpl => by
            rcases mem_cons.1 hpl with rfl | hpl
            · exact .inr rfl
            · exact .inl hpl
theorem judges_stmts : (ss : List Stmt) → (Stmt.allVisits ss).Sublist p.visits →
    Typeless (Stmt.allVisits ss) → Judges O True (Stmt.allVisits ss) (Stmt.afters · ss)
      (fun _ => True) (fun sc => Stmt.allPlaces sc ss) (stmts ss)
  | [], _, _ => .pure
  | s :: ss, hs, ht => (judges_stmt s ((sublist_append_left _ _).trans hs)
      ht.append.1).next (judges_stmts ss
        ((sublist_append_right _ _).trans hs) ht.append.2) hs
theorem judges_cases : (cs : List Case) → (Case.visits cs).Sublist p.visits →
    Typeless (Case.visits cs) →
    Judges O True (Case.visits cs) id (fun _ => True) (fun sc => Case.places sc cs) (cases cs)
  | [], _, _ => .pure
  | .run _ b :: cs, hs, ht => (judges_block b ((sublist_append_left _ _).trans hs)
      ht.append.1).next (judges_cases cs
        ((sublist_append_right _ _).trans hs) ht.append.2) hs
  | .fallThrough _ :: cs, hs, ht => judges_cases cs hs ht
theorem judges_decl : (d : Decl) → d.visits.Sublist p.visits → d.isControl = false →
    Typeless d.visits.tail → Judges O True d.visits id (fun _ => True) (fun sc => d.places sc)
      (decl d)
  | .header h fs, hs, _, _ => (judges_node (v := .enter (.header h fs)) (hs.subset (.head _))
      (nil_sublist _) (fun _ he => by cases he; rfl) fun _ => trivial).bodiless (nil_subset _) rfl
  | .struct h fs, hs, _, _ => (judges_node (v := .enter (.struct h fs)) (hs.subset (.head _))
      (nil_sublist _) (fun _ he => by cases he; rfl) fun _ => trivial).bodiless (nil_subset _) rfl
  | .externType h tps cs ms, hs, _, _ => (judges_node (v := .enter (.externType h tps cs ms))
      (hs.subset (.head _)) (nil_sublist _) (fun _ he => by cases he; rfl)
        fun _ => trivial).bodiless (nil_subset _) rfl
  | .package h tps qs, hs, _, _ =>
    (judges_node (v := .enter (.package h tps qs)) (hs.subset (.head _))
      (nil_sublist _) (fun _ he => by cases he; rfl) fun _ => trivial).bodiless (nil_subset _) rfl
  | .externFn h m, hs, _, _ => by
    have hv : .enter (.externFn h m) ∈ p.visits := hs.subset (.head _)
    exact (judges_signed hv (nil_sublist _) rfl rfl (fun _ => rfl) (leaf_methodType m)
      (sets_methodType ((Program.ready_visits O.ids.toNodesApart).clear hv))).bodiless
        (cons_subset_cons _ (nil_subset _)) rfl
  | .action h qs (.mk i ss), hs, _, ht => by
    have hv : .enter (.action h qs (.mk i ss)) ∈ p.visits := hs.subset (.head _)
    have hclear := (Program.ready_visits O.ids.toNodesApart).clear hv
    have hhead := judges_signed (O := O) (x := actionType qs >>= fun s => setType h.id (.method s))
      hv (nil_sublist _) rfl rfl (fun _ => rfl) (leaf_actionType qs) (sets_actionType hclear)
    have hss : (Visit.enter (.action h qs (.mk i ss)) :: Stmt.allVisits ss).Sublist p.visits :=
      (((sublist_append_left _ _).trans (sublist_cons_self _ _)).cons_cons _).trans hs
    have hbody := ((judges_defineParams (O := O) qs).bind (judges_stmts ss
      ((sublist_cons_self _ _).trans hss) ht.tail.append.1)
        (@apart_of_sublist _ [] _ O ((sublist_cons_self _ _).trans hss))
          fun _ _ _ _ => trivial).inFrame fun sc => sc.pop_action qs ss
    -- The parameters have the types of the head, where no type is in sight that is not at the base.
    have hall := hhead.bind hbody (apart_of_sublist O hss) fun {c} _ hc htold he q hq => by
      have hu := unknown_of_paramTypes (c := c) he q hq
      refine ⟨?_, _, Program.mem_allDecls.2 hv, rfl, hq⟩
      rw [hc.base.resolve hu]
      exact htold _ (.head _) _ (mem_map_of_mem (f := fun q : Param =>
        (q.id, (c.scopes.resolve q.type).type)) hq)
    refine hall.widen (cons_subset_cons _ fun v hv => .tail _ (mem_append_left _ hv)) (fun sc => ?_)
      (fun sc => ?_) fun sc pl hpl => ?_
    · exact cons_subset_cons _ fun pl hpl => .tail _ (mem_append_left _ hpl)
    · have hleave (T : NodeMap Ty) : Place.Judged T (sc, .leave (.action h qs (.mk i ss))) ↔
          sc.push.Admits qs :=
        ⟨fun h => h.apart, fun h => ⟨rfl, h⟩⟩
      have hblock (T : NodeMap Ty) : Place.Judged T (sc, .block (.mk i ss)) :=
        Place.judged_of_plain rfl
      simp only [Decl.places, forall_mem_cons, forall_mem_append, hleave, hblock, id,
        true_and, and_true]
      tauto
    · rcases mem_cons.1 hpl with rfl | hpl
      · exact .inl (.head _)
      · rcases mem_cons.1 hpl with rfl | hpl
        · exact .inr rfl
        · rcases mem_append.1 hpl with hpl | hpl
          · exact .inl (.tail _ hpl)
          · cases mem_singleton.1 hpl
            exact .inr rfl
  | .table h ks as d, hs, _, _ => by
    have hvs := (Decl.table h ks as d).visits_of_bodiless rfl
    rw [hvs] at hs
    refine (judges_headed (hs.subset (.head _)) (((sublist_append_left _ _).trans
      (sublist_cons_self _ _)).trans hs) rfl fun c => ⟨.table (.table h ks as d), rfl, fun _ => ?_,
        fun _ _ hq => absurd hq not_mem_nil, fun _ => rfl⟩).bodiless ?_ rfl
    · exact Program.mem_allDecls.2 (hs.subset (.head _))
    · rw [hvs]
      exact cons_subset_cons _ (subset_append_left _ _)
  | .control .., _, hc, _ => by cases hc
  | .inst h ty as, hs, _, _ => (judges_value rfl (hs.subset (.head _))
      (((sublist_append_left _ _).trans (sublist_cons_self _ _)).trans hs)).bodiless
        (cons_subset_cons _ (subset_append_left _ _)) rfl
  | .var h ty e, hs, _, _ => (judges_value rfl (hs.subset (.head _))
      (((sublist_append_left _ _).trans (sublist_cons_self _ _)).trans hs)).bodiless
        (cons_subset_cons _ (subset_append_left _ _)) rfl
  | .const h ty e, hs, _, _ => (judges_value rfl (hs.subset (.head _))
      (((sublist_append_left _ _).trans (sublist_cons_self _ _)).trans hs)).bodiless
        (cons_subset_cons _ (subset_append_left _ _)) rfl
end

theorem judges_locals : (ds : List Decl) → (Decl.allVisits ds).Sublist p.visits →
    Typeless (Decl.allVisits ds) →
    Judges O True (Decl.allVisits ds) (·.declares ds) (·.Takes ds) (fun sc => Decl.allPlaces sc ds)
      (locals ds)
  | [], _, _ => .pure
  | d :: ds, hs, ht => by
    have hd : d.visits.Sublist p.visits := (sublist_append_left _ _).trans hs
    have htype := ht d (mem_append_left _ d.enter_mem_visits)
    have hfirst := judges_declared (judges_decl (O := O) d hd (isControl_of_isType htype)
      (ht.mono fun v hv => mem_append_left _ (mem_of_mem_tail hv)))
        (hd.subset d.enter_mem_visits) htype
    exact hfirst.bind (judges_locals ds ((sublist_append_right _ _).trans hs)
      ht.append.2) (apart_of_sublist O hs) fun _ _ _ _ => trivial

end

/-! Controls. -/

section

variable {sc : Scopes}

theorem defineParams_append (qs rs : List Param) :
    defineParams (qs ++ rs) = (defineParams qs >>= fun _ => defineParams rs) := by
  induction qs with
  | nil => rfl
  | cons q qs ih =>
    rw [cons_append, defineParams, defineParams, ih]
    rfl

variable {outer : Scopes}

theorem typesFrom_declareParam (h : outer.TypesFrom sc) (q : Param) :
    outer.TypesFrom (sc.declareParam q) := h.define q.name fun _ he => by cases he

theorem unknown_of_admits (h : outer.TypesFrom sc) (ha : sc.Admits qs) :
    ∀ q ∈ qs, (outer.resolve q.type).unknown = [] := by
  induction qs generalizing sc with
  | nil => exact fun _ hq => absurd hq not_mem_nil
  | cons q qs ih =>
    refine forall_mem_cons.2 ⟨?_, ih (typesFrom_declareParam h q) ha.2.2⟩
    rw [h.resolve ha.1]
    exact ha.1

theorem errors_paramTypes (hc : c.errors = [])
    (h : ∀ q ∈ qs, (c.scopes.resolve q.type).unknown = []) : (paramTypes qs c).2.errors = [] := by
  induction qs generalizing c with
  | nil => exact hc
  | cons q qs ih =>
    refine ih (c := (paramType q c).2) ?_ fun q hq => h q (.tail _ hq)
    change c.errors ++ List.map _ (c.scopes.resolve q.type).unknown = []
    rw [hc, h q (.head _)]
    rfl

theorem mem_used_paramTypes :
    i ∈ (paramTypes qs c).2.refs.used ↔ i ∈ c.refs.used ∨
      ∃ q ∈ qs, i ∈ (c.scopes.resolve q.type).uses := by
  induction qs generalizing c with
  | nil => simp [paramTypes]
  | cons q qs ih =>
    refine (ih (c := (paramType q c).2)).trans ?_
    simp only [exists_mem_cons_iff, ← or_assoc]
    exact or_congr ((mem_used_foldl_markUsed _ _).trans or_comm) Iff.rfl

theorem used_defineParams (h : outer.TypesFrom c.scopes)
    (ha : c.scopes.Admits qs) (hq : q ∈ qs) (hi : i ∈ (outer.resolve q.type).uses) :
    i ∈ (defineParams qs c).2.refs.used := by
  induction qs generalizing c with
  | nil => cases hq
  | cons q' qs ih =>
    have hscopes : (defineParam q' c).2.scopes = c.scopes.declareParam q' :=
      (define_spec q'.name q'.span (.param q') (paramType q' c).2).1
    rcases mem_cons.1 hq with rfl | hq
    · refine (walks_defineParams qs).used (defineParam q c).2 ?_
      change i ∈ (define q.name q.span (.param q) (paramType q c).2).2.refs.used
      rw [(define_spec q.name q.span (.param q) _).2.1]
      exact (mem_used_foldl_markUsed _ _).2 (.inl (h.resolve ha.1 ▸ hi))
    · refine ih (c := (defineParam q' c).2) ?_ ?_ hq
      · rw [hscopes]
        exact typesFrom_declareParam h q'
      · rw [hscopes]
        exact ha.2.2

end

theorem account_control
    (hs : (Decl.control h tps ps cps ls b).visits.Sublist p.visits)
    (htype : Typeless (Decl.control h tps ps cps ls b).visits.tail) (hbase : O.base = c.scopes)
    (hnone : c.scopes.All fun r => ∀ q, r ≠ .param q) (hc : O.Stands c)
    (ha : Ahead p (Decl.control h tps ps cps ls b).visits c)
    (htold : Told O ((Decl.control h tps ps cps ls b).places c.scopes)) :
    Account O (Decl.control h tps ps cps ls b).visits True
      ((Decl.control h tps ps cps ls b).places c.scopes)
      c (decl (.control h tps ps cps ls b) c).2 := by
  let d : Decl := .control h tps ps cps ls b
  let sc := c.scopes.pushTypeParams tps
  let c₁ : Checker := { c with scopes := sc }
  have hv : .enter d ∈ p.visits := hs.subset (.head _)
  have hin : (Decl.allVisits ls ++ b.visits).Sublist p.visits :=
    ((sublist_append_left _ _).trans (sublist_cons_self _ _)).trans hs
  have hc₁ : (O.under tps).Stands c₁ := by
    refine ⟨hc.errors, ⟨hc.fit.made, hc.fit.typed, hc.fit.types⟩, hc.clear.pushTypeParams tps,
      ⟨congrArg (tps :: ·) hc.base.typeParams, hc.base.types⟩, fun f hf x hx => ?_, hc.lefts⟩
    have hknown := hc.names f hf x hx
    exact ⟨hknown.held, hknown.type, hknown.typed, fun q hq => absurd hq (hnone f hf x hx q)⟩
  have howns : ∀ q ∈ cps ++ ps, (O.under tps).Owns q := fun q hq => by
    refine ⟨?_, d, Program.mem_allDecls.2 hv, rfl, hq⟩
    change O.types.get? q.id = some ((O.base.pushTypeParams tps).resolve q.type).type
    rw [hbase]
    exact htold _ (.head _) _ (mem_map_of_mem (f := fun q : Param =>
      (q.id, (sc.resolve q.type).type)) hq)
  have hbody := (judges_locals (O := O.under tps) ls ((sublist_append_left _ _).trans hin)
    htype.append.1.append.1).bind (judges_block b
      ((sublist_append_right _ _).trans hin)
        htype.append.1.append.2)
          (apart_of_sublist O hin) fun _ _ _ _ => trivial
  have hparams (sc : Scopes) : sc.declareParams (cps ++ ps) = (sc.declareParams cps).declareParams
      ps :=
    foldl_append
  have hinner := ((judges_defineParams (cps ++ ps)).bind hbody (@apart_of_sublist _ [] _ O hin)
    fun _ _ _ _ => trivial).inFrame fun sc =>
      (congrArg (fun sc : Scopes => (sc.declares ls).pop) (hparams sc.push)).trans
        (sc.pop_control ps cps ls)
  have hdecl : (decl d c).2 = { (inFrame
      (defineParams (cps ++ ps) >>= fun _ => locals ls >>= fun _ => block b)
      c₁).2 with scopes := c.scopes } := by
    have hscopes := congrArg Scopes.popTypeParams (hinner.scopes c₁)
    rw [defineParams_append] at hscopes ⊢
    exact congrArg (fun sc => Checker.mk sc _ _ _) hscopes
  have hplaces : d.places c.scopes = (c.scopes, .enter d) ::
    (Decl.allPlaces (sc.push.declareParams (cps ++ ps)) ls
      ++ b.places ((sc.push.declareParams (cps ++ ps)).declares ls) ++ [(c.scopes, .leave d)]) := by
    rw [hparams]
    rfl
  have hacc := hinner.account howns hc₁
    (fun i hi => ha i (.tail _ (nodeIds_subset (subset_append_left _ _) hi))) fun pl hpl => by
      refine htold pl ?_
      rw [hplaces]
      exact .tail _ (mem_append_left _ hpl)
  -- The place of the control itself is accepted if its parameters can be declared.
  have henter (hadmits : sc.push.Admits (cps ++ ps)) : Place.Judged O.types (c.scopes, .enter d) :=
    ⟨errors_paramTypes (c := .starting O.types sc) rfl
      (unknown_of_admits (Scopes.TypesFrom.refl sc).push hadmits), trivial⟩
  have hleave : Place.Judged O.types (c.scopes, .leave d) ↔ sc.push.Admits (cps ++ ps) ∧
      (sc.push.declareParams (cps ++ ps)).Takes ls := by
    rw [hparams]
    exact ⟨fun h => h.apart, fun h => ⟨rfl, h⟩⟩
  rw [show decl (.control h tps ps cps ls b) c = decl d c from rfl, hdecl, hplaces]
  refine ⟨hacc.accepts.trans ?_, fun he => ?_, fun he i hi hn => hacc.frame he hi fun hmem => hn ?_,
    fun he pl hpl => ?_⟩
  · constructor
    · rintro ⟨⟨hadmits, htakes, -⟩, hall⟩
      refine ⟨trivial, forall_mem_cons.2 ⟨henter hadmits, forall_mem_append.2 ⟨hall, ?_⟩⟩⟩
      exact forall_mem_singleton.2 (hleave.2 ⟨hadmits, htakes⟩)
    · rintro ⟨-, hall⟩
      obtain ⟨hall, hlast⟩ := forall_mem_append.1 (forall_mem_cons.1 hall).2
      obtain ⟨hadmits, htakes⟩ := hleave.1 (hlast _ (.head _))
      exact ⟨⟨hadmits, htakes, trivial⟩, hall⟩
  · have hafter := hacc.stands he
    have hnames := hafter.names
    rw [hinner.scopes c₁] at hnames
    refine ⟨he, ⟨hc.fit.made, fun _ _ _ _ _ hl => absurd trivial hl, hafter.fit.types⟩,
      ⟨hc.clear.scopes, hafter.clear.types, hafter.clear.written⟩, hc.base, fun f hf x hx => ?_,
        hafter.lefts⟩
    have hknown := hnames f hf x hx
    exact ⟨hknown.held, hknown.type, hknown.typed, fun q hq => absurd hq (hnone f hf x hx q)⟩
  · exact nodeIds_subset (fun v hv => .tail _ (mem_append_left _ hv)) hmem
  · rcases mem_cons.1 hpl with rfl | hpl
    · intro i hi
      obtain ⟨⟨hadmits, -⟩, -⟩ := hacc.accepts.1 he
      rcases (mem_used_paramTypes (c := .starting O.types sc)).1 hi with hi | ⟨q, hq, hi⟩
      · cases hi
      · exact hbody.used _ (used_defineParams (c := { c₁ with scopes := sc.push })
          (Scopes.TypesFrom.refl sc).push hadmits hq hi)
    · rcases mem_append.1 hpl with hpl | hpl
      · exact hacc.uses he pl hpl
      · cases mem_singleton.1 hpl
        exact nil_subset _

end Check

end MatchAction
