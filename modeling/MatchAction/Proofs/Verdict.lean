import MatchAction.Proofs.Acceptance

/-!
When a whole program is accepted: its toplevel names are told apart, and its nodes are accepted one
by one. Toplevel values are in sight before they have a type, so what is known of them depends on
which toplevel declaration a node stands in.
-/

namespace MatchAction

open List

def NodeMap.without {α : Type} (m : NodeMap α) (is : List NodeId) : NodeMap α :=
  ⟨m.entries.filter fun e => !is.contains e.1⟩

theorem NodeMap.get?_without {α : Type} (m : NodeMap α) (is : List NodeId) (i : NodeId) :
    (m.without is).get? i = if i ∈ is then none else m.get? i := by
  obtain ⟨es⟩ := m
  unfold without get?
  induction es with
  | nil => simp
  | cons e es ih =>
    obtain ⟨j, a⟩ := e
    by_cases hij : i = j
    · subst hij
      rw [filter_cons]
      by_cases hi : i ∈ is
      · rw [if_neg (by simpa using hi), ih, if_pos hi, if_pos hi]
      · rw [if_pos (by simpa using hi), if_neg hi, lookup_cons, beq_self_eq_true,
          lookup_cons, beq_self_eq_true]
    · have hbeq : (i == j) = false := beq_eq_false_iff_ne.2 hij
      rw [filter_cons]
      split
      · simpa only [lookup_cons, hbeq] using ih
      · rw [lookup_cons, hbeq]
        exact ih

def Decl.valueIds (ds : List Decl) : List NodeId := (ds.filter Decl.isValue).map (·.id)

variable {ds : List Decl} {i : NodeId}

theorem Decl.mem_valueIds : i ∈ valueIds ds ↔ Late ds i := by
  simp only [valueIds, mem_map, mem_filter, Late, and_assoc]

theorem Decl.id_mem_nodeIds {d : Decl} (h : d ∈ ds) : d.id ∈ nodeIds (Decl.allVisits ds) :=
  mem_filterMap.2 ⟨_, Decl.mem_allVisits.2 ⟨d, h, d.enter_mem_visits⟩, rfl⟩

structure Place.Accepted (T : NodeMap Ty) (kept : NodeId → Prop) (pl : Place) :
    Prop extends pl.Judged T where
  used : ∀ i ∈ (pl.outcome T).refs.used, kept i

/-- Each declaration is accepted with the types that `T` has for its identity, but for those of the
values that are still to come. -/
def Decl.Accepted (T : NodeId → NodeMap Ty) (kept : NodeId → Prop) (sc : Scopes) : List Decl → Prop
  | [] => True
  | d :: ds => (∀ pl ∈ d.places sc, pl.Accepted ((T d.id).without (valueIds (d :: ds))) kept) ∧
    Decl.Accepted T kept sc ds

namespace Program

variable {p : Program} {T : NodeId → NodeMap Ty} {d : Decl}

/-- A toplevel declaration is told the types of what it declares itself and of the toplevel values.
What others declare is told to them, since parameters that are shared may have other types there. -/
structure Tells (p : Program) (T : NodeId → NodeMap Ty) : Prop where
  told : ∀ d ∈ p.decls, ∀ e ∈ p.decls, e.isValue = true ∨ e.id = d.id →
    ∀ pl ∈ e.places p.top, pl.Told (T d.id)
  exprs : ∀ d ∈ p.decls, ∀ e, .expr e ∈ p.visits → (T d.id).get? e.id = none

/-- All types are declared at the toplevel. -/
def Flat (p : Program) : Prop := ∀ d ∈ p.decls, Typeless d.visits.tail

theorem flat_iff : p.Flat ↔ ∀ d ∈ p.decls, ∀ e ∈ d.visits.tail.filterMap Visit.decl?,
    e.isType = false := by
  refine forall₂_congr fun d _ => ⟨fun h e he => ?_, fun h e he =>
    h e (mem_filterMap.2 ⟨_, he, rfl⟩)⟩
  obtain ⟨v, hv, hd⟩ := mem_filterMap.1 he
  cases v with
  | enter e' =>
    cases hd
    exact h _ hv
  | _ => cases hd

def outlook (hids : p.Coherent) (hT : p.Tells T) (hd : d ∈ p.decls) (ds : List Decl) :
    Outlook p where
  ids := hids
  types := (T d.id).without (Decl.valueIds ds)
  base := p.top
  exprs e he := by
    rw [NodeMap.get?_without, hT.exprs d hd e he, ite_self]

theorem all_top {R : Referent → Prop} (h : ∀ d ∈ p.decls, R (.decl d)) : p.top.All R := by
  obtain ⟨hinner, htop⟩ := p.hold_top R
  rw [Scopes.All, hinner]
  refine forall_mem_singleton.2 fun x hx => ?_
  obtain ⟨-, d, hd, heq⟩ := htop.top x hx
  exact heq ▸ h d hd

section

variable {before after : List Decl} {d : Decl}

theorem sublist_of_split (hsplit : p.decls = before ++ d :: after) :
    (d.visits ++ Decl.allVisits after).Sublist p.visits := by
  rw [Program.visits, hsplit, Decl.allVisits_append]
  exact sublist_append_right _ _

theorem not_late (hids : p.Coherent) (hsplit : p.decls = before ++ d :: after)
    (hvalue : d.isValue = false) (hi : i ∈ nodeIds d.visits) : ¬ Late p.decls i := by
  rintro ⟨d', hd', hv, rfl⟩
  have hnd := hids.nodes
  rw [Program.visits, hsplit, Decl.allVisits_append, Decl.allVisits, nodeIds_append,
    nodeIds_append] at hnd
  obtain ⟨-, hnd, hapart⟩ := List.nodup_append.1 hnd
  rw [hsplit, mem_append, mem_cons] at hd'
  rcases hd' with hd' | rfl | hd'
  · exact hapart _ (Decl.id_mem_nodeIds hd') _ (mem_append_left _ hi) rfl
  · rw [hvalue] at hv
    cases hv
  · exact (List.nodup_append.1 hnd).2.2 _ hi _ (Decl.id_mem_nodeIds hd') rfl

theorem late_of_split (hsplit : p.decls = before ++ after) (h : Late after i) :
    Late p.decls i := by
  obtain ⟨d, hd, h⟩ := h
  exact ⟨d, hsplit ▸ mem_append_right _ hd, h⟩

end

end Program

variable {pl : Place} {x : NodeId × Ty}

/-- Where the types of parameters are read. -/
def Decl.base (sc : Scopes) : Decl → Scopes
  | .control _ tps .. => sc.pushTypeParams tps
  | _ => sc

theorem Place.declares_cases (h : x ∈ pl.declares) : ∃ d, pl.2 = .enter d ∧
    ((∃ ty, d.written? = some ty ∧ x = (d.id, (pl.1.resolve ty).type)) ∨
      d.body?.isSome ∧ ∃ q ∈ d.params, x = (q.id, ((d.base pl.1).resolve q.type).type)) := by
  obtain ⟨sc, v⟩ := pl
  cases v with
  | enter d =>
    refine ⟨d, rfl, ?_⟩
    cases d with
    | action hd ps b =>
      obtain ⟨q, hq, rfl⟩ := mem_map.1 h
      exact .inr ⟨rfl, q, hq, rfl⟩
    | control hd tps ps cps ls b =>
      obtain ⟨q, hq, rfl⟩ := mem_map.1 h
      exact .inr ⟨rfl, q, hq, rfl⟩
    | var hd ty e | const hd ty e | inst hd ty as =>
      cases mem_singleton.1 h
      exact .inl ⟨ty, rfl, rfl⟩
    | _ => cases h
  | _ => cases h

theorem Scopes.TypesFrom.stable (outer : Scopes) :
    Stable (fun r => ∀ d, r = .decl d → d.isType = false) outer.TypesFrom :=
  ⟨.push, fun _ h => absurd (h _ rfl) nofun, fun h _ hr => h.define _ hr⟩

theorem Typeless.brings (h : Typeless vs) :
    Brings (fun r => ∀ d, r = .decl d → d.isType = false) vs := by
  rintro v hv r hr d rfl
  cases v with
  | enter e =>
    have heq : d = e := by
      cases e with
      | externType => exact Referent.decl.inj (mem_singleton.1 hr)
      | _ =>
        rcases mem_cons.1 hr with heq | hmem
        · exact Referent.decl.inj heq
        · obtain ⟨q, -, heq⟩ := mem_map.1 hmem
          cases heq
    exact heq ▸ h e hv
  | _ => cases hr

namespace Decl

variable {d e : Decl} {sc sc' : Scopes}

theorem eq_of_bodiless (hb : e.body? = none) (hpl : (sc', .enter d) ∈ e.places sc) :
    d = e ∧ sc' = sc := by
  rw [places_of_bodiless hb, mem_cons, mem_append, mem_singleton] at hpl
  rcases hpl with heq | hpl | heq
  · cases heq
    exact ⟨rfl, rfl⟩
  · obtain ⟨v, hv, heq⟩ := mem_map.1 hpl
    cases heq
    cases Visit.isPlain_inner hv
  · cases heq

theorem isValue_of_body (hpl : (sc', .enter d) ∈ e.places sc) (hbody : d.body?.isSome) :
    e.isValue = false := by
  cases e with
  | inst | var | const =>
    obtain ⟨rfl, -⟩ := eq_of_bodiless rfl hpl
    cases hbody
  | _ => rfl

/-- What has a body below a toplevel declaration is an action, and sees the types that are in sight
where the declaration begins. -/
theorem typesFrom_places (htype : Typeless e.visits.tail) (hpl : (sc', .enter d) ∈ e.places sc)
    (hbody : d.body?.isSome) : d = e ∧ sc' = sc ∨
      ∃ h ps b, d = .action h ps b ∧ (e.base sc).TypesFrom sc' := by
  have haction (h : d.isType = false) : ∃ h ps b, d = .action h ps b := by
    cases d with
    | action hd ps b => exact ⟨hd, ps, b, rfl⟩
    | control => cases h
    | _ => cases hbody
  have hvisit : .enter d ∈ e.visits := by
    rw [← e.map_snd_places sc]
    exact mem_map_of_mem hpl
  cases e with
  | action hd ps b =>
    have htypeless : Typeless (Decl.action hd ps b).visits := by
      obtain ⟨i, ss⟩ := b
      rintro d (_ | ⟨_, hd⟩)
      · rfl
      · exact htype d hd
    obtain ⟨h, qs, b', rfl⟩ := haction (htypeless d hvisit)
    exact .inr ⟨h, qs, b', rfl, (Scopes.TypesFrom.stable sc).decl _ htypeless.brings
      (.refl sc) _ hpl⟩
  | control hd tps ps cps ls b =>
    have hstable := Scopes.TypesFrom.stable (sc.pushTypeParams tps)
    obtain ⟨hin, hi⟩ := hstable.enterControl (.refl _) ps cps fun _ _ => nofun
    have hls := htype.append.1.append.1.brings
    have hbrings := htype.append.1.append.2.brings
    rcases mem_cons.1 hpl with heq | hrest
    · cases heq
      exact .inl ⟨rfl, rfl⟩
    · have hinner : .enter d ∈ (Decl.control hd tps ps cps ls b).visits.tail := by
        have hmem := mem_map_of_mem (f := Prod.snd) hrest
        rw [← (Decl.control hd tps ps cps ls b).map_snd_places sc]
        exact hmem
      obtain ⟨h, qs, b', rfl⟩ := haction (htype d hinner)
      refine .inr ⟨h, qs, b', rfl, ?_⟩
      rw [mem_append, mem_append, mem_singleton] at hrest
      rcases hrest with (hrest | hrest) | heq
      · exact hstable.decls ls hls hin hi _ hrest
      · exact hstable.block b hbrings (hstable.declares hin hi fun l hl => hls.decl hl) _ hrest
      · cases heq
  | _ => exact .inl (eq_of_bodiless rfl hpl)

end Decl

variable {kept : NodeId → Prop}

namespace Check

open Outlook

variable {p : Program} {T : NodeId → NodeMap Ty} {before after : List Decl} {d : Decl} {c : Checker}

structure Pending (hids : p.Coherent) (hT : p.Tells T) (ds : List Decl) (c : Checker) : Prop where
  scopes : c.scopes = p.top
  errors : c.errors = []
  stands : ∀ {d} (hd : d ∈ p.decls), (p.outlook hids hT hd ds).Stands c
  fresh : ∀ i ∈ nodeIds (Decl.allVisits ds), c.types.get? i = none ∧ c.types.isLeftValue i = false

structure Passed (hids : p.Coherent) (hT : p.Tells T) (d : Decl) (ds : List Decl) (c c' : Checker) :
    Prop where
  accepts : c'.errors = [] ↔
    ∀ pl ∈ d.places p.top, pl.Judged ((T d.id).without (Decl.valueIds (d :: ds)))
  pending : c'.errors = [] → Pending hids hT ds c'
  uses : c'.errors = [] → ∀ pl ∈ d.places p.top,
    (pl.outcome ((T d.id).without (Decl.valueIds (d :: ds)))).refs.used ⊆ c'.refs.used

/-- At the toplevel only values matter, and these have the same type for every declaration. -/
theorem stands_elsewhere {hids : p.Coherent} {hT : p.Tells T} {hd : d ∈ p.decls} {d' : Decl}
    (hd' : d' ∈ p.decls) (hsc : c.scopes = p.top) (h : (p.outlook hids hT hd ds).Stands c) :
    (p.outlook hids hT hd' ds).Stands c := by
  refine ⟨h.errors, h.fit, h.clear, h.base, fun f hf x hx => ?_, h.lefts⟩
  have htop : p.top.All fun r => ∃ e ∈ p.decls, r = .decl e := p.all_top fun e he => ⟨e, he, rfl⟩
  obtain ⟨e, he, heq⟩ := htop f (hsc ▸ hf) x hx
  have hknown := h.names f hf x hx
  have hsame (hr : x.2.isValue = true) : (p.outlook hids hT hd ds).types.get? x.2.id =
      (p.outlook hids hT hd' ds).types.get? x.2.id := by
    rw [heq] at hr ⊢
    obtain ⟨ty, hty⟩ := exists_written hr
    have htold {d : Decl} (hd : d ∈ p.decls) :=
      hT.told d hd e he (.inl hr) _ (e.enter_mem_places p.top) _ (mem_declares hty p.top)
    change ((T d.id).without _).get? e.id = ((T d'.id).without _).get? e.id
    rw [NodeMap.get?_without, NodeMap.get?_without, htold hd, htold hd']
  refine ⟨hknown.held, fun hr => (hknown.type hr).trans (hsame hr), fun hr hl => ?_, fun q hq => ?_⟩
  · exact hsame hr ▸ hknown.typed hr hl
  · rw [heq] at hq
    cases hq

theorem mem_of_split (hsplit : p.decls = before ++ d :: after) : d ∈ p.decls :=
  hsplit ▸ mem_append_right _ (.head _)

theorem told_of_split (hids : p.Coherent) (hT : p.Tells T) (hsplit : p.decls = before ++ d :: after)
    (hvalue : d.isValue = false) :
    Told (p.outlook hids hT (mem_of_split hsplit) (d :: after)) (d.places p.top) := by
  intro pl hpl x hx
  have hd : d ∈ p.decls := mem_of_split hsplit
  have hmem : pl ∈ p.places := mem_flatMap.2 ⟨d, hd, hpl⟩
  have hlate : ¬ Late p.decls x.1 := by
    obtain ⟨d', hpl', ⟨ty, -, rfl⟩ | ⟨-, q, hq, rfl⟩⟩ := Place.declares_cases hx
    · refine Program.not_late hids hsplit hvalue (mem_filterMap.2 ⟨pl.2, ?_, ?_⟩)
      · rw [← d.map_snd_places p.top]
        exact mem_map_of_mem hpl
      · rw [hpl']
        rfl
    · rintro ⟨e, he, -, heq⟩
      have henter : .enter d' ∈ p.visits := hpl' ▸ Program.mem_visits hmem
      have hid : e.id = q.id := heq
      have hnode : q.id ∈ nodeIds p.visits := hid ▸ Decl.id_mem_nodeIds he
      exact hids.params d' (Program.mem_allDecls.2 henter) q hq hnode
  have hnot : x.1 ∉ Decl.valueIds (d :: after) := fun h =>
    hlate (Program.late_of_split hsplit (Decl.mem_valueIds.1 h))
  change ((T d.id).without _).get? x.1 = _
  rw [NodeMap.get?_without, if_neg hnot]
  exact hT.told d hd d hd (.inr rfl) pl hpl x hx

theorem valueIds_cons_of_not (h : d.isValue = false) :
    Decl.valueIds (d :: ds) = Decl.valueIds ds := by
  rw [Decl.valueIds, filter_cons, h]
  rfl

theorem passed_other (hids : p.Coherent) (hT : p.Tells T) (hflat : p.Flat)
    (hsplit : p.decls = before ++ d :: after) (hvalue : d.isValue = false)
    (hc : Pending hids hT (d :: after) c) : Passed hids hT d after c (decl d c).2 := by
  have hall := Program.sublist_of_split hsplit
  have hs := (sublist_append_left d.visits _).trans hall
  have hd : d ∈ p.decls := mem_of_split hsplit
  have htype : Typeless d.visits.tail := hflat d hd
  have htold := told_of_split hids hT hsplit hvalue
  have hahead : Ahead p d.visits c := fun i hi => by
    obtain ⟨hnone, hleft⟩ := hc.fresh i (nodeIds_subset (subset_append_left _ _) hi)
    exact ⟨hnone, hleft, Program.not_late hids hsplit hvalue hi⟩
  have hacc : Account (p.outlook hids hT hd (d :: after)) d.visits True (d.places p.top) c
      (decl d c).2 := by
    rw [← hc.scopes] at htold ⊢
    by_cases hcontrol : d.isControl = true
    · cases d with
      | control h tps ps cps ls b =>
        refine account_control hs htype hc.scopes.symm ?_ (hc.stands hd) hahead htold
        rw [hc.scopes]
        exact p.all_top fun _ _ _ he => by cases he
      | _ => cases hcontrol
    · exact (judges_decl d hs (Bool.eq_false_iff.2 hcontrol) htype).account trivial
        (hc.stands hd) hahead htold
  have hscopes : (decl d c).2.scopes = p.top := ((walks_decl d).scopes c).trans hc.scopes
  have hsame : p.outlook hids hT hd (d :: after) = p.outlook hids hT hd after := by
    simp only [Program.outlook, valueIds_cons_of_not hvalue]
  refine ⟨hacc.accepts.trans (iff_of_eq (true_and _)), fun he => ⟨hscopes, he, fun hd' => ?_,
    fun i hi => ?_⟩, hacc.uses⟩
  · exact stands_elsewhere hd' hscopes (hsame ▸ hacc.stands he)
  have hapart := apart_of_sublist (p.outlook hids hT hd after) hall i hi
  obtain ⟨htype, hleft⟩ := hacc.frame he hapart.1 hapart.2
  rw [htype, hleft]
  exact hc.fresh i (nodeIds_subset (subset_append_right _ _) hi)

theorem mem_valueIds_cons (hvalue : d.isValue = true) (hi : i ≠ d.id) :
    i ∈ Decl.valueIds (d :: ds) ↔ i ∈ Decl.valueIds ds := by
  rw [Decl.valueIds, filter_cons, hvalue]
  exact mem_cons.trans (or_iff_right hi)

theorem bodiless_of_isValue (h : d.isValue = true) :
    d.body? = none ∧ d.isControl = false ∧ ∀ sc : Scopes, Place.Apart (sc, .enter d) := by
  cases d <;> first | exact ⟨rfl, rfl, fun _ => trivial⟩ | cases h

theorem ahead_inner (hids : p.Coherent) {v : Visit} (hin : v.inner ⊆ p.visits)
    (hfresh : ∀ i ∈ nodeIds v.inner, c.types.get? i = none ∧ c.types.isLeftValue i = false) :
    Ahead p v.inner c := by
  intro i hi
  obtain ⟨hnone, hleft⟩ := hfresh i hi
  refine ⟨hnone, hleft, ?_⟩
  rintro ⟨e, he, -, rfl⟩
  obtain ⟨w, hw, hid⟩ := mem_filterMap.1 hi
  have hreferent : .decl e ∈ p.referents := Program.referents_subset
    (Program.visits_subset_of_mem he e.enter_mem_visits) e.self_mem_referents
  exact Program.referent_ne hids.toNodesApart hreferent (hin hw) (Visit.isPlain_inner hw) hid

theorem passed_value (hids : p.Coherent) (hT : p.Tells T) (hsplit : p.decls = before ++ d :: after)
    (hvalue : d.isValue = true) (hc : Pending hids hT (d :: after) c) :
    Passed hids hT d after c (decl d c).2 := by
  obtain ⟨ty, hty⟩ := exists_written hvalue
  have hall := Program.sublist_of_split hsplit
  have hs := (sublist_append_left d.visits _).trans hall
  have hv : .enter d ∈ p.visits := hs.subset d.enter_mem_visits
  obtain ⟨hbody, hcontrol, hapart⟩ := bodiless_of_isValue hvalue
  have hvisits := d.visits_of_bodiless hbody
  have hin : (Visit.enter d).inner.Sublist p.visits := by
    refine List.Sublist.trans ?_ hs
    rw [hvisits]
    exact (sublist_append_left _ _).trans (sublist_cons_self _ _)
  have hinner {i : NodeId} (hi : i ∈ nodeIds (Visit.enter d).inner) : i ∈ nodeIds d.visits := by
    rw [hvisits]
    exact nodeIds_subset (fun v hv => .tail _ (mem_append_left _ hv)) hi
  have hahead : Ahead p (Visit.enter d).inner c := ahead_inner hids hin.subset fun i hi =>
    hc.fresh i (nodeIds_subset (subset_append_left _ _) (hinner hi))
  have hkind : ∀ e, Visit.enter d = .enter e → e.isControl = false := fun _ he => by
    cases he
    exact hcontrol
  have hd : d ∈ p.decls := mem_of_split hsplit
  have hstands := hc.stands hd
  have hplace : (p.top, .enter d) ∈ p.places := mem_flatMap.2 ⟨d, hd, d.enter_mem_places p.top⟩
  have hlate : Late p.decls d.id := ⟨d, hd, hvalue, rfl⟩
  have hid : d.id ∈ nodeIds d.visits := mem_filterMap.2 ⟨_, d.enter_mem_visits, rfl⟩
  have hnext : d.id ∉ Decl.valueIds after := fun hmem => by
    obtain ⟨e, he, -, heq⟩ := Decl.mem_valueIds.1 hmem
    exact (apart_of_sublist (p.outlook hids hT hd after) hall _ (heq ▸ Decl.id_mem_nodeIds he)).2
      hid
  have hscopes := hc.scopes
  have houtcome := outcome_of_node (v := .enter d) hstands hahead hin.subset
  have hnode := node_of_outcome (v := .enter d) hstands hahead hin.subset
  rw [hscopes] at houtcome hnode
  rw [decl_of_written hty c]
  refine ⟨⟨fun he pl hpl => ?_, fun hjudged => ?_⟩,
    fun he => ⟨(scopes_node _ c).trans hscopes, he, fun hd' => ?_, fun i hi => ?_⟩,
      fun he pl hpl => ?_⟩
  · rcases place_of_bodiless hbody hpl with rfl | h
    · exact ⟨houtcome he, hapart _⟩
    · exact h.1 _
  · exact (hnode (hjudged _ (d.enter_mem_places p.top)).errors).1
  · refine stands_elsewhere hd' ((scopes_node _ c).trans hscopes) (stands_late
      (stands_node hstands hv hin hkind he) (show (p.outlook hids hT hd after).base = _ from rfl)
        hlate ?_ ?_
      (fun j hj => ?_) (hstands.fit.made.resolve ty (.inl trivial))
      (hstands.clear.scopes.resolve ty (.inl trivial)) (Scopes.signature?_resolve ty))
    · change ((T d.id).without _).get? d.id = none
      rw [NodeMap.get?_without, if_pos (Decl.mem_valueIds.2 ⟨d, .head _, hvalue, rfl⟩)]
    · change ((T d.id).without _).get? d.id = _
      rw [NodeMap.get?_without, if_neg hnext, hscopes]
      exact hT.told d hd d hd (.inr rfl) _ (d.enter_mem_places p.top) _ (mem_declares hty p.top)
    · change ((T d.id).without _).get? j = ((T d.id).without _).get? j
      rw [NodeMap.get?_without, NodeMap.get?_without]
      simp only [mem_valueIds_cons hvalue hj]
  · have hapart := apart_of_sublist (p.outlook hids hT hd after) hall i hi
    obtain ⟨htype, hleft⟩ := frame_node hstands hv hin hkind hapart.1 fun hmem => hapart.2
      (hinner hmem)
    have hne : i ≠ d.id := fun heq => hapart.2 (heq ▸ hid)
    refine ⟨(get?_setType_of_ne hne _ _).trans (htype.trans ?_), hleft.trans ?_⟩
    · exact (hc.fresh i (nodeIds_subset (subset_append_right _ _) hi)).1
    · exact (hc.fresh i (nodeIds_subset (subset_append_right _ _) hi)).2
  · rcases place_of_bodiless hbody hpl with rfl | h
    · exact (hnode (houtcome he)).2
    · rw [Place.outcome, h.2]
      exact nil_subset _

theorem passed_decl (hids : p.Coherent) (hT : p.Tells T) (hflat : p.Flat)
    (hsplit : p.decls = before ++ d :: after) (hc : Pending hids hT (d :: after) c) :
    Passed hids hT d after c (decl d c).2 := by
  cases hvalue : d.isValue with
  | true => exact passed_value hids hT hsplit hvalue hc
  | false => exact passed_other hids hT hflat hsplit hvalue hc

theorem accepted_of_decls (hids : p.Coherent) (hT : p.Tells T) (hflat : p.Flat) :
    (after : List Decl) → ∀ {before c}, p.decls = before ++ after → Pending hids hT after c →
      (decls after c).2.errors = [] → (∀ i ∈ (decls after c).2.refs.used, kept i) →
        Decl.Accepted T kept p.top after
  | [], _, _, _, _, _, _ => trivial
  | d :: ds, before, c, hsplit, hc, he, hk => by
    have hpassed := passed_decl hids hT hflat hsplit hc
    have hfirst : (decl d c).2.errors = [] := ((walks_decls ds).errors _ he).1
    refine ⟨fun pl hpl => ⟨hpassed.accepts.1 hfirst pl hpl, fun i hi => hk i ?_⟩, ?_⟩
    · exact (walks_decls ds).used _ (hpassed.uses hfirst pl hpl hi)
    · exact accepted_of_decls hids hT hflat ds (show _ = (before ++ [d]) ++
        ds by rw [hsplit, append_assoc]; rfl) (hpassed.pending hfirst) he hk

theorem errors_of_accepted (hids : p.Coherent) (hT : p.Tells T) (hflat : p.Flat) :
    (after : List Decl) → ∀ {before c}, p.decls = before ++ after → Pending hids hT after c →
      Decl.Accepted T kept p.top after → (decls after c).2.errors = []
  | [], _, _, _, hc, _ => hc.errors
  | d :: ds, before, c, hsplit, hc, ha => by
    have hpassed := passed_decl hids hT hflat hsplit hc
    have hfirst := hpassed.accepts.2 fun pl hpl => (ha.1 pl hpl).toJudged
    exact errors_of_accepted hids hT hflat ds (show _ = (before ++ [d]) ++
      ds by rw [hsplit, append_assoc]; rfl) (hpassed.pending hfirst) ha.2

theorem errors_defineAll {c : Checker} :
    (defineAll ds c).2.errors = [] ↔ c.errors = [] ∧ c.scopes.Takes ds := by
  induction ds generalizing c with
  | nil => exact (and_iff_left trivial).symm
  | cons d ds ih =>
    change (defineAll ds (defineDecl d c).2).2.errors = [] ↔ _
    rw [ih, defineDecl, errors_define, (define_spec _ _ _ _).1, and_assoc]
    rfl

theorem types_defineAll (ds : List Decl) (c : Checker) : (defineAll ds c).2.types = c.types := by
  induction ds generalizing c with
  | nil => rfl
  | cons d ds ih => exact (ih _).trans (types_define _ _ _ c)

theorem pending_start (hids : p.Coherent) (hT : p.Tells T) (hnames : Scopes.empty.Takes p.decls) :
    Pending hids hT p.decls (defineAll p.decls ⟨.empty, .empty, .empty, []⟩).2 := by
  have htop : (defineAll p.decls ⟨.empty, .empty, .empty, []⟩).2.scopes = p.top :=
    (walks_defineAll p.decls).scopes _
  have htypes := types_defineAll p.decls ⟨.empty, .empty, .empty, []⟩
  have hmem (d : Decl) (hd : d ∈ p.decls) : .enter d ∈ p.visits :=
    Program.visits_subset_of_mem hd d.enter_mem_visits
  have herr : (defineAll p.decls ⟨.empty, .empty, .empty, []⟩).2.errors = [] :=
    errors_defineAll.2 ⟨rfl, hnames⟩
  refine ⟨htop, herr, fun {d₀} _ => ⟨herr, ?_, ?_, ?_, ?_, ?_⟩, fun i _ => ?_⟩
  · refine fit_defineAll (fun d hd => ⟨Program.mem_allDecls.2 (hmem d hd), fun _ => trivial⟩)
      ⟨?_, ?_, nofun⟩
    · exact fun f hf => by
        rw [mem_singleton.1 hf]
        exact nofun
    · exact fun f hf => by
        rw [mem_singleton.1 hf]
        exact nofun
  · exact (sets_defineAll (L := fun _ => False) fun d hd =>
      (Program.ready_visits hids.toNodesApart).clear (hmem d hd)).clear p.clear_start
  · rw [htop]
    exact .refl _
  · rw [htop, htypes]
    refine p.all_top fun d hd => ⟨Program.referents_subset (hmem d hd) d.self_mem_referents,
      fun hr => ?_, fun hr hl => absurd ⟨d, hd, hr, rfl⟩ hl, fun _ he => by cases he⟩
    change none = ((T d₀.id).without _).get? d.id
    rw [NodeMap.get?_without, if_pos (Decl.mem_valueIds.2 ⟨d, hd, hr, rfl⟩)]
  · rw [htypes]
    exact nofun
  · rw [htypes]
    exact ⟨rfl, rfl⟩

end Check

namespace Program

variable {p : Program} {T : NodeId → NodeMap Ty}

structure Accepted (p : Program) (T : NodeId → NodeMap Ty) (kept : NodeId → Prop) : Prop where
  names : Scopes.empty.Takes p.decls
  nodes : Decl.Accepted T kept p.top p.decls

theorem accepted_of_check (hids : p.Coherent) (hT : p.Tells T) (hflat : p.Flat)
    (herr : p.check.errors = []) : p.Accepted T (· ∈ p.check.refs.used) := by
  have hnames := (Check.errors_defineAll.1 ((Check.walks_decls p.decls).errors _ herr).1).2
  exact ⟨hnames, Check.accepted_of_decls hids hT hflat p.decls (show _ = [] ++ _ from rfl)
    (Check.pending_start hids hT hnames) herr fun _ hi => hi⟩

theorem check_of_accepted (hids : p.Coherent) (hT : p.Tells T) (hflat : p.Flat)
    (h : p.Accepted T kept) : p.check.errors = [] :=
  Check.errors_of_accepted hids hT hflat p.decls (show _ = [] ++ _ from rfl)
    (Check.pending_start hids hT h.names) h.nodes

/-- The types that the toplevel declaration with an identity is told. -/
def declared (p : Program) (i : NodeId) : NodeMap Ty :=
  ⟨(p.decls.filter fun e => e.isValue || e.id == i).flatMap fun e =>
    (e.places p.top).flatMap Place.declares⟩

theorem mem_declared : x ∈ (p.declared i).entries ↔
    ∃ e ∈ p.decls, (e.isValue = true ∨ e.id = i) ∧ ∃ pl ∈ e.places p.top, x ∈ pl.declares := by
  simp only [declared, mem_flatMap, mem_filter, Bool.or_eq_true, beq_iff_eq, and_assoc]

theorem enter_of_declared (h : (p.declared j).get? i ≠ none) :
    ∃ d, .enter d ∈ p.visits ∧ (d.id = i ∨ ∃ q ∈ d.params, q.id = i) := by
  obtain ⟨t, ht⟩ := Option.ne_none_iff_exists'.1 h
  obtain ⟨e, he, -, pl, hpl, hx⟩ := mem_declared.1 (NodeMap.mem_of_get? ht)
  obtain ⟨d, hd, hown⟩ := Place.declares_cases hx
  refine ⟨d, hd ▸ mem_visits (mem_flatMap.2 ⟨e, he, hpl⟩), ?_⟩
  rcases hown with ⟨ty, -, heq⟩ | ⟨-, q, hq, heq⟩
  · exact .inl (congrArg Prod.fst heq).symm
  · exact .inr ⟨q, hq, (congrArg Prod.fst heq).symm⟩

theorem place_unique (hids : p.NodesApart) {pl' : Place} (h : pl ∈ p.places) (h' : pl' ∈ p.places)
    (hi : pl.2.id? = some i) (hi' : pl'.2.id? = some i) : pl = pl' := by
  have hnd := hids.nodes
  rw [← p.map_snd_places, nodeIds, filterMap_map] at hnd
  exact eq_of_nodup_filterMap hnd h h' hi hi'

/-- Parameters below a toplevel declaration have the types that are read where it begins. -/
theorem resolve_param (hflat : p.Flat) (herr : p.check.errors = []) (he : e ∈ p.decls)
    (hpl : (sc, .enter d) ∈ e.places p.top) (hbody : d.body?.isSome) {q : Param}
    (hq : q ∈ d.params) :
    (d.base sc).resolve q.type = (e.base p.top).resolve q.type := by
  have hfine := p.fine_of_errors herr _ (mem_flatMap.2 ⟨e, he, hpl⟩)
  rcases Decl.typesFrom_places (hflat e he) hpl hbody with ⟨rfl, rfl⟩ | ⟨hd, ps, b, rfl, hfrom⟩
  · rfl
  · exact (hfrom.resolve (hfine q hq)).symm

theorem declares_unique (hids : p.Coherent) (hflat : p.Flat) (herr : p.check.errors = [])
    {e e' : Decl} (he : e ∈ p.decls) (he' : e' ∈ p.decls)
    (hown : e.isValue = false → e'.isValue = false → e.id = e'.id) {pl' : Place}
    (hpl : pl ∈ e.places p.top) (hpl' : pl' ∈ e'.places p.top) {x' : NodeId × Ty}
    (hx : x ∈ pl.declares) (hx' : x' ∈ pl'.declares) (heq : x.1 = x'.1) : x = x' := by
  have hmem : pl ∈ p.places := mem_flatMap.2 ⟨e, he, hpl⟩
  have hmem' : pl' ∈ p.places := mem_flatMap.2 ⟨e', he', hpl'⟩
  obtain ⟨sc, v⟩ := pl
  obtain ⟨sc', v'⟩ := pl'
  obtain ⟨d, rfl, hd⟩ := Place.declares_cases hx
  obtain ⟨d', rfl, hd'⟩ := Place.declares_cases hx'
  have hdecl : d ∈ p.allDecls := mem_allDecls.2 (mem_visits hmem)
  have hdecl' : d' ∈ p.allDecls := mem_allDecls.2 (mem_visits hmem')
  rcases hd with ⟨ty, hty, rfl⟩ | ⟨hbody, q, hq, rfl⟩ <;>
    rcases hd' with ⟨ty', hty', rfl⟩ | ⟨hbody', q', hq', rfl⟩
  · cases place_unique hids.toNodesApart hmem hmem' rfl (congrArg some heq.symm)
    rw [hty] at hty'
    cases hty'
    rfl
  · refine absurd ?_ (hids.params d' hdecl' q' hq')
    exact mem_filterMap.2 ⟨_, mem_visits hmem, congrArg some heq⟩
  · refine absurd ?_ (hids.params d hdecl q hq)
    exact mem_filterMap.2 ⟨_, mem_visits hmem', congrArg some heq.symm⟩
  · have hid := hown (Decl.isValue_of_body hpl hbody) (Decl.isValue_of_body hpl' hbody')
    have hsame := eq_of_nodup_filterMap hids.nodes (visits_subset_of_mem he e.enter_mem_visits)
      (visits_subset_of_mem he' e'.enter_mem_visits) rfl (congrArg some hid.symm)
    cases hsame
    have htype := (hids.shared d hdecl d' hdecl' q hq q' hq' heq).1
    refine Prod.ext heq ?_
    change ((d.base sc).resolve q.type).type = ((d'.base sc').resolve q'.type).type
    rw [resolve_param hflat herr he hpl hbody hq, resolve_param hflat herr he hpl' hbody' hq',
      htype]

theorem tells_declared (hids : p.Coherent) (hflat : p.Flat) (herr : p.check.errors = []) :
    p.Tells p.declared where
  told d hd e he hown pl hpl x hx := by
    cases hget : (p.declared d.id).get? x.1 with
    | none =>
      have hne := lookup_eq_none_iff.1 hget x (mem_declared.2 ⟨e, he, hown, pl, hpl, hx⟩)
      simp at hne
    | some t =>
      obtain ⟨e', he', hown', pl', hpl', hx'⟩ := mem_declared.1 (NodeMap.mem_of_get? hget)
      refine congrArg some (congrArg Prod.snd (declares_unique hids hflat herr he' he ?_ hpl' hpl
        hx' hx rfl))
      intro hvalue' hvalue
      rw [hown'.resolve_left (Bool.eq_false_iff.1 hvalue'),
        hown.resolve_left (Bool.eq_false_iff.1 hvalue)]
  exprs d _ e he := by
    by_contra hne
    obtain ⟨d', henter, hid | ⟨q, hq, hid⟩⟩ := enter_of_declared hne
    · exact referent_ne hids.toNodesApart (referents_subset henter d'.self_mem_referents) he rfl
        (congrArg some hid.symm)
    · exact hids.params d' (mem_allDecls.2 henter) q hq (mem_filterMap.2
        ⟨_, he, congrArg some hid.symm⟩)

end Program

end MatchAction
