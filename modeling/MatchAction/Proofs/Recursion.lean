import MatchAction.Proofs.Bodies
import MatchAction.Proofs.Nesting

namespace MatchAction

open List

section Relations

variable (R : Decl → Decl → Prop) (Named : Decl → String → Prop)

def Involved (d : Decl) : Prop := (∃ a, R d a) ∨ ∃ c, R c d

def Round (names : List String) : Prop :=
  (2 ≤ names.length ∧ names.head? = names.getLast?) ∧
    ∃ ds, List.Forall₂ Named ds names ∧ ds.IsChain R ∧ ds.head? = ds.getLast?

structure CalleesFirst (callers : List NodeId) : Prop where
  nodup : callers.Nodup
  mem : ∀ i, i ∈ callers ↔ ∃ d a, R d a ∧ d.id = i
  after : ∀ l₁ i l₂, callers = l₁ ++ i :: l₂ → ∀ d a, R d a → d.id = i → (∃ b, R a b) → a.id ∈ l₁

/-- What comes of a discovery along a relation: a failure exactly if the relation has a cycle, with
the names of one, and else the work. -/
structure Exact (slot : Nat) (r : Except Failure (Edit Program) × Context) : Prop where
  recursive : (∃ c, r.1 = .error (.recursiveInlining c)) ↔ ∃ d, Relation.TransGen R d d
  round : ∀ c, r.1 = .error (.recursiveInlining c) → Round R Named c.names
  work : (¬ ∃ d, Relation.TransGen R d d) →
    r.1 = .ok .keep ∧ CalleesFirst R (r.2.takeWork slot).1.callers

variable {R Named}

theorem Round.exists_transGen (h : Round R Named names) :
    ∃ d, Relation.TransGen R d d := by
  obtain ⟨⟨hlong, -⟩, ds, hnamed, hwalk, hclosed⟩ := h
  rw [← hnamed.length_eq] at hlong
  exact exists_transGen_of_isChain hlong hwalk hclosed

theorem exists_chain_of_map {β : Type} {f : Decl → β}
    (hinj : ∀ d d', Involved R d → Involved R d' → f d = f d' → d = d') {x y : β} {l : List β}
    (hl : (x :: y :: l).IsChain fun x y => ∃ d a, R d a ∧ f d = x ∧ f a = y) :
    ∃ ds : List Decl, ds.map f = x :: y :: l ∧ ds.IsChain R ∧ ∀ d ∈ ds, Involved R d := by
  induction l generalizing x y with
  | nil =>
    obtain ⟨d, a, hR, rfl, rfl⟩ := isChain_pair.1 hl
    refine ⟨[d, a], rfl, isChain_pair.2 hR, forall_mem_cons.2 ⟨.inl ⟨a, hR⟩, ?_⟩⟩
    exact forall_mem_singleton.2 (.inr ⟨d, hR⟩)
  | cons z l ih =>
    obtain ⟨⟨d, a, hR, rfl, rfl⟩, hrest⟩ := isChain_cons_cons.1 hl
    obtain ⟨ds, hmap, hchain, hall⟩ := ih hrest
    cases ds with
    | nil => cases hmap
    | cons a' ds =>
      obtain ⟨ha, htail⟩ := List.cons.inj hmap
      obtain rfl := hinj a' a (hall a' (.head _)) (.inr ⟨d, hR⟩) ha
      exact ⟨d :: a' :: ds, congrArg (f d :: ·) hmap, hchain.cons_cons hR,
        forall_mem_cons.2 ⟨.inl ⟨a', hR⟩, hall⟩⟩

end Relations

namespace WorkList

structure Depicts (R : Decl → Decl → Prop) (names : NodeMap String) (edges : List InlineEdge) :
    Prop where
  edges : ∀ i j, (∃ e ∈ edges, e.caller = i ∧ e.callee = j) ↔ ∃ d a, R d a ∧ d.id = i ∧ a.id = j
  apart : ∀ d d', Involved R d → Involved R d' →
    nodeName names d.id = nodeName names d'.id → d = d'

namespace Depicts

variable {R : Decl → Decl → Prop} {Named : Decl → String → Prop} {names : NodeMap String}
  {edges : List InlineEdge}

theorem exists_of_mem (h : Depicts R names edges)
    (hi : i ∈ edges.flatMap fun e => [e.caller, e.callee]) : ∃ d, Involved R d ∧ d.id = i := by
  obtain ⟨e, he, hi⟩ := mem_flatMap.1 hi
  obtain ⟨d, a, hR, hd, ha⟩ := (h.edges e.caller e.callee).1 ⟨e, he, rfl, rfl⟩
  rcases mem_cons.1 hi with rfl | hi
  · exact ⟨d, .inl ⟨a, hR⟩, hd⟩
  · exact ⟨a, .inr ⟨d, hR⟩, ha.trans (mem_singleton.1 hi).symm⟩

theorem namedApart (h : Depicts R names edges) : NamedApart names edges := by
  intro i hi j hj hij
  obtain ⟨d, hd, rfl⟩ := h.exists_of_mem hi
  obtain ⟨d', hd', rfl⟩ := h.exists_of_mem hj
  rw [h.apart d d' hd hd' hij]

theorem mem_needs (h : Depicts R names edges) :
    m ∈ (graph names edges).needs n ↔
      ∃ d a, R d a ∧ nodeName names d.id = n ∧ nodeName names a.id = m := by
  rw [mem_needs_graph]
  constructor
  · rintro ⟨e, he, rfl, rfl⟩
    obtain ⟨d, a, hR, hd, ha⟩ := (h.edges e.caller e.callee).1 ⟨e, he, rfl, rfl⟩
    exact ⟨d, a, hR, congrArg _ hd, congrArg _ ha⟩
  · rintro ⟨d, a, hR, rfl, rfl⟩
    obtain ⟨e, he, hd, ha⟩ := (h.edges d.id a.id).2 ⟨d, a, hR, rfl, rfl⟩
    exact ⟨e, he, congrArg _ hd.symm, congrArg _ ha.symm⟩

theorem round (h : Depicts R names edges)
    (hnamed : ∀ d, Involved R d → Named d (nodeName names d.id)) {c : Dependency.Cycle}
    (hc : ofEdges names edges = .error c) : Round R Named c.names := by
  have horder : (graph names edges).order = .error c := by
    unfold ofEdges at hc
    cases hns : (graph names edges).order with
    | ok ns => rw [hns] at hc; cases hc
    | error c' => rw [hns] at hc; cases hc; rfl
  obtain ⟨hwalk, hclosed, hlong⟩ := Dependency.closing_order horder
  have hwalk := hwalk.imp fun _ _ hm => h.mem_needs.1 hm
  obtain ⟨ds, hmap, hchain, hall⟩ : ∃ ds : List Decl, ds.map (nodeName names ·.id) = c.names ∧
      ds.IsChain R ∧ ∀ d ∈ ds, Involved R d := by
    match c.names, hlong, hwalk with
    | x :: y :: l, _, hwalk => exact exists_chain_of_map h.apart hwalk
  refine ⟨⟨hlong, hclosed⟩, ds, ?_, hchain, ?_⟩
  · rw [← hmap, forall₂_map_right_iff, forall₂_same]
    exact fun d hd => hnamed d (hall d hd)
  · rw [← hmap, head?_map, getLast?_map] at hclosed
    rcases hhead : ds.head? with _ | d
    · rw [head?_eq_none_iff.1 hhead]
      rfl
    · rcases hlast : ds.getLast? with _ | d'
      · rw [getLast?_eq_none_iff.1 hlast] at hhead
        cases hhead
      · rw [hhead, hlast] at hclosed
        rw [h.apart d d' (hall d (mem_of_mem_head? hhead))
          (hall d' (mem_of_getLast? hlast)) (Option.some.inj hclosed)]

theorem acyclic (h : Depicts R names edges) (hw : ofEdges names edges = .ok w) :
    ¬ ∃ d, Relation.TransGen R d d := by
  obtain ⟨rank, hrank⟩ := ranked_of_ofEdges hw
  refine not_exists_transGen_of_rank (r := fun d => rank d.id) fun d a hR => ?_
  obtain ⟨e, he, hd, ha⟩ := (h.edges _ _).2 ⟨_, _, hR, rfl, rfl⟩
  exact hd ▸ ha ▸ hrank e he

theorem calleesFirst (h : Depicts R names edges)
    (hw : ofEdges names edges = .ok w) : CalleesFirst R w.callers := by
  obtain ⟨-, hnodup, hmem, hafter⟩ := scheduled_ofEdges h.namedApart hw
  have hcaller {i : NodeId} : (∃ e ∈ edges, e.caller = i) ↔ ∃ d a, R d a ∧ d.id = i := by
    constructor
    · rintro ⟨e, he, rfl⟩
      obtain ⟨d, a, hR, hd, -⟩ := (h.edges e.caller e.callee).1 ⟨e, he, rfl, rfl⟩
      exact ⟨d, a, hR, hd⟩
    · rintro ⟨d, a, hR, rfl⟩
      obtain ⟨e, he, hd, -⟩ := (h.edges d.id a.id).2 ⟨d, a, hR, rfl, rfl⟩
      exact ⟨e, he, hd⟩
  refine ⟨hnodup, fun i => (hmem i).trans hcaller, fun l₁ i l₂ hsplit d a hR hd ⟨b, hb⟩ => ?_⟩
  obtain ⟨e, he, hcd, hca⟩ := (h.edges d.id a.id).2 ⟨d, a, hR, rfl, rfl⟩
  have hin := hafter l₁ i l₂ hsplit e he (hcd.trans hd) (hcaller.2 ⟨a, b, hb, hca.symm⟩)
  rwa [hca] at hin

theorem exact (h : Depicts R names edges)
    (hnamed : ∀ d, Involved R d → Named d (nodeName names d.id)) (c : Context)
    (hok : ∀ w, ofEdges names edges = .ok w → r = (.ok .keep, c.putWork slot w))
    (herror : ∀ e, ofEdges names edges = .error e → r = (.error (.recursiveInlining e), c)) :
    Exact R Named slot r := by
  cases hw : ofEdges names edges with
  | ok w =>
    have hacyclic := h.acyclic hw
    rw [hok w hw]
    refine ⟨iff_of_false nofun hacyclic, nofun, fun _ => ⟨rfl, ?_⟩⟩
    have htake : ((c.putWork slot w).takeWork slot).1 = w := by
      simp [Context.putWork, Context.takeWork]
    rw [htake]
    exact h.calleesFirst hw
  | error e =>
    have hround := h.round hnamed hw
    rw [herror e hw]
    refine ⟨iff_of_true ⟨e, rfl⟩ hround.exists_transGen, fun e' he' => ?_, fun hacyclic => ?_⟩
    · cases he'
      exact hround
    · exact absurd hround.exists_transGen hacyclic

end Depicts

end WorkList

variable {d : Decl}

theorem Program.enter_inj {p : Program} (hids : (nodeIds p.visits).Nodup) {d' : Decl}
    (hd : .enter d ∈ p.visits) (hd' : .enter d' ∈ p.visits) (h : d.id = d'.id) : d = d' :=
  Visit.enter.inj (eq_of_nodup_filterMap hids hd hd' rfl (congrArg some h.symm))

namespace ControlInlining

def Instantiates (p : Program) (sources : SourceMap) (caller callee : Decl) : Prop :=
  caller ∈ p.decls ∧ ∃ h tps ps cps ls b, caller = .control h tps ps cps ls b ∧
    ∃ lh ty as, .inst lh ty as ∈ ls ∧ p.check.refs.decl? lh.id = some callee ∧
      callee.isControl = true ∧ sources.isLibrary callee.span = false

variable {p : Program} {sources : SourceMap}

theorem mem_edgesOf :
    (e, callee) ∈ edgesOf p.check.refs sources (.control h tps ps cps ls b) ↔
      ∃ lh ty as, .inst lh ty as ∈ ls ∧ p.check.refs.decl? lh.id = some callee ∧
        callee.isControl = true ∧ sources.isLibrary callee.span = false ∧
        e = ⟨h.id, callee.id, lh.id⟩ := by
  rw [edgesOf_control]
  simp only [mem_filterMap, Option.map_eq_some_iff, Option.filter_eq_some_iff, Prod.mk.injEq,
    Bool.and_eq_true, Bool.not_eq_true']
  constructor
  · rintro ⟨x, hx, d, ⟨hd, hcontrol, huser⟩, rfl, rfl⟩
    obtain ⟨l, hl, hinst⟩ := mem_filterMap.1 hx
    cases l with
    | inst lh ty as =>
      cases hinst
      exact ⟨lh, ty, as, hl, hd, hcontrol, huser, rfl⟩
    | _ => cases hinst
  · rintro ⟨lh, ty, as, hl, hd, hcontrol, huser, rfl⟩
    exact ⟨(lh, ty), mem_filterMap.2 ⟨_, hl, rfl⟩, callee, ⟨hd, hcontrol, huser⟩, rfl, rfl⟩

theorem edges_iff (i j : NodeId) :
    (∃ e ∈ edges p.check.refs sources p, e.caller = i ∧ e.callee = j) ↔
      ∃ d a, Instantiates p sources d a ∧ d.id = i ∧ a.id = j := by
  constructor
  · rintro ⟨e, he, rfl, rfl⟩
    obtain ⟨h, tps, ps, cps, ls, b, callee, hd, he⟩ := mem_edges.1 he
    obtain ⟨lh, ty, as, hl, hcallee, hcontrol, huser, rfl⟩ := mem_edgesOf.1 he
    exact ⟨_, callee, ⟨hd, _, _, _, _, _, _, rfl, lh, ty, as, hl, hcallee, hcontrol, huser⟩, rfl,
      rfl⟩
  · rintro ⟨d, a, ⟨hd, h, tps, ps, cps, ls, b, rfl, lh, ty, as, hl, hcallee, hcontrol, huser⟩, rfl,
      rfl⟩
    have he : (⟨h.id, a.id, lh.id⟩, a) ∈ edgesOf p.check.refs sources
        (.control h tps ps cps ls b) :=
      mem_edgesOf.2 ⟨lh, ty, as, hl, hcallee, hcontrol, huser, rfl⟩
    exact ⟨_, mem_edges.2 ⟨h, tps, ps, cps, ls, b, a, hd, he⟩, rfl, rfl⟩

theorem decls_of_involved (hids : (nodeIds p.visits).Nodup) (hp : p.PlainLocals)
    (hd : Involved (Instantiates p sources) d) : d ∈ p.decls := by
  rcases hd with ⟨a, hd, -⟩ | ⟨c, hc, h, tps, ps, cps, ls, b, rfl, lh, ty, as, hl, hd,
    hcontrol, huser⟩
  · exact hd
  · obtain ⟨ls₁, ls₂, rfl⟩ := append_of_mem hl
    have hfound : (p.check.refs.decl? lh.id).filter
        (fun d => d.isControl && !sources.isLibrary d.span) = some d :=
      Option.filter_eq_some_iff.2 ⟨hd, by rw [hcontrol, huser]; rfl⟩
    exact (Program.mem_of_controlOf? (Program.controlOf?_of_decl? hids hp hc hfound)).1

theorem nodeName_of_involved (hids : (nodeIds p.visits).Nodup) (hp : p.PlainLocals)
    (hd : Involved (Instantiates p sources) d) :
    WorkList.nodeName (orderNames p.check.refs sources p) d.id = d.name := by
  have hmem : d.id ∈ (edges p.check.refs sources p).flatMap fun e => [e.caller, e.callee] := by
    rcases hd with ⟨a, hR⟩ | ⟨c, hR⟩
    · obtain ⟨e, he, hd, -⟩ := (edges_iff _ _).2 ⟨d, a, hR, rfl, rfl⟩
      exact mem_flatMap.2 ⟨e, he, hd ▸ .head _⟩
    · obtain ⟨e, he, -, hd⟩ := (edges_iff _ _).2 ⟨c, d, hR, rfl, rfl⟩
      exact mem_flatMap.2 ⟨e, he, hd ▸ .tail _ (.head _)⟩
  obtain ⟨n, hn⟩ := Option.isSome_iff_exists.1 (isSome_orderNames hmem)
  obtain ⟨d', hd', hid, rfl⟩ := mem_orderNames hids hp (NodeMap.mem_of_get? hn)
  have henter {d : Decl} (hd : d ∈ p.decls) : .enter d ∈ p.visits :=
    Program.visits_subset_of_mem hd (Decl.enter_mem_visits _)
  have hsame := Program.enter_inj hids (henter hd') (henter (decls_of_involved hids hp hd)) hid
  rw [WorkList.nodeName, hn, hsame]
  rfl

theorem depicts (hids : (nodeIds p.visits).Nodup) (hp : p.PlainLocals)
    (hnames : (p.decls.map (·.name)).Nodup) :
    WorkList.Depicts (Instantiates p sources) (orderNames p.check.refs sources p)
      (edges p.check.refs sources p) where
  edges := edges_iff
  apart d d' hd hd' hname := by
    rw [nodeName_of_involved hids hp hd, nodeName_of_involved hids hp hd'] at hname
    exact inj_on_of_nodup_map hnames (decls_of_involved hids hp hd)
      (decls_of_involved hids hp hd') hname

end ControlInlining

namespace ActionInlining

def Invokes (p : Program) (sources : SourceMap) (caller callee : Decl) : Prop :=
  .enter caller ∈ p.visits ∧ ∃ t x, .call t x ∈ caller.own ∧
    Call.kind? p.check.refs p.check.types x = some (.action callee) ∧
    sources.isLibrary callee.span = false

variable {p : Program} {sources : SourceMap}

theorem gathers_find (hids : (nodeIds p.visits).Nodup) : Gathers p.check.refs p.check.types sources
    ⟨[], .empty, [], none⟩ ⟨0⟩ [] p.nested (find p.check.refs p.check.types sources p) :=
  gathers_decls rfl hids

theorem Decl.isCaller_of_own (h : s ∈ d.own) : d.isCaller = true :=
  Decl.isCaller_of_inner (d.own_subset (mem_map_of_mem h))

theorem nested_of_involved (hids : (nodeIds p.visits).Nodup)
    (hd : Involved (Invokes p sources) d) : ∃ ctx, (d, ctx) ∈ p.nested := by
  rcases hd with ⟨a, hd, t, x, hx, -⟩ | ⟨c, hc, t, x, hx, hkind, -⟩
  · exact Program.mem_nested.2 ⟨hd, Decl.isCaller_of_own hx⟩
  · have hs : .stmt (.call t x) ∈ p.visits :=
      Program.inner_subset hc (c.own_subset (mem_map_of_mem hx))
    obtain ⟨henter, haction, -⟩ := Program.call_of_action hids hs hkind
    exact Program.mem_nested.2 ⟨henter, by rw [Decl.isCaller, haction, Bool.true_or]⟩

theorem find_edges_iff (hids : (nodeIds p.visits).Nodup) (i j : NodeId) :
    (∃ e ∈ (find p.check.refs p.check.types sources p).edges.reverse,
      e.caller = i ∧ e.callee = j) ↔ ∃ d a, Invokes p sources d a ∧ d.id = i ∧ a.id = j := by
  simp only [mem_reverse, (gathers_find hids).edges]
  constructor
  · rintro ⟨e, (⟨t, x, a, hmem, -⟩ | ⟨⟨d, ctx⟩, hd, t, x, a, hmem, hkind, huser, rfl⟩ | hmem), rfl,
      rfl⟩
    · cases hmem
    · obtain ⟨s, hs, heq⟩ := mem_map.1 hmem
      cases heq
      exact ⟨d, a, ⟨(Program.mem_nested.1 ⟨ctx, hd⟩).1, t, x, hs, hkind, huser⟩, rfl, rfl⟩
    · cases hmem
  · rintro ⟨d, a, ⟨hd, t, x, hx, hkind, huser⟩, rfl, rfl⟩
    obtain ⟨ctx, hctx⟩ := Program.mem_nested.2 ⟨hd, Decl.isCaller_of_own hx⟩
    exact ⟨⟨d.id, a.id, t.id⟩, .inr (.inl ⟨(d, ctx), hctx, t, x, a, mem_map_of_mem hx, hkind,
      huser, rfl⟩), rfl, rfl⟩

theorem nodeName_of_nested (hids : (nodeIds p.visits).Nodup) {ctx : List Decl}
    (hd : (d, ctx) ∈ p.nested) : ∃ ctx', (d, ctx') ∈ p.nested ∧
      WorkList.nodeName (find p.check.refs p.check.types sources p).names d.id =
        qualified d ctx' := by
  have hentries (x : NodeId × String) :
      x ∈ (find p.check.refs p.check.types sources p).names.entries ↔
        x ∈ p.nested.map (fun o => (o.1.id, qualified o.1 o.2)) :=
    ((gathers_find hids).names x).trans (or_iff_left not_mem_nil)
  have hentry := (hentries _).2 (mem_map.2 ⟨_, hd, rfl⟩)
  rcases hget : (find p.check.refs p.check.types sources p).names.get? d.id with _ | q
  · simpa using lookup_eq_none_iff.1 hget _ hentry
  · obtain ⟨⟨d', ctx'⟩, hd', heq⟩ := mem_map.1 ((hentries _).1 (NodeMap.mem_of_get? hget))
    obtain ⟨hid, rfl⟩ := Prod.mk.inj heq
    obtain rfl := Program.enter_inj hids (Program.mem_nested.1 ⟨ctx', hd'⟩).1
      (Program.mem_nested.1 ⟨ctx, hd⟩).1 hid
    exact ⟨ctx', hd', by rw [WorkList.nodeName, hget]; rfl⟩

theorem named_of_involved (hids : (nodeIds p.visits).Nodup)
    (hd : Involved (Invokes p sources) d) : ∃ ctx, (d, ctx) ∈ p.nested ∧
      WorkList.nodeName (find p.check.refs p.check.types sources p).names d.id =
        qualified d ctx := by
  obtain ⟨ctx, hctx⟩ := nested_of_involved hids hd
  exact nodeName_of_nested hids hctx

theorem depicts (hids : (nodeIds p.visits).Nodup) (hnames : (p.decls.map (·.name)).Nodup)
    (hdots : p.Dotless) (hsiblings : p.SiblingsApart) :
    WorkList.Depicts (Invokes p sources) (find p.check.refs p.check.types sources p).names
      (find p.check.refs p.check.types sources p).edges.reverse where
  edges := find_edges_iff hids
  apart d d' hd hd' hname := by
    obtain ⟨ctx, hctx, hq⟩ := named_of_involved hids hd
    obtain ⟨ctx', hctx', hq'⟩ := named_of_involved hids hd'
    rw [hq, hq'] at hname
    exact (Program.qualified_inj hnames hdots hsiblings hctx hctx' hname).1

theorem find_error (hids : (nodeIds p.visits).Nodup)
    (hknown : Known p.check.refs p.check.types p.visits) :
    (find p.check.refs p.check.types sources p).error = none := by
  refine (gathers_find hids).error.2 ⟨nofun, fun o ho t x hx => hknown t x ?_, rfl⟩
  exact Program.inner_subset (Program.mem_nested.1 ⟨o.2, ho⟩).1 (o.1.own_subset hx)

end ActionInlining

section

open ControlInlining ActionInlining

/-- Both discoveries are exact. -/
theorem recursion_exact (p : Program) (hids : (nodeIds p.visits).Nodup) (herr : p.check.errors = [])
    (hplain : p.PlainLocals) (hdots : p.Dotless) (c : Context) (hrefs : c.refs = p.check.refs)
    (htypes : c.types = p.check.types) (slot n : Nat) :
    Exact (Instantiates p c.sources) (fun d q => q = d.name) slot
      ((Pass.discoverControls slot).runAt ⟨p, c, n⟩).1 ∧
    (p.SiblingsApart → Known p.check.refs p.check.types p.visits →
      Exact (Invokes p c.sources) (fun d q => ∃ ctx, (d, ctx) ∈ p.nested ∧ q = qualified d ctx) slot
        ((Pass.discoverActions slot).runAt ⟨p, c, n⟩).1) := by
  have hnames := Program.nodup_names_of_errors herr
  constructor
  · refine (ControlInlining.depicts hids hplain hnames).exact
      (fun d hd => nodeName_of_involved hids hplain hd) c (fun w hw => ?_) (fun e he => ?_)
    · rw [Pass.runAt_discoverControls, hrefs, discover_eq, hw]
    · rw [Pass.runAt_discoverControls, hrefs, discover_eq, he]
  · intro hsiblings hknown
    have hfind : (find p.check.refs p.check.types c.sources p).error = none :=
      find_error hids hknown
    refine (ActionInlining.depicts hids hnames hdots hsiblings).exact
      (fun d hd => named_of_involved hids hd) c (fun w hw => ?_) (fun e he => ?_)
    · rw [Pass.runAt_discoverActions, hrefs, htypes]
      simp only [hfind, hw]
    · rw [Pass.runAt_discoverActions, hrefs, htypes]
      simp only [hfind, he]

end

namespace Recursion

open ControlInlining ActionInlining

def round? : Except Failure (Edit Program) → Option (List String)
  | .error (.recursiveInlining c) => some c.names
  | _ => none

theorem error_of_round?
    (h : round? r = some ns) : r = .error (.recursiveInlining ⟨ns⟩) := by
  unfold round? at h
  split at h
  · cases h
    rfl
  · cases h

def allKnown (c : Checked) (vs : List Visit) : Bool := vs.all fun
  | .stmt (.call _ x) => (Call.kind? c.refs c.types x).isSome
  | _ => true

theorem known_of_allKnown (h : allKnown c vs = true) :
    Known c.refs c.types vs :=
  fun _ _ hmem => all_eq_true.1 h _ hmem

theorem tables_fresh (p : Program) :
    (fresh p).refs = p.check.refs ∧ (fresh p).types = p.check.types := ⟨rfl, rfl⟩

def recursive : Program := ⟨[
  .control ⟨⟨0⟩, "c", none⟩ [] [] [] [.inst ⟨⟨1⟩, "x", none⟩ (.named "d") []] (.mk ⟨2⟩ []),
  .control ⟨⟨3⟩, "d", none⟩ [] [] [] [.inst ⟨⟨4⟩, "y", none⟩ (.named "c") []] (.mk ⟨5⟩ []),
  .action ⟨⟨6⟩, "f", none⟩ [] (.mk ⟨7⟩ [
    .decl ⟨⟨8⟩, none⟩ (.action ⟨⟨9⟩, "g", none⟩ [] (.mk ⟨10⟩ [callOf 11 "f"])),
    callOf 14 "g"])]⟩

theorem recursion_exact_recursive :
    ((nodeIds recursive.visits).Nodup ∧ recursive.check.errors = [] ∧ recursive.PlainLocals ∧
      recursive.Dotless ∧ recursive.SiblingsApart ∧
      Known recursive.check.refs recursive.check.types recursive.visits) ∧
    ((∃ d, Relation.TransGen (Instantiates recursive .empty) d d) ∧
      Round (Instantiates recursive .empty) (fun d q => q = d.name) ["c", "d", "c"]) ∧
    (∃ d, Relation.TransGen (Invokes recursive .empty) d d) ∧
      Round (Invokes recursive .empty)
        (fun d q => ∃ ctx, (d, ctx) ∈ recursive.nested ∧ q = qualified d ctx)
          ["f", "f.g", "f"] := by
  have hids : (nodeIds recursive.visits).Nodup := by decide
  have herr : recursive.check.errors = [] := List.isEmpty_iff.1 (by decide +kernel)
  have hplain : recursive.PlainLocals := Program.plainLocals_iff.2 (by unfold Decl.Plain; decide)
  have hdots : recursive.Dotless := by unfold Program.Dotless; decide
  have hsiblings : recursive.SiblingsApart := by unfold Program.SiblingsApart; decide
  have hknown : Known recursive.check.refs recursive.check.types recursive.visits :=
    known_of_allKnown (by decide +kernel)
  have hcontrols : ((Pass.discoverControls 0).runAt ⟨recursive, fresh recursive, 17⟩).1.1
      = .error (.recursiveInlining ⟨["c", "d", "c"]⟩) := error_of_round? (by decide +kernel)
  have hactions : ((Pass.discoverActions 0).runAt ⟨recursive, fresh recursive, 17⟩).1.1
      = .error (.recursiveInlining ⟨["f", "f.g", "f"]⟩) := error_of_round? (by decide +kernel)
  have h := recursion_exact recursive hids herr hplain hdots (fresh recursive)
    (tables_fresh recursive).1 (tables_fresh recursive).2 0 17
  have h' := h.2 hsiblings hknown
  exact ⟨⟨hids, herr, hplain, hdots, hsiblings, hknown⟩,
    ⟨h.1.recursive.1 ⟨_, hcontrols⟩, h.1.round _ hcontrols⟩,
    h'.recursive.1 ⟨_, hactions⟩, h'.round _ hactions⟩

/-- The body of the control declares an action of the name that a local one has, and calls it; it
calls the local one. -/
def overlaid : Program := ⟨[
  .control ⟨⟨12⟩, "c", none⟩ [] [] [] [.action ⟨⟨0⟩, "b", none⟩ [] (.mk ⟨1⟩ [])]
    (.mk ⟨2⟩ [.decl ⟨⟨3⟩, none⟩ (.action ⟨⟨4⟩, "b", none⟩ [] (.mk ⟨5⟩ [callOf 6 "b"])),
      callOf 9 "b"])]⟩

def descends (p : Program) : Bool := p.allDecls.all fun d => d.own.all fun
  | .call _ x => match Call.kind? p.check.refs p.check.types x with
    | some (.action a) => a.id.val < d.id.val
    | _ => true
  | _ => true

theorem acyclic_of_descends (h : descends p = true) (sources : SourceMap) :
    ¬ ∃ d, Relation.TransGen (Invokes p sources) d d := by
  refine not_exists_transGen_of_rank (r := fun d => d.id.val) fun d a hR => ?_
  obtain ⟨hd, t, x, hx, hkind, -⟩ := hR
  have hcall := all_eq_true.1 (all_eq_true.1 h d (Program.mem_allDecls.2 hd)) _ hx
  dsimp only at hcall
  rw [hkind] at hcall
  exact of_decide_eq_true hcall

/-- Two actions of one name in one control are taken for one, and a call of the one by the other for
recursion. -/
theorem refuses_overlaid :
    ((nodeIds overlaid.visits).Nodup ∧ overlaid.check.errors = [] ∧ overlaid.PlainLocals ∧
      overlaid.Dotless ∧ Known overlaid.check.refs overlaid.check.types overlaid.visits) ∧
    (¬ ∃ d, Relation.TransGen (Invokes overlaid .empty) d d) ∧
    ((Pass.discoverActions 0).runAt ⟨overlaid, fresh overlaid, 13⟩).1.1
      = .error (.recursiveInlining ⟨["c.b", "c.b"]⟩) :=
  ⟨⟨by decide, List.isEmpty_iff.1 (by decide +kernel),
    Program.plainLocals_iff.2 (by unfold Decl.Plain; decide), by unfold Program.Dotless; decide,
    known_of_allKnown (by decide +kernel)⟩,
    acyclic_of_descends (by decide +kernel) _, error_of_round? (by decide +kernel)⟩

end Recursion

end MatchAction
