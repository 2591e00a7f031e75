import MatchAction.Proofs.Dependency
import MatchAction.Proofs.Elaboration
import MatchAction.Proofs.Equality
import MatchAction.Proofs.Instances

namespace MatchAction

open List

theorem Program.controlOf?_eq (p : Program) (sources : SourceMap) (ty : TypeExpr) :
    p.controlOf? sources ty = ty.baseName.bind fun n =>
      (p.find? n).filter fun d => d.isControl && !sources.isLibrary d.span := by
  cases ty <;> rfl

variable {d : Decl}

theorem Program.mem_of_controlOf? {p : Program} {sources : SourceMap} {ty : TypeExpr}
    (h : p.controlOf? sources ty = some d) :
    d ∈ p.decls ∧ d.isControl = true ∧ sources.isLibrary d.span = false := by
  rw [controlOf?_eq] at h
  obtain ⟨n, -, h⟩ := Option.bind_eq_some_iff.1 h
  obtain ⟨hfind, hd⟩ := Option.filter_eq_some_iff.1 h
  rw [Bool.and_eq_true, Bool.not_eq_true'] at hd
  exact ⟨mem_of_find?_eq_some hfind, hd⟩

variable {n : String}

namespace Scopes

variable {sc : Scopes}

theorem lookup_declares_top (h : sc.inner = []) (ds : List Decl) (n : String) :
    (sc.declares ds).lookup n
      = (sc.lookup n).or ((ds.find? (·.name == n)).map .decl) := by
  induction ds generalizing sc with
  | nil => simp [declares]
  | cons d ds ih =>
    obtain ⟨inner, top, tps⟩ := sc
    cases h
    have hd : (Scopes.declare ⟨[], top, tps⟩ d).inner = [] ∧
        (Scopes.declare ⟨[], top, tps⟩ d).lookup n
          = (Scopes.lookup ⟨[], top, tps⟩ n).or (if d.name == n then some (.decl d) else none) := by
      unfold declare define
      split
      · rename_i r hr
        refine ⟨rfl, ?_⟩
        split
        · rename_i hn
          have hlookup : Scopes.lookup ⟨[], top, tps⟩ n = some r := (eq_of_beq hn) ▸ hr
          rw [hlookup]
          rfl
        · exact (Option.or_none).symm
      · rename_i hr
        refine ⟨rfl, ?_⟩
        by_cases hn : d.name = n
        · subst hn
          have hlookup : Scopes.lookup ⟨[], top, tps⟩ d.name = none := hr
          rw [hlookup]
          simp [lookup]
        · have hne : (n == d.name) = false := beq_eq_false_iff_ne.2 (Ne.symm hn)
          simp [lookup, lookup_cons, hne, hn]
    have hfind : (d :: ds).find? (·.name == n)
        = if d.name == n then some d else ds.find? (·.name == n) := by
      rw [find?_cons]
      cases d.name == n <;> rfl
    rw [declares, foldl_cons]
    refine (ih hd.1).trans ?_
    rw [hd.2, hfind, Option.or_assoc]
    congr 1
    split <;> rfl

theorem top_of_pop (sc : Scopes) {sc' : Scopes} (h : sc'.pop = sc.pop) : sc'.top = sc.top :=
  show sc'.pop.top = sc.pop.top from congrArg Scopes.top h

theorem lookup_cases (h : sc.lookup n = some r) :
    (∃ f ∈ sc.inner, (n, r) ∈ f) ∨ sc.top.lookup n = some r := by
  rcases Option.or_eq_some_iff.1 h with h | ⟨-, h⟩
  · obtain ⟨f, hf, hl⟩ := exists_of_findSome?_eq_some h
    exact .inl ⟨f, hf, mem_of_lookup hl⟩
  · exact .inr h

theorem resolve_of_baseName (sc : Scopes) (h : ty.baseName = some n) :
    ∃ args, (sc.resolve ty).type = (sc.resolveName n args).type ∧
      ((sc.resolve ty).unknown = [] → (sc.resolveName n args).unknown = []) := by
  cases ty with
  | named m =>
    cases h
    exact ⟨[], rfl, id⟩
  | specialized m ts =>
    cases h
    exact ⟨(sc.resolves ts).1, rfl, fun h => (append_eq_nil_iff.1 h).2⟩
  | _ => cases h

theorem decl?_resolveName :
    (sc.resolveName n args).type.decl? = some d ↔
      sc.isTypeParam n = false ∧ sc.lookup n = some (.decl d) ∧ d.isType = true := by
  unfold resolveName
  split
  · rename_i hparam
    simp [hparam, Ty.decl?]
  · rename_i hparam
    rw [Bool.not_eq_true] at hparam
    split
    · rename_i d' hlookup
      split
      · rename_i htype
        simp only [Ty.decl?, Option.some.injEq, hparam, hlookup, Referent.decl.injEq, true_and]
        exact ⟨fun h => ⟨h, h ▸ htype⟩, fun h => h.1⟩
      · rename_i htype
        simp only [Ty.decl?, reduceCtorEq, hlookup, Option.some.injEq, Referent.decl.injEq,
          false_iff]
        rintro ⟨-, rfl, h⟩
        exact htype h
    · rename_i hlookup
      simp only [Ty.decl?, reduceCtorEq, false_iff]
      rintro ⟨-, h, -⟩
      exact hlookup d h

end Scopes

namespace Program

variable {p : Program} {sources : SourceMap} {h : Head} {tps : List String} {ps cps : List Param}
  {ls ls₁ ls₂ : List Decl} {b : Block}

theorem lookup_top (p : Program) (n : String) : p.top.lookup n = (p.find? n).map .decl :=
  (Scopes.lookup_declares_top rfl p.decls n).trans (Option.none_or)

abbrev localScopes (p : Program) (tps : List String) (ps cps : List Param) (ls₁ : List Decl) :
    Scopes := (p.top.enterControl tps ps cps).declares ls₁

/-- Among the locals of a control, a name stands for a parameter, for one of the locals or for what
it stands for at the toplevel. -/
theorem lookup_localScopes
    (hl : (p.localScopes tps ps cps ls₁).lookup n = some (.decl d)) :
    d ∈ ls₁ ∨ p.find? n = some d := by
  have hne := (p.top.pushTypeParams tps).inner_push_ne
  have hcps := Scopes.declareParams_inner hne cps
  have hps := Scopes.declareParams_inner hcps.1 ps
  have hls := Scopes.declares_inner hps.1 ls₁
  have hhold : (p.localScopes tps ps cps ls₁).Hold (fun r => ∀ d, r = .decl d → d ∈ ls₁)
      fun r => ∃ d ∈ p.decls, r = .decl d := by
    have htop := (p.hold_top fun r => ∀ d, r = .decl d → d ∈ ls₁).2
    have hin := Scopes.stable_hold.enterControl (htop.pushTypeParams tps) ps cps fun _ _ => nofun
    refine Scopes.stable_hold.declares hin.1 hps.1 fun l hl d hd => ?_
    cases hd
    exact hl
  rcases Scopes.lookup_cases hl with ⟨f, hf, hmem⟩ | htop
  · exact .inl ((hhold.inner f hf _ hmem).2 d rfl)
  · have hsame : (p.localScopes tps ps cps ls₁).top = p.top.top :=
      Scopes.top_of_pop (p.top.pushTypeParams tps).push (hls.2.trans (hps.2.trans hcps.2))
    have hlookup : p.top.lookup n = p.top.top.lookup n := by
      rw [Scopes.lookup, (p.hold_top fun _ => True).1]
      rfl
    rw [hsame, ← hlookup, lookup_top] at htop
    obtain ⟨d', hd', heq⟩ := Option.map_eq_some_iff.1 htop
    cases heq
    exact .inr hd'

theorem places_local (hc : .control h tps ps cps (ls₁ ++ d :: ls₂) b ∈ p.decls) :
    d.places (p.localScopes tps ps cps ls₁) ⊆ p.places := by
  have hall (ls₁ : List Decl) (sc : Scopes) : Decl.allPlaces sc (ls₁ ++ d :: ls₂)
      = Decl.allPlaces sc ls₁ ++ (d.places (sc.declares ls₁)
        ++ Decl.allPlaces ((sc.declares ls₁).declare d) ls₂) := by
    induction ls₁ generalizing sc with
    | nil => rfl
    | cons l ls₁ ih =>
      rw [cons_append, Decl.allPlaces, Decl.allPlaces, ih, append_assoc]
      rfl
  intro pl hpl
  refine mem_flatMap.2 ⟨_, hc, ?_⟩
  simp only [Decl.places, mem_cons, mem_append, hall]
  exact .inr (.inl (.inl (.inr (.inl hpl))))

theorem decl?_local (hids : (nodeIds p.visits).Nodup)
    (hc : .control h tps ps cps (ls₁ ++ .inst lh ty as :: ls₂) b ∈ p.decls) :
    p.check.refs.decl? lh.id = ((p.localScopes tps ps cps ls₁).resolve ty).type.decl? := by
  have hplace : (p.localScopes tps ps cps ls₁, .enter (.inst lh ty as)) ∈ p.places :=
    places_local hc (Decl.enter_mem_places _ _)
  rcases hd : ((p.localScopes tps ps cps ls₁).resolve ty).type.decl? with _ | d
  · rw [Refs.decl?]
    rcases hr : p.check.refs.get? lh.id with _ | r
    · rfl
    · have huse := use?_of_get? hids hplace rfl hr
      simp [Place.use?, hd] at huse
  · have huse : Place.use? (p.localScopes tps ps cps ls₁, .enter (.inst lh ty as))
        = some (lh.id, .decl d) := by simp [Place.use?, hd]
    rw [Refs.decl?, get?_refs_check hids hplace huse]
    rfl

end Program

namespace Program

variable {p : Program} {sources : SourceMap} {h : Head} {tps : List String} {ps cps : List Param}
  {ls ls₁ ls₂ : List Decl} {b : Block} {lh : Head} {ty : TypeExpr} {as : List Expr}

def PlainLocals (p : Program) : Prop :=
  ∀ h tps ps cps ls b, .control h tps ps cps ls b ∈ p.decls → ∀ l ∈ ls, l.flaw .control = 0

/-- No instance among the locals of a control has a type parameter of the control as its type that
is also the name of a control of user code. -/
def Unambiguous (p : Program) (sources : SourceMap) : Prop :=
  ∀ h tps ps cps ls b, .control h tps ps cps ls b ∈ p.decls → ∀ x ∈ Decl.insts ls, ∀ n ∈ tps,
    x.2.baseName = some n → p.controlOf? sources x.2 = none

theorem isType_of_flaw (h : d.flaw .control = 0) : d.isType = false := by
  cases d <;> first | rfl | cases h

theorem controlOf?_of_decl? (hids : (nodeIds p.visits).Nodup) (hp : p.PlainLocals)
    (hc : .control h tps ps cps (ls₁ ++ .inst lh ty as :: ls₂) b ∈ p.decls)
    (hd : (p.check.refs.decl? lh.id).filter (fun d => d.isControl && !sources.isLibrary d.span)
      = some callee) : p.controlOf? sources ty = some callee := by
  obtain ⟨hd, huser⟩ := Option.filter_eq_some_iff.1 hd
  rw [decl?_local hids hc] at hd
  obtain ⟨n, hn⟩ := Option.isSome_iff_exists.1 (Scopes.baseName_of_resolve hd)
  obtain ⟨args, htype, -⟩ := (p.localScopes tps ps cps ls₁).resolve_of_baseName hn
  rw [htype] at hd
  obtain ⟨-, hlookup, htype⟩ := Scopes.decl?_resolveName.1 hd
  rw [controlOf?_eq, hn, Option.bind_some]
  refine Option.filter_eq_some_iff.2 ⟨?_, huser⟩
  refine (lookup_localScopes hlookup).resolve_left fun hmem => ?_
  have hflaw := hp _ _ _ _ _ _ hc callee (mem_append_left _ hmem)
  rw [isType_of_flaw hflaw] at htype
  cases htype

end Program

namespace ControlInlining

variable {p : Program} {sources : SourceMap} {h : Head} {tps : List String} {ps cps : List Param}
  {ls : List Decl} {b : Block}

def sitesOf (p : Program) (sources : SourceMap) (caller : NodeId) (ls : List Decl) :
    List (InlineEdge × Decl) :=
  (Decl.insts ls).filterMap fun x => (p.controlOf? sources x.2).map fun callee =>
    (⟨caller, callee.id, x.1.id⟩, callee)

theorem edgesOf_control (refs : Refs) (sources : SourceMap) (h : Head) (tps : List String)
    (ps cps : List Param) (ls : List Decl) (b : Block) :
    edgesOf refs sources (.control h tps ps cps ls b) = (Decl.insts ls).filterMap fun x =>
      ((refs.decl? x.1.id).filter fun d => d.isControl && !sources.isLibrary d.span).map
        fun callee =>
        (⟨h.id, callee.id, x.1.id⟩, callee) := by
  rw [edgesOf, Decl.insts, filterMap_filterMap]
  refine filterMap_congr fun l _ => ?_
  cases l with
  | inst lh ty as =>
    rcases hd : refs.decl? lh.id with _ | callee
    · simp [Decl.id, Decl.head, Decl.inst?, hd]
    · simp only [Decl.id, Decl.head, Decl.inst?, hd, Option.bind_some, Option.filter]
      split <;> rfl
  | _ => rfl

theorem edgesOf_subset (hids : (nodeIds p.visits).Nodup) (hp : p.PlainLocals)
    (hc : .control h tps ps cps ls b ∈ p.decls) :
    edgesOf p.check.refs sources (.control h tps ps cps ls b) ⊆ sitesOf p sources h.id ls := by
  rw [edgesOf_control, sitesOf]
  intro e he
  obtain ⟨x, hx, he⟩ := mem_filterMap.1 he
  refine mem_filterMap.2 ⟨x, hx, ?_⟩
  obtain ⟨callee, hcallee, rfl⟩ := Option.map_eq_some_iff.1 he
  obtain ⟨l, hl, hinst⟩ := mem_filterMap.1 hx
  cases l with
  | inst lh ty as =>
    cases hinst
    obtain ⟨ls₁, ls₂, rfl⟩ := append_of_mem hl
    rw [Program.controlOf?_of_decl? hids hp hc hcallee]
    rfl
  | _ => cases hinst

def found (refs : Refs) (sources : SourceMap) (p : Program) :
    List (Decl × List (InlineEdge × Decl)) :=
  (p.decls.filter (·.isControl)).map fun d => (d, edgesOf refs sources d)

def orderNames (refs : Refs) (sources : SourceMap) (p : Program) : NodeMap String :=
  ⟨((found refs sources p).flatMap fun (d, es) => namesOf d es).reverse⟩

def edges (refs : Refs) (sources : SourceMap) (p : Program) : List InlineEdge :=
  (found refs sources p).flatMap fun (_, es) => es.map (·.1)

theorem discover_eq (refs : Refs) (sources : SourceMap) (p : Program) :
    discover refs sources p
      = WorkList.ofEdges (orderNames refs sources p) (edges refs sources p) := rfl

theorem mem_edges :
    e ∈ edges refs sources p ↔ ∃ h tps ps cps ls b callee, .control h tps ps cps ls b ∈ p.decls ∧
      (e, callee) ∈ edgesOf refs sources (.control h tps ps cps ls b) := by
  simp only [edges, found, mem_flatMap, mem_map, mem_filter]
  constructor
  · rintro ⟨_, ⟨d, ⟨hd, hcontrol⟩, rfl⟩, ⟨e, callee⟩, he, rfl⟩
    cases d with
    | control h tps ps cps ls b => exact ⟨h, tps, ps, cps, ls, b, callee, hd, he⟩
    | _ => cases hcontrol
  · rintro ⟨h, tps, ps, cps, ls, b, callee, hd, he⟩
    exact ⟨_, ⟨_, ⟨hd, rfl⟩, rfl⟩, (e, callee), he, rfl⟩

variable {i : NodeId}

theorem mem_sitesOf :
    (e, callee) ∈ sitesOf p sources i ls ↔ ∃ x ∈ Decl.insts ls,
      p.controlOf? sources x.2 = some callee ∧ e = ⟨i, callee.id, x.1.id⟩ := by
  simp only [sitesOf, mem_filterMap, Option.map_eq_some_iff, Prod.mk.injEq]
  constructor
  · rintro ⟨x, hx, callee', hof, he, rfl⟩
    exact ⟨x, hx, hof, he.symm⟩
  · rintro ⟨x, hx, hof, he⟩
    exact ⟨x, hx, callee, hof, he.symm, rfl⟩

theorem mem_orderNames (hids : (nodeIds p.visits).Nodup) (hp : p.PlainLocals)
    (h : (i, n) ∈ (orderNames p.check.refs sources p).entries) :
    ∃ d ∈ p.decls, d.id = i ∧ d.name = n := by
  simp only [orderNames, found, mem_reverse, mem_flatMap, mem_map,
    mem_filter] at h
  obtain ⟨_, ⟨d, ⟨hd, hcontrol⟩, rfl⟩, hname⟩ := h
  rcases mem_cons.1 hname with heq | hcallee
  · cases heq
    exact ⟨d, hd, rfl, rfl⟩
  · obtain ⟨⟨e, callee⟩, he, heq⟩ := mem_map.1 hcallee
    cases heq
    cases d with
    | control h tps ps cps ls b =>
      obtain ⟨x, -, hof, -⟩ := mem_sitesOf.1 (edgesOf_subset hids hp hd he)
      exact ⟨callee, (Program.mem_of_controlOf? hof).1, rfl, rfl⟩
    | _ => cases hcontrol

theorem isSome_orderNames
    (h : i ∈ (edges refs sources p).flatMap fun e => [e.caller, e.callee]) :
    ((orderNames refs sources p).get? i).isSome := by
  obtain ⟨e, he, hi⟩ := mem_flatMap.1 h
  simp only [edges, mem_flatMap, mem_map] at he
  obtain ⟨⟨d, es⟩, hd, ⟨e, callee⟩, he, rfl⟩ := he
  have hcaller : e.caller = d.id ∧ e.callee = callee.id := by
    obtain ⟨d', -, heq⟩ := mem_map.1 hd
    cases heq
    cases d with
    | control h tps ps cps ls b =>
      rw [edgesOf_control] at he
      obtain ⟨x, -, he⟩ := mem_filterMap.1 he
      obtain ⟨callee', -, heq⟩ := Option.map_eq_some_iff.1 he
      cases heq
      exact ⟨rfl, rfl⟩
    | _ => cases he
  have hentry : ∃ n, (i, n) ∈ (orderNames refs sources p).entries := by
    simp only [orderNames, mem_reverse, mem_flatMap]
    rcases mem_cons.1 hi with rfl | hi
    · exact ⟨d.name, _, hd, hcaller.1 ▸ .head _⟩
    · rw [mem_singleton.1 hi, hcaller.2]
      exact ⟨callee.name, _, hd, .tail _ (mem_map.2 ⟨_, he, rfl⟩)⟩
  obtain ⟨n, hn⟩ := hentry
  exact lookup_isSome_iff.2 ⟨_, hn, beq_self_eq_true i⟩

end ControlInlining

namespace Decl

def locals : Decl → List Decl
  | .control _ _ _ _ ls _ => ls
  | _ => []

def returns : Decl → Bool
  | .control _ _ _ _ _ b => b.hasReturn
  | _ => false

def typeParams : Decl → List String
  | .control _ tps _ _ _ _ => tps
  | _ => []

def instTypes (ds : List Decl) : List TypeExpr := ds.filterMap fun d => d.inst?.map (·.2)

theorem instTypes_eq (ds : List Decl) : instTypes ds = (insts ds).map (·.2) :=
  map_filterMap.symm

def Plain (ds : List Decl) : Prop := ∀ d ∈ ds, d.flaw .control = 0

end Decl

namespace Program

variable {p : Program} {sources : SourceMap}

def calls (p : Program) (sources : SourceMap) (ty : TypeExpr) : Option NodeId :=
  (p.controlOf? sources ty).map (·.id)

theorem plainLocals_iff : p.PlainLocals ↔ ∀ d ∈ p.decls, Decl.Plain d.locals := by
  refine ⟨fun h d hd => ?_, fun h _ _ _ _ _ _ hc => h _ hc⟩
  cases d with
  | control hd tps ps cps ls b => exact h _ _ _ _ _ _ ‹_›
  | _ => exact nofun

theorem unambiguous_iff : p.Unambiguous sources ↔ ∀ d ∈ p.decls, ∀ ty ∈ Decl.instTypes d.locals,
    ∀ n ∈ d.typeParams, ty.baseName = some n → p.calls sources ty = none := by
  simp only [Unambiguous, calls, Option.map_eq_none_iff, Decl.instTypes_eq, forall_mem_map]
  refine ⟨fun h d hd => ?_, fun h _ _ _ _ _ _ hc => h _ hc⟩
  cases d with
  | control hd tps ps cps ls b => exact h _ _ _ _ _ _ ‹_›
  | _ => exact nofun

def ReturnFreeControls (p : Program) (sources : SourceMap) : Prop :=
  ∀ h tps ps cps ls b, .control h tps ps cps ls b ∈ p.decls → sources.isLibrary h.span = false →
    b.hasReturn = false

theorem returnFreeControls_iff : p.ReturnFreeControls sources ↔
    ∀ d ∈ p.decls, d.isControl = true → sources.isLibrary d.span = false → d.returns = false := by
  refine ⟨fun h d hd hcontrol huser => ?_, fun h _ _ _ _ _ _ hc huser => h _ hc rfl huser⟩
  cases d with
  | control hd tps ps cps ls b => exact h _ _ _ _ _ _ ‹_› huser
  | _ => cases hcontrol

end Program

namespace ControlInlining

theorem eq_ok_of_toOption {ε α : Type} {x : Except ε α} {a : α} (h : x.toOption = some a) :
    x = .ok a := by
  cases x with
  | error e => cases h
  | ok b =>
    cases h
    rfl

def application (i : Nat) (inst : String) : Stmt :=
  .call ⟨⟨i⟩, none⟩ (.call ⟨⟨i + 1⟩, none⟩ (.member ⟨⟨i + 2⟩, none⟩
    (.path ⟨⟨i + 3⟩, none⟩ inst) "apply") [] [])

/-- `T` is a control that instantiates `caller`, and in `callee` it is a type parameter. -/
def confused : Program := ⟨[
  .control ⟨⟨0⟩, "T", none⟩ [] [] [] [.inst ⟨⟨1⟩, "k", none⟩ (.named "caller") []] (.mk ⟨2⟩ []),
  .control ⟨⟨3⟩, "callee", none⟩ ["T"] [] [] [.inst ⟨⟨4⟩, "x", none⟩ (.named "T") []] (.mk ⟨5⟩ []),
  .control ⟨⟨6⟩, "caller", none⟩ [] [] [] [.inst ⟨⟨7⟩, "c", none⟩ (.named "callee") []]
    (.mk ⟨8⟩ [application 9 "c"])]⟩

def met? : Except Dependency.Cycle (Edit Program) → Option (List String)
  | .ok _ => none
  | .error c => some c.names

/-- An instance whose type is a type parameter becomes one of a control where it is inlined: a
single round leaves it, and rounds of leaves meet a cycle. -/
theorem typeParam_becomes_control :
    confused.ids.Nodup ∧ confused.PlainLocals ∧ confused.check.errors = [] ∧
    confused.ReturnFreeControls .empty ∧
    ∃ w, discover confused.check.refs .empty confused = .ok w ∧
      (∃ x ds' n', (confused.inlineControls .simple .empty w).run .empty 13 = ((.ok x, ds'), n') ∧
        ds'.hasErrors = false ∧
        ∃ d ∈ (x.get confused).decls, edgesOf (x.get confused).check.refs .empty d ≠ []) ∧
      ∃ c, ((confused.inlineControls .general .empty w).run .empty 13).1.1 = .error c ∧
        c.names = ["T", "caller", "T"] := by
  have hsimple : ((discover confused.check.refs .empty confused).toOption.bind fun w =>
      let r := (confused.inlineControls .simple .empty w).run .empty 13
      r.1.1.toOption.map fun x => (r.1.2.hasErrors, (x.get confused).decls.any fun d =>
        !(edgesOf (x.get confused).check.refs .empty d).isEmpty)) = some (false, true) := by
    decide +kernel
  have hgeneral : ((discover confused.check.refs .empty confused).toOption.bind fun w =>
      met? ((confused.inlineControls .general .empty w).run .empty 13).1.1) =
        some ["T", "caller", "T"] := by
    decide +kernel
  refine ⟨by decide, Program.plainLocals_iff.2 (by unfold Decl.Plain; decide),
    List.isEmpty_iff.1 (by decide +kernel), Program.returnFreeControls_iff.2 (by decide), ?_⟩
  obtain ⟨w, hw, hleft⟩ := Option.bind_eq_some_iff.1 hsimple
  rw [hw, Option.bind_some] at hgeneral
  refine ⟨w, eq_ok_of_toOption hw, ?_, ?_⟩
  · obtain ⟨x, hx, hres⟩ := Option.map_eq_some_iff.1 hleft
    obtain ⟨hds, hany⟩ := Prod.mk.inj hres
    obtain ⟨d, hd, hedges⟩ := List.any_eq_true.1 hany
    refine ⟨x, _, _, Prod.ext (Prod.ext (eq_ok_of_toOption hx) rfl) rfl, hds, d, hd, ?_⟩
    simpa using hedges
  · unfold met? at hgeneral
    split at hgeneral
    · cases hgeneral
    · rename_i c hc
      exact ⟨c, hc, Option.some.inj hgeneral⟩

def shadowed : Decl :=
  .const ⟨⟨0⟩, "K", none⟩ (.bits 8 false) (.lit ⟨⟨1⟩, none⟩ 5 (.bits 8 false))

def shadowing : Param := ⟨⟨9⟩, "K", .inout, .bits 8 false, none⟩

def shadows : Program := ⟨[shadowed,
  .control ⟨⟨2⟩, "callee", none⟩ [] [⟨⟨3⟩, "v", .inout, .bits 8 false, none⟩] [] []
    (.mk ⟨4⟩ [.assign ⟨⟨5⟩, none⟩ (.path ⟨⟨6⟩, none⟩ "v") (.path ⟨⟨7⟩, none⟩ "K")]),
  .control ⟨⟨8⟩, "caller", none⟩ [] [shadowing] [] [.inst ⟨⟨10⟩, "c", none⟩ (.named "callee") []]
    (.mk ⟨11⟩ [.call ⟨⟨12⟩, none⟩ (.call ⟨⟨13⟩, none⟩ (.member ⟨⟨14⟩, none⟩
      (.path ⟨⟨15⟩, none⟩ "c") "apply") [] [.path ⟨⟨16⟩, none⟩ "K"])])]⟩

def spliced? : Program → Option Expr
  | ⟨[_, _, .control _ _ _ _ _ (.mk _ [.block _ (.mk _ (_ :: .assign _ _ e :: _))])]⟩ => some e
  | _ => none

def splicedUse? (p : Program) : Option (String × Option NodeId) :=
  match spliced? p with
  | some (.path t n) => some (n, (p.check.refs.get? t.id).map (·.id))
  | _ => none

/-- A use of a toplevel constant is captured by a parameter of the caller. -/
theorem spliced_use_captured :
    shadows.ids.Nodup ∧ shadows.check.errors = [] ∧
    shadows.check.refs.get? ⟨7⟩ = some (.decl shadowed) ∧
    ∀ style, ∃ p' t, inlined? style .empty shadows 17 = some p' ∧
      spliced? p' = some (.path t "K") ∧ (p'.check.refs.get? t.id).map (·.id) =
        some shadowing.id := by
  refine ⟨by decide, List.isEmpty_iff.1 (by decide +kernel), by decide +kernel, fun style => ?_⟩
  have hinl : (inlined? style .empty shadows 17).bind splicedUse? =
      some ("K", some shadowing.id) := by
    cases style <;> decide +kernel
  obtain ⟨p', hp', he⟩ := Option.bind_eq_some_iff.1 hinl
  unfold splicedUse? at he
  split at he
  · rename_i t n hs
    obtain ⟨rfl, hr⟩ := Prod.mk.inj (Option.some.inj he)
    exact ⟨p', t, hp', hs, hr⟩
  · cases he

end ControlInlining

end MatchAction
