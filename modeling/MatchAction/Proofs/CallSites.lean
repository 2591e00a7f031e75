import MatchAction.Proofs.Discovery
import MatchAction.Proofs.Tabling

namespace MatchAction

def Decl.isCaller (d : Decl) : Bool := d.isAction || d.isControl

def Decl.inner (d : Decl) : List Visit := (d.body?.map Block.visits).getD []

theorem Decl.isCaller_of_inner {d : Decl} {v : Visit} (h : v ∈ d.inner) : d.isCaller = true := by
  cases d with
  | action | control => rfl
  | _ => cases h

theorem Program.inner_subset {p : Program} {d : Decl} (h : .enter d ∈ p.visits) :
    d.inner ⊆ p.visits := by
  intro v hv
  rcases hb : d.body? with _ | b
  · rw [Decl.inner, hb] at hv
    cases hv
  · rw [Decl.inner, hb] at hv
    exact visits_subset_of_enter h (Decl.visits_of_body? hb hv)

namespace ActionInlining

variable (refs : Refs) (types : Types) (sources : SourceMap)

def Calls (vs : List Visit) (caller : NodeId) (e : InlineEdge) : Prop :=
  ∃ t x a, .stmt (.call t x) ∈ vs ∧ Call.kind? refs types x = some (.action a) ∧
    sources.isLibrary a.span = false ∧ e = ⟨caller, a.id, t.id⟩

def Known (vs : List Visit) : Prop :=
  ∀ t x, .stmt (.call t x) ∈ vs → (Call.kind? refs types x).isSome

structure Reads (f : Finder) (caller : NodeId) (vs : List Visit) (f' : Finder) : Prop where
  callers : f'.callers = f.callers
  names : f'.names = f.names
  edges : ∀ e, e ∈ f'.edges ↔ Calls refs types sources vs caller e ∨ e ∈ f.edges
  error : f'.error = none ↔ Known refs types vs ∧ f.error = none

variable {refs types sources} {f f₁ f₂ : Finder} {caller : NodeId} {v : Visit} {vs : List Visit}

theorem Reads.refl (hvs : ∀ t x, .stmt (.call t x) ∉ vs) :
    Reads refs types sources f caller vs f where
  callers := rfl
  names := rfl
  edges _ := ⟨.inr, fun h => h.resolve_left fun ⟨t, x, _, hmem, _⟩ => hvs t x hmem⟩
  error := ⟨fun h => ⟨fun t x hmem => absurd hmem (hvs t x), h⟩, And.right⟩

theorem reads_call (f : Finder) (caller : NodeId) (t : Tag) (x : Expr) :
    Reads refs types sources f caller [.stmt (.call t x)]
      (f.call refs types sources caller t.id x) := by
  have hcalls (e : InlineEdge) : Calls refs types sources [.stmt (.call t x)] caller e ↔
      ∃ a, Call.kind? refs types x = some (.action a) ∧ sources.isLibrary a.span = false ∧
        e = ⟨caller, a.id, t.id⟩ := by
    simp [Calls]
  have hknown : Known refs types [.stmt (.call t x)] ↔ (Call.kind? refs types x).isSome := by
    simp [Known]
  rcases hc : Call.classify refs types x with err | c
  · have hkind : Call.kind? refs types x = none := by rw [Call.kind?, hc]
    rw [Finder.call, hc]
    refine ⟨rfl, rfl, fun e => ?_, ?_⟩
    · rw [hcalls, hkind]
      simp
    · rw [hknown, hkind]
      cases f.error <;> simp
  · have hkind : Call.kind? refs types x = some c.kind := by rw [Call.kind?, hc]
    rw [hkind] at hcalls hknown
    have hsame (h : ∀ a, c.kind = .action a → sources.isLibrary a.span = true) :
        Reads refs types sources f caller [.stmt (.call t x)] f := by
      refine ⟨rfl, rfl, fun e => ?_, by rw [hknown]; simp⟩
      rw [hcalls, or_iff_right]
      rintro ⟨a, ha, huser, -⟩
      rw [h a (Option.some.inj ha)] at huser
      cases huser
    obtain ⟨kind, sig, args⟩ := c
    rw [Finder.call, hc]
    cases kind with
    | action a =>
      dsimp only
      split
      · rename_i hlib
        exact hsame fun a' ha' => by cases ha'; exact hlib
      · rename_i huser
        refine ⟨rfl, rfl, fun e => ?_, by rw [hknown]; simp⟩
        rw [hcalls, List.mem_cons]
        simp [Bool.not_eq_true _ ▸ huser]
    | _ => exact hsame fun a ha => by cases ha

def Finder.nameOf (f : Finder) (d : Decl) : String :=
  match f.callers.head?.bind f.names.get? with
  | some parent => parent ++ "." ++ d.name
  | none => d.name

theorem enter_eq (f : Finder) (d : Decl) : f.enter d =
    { f with callers := d.id :: f.callers, names := f.names.insert d.id (f.nameOf d) } := rfl

theorem nameOf_toplevel (hf : f.callers = []) (d : Decl) : f.nameOf d = d.name := by
  simp [Finder.nameOf, hf]

theorem nameOf_within (hf : f.callers = i :: rest)
    (hn : f.names.get? i = some n) (d : Decl) : f.nameOf d = n ++ "." ++ d.name := by
  simp [Finder.nameOf, hf, hn]

end ActionInlining

namespace Program

variable {p : Program} {d d' : Decl} {q : String}

def Undotted (p : Program) : Prop := ∀ d ∈ p.decls, '.' ∉ d.name.toList

theorem eq_of_split (has : '.' ∉ as) (has' : '.' ∉ as')
    (h : as ++ '.' :: bs = as' ++ '.' :: bs') : as = as' ∧ bs = bs' := by
  induction as generalizing as' with
  | nil =>
    cases as' with
    | nil => exact ⟨rfl, (List.cons.inj h).2⟩
    | cons a as' => exact absurd ((List.cons.inj h).1 ▸ .head _) has'
  | cons a as ih =>
    cases as' with
    | nil => exact absurd ((List.cons.inj h).1 ▸ .head _) has
    | cons a' as' =>
      obtain ⟨rfl, htail⟩ := List.cons.inj h
      obtain ⟨rfl, rfl⟩ := ih (fun hm => has (.tail _ hm)) (fun hm => has' (.tail _ hm)) htail
      exact ⟨rfl, rfl⟩

theorem lookup_of_path (hids : (nodeIds p.visits).Nodup)
    (hs : .stmt (.call t (.call t' (.path i f) ts as)) ∈ p.visits)
    (hd : p.check.refs.decl? i.id = some d) :
    ∃ sc, (sc, .stmt (.call t (.call t' (.path i f) ts as))) ∈ p.places ∧
      sc.lookup f = some (.decl d) := by
  obtain ⟨sc, hpl⟩ := exists_place hs
  have hpath : (sc, .expr (.path i f)) ∈ p.places := by
    refine p.closed_places _ hpl ?_
    simp [Place.below, Stmt.places, Scopes.all, Expr.visits, Expr.walk]
  obtain ⟨r, hr, hd⟩ := Option.bind_eq_some_iff.1 hd
  obtain ⟨r', hlookup, heq⟩ := Option.map_eq_some_iff.1 (use?_of_get? hids hpath rfl hr)
  cases heq
  cases r with
  | param q => cases hd
  | decl d' =>
    cases hd
    exact ⟨sc, hpl, hlookup⟩

theorem enter_of_lookup (hpl : pl ∈ p.places)
    (h : pl.1.lookup n = some (.decl d)) : d.name = n ∧ .enter d ∈ p.visits := by
  obtain ⟨hname, hmem⟩ := lookup_of_place hpl h
  refine ⟨hname, ?_⟩
  rcases mem_referents hmem with ⟨d', hd', heq⟩ | ⟨_, _, _, _, heq⟩
  · cases heq
    exact mem_allDecls.1 hd'
  · cases heq

theorem call_of_action (hids : (nodeIds p.visits).Nodup)
    (hs : .stmt (.call t x) ∈ p.visits)
    (hkind : Call.kind? p.check.refs p.check.types x = some (.action a)) :
    .enter a ∈ p.visits ∧ a.isAction = true ∧ ∃ t' i ts as, x = .call t' (.path i a.name) ts as ∧
      (p.check.errors = [] → as.length = a.params.length) := by
  obtain ⟨t', i, f, ts, as, rfl, hdecl, ha⟩ := Call.path_of_action hkind
  obtain ⟨sc, hpl, hlookup⟩ := lookup_of_path hids hs hdecl
  obtain ⟨rfl, henter⟩ := enter_of_lookup hpl hlookup
  refine ⟨henter, ha, t', i, ts, as, rfl, fun herr => ?_⟩
  cases a with
  | action h ps b => exact fine_of_errors herr _ hpl h ps b hlookup
  | _ => cases ha

end Program

def Decl.inlinable (sources : SourceMap) : Decl → Bool
  | .action h _ b => !sources.isLibrary h.span && !b.hasReturn
  | _ => false

namespace ActionInlining

variable {p : Program}

def inlined? (p : Program) (c : Context) (n : Nat) : Option (Program × Context) :=
  match (Pass.discoverActions 0).runAt ⟨p, c, n⟩ with
  | ((.ok x₁, c₁), n₁) =>
    match (Pass.inlineActions 0).runAt ⟨x₁.get p, c₁, n₁⟩ with
    | ((.ok x, c₂), _) => some (x.get p, c₂)
    | _ => none
  | _ => none

theorem exists_of_inlined?
    (h : inlined? p c n = some (q, c₂)) :
    ∃ x₁ c₁ n₁ x n₂, (Pass.discoverActions 0).runAt ⟨p, c, n⟩ = ((.ok x₁, c₁), n₁) ∧
      (Pass.inlineActions 0).runAt ⟨x₁.get p, c₁, n₁⟩ = ((.ok x, c₂), n₂) ∧ x.get p = q := by
  unfold inlined? at h
  split at h
  · rename_i x₁ c₁ n₁ hfound
    split at h
    · rename_i x c₂ n₂ hrun
      cases h
      exact ⟨x₁, c₁, n₁, x, n₂, hfound, hrun, rfl⟩
    · cases h
  · cases h

def callOf (i : Nat) (f : String) : Stmt :=
  .call ⟨⟨i⟩, none⟩ (.call ⟨⟨i + 1⟩, none⟩ (.path ⟨⟨i + 2⟩, none⟩ f) [] [])

def fresh (p : Program) : Context := (Context.new .empty .standard).refresh p

/-- The toplevel action `r` returns; `c` has an `r` of its own, which does not. -/
def captured : Program := ⟨[
  .action ⟨⟨0⟩, "r", none⟩ [] (.mk ⟨1⟩ [.ret ⟨⟨2⟩, none⟩ none]),
  .action ⟨⟨3⟩, "a", none⟩ [] (.mk ⟨4⟩ [callOf 5 "r"]),
  .control ⟨⟨8⟩, "c", none⟩ [] [] [] [.action ⟨⟨9⟩, "r", none⟩ [] (.mk ⟨10⟩ [])]
    (.mk ⟨11⟩ [callOf 12 "a"])]⟩

def leftover (sources : SourceMap) (p : Program) : List Stmt :=
  (p.visits.filterMap Visit.stmt?).filter fun
    | .call _ e => match Call.kind? p.check.refs p.check.types e with
      | some (.action a) => a.inlinable sources
      | _ => false
    | _ => false

theorem exists_of_leftover (h : leftover sources p ≠ []) :
    ∃ t e a, .stmt (.call t e) ∈ p.visits ∧
      Call.kind? p.check.refs p.check.types e = some (.action a) ∧ a.inlinable sources = true := by
  obtain ⟨s, hs⟩ := List.exists_mem_of_ne_nil _ h
  obtain ⟨hs, hleft⟩ := List.mem_filter.1 hs
  obtain ⟨v, hv, hstmt⟩ := List.mem_filterMap.1 hs
  cases v <;> cases hstmt
  split at hleft
  · split at hleft
    · exact ⟨_, _, _, hv, ‹_›, hleft⟩
    · cases hleft
  · cases hleft

/-- A call that stays, since its callee returns, is spliced to where its name means another action:
one that is inlined. -/
theorem spliced_call_is_captured :
    captured.Distinct 15 ∧ captured.Orderly ∧ captured.check.errors = [] ∧ captured.Undotted ∧
    ∃ x₁ c₁ n₁ x c₂ n₂,
      (Pass.discoverActions 0).runAt ⟨captured, fresh captured, 15⟩ = ((.ok x₁, c₁), n₁) ∧
      (Pass.inlineActions 0).runAt ⟨x₁.get captured, c₁, n₁⟩ = ((.ok x, c₂), n₂) ∧
      c₂.diagnostics.hasErrors = false ∧
      ∃ t e a, .stmt (.call t e) ∈ (x.get captured).visits ∧
        Call.kind? (x.get captured).check.refs (x.get captured).check.types e = some (.action a) ∧
        a.inlinable .empty = true := by
  have hrun : (inlined? captured (fresh captured) 15).map (fun r =>
      (r.2.diagnostics.hasErrors, (leftover .empty r.1).length)) = some (false, 1) := by
    decide +kernel
  obtain ⟨⟨q, c₂⟩, hq, hres⟩ := Option.map_eq_some_iff.1 hrun
  obtain ⟨hok, hlength⟩ := Prod.mk.inj hres
  obtain ⟨x₁, c₁, n₁, x, n₂, hfound, hrun, rfl⟩ := exists_of_inlined? hq
  refine ⟨⟨by decide, by decide⟩, ((Weights.total_disorder 0 captured).1 (by decide)).1,
    List.isEmpty_iff.1 (by decide +kernel), by unfold Program.Undotted; decide,
    x₁, c₁, n₁, x, c₂, n₂, hfound, hrun, hok, exists_of_leftover fun hnone => ?_⟩
  rw [hnone] at hlength
  cases hlength

end ActionInlining

end MatchAction
