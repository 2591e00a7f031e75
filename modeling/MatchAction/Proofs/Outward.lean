import MatchAction.Proofs.Elaboration
import MatchAction.Proofs.Hoisting

/-!
Checking a body whose variables have moved outward. Where a name meant something, it means the same
after the move, and moved variables are in sight from the start of the body on. So each statement
is checked as before: what is known of old nodes is the same, except for the types of variables
that the input has yet to declare, which the output knows already.
-/

namespace MatchAction

open List

structure Scopes.TypesFrom (outer sc : Scopes) : Prop where
  typeParams : outer.typeParams = sc.typeParams
  types : ∀ {n d}, sc.lookup n = some (.decl d) → d.isType = true → outer.lookup n = some (.decl d)

variable {r : Referent}

namespace Scopes.TypesFrom

variable {outer sc sc' : Scopes}

theorem refl (sc : Scopes) : sc.TypesFrom sc := ⟨rfl, fun h _ => h⟩

theorem push (h : outer.TypesFrom sc) : outer.TypesFrom sc.push := ⟨h.typeParams, h.types⟩

theorem define (h : outer.TypesFrom sc) (n : String)
    (hr : ∀ d, r = .decl d → d.isType = false) : outer.TypesFrom (sc.define n r).2 where
  typeParams := h.typeParams.trans (sc.typeParams_define n r).symm
  types {m d} hl ht := by
    rw [lookup_define_eq] at hl
    split at hl
    · rw [hr d (Option.some.inj hl)] at ht
      cases ht
    · exact h.types hl ht

theorem trans_match {V : Versions} (h : outer.TypesFrom sc) (hm : outer.Match V [] sc') :
    sc.Match V [] sc' where
  typeParams := hm.typeParams.trans h.typeParams
  types hl ht hk := hm.types (h.types hl ht) ht hk
  paths h := absurd h not_mem_nil

end Scopes.TypesFrom

variable {n : String}

theorem Scopes.innermost_define_new {sc : Scopes} (h : sc.innermost.lookup n = none)
    (r : Referent) : (sc.define n r).2.innermost = (n, r) :: sc.innermost := by
  rw [innermost_define_eq, Frame.add, h]
  rfl

theorem Scopes.innermost_eq_none {sc : Scopes} (h : sc.lookup n = none) :
    sc.innermost.lookup n = none := by
  rw [lookup_eq_findSome?, frames_eq_cons, findSome?_cons] at h
  split at h
  · cases h
  · assumption

section

variable (p : Program) (V : Versions) (n₀ : Nat) (M : List Decl)

/-- How names are in sight once the variables `M` have moved, those of `pend` to a place before that
of their declaration. -/
structure Widened (pend : List Decl) (sc sc' : Scopes) : Prop where
  typeParams : sc'.typeParams = sc.typeParams
  lookup : ∀ {n r}, sc.lookup n = some r → sc'.lookup n = some (r.over V.decl)
  held : ∀ {n r}, sc.lookup n = some r → r ∈ p.referents ∧ r.name = n
  apart : ∀ {n r}, sc.lookup n = some r → r.id ∉ pend.map Decl.id
  moved : ∀ m ∈ M, sc'.lookup m.name = some (.decl (V.decl m))
  level : ∀ {n}, sc.innermost.lookup n = none → n ∉ M.map (·.name) → sc'.innermost.lookup n = none

end

namespace Widened

variable {p : Program} {V : Versions} {M pend rest : List Decl} {sc sc' : Scopes}

theorem mono (h : Widened p V M pend sc sc') (hs : rest ⊆ pend) : Widened p V M rest sc sc' where
  typeParams := h.typeParams
  lookup := h.lookup
  held := h.held
  apart hl hmem := h.apart hl (map_subset _ hs hmem)
  moved := h.moved
  level := h.level

theorem push (h : Widened p V M pend sc sc') : Widened p V M pend sc.push sc'.push where
  typeParams := h.typeParams
  lookup := h.lookup
  held := h.held
  apart := h.apart
  moved := h.moved
  level _ _ := rfl

theorem pushTypeParams (h : Widened p V M pend sc sc') (tps : List String) :
    Widened p V M pend (sc.pushTypeParams tps) (sc'.pushTypeParams tps) where
  typeParams := congrArg (tps :: ·) h.typeParams
  lookup := h.lookup
  held := h.held
  apart := h.apart
  moved := h.moved
  level := h.level

theorem toMatch (h : Widened p V M pend sc sc') (hpath : V.path = Spelling.same.use)
    (es : List Expr) : sc.Match V es sc' where
  typeParams := h.typeParams
  types hl _ _ := h.lookup hl
  paths _ hl _ := by
    rw [hpath]
    exact h.lookup hl

theorem define (h : Widened p V M pend sc sc')
    (hr : r ∈ p.referents ∧ r.name = n) (hid : r.id ∉ pend.map Decl.id) (hn : n ∉ M.map (·.name))
    (hnew : sc.innermost.lookup n = none) :
    Widened p V M pend (sc.define n r).2 (sc'.define n (r.over V.decl)).2 := by
  have hnew' := h.level hnew hn
  refine ⟨?_, fun {m x} hl => ?_, fun {m x} hl => ?_, fun {m x} hl => ?_, fun m hm => ?_,
    fun {m} hl hm => ?_⟩
  · rw [Scopes.typeParams_define, Scopes.typeParams_define, h.typeParams]
  · rw [Scopes.lookup_define_eq, hnew] at hl
    rw [Scopes.lookup_define_eq, hnew']
    split at hl
    · rename_i hcond
      cases hl
      rw [if_pos ⟨rfl, hcond.2⟩]
    · rename_i hcond
      rw [if_neg fun hc => hcond ⟨rfl, hc.2⟩]
      exact h.lookup hl
  · rw [Scopes.lookup_define_eq] at hl
    split at hl
    · rename_i hcond
      cases hl
      exact hcond.2 ▸ hr
    · exact h.held hl
  · rw [Scopes.lookup_define_eq] at hl
    split at hl
    · cases hl
      exact hid
    · exact h.apart hl
  · have hne : m.name ≠ n := fun he => hn (he ▸ mem_map_of_mem hm)
    rw [Scopes.lookup_define_eq, if_neg fun hc => hne hc.2]
    exact h.moved m hm
  · rw [Scopes.innermost_define_new hnew, lookup_cons] at hl
    rw [Scopes.innermost_define_new hnew', lookup_cons]
    cases hmn : m == n with
    | true => simp [hmn] at hl
    | false =>
      rw [hmn] at hl
      exact h.level hl hm

theorem declare {m : Decl} (h : Widened p V M (m :: rest) sc sc') (hm : m ∈ M)
    (hr : .decl m ∈ p.referents) (hid : m.id ∉ rest.map Decl.id) :
    Widened p V M rest (sc.declare m) sc' := by
  have hrest := h.mono (subset_cons_self m rest)
  refine ⟨?_, fun {n x} hl => ?_, fun {n x} hl => ?_, fun {n x} hl => ?_, h.moved,
    fun {n} hl hn => ?_⟩
  · rw [Scopes.declare, Scopes.typeParams_define, h.typeParams]
  · rw [Scopes.declare, Scopes.lookup_define_eq] at hl
    split at hl
    · rename_i hcond
      cases hl
      rw [hcond.2]
      exact h.moved m hm
    · exact h.lookup hl
  · rw [Scopes.declare, Scopes.lookup_define_eq] at hl
    split at hl
    · rename_i hcond
      cases hl
      exact ⟨hr, hcond.2.symm⟩
    · exact h.held hl
  · rw [Scopes.declare, Scopes.lookup_define_eq] at hl
    split at hl
    · cases hl
      exact hid
    · exact hrest.apart hl
  · refine h.level ?_ hn
    have hne : n ≠ m.name := fun he => hn (he ▸ mem_map_of_mem hm)
    rw [Scopes.declare, Scopes.innermost_define_eq, Frame.add] at hl
    split at hl
    · exact hl
    · rwa [lookup_cons, beq_eq_false_iff_ne.2 hne] at hl

theorem front {m : Decl} (h : Widened p V M M sc sc') (hm : sc.lookup m.name = none)
    (hid : ∀ {n r}, sc.lookup n = some r → r.id ≠ m.id) (hnew : m.name ∉ M.map (·.name)) :
    Widened p V (M ++ [m]) (M ++ [m]) sc (sc'.define m.name (.decl (V.decl m))).2 := by
  have hnew' := h.level (Scopes.innermost_eq_none hm) hnew
  refine ⟨?_, fun {n x} hl => ?_, h.held, fun {n x} hl => ?_, fun m' hm' => ?_, fun {n} hl hn => ?_⟩
  · rw [Scopes.typeParams_define, h.typeParams]
  · have hne : n ≠ m.name := fun he => by
      rw [he, hm] at hl
      cases hl
    rw [Scopes.lookup_define_eq, if_neg fun hc => hne hc.2]
    exact h.lookup hl
  · rw [map_append, mem_append, not_or]
    exact ⟨h.apart hl, fun hmem => hid hl (mem_singleton.1 hmem)⟩
  · rw [Scopes.lookup_define_eq, hnew']
    rcases mem_append.1 hm' with hm' | hm'
    · have hne : m'.name ≠ m.name := fun he => hnew (he ▸ mem_map_of_mem hm')
      rw [if_neg fun hc => hne hc.2]
      exact h.moved m' hm'
    · cases mem_singleton.1 hm'
      rw [if_pos ⟨rfl, rfl⟩]
  · rw [map_append, mem_append, not_or] at hn
    have hne : n ≠ m.name := fun he => hn.2 (he ▸ .head _)
    rw [Scopes.innermost_define_new hnew', lookup_cons, beq_eq_false_iff_ne.2 hne]
    exact h.level hl hn.1

end Widened

theorem Types.get?_set_eq (t : Types) (i j : NodeId) (ty : Ty) :
    (t.set i ty).get? j = if j = i then some ty else t.get? j := t.types.get?_insert i j ty

theorem Refs.get?_set_eq (r : Refs) (i j : NodeId) (x : Referent) :
    (r.set i x).get? j = if j = i then some x else r.get? j := r.targets.get?_insert i j x

theorem Refs.get?_foldl_markUsed (is : List NodeId) (r : Refs) (j : NodeId) :
    (is.foldl Refs.markUsed r).get? j = r.get? j :=
  congrArg (NodeMap.get? · j) (Check.targets_foldl_markUsed is r)

def Likeness.until (V : Versions) (n₀ : Nat) (pend : List Decl) : Likeness V where
  refs r r' := ∀ i : NodeId, i.val < n₀ → r'.get? i = (r.get? i).map (Referent.over V.decl)
  types t t' := (∀ i : NodeId, i.val < n₀ → i ∉ pend.map Decl.id →
      t'.get? i = (t.get? i).map (Ty.over V.decl)) ∧
    ∀ i : NodeId, i.val < n₀ → t'.isLeftValue i = t.isLeftValue i
  known i := i.val < n₀ ∧ i ∉ pend.map Decl.id
  setRef i x h j hj := by
    rw [Refs.get?_set_eq, Refs.get?_set_eq]
    split
    · rfl
    · exact h j hj
  markUsed _ h := h
  get? h hi := h.1 _ hi.1 hi.2
  isLeftValue h hi := h.2 _ hi.1
  set i ty h := by
    refine ⟨fun j hj hpend => ?_, h.2⟩
    rw [Types.get?_set_eq, Types.get?_set_eq]
    split
    · rfl
    · exact h.1 j hj hpend
  setLeftValue i h := by
    refine ⟨h.1, fun j hj => ?_⟩
    simp only [Types.isLeftValue, Types.setLeftValue, contains_cons]
    exact congrArg _ (h.2 j hj)
  setBindings _ _ h := h

def Program.exprs (p : Program) : List Expr := p.visits.filterMap Visit.expr?

variable {e : Expr}

theorem Program.mem_exprs {p : Program} : e ∈ p.exprs ↔ .expr e ∈ p.visits := by
  refine mem_filterMap.trans ⟨?_, fun h => ⟨_, h, rfl⟩⟩
  rintro ⟨v, hv, he⟩
  cases v <;> cases he
  exact hv

theorem Program.walk_subset_exprs {p : Program} (h : e.visits ⊆ p.visits) :
    e.walk ⊆ p.exprs := fun _ he => mem_exprs.2 (h (mem_map_of_mem he))

/-- The nodes of a program are told apart and stand below `n₀`, paths keep their names, and all
declarations are kept. -/
structure Setting (p : Program) (V : Versions) (n₀ : Nat) : Prop where
  ids : p.NodesApart
  below : ∀ i ∈ p.ids, i.val < n₀
  plain : (V.path, V.kept) = (Spelling.same.use, fun _ => True)

variable {d : Decl}

namespace Setting

variable {p : Program} {V : Versions} {n₀ : Nat} (S : Setting p V n₀)

include S

theorem path : V.path = Spelling.same.use := congrArg Prod.fst S.plain

theorem kept (i : NodeId) : V.kept i := (congrFun (congrArg Prod.snd S.plain) i).mpr trivial

theorem visit_below {v : Visit} (hv : v ∈ p.visits) {i : NodeId} (hi : v.id? = some i) :
    i.val < n₀ :=
  S.below i (mem_append_left _ (mem_filterMap.2 ⟨v, hv, hi⟩))

theorem referent_below (hr : r ∈ p.referents) : r.id.val < n₀ := by
  rcases Program.mem_referents hr with ⟨d, hd, rfl⟩ | ⟨d, hd, q, hq, rfl⟩
  · exact S.visit_below (Program.mem_allDecls.1 hd) rfl
  · exact S.below _ (mem_append_right _ (mem_flatMap.2 ⟨d, hd, mem_map_of_mem hq⟩))

theorem eq_enter {v : Visit} (hv : v ∈ p.visits) (hd : .enter d ∈ p.visits)
    (hi : v.id? = some d.id) : v = .enter d :=
  eq_of_nodup_filterMap S.ids.nodes hv hd hi rfl

theorem param_apart {q : Param} (hq : .param q ∈ p.referents) : ¬ p.nodes q.id := by
  rcases Program.mem_referents hq with ⟨d, _, hd⟩ | ⟨d, hd, q', hq', he⟩
  · cases hd
  · cases he
    exact S.ids.params d hd q hq'

theorem not_written {i : NodeId} (hi : n₀ ≤ i.val) : ¬ p.nodes.written i := by
  rintro ⟨r, hr, -, rfl⟩
  exact absurd (S.referent_below hr) (Nat.not_lt.2 hi)

end Setting

theorem Decl.Alike.params {d' : Decl} (h : d.Alike d') : d'.params = d.params := by
  cases h <;> rfl

section

variable (p : Program) (V : Versions) (n₀ : Nat) (M : List Decl) (outer : Scopes)

/-- How a check stands once the variables `M` have moved, with `pend` still to be declared in the
input, in a body whose moved variables are declared where `outer` was in sight. -/
structure Beside (pend : List Decl) (c c' : Checker) : Prop where
  names : Widened p V M pend c.scopes c'.scopes
  refs : (Likeness.until V n₀ pend).refs c.refs c'.refs
  types : (Likeness.until V n₀ pend).types c.types c'.types
  errors : c'.errors = c.errors
  clear : c'.Clear p.nodes
  pending : ∀ m ∈ pend, .enter m ∈ p.visits
  among : pend ⊆ M
  nodup : (pend.map Decl.id).Nodup
  place : pend ≠ [] → outer.TypesFrom c.scopes
  settled : ∀ {h ty e}, .var h ty e ∈ pend → ∀ {sc : Scopes}, outer.TypesFrom sc →
    (sc.resolve ty).unknown = [] → c'.types.get? h.id = some ((sc.resolve ty).type.over V.decl)

end

variable {hd : Head} {ty : TypeExpr}

namespace Beside

open Check

variable {p : Program} {V : Versions} {n₀ : Nat} {M pend rest : List Decl} {outer : Scopes}
  {c c' : Checker}

theorem like (S : Setting p V n₀) (h : Beside p V n₀ M outer pend c c') :
    c.Like (.until V n₀ pend) p.exprs c' where
  names := h.names.toMatch S.path p.exprs
  refs := h.refs
  types := h.types
  errors := h.errors
  exprs e he := by
    have hv := Program.mem_exprs.1 he
    refine ⟨S.visit_below hv rfl, fun hmem => ?_⟩
    obtain ⟨m, hm, hid⟩ := mem_map.1 hmem
    cases S.eq_enter hv (h.pending m hm) (congrArg some hid.symm)
  values _ hl _ _ := ⟨S.referent_below (h.names.held hl).1, h.names.apart hl⟩

theorem step {α β : Type} (S : Setting p V n₀) (h : Beside p V n₀ M outer pend c c') {f : α → β}
    {x : Check α} {x' : Check β} (hx : Echoes (.until V n₀ pend) p.exprs f x x') {L : NodeId → Prop}
    {post : β → Prop} (hs : Sets p.nodes L post x') (hL : ∀ m ∈ pend, ¬ L m.id)
    (herr : (x c).2.errors = []) :
    (x' c').1 = f (x c).1 ∧ Beside p V n₀ M outer pend (x c).2 (x' c').2 := by
  obtain ⟨hresult, hafter, hscopes'⟩ := hx.same (h.like S) herr fun i _ => S.kept i
  have hscopes := hx.scopes c
  refine ⟨hresult, ?_, hafter.refs, hafter.types, hafter.errors, hs.clear h.clear,
    h.pending, h.among, h.nodup, ?_, fun {hd ty e} hm {sc} hsc hty => ?_⟩
  · rw [hscopes, hscopes']
    exact h.names
  · rw [hscopes]
    exact h.place
  · have hnode : p.nodes hd.id := mem_filterMap.2 ⟨_, h.pending _ hm, rfl⟩
    rw [hs.frame h.clear hnode (hL _ hm)]
    exact h.settled hm hsc hty

theorem push (h : Beside p V n₀ M outer pend c c') :
    Beside p V n₀ M outer pend { c with scopes := c.scopes.push }
      { c' with scopes := c'.scopes.push } where
  names := h.names.push
  refs := h.refs
  types := h.types
  errors := h.errors
  clear := h.clear.withScopes h.clear.scopes.push
  pending := h.pending
  among := h.among
  nodup := h.nodup
  place hne := (h.place hne).push
  settled := h.settled

theorem back {e e' : Checker} (h : Beside p V n₀ M outer pend c c') {N : List Decl}
    (he : Beside p V n₀ N outer rest e e') (hs : rest ⊆ pend) :
    Beside p V n₀ M outer rest { e with scopes := c.scopes } { e' with scopes := c'.scopes } where
  names := h.names.mono hs
  refs := he.refs
  types := he.types
  errors := he.errors
  clear := he.clear.withScopes h.clear.scopes
  pending := he.pending
  among := List.Subset.trans hs h.among
  nodup := he.nodup
  place hne := h.place fun hnil => hne (subset_nil.1 (hnil ▸ hs))
  settled := he.settled

theorem define (h : Beside p V n₀ M outer pend c c')
    (hr : r ∈ p.referents ∧ r.name = n) (hid : r.id ∉ pend.map Decl.id) (hn : n ∉ M.map (·.name))
    (hclear : r.Clear p.nodes) (ht : pend ≠ [] → ∀ d, r = .decl d → d.isType = false)
    (sp : Option Span)
    (herr : (Check.define n sp r c).2.errors = []) :
    Beside p V n₀ M outer pend (Check.define n sp r c).2
      (Check.define n sp (r.over V.decl) c').2 := by
  have hnew := ((define_spec n sp r c).2.2 herr).2
  have hclear' : (r.over V.decl).Clear p.nodes := by
    cases r with
    | param q => trivial
    | decl d => exact fun q hq => hclear q ((V.alike d).params ▸ hq)
  rw [define_of_new hnew, define_of_new (h.names.level hnew hn)]
  exact ⟨h.names.define hr hid hn hnew, h.refs, h.types, h.errors,
    h.clear.withScopes (h.clear.scopes.define n hclear'), h.pending, h.among, h.nodup,
    fun hne => (h.place hne).define n (ht hne), h.settled⟩

theorem declare {e : Option Expr}
    (h : Beside p V n₀ M outer (.var hd ty e :: rest) c c') (hm : .var hd ty e ∈ M)
    (hty : (c.scopes.resolve ty).unknown = []) (sp : Option Span)
    (herr : (Check.define hd.name sp (.decl (.var hd ty e))
      { c with types := c.types.set hd.id (c.scopes.resolve ty).type }).2.errors = []) :
    Beside p V n₀ M outer rest (Check.define hd.name sp (.decl (.var hd ty e))
      { c with types := c.types.set hd.id (c.scopes.resolve ty).type }).2 c' := by
  have hplace := h.place (cons_ne_nil _ _)
  have hsettled := h.settled (.head _) hplace hty
  have hr : .decl (.var hd ty e) ∈ p.referents :=
    mem_flatMap.2 ⟨_, Program.mem_allDecls.2 (h.pending _ (.head _)), Decl.self_mem_referents _⟩
  obtain ⟨hid, hnodup⟩ := nodup_cons.1 h.nodup
  have hnew : c.scopes.innermost.lookup hd.name = none := ((define_spec hd.name sp _ _).2.2 herr).2
  rw [define_of_new (c := { c with types := c.types.set hd.id (c.scopes.resolve ty).type }) hnew]
  refine ⟨h.names.declare hm hr hid, h.refs, ⟨fun i hi hpend => ?_, h.types.2⟩, h.errors, h.clear,
    fun m hm => h.pending m (.tail _ hm), fun m hm => h.among (.tail _ hm), hnodup,
      fun _ => hplace.define _ ?_,
    fun hm => h.settled (.tail _ hm)⟩
  · change _ = ((c.types.set hd.id (c.scopes.resolve ty).type).get? i).map _
    rw [Types.get?_set_eq]
    split
    · rename_i heq
      rw [heq, hsettled]
      rfl
    · rename_i hne
      refine h.types.1 i hi fun hmem => ?_
      rcases mem_cons.1 hmem with heq | hmem
      · exact hne heq
      · exact hpend hmem
  · rintro d ⟨⟩
    rfl

theorem front {e : Option Expr} (S : Setting p V n₀)
    (h : Beside p V n₀ M c.scopes M c c') (hm : .enter (.var hd ty e) ∈ p.visits)
    (hv : V.decl (.var hd ty e) = .var hd ty none) (hl : c.scopes.lookup hd.name = none)
    (hname : hd.name ∉ M.map (·.name)) (hid : hd.id ∉ M.map Decl.id)
    (hsight : ∀ {n r}, c.scopes.lookup n = some r → r.id ≠ hd.id)
    (hty : ∃ sc, c.scopes.TypesFrom sc ∧ (sc.resolve ty).unknown = []) :
    Beside p V n₀ (M ++ [.var hd ty e]) c.scopes (M ++ [.var hd ty e]) c
      ((Check.decl (.var hd ty none) >>= fun _ => defineDecl (.var hd ty none)) c').2 := by
  have hmatch := h.names.toMatch S.path []
  have hresolve : ∀ {sc : Scopes}, c.scopes.TypesFrom sc → (sc.resolve ty).unknown = [] →
      c'.scopes.resolve ty = ⟨(sc.resolve ty).type.over V.decl, (sc.resolve ty).uses, []⟩ :=
    fun hsc hu => (hsc.trans_match hmatch).resolve ty hu fun i _ => S.kept i
  have hunknown : (c'.scopes.resolve ty).unknown = [] := by
    obtain ⟨sc, hsc, hu⟩ := hty
    rw [hresolve hsc hu]
  have hnew' : c'.scopes.innermost.lookup hd.name = none :=
    h.names.level (Scopes.innermost_eq_none hl) hname
  have hready : Ready p.nodes p.IsEntry [.enter (.var hd ty e)] :=
    (Program.ready_visits S.ids).sublist (singleton_sublist.2 hm)
  have hclear := (runs_initialised (d := .var hd ty e) rfl ty (e := none) hready).sets.clear h.clear
  have hrun : ((Check.decl (.var hd ty none) >>= fun _ => defineDecl (.var hd ty none)) c').2 =
      { c' with
        scopes := (c'.scopes.define hd.name (.decl (.var hd ty none))).2
        refs := (c'.scopes.resolve ty).uses.foldl Refs.markUsed c'.refs
        types := c'.types.set hd.id (c'.scopes.resolve ty).type } := by
    have hdecl : Check.decl (.var hd ty none) c' = ((), { c' with
        refs := (c'.scopes.resolve ty).uses.foldl Refs.markUsed c'.refs
        types := c'.types.set hd.id (c'.scopes.resolve ty).type
        errors := c'.errors ++ (c'.scopes.resolve ty).unknown.map fun n =>
          ⟨.unknownType n, hd.span⟩ }) := rfl
    rw [bind_apply, hdecl, hunknown, map_nil, append_nil]
    exact congrArg Prod.snd (define_of_new (c := { c' with
      refs := (c'.scopes.resolve ty).uses.foldl Refs.markUsed c'.refs
      types := c'.types.set hd.id (c'.scopes.resolve ty).type }) hnew' _ _)
  rw [hrun]
  refine ⟨?_, fun i hi => ?_, ⟨fun i hi hpend => ?_, h.types.2⟩, h.errors, ?_, ?_,
    List.Subset.refl _, ?_, fun _ => .refl _, fun {hd' ty' e'} hmem {sc} hsc hu => ?_⟩
  · have hnames := h.names.front (m := .var hd ty e) hl hsight hname
    rwa [hv] at hnames
  · exact (Refs.get?_foldl_markUsed _ _ i).trans (h.refs i hi)
  · rw [map_append, mem_append, not_or] at hpend
    have hne : i ≠ hd.id := fun he => hpend.2 (mem_singleton.2 he)
    rw [Types.get?_set_eq, if_neg hne]
    exact h.types.1 i hi hpend.1
  · exact ⟨h.clear.scopes.define hd.name fun _ hq => absurd hq not_mem_nil, hclear.types,
      hclear.written⟩
  · exact forall_mem_append.2 ⟨h.pending, forall_mem_singleton.2 hm⟩
  · rw [map_append, List.nodup_append]
    refine ⟨h.nodup, nodup_singleton _, fun i hi j hj => ?_⟩
    have hj : j = hd.id := mem_singleton.1 hj
    rintro rfl
    exact hid (hj ▸ hi)
  · rw [Types.get?_set_eq]
    rcases mem_append.1 hmem with hmem | hmem
    · have hne : hd'.id ≠ hd.id := fun he => hid (he ▸ mem_map_of_mem hmem)
      rw [if_neg hne]
      exact h.settled hmem hsc hu
    · cases mem_singleton.1 hmem
      rw [if_pos rfl, hresolve hsc hu]

theorem path {e : Option Expr} (S : Setting p V n₀)
    (h : Beside p V n₀ M outer pend c c') (hm : .var hd ty e ∈ pend) (hM : .var hd ty e ∈ M)
    (hv : V.decl (.var hd ty e) = .var hd ty none) (hty : (c.scopes.resolve ty).unknown = [])
    {t : Tag}
    (ht : n₀ ≤ t.id.val) :
    (expr (.path t hd.name) c').1 = (c.scopes.resolve ty).type.over V.decl ∧
      (expr (.path t hd.name) c').2.types.isLeftValue t.id = true ∧
      Beside p V n₀ M outer pend c (expr (.path t hd.name) c').2 := by
  have hlookup : c'.scopes.lookup hd.name = some (.decl (.var hd ty none)) :=
    hv ▸ h.names.moved _ hM
  have hsettled := h.settled hm (h.place (ne_nil_of_mem hm)) hty
  have hpath : Check.path t hd.name c' = ((c.scopes.resolve ty).type.over V.decl,
      { c' with
        refs := c'.refs.set t.id (.decl (.var hd ty none))
        types := c'.types.setLeftValue t.id }) := by
    rw [path_of_lookup hlookup]
    change ((c'.types.get? hd.id).getD .error, _) = _
    rw [hsettled]
    rfl
  have hrun : expr (.path t hd.name) c' = ((c.scopes.resolve ty).type.over V.decl,
      { c' with
        refs := c'.refs.set t.id (.decl (.var hd ty none))
        types := (c'.types.setLeftValue t.id).set t.id ((c.scopes.resolve ty).type.over V.decl)
          }) := by
    change ((Check.path t hd.name c').1, { (Check.path t hd.name c').2 with
      types := (Check.path t hd.name c').2.types.set t.id (Check.path t hd.name c').1 }) = _
    rw [hpath]
  have hne : ∀ {i : NodeId}, i.val < n₀ → i ≠ t.id := fun hi he =>
    absurd (he ▸ hi) (Nat.not_lt.2 ht)
  rw [hrun]
  refine ⟨rfl, contains_iff_mem.2 (.head _), h.names, fun i hi => ?_, ⟨fun i hi hpend => ?_,
    fun i hi => ?_⟩, h.errors, ⟨h.clear.scopes, forall_mem_cons.2 ⟨h.clear.typeOf hsettled,
      h.clear.types⟩,
    forall_mem_cons.2 ⟨fun hw => absurd hw (S.not_written ht), h.clear.written⟩⟩,
      h.pending, h.among,
    h.nodup,
    h.place, fun {hd' ty' e'} hmem {sc} hsc hu => ?_⟩
  · rw [Refs.get?_set_eq, if_neg (hne hi)]
    exact h.refs i hi
  · rw [Types.get?_set_eq, if_neg (hne hi)]
    exact h.types.1 i hi hpend
  · change (t.id :: c'.types.leftValues).contains i = _
    rw [contains_cons, beq_eq_false_iff_ne.2 (hne hi), Bool.false_or]
    exact h.types.2 i hi
  · have hold : hd'.id.val < n₀ := S.visit_below (h.pending _ hmem) rfl
    rw [Types.get?_set_eq, if_neg (hne hold)]
    exact h.settled hmem hsc hu

end Beside

variable {vs : List Visit}

namespace Hoist

section

variable {T : List String}

@[simp] theorem moved_nil : moved T [] = [] := rfl

@[simp] theorem moved_append (vs ws : List Visit) : moved T (vs ++ ws) = moved T vs ++
    moved T ws := by
  simp [moved]

@[simp] theorem moved_stmt (s : Stmt) (vs : List Visit) : moved T (.stmt s :: vs) = moved T vs :=
    rfl

@[simp] theorem moved_block (b : Block) (vs : List Visit) : moved T (.block b :: vs) = moved T vs :=
    rfl

@[simp] theorem moved_expr (e : Expr) : moved T e.visits = [] := by simp [moved]

theorem moved_var (t : Tag) {h : Head} (hT : h.name ∉ T) (ty : TypeExpr) (e : Option Expr) :
    moved T (Stmt.decl t (.var h ty e)).visits = [.var h ty e] := by
  rw [Stmt.visits, moved_stmt, moved, Decl.declsOf_of_flaw rfl]
  exact filter_cons_of_pos (moves_var hT ty e)

theorem moved_stays (t : Tag) (hd : d.flaw .block = 0) (hm : moves T d = false) :
    moved T (Stmt.decl t d).visits = [] := by
  rw [Stmt.visits, moved_stmt, moved, Decl.declsOf_of_flaw hd, filter_cons_of_neg (by simp [hm])]
  rfl

theorem mem_moved :
    d ∈ moved T vs ↔ .enter d ∈ vs ∧ moves T d = true := by
  rw [moved, mem_filter, mem_declsOf]

end

end Hoist

namespace Check

section

variable {p : Program} {V : Versions} {L : Likeness V}

theorem echoes_exprOf (hpath : V.path = Spelling.same.use) (h : e.visits ⊆ p.visits) :
    Echoes L p.exprs (Ty.over V.decl) (expr e) (expr e) := by
  have he := echoes_expr (L := L) e (Program.walk_subset_exprs h)
  rwa [hpath, Expr.spelled_same] at he

theorem mem_visits? {x : Option Expr} (h : e ∈ Expr.walks x.toList) :
    .expr e ∈ Expr.visits? x := by
  rw [Expr.visits?_eq]
  exact mem_map_of_mem h

theorem mem_keyVisits {ks : List Key} (h : e ∈ Expr.walks (ks.map (·.expr))) :
    .expr e ∈ ks.flatMap Key.visits := by
  have hall : (.empty, .expr e) ∈ Scopes.all .empty (ks.flatMap Key.visits) := mem_all_keys h
  obtain ⟨v, hv, heq⟩ := mem_map.1 hall
  cases heq
  exact hv

theorem echoes_plain (hpath : V.path = Spelling.same.use) (hb : d.body? = none)
    (hv : V.decl d = d) (hd : d.visits ⊆ p.visits) :
    Echoes L p.exprs id (Check.decl d) (Check.decl d) := by
  cases d with
  | action | control => cases hb
  | header h fs | struct h fs => exact echoes_fieldTypes h.span fs
  | externType h tps cs ms => exact echoes_externMethods tps (cs ++ ms)
  | externFn h m => exact (echoes_methodType m).bind fun s => echoes_setType h.id (.method s)
  | package h tps ps =>
    exact echoes_withTypeParams tps ((echoes_paramTypes ps).bind fun _ => .pure id ())
  | table h ks as d =>
    have hks : Echoes L p.exprs id (keys ks) _ := echoes_keys ks fun e he =>
      Program.mem_exprs.2 (hd (by simp [Decl.visits, mem_keyVisits he]))
    have has : Echoes L p.exprs id (actionEntries as) _ := echoes_actionEntries as fun e he =>
      Program.mem_exprs.2 (hd (by simp [Decl.visits, he]))
    have hd : Echoes L p.exprs id (actionEntries d.toList) _ := echoes_actionEntries d.toList
        fun e he =>
      Program.mem_exprs.2 (hd (by simp [Decl.visits, mem_visits? he]))
    have ht : Echoes L p.exprs id (setType h.id (.table (.table h ks as d))) _ :=
      echoes_setType h.id _
    rw [hpath, Key.map_spelled_same] at hks
    rw [hpath, Expr.spelleds_same] at has hd
    rw [Ty.over, hv] at ht
    exact hks.bind fun _ => has.bind fun _ => hd.bind fun _ => ht
  | inst h ty as =>
    have has : Echoes L p.exprs (List.map (Ty.over V.decl)) (exprs as) _ :=
        echoes_exprs as fun e he =>
      Program.mem_exprs.2 (hd (by simp [Decl.visits, he]))
    rw [hpath, Expr.spelleds_same] at has
    exact (echoes_resolveType ty h.span).bind fun t => has.bind fun _ =>
      (echoes_instantiate h.id t _ h.span).bind fun _ => echoes_setType h.id t
  | var h ty e =>
    have hi : Echoes L p.exprs id (initialised h ty e) _ := echoes_initialised h rfl rfl ty e
        fun x hx =>
      Program.mem_exprs.2 (hd (by simp [Decl.visits, mem_visits? hx]))
    rwa [hpath, Expr.map_spelled_same] at hi
  | const h ty e =>
    have hi : Echoes L p.exprs id (initialised h ty (some e)) _ :=
      echoes_initialised h rfl rfl ty (some e) fun x hx =>
        Program.mem_exprs.2 (hd (by simpa [Decl.visits, Expr.visits?] using mem_visits? hx))
    rwa [hpath, Expr.map_spelled_same] at hi

end

theorem stmts_append (ss ts : List Stmt) : stmts (ss ++ ts) = (stmts ss >>= fun _ => stmts ts) := by
  induction ss with
  | nil => rfl
  | cons s ss ih => simp only [cons_append, stmts, ih, bind_assoc]

theorem stmts_singleton (s : Stmt) : stmts [s] = stmt s := by
  simp only [stmts]
  exact bind_pure_unit

theorem accepts_of_expect {t u : Ty} {sp : Option Span} {c : Checker}
    (h : (expect t u sp c).2.errors = []) : t.accepts u = true ∧ expect t u sp c = ((), c) := by
  unfold expect at h ⊢
  split at h
  · rename_i ht
    exact ⟨ht, by rw [if_pos ht]; rfl⟩
  · exact absurd h (errors_report_ne _ _ c)

theorem assign_of_accepts {t : Tag} {l r : Expr} {c : Checker}
    (hl : (expr r (expr l c).2).2.types.isLeftValue l.id = true)
    (ha : (expr l c).1.accepts (expr r (expr l c).2).1 = true) :
    assign t l r c = ((), (expr r (expr l c).2).2) := by
  change (if (!(expr l c).1.isError && !(expr r (expr l c).2).2.types.isLeftValue l.id) = true then
    (report .notLeftValue (l.span.or t.span) >>= fun _ => expect _ _ _)
    else expect (expr l c).1 (expr r (expr l c).2).1 (r.span.or t.span)) (expr r (expr l c).2).2 = _
  rw [hl, Bool.not_true, Bool.and_false, if_neg Bool.false_ne_true, expect, if_pos ha]
  rfl

end Check

open Check Hoist

structure Body (p : Program) (V : Versions) (T : List String) (b : Block) : Prop where
  within : b.visits.Sublist p.visits
  tidy : Tidy b.visits
  versions : ∀ d ∈ declsOf b.visits, V.decl d = if moves T d then d.frame else d

namespace Body

variable {p : Program} {V : Versions} {T : List String} {b : Block}

theorem ready (S : Setting p V n₀) (B : Body p V T b) (hs : vs.Sublist b.visits) :
    Ready p.nodes p.IsEntry vs := (Program.ready_visits S.ids).sublist (hs.trans B.within)

theorem subset (B : Body p V T b) (hs : vs.Sublist b.visits) : vs ⊆ p.visits :=
  (hs.trans B.within).subset

theorem stays (B : Body p V T b) (hd : .enter d ∈ b.visits) (hm : moves T d = false) :
    V.decl d = d ∧ d.name ∉ (moved T b.visits).map (·.name) := by
  refine ⟨by rw [B.versions d (mem_declsOf.2 hd), hm]; rfl, fun hmem => ?_⟩
  obtain ⟨m, hmoved, hname⟩ := mem_map.1 hmem
  obtain ⟨henter, hmoves⟩ := mem_moved.1 hmoved
  cases inj_on_of_nodup_map B.tidy.nodup (mem_declsOf.2 henter) (mem_declsOf.2 hd) hname
  rw [hm] at hmoves
  cases hmoves

theorem moves (B : Body p V T b) {h : Head} {e : Option Expr}
    (hd : .enter (.var h ty e) ∈ b.visits) (hT : h.name ∉ T) :
    V.decl (.var h ty e) = .var h ty none ∧ .var h ty e ∈ moved T b.visits := by
  have hm := moves_var hT ty e
  exact ⟨by rw [B.versions _ (mem_declsOf.2 hd), if_pos hm]; rfl, mem_moved.2 ⟨hd, hm⟩⟩

end Body

namespace Beside

variable {p : Program} {V : Versions} {n₀ : Nat} {A : NodeId → Head → Prop}
    {T : List String} {b : Block}
  {M pend rest : List Decl}
  {outer : Scopes} {c c' : Checker}

theorem stepOver {α β : Type} (S : Setting p V n₀) (hvs : vs ⊆ p.visits)
    (hnone : ∀ m ∈ M, .enter m ∉ vs) (h : Beside p V n₀ M outer pend c c') {f : α → β} {x : Check α}
    {x' : Check β} (hx : Echoes (.until V n₀ pend) p.exprs f x x') {post : β → Prop}
    (hs : Sets p.nodes (· ∈ nodeIds vs) post x') (herr : (x c).2.errors = []) :
    (x' c').1 = f (x c).1 ∧ Beside p V n₀ M outer pend (x c).2 (x' c').2 := by
  refine h.step S hx hs (fun m hm hid => ?_) herr
  obtain ⟨v, hv, hi⟩ := mem_filterMap.1 hid
  cases S.eq_enter (hvs hv) (h.pending m hm) hi
  exact hnone m (h.among hm) hv

theorem not_enter_expr (m : Decl) : .enter m ∉ e.visits := fun h => by
  obtain ⟨x, -, hx⟩ := mem_map.1 h
  cases hx

theorem expr (S : Setting p V n₀) (he : e.visits.Sublist p.visits)
    (h : Beside p V n₀ M outer pend c c') (herr : (Check.expr e c).2.errors = []) :
    (Check.expr e c').1 = (Check.expr e c).1.over V.decl ∧
      Beside p V n₀ M outer pend (Check.expr e c).2 (Check.expr e c').2 :=
  h.stepOver S he.subset (fun m _ => not_enter_expr m) (echoes_exprOf S.path he.subset)
    (runs_expr e ((Program.ready_visits S.ids).sublist he)).sets herr

theorem condition (S : Setting p V n₀) (t : Tag) (he : e.visits.Sublist p.visits)
    (h : Beside p V n₀ M outer pend c c') (herr : (Check.condition t e c).2.errors = []) :
    Beside p V n₀ M outer pend (Check.condition t e c).2 (Check.condition t e c').2 := by
  have hx := echoes_condition (L := .until V n₀ pend) t e (Program.walk_subset_exprs he.subset)
  rw [S.path, Expr.spelled_same] at hx
  exact (h.stepOver S he.subset (fun m _ => not_enter_expr m) hx
    (runs_condition t ((Program.ready_visits S.ids).sublist he)).sets herr).2

theorem resolved {sp : Option Span} (h : Beside p V n₀ M outer pend c c')
    (herr : (resolveType ty sp c).2.errors = []) :
    (c.scopes.resolve ty).unknown = [] ∧ Beside p V n₀ M outer pend (resolveType ty sp c).2 c' := by
  have hu : (c.scopes.resolve ty).unknown = [] :=
    map_eq_nil_iff.1 (append_eq_nil_iff.1 herr).2
  refine ⟨hu, h.names, fun i hi => ?_, h.types, ?_, h.clear, h.pending, h.among, h.nodup,
    h.place, h.settled⟩
  · exact (h.refs i hi).trans (congrArg _ (Refs.get?_foldl_markUsed _ _ i).symm)
  · change c'.errors = c.errors ++ (c.scopes.resolve ty).unknown.map _
    rw [hu, map_nil, append_nil, h.errors]

theorem stays (S : Setting p V n₀) (B : Body p V T b) (t : Tag) (hd : d.flaw .block = 0)
    (hm : Hoist.moves T d = false) (hs : d.visits.Sublist b.visits)
    (h : Beside p V n₀ (moved T b.visits) outer pend c c')
    (herr : (stmt (.decl t d) c).2.errors = []) :
    Beside p V n₀ (moved T b.visits) outer pend (stmt (.decl t d) c).2 (stmt (.decl t d) c').2 := by
  have hready := B.ready S hs
  obtain ⟨hv, hname⟩ := B.stays (hs.subset d.enter_mem_visits) hm
  have hne : ∀ m ∈ moved T b.visits, m ≠ d := by
    rintro m hmem rfl
    rw [(mem_moved.1 hmem).2] at hm
    cases hm
  have hnone : ∀ m ∈ moved T b.visits, .enter m ∉ d.visits := fun m hmem henter => by
    have hin := mem_declsOf.2 henter
    rw [d.declsOf_of_flaw hd] at hin
    exact hne m hmem (mem_singleton.1 hin)
  have herr' := ((walks_define d.name d.span (.decl d)).errors _ herr).1
  obtain ⟨-, hafter⟩ := h.stepOver S (B.subset hs) hnone
    (echoes_plain S.path (Decl.body?_of_flaw hd) hv (B.subset hs)) (runs_decl d hready).sets herr'
  have henter : .enter d ∈ p.visits := B.subset hs d.enter_mem_visits
  have hr : .decl d ∈ p.referents :=
    mem_flatMap.2 ⟨d, Program.mem_allDecls.2 henter, d.self_mem_referents⟩
  have hid : d.id ∉ pend.map Decl.id := fun hmem => by
    obtain ⟨m, hm, hid⟩ := mem_map.1 hmem
    cases S.eq_enter (h.pending m hm) henter (congrArg some hid)
    exact hne d (h.among hm) rfl
  have htype : ∀ d', Referent.decl d = .decl d' → d'.isType = false := by
    rintro _ ⟨⟩
    cases d <;> first | rfl | cases hd
  have hdef := hafter.define ⟨hr, rfl⟩ hid hname (hready.clear d.enter_mem_visits)
    (fun _ => htype) d.span herr
  rw [Referent.over, hv] at hdef
  exact hdef

theorem gone (B : Body p V T b) (t : Tag) (hT : hd.name ∉ T)
    (hs : (Decl.var hd ty none).visits.Sublist b.visits)
    (h : Beside p V n₀ (moved T b.visits) outer (.var hd ty none :: rest) c c')
    (herr : (stmt (.decl t (.var hd ty none)) c).2.errors = []) :
    Beside p V n₀ (moved T b.visits) outer rest (stmt (.decl t (.var hd ty none)) c).2 c' := by
  have herr' : (resolveType ty hd.span c).2.errors = [] :=
    ((walks_define hd.name hd.span (.decl (.var hd ty none))).errors _ herr).1
  obtain ⟨hu, hafter⟩ := h.resolved herr'
  have hm := (B.moves (hs.subset (Decl.enter_mem_visits _)) hT).2
  exact hafter.declare hm hu hd.span herr

theorem assigned (S : Setting p V n₀) (B : Body p V T b) (t : Tag)
    (hT : hd.name ∉ T) (hs : (Decl.var hd ty (some e)).visits.Sublist b.visits)
    (h : Beside p V n₀ (moved T b.visits) outer (.var hd ty (some e) :: rest) c c') {t' l : Tag}
    (hl : n₀ ≤ l.id.val) (herr : (stmt (.decl t (.var hd ty (some e))) c).2.errors = []) :
    Beside p V n₀ (moved T b.visits) outer rest (stmt (.decl t (.var hd ty (some e))) c).2
      (stmt (.assign t' (.path l hd.name) e) c').2 := by
  obtain ⟨hv, hm⟩ := B.moves (hs.subset (Decl.enter_mem_visits _)) hT
  have hes : e.visits.Sublist p.visits := (((sublist_append_left e.visits _).trans
    (sublist_cons_self _ _)).trans hs).trans B.within
  -- the input: the type, the value, and whether they fit
  have hdefine := ((walks_define hd.name hd.span (.decl (.var hd ty (some e)))).errors _ herr).1
  have hexpect : (expect (c.scopes.resolve ty).type (Check.expr e (resolveType ty hd.span c).2).1
      (e.span.or hd.span) (Check.expr e (resolveType ty hd.span c).2).2).2.errors = [] :=
    (quiet_setType hd.id (c.scopes.resolve ty).type).errors _ hdefine
  obtain ⟨haccepts, hfits⟩ := accepts_of_expect hexpect
  have hexpr := (quiet_expect _ _ _).errors _ hexpect
  have hresolve := ((walks_expr e).errors _ hexpr).1
  -- the output: the path, and the value
  obtain ⟨hu, hbeside⟩ := h.resolved hresolve
  obtain ⟨htarget, hleft, hpath⟩ := hbeside.path S (.head _) hm hv hu hl
  obtain ⟨hvalue, hafter⟩ := hpath.expr S hes hexpr
  have hgrown := ((walks_expr e).grows (Check.expr (.path l hd.name) c').2).leftValues
  have hassign : assign t' (.path l hd.name) e c' =
      ((), (Check.expr e (Check.expr (.path l hd.name) c').2).2) := by
    refine assign_of_accepts (contains_iff_mem.2 (hgrown (contains_iff_mem.1 hleft))) ?_
    rw [htarget, hvalue, Ty.accepts_over]
    exact haccepts
  have hscopes : (Check.expr e (resolveType ty hd.span c).2).2.scopes = c.scopes :=
    (walks_expr e).scopes _
  have hinput : (stmt (.decl t (.var hd ty (some e))) c).2 =
      (Check.define hd.name hd.span (.decl (.var hd ty (some e)))
        { (Check.expr e (resolveType ty hd.span c).2).2 with
          types := (Check.expr e (resolveType ty hd.span c).2).2.types.set hd.id
            ((Check.expr e (resolveType ty hd.span c).2).2.scopes.resolve ty).type }).2 := by
    rw [hscopes]
    change (Check.define hd.name hd.span _ (setType hd.id (c.scopes.resolve ty).type
      (expect _ (Check.expr e (resolveType ty hd.span c).2).1 _
        (Check.expr e (resolveType ty hd.span c).2).2).2).2).2 = _
    rw [hfits]
    rfl
  change Beside _ _ _ _ _ _ _ (assign t' (.path l hd.name) e c').2
  rw [hassign, hinput]
  rw [hinput] at herr
  exact hafter.declare hm (hscopes ▸ hu) hd.span herr

theorem leaf (S : Setting p V n₀) {s : Stmt} (hs : s.visits.Sublist p.visits)
    (hnone : declsOf s.visits = []) (hx : Echoes (.until V n₀ rest) p.exprs id (stmt s) (stmt s))
    (h : Beside p V n₀ M outer (moved T s.visits ++ rest) c c') (herr : (stmt s c).2.errors = []) :
    Beside p V n₀ M outer rest (stmt s c).2 (stmts [s] c').2 := by
  rw [moved, hnone] at h
  rw [stmts_singleton]
  refine (h.stepOver S hs.subset (fun m _ hm => ?_) hx
    (runs_stmt s ((Program.ready_visits S.ids).sublist hs)).sets herr).2
  rw [← mem_declsOf, hnone] at hm
  cases hm

theorem inFrame_snd {x : Check Unit} {ps : Scopes → List Place} (hx : Walks (Check.inFrame x) id ps)
    (c : Checker) :
    (Check.inFrame x c).2 = { (x { c with scopes := c.scopes.push }).2 with scopes := c.scopes } :=
  congrArg (fun sc => ({ (x { c with scopes := c.scopes.push }).2 with scopes := sc } : Checker))
    (hx.scopes c)

theorem inFrame {x x' : Check Unit} {ps ps' : Scopes → List Place}
    (hx : Walks (Check.inFrame x) id ps)
    (hx' : Walks (Check.inFrame x') id ps') (h : Beside p V n₀ M outer pend c c') {N : List Decl}
    (he : Beside p V n₀ N outer rest (x { c with scopes := c.scopes.push }).2
      (x' { c' with scopes := c'.scopes.push }).2) (hs : rest ⊆ pend) :
    Beside p V n₀ M outer rest (Check.inFrame x c).2 (Check.inFrame x' c').2 := by
  rw [inFrame_snd hx, inFrame_snd hx']
  exact h.back he hs

mutual
theorem ofStmt (S : Setting p V n₀) (B : Body p V T b) : {s : Stmt} → {ss : List Stmt} →
    StmtTo A T n₀ s ss → s.visits.Sublist b.visits → ∀ {rest c c'},
    Beside p V n₀ (moved T b.visits) outer (moved T s.visits ++ rest) c c' →
    (stmt s c).2.errors = [] →
    Beside p V n₀ (moved T b.visits) outer rest (stmt s c).2 (stmts ss c').2
  | _, _, .gone t hT ty, hs, _, _, _, h, herr => by
    rw [moved_var t hT] at h
    exact h.gone B t hT ((sublist_cons_self _ _).trans hs) herr
  | _, _, .assigned t hT ty e hi _ _, hs, _, _, _, h, herr => by
    rw [moved_var t hT] at h
    rw [stmts_singleton]
    exact h.assigned S B t hT ((sublist_cons_self _ _).trans hs) hi herr
  | _, _, .stays t hd hm, hs, _, _, _, h, herr => by
    rw [moved_stays t hd hm] at h
    rw [stmts_singleton]
    exact h.stays S B t hd hm ((sublist_cons_self _ _).trans hs) herr
  | _, _, .block t hb, hs, _, _, _, h, herr => by
    rw [stmts_singleton]
    exact ofBlock S B hb ((sublist_cons_self _ _).trans hs) h herr
  | _, _, .ifThen (a := a) t e ha _, hs, _, _, _, h, herr => by
    have hparts := (sublist_cons_self _ _).trans hs
    rw [Stmt.visits, moved_stmt, moved_append, moved_expr, nil_append] at h
    have hcond := h.condition S t (((sublist_append_left _ _).trans hparts).trans B.within)
      ((walks_stmt a).errors _ herr).1
    have hbranch := ofStmt S B ha ((sublist_append_right _ _).trans hparts) hcond herr
    rw [stmts_singleton] at hbranch ⊢
    exact hbranch
  | _, _, .ifElse (a := a₁) (b := b₁) t e ha _ hb _, hs, _, _, _, h, herr => by
    have hparts := (sublist_cons_self _ _).trans hs
    have hfirst := (sublist_append_left _ _).trans hparts
    rw [Stmt.visits, moved_stmt, moved_append, moved_append, moved_expr, nil_append,
      append_assoc] at h
    have hthen := ((walks_stmt b₁).errors _ herr).1
    have hcond := h.condition S t (((sublist_append_left _ _).trans hfirst).trans B.within)
      ((walks_stmt a₁).errors _ hthen).1
    have hbranch := ofStmt S B ha ((sublist_append_right _ _).trans hfirst) hcond hthen
    have hother := ofStmt S B hb ((sublist_append_right _ _).trans hparts) hbranch herr
    rw [stmts_singleton] at hbranch hother ⊢
    rw [stmts_singleton] at hother
    exact hother
  | .switch _ _ cs, _, .switch t e hcs, hs, _, _, _, h, herr => by
    have hparts := (sublist_cons_self _ _).trans hs
    rw [Stmt.visits, moved_stmt, moved_append, moved_expr, nil_append] at h
    have hvalue := (h.expr S (((sublist_append_left _ _).trans hparts).trans B.within)
      ((walks_cases cs).errors _ herr).1).2
    rw [stmts_singleton]
    exact ofCases S B hcs ((sublist_append_right _ _).trans hparts) hvalue herr
  | _, _, .assign t l r, hs, rest, _, _, h, herr => by
    have hin := B.subset hs
    have hx := echoes_assign (L := .until V n₀ rest) t l r
      (Program.walk_subset_exprs fun v hv => hin (by simp [Stmt.visits, hv]))
      (Program.walk_subset_exprs fun v hv => hin (by simp [Stmt.visits, hv]))
    rw [S.path, Expr.spelled_same, Expr.spelled_same] at hx
    exact h.leaf S (hs.trans B.within) (by simp [Stmt.visits]) hx herr
  | _, _, .call t e, hs, rest, _, _, h, herr => by
    have he := echoes_exprOf (L := .until V n₀ rest) S.path (e := e) fun v hv =>
      B.subset hs (by simp [Stmt.visits, hv])
    exact h.leaf S (hs.trans B.within) (by simp [Stmt.visits]) (he.bind fun _ => .pure id ()) herr
  | _, _, .ret t e, hs, rest, _, _, h, herr => by
    have he : Echoes (.until V n₀ rest) p.exprs id (expr? e) _ := echoes_expr? e fun x hx =>
      Program.mem_exprs.2 (B.subset hs (by simp [Stmt.visits, mem_visits? hx]))
    rw [S.path, Expr.map_spelled_same] at he
    exact h.leaf S (hs.trans B.within) (by simp [Stmt.visits]) he herr
  | _, _, .exit t, hs, _, _, _, h, herr | _, _, .empty t, hs, _, _, _, h, herr =>
    h.leaf S (hs.trans B.within) rfl (.pure id ()) herr
theorem ofBlock (S : Setting p V n₀) (B : Body p V T b) : {b₁ b₂ : Block} → BlockTo A T n₀ b₁ b₂ →
    b₁.visits.Sublist b.visits → ∀ {rest c c'},
    Beside p V n₀ (moved T b.visits) outer (moved T b₁.visits ++ rest) c c' →
    (block b₁ c).2.errors = [] →
    Beside p V n₀ (moved T b.visits) outer rest (block b₁ c).2 (block b₂ c').2
  | _, _, .mk _ hss, hs, _, _, _, h, herr => by
    have hinner := ofStmts S B hss ((sublist_cons_self _ _).trans hs) h.push herr
    exact h.inFrame (walks_inFrame (walks_stmts _) fun sc =>
      (Stmt.afters_inner sc.inner_push_ne _).2)
      (walks_inFrame (walks_stmts _) fun sc => (Stmt.afters_inner sc.inner_push_ne _).2) hinner
      (subset_append_right _ _)
theorem ofStmts (S : Setting p V n₀) (B : Body p V T b) : {ss ss' : List Stmt} →
    StmtsTo A T n₀ ss ss' → (Stmt.allVisits ss).Sublist b.visits → ∀ {rest c c'},
    Beside p V n₀ (moved T b.visits) outer (moved T (Stmt.allVisits ss) ++ rest) c c' →
    (stmts ss c).2.errors = [] →
    Beside p V n₀ (moved T b.visits) outer rest (stmts ss c).2 (stmts ss' c').2
  | _, _, .nil, _, _, _, _, h, _ => h
  | _ :: ss, _, .cons ht htss, hs, _, _, _, h, herr => by
    rw [Stmt.allVisits, moved_append, append_assoc] at h
    have hfirst := ofStmt S B ht ((sublist_append_left _ _).trans hs) h
      ((walks_stmts ss).errors _ herr).1
    rw [stmts_append]
    exact ofStmts S B htss ((sublist_append_right _ _).trans hs) hfirst herr
theorem ofCases (S : Setting p V n₀) (B : Body p V T b) : {cs cs' : List Case} →
    CasesTo A T n₀ cs cs' → (Case.visits cs).Sublist b.visits → ∀ {rest c c'},
    Beside p V n₀ (moved T b.visits) outer (moved T (Case.visits cs) ++ rest) c c' →
    (Check.cases cs c).2.errors = [] →
    Beside p V n₀ (moved T b.visits) outer rest (Check.cases cs c).2 (Check.cases cs' c').2
  | _, _, .nil, _, _, _, _, h, _ => h
  | _ :: cs, _, .run l hb hcs, hs, _, _, _, h, herr => by
    rw [Case.visits, moved_append, append_assoc] at h
    have hfirst := ofBlock S B hb ((sublist_append_left _ _).trans hs) h
      ((walks_cases cs).errors _ herr).1
    exact ofCases S B hcs ((sublist_append_right _ _).trans hs) hfirst herr
  | _, _, .fallThrough l hcs, hs, _, _, _, h, herr => ofCases S B hcs hs h herr
end

end Beside

end MatchAction
