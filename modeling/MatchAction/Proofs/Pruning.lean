import MatchAction.Proofs.Carrying
import MatchAction.Proofs.Extrusion

/-!
Declarations that disappear. If nothing uses them, what is left is accepted as it was: names that
stood for something that stays mean the same, also where a declaration in between has gone.
-/

namespace MatchAction

open List

/-! Statements and declarations without some of the declarations in them. -/

section

variable (lost : Decl → Prop)

mutual
inductive PrunedStmt : Stmt → Stmt → Prop
  | block {t : Tag} {b b' : Block} (body : PrunedBlock b b') : PrunedStmt (.block t b) (.block t b')
  | assign (t : Tag) (l r : Expr) : PrunedStmt (.assign t l r) (.assign t l r)
  | call (t : Tag) (e : Expr) : PrunedStmt (.call t e) (.call t e)
  | ifThen {t : Tag} {c : Expr} {a a' : Stmt} (yes : PrunedStmt a a') :
    PrunedStmt (.ifThen t c a none) (.ifThen t c a' none)
  | ifElse {t : Tag} {c : Expr} {a a' b b' : Stmt} (yes : PrunedStmt a a') (no : PrunedStmt b b') :
    PrunedStmt (.ifThen t c a (some b)) (.ifThen t c a' (some b'))
  | switch {t : Tag} {e : Expr} {cs cs' : List Case} (body : PrunedCases cs cs') :
    PrunedStmt (.switch t e cs) (.switch t e cs')
  | decl {t : Tag} {d d' : Decl} (here : PrunedDecl d d') : PrunedStmt (.decl t d) (.decl t d')
  | gone {d : Decl} (here : lost d) (t t' : Tag) : PrunedStmt (.decl t d) (.empty t')
  | ret (t : Tag) (e : Option Expr) : PrunedStmt (.ret t e) (.ret t e)
  | exit (t : Tag) : PrunedStmt (.exit t) (.exit t)
  | empty (t : Tag) : PrunedStmt (.empty t) (.empty t)
inductive PrunedBlock : Block → Block → Prop
  | mk {i : NodeId} {ss ss' : List Stmt} (body : PrunedStmts ss ss') :
    PrunedBlock (.mk i ss) (.mk i ss')
inductive PrunedStmts : List Stmt → List Stmt → Prop
  | nil : PrunedStmts [] []
  | cons {s s' : Stmt} {ss ss' : List Stmt} (head : PrunedStmt s s') (tail : PrunedStmts ss ss') :
    PrunedStmts (s :: ss) (s' :: ss')
  | gone {t : Tag} {d : Decl} {ss ss' : List Stmt} (here : lost d) (tail : PrunedStmts ss ss') :
    PrunedStmts (.decl t d :: ss) ss'
inductive PrunedCases : List Case → List Case → Prop
  | nil : PrunedCases [] []
  | run {l : Label} {b b' : Block} {cs cs' : List Case} (body : PrunedBlock b b')
    (tail : PrunedCases cs cs') : PrunedCases (.run l b :: cs) (.run l b' :: cs')
  | fallThrough {l : Label} {cs cs' : List Case} (tail : PrunedCases cs cs') :
    PrunedCases (.fallThrough l :: cs) (.fallThrough l :: cs')
inductive PrunedDecl : Decl → Decl → Prop
  | bodiless {d : Decl} (body : d.body? = none) : PrunedDecl d d
  | action {h : Head} {ps : List Param} {b b' : Block} (body : PrunedBlock b b') :
    PrunedDecl (.action h ps b) (.action h ps b')
  | control {h : Head} {tps : List String} {ps cps : List Param} {ls ls' : List Decl} {b b' : Block}
    (locals : PrunedDecls ls ls') (body : PrunedBlock b b') :
    PrunedDecl (.control h tps ps cps ls b) (.control h tps ps cps ls' b')
inductive PrunedDecls : List Decl → List Decl → Prop
  | nil : PrunedDecls [] []
  | cons {d d' : Decl} {ds ds' : List Decl} (head : PrunedDecl d d') (tail : PrunedDecls ds ds') :
    PrunedDecls (d :: ds) (d' :: ds')
  | gone {d : Decl} {ds ds' : List Decl} (here : lost d) (tail : PrunedDecls ds ds') :
    PrunedDecls (d :: ds) ds'
end

mutual
theorem PrunedStmt.refl : (s : Stmt) → PrunedStmt lost s s
  | .block _ b => .block (PrunedBlock.refl b)
  | .assign t l r => .assign t l r
  | .call t e => .call t e
  | .ifThen _ _ a none => .ifThen (PrunedStmt.refl a)
  | .ifThen _ _ a (some b) => .ifElse (PrunedStmt.refl a) (PrunedStmt.refl b)
  | .switch _ _ cs => .switch (PrunedCases.refl cs)
  | .decl _ d => .decl (PrunedDecl.refl d)
  | .ret t e => .ret t e
  | .exit t => .exit t
  | .empty t => .empty t
theorem PrunedBlock.refl : (b : Block) → PrunedBlock lost b b
  | .mk _ ss => .mk (PrunedStmts.refl ss)
theorem PrunedStmts.refl : (ss : List Stmt) → PrunedStmts lost ss ss
  | [] => .nil
  | s :: ss => .cons (PrunedStmt.refl s) (PrunedStmts.refl ss)
theorem PrunedCases.refl : (cs : List Case) → PrunedCases lost cs cs
  | [] => .nil
  | .run _ b :: cs => .run (PrunedBlock.refl b) (PrunedCases.refl cs)
  | .fallThrough _ :: cs => .fallThrough (PrunedCases.refl cs)
theorem PrunedDecl.refl : (d : Decl) → PrunedDecl lost d d
  | .action _ _ b => .action (PrunedBlock.refl b)
  | .control _ _ _ _ ls b => .control (PrunedDecls.refl ls) (PrunedBlock.refl b)
  | .header .. | .struct .. | .externType .. | .externFn .. | .package .. | .table .. | .inst
    .. | .var ..
  | .const .. => .bodiless rfl
theorem PrunedDecls.refl : (ds : List Decl) → PrunedDecls lost ds ds
  | [] => .nil
  | d :: ds => .cons (PrunedDecl.refl d) (PrunedDecls.refl ds)
end

variable {lost} {d d' : Decl}

theorem PrunedDecl.alike (h : PrunedDecl lost d d') : d.Alike d' := by
  cases h with
  | bodiless body => exact .refl d
  | action body => exact .action rfl _ _ _
  | control locals body => exact .control rfl _ _ _ _ _ _ _

theorem PrunedDecl.head (h : PrunedDecl lost d d') : d'.head = d.head := by
  cases h <;> rfl

theorem PrunedDecl.isValue (h : PrunedDecl lost d d') : d'.isValue = d.isValue := by
  cases h <;> rfl

theorem PrunedDecl.isSome_body? (h : PrunedDecl lost d d') : d'.body?.isSome = d.body?.isSome := by
  cases h <;> rfl

end

/-! What two steps lose. -/

structure Pruned.Losses (lost lost' all : Decl → Prop) : Prop where
  first : ∀ d, lost d → all d
  second : ∀ {d d'}, PrunedDecl lost d d' → lost' d' → all d

section

variable {lost lost' all : Decl → Prop}

open Pruned in
mutual
theorem PrunedStmt.trans (hl : Losses lost lost' all) : {s s₁ s₂ : Stmt} → PrunedStmt lost s s₁ →
    PrunedStmt lost' s₁ s₂ → PrunedStmt all s s₂
  | _, _, _, .block body, .block body' => .block (body.trans hl body')
  | _, _, _, .assign t l r, .assign _ _ _ => .assign t l r
  | _, _, _, .call t e, .call _ _ => .call t e
  | _, _, _, .ifThen yes, .ifThen yes' => .ifThen (yes.trans hl yes')
  | _, _, _, .ifElse yes no, .ifElse yes' no' => .ifElse (yes.trans hl yes') (no.trans hl no')
  | _, _, _, .switch body, .switch body' => .switch (body.trans hl body')
  | _, _, _, .decl here, .decl here' => .decl (here.trans hl here')
  | _, _, _, .decl here, .gone here' _ t' => .gone (hl.second here here') _ t'
  | _, _, _, .gone here t t', .empty _ => .gone (hl.first _ here) t t'
  | _, _, _, .ret t e, .ret _ _ => .ret t e
  | _, _, _, .exit t, .exit _ => .exit t
  | _, _, _, .empty t, .empty _ => .empty t
theorem PrunedBlock.trans (hl : Losses lost lost' all) : {b b₁ b₂ : Block} → PrunedBlock lost b b₁ →
    PrunedBlock lost' b₁ b₂ → PrunedBlock all b b₂
  | _, _, _, .mk body, .mk body' => .mk (body.trans hl body')
theorem PrunedStmts.trans (hl : Losses lost lost' all) : {ss ss₁ ss₂ : List Stmt} →
    PrunedStmts lost ss ss₁ → PrunedStmts lost' ss₁ ss₂ → PrunedStmts all ss ss₂
  | _, _, _, .nil, .nil => .nil
  | _, _, _, .gone here tail, h => .gone (hl.first _ here) (tail.trans hl h)
  | _, _, _, .cons head tail, .cons head' tail' => .cons (head.trans hl head') (tail.trans hl tail')
  | _, _, _, .cons (.decl here) tail, .gone here' tail' =>
    .gone (hl.second here here') (tail.trans hl tail')
theorem PrunedCases.trans (hl : Losses lost lost' all) : {cs cs₁ cs₂ : List Case} →
    PrunedCases lost cs cs₁ → PrunedCases lost' cs₁ cs₂ → PrunedCases all cs cs₂
  | _, _, _, .nil, .nil => .nil
  | _, _, _, .run body tail, .run body' tail' => .run (body.trans hl body') (tail.trans hl tail')
  | _, _, _, .fallThrough tail, .fallThrough tail' => .fallThrough (tail.trans hl tail')
theorem PrunedDecl.trans (hl : Losses lost lost' all) : {d d₁ d₂ : Decl} → PrunedDecl lost d d₁ →
    PrunedDecl lost' d₁ d₂ → PrunedDecl all d d₂
  | _, _, _, .bodiless _, .bodiless body => .bodiless body
  | _, _, _, .action body, .action body' => .action (body.trans hl body')
  | _, _, _, .control locals body, .control locals' body' =>
    .control (locals.trans hl locals') (body.trans hl body')
theorem PrunedDecls.trans (hl : Losses lost lost' all) : {ds ds₁ ds₂ : List Decl} →
    PrunedDecls lost ds ds₁ → PrunedDecls lost' ds₁ ds₂ → PrunedDecls all ds ds₂
  | _, _, _, .nil, .nil => .nil
  | _, _, _, .gone here tail, h => .gone (hl.first _ here) (tail.trans hl h)
  | _, _, _, .cons head tail, .cons head' tail' => .cons (head.trans hl head') (tail.trans hl tail')
  | _, _, _, .cons head tail, .gone here' tail' =>
    .gone (hl.second head here') (tail.trans hl tail')
end

end

/-! What is left is a part of what was there, in the same order. -/

def Pruned.Left (lost : Decl → Prop) (ds ds' : List Decl) : Prop :=
  ∃ l, l.Sublist ds ∧ List.Forall₂ (PrunedDecl lost) l ds'

namespace Pruned.Left

variable {lost : Decl → Prop} {ds ds' es es' : List Decl}

theorem nil : Left lost [] [] := ⟨[], .slnil, .nil⟩

theorem append (h : Left lost ds ds') (h' : Left lost es es') :
    Left lost (ds ++ es) (ds' ++ es') := by
  obtain ⟨l, hs, hl⟩ := h
  obtain ⟨l', hs', hl'⟩ := h'
  exact ⟨l ++ l', hs.append hs', rel_append hl hl'⟩

theorem cons (hd : PrunedDecl lost d d') (h : Left lost ds ds') :
    Left lost (d :: ds) (d' :: ds') := by
  obtain ⟨l, hs, hl⟩ := h
  exact ⟨d :: l, hs.cons_cons d, .cons hd hl⟩

theorem skip (es : List Decl) (h : Left lost ds ds') : Left lost (es ++ ds) ds' := by
  obtain ⟨l, hs, hl⟩ := h
  exact ⟨l, hs.trans (sublist_append_right _ _), hl⟩

theorem refl (ds : List Decl) : Left lost ds ds :=
  ⟨ds, .refl ds, forall₂_same.2 fun d _ => .refl lost d⟩

theorem exists_of_mem (h : Left lost ds ds') (hd : d' ∈ ds') : ∃ d ∈ ds, PrunedDecl lost d d' := by
  obtain ⟨l, hs, hl⟩ := h
  obtain ⟨d, hd, hp⟩ := exists_left_of_forall₂ hl hd
  exact ⟨d, hs.subset hd, hp⟩

end Pruned.Left

open Pruned in
mutual
theorem PrunedStmt.left : {s s' : Stmt} → PrunedStmt lost s s' →
    Left lost (declsOf s.visits) (declsOf s'.visits)
  | _, _, .block body => body.left
  | _, _, .assign .. | _, _, .call .. => .refl _
  | _, _, .ifThen yes => by
    simp only [Stmt.visits, declsOf_stmt, declsOf_append, declsOf_expr, nil_append]
    exact yes.left
  | _, _, .ifElse yes no => by
    simp only [Stmt.visits, declsOf_stmt, declsOf_append, declsOf_expr, nil_append]
    exact yes.left.append no.left
  | _, _, .switch body => by
    simp only [Stmt.visits, declsOf_stmt, declsOf_append, declsOf_expr, nil_append]
    exact body.left
  | _, _, .decl here => here.left
  | .decl t d, _, .gone here _ t' => by
    have h : Left lost (declsOf d.visits ++ []) [] := Left.nil.skip _
    rwa [append_nil] at h
  | _, _, .ret .. | _, _, .exit _ | _, _, .empty _ => .refl _
theorem PrunedBlock.left : {b b' : Block} → PrunedBlock lost b b' →
    Left lost (declsOf b.visits) (declsOf b'.visits)
  | _, _, .mk body => body.left
theorem PrunedStmts.left : {ss ss' : List Stmt} → PrunedStmts lost ss ss' →
    Left lost (declsOf (Stmt.allVisits ss)) (declsOf (Stmt.allVisits ss'))
  | _, _, .nil => .nil
  | _, _, .cons head tail => by
    simp only [Stmt.allVisits, declsOf_append]
    exact head.left.append tail.left
  | _, _, .gone here tail => by
    simp only [Stmt.allVisits, declsOf_append]
    exact tail.left.skip _
theorem PrunedCases.left : {cs cs' : List Case} → PrunedCases lost cs cs' →
    Left lost (declsOf (Case.visits cs)) (declsOf (Case.visits cs'))
  | _, _, .nil => .nil
  | _, _, .run body tail => by
    simp only [Case.visits, declsOf_append]
    exact body.left.append tail.left
  | _, _, .fallThrough tail => tail.left
theorem PrunedDecl.left : {d d' : Decl} → PrunedDecl lost d d' →
    Left lost (declsOf d.visits) (declsOf d'.visits)
  | _, _, .bodiless _ => .refl _
  | _, _, .action body => by
    simp only [Decl.visits, declsOf_enter, declsOf_append, declsOf_leave, declsOf_nil, append_nil]
    exact .cons (.action body) body.left
  | _, _, .control locals body => by
    simp only [Decl.visits, declsOf_enter, declsOf_append, declsOf_leave, declsOf_nil, append_nil]
    exact .cons (.control locals body) (locals.left.append body.left)
theorem PrunedDecls.left : {ds ds' : List Decl} → PrunedDecls lost ds ds' →
    Left lost (declsOf (Decl.allVisits ds)) (declsOf (Decl.allVisits ds'))
  | _, _, .nil => .nil
  | _, _, .cons head tail => by
    simp only [Decl.allVisits, declsOf_append]
    exact head.left.append tail.left
  | _, _, .gone here tail => by
    simp only [Decl.allVisits, declsOf_append]
    exact tail.left.skip _
end

theorem PrunedDecl.left_tail (h : PrunedDecl lost d d') :
    Pruned.Left lost (declsOf d.visits.tail) (declsOf d'.visits.tail) := by
  cases h with
  | bodiless _ => exact .refl _
  | action body =>
    simp only [Decl.visits, tail_cons, declsOf_append, declsOf_leave, declsOf_nil, append_nil]
    exact body.left
  | control locals body =>
    simp only [Decl.visits, tail_cons, declsOf_append, declsOf_leave, declsOf_nil, append_nil]
    exact locals.left.append body.left

theorem PrunedDecls.exists_of_mem (h : PrunedDecls lost ds ds')
    (hd : d' ∈ ds') : ∃ d ∈ ds, PrunedDecl lost d d' := by
  induction ds generalizing ds' with
  | nil =>
    cases h
    cases hd
  | cons d ds ih =>
    cases h with
    | cons head tail =>
      rcases mem_cons.1 hd with rfl | hd
      · exact ⟨d, .head _, head⟩
      · obtain ⟨e, he, hp⟩ := ih tail hd
        exact ⟨e, .tail _ he, hp⟩
    | gone here tail =>
      obtain ⟨e, he, hp⟩ := ih tail hd
      exact ⟨e, .tail _ he, hp⟩

theorem Program.Coherent.pruned {lost : Decl → Prop} {p q : Program} (h : p.Coherent)
    (hids : q.NodesApart) (hp : PrunedDecls lost p.decls q.decls) : q.Coherent where
  toNodesApart := hids
  shared e he e' he' x hx x' hx' hid := by
    obtain ⟨d, hd, hpd⟩ := hp.left.exists_of_mem he
    obtain ⟨d', hd', hpd'⟩ := hp.left.exists_of_mem he'
    rw [hpd.isSome_body?, hpd'.isSome_body?]
    exact h.shared d hd d' hd' x (hpd.alike.params ▸ hx) x' (hpd'.alike.params ▸ hx') hid

theorem Program.Flat.pruned {lost : Decl → Prop} {p q : Program} (hflat : p.Flat)
    (h : PrunedDecls lost p.decls q.decls) : q.Flat := by
  intro d' hd' e' he'
  obtain ⟨d, hd, hp⟩ := h.exists_of_mem hd'
  obtain ⟨e, he, hp'⟩ := hp.left_tail.exists_of_mem (mem_declsOf.2 he')
  rw [hp'.alike.isType]
  exact hflat d hd e (mem_declsOf.1 he)

def Versions.Lost (V : Versions) (d : Decl) : Prop := ¬ V.kept d.id

inductive Decl.Versioned (V : Versions) : List Decl → List Decl → Prop
  | nil : Versioned V [] []
  | cons {d : Decl} {ds ds' : List Decl} (name : (V.decl d).name = d.name)
    (tail : Versioned V ds ds') : Versioned V (d :: ds) (V.decl d :: ds')
  | gone {d : Decl} {ds ds' : List Decl} (here : V.Lost d) (tail : Versioned V ds ds') :
    Versioned V (d :: ds) ds'

theorem Scopes.Carries.declares {V : Versions} {N : String → Prop} {ds ds' : List Decl}
    (h : Decl.Versioned V ds ds')
    {sc sc' : Scopes} (hc : sc.Carries V N sc') (hn : ∀ d ∈ ds, N d.name) (ht : sc.Takes ds) :
    (sc.declares ds).Carries V N (sc'.declares ds') ∧ sc'.Takes ds' := by
  induction h generalizing sc sc' with
  | nil => exact ⟨hc, trivial⟩
  | @cons d ds ds' name tail ih =>
    have hname := hn d (.head _)
    have hnext : (sc.declare d).Carries V N (sc'.declare (V.decl d)) := by
      have hdef := hc.define hname ht.1 (.decl d)
      rw [← name] at hdef
      rw [Scopes.declare, ← name]
      exact hdef
    obtain ⟨hall, htakes⟩ := ih hnext (fun d hd => hn d (.tail _ hd)) ht.2
    refine ⟨hall, ?_, htakes⟩
    rw [name]
    exact hc.level hname ht.1
  | @gone d ds ds' here tail ih =>
    exact ih (hc.defineGone (r := .decl d) (hn d (.head _)) ht.1 here)
      (fun d hd => hn d (.tail _ hd)) ht.2

theorem Scopes.declareParams_append (sc : Scopes) (ps qs : List Param) :
    sc.declareParams (ps ++ qs) = (sc.declareParams ps).declareParams qs := foldl_append

theorem Scopes.Carries.enterControl (hc : sc.Carries V N sc')
    (hpath : V.path = Spelling.same.use) (hn : ∀ q ∈ cps ++ ps, N q.name)
    (ha : Place.Accepted T V.kept (sc, .enter (.control h tps ps cps ls b)))
    (hadmits : (sc.pushTypeParams tps).push.Admits (cps ++ ps)) :
    (sc'.pushTypeParams tps).push.Admits (cps ++ ps) ∧
      (sc.enterControl tps ps cps).Carries V N (sc'.enterControl tps ps cps) := by
  have hinner := (hc.pushTypeParams tps).push.admits hpath
    (Scopes.TypesFrom.refl (sc.pushTypeParams tps)).push hn
    (fun q hq => (Place.resolve_control ha hq).2) hadmits
  rw [Scopes.declareParams_append, Scopes.declareParams_append] at hinner
  exact hinner

/-- The versions of what is left are listed in `ws`, and `N` has the names of what is listed in
`vs`. -/
structure Versions.Spans (V : Versions) (N : String → Prop) (vs ws : List Visit) : Prop where
  path : V.path = Spelling.same.use
  covers : V.Covers ws
  decls : ∀ d, .enter d ∈ vs → N d.name
  params : ∀ d, .enter d ∈ vs → ∀ q ∈ d.params, N q.name

namespace Versions.Spans

variable {V : Versions} {N : String → Prop}

theorem mono (h : V.Spans N vs ws) (hv : vs₁ ⊆ vs) (hw : ws₁ ⊆ ws) : V.Spans N vs₁ ws₁ :=
  ⟨h.path, fun e e' he => h.covers e e' (hw he), fun d hd => h.decls d (hv hd),
    fun d hd => h.params d (hv hd)⟩

theorem tail (h : V.Spans N (v :: vs) (w :: ws)) : V.Spans N vs ws :=
  h.mono (subset_cons_self _ _) (subset_cons_self _ _)

theorem append (h : V.Spans N (vs ++ vs₁) (ws ++ ws₁)) : V.Spans N vs ws ∧ V.Spans N vs₁ ws₁ :=
  ⟨h.mono (subset_append_left _ _) (subset_append_left _ _),
    h.mono (subset_append_right _ _) (subset_append_right _ _)⟩

end Versions.Spans

namespace Place

variable {V : Versions} {N : String → Prop} {n₀ : Nat} {sc sc' : Scopes} {ps qs : List Place}
    {pl : Place}

theorem Drawn.mono (h : pl.Drawn V n₀ ps) (hs : ps ⊆ qs) : pl.Drawn V n₀ qs where
  apart := h.apart
  source := h.source.imp_left fun ⟨pl, hpl, ho⟩ => ⟨pl, hs hpl, ho⟩

theorem drawn_of_plain (h : pl.2.isPlain = true) : pl.Drawn V n₀ ps where
  apart := (judged_of_plain (T := .empty) h).apart
  source := .inr (safe_of_plain h)

theorem drawn_of_alike (hpath : V.path = Spelling.same.use) (hc : sc.Carries V N sc')
    (h : v.Alike v') (hapart : Apart (sc', v')) (hmem : (sc, v) ∈ ps) :
      Drawn V n₀ ps (sc', v') where
  apart := hapart
  source := .inl ⟨_, hmem, h, hc.toMatch hpath _⟩

theorem drawn_leave (h : Apart (sc, .leave d)) : Drawn V n₀ ps (sc, .leave d) :=
  ⟨h, .inr (safe_leave sc d)⟩

theorem drawn_all {v : Visit} (sc : Scopes) : ∀ pl ∈ sc.all v.inner, pl.Drawn V n₀ ps := by
  intro pl hpl
  obtain ⟨w, hw, rfl⟩ := mem_map.1 hpl
  exact drawn_of_plain (Visit.isPlain_inner hw)

end Place

namespace Pruned

open Place

variable {V : Versions} {N : String → Prop} {n₀ : Nat} {T : NodeMap Ty}

def Draws (V : Versions) (n₀ : Nat) (ps ps' : List Place) : Prop := ∀ pl' ∈ ps', pl'.Drawn V n₀ ps

theorem Draws.append (h : Draws V n₀ ps ps') (h' : Draws V n₀ qs qs') :
    Draws V n₀ (ps ++ qs) (ps' ++ qs') :=
  forall_mem_append.2 ⟨fun pl hpl => (h pl hpl).mono (subset_append_left _ _),
    fun pl hpl => (h' pl hpl).mono (subset_append_right _ _)⟩

theorem Draws.mono (h : Draws V n₀ ps ps') (hs : ps ⊆ qs) : Draws V n₀ qs ps' :=
  fun pl hpl => (h pl hpl).mono hs

theorem draws_bodiless {d : Decl} (hb : d.body? = none) (hpath : V.path = Spelling.same.use)
    {sc sc' : Scopes} (hc : sc.Carries V N sc') : Draws V n₀ (d.places sc) (d.places sc') := by
  have hfirst : Drawn V n₀ (d.places sc) (sc', .enter d) :=
    drawn_of_alike hpath hc (.refl _) (by cases d <;> trivial) (d.enter_mem_places sc)
  have hlast : Drawn V n₀ (d.places sc) (sc', .leave d) :=
    drawn_leave (Check.judged_leave hb .empty sc').apart
  have hinner : Draws V n₀ (d.places sc) (sc'.all (Visit.enter d).inner) := drawn_all sc'
  rw [d.places_of_bodiless hb sc']
  exact forall_mem_cons.2 ⟨hfirst, forall_mem_append.2 ⟨hinner, forall_mem_singleton.2 hlast⟩⟩

theorem versioned (h : PrunedDecls V.Lost ds ds') (hV : V.Covers ws)
    (hws : ∀ d ∈ ds', .enter d ∈ ws) : Decl.Versioned V ds ds' := by
  induction ds generalizing ds' with
  | nil =>
    cases h
    exact .nil
  | cons d ds ih =>
    cases h with
    | @cons _ d' _ ds' head tail =>
      have hd : V.decl d = d' := hV d d' (hws d' (.head _)) head.alike
      have hrest := ih tail fun d hd => hws d (.tail _ hd)
      rw [← hd]
      refine .cons ?_ hrest
      rw [hd]
      exact congrArg Head.name head.head
    | gone here tail => exact .gone here (ih tail hws)

mutual
theorem draws_stmt : {s s' : Stmt} → PrunedStmt V.Lost s s' → V.Spans N s.visits s'.visits →
    ∀ {sc sc' : Scopes}, sc.Carries V N sc' → (∀ pl ∈ s.places sc, pl.Accepted T V.kept) →
      Draws V n₀ (s.places sc) (s'.places sc') ∧ (s.after sc).Carries V N (s'.after sc')
  | _, _, .block body, hV, sc, sc', hc, ha => by
    have hbody := draws_block body hV.tail hc fun pl hpl => ha pl (.tail _ hpl)
    exact ⟨forall_mem_cons.2 ⟨drawn_of_plain rfl, hbody.mono (subset_cons_self _ _)⟩, hc⟩
  | _, _, .assign t l r, hV, sc, sc', hc, _ => by
    refine ⟨forall_mem_cons.2 ⟨?_, drawn_all (v := .stmt (.assign t l r)) sc'⟩, hc⟩
    exact drawn_of_alike hV.path hc (.refl _) trivial (.head _)
  | _, _, .call t e, hV, sc, sc', hc, _ => by
    refine ⟨forall_mem_cons.2 ⟨?_, drawn_all (v := .stmt (.call t e)) sc'⟩, hc⟩
    exact drawn_of_alike hV.path hc (.refl _) trivial (.head _)
  | .ifThen t c a none, .ifThen _ _ a' none, .ifThen yes, hV, sc, sc', hc, ha => by
    obtain ⟨hyes, hafter⟩ := draws_stmt yes hV.tail.append.2 hc fun pl hpl =>
      ha pl (.tail _ (mem_append_right _ hpl))
    refine ⟨forall_mem_cons.2 ⟨drawn_of_alike hV.path hc (.ifThen ..) trivial (.head _), ?_⟩,
      hafter⟩
    refine forall_mem_append.2 ⟨drawn_all (v := .stmt (.ifThen t c a none)) sc', hyes.mono
      fun pl hpl => ?_⟩
    exact .tail _ (mem_append_right _ hpl)
  | .ifThen t c a (some b), .ifThen _ _ a' (some b'), .ifElse yes no, hV, sc, sc', hc, ha => by
    obtain ⟨hyes, hmid⟩ := draws_stmt yes hV.tail.append.1.append.2 hc fun pl hpl =>
      ha pl (.tail _ (mem_append_left _ (mem_append_right _ hpl)))
    obtain ⟨hno, hafter⟩ := draws_stmt no hV.tail.append.2 hmid fun pl hpl =>
      ha pl (.tail _ (mem_append_right _ hpl))
    refine ⟨forall_mem_cons.2 ⟨drawn_of_alike hV.path hc (.ifThen ..) trivial (.head _), ?_⟩,
      hafter⟩
    refine forall_mem_append.2 ⟨forall_mem_append.2
      ⟨drawn_all (v := .stmt (.ifThen t c a none)) sc', hyes.mono fun pl hpl => ?_⟩, hno.mono
        fun pl hpl => ?_⟩
    · exact .tail _ (mem_append_left _ (mem_append_right _ hpl))
    · exact .tail _ (mem_append_right _ hpl)
  | .switch t e cs, .switch _ _ cs', .switch body, hV, sc, sc', hc, ha => by
    have hcases := draws_cases body hV.tail.append.2 hc fun pl hpl =>
      ha pl (.tail _ (mem_append_right _ hpl))
    refine ⟨forall_mem_cons.2 ⟨drawn_of_alike hV.path hc (.switch ..) trivial (.head _), ?_⟩, hc⟩
    refine forall_mem_append.2 ⟨drawn_all (v := .stmt (.switch t e cs)) sc', hcases.mono
      fun pl hpl => ?_⟩
    exact .tail _ (mem_append_right _ hpl)
  | .decl t d, .decl _ d', .decl here, hV, sc, sc', hc, ha => by
    have hdecl := draws_decl here hV.tail hc fun pl hpl => ha pl (.tail _ hpl)
    have hname := hV.decls d (.tail _ d.enter_mem_visits)
    have hnew : sc.innermost.lookup d.name = none := (ha _ (.head _)).apart
    have heq : d'.name = d.name := congrArg Head.name here.head
    refine ⟨forall_mem_cons.2 ⟨⟨?_, .inr (safe_decl sc' t d')⟩, hdecl.mono (subset_cons_self _ _)⟩,
      ?_⟩
    · change sc'.innermost.lookup d'.name = none
      rw [heq]
      exact hc.level hname hnew
    · have hdef := hc.define hname hnew (.decl d)
      rw [Referent.over, hV.covers d d' (.tail _ d'.enter_mem_visits) here.alike] at hdef
      rw [Stmt.after, Stmt.after, Scopes.declare, Scopes.declare, heq]
      exact hdef
  | .decl t d, _, .gone here _ _, hV, sc, sc', hc, ha =>
    ⟨forall_mem_singleton.2 (drawn_of_plain rfl), hc.defineGone (r := .decl d)
      (hV.decls d (.tail _ d.enter_mem_visits)) (ha _ (.head _)).apart here⟩
  | _, _, .ret t e, hV, sc, sc', hc, _ => by
    refine ⟨forall_mem_cons.2 ⟨?_, drawn_all (v := .stmt (.ret t e)) sc'⟩, hc⟩
    exact drawn_of_alike hV.path hc (.refl _) trivial (.head _)
  | _, _, .exit t, _, _, _, hc, _ | _, _, .empty t, _, _, _, hc, _ =>
    ⟨forall_mem_singleton.2 (drawn_of_plain rfl), hc⟩
theorem draws_block : {b b' : Block} → PrunedBlock V.Lost b b' → V.Spans N b.visits b'.visits →
    ∀ {sc sc' : Scopes}, sc.Carries V N sc' → (∀ pl ∈ b.places sc, pl.Accepted T V.kept) →
      Draws V n₀ (b.places sc) (b'.places sc')
  | _, _, .mk body, hV, sc, sc', hc, ha => by
    have hbody := draws_stmts body hV.tail hc.push fun pl hpl => ha pl (.tail _ hpl)
    exact forall_mem_cons.2 ⟨drawn_of_plain rfl, hbody.mono (subset_cons_self _ _)⟩
theorem draws_stmts : {ss ss' : List Stmt} → PrunedStmts V.Lost ss ss' →
    V.Spans N (Stmt.allVisits ss) (Stmt.allVisits ss') → ∀ {sc sc' : Scopes}, sc.Carries V N sc' →
      (∀ pl ∈ Stmt.allPlaces sc ss, pl.Accepted T V.kept) →
        Draws V n₀ (Stmt.allPlaces sc ss) (Stmt.allPlaces sc' ss')
  | _, _, .nil, _, _, _, _, _ => fun _ h => absurd h not_mem_nil
  | _, _, .cons head tail, hV, sc, sc', hc, ha => by
    obtain ⟨hhead, hafter⟩ := draws_stmt head hV.append.1 hc fun pl hpl =>
      ha pl (mem_append_left _ hpl)
    exact hhead.append (draws_stmts tail hV.append.2 hafter fun pl hpl =>
      ha pl (mem_append_right _ hpl))
  | .decl t d :: ss, _, .gone here tail, hV, sc, sc', hc, ha => by
    have hafter := hc.defineGone (r := .decl d)
      (hV.decls d (mem_append_left _ (.tail _ d.enter_mem_visits)))
      (ha _ (mem_append_left _ (.head _))).apart here
    exact (draws_stmts tail (hV.mono (subset_append_right _ _) (List.Subset.refl _)) hafter
      fun pl hpl =>
      ha pl (mem_append_right _ hpl)).mono (subset_append_right _ _)
theorem draws_cases : {cs cs' : List Case} → PrunedCases V.Lost cs cs' →
    V.Spans N (Case.visits cs) (Case.visits cs') → ∀ {sc sc' : Scopes}, sc.Carries V N sc' →
      (∀ pl ∈ Case.places sc cs, pl.Accepted T V.kept) → Draws V n₀ (Case.places sc cs)
        (Case.places sc' cs')
  | _, _, .nil, _, _, _, _, _ => fun _ h => absurd h not_mem_nil
  | _, _, .run body tail, hV, sc, sc', hc, ha => by
    have hbody := draws_block body hV.append.1 hc fun pl hpl => ha pl (mem_append_left _ hpl)
    exact hbody.append (draws_cases tail hV.append.2 hc fun pl hpl =>
      ha pl (mem_append_right _ hpl))
  | _, _, .fallThrough tail, hV, sc, sc', hc, ha => draws_cases tail hV hc ha
theorem draws_decl : {d d' : Decl} → PrunedDecl V.Lost d d' → V.Spans N d.visits d'.visits →
    ∀ {sc sc' : Scopes}, sc.Carries V N sc' → (∀ pl ∈ d.places sc, pl.Accepted T V.kept) →
      Draws V n₀ (d.places sc) (d'.places sc')
  | _, _, .bodiless body, hV, _, _, hc, _ => draws_bodiless body hV.path hc
  | .action h ps (.mk i ss), .action _ _ (.mk _ ss'), .action (.mk body), hV, sc, sc', hc, ha => by
    have hadmits : sc.push.Admits ps := (ha (sc, .leave (.action h ps (.mk i ss)))
      (.tail _ (.tail _ (mem_append_right _ (.head _))))).apart
    obtain ⟨hadmits', hinner⟩ := hc.push.admits hV.path (Scopes.TypesFrom.refl sc).push
      (hV.params _ (.head _)) (fun q hq => (resolve_action (ha _ (.head _)) hq).2) hadmits
    have hbody := draws_stmts body hV.tail.append.1.tail hinner fun pl hpl =>
      ha pl (.tail _ (.tail _ (mem_append_left _ hpl)))
    refine forall_mem_cons.2 ⟨drawn_of_alike hV.path hc (.action ..) trivial (.head _),
      forall_mem_cons.2 ⟨drawn_of_plain rfl, forall_mem_append.2 ⟨hbody.mono fun pl hpl => ?_,
        forall_mem_singleton.2 (drawn_leave hadmits')⟩⟩⟩
    exact .tail _ (.tail _ (mem_append_left _ hpl))
  | .control h tps ps cps ls b, .control _ _ _ _ ls' b', .control locals body, hV, sc, sc',
    hc, ha => by
    have hlocals {x : List Decl} {y : Block} :
        Decl.allVisits x ⊆ (Decl.control h tps ps cps x y).visits :=
      fun v hv => .tail _ (mem_append_left _ (mem_append_left _ hv))
    obtain ⟨hadmits, htakes⟩ : (sc.pushTypeParams tps).push.Admits (cps ++ ps) ∧
        (sc.enterControl tps ps cps).Takes ls := (ha (sc, .leave (.control h tps ps cps ls b))
      (.tail _ (mem_append_right _ (.head _)))).apart
    obtain ⟨hadmits', hinner⟩ := hc.enterControl hV.path (hV.params _ (.head _))
      (ha _ (.head _)) hadmits
    obtain ⟨hscopes, htakes'⟩ := Scopes.Carries.declares (versioned locals hV.covers fun d hd =>
      hlocals (Decl.mem_allVisits.2 ⟨d, hd, d.enter_mem_visits⟩)) hinner
      (fun d hd => hV.decls d (hlocals (Decl.mem_allVisits.2 ⟨d, hd, d.enter_mem_visits⟩))) htakes
    have hinside := hV.tail.append.1.append
    have hfirst := draws_decls locals hinside.1 hinner htakes fun pl hpl =>
      ha pl (.tail _ (mem_append_left _ (mem_append_left _ hpl)))
    have hbody := draws_block body hinside.2 hscopes fun pl hpl =>
      ha pl (.tail _ (mem_append_left _ (mem_append_right _ hpl)))
    refine forall_mem_cons.2 ⟨drawn_of_alike hV.path hc (.control ..) trivial (.head _),
      forall_mem_append.2 ⟨(hfirst.append hbody).mono fun pl hpl => ?_,
        forall_mem_singleton.2 (drawn_leave ⟨hadmits', htakes'⟩)⟩⟩
    exact .tail _ (mem_append_left _ hpl)
theorem draws_decls : {ds ds' : List Decl} → PrunedDecls V.Lost ds ds' →
    V.Spans N (Decl.allVisits ds) (Decl.allVisits ds') → ∀ {sc sc' : Scopes}, sc.Carries V N sc' →
      sc.Takes ds → (∀ pl ∈ Decl.allPlaces sc ds, pl.Accepted T V.kept) →
        Draws V n₀ (Decl.allPlaces sc ds) (Decl.allPlaces sc' ds')
  | _, _, .nil, _, _, _, _, _, _ => fun _ h => absurd h not_mem_nil
  | d :: ds, d' :: ds', .cons head tail, hV, sc, sc', hc, ht, ha => by
    have hhead := draws_decl head hV.append.1 hc fun pl hpl => ha pl (mem_append_left _ hpl)
    have hname := hV.decls d (mem_append_left _ d.enter_mem_visits)
    have hafter : (sc.declare d).Carries V N (sc'.declare d') := by
      have hdef := hc.define hname ht.1 (.decl d)
      rw [Referent.over, hV.covers d d' (mem_append_left _ d'.enter_mem_visits) head.alike] at hdef
      rw [Scopes.declare, Scopes.declare, show d'.name = d.name from congrArg Head.name head.head]
      exact hdef
    exact hhead.append (draws_decls tail hV.append.2 hafter ht.2 fun pl hpl =>
      ha pl (mem_append_right _ hpl))
  | d :: ds, _, .gone here tail, hV, sc, sc', hc, ht, ha => by
    have hafter := hc.defineGone (r := .decl d) (hV.decls d (mem_append_left _ d.enter_mem_visits))
      ht.1 here
    exact (draws_decls tail (hV.mono (subset_append_right _ _) (List.Subset.refl _)) hafter ht.2
      fun pl hpl =>
      ha pl (mem_append_right _ hpl)).mono (subset_append_right _ _)
end

theorem carried {p q : Program} (h : PrunedDecls V.Lost p.decls q.decls)
    (hV : V.Spans N p.visits q.visits) (hc : p.top.Carries V N q.top) {T : NodeId → NodeMap Ty}
    (ha : Decl.Accepted T V.kept p.top p.decls) :
    Decl.Carried V n₀ p.top q.top p.decls q.decls := by
  have hall : ∀ {ds ds' : List Decl}, PrunedDecls V.Lost ds ds' →
      V.Spans N (Decl.allVisits ds) (Decl.allVisits ds') → Decl.Accepted T V.kept p.top ds →
        Decl.Carried V n₀ p.top q.top ds ds' := by
    intro ds ds' h hV ha
    induction ds generalizing ds' with
    | nil =>
      cases h
      exact .nil
    | cons d ds ih =>
      cases h with
      | cons head tail =>
        refine .cons head.alike.id head.isValue ?_ (ih tail hV.append.2 ha.2)
        exact draws_decl head hV.append.1 hc ha.1
      | gone here tail =>
        exact .gone here (ih tail (hV.mono (subset_append_right _ _) (List.Subset.refl _)) ha.2)
  exact hall h hV ha

end Pruned

theorem Program.Sound.carried {V : Versions} {n₀ : Nat} {p q : Program} (S : p.Sound V n₀)
    (hids : q.Coherent)
    (hV : V.Covers q.visits) (h : PrunedDecls V.Lost p.decls q.decls) : p.Carried V n₀ q := by
  have hspans : V.Spans (fun _ => True) p.visits q.visits := ⟨S.path, hV, fun _ _ => trivial,
    fun _ _ _ _ => trivial⟩
  obtain ⟨htop, htakes⟩ := Scopes.Carries.declares (Pruned.versioned h hV fun d hd =>
    visits_subset_of_mem hd d.enter_mem_visits) (Scopes.Carries.empty (N := fun _ => True))
      (fun _ _ => trivial)
    S.accepted.names
  exact ⟨hids, S.flat.pruned h, htakes, Pruned.carried h hspans htop S.accepted.nodes⟩

end MatchAction
