import MatchAction.Proofs.CallSites

namespace MatchAction

open List

mutual
def Stmt.own : Stmt → List Stmt
  | .block t b => .block t b :: b.own
  | .ifThen t c a none => .ifThen t c a none :: a.own
  | .ifThen t c a (some b) => .ifThen t c a (some b) :: (a.own ++ b.own)
  | .switch t e cs => .switch t e cs :: Case.own cs
  | s => [s]
def Block.own : Block → List Stmt
  | .mk _ ss => Stmt.allOwn ss
def Stmt.allOwn : List Stmt → List Stmt
  | [] => []
  | s :: ss => s.own ++ Stmt.allOwn ss
def Case.own : List Case → List Stmt
  | [] => []
  | .run _ b :: cs => b.own ++ Case.own cs
  | .fallThrough _ :: cs => Case.own cs
end

/-- The statements of a caller that are not those of a caller inside it. -/
def Decl.own (d : Decl) : List Stmt := (d.body?.map Block.own).getD []

def Stmt.caller? : Stmt → Option Decl
  | .decl _ d => if d.isCaller then some d else none
  | _ => none

def Decl.inside : Decl → List Decl
  | .action _ _ b => b.own.filterMap Stmt.caller?
  | .control _ _ _ _ ls b => ls.filter (·.isCaller) ++ b.own.filterMap Stmt.caller?
  | _ => []

abbrev Nesting := Decl × List Decl

mutual
def Stmt.nested (ctx : List Decl) : Stmt → List Nesting
  | .block _ b => b.nested ctx
  | .ifThen _ _ a none => a.nested ctx
  | .ifThen _ _ a (some b) => a.nested ctx ++ b.nested ctx
  | .switch _ _ cs => Case.nested ctx cs
  | .decl _ d => d.nested ctx
  | _ => []
termination_by structural s => s
def Block.nested (ctx : List Decl) : Block → List Nesting
  | .mk _ ss => Stmt.allNested ctx ss
termination_by structural b => b
def Stmt.allNested (ctx : List Decl) : List Stmt → List Nesting
  | [] => []
  | s :: ss => s.nested ctx ++ Stmt.allNested ctx ss
termination_by structural ss => ss
def Case.nested (ctx : List Decl) : List Case → List Nesting
  | [] => []
  | .run _ b :: cs => b.nested ctx ++ Case.nested ctx cs
  | .fallThrough _ :: cs => Case.nested ctx cs
termination_by structural cs => cs
def Decl.nested (ctx : List Decl) : Decl → List Nesting
  | .action h ps b => (.action h ps b, ctx) :: b.nested (.action h ps b :: ctx)
  | .control h tps ps cps ls b =>
    (.control h tps ps cps ls b, ctx) :: (Decl.allNested (.control h tps ps cps ls b :: ctx) ls
      ++ b.nested (.control h tps ps cps ls b :: ctx))
  | _ => []
termination_by structural d => d
def Decl.allNested (ctx : List Decl) : List Decl → List Nesting
  | [] => []
  | d :: ds => d.nested ctx ++ Decl.allNested ctx ds
termination_by structural ds => ds
end

def Program.nested (p : Program) : List Nesting := Decl.allNested [] p.decls

def qualified (d : Decl) : List Decl → String
  | [] => d.name
  | c :: ctx => qualified c ctx ++ "." ++ d.name

/-! ### Callers and where they stand -/

mutual
theorem Stmt.own_subset : (s : Stmt) → s.own.map Visit.stmt ⊆ s.visits
  | .block _ b => cons_subset_cons _ b.own_subset
  | .ifThen _ _ a none =>
    cons_subset_cons _ (subset_append_of_subset_right _ a.own_subset)
  | .ifThen _ _ a (some b) => by
    refine cons_subset_cons _ ?_
    rw [map_append, append_subset]
    exact ⟨subset_append_of_subset_left _ (subset_append_of_subset_right _ a.own_subset),
      subset_append_of_subset_right _ b.own_subset⟩
  | .switch _ _ cs =>
    cons_subset_cons _ (subset_append_of_subset_right _ (Case.own_subset cs))
  | .assign .. | .call .. | .decl .. | .ret .. | .exit _ | .empty _ =>
    cons_subset_cons _ (nil_subset _)
theorem Block.own_subset : (b : Block) → b.own.map Visit.stmt ⊆ b.visits
  | .mk _ ss => subset_cons_of_subset _ (Stmt.allOwn_subset ss)
theorem Stmt.allOwn_subset : (ss : List Stmt) →
    (Stmt.allOwn ss).map Visit.stmt ⊆ Stmt.allVisits ss
  | [] => nil_subset _
  | s :: ss => by
    rw [Stmt.allOwn, map_append, append_subset]
    exact ⟨subset_append_of_subset_left _ s.own_subset,
      subset_append_of_subset_right _ (Stmt.allOwn_subset ss)⟩
theorem Case.own_subset : (cs : List Case) → (Case.own cs).map Visit.stmt ⊆ Case.visits cs
  | [] => nil_subset _
  | .run _ b :: cs => by
    rw [Case.own, map_append, append_subset]
    exact ⟨subset_append_of_subset_left _ b.own_subset,
      subset_append_of_subset_right _ (Case.own_subset cs)⟩
  | .fallThrough _ :: cs => Case.own_subset cs
end

theorem Decl.own_subset (d : Decl) : d.own.map Visit.stmt ⊆ d.inner := by
  rw [Decl.own, Decl.inner]
  cases d.body? with
  | none => exact nil_subset _
  | some b => exact b.own_subset

def Spans (ns : List Nesting) (vs : List Visit) : Prop :=
  ∀ d, (∃ ctx, (d, ctx) ∈ ns) ↔ .enter d ∈ vs ∧ d.isCaller = true

namespace Spans

variable {ns ns' : List Nesting} {vs ws : List Visit}

theorem nil (hvs : ∀ d, .enter d ∈ vs → d.isCaller = false) : Spans [] vs := by
  intro d
  refine iff_of_false (by simp) fun ⟨hd, hcaller⟩ => ?_
  rw [hvs d hd] at hcaller
  cases hcaller

theorem append (h : Spans ns vs) (h' : Spans ns' ws) : Spans (ns ++ ns') (vs ++ ws) := by
  intro d
  simp only [mem_append, exists_or, h d, h' d, or_and_right]

theorem cons (hv : ∀ d, v ≠ .enter d) (h : Spans ns vs) : Spans ns (v :: vs) := by
  intro d
  simp only [h d, mem_cons, Ne.symm (hv d), false_or]

theorem exprs (es : List Expr) : Spans [] (es.map .expr) := nil (by simp)

theorem around (hd : d.isCaller = true) (h : Spans ns vs) :
    Spans ((d, ctx) :: ns) (.enter d :: (vs ++ [.leave d])) := by
  intro d'
  have hcons : (∃ ctx', (d', ctx') ∈ (d, ctx) :: ns) ↔ d' = d ∨ ∃ ctx', (d', ctx') ∈ ns := by
    simp only [mem_cons, Prod.mk.injEq, exists_or, exists_and_left, exists_eq, and_true]
  have henter : .enter d' ∈ .enter d :: (vs ++ [.leave d]) ↔ d' = d ∨ .enter d' ∈ vs := by
    simp
  have hself : d' = d ∧ d'.isCaller = true ↔ d' = d := and_iff_left_of_imp fun he => he ▸ hd
  rw [hcons, h d', henter, or_and_right, hself]

end Spans

theorem Decl.spans_plain {d : Decl} (hd : d.isCaller = false) (ctx : List Decl) :
    Spans (d.nested ctx) d.visits := by
  have hwithin {vs : List Visit} (hvs : Spans [] vs) :
      Spans [] (.enter d :: (vs ++ [.leave d])) := by
    refine Spans.nil fun d' hd' => ?_
    rcases mem_cons.1 hd' with he | hd'
    · cases he
      exact hd
    · refine Bool.not_eq_true _ ▸ fun hcaller => ?_
      have hin : .enter d' ∈ vs := by simpa using hd'
      obtain ⟨ctx', hmem⟩ := (hvs d').2 ⟨hin, hcaller⟩
      cases hmem
  have hexpr? (e : Option Expr) : Spans [] (Expr.visits? e) := by
    cases e with
    | none => exact Spans.exprs []
    | some e => exact Spans.exprs e.walk
  cases d with
  | action | control => cases hd
  | table h ks as d =>
    have hkeys : Spans [] (ks.flatMap Key.visits) := Spans.nil fun d' hd' => by
      obtain ⟨k, -, hk⟩ := mem_flatMap.1 hd'
      simp [Key.visits, Expr.visits] at hk
    exact hwithin ((hkeys.append (Spans.exprs _)).append (hexpr? d))
  | inst h ty as => exact hwithin (Spans.exprs _)
  | var h ty e => exact hwithin (hexpr? e)
  | const h ty e => exact hwithin (Spans.exprs e.walk)
  | _ => exact hwithin (Spans.exprs [])

mutual
theorem Stmt.spans : (s : Stmt) → (ctx : List Decl) → Spans (s.nested ctx) s.visits
  | .block _ b, ctx => .cons nofun (b.spans ctx)
  | .assign _ l r, _ => .cons nofun ((Spans.exprs l.walk).append (.exprs r.walk))
  | .call _ e, _ => .cons nofun (.exprs e.walk)
  | .ifThen _ c a none, ctx => .cons nofun ((Spans.exprs c.walk).append (a.spans ctx))
  | .ifThen _ c a (some b), ctx =>
    .cons nofun (((Spans.exprs c.walk).append (a.spans ctx)).append (b.spans ctx))
  | .switch _ e cs, ctx => .cons nofun ((Spans.exprs e.walk).append (Case.spans cs ctx))
  | .decl _ d, ctx => .cons nofun (d.spans ctx)
  | .ret _ none, _ => .cons nofun (.exprs [])
  | .ret _ (some e), _ => .cons nofun (.exprs e.walk)
  | .exit _, _ | .empty _, _ => .cons nofun (.exprs [])
termination_by structural x => x
theorem Block.spans : (b : Block) → (ctx : List Decl) → Spans (b.nested ctx) b.visits
  | .mk _ ss, ctx => .cons nofun (Stmt.allSpans ss ctx)
termination_by structural x => x
theorem Stmt.allSpans : (ss : List Stmt) → (ctx : List Decl) →
    Spans (Stmt.allNested ctx ss) (Stmt.allVisits ss)
  | [], _ => .exprs []
  | s :: ss, ctx => (s.spans ctx).append (Stmt.allSpans ss ctx)
termination_by structural x => x
theorem Case.spans : (cs : List Case) → (ctx : List Decl) →
    Spans (Case.nested ctx cs) (Case.visits cs)
  | [], _ => .exprs []
  | .run _ b :: cs, ctx => (b.spans ctx).append (Case.spans cs ctx)
  | .fallThrough _ :: cs, ctx => Case.spans cs ctx
termination_by structural x => x
theorem Decl.spans : (d : Decl) → (ctx : List Decl) → Spans (d.nested ctx) d.visits
  | .action _ _ b, _ => .around rfl (b.spans _)
  | .control _ _ _ _ ls b, _ => .around rfl ((Decl.allSpans ls _).append (b.spans _))
  | .table .., ctx | .inst .., ctx | .var .., ctx | .const .., ctx | .header ..,
    ctx | .struct .., ctx
  | .externType .., ctx | .externFn .., ctx | .package .., ctx => Decl.spans_plain rfl ctx
termination_by structural x => x
theorem Decl.allSpans : (ds : List Decl) → (ctx : List Decl) →
    Spans (Decl.allNested ctx ds) (Decl.allVisits ds)
  | [], _ => .exprs []
  | d :: ds, ctx => (d.spans ctx).append (Decl.allSpans ds ctx)
termination_by structural x => x
end

/-- Each caller stands among those `here`, or directly inside another that is listed with it. -/
def Placed (ns : List Nesting) (here : List Decl) (ctx : List Decl) : Prop :=
  ∀ o ∈ ns, (o.1 ∈ here ∧ o.2 = ctx) ∨
    ∃ c ctx', o.2 = c :: ctx' ∧ (c, ctx') ∈ ns ∧ o.1 ∈ c.inside

namespace Placed

variable {ns ns' : List Nesting} {here here' ctx : List Decl}

theorem nil : Placed [] here ctx := fun _ h => absurd h not_mem_nil

theorem append (h : Placed ns here ctx) (h' : Placed ns' here' ctx) :
    Placed (ns ++ ns') (here ++ here') ctx := by
  intro o ho
  rcases mem_append.1 ho with ho | ho
  · rcases h o ho with ⟨hhere, hctx⟩ | ⟨c, ctx', hctx, hc, hin⟩
    · exact .inl ⟨mem_append_left _ hhere, hctx⟩
    · exact .inr ⟨c, ctx', hctx, mem_append_left _ hc, hin⟩
  · rcases h' o ho with ⟨hhere, hctx⟩ | ⟨c, ctx', hctx, hc, hin⟩
    · exact .inl ⟨mem_append_right _ hhere, hctx⟩
    · exact .inr ⟨c, ctx', hctx, mem_append_right _ hc, hin⟩

theorem caller (h : Placed ns d.inside (d :: ctx)) :
    Placed ((d, ctx) :: ns) [d] ctx := by
  intro o ho
  rcases mem_cons.1 ho with rfl | ho
  · exact .inl ⟨.head _, rfl⟩
  · rcases h o ho with ⟨hin, hctx⟩ | ⟨c, ctx', hctx, hc, hin⟩
    · exact .inr ⟨d, ctx, hctx, .head _, hin⟩
    · exact .inr ⟨c, ctx', hctx, .tail _ hc, hin⟩

end Placed

mutual
theorem Stmt.placed : (s : Stmt) → (ctx : List Decl) →
    Placed (s.nested ctx) (s.own.filterMap Stmt.caller?) ctx
  | .block _ b, ctx => b.placed ctx
  | .ifThen _ _ a none, ctx => a.placed ctx
  | .ifThen _ _ a (some b), ctx => by
    have h := (a.placed ctx).append (b.placed ctx)
    rw [← filterMap_append] at h
    exact h
  | .switch _ _ cs, ctx => Case.placed cs ctx
  | .decl _ d, ctx => by
    have h := d.placed ctx
    cases hd : d.isCaller <;> simpa [Stmt.own, Stmt.caller?, Stmt.nested, hd] using h
  | .assign .., _ | .call .., _ | .ret .., _ | .exit _, _ | .empty _, _ => .nil
termination_by structural x => x
theorem Block.placed : (b : Block) → (ctx : List Decl) →
    Placed (b.nested ctx) (b.own.filterMap Stmt.caller?) ctx
  | .mk _ ss, ctx => Stmt.allPlaced ss ctx
termination_by structural x => x
theorem Stmt.allPlaced : (ss : List Stmt) → (ctx : List Decl) →
    Placed (Stmt.allNested ctx ss) ((Stmt.allOwn ss).filterMap Stmt.caller?) ctx
  | [], _ => .nil
  | s :: ss, ctx => by
    have h := (s.placed ctx).append (Stmt.allPlaced ss ctx)
    rw [← filterMap_append] at h
    exact h
termination_by structural x => x
theorem Case.placed : (cs : List Case) → (ctx : List Decl) →
    Placed (Case.nested ctx cs) ((Case.own cs).filterMap Stmt.caller?) ctx
  | [], _ => .nil
  | .run _ b :: cs, ctx => by
    have h := (b.placed ctx).append (Case.placed cs ctx)
    rw [← filterMap_append] at h
    exact h
  | .fallThrough _ :: cs, ctx => Case.placed cs ctx
termination_by structural x => x
theorem Decl.placed : (d : Decl) → (ctx : List Decl) →
    Placed (d.nested ctx) (if d.isCaller then [d] else []) ctx
  | .action _ _ b, _ => .caller (b.placed _)
  | .control _ _ _ _ ls b, _ => .caller ((Decl.allPlaced ls _).append (b.placed _))
  | .table .., _ | .inst .., _ | .var .., _ | .const .., _ | .header .., _ | .struct .., _
  | .externType .., _ | .externFn .., _ | .package .., _ => .nil
termination_by structural x => x
theorem Decl.allPlaced : (ds : List Decl) → (ctx : List Decl) →
    Placed (Decl.allNested ctx ds) (ds.filter (·.isCaller)) ctx
  | [], _ => .nil
  | d :: ds, ctx => by
    have h := (d.placed ctx).append (Decl.allPlaced ds ctx)
    cases hd : d.isCaller <;> simpa [Decl.allNested, hd] using h
termination_by structural x => x
end

/-! ### Names -/

theorem eq_of_dotted_last (ht : '.' ∉ t.toList) (ht' : '.' ∉ t'.toList)
    (h : s ++ "." ++ t = s' ++ "." ++ t') : s = s' ∧ t = t' := by
  have hlists : t.toList.reverse ++ '.' :: s.toList.reverse =
      t'.toList.reverse ++ '.' :: s'.toList.reverse := by
    simpa using congrArg (fun u => u.toList.reverse) h
  obtain ⟨ht, hs⟩ := Program.eq_of_split (by simpa using ht) (by simpa using ht') hlists
  exact ⟨String.toList_injective (reverse_injective hs),
    String.toList_injective (reverse_injective ht)⟩

namespace Program

variable {p : Program}

def Dotless (p : Program) : Prop := ∀ d ∈ p.allDecls, '.' ∉ d.name.toList

def SiblingsApart (p : Program) : Prop := ∀ d ∈ p.allDecls, (d.inside.map (·.name)).Nodup

theorem mem_nested :
    (∃ ctx, (d, ctx) ∈ p.nested) ↔ .enter d ∈ p.visits ∧ d.isCaller = true :=
  Decl.allSpans p.decls [] d

theorem allDecls_of_nested (h : (d, ctx) ∈ p.nested) :
    d ∈ p.allDecls := mem_allDecls.2 (mem_nested.1 ⟨ctx, h⟩).1

theorem qualified_inj (hnames : (p.decls.map (·.name)).Nodup) (hdots : p.Dotless)
    (hsiblings : p.SiblingsApart) (h : (d, ctx) ∈ p.nested)
    (h' : (d', ctx') ∈ p.nested) (hq : qualified d ctx = qualified d' ctx') : d = d' ∧
      ctx = ctx' := by
  have hapart {e e' : Decl} {q : String} (he : e ∈ p.allDecls)
    (hname : e.name = q ++ "." ++ e'.name) : False := by
    refine hdots e he ?_
    rw [hname]
    simp
  have hplaced : Placed p.nested (p.decls.filter (·.isCaller)) [] := Decl.allPlaced p.decls []
  induction ctx generalizing d d' ctx' with
  | nil =>
    cases ctx' with
    | nil =>
      rcases hplaced _ h with ⟨hd, -⟩ | ⟨c, ctx', hctx, -⟩
      · rcases hplaced _ h' with ⟨hd', -⟩ | ⟨c, ctx', hctx, -⟩
        · exact ⟨inj_on_of_nodup_map hnames (mem_filter.1 hd).1 (mem_filter.1 hd').1 hq,
            rfl⟩
        · cases hctx
      · cases hctx
    | cons c ctx' => exact (hapart (allDecls_of_nested h) hq).elim
  | cons c ctx ih =>
    cases ctx' with
    | nil => exact (hapart (allDecls_of_nested h') hq.symm).elim
    | cons c' ctx' =>
      obtain ⟨houter, hname⟩ := eq_of_dotted_last (hdots d (allDecls_of_nested h))
        (hdots d' (allDecls_of_nested h')) hq
      rcases hplaced _ h with ⟨-, hctx⟩ | ⟨_, _, hctx, hc, hin⟩
      · cases hctx
      rcases hplaced _ h' with ⟨-, hctx'⟩ | ⟨_, _, hctx', hc', hin'⟩
      · cases hctx'
      cases hctx
      cases hctx'
      obtain ⟨rfl, rfl⟩ := ih hc hc' houter
      exact ⟨inj_on_of_nodup_map (hsiblings c (allDecls_of_nested hc)) hin hin' hname, rfl⟩

end Program

namespace ActionInlining

variable (refs : Refs) (types : Types) (sources : SourceMap)

structure Gathers (f : Finder) (caller : NodeId) (ss : List Stmt) (ns : List Nesting)
    (f' : Finder) : Prop where
  callers : f'.callers = f.callers
  names : ∀ x, x ∈ f'.names.entries ↔
    x ∈ ns.map (fun o => (o.1.id, qualified o.1 o.2)) ∨ x ∈ f.names.entries
  kept : ∀ i, (∀ o ∈ ns, o.1.id ≠ i) → f'.names.get? i = f.names.get? i
  edges : ∀ e, e ∈ f'.edges ↔ Calls refs types sources (ss.map .stmt) caller e ∨
    (∃ o ∈ ns, Calls refs types sources (o.1.own.map .stmt) o.1.id e) ∨ e ∈ f.edges
  error : f'.error = none ↔ Known refs types (ss.map .stmt) ∧
    (∀ o ∈ ns, Known refs types (o.1.own.map .stmt)) ∧ f.error = none

variable {refs types sources} {f f₁ f₂ : Finder} {caller : NodeId} {ss ss' : List Stmt}
  {ns ns' : List Nesting}

theorem calls_append :
    Calls refs types sources (vs ++ ws) caller e ↔
      Calls refs types sources vs caller e ∨ Calls refs types sources ws caller e := by
  simp only [Calls, mem_append, or_and_right, exists_or]

theorem known_append :
    Known refs types (vs ++ ws) ↔ Known refs types vs ∧ Known refs types ws := by
  simp only [Known, mem_append, or_imp, forall_and]

namespace Gathers

theorem of_reads (h : Reads refs types sources f caller (ss.map .stmt) f₁) :
    Gathers refs types sources f caller ss [] f₁ where
  callers := h.callers
  names x := by simp [h.names]
  kept i _ := by rw [h.names]
  edges e := by simp [h.edges]
  error := by simp [h.error]

theorem refl : Gathers refs types sources f caller [] [] f := .of_reads (.refl nofun)

theorem append (h : Gathers refs types sources f caller ss ns f₁)
    (h' : Gathers refs types sources f₁ caller ss' ns' f₂) :
    Gathers refs types sources f caller (ss ++ ss') (ns ++ ns') f₂ where
  callers := h'.callers.trans h.callers
  names x := by
    rw [h'.names, h.names, map_append, mem_append, or_left_comm, or_assoc]
  kept i hi := by
    obtain ⟨hns, hns'⟩ := forall_mem_append.1 hi
    rw [h'.kept i hns', h.kept i hns]
  edges e := by
    simp only [h'.edges, h.edges, map_append, calls_append, mem_append, or_and_right,
      exists_or, or_assoc, or_left_comm]
  error := by
    simp only [h'.error, h.error, map_append, known_append, mem_append, or_imp,
      forall_and, and_assoc, and_left_comm]

theorem head (hs : ∀ t x, s ≠ .call t x)
    (h : Gathers refs types sources f caller ss ns f₁) :
    Gathers refs types sources f caller (s :: ss) ns f₁ :=
  (of_reads (.refl fun t x hmem => by
    cases mem_singleton.1 hmem
    exact hs t x rfl) : Gathers refs types sources f caller [s] [] f).append h

theorem within (hd : d.isCaller = true)
    (hname : f.nameOf d = qualified d ctx)
    (h : Gathers refs types sources (f.enter d) d.id d.own ns f₁) :
    Gathers refs types sources f caller [] ((d, ctx) :: ns)
      (f₁.step refs types sources (.leave d)) := by
  have hleave : f₁.step refs types sources (.leave d) = { f₁ with callers := f.callers } := by
    rw [Finder.step, if_pos (show (d.isAction || d.isControl) = true from hd), h.callers, enter_eq]
    rfl
  rw [hleave]
  refine ⟨rfl, fun x => ?_, fun i hi => ?_, fun e => ?_, ?_⟩
  · rw [h.names, enter_eq, hname]
    simp only [NodeMap.insert, mem_cons, map_cons]
    rw [or_left_comm, or_assoc]
  · obtain ⟨hne, hns⟩ := forall_mem_cons.1 hi
    calc f₁.names.get? i = (f.enter d).names.get? i := h.kept i hns
      _ = f.names.get? i := (NodeMap.get?_insert ..).trans (if_neg hne.symm)
  · rw [h.edges]
    simp [Calls, enter_eq, or_assoc]
  · rw [h.error]
    simp [Known, enter_eq, and_assoc]

end Gathers

structure At (f : Finder) (d : Decl) (ctx : List Decl) : Prop where
  callers : ∃ rest, f.callers = d.id :: rest
  name : f.names.get? d.id = some (qualified d ctx)

theorem At.nameOf (h : At f d ctx) (e : Decl) :
    f.nameOf e = qualified e (d :: ctx) := by
  obtain ⟨rest, hrest⟩ := h.callers
  exact nameOf_within hrest h.name e

theorem at_enter (h : f.nameOf d = qualified d ctx) :
    At (f.enter d) d ctx := by
  refine ⟨⟨f.callers, rfl⟩, ?_⟩
  rw [enter_eq, h]
  exact (NodeMap.get?_insert ..).trans (if_pos rfl)

abbrev Fresh (d : Decl) (vs : List Visit) : Prop := (d.id :: nodeIds vs).Nodup

theorem Fresh.append (h : Fresh d (vs ++ ws)) :
    Fresh d vs ∧ Fresh d ws := by
  rw [Fresh, nodeIds_append] at h
  exact ⟨h.sublist ((sublist_append_left _ _).cons_cons _),
    h.sublist ((sublist_append_right _ _).cons_cons _)⟩

theorem Fresh.tail (h : Fresh d (v :: vs)) : Fresh d vs :=
  (show Fresh d ([v] ++ vs) from h).append.2

theorem Fresh.nodup (h : Fresh d vs) : (nodeIds vs).Nodup :=
  (nodup_cons.1 h).2

theorem At.after (h : At f d ctx)
    (hg : Gathers refs types sources f caller ss ns f₁) (hns : Spans ns vs)
    (hfresh : Fresh d vs) : At f₁ d ctx := by
  refine ⟨hg.callers ▸ h.callers, (hg.kept d.id fun o ho he => ?_).trans h.name⟩
  have henter := ((hns o.1).1 ⟨o.2, ho⟩).1
  exact (nodup_cons.1 hfresh).1 (mem_filterMap.2 ⟨_, henter, congrArg some he⟩)

variable (refs types sources f)

theorem foldl_exprs (es : List Expr) :
    (es.map Visit.expr).foldl (Finder.step refs types sources) f = f := by
  induction es with
  | nil => rfl
  | cons e es ih => exact ih

theorem foldl_expr? (e : Option Expr) :
    (Expr.visits? e).foldl (Finder.step refs types sources) f = f := by
  cases e with
  | none => rfl
  | some e => exact foldl_exprs refs types sources f e.walk

theorem foldl_keys (ks : List Key) :
    (ks.flatMap Key.visits).foldl (Finder.step refs types sources) f = f := by
  induction ks with
  | nil => rfl
  | cons k ks ih =>
    rw [flatMap_cons, foldl_append]
    change (ks.flatMap Key.visits).foldl _ ((k.expr.walk.map Visit.expr).foldl _ f) = f
    rw [foldl_exprs, ih]

theorem gathers_plain {d : Decl} (hd : d.isCaller = false) (ctx : List Decl) :
    Gathers refs types sources f caller [] (d.nested ctx)
      (d.visits.foldl (Finder.step refs types sources) f) := by
  have hskip : ¬ (d.isAction || d.isControl) = true := by
    rw [← Decl.isCaller, hd]
    exact Bool.false_ne_true
  have hwithin {vs : List Visit} (hvs : vs.foldl (Finder.step refs types sources) f = f) :
      (Visit.enter d :: (vs ++ [.leave d])).foldl (Finder.step refs types sources) f = f := by
    rw [foldl_cons, foldl_append, Finder.step, if_neg hskip, hvs]
    exact if_neg hskip
  have hsame : d.visits.foldl (Finder.step refs types sources) f = f := by
    cases d with
    | action | control => cases hd
    | table h ks as e =>
      refine hwithin ?_
      rw [foldl_append, foldl_append, foldl_keys, foldl_exprs, foldl_expr?]
    | inst h ty as => exact hwithin (foldl_exprs refs types sources f _)
    | var h ty e => exact hwithin (foldl_expr? refs types sources f e)
    | const h ty e => exact hwithin (foldl_exprs refs types sources f _)
    | _ => exact hwithin (foldl_exprs refs types sources f [])
  have hnone : d.nested ctx = [] := by
    cases d with
    | action | control => cases hd
    | _ => rfl
  rw [hsame, hnone]
  exact .refl

variable {refs types sources f} {d : Decl} {ctx : List Decl}

theorem Gathers.exprs (es : List Expr)
    (h : Gathers refs types sources f caller ss ns
      (vs.foldl (Finder.step refs types sources) f)) :
    Gathers refs types sources f caller ss ns
      ((es.map Visit.expr ++ vs).foldl (Finder.step refs types sources) f) := by
  rw [foldl_append, foldl_exprs]
  exact h

mutual
theorem gathers_stmt : (s : Stmt) → {f : Finder} → {d : Decl} → {ctx : List Decl} → At f d ctx →
    Fresh d s.visits → Gathers refs types sources f d.id s.own (s.nested (d :: ctx))
      (s.visits.foldl (Finder.step refs types sources) f)
  | .block t b, _, _, _, hat, hf => (gathers_block b hat hf.tail).head nofun
  | .assign t l r, f, _, _, _, _ => by
    refine (Gathers.exprs l.walk ?_).head nofun
    rw [Expr.visits, foldl_exprs]
    exact .refl
  | .call t e, f, d, _, hat, _ => by
    obtain ⟨rest, hrest⟩ := hat.callers
    have hstep : f.step refs types sources (.stmt (.call t e)) =
        f.call refs types sources d.id t.id e := by rw [Finder.step, hrest]
    rw [Stmt.visits, foldl_cons, hstep, Expr.visits, foldl_exprs]
    exact .of_reads (reads_call f d.id t e)
  | .ifThen t c a none, _, _, _, hat, hf =>
    ((gathers_stmt a hat hf.tail.append.2).exprs c.walk).head nofun
  | .ifThen t c a (some b), f, d, ctx, hat, hf => by
    have ha := gathers_stmt a hat hf.tail.append.1.append.2
    have hb := gathers_stmt b (hat.after ha (a.spans _) hf.tail.append.1.append.2) hf.tail.append.2
    rw [Stmt.visits, append_assoc]
    refine Gathers.head nofun (Gathers.exprs c.walk ?_)
    rw [foldl_append]
    exact ha.append hb
  | .switch t e cs, _, _, _, hat, hf =>
    ((gathers_cases cs hat hf.tail.append.2).exprs e.walk).head nofun
  | .decl t d, _, _, _, hat, hf => (gathers_decl d hat.nameOf hf.tail.nodup).head nofun
  | .ret t e, f, _, _, _, _ => by
    rw [Stmt.visits, foldl_cons, foldl_expr?]
    exact Gathers.refl.head nofun
  | .exit _, _, _, _, _, _ | .empty _, _, _, _, _, _ => Gathers.refl.head nofun
termination_by structural x => x
theorem gathers_block : (b : Block) → {f : Finder} → {d : Decl} → {ctx : List Decl} → At f d ctx →
    Fresh d b.visits → Gathers refs types sources f d.id b.own (b.nested (d :: ctx))
      (b.visits.foldl (Finder.step refs types sources) f)
  | .mk _ ss, _, _, _, hat, hf => gathers_stmts ss hat hf.tail
termination_by structural x => x
theorem gathers_stmts : (ss : List Stmt) → {f : Finder} → {d : Decl} → {ctx : List Decl} →
    At f d ctx → Fresh d (Stmt.allVisits ss) →
    Gathers refs types sources f d.id (Stmt.allOwn ss) (Stmt.allNested (d :: ctx) ss)
      ((Stmt.allVisits ss).foldl (Finder.step refs types sources) f)
  | [], _, _, _, _, _ => .refl
  | s :: ss, f, d, ctx, hat, hf => by
    have hs := gathers_stmt s hat hf.append.1
    have hss := gathers_stmts ss (hat.after hs (s.spans _) hf.append.1) hf.append.2
    rw [Stmt.allVisits, foldl_append]
    exact hs.append hss
termination_by structural x => x
theorem gathers_cases : (cs : List Case) → {f : Finder} → {d : Decl} → {ctx : List Decl} →
    At f d ctx → Fresh d (Case.visits cs) →
    Gathers refs types sources f d.id (Case.own cs) (Case.nested (d :: ctx) cs)
      ((Case.visits cs).foldl (Finder.step refs types sources) f)
  | [], _, _, _, _, _ => .refl
  | .run _ b :: cs, f, d, ctx, hat, hf => by
    have hb := gathers_block b hat hf.append.1
    have hcs := gathers_cases cs (hat.after hb (b.spans _) hf.append.1) hf.append.2
    rw [Case.visits, foldl_append]
    exact hb.append hcs
  | .fallThrough _ :: cs, _, _, _, hat, hf => gathers_cases cs hat hf
termination_by structural x => x
theorem gathers_decl : (e : Decl) → {f : Finder} → {ctx : List Decl} → {caller : NodeId} →
    (∀ e, f.nameOf e = qualified e ctx) → (nodeIds e.visits).Nodup →
    Gathers refs types sources f caller [] (e.nested ctx)
      (e.visits.foldl (Finder.step refs types sources) f)
  | .action h ps b, f, ctx, _, hname, hf => by
    have hfresh : Fresh (.action h ps b) (b.visits ++ [.leave (.action h ps b)]) := hf
    have hb := gathers_block b (at_enter (hname (.action h ps b))) hfresh.append.1
    rw [Decl.visits, foldl_cons, foldl_append]
    exact hb.within rfl (hname _)
  | .control h tps ps cps ls b, f, ctx, _, hname, hf => by
    have hfresh : Fresh (.control h tps ps cps ls b)
      (Decl.allVisits ls ++ b.visits ++ [.leave (.control h tps ps cps ls b)]) := hf
    have hat := at_enter (hname (.control h tps ps cps ls b))
    have hls := gathers_locals ls hat hfresh.append.1.append.1
    have hb := gathers_block b (hat.after hls (Decl.allSpans ls _) hfresh.append.1.append.1)
      hfresh.append.1.append.2
    rw [Decl.visits, foldl_cons, foldl_append, foldl_append]
    exact (hls.append hb).within rfl (hname _)
  | .table .., f, ctx, _, _, _ | .inst .., f, ctx, _, _, _ | .var .., f, ctx, _, _, _
  | .const .., f, ctx, _, _, _ | .header .., f, ctx, _, _, _ | .struct .., f, ctx, _, _, _
  | .externType .., f, ctx, _, _, _ | .externFn .., f, ctx, _, _, _ | .package .., f,
    ctx, _, _, _ =>
    gathers_plain _ _ _ f rfl ctx
termination_by structural x => x
theorem gathers_locals : (ds : List Decl) → {f : Finder} → {d : Decl} → {ctx : List Decl} →
    At f d ctx → Fresh d (Decl.allVisits ds) →
    Gathers refs types sources f d.id [] (Decl.allNested (d :: ctx) ds)
      ((Decl.allVisits ds).foldl (Finder.step refs types sources) f)
  | [], _, _, _, _, _ => .refl
  | e :: ds, f, d, ctx, hat, hf => by
    have he : Gathers refs types sources f d.id [] (e.nested (d :: ctx)) _ :=
      gathers_decl e hat.nameOf hf.append.1.nodup
    have hds := gathers_locals ds (hat.after he (e.spans _) hf.append.1) hf.append.2
    rw [Decl.allVisits, foldl_append]
    exact he.append hds
termination_by structural x => x
end

theorem gathers_decls (hf : f.callers = [])
    (hids : (nodeIds (Decl.allVisits ds)).Nodup) :
    Gathers refs types sources f caller [] (Decl.allNested [] ds)
      ((Decl.allVisits ds).foldl (Finder.step refs types sources) f) := by
  induction ds generalizing f with
  | nil => exact .refl
  | cons d ds ih =>
    rw [Decl.allVisits, nodeIds_append] at hids
    obtain ⟨hd, hds, -⟩ := List.nodup_append.1 hids
    have hg : Gathers refs types sources f caller [] (d.nested []) _ :=
      gathers_decl d (nameOf_toplevel hf) hd
    rw [Decl.allVisits, foldl_append]
    exact hg.append (ih (hg.callers.trans hf) hds)

end ActionInlining

end MatchAction
