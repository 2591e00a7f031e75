import MatchAction.Proofs.Identities

namespace MatchAction

open List

/-- Controls hold actions, tables, instances, variables and constants, and blocks the last three of
these. -/
structure Program.Orderly (p : Program) : Prop where
  locals : ∀ {h tps ps cps ls b}, .enter (.control h tps ps cps ls b) ∈ p.visits →
    ∀ l ∈ ls, Decl.flaw .control l = 0
  declared : ∀ {t d}, .stmt (.decl t d) ∈ p.visits → Decl.flaw .block d = 0

def Program.ReturnFree (p : Program) : Prop := ∀ t e, .stmt (.ret t e) ∉ p.visits

theorem Decl.flaws_eq_zero :
    Decl.flaws spot ds = 0 ↔ ∀ d ∈ ds, d.flaw spot = 0 := by
  induction ds with
  | nil => simp [Decl.flaws]
  | cons d ds ih => simpa [Decl.flaws] using fun _ => ih

namespace Weights

def disorder (r : Nat) : Weights := ⟨fun _ => 0, r, 1, fun _ => 0⟩

theorem silent_disorder (r : Nat) : (disorder r).Silent := fun _ => rfl

theorem total_disorder (r : Nat) (p : Program) :
    (disorder r).total p.visits = 0 ↔ p.Orderly ∧ (r = 0 ∨ p.ReturnFree) := by
  rw [total_eq_zero]
  constructor
  · intro h
    refine ⟨⟨fun hc l hl => ?_, fun hd => ?_⟩, or_iff_not_imp_left.2 fun hr t e hret => ?_⟩
    · exact Decl.flaws_eq_zero.1 (by simpa [visit, disorder] using h _ hc) l hl
    · simpa [visit, kind, disorder] using h _ hd
    · exact hr (by simpa [visit, kind, disorder] using h _ hret)
  · rintro ⟨hp, hr⟩ v hv
    cases v with
    | enter d =>
      cases d with
      | control h tps ps cps ls b =>
        have hflaws : Decl.flaws .control ls = 0 := Decl.flaws_eq_zero.2 (hp.locals hv)
        simp [visit, disorder, hflaws]
      | _ => rfl
    | stmt s =>
      cases s with
      | ret t e =>
        have hzero : r = 0 := hr.resolve_right fun hfree => hfree t e hv
        simp [visit, kind, disorder, hzero]
      | decl t d => simp [visit, kind, disorder, hp.declared hv]
      | call t e => exact (Nat.zero_add _).trans ((silent_disorder r).callee e)
      | _ => rfl
    | _ => rfl

end Weights

namespace Program.Follows

variable {p p' : Program} {n n' : Nat}

theorem orderly (h : p.Follows n p' n') (hp : p.Orderly) : p'.Orderly := by
  have hzero := (Weights.total_disorder 0 p).2 ⟨hp, .inl rfl⟩
  exact ((Weights.total_disorder 0 p').1 (h.flawless (Weights.silent_disorder 0) hzero)).1

theorem returnFree (h : p.Follows n p' n') (hp : p.Orderly) (hr : p.ReturnFree) :
    p'.ReturnFree := by
  have hzero := (Weights.total_disorder 1 p).2 ⟨hp, .inr hr⟩
  have hzero' := (Weights.total_disorder 1 p').1 (h.flawless (Weights.silent_disorder 1) hzero)
  exact hzero'.2.resolve_left Nat.one_ne_zero

end Program.Follows

/-! What a block lists. -/

def Decl.body? : Decl → Option Block
  | .action _ _ b => some b
  | .control _ _ _ _ _ b => some b
  | _ => none

theorem Decl.visits_of_body? {d : Decl} {b : Block} (h : d.body? = some b) :
    b.visits ⊆ d.visits := by
  cases d with
  | action | control =>
    cases h
    exact fun v hv => by simp [Decl.visits, hv]
  | _ => cases h

theorem Decl.body?_of_flaw {d : Decl} (h : d.flaw .block = 0) : d.body? = none := by
  cases d with
  | action | control => cases h
  | _ => rfl

namespace Visit

def Within (E : Decl → Prop) (S : Stmt → Prop) : Visit → Prop
  | .enter d => E d
  | .stmt s => S s
  | _ => True

abbrev Plain (r : Prop) : Visit → Prop :=
  Within (fun d => d.flaw .block = 0) fun s => ∀ t e, s = .ret t e → r

variable (E : Decl → Prop) (S : Stmt → Prop)

theorem within_exprs (es : List Expr) : ∀ v ∈ es.map Visit.expr, v.Within E S := by
  intro v hv
  obtain ⟨e, -, rfl⟩ := mem_map.1 hv
  trivial

theorem within_expr? (e : Option Expr) : ∀ v ∈ Expr.visits? e, v.Within E S := by
  cases e with
  | none => exact fun _ h => absurd h not_mem_nil
  | some e => exact within_exprs E S e.walk

theorem within_keys (ks : List Key) : ∀ v ∈ ks.flatMap Key.visits, v.Within E S := by
  intro v hv
  obtain ⟨k, -, hv⟩ := mem_flatMap.1 hv
  rcases mem_cons.1 hv with rfl | hv
  · trivial
  · exact within_exprs E S k.expr.walk v hv

end Visit

open Visit in
theorem Decl.within_visits {E : Decl → Prop} (S : Stmt → Prop) {d : Decl} (hd : d.body? = none)
    (he : E d) : ∀ v ∈ d.visits, v.Within E S := by
  have haround {vs : List Visit} (hvs : ∀ v ∈ vs, v.Within E S) :
      ∀ v ∈ Visit.enter d :: (vs ++ [.leave d]), v.Within E S :=
    forall_mem_cons.2 ⟨he, forall_mem_append.2 ⟨hvs, forall_mem_singleton.2 trivial⟩⟩
  have hnil : ∀ v ∈ ([] : List Visit), v.Within E S := fun _ h => absurd h not_mem_nil
  cases d with
  | action | control => cases hd
  | table h ks as e =>
    exact haround (forall_mem_append.2
      ⟨forall_mem_append.2 ⟨within_keys E S ks, within_exprs E S _⟩, within_expr? E S e⟩)
  | inst h ty as => exact haround (within_exprs E S _)
  | var h ty e => exact haround (within_expr? E S e)
  | const h ty e => exact haround (within_exprs E S e.walk)
  | header | struct | externType | externFn | package => exact haround hnil

def Holds (vs : List Visit) : Prop := ∀ t d, .stmt (.decl t d) ∈ vs → Decl.flaw .block d = 0

theorem Holds.mono (h : Holds ws) (hs : vs ⊆ ws) : Holds vs :=
  fun t d hd => h t d (hs hd)

theorem Holds.tail (h : Holds (v :: vs)) : Holds vs := h.mono (subset_cons_self _ _)

theorem Holds.append (h : Holds (vs ++ ws)) : Holds vs ∧ Holds ws :=
  ⟨h.mono (subset_append_left _ _), h.mono (subset_append_right _ _)⟩

open Visit in
mutual
theorem Stmt.plain_visits {r : Prop} : (s : Stmt) → Holds s.visits → (s.hasReturn = true → r) →
    ∀ v ∈ s.visits, v.Plain r
  | .block _ b, hd, hr => forall_mem_cons.2
    ⟨nofun, Block.plain_visits b hd.tail hr⟩
  | .assign _ l x, _, _ => forall_mem_cons.2
    ⟨nofun, forall_mem_append.2 ⟨within_exprs _ _ l.walk, within_exprs _ _ x.walk⟩⟩
  | .call _ e, _, _ => forall_mem_cons.2 ⟨nofun, within_exprs _ _ e.walk⟩
  | .ifThen _ c a none, hd, hr => by
    have ha := Stmt.plain_visits a hd.tail.append.2 hr
    exact forall_mem_cons.2 ⟨nofun, forall_mem_append.2 ⟨within_exprs _ _ c.walk, ha⟩⟩
  | .ifThen _ c a (some b), hd, hr => by
    have ha := Stmt.plain_visits a hd.tail.append.1.append.2
      fun h => hr (by simp [Stmt.hasReturn, h])
    have hb := Stmt.plain_visits b hd.tail.append.2
      fun h => hr (by simp [Stmt.hasReturn, h])
    exact forall_mem_cons.2 ⟨nofun, forall_mem_append.2
      ⟨forall_mem_append.2 ⟨within_exprs _ _ c.walk, ha⟩, hb⟩⟩
  | .switch _ e cs, hd, hr => by
    have hcs := Case.plain_visits cs hd.tail.append.2 hr
    exact forall_mem_cons.2 ⟨nofun, forall_mem_append.2 ⟨within_exprs _ _ e.walk, hcs⟩⟩
  | .decl t d, hd, _ => by
    have hflaw : d.flaw .block = 0 := hd t d (mem_cons_self ..)
    exact forall_mem_cons.2 ⟨nofun, Decl.within_visits _ (Decl.body?_of_flaw hflaw) hflaw⟩
  | .ret _ e, _, hr => forall_mem_cons.2 ⟨fun _ _ _ => hr rfl, within_expr? _ _ e⟩
  | .exit _, _, _ | .empty _, _, _ => forall_mem_singleton.2 nofun
theorem Block.plain_visits {r : Prop} : (b : Block) → Holds b.visits → (b.hasReturn = true → r) →
    ∀ v ∈ b.visits, v.Plain r
  | .mk _ ss, hd, hr => forall_mem_cons.2
    ⟨trivial, Stmt.plain_allVisits ss hd.tail hr⟩
theorem Stmt.plain_allVisits {r : Prop} : (ss : List Stmt) → Holds (Stmt.allVisits ss) →
    (Stmt.anyReturn ss = true → r) → ∀ v ∈ Stmt.allVisits ss, v.Plain r
  | [], _, _ => fun _ h => absurd h not_mem_nil
  | s :: ss, hd, hr => forall_mem_append.2
    ⟨Stmt.plain_visits s hd.append.1 fun h => hr (by simp [Stmt.anyReturn, h]),
      Stmt.plain_allVisits ss hd.append.2
        fun h => hr (by simp [Stmt.anyReturn, h])⟩
theorem Case.plain_visits {r : Prop} : (cs : List Case) → Holds (Case.visits cs) →
    (Case.anyReturn cs = true → r) → ∀ v ∈ Case.visits cs, v.Plain r
  | [], _, _ => fun _ h => absurd h not_mem_nil
  | .run _ b :: cs, hd, hr => forall_mem_append.2
    ⟨Block.plain_visits b hd.append.1
        fun h => hr (by simp [Case.anyReturn, Case.hasReturn, h]),
      Case.plain_visits cs hd.append.2
        fun h => hr (by simp [Case.anyReturn, h])⟩
  | .fallThrough _ :: cs, hd, hr => Case.plain_visits cs hd
    fun h => hr (by simp [Case.anyReturn, h])
end

theorem Decl.enter_of_not_isControl {d e : Decl} (hd : d.isControl = false) (hh : Holds d.visits)
    (he : .enter e ∈ d.visits) : e = d ∨ e.flaw .block = 0 := by
  cases d with
  | control => cases hd
  | action h ps b =>
    have hb := b.plain_visits (r := True) (hh.mono fun v hv => by simp [Decl.visits, hv])
      fun _ => trivial
    simp only [Decl.visits, mem_cons, mem_append, Visit.enter.injEq] at he
    rcases he with rfl | he | he
    · exact .inl rfl
    · exact .inr (hb _ he)
    · simp at he
  | _ => exact .inl (Decl.within_visits (E := (· = _)) (fun _ => False) rfl rfl _ he)

theorem Decl.stmt_of_not_isControl {d : Decl} (hd : d.isControl = false) {s : Stmt}
    (hs : .stmt s ∈ d.visits) : ∃ b, d.body? = some b ∧ .stmt s ∈ b.visits := by
  cases d with
  | control => cases hd
  | action h ps b =>
    refine ⟨b, rfl, ?_⟩
    simpa [Decl.visits] using hs
  | _ =>
    exact False.elim (Decl.within_visits (E := fun _ => True) (fun _ => False) rfl trivial _ hs)

namespace Program.Orderly

variable {p : Program}

theorem holds (hp : p.Orderly) (hs : vs ⊆ p.visits) : Holds vs :=
  fun _ _ h => hp.declared (hs h)

theorem isControl_of_local (hp : p.Orderly)
    (hc : .control h tps ps cps ls b ∈ p.decls) (hl : l ∈ ls) :
    l.isControl = false := by
  have hflaw := hp.locals (visits_subset_of_mem hc (Decl.enter_mem_visits _)) l hl
  cases l with
  | control => cases hflaw
  | _ => rfl

theorem enter_cases (hp : p.Orderly) {d : Decl} (hd : .enter d ∈ p.visits) :
    d ∈ p.decls ∨
      (∃ h tps ps cps ls b, .control h tps ps cps ls b ∈ p.decls ∧ d ∈ ls) ∨ d.flaw .block = 0 := by
  obtain ⟨c, hc, hd⟩ := Decl.mem_allVisits.1 hd
  have hsub := visits_subset_of_mem hc
  cases hcontrol : c.isControl with
  | false =>
    rcases Decl.enter_of_not_isControl hcontrol (hp.holds hsub) hd with rfl | hflaw
    · exact .inl hc
    · exact .inr (.inr hflaw)
  | true =>
    cases c with
    | control h tps ps cps ls b =>
      simp only [Decl.visits, mem_cons, mem_append, Decl.mem_allVisits,
        Visit.enter.injEq] at hd
      rcases hd with rfl | (⟨l, hl, hd⟩ | hd) | hd
      · exact .inl hc
      · have hin : l.visits ⊆ p.visits := fun v hv => hsub (by
          simp only [Decl.visits, mem_cons, mem_append, Decl.mem_allVisits]
          exact .inr (.inl (.inl ⟨l, hl, hv⟩)))
        rcases Decl.enter_of_not_isControl (hp.isControl_of_local hc hl) (hp.holds hin) hd with
          rfl | hflaw
        · exact .inr (.inl ⟨_, _, _, _, _, _, hc, hl⟩)
        · exact .inr (.inr hflaw)
      · have hin : b.visits ⊆ p.visits := fun v hv => hsub (by simp [Decl.visits, hv])
        exact .inr (.inr (b.plain_visits (r := True) (hp.holds hin) (fun _ => trivial) _ hd))
      · simp at hd
    | _ => cases hcontrol

theorem mem_decls_of_control (hp : p.Orderly)
    (hc : .enter (.control h tps ps cps ls b) ∈ p.visits) :
    .control h tps ps cps ls b ∈ p.decls := by
  rcases hp.enter_cases hc with hmem | ⟨_, _, _, _, _, _, hc', hl⟩ | hflaw
  · exact hmem
  · cases hp.isControl_of_local hc' hl
  · cases hflaw

theorem stmt_cases (hp : p.Orderly) {s : Stmt} (hs : .stmt s ∈ p.visits) :
    ∃ d b, .enter d ∈ p.visits ∧ d.body? = some b ∧ .stmt s ∈ b.visits := by
  obtain ⟨c, hc, hs⟩ := Decl.mem_allVisits.1 hs
  have hsub := visits_subset_of_mem hc
  cases hcontrol : c.isControl with
  | false =>
    obtain ⟨b, hb, hs⟩ := Decl.stmt_of_not_isControl hcontrol hs
    exact ⟨c, b, hsub c.enter_mem_visits, hb, hs⟩
  | true =>
    cases c with
    | control h tps ps cps ls b =>
      simp only [Decl.visits, mem_cons, mem_append, Decl.mem_allVisits] at hs
      rcases hs with hs | (⟨l, hl, hs⟩ | hs) | hs
      · cases hs
      · have hin : .enter l ∈ p.visits := hsub (by
          simp only [Decl.visits, mem_cons, mem_append, Decl.mem_allVisits]
          exact .inr (.inl (.inl ⟨l, hl, l.enter_mem_visits⟩)))
        obtain ⟨b', hb', hs⟩ := Decl.stmt_of_not_isControl (hp.isControl_of_local hc hl) hs
        exact ⟨l, b', hin, hb', hs⟩
      · exact ⟨_, b, hsub (Decl.enter_mem_visits _), rfl, hs⟩
      · simp at hs
    | _ => cases hcontrol

theorem returnFree_of_bodies (hp : p.Orderly)
    (h : ∀ d b, .enter d ∈ p.visits → d.body? = some b → b.hasReturn = false) : p.ReturnFree := by
  intro t e hret
  obtain ⟨d, b, hd, hb, hs⟩ := hp.stmt_cases hret
  have hin : b.visits ⊆ p.visits :=
    fun v hv => visits_subset_of_enter hd (Decl.visits_of_body? hb hv)
  have hfree : b.hasReturn = true → False := by simp [h d b hd hb]
  exact b.plain_visits (hp.holds hin) hfree _ hs t e rfl

end Program.Orderly

theorem exists_left_of_forall₂ {α β : Type} {R : α → β → Prop} {as : List α} {bs : List β}
    (h : List.Forall₂ R as bs) {b : β} (hb : b ∈ bs) : ∃ a ∈ as, R a b := by
  induction h with
  | nil => cases hb
  | cons hab _ ih =>
    rcases mem_cons.1 hb with rfl | hb
    · exact ⟨_, .head _, hab⟩
    · obtain ⟨a, ha, hr⟩ := ih hb
      exact ⟨a, .tail _ ha, hr⟩

namespace Returns

variable {used : List String} {d d' : Decl} {b : Block}

theorem RemovedAction.hasReturn (h : RemovedAction used d d') (hc : d'.isControl = false)
    (hb : d'.body? = some b) : b.hasReturn = false := by
  cases h with
  | action body =>
    cases hb
    cases body with
    | kept none => exact none
    | flagged _ _ _ tracks => exact tracks.hasReturn
  | other h =>
    cases d with
    | action => cases h
    | control => cases hc
    | _ => cases hb

theorem RemovedDecl.hasReturn (h : RemovedDecl used d d') (hb : d'.body? = some b) :
    b.hasReturn = false := by
  cases h with
  | kept _ none =>
    cases hb
    exact none
  | flagged _ _ _ tracks =>
    cases hb
    exact tracks.hasReturn
  | action hd action =>
    refine action.hasReturn ?_ hb
    cases action with
    | action => rfl
    | other => exact hd

theorem RemovedDecl.of_local {h : Head} {tps : List String} {ps cps : List Param} {ls : List Decl}
    (hr : RemovedDecl used d (.control h tps ps cps ls b)) {l : Decl} (hl : l ∈ ls)
    (hc : l.isControl = false) {b' : Block} (hb : l.body? = some b') : b'.hasReturn = false := by
  cases hr with
  | kept locals _ =>
    obtain ⟨l₀, -, hl₀⟩ := exists_left_of_forall₂ locals hl
    exact hl₀.hasReturn hc hb
  | flagged locals _ _ _ =>
    rcases mem_append.1 hl with hl | hl
    · obtain ⟨l₀, -, hl₀⟩ := exists_left_of_forall₂ locals hl
      exact hl₀.hasReturn hc hb
    · cases mem_singleton.1 hl
      cases hb
  | action hd action =>
    cases action with
    | other => cases hd

end Returns

theorem Program.returnFree_removeReturns {p : Program} {n : Nat}
    (hp : ((p.removeReturns n).1.get p).Orderly) : ((p.removeReturns n).1.get p).ReturnFree := by
  have hget : ((p.removeReturns n).1.get p).decls
      = (Returns.decls p.decls (.ofProgram p) n).1.1.get p.decls :=
    congrArg Program.decls (Edit.get_map Program.mk p.decls _)
  have hdecls := Returns.removed_decls p.decls (List.Subset.refl (Names.ofProgram p).used) n
  rw [← hget] at hdecls
  refine hp.returnFree_of_bodies fun d b hd hb => ?_
  rcases hp.enter_cases hd with hmem | ⟨h, tps, ps, cps, ls, b', hc, hl⟩ | hflaw
  · obtain ⟨d₀, -, hr⟩ := exists_left_of_forall₂ hdecls hmem
    exact hr.hasReturn hb
  · obtain ⟨d₀, -, hr⟩ := exists_left_of_forall₂ hdecls hc
    exact hr.of_local hl (hp.isControl_of_local hc hl) hb
  · rw [Decl.body?_of_flaw hflaw] at hb
    cases hb

namespace Scopes

def Local (f : String) (sc : Scopes) : Prop := (sc.inner.findSome? (·.lookup f)).isSome

theorem local_define {sc : Scopes} (hi : sc.inner ≠ []) (f : String) (r : Referent) :
    Local f (sc.define f r).2 := by
  obtain ⟨inner, top, tps⟩ := sc
  cases inner with
  | nil => exact absurd rfl hi
  | cons g gs =>
    cases hg : g.lookup f with
    | some r' => simp [Local, define, innermost, hg]
    | none => simp [Local, define, innermost, hg]

theorem stable_local (f : String) : Stable (fun _ => True) (Local f) where
  push h := h
  pushTypeParams h _ := h
  define := by
    intro sc r h _ _
    obtain ⟨inner, top, tps⟩ := sc
    cases inner with
    | nil => cases h
    | cons g gs =>
      by_cases hn : f = r.name
      · subst hn
        exact local_define (cons_ne_nil _ _) _ r
      · have hbeq : (f == r.name) = false := beq_eq_false_iff_ne.2 hn
        unfold define
        split
        · exact h
        · simpa only [Local, findSome?_cons, lookup_cons, hbeq] using h

theorem local_declares {sc : Scopes} (hi : sc.inner ≠ []) {ds : List Decl} {d : Decl}
    (hd : d ∈ ds) : Local d.name (sc.declares ds) := by
  induction ds generalizing sc with
  | nil => cases hd
  | cons e ds ih =>
    rcases mem_cons.1 hd with rfl | hd
    · show Local d.name ((sc.declare d).declares ds)
      exact (stable_local d.name).declares (local_define hi d.name (.decl d))
        (define_inner hi d.name (.decl d)).1 fun _ _ => trivial
    · exact ih (define_inner hi e.name (.decl e)).1 hd

theorem Hold.lookup_local (h : sc.Hold R T)
    (hf : Local f sc) (hr : sc.lookup f = some r) : R r := by
  obtain ⟨x, hx⟩ := Option.isSome_iff_exists.1 hf
  rw [Scopes.lookup, hx, Option.some_or] at hr
  cases hr
  obtain ⟨g, hg, hx⟩ := exists_of_findSome?_eq_some hx
  exact (h.inner g hg _ (mem_of_lookup hx)).2

end Scopes

namespace Program.Orderly

variable {p : Program} {h : Head} {tps : List String} {ps cps : List Param} {ls : List Decl}
  {b : Block}

/-- In the body of a control, names stand for its locals and parameters, for variables, constants
and instances of the body, and for what is declared at the toplevel. -/
theorem allHold_body (hp : p.Orderly) (hc : .control h tps ps cps ls b ∈ p.decls) :
    ∀ pl ∈ b.places ((p.top.enterControl tps ps cps).declares ls),
      pl.1.Hold (fun r => ∀ d, r = .decl d → d ∈ ls ∨ d.flaw .block = 0)
        fun r => ∃ d ∈ p.decls, r = .decl d := by
  have hin : b.visits ⊆ p.visits := fun v hv =>
    visits_subset_of_mem hc (Decl.visits_of_body? rfl hv)
  have hplain := b.plain_visits (r := True) (hp.holds hin) fun _ => trivial
  have hbrings : Brings (fun r => ∀ d, r = .decl d → d ∈ ls ∨ d.flaw .block = 0) b.visits := by
    intro v hv r hr d hd
    cases v with
    | enter e =>
      have hflaw : e.flaw .block = 0 := hplain _ hv
      subst hd
      cases e with
      | inst | var | const =>
        cases mem_singleton.1 hr
        exact .inr rfl
      | _ => cases hflaw
    | _ => cases hr
  have htop := (p.hold_top fun r => ∀ d, r = .decl d → d ∈ ls ∨ d.flaw .block = 0).2
  obtain ⟨hin, hi⟩ := Scopes.stable_hold.enterControl (htop.pushTypeParams tps) ps cps
    fun _ _ => nofun
  refine Scopes.stable_hold.block b hbrings (Scopes.stable_hold.declares hin hi fun l hl d hd => ?_)
  cases hd
  exact .inl hl

variable {pl : Place} {f : String} {d : Decl}

theorem lookup_cases (hp : p.Orderly) (hc : .control h tps ps cps ls b ∈ p.decls)
    (hpl : pl ∈ b.places ((p.top.enterControl tps ps cps).declares ls))
    (hl : pl.1.lookup f = some (.decl d)) :
    d.name = f ∧ (d ∈ ls ∨ d.flaw .block = 0 ∨ d ∈ p.decls) := by
  obtain ⟨hname, hr | ⟨d', hd', heq⟩⟩ := (hp.allHold_body hc pl hpl).lookup hl
  · exact ⟨hname, (hr d rfl).imp_right .inl⟩
  · cases heq
    exact ⟨hname, .inr (.inr hd')⟩

theorem lookup_local (hp : p.Orderly) (hc : .control h tps ps cps ls b ∈ p.decls)
    (hpl : pl ∈ b.places ((p.top.enterControl tps ps cps).declares ls)) {l : Decl} (hl : l ∈ ls)
    (hd : pl.1.lookup l.name = some (.decl d)) : d ∈ ls ∨ d.flaw .block = 0 := by
  have hne := (p.top.pushTypeParams tps).inner_push_ne
  have hne' := (Scopes.declareParams_inner (Scopes.declareParams_inner hne cps).1 ps).1
  have hlocal := (Scopes.stable_local l.name).block b (fun _ _ _ _ => trivial)
    (Scopes.local_declares hne' hl) pl hpl
  exact (hp.allHold_body hc pl hpl).lookup_local hlocal hd d rfl

end Program.Orderly

end MatchAction
