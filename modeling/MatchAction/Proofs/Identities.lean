import MatchAction.Proofs.Passes
import MatchAction.Proofs.Toplevel

namespace MatchAction

open List

/-- One program comes from another: whatever it weighs more was taken from the supply, and no
toplevel instance is lost. Flaws can be copied for nothing, so there must have been none. -/
structure Program.Follows (p : Program) (n : Nat) (p' : Program) (n' : Nat) : Prop where
  le : n ≤ n'
  weight : ∀ m : Weights, m.Silent → m.flaws.total p.visits = 0 →
    m.total p'.visits ≤ m.total p.visits + m.spent n n'
  insts : p.insts ⊆ p'.insts

namespace Weights

def counting (i : NodeId) : Weights := ⟨fun j => if j = i then 1 else 0, 0, 0, fun _ => 0⟩

theorem silent_counting (i : NodeId) : (counting i).Silent := fun _ => rfl

theorem kind_counting (i : NodeId) (s : Stmt) : (counting i).kind s = 0 := by
  cases s with
  | call t e => exact (silent_counting i).callee e
  | _ => simp [kind, counting]

theorem visit_counting (i : NodeId) (v : Visit) :
    (counting i).visit v = if v.id? = some i then 1 else 0 := by
  cases v with
  | enter d => cases d <;> simp [visit, Visit.id?, counting, Decl.id, Decl.head]
  | leave d => simp [visit, Visit.id?]
  | stmt s => rw [visit, kind_counting]; simp [Visit.id?, counting]
  | _ => simp [visit, Visit.id?, counting]

theorem total_counting (i : NodeId) (vs : List Visit) :
    (counting i).total vs = (nodeIds vs).count i := by
  induction vs with
  | nil => rfl
  | cons v vs ih =>
    rw [total_cons, ih, visit_counting]
    cases hv : v.id? with
    | none => simp [nodeIds, hv]
    | some j => simp [nodeIds, hv, count_cons, Nat.add_comm]

theorem flaws_counting (i : NodeId) (vs : List Visit) : (counting i).flaws.total vs = 0 := by
  refine total_eq_zero.2 fun v _ => ?_
  cases v with
  | enter d => cases d <;> simp [visit, counting, flaws]
  | stmt s =>
    cases s with
    | call t e => simp [visit, kind, (silent_counting i).flaws.callee e]
    | _ => simp [visit, kind, counting, flaws]
  | _ => rfl

theorem spent_counting (i : NodeId) (n n' : Nat) :
    (counting i).spent n n' = if n ≤ i.val ∧ i.val < n' then 1 else 0 := by
  have hsum (l : List Nat) : (l.map fun k => (counting i).node ⟨k⟩).sum = l.count i.val := by
    induction l with
    | nil => rfl
    | cons k l ih =>
      have hnode : (counting i).node ⟨k⟩ = if k = i.val then 1 else 0 := by
        obtain ⟨j⟩ := i
        simp [counting]
      rw [map_cons, sum_cons, ih, hnode, count_cons, Nat.add_comm]
      simp
  rw [spent, hsum, List.Nodup.count nodup_range']
  simp only [mem_range'_1]
  split <;> split <;> omega

end Weights

namespace Program.Follows

variable {p p₁ p₂ : Program} {n n₁ n₂ : Nat}

theorem refl (p : Program) (n : Nat) : p.Follows n p n :=
  ⟨Nat.le_refl n, fun m _ _ => by simp, List.Subset.refl _⟩

theorem flawless (h : p.Follows n p₁ n₁) {m : Weights} (hm : m.Silent)
    (hp : m.flaws.total p.visits = 0) : m.flaws.total p₁.visits = 0 := by
  have := h.weight m.flaws hm.flaws hp
  simpa [hp] using this

theorem trans (h : p.Follows n p₁ n₁) (h' : p₁.Follows n₁ p₂ n₂) : p.Follows n p₂ n₂ := by
  refine ⟨Nat.le_trans h.le h'.le, fun m hm hp => ?_, List.Subset.trans h.insts h'.insts⟩
  have h₁ := h.weight m hm hp
  have h₂ := h'.weight m hm (h.flawless hm hp)
  rw [m.spent_add h.le h'.le]
  omega

theorem distinct (h : p.Follows n p₁ n₁) (hp : p.Distinct n) : p₁.Distinct n₁ := by
  have hcount (i : NodeId) : (nodeIds p₁.visits).count i
      ≤ (nodeIds p.visits).count i + if n ≤ i.val ∧ i.val < n₁ then 1 else 0 := by
    have := h.weight (.counting i) (Weights.silent_counting i) (Weights.flaws_counting i _)
    rwa [Weights.total_counting, Weights.total_counting, Weights.spent_counting] at this
  have hold (i : NodeId) (hi : n ≤ i.val) : (nodeIds p.visits).count i = 0 :=
    count_eq_zero.2 fun hmem => absurd (hp.lt i hmem) (Nat.not_lt.2 hi)
  have honce (i : NodeId) : (nodeIds p.visits).count i ≤ 1 := nodup_iff_count_le_one.1 hp.nodup i
  have hle := h.le
  refine ⟨nodup_iff_count_le_one.2 fun i => ?_, fun i hi => ?_⟩
  · have hi := hcount i
    by_cases hni : n ≤ i.val
    · rw [hold i hni] at hi
      split at hi <;> omega
    · rw [if_neg fun h => hni h.1] at hi
      have := honce i
      omega
  · have hpos := count_pos_iff.2 hi
    have hi := hcount i
    by_cases hni : n ≤ i.val
    · rw [hold i hni] at hi
      split at hi <;> omega
    · omega

end Program.Follows

variable {x : Inlining (Edit Program)}

namespace Program

variable {p : Program}

theorem follows_of_affords {x : Supply (Edit Program)} (h : ∀ m : Weights, m.Silent → p.Affords m x)
    {n : Nat} (hinsts : p.insts ⊆ ((x n).1.get p).insts) :
    p.Follows n ((x n).1.get p) (x n).2 :=
  ⟨(h (.counting ⟨0⟩) (Weights.silent_counting _) n).1, fun m hm _ => by
    have := (h m hm n).2
    dsimp only at this
    omega, hinsts⟩

theorem follows_of_costsIf {ε : Type} {x : ExceptT ε Supply (Edit Program)}
    (h : ∀ m : Weights, m.Silent → Supply.CostsIf m x (m.total p.visits) fun y =>
      m.total (y.get p).visits) {n : Nat} {y : Edit Program} (hy : (x.run n).1 = .ok y)
    (hinsts : p.insts ⊆ (y.get p).insts) : p.Follows n (y.get p) (x.run n).2 :=
  ⟨(h (.counting ⟨0⟩) (Weights.silent_counting _) n).1, fun m hm _ => by
    have := (h m hm n).2 y hy
    dsimp only at this
    omega, hinsts⟩

theorem follows_of_pays
    (h : ∀ m : Weights, m.Silent → m.flaws.total p.visits = 0 →
      Ledger.idle.Pays m x (m.total p.visits) fun y => m.total (y.get p).visits)
    (hinsts : p.insts ⊆ ((x ds n).1.1.get p).insts) :
    p.Follows n ((x ds n).1.1.get p) (x ds n).2 := by
  refine ⟨(h (.counting ⟨0⟩) (Weights.silent_counting _) (Weights.flaws_counting _ _)).le ds n,
    fun m hm hp => ?_, hinsts⟩
  have := (@(h m hm hp).covered ds n trivial trivial).2
  simp only [Ledger.idle] at this
  omega

end Program

def Inlining.Follows (p : Program) (x : Inlining (Edit Program)) : Prop :=
  ∀ ds n, p.Distinct n → p.Follows n ((x ds n).1.1.get p) (x ds n).2

def Inlining.FollowsIf (p q : Program) (x : ExceptT Dependency.Cycle Inlining (Edit Program)) :
    Prop :=
  ∀ ds n, q.Distinct n → ∀ y, (x.run ds n).1.1 = .ok y → q.Follows n (y.get p) (x.run ds n).2

namespace Inlining

variable {p : Program}

theorem follows_keep : Follows p (pure .keep) := fun _ n _ => .refl p n

theorem Follows.of_get (h : ∀ ds, Follows p (f ds)) :
    Follows p (get >>= f) := fun ds n hp => h ds ds n hp

theorem Follows.andThen {f : Edit Program → Inlining (Edit Program)}
    (hx : Follows p x) (hf : ∀ a, Follows (a.get p) (f a)) :
    Follows p (do let a ← x; return a.andThen (← f a)) := by
  intro ds n hp
  have hfirst := hx ds n hp
  have hsecond := hf (x ds n).1.1 (x ds n).1.2 (x ds n).2 (hfirst.distinct hp)
  simp only [Supply.stateT_bind_apply, Supply.stateT_pure_apply, Edit.get_andThen]
  exact hfirst.trans hsecond

variable {q : Program}

theorem FollowsIf.pure (h : a.get p = q) : FollowsIf p q (Pure.pure a) := by
  intro ds n _ y hy
  cases hy
  rw [h]
  exact .refl q n

theorem FollowsIf.throw (e : Dependency.Cycle) : FollowsIf p q (MonadExcept.throw e) :=
  fun _ _ _ _ hy => nomatch hy

theorem FollowsIf.of_get
    (h : ∀ ds, FollowsIf p q (f ds)) : FollowsIf p q (getThe Diagnostics >>= f) :=
  fun ds n hq => h ds ds n hq

theorem FollowsIf.of_recheck
    (q' : Program) (h : ∀ c, FollowsIf p q (f c)) : FollowsIf p q (liftM (recheck q') >>= f) :=
  fun ds n hq => h q'.check (ds.extend q'.check.diagnostics) n hq

theorem FollowsIf.of_follows (hx : Follows p x)
    (hf : ∀ a, FollowsIf p (a.get p) (f a)) : FollowsIf p p (liftM x >>= f) := by
  intro ds n hp y hy
  have hfirst := hx ds n hp
  exact hfirst.trans (hf _ _ _ (hfirst.distinct hp) y hy)

theorem FollowsIf.andThen {x : ExceptT Dependency.Cycle Inlining (Edit Program)} {a : Edit Program}
    (hx : FollowsIf (a.get p) (a.get p) x) :
    FollowsIf p (a.get p) (do return a.andThen (← x)) := by
  intro ds n hp y hy
  have hrun : (do return a.andThen (← x) : ExceptT Dependency.Cycle Inlining (Edit Program)).run ds
    n = (((x.run ds n).1.1.map a.andThen, (x.run ds n).1.2), (x.run ds n).2) := by
    change (ExceptT.bindCont (fun b => Pure.pure (a.andThen b)) (x.run ds n).1.1 :
      Inlining (Except Dependency.Cycle (Edit Program))) (x.run ds n).1.2 (x.run ds n).2 = _
    cases (x.run ds n).1.1 <;> rfl
  rw [hrun] at hy ⊢
  rcases hres : (x.run ds n).1.1 with e | b
  · rw [hres] at hy
    cases hy
  · rw [hres] at hy
    cases hy
    rw [Edit.get_andThen]
    exact hx ds n hp b hres

end Inlining

theorem ActionInlining.follows_callers (w : WorkList) (callers : List NodeId) (p : Program) :
    Inlining.Follows p (ActionInlining.callers w callers p) := by
  induction callers generalizing p with
  | nil => exact Inlining.follows_keep
  | cons caller callers ih =>
    refine .of_get fun ds => ?_
    split
    · exact Inlining.follows_keep
    · refine .andThen (fun ds n hp => ?_) fun a => ih (a.get p)
      exact Program.follows_of_pays (fun m hm hflaws => pays_into hm hp.nodup hflaws caller _)
        (insts_into hp.nodup caller _ ds n)

namespace ControlInlining

theorem follows_round (style : InlineStyle) (w : WorkList) (callers : List NodeId) (p : Program) :
    Inlining.Follows p (round style w callers p) := by
  induction callers generalizing p with
  | nil => exact Inlining.follows_keep
  | cons caller callers ih =>
    refine .of_get fun ds => ?_
    split
    · exact Inlining.follows_keep
    · have hinto (edges : List InlineEdge) : Inlining.Follows p (into style caller edges p) :=
        fun ds n hp => Program.follows_of_pays
          (fun m hm hflaws => pays_into hm style hp.nodup hflaws caller edges)
          (insts_into style hp.nodup caller edges ds n)
      dsimp only
      split
      · exact .andThen Inlining.follows_keep fun a => ih (a.get p)
      · exact .andThen (hinto _) fun a => ih (a.get p)

theorem follows_rounds (style : InlineStyle) (sources : SourceMap) (fuel : Nat) (w : WorkList)
    (p : Program) : Inlining.FollowsIf p p (rounds style sources fuel w p) := by
  induction fuel generalizing w p with
  | zero =>
    rw [rounds]
    exact .pure rfl
  | succ fuel ih =>
    rw [rounds]
    split
    · exact .pure rfl
    · refine .of_follows (follows_round style w w.callers p) fun x => .of_get fun ds => ?_
      split
      · exact .pure rfl
      · refine .of_recheck _ fun c => .of_get fun ds => ?_
        split
        · exact .pure rfl
        · cases discover c.refs sources (x.get p) with
          | error e => exact Inlining.FollowsIf.throw e
          | ok w' => exact Inlining.FollowsIf.andThen (ih w' (x.get p))

end ControlInlining

theorem eq_ok_of_mapError {ε ε' α : Type} {f : ε → ε'} {x : Except ε α} {a : α}
    (h : x.mapError f = .ok a) : x = .ok a := by
  cases x with
  | error e => cases h
  | ok b =>
    cases h
    rfl

namespace Pass

theorem Stock.follows {pass : Pass} (hpass : pass.Stock) {b : Boundary} {x : Edit Program}
    {c : Context} {n : Nat} (h : pass.runAt b = ((.ok x, c), n))
    (hb : b.program.Distinct b.supply) :
    b.program.Follows b.supply (x.get b.program) n := by
  cases hpass with
  | typeChecking =>
    cases h
    exact .refl _ _
  | evaluator =>
    rw [runAt_evaluator] at h
    split at h <;> cases h
    exact .refl _ _
  | uniqueNames =>
    cases h
    exact Program.follows_of_affords (fun m hm => b.program.affords_uniqueNames hm _ _)
      (Program.insts_uniqueNames hb.nodup _ _ _)
  | moveDeclarations =>
    cases h
    exact Program.follows_of_affords (fun m hm => b.program.affords_hoistVariables hm)
      (b.program.insts_hoistVariables _)
  | removeReturns =>
    cases h
    exact Program.follows_of_affords (fun m hm => b.program.affords_removeReturns)
      (b.program.insts_removeReturns _)
  | removeUnused =>
    cases h
    exact Program.follows_of_affords (fun m hm => b.program.affords_removeUnused hm _)
      (b.program.insts_removeUnused _ _)
  | simplifyFlow =>
    cases h
    exact Program.follows_of_affords
      (fun m hm => b.program.affords_simplifyFlow (Editor.calls_of_silent _ hm))
      (b.program.insts_simplifyFlow _)
  | foldConstants =>
    cases h
    exact Program.follows_of_affords
      (fun m hm => b.program.affords_foldConstants (Editor.calls_of_silent _ hm))
      (b.program.insts_foldConstants _)
  | reduceStrength =>
    cases h
    exact Program.follows_of_affords (fun m hm => b.program.affords_reduceStrength hm)
      (b.program.insts_reduceStrength _)
  | simplifyKeys policy =>
    cases h
    exact Program.follows_of_affords (fun m hm => b.program.affords_simplifyKeys hm _ _ _ _)
      (b.program.insts_simplifyKeys _ _ _ _ _)
  | synthesizeActions =>
    rw [runAt_synthesizeActions] at h
    obtain rfl := congrArg Prod.snd h
    have hx := eq_ok_of_mapError (congrArg (·.1.1) h)
    exact Program.follows_of_costsIf (fun m hm => b.program.costs_synthesizeActions hm _ _ _) hx
      (Actions.insts_program hx)
  | tableActions =>
    rw [runAt_tableActions] at h
    obtain rfl := congrArg Prod.snd h
    have hx := eq_ok_of_mapError (congrArg (·.1.1) h)
    exact Program.follows_of_costsIf (fun m hm => b.program.costs_tableActions hm _ _ _) hx
      (Actions.insts_program hx)
  | discoverControls slot =>
    rw [runAt_discoverControls] at h
    split at h <;> cases h
    exact .refl _ _
  | inlineControls style slot =>
    obtain ⟨⟨w, c'⟩, hw⟩ : ∃ r, b.context.takeWork slot = r := ⟨_, rfl⟩
    rw [runAt_inlineControls b style slot hw] at h
    obtain rfl := congrArg Prod.snd h
    have hx : ((b.program.inlineControls style c'.sources w).run.run c'.diagnostics b.supply).1.1
        = .ok x := eq_ok_of_mapError (congrArg (·.1.1) h)
    exact ControlInlining.follows_rounds style c'.sources _ w b.program c'.diagnostics
      b.supply hb x hx
  | discoverActions slot =>
    rw [runAt_discoverActions] at h
    dsimp only at h
    split at h <;> cases h
    exact .refl _ _
  | inlineActions slot =>
    rw [runAt_inlineActions b slot rfl] at h
    cases h
    exact ActionInlining.follows_callers _ _ _ _ _ hb

inductive Chain : Program → Nat → Program → Nat → Prop
  | nil (p : Program) (n : Nat) : Chain p n p n
  | cons {pass : Pass} {p p' : Program} {n n₁ n' : Nat} {c c₁ : Context} {x : Edit Program}
    (stock : pass.Stock) (run : pass.runAt ⟨p, c, n⟩ = ((.ok x, c₁), n₁))
    (rest : Chain (x.get p) n₁ p' n') : Chain p n p' n'

theorem Chain.follows {p p' : Program} {n n' : Nat} (h : Chain p n p' n') (hp : p.Distinct n) :
    p.Follows n p' n' := by
  induction h with
  | nil p n => exact .refl p n
  | cons stock run rest ih =>
    have hfirst := stock.follows run hp
    exact hfirst.trans (ih (hfirst.distinct hp))

/-- Identities stay distinct through any passes in any order, and the supply stays ahead of them. -/
theorem distinct_of_chain {p p' : Program} {n n' : Nat} (h : Chain p n p' n') (hp : p.Distinct n) :
    p'.Distinct n' := (h.follows hp).distinct hp

def appliedTwice : Program :=
  let apply (i : Nat) : Stmt := .call ⟨⟨i⟩, none⟩ (.call ⟨⟨i + 1⟩, none⟩
    (.member ⟨⟨i + 2⟩, none⟩ (.path ⟨⟨i + 3⟩, none⟩ "t") "apply") [] [])
  let sum : Expr := .binary ⟨⟨4⟩, none⟩ .add (.path ⟨⟨5⟩, none⟩ "x") (.path ⟨⟨6⟩, none⟩ "x")
  ⟨[.control ⟨⟨0⟩, "c", none⟩ [] [⟨⟨1⟩, "x", .inout, .bits 8 false, none⟩] []
    [.table ⟨⟨2⟩, "t", none⟩ [⟨⟨3⟩, sum, "exact"⟩] [] none] (.mk ⟨7⟩ [apply 8, apply 12])]⟩

theorem distinct_of_chain_appliedTwice :
    appliedTwice.Distinct 16 ∧ ∃ x c n, (simplifyKeys .nonLeftValue).runAt
        ⟨appliedTwice, (Context.new .empty .standard).refresh appliedTwice, 16⟩ = ((.ok x, c), n) ∧
      (nodeIds (x.get appliedTwice).visits).length = 24 ∧ (x.get appliedTwice).Distinct n := by
  have hids : appliedTwice.Distinct 16 := ⟨by decide, by decide⟩
  exact ⟨hids, _, _, _, rfl, by decide +kernel,
    distinct_of_chain (.cons (.simplifyKeys _) rfl (.nil _ _)) hids⟩

end Pass

end MatchAction
