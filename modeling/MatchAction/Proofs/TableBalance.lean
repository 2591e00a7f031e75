import Mathlib.Algebra.Order.BigOperators.Group.Finset
import MatchAction.Proofs.Balance
import MatchAction.Proofs.Equality
import MatchAction.Proofs.Resolution

namespace MatchAction

namespace Insertions

def owners (i : Insertions) : Finset NodeId := (i.pending.entries.map (·.1)).toFinset

def owed (m : Weights) (i : Insertions) (owner : NodeId) : Nat :=
  m.decls .toplevel (i.of owner).decls + if owner ∈ i.placed then 0 else m.stmts (i.of owner).stmts

/-- All that can still be given without copying. What was recorded has no flaws, so copies of the
statements weigh nothing else than their identities, and the declarations belong everywhere. -/
def ledger (m : Weights) : Ledger Insertions where
  held i := ∑ owner ∈ i.owners, i.owed m owner
  sound i := ∀ owner, (∀ spot, Decl.flaws spot (i.of owner).decls = 0) ∧
    m.flaws.stmts (i.of owner).stmts = 0
  valid _ := True

variable {m : Weights} {i : Insertions}

variable {owner : NodeId}

theorem of_eq_of_get?_eq_none (h : i.pending.get? owner = none) :
    i.of owner = ⟨[], []⟩ := by
  rw [of, h, Option.getD_none]

theorem owed_of_not_mem_owners (h : owner ∉ i.owners) : i.owed m owner = 0 := by
  have hget : i.pending.get? owner = none := by
    refine List.lookup_eq_none_iff.2 fun x hx => ?_
    rw [bne_iff_ne]
    rintro rfl
    exact h (List.mem_toFinset.2 (List.mem_map_of_mem hx))
  simp [owed, of_eq_of_get?_eq_none hget]

theorem held_update (i i' : Insertions)
    (h : ∀ other, other ≠ owner → i'.owed m other = i.owed m other) :
    (ledger m).held i' + i.owed m owner = (ledger m).held i + i'.owed m owner := by
  have hall (j : Insertions) (hj : j.owners ⊆ insert owner (i.owners ∪ i'.owners)) :
      (ledger m).held j = ∑ k ∈ insert owner (i.owners ∪ i'.owners), j.owed m k :=
    Finset.sum_subset hj fun k _ hk => owed_of_not_mem_owners hk
  have hmem : owner ∈ insert owner (i.owners ∪ i'.owners) := Finset.mem_insert_self ..
  rw [hall i (Finset.subset_union_left.trans (Finset.subset_insert ..)),
    hall i' (Finset.subset_union_right.trans (Finset.subset_insert ..)),
    ← Finset.add_sum_erase _ (fun k => i.owed m k) hmem,
    ← Finset.add_sum_erase _ (fun k => i'.owed m k) hmem]
  have hothers : ∑ k ∈ (insert owner (i.owners ∪ i'.owners)).erase owner, i'.owed m k
      = ∑ k ∈ (insert owner (i.owners ∪ i'.owners)).erase owner, i.owed m k :=
    Finset.sum_congr rfl fun k hk => h k (Finset.ne_of_mem_erase hk)
  omega

theorem of_record (i : Insertions) (owner other : NodeId) (d : Decl) (s : Stmt) :
    (i.record owner d s).of other =
      if other = owner then ⟨(i.of owner).decls ++ [d], (i.of owner).stmts ++ [s]⟩
      else i.of other := by
  simp only [of, record, NodeMap.get?_insert]
  split <;> rfl

theorem held_record (i : Insertions) (owner : NodeId) (d : Decl) (s : Stmt) :
    (ledger m).held (i.record owner d s) ≤ (ledger m).held i + m.placed .toplevel d + m.stmt s := by
  have hupdate := held_update (m := m) i (i.record owner d s) fun other hne => by
    rw [owed, owed, of_record, if_neg hne]
    rfl
  have howed : (i.record owner d s).owed m owner ≤ i.owed m owner + m.placed .toplevel d +
      m.stmt s := by
    have hplaced : (i.record owner d s).placed = i.placed := rfl
    rw [owed, owed, of_record, if_pos rfl, hplaced]
    split
    · simp
    · simp
      omega
  omega

theorem sound_record (h : (ledger m).sound i) (owner : NodeId)
    (hd : ∀ spot, d.flaw spot = 0) (hs : m.flaws.stmt s = 0) :
    (ledger m).sound (i.record owner d s) := by
  intro other
  rw [of_record]
  split
  · obtain ⟨hds, hss⟩ := h owner
    simp_all [Decl.flaws]
  · exact h other

theorem of_flush (i : Insertions) (owner other : NodeId) :
    (i.flush owner).2.of other = if other = owner then ⟨[], (i.of owner).stmts⟩ else
      i.of other := by
  unfold flush
  split
  · rename_i entry hget
    have hentry : i.of owner = entry := by rw [of, hget, Option.getD_some]
    rw [hentry, of, NodeMap.get?_insert]
    split <;> rfl
  · rename_i hget
    split
    · rename_i heq
      rw [heq, of_eq_of_get?_eq_none hget]
    · rfl

theorem flush_fst (i : Insertions) (owner : NodeId) : (i.flush owner).1 = (i.of owner).decls := by
  unfold flush
  split
  · rename_i entry hget
    rw [of, hget, Option.getD_some]
  · rename_i hget
    rw [of_eq_of_get?_eq_none hget]

theorem held_flush (i : Insertions) (owner : NodeId) :
    (ledger m).held (i.flush owner).2 + m.decls .toplevel (i.flush owner).1 =
      (ledger m).held i := by
  have hplaced : (i.flush owner).2.placed = i.placed := by
    unfold flush
    split <;> rfl
  have hupdate := held_update (m := m) i (i.flush owner).2 fun other hne => by
    rw [owed, owed, of_flush, if_neg hne, hplaced]
  have howed : i.owed m owner
      = (i.flush owner).2.owed m owner + m.decls .toplevel (i.flush owner).1 := by
    rw [owed, owed, of_flush, if_pos rfl, hplaced, flush_fst]
    dsimp only
    rw [m.decls_nil]
    omega
  omega

theorem sound_flush (h : (ledger m).sound i) (owner : NodeId) :
    (ledger m).sound (i.flush owner).2 := by
  intro other
  rw [of_flush]
  split
  · exact ⟨fun _ => rfl, (h owner).2⟩
  · exact h other

theorem held_place (i : Insertions) (owner : NodeId) :
    (ledger m).held { i with placed := owner :: i.placed }
      + (if owner ∈ i.placed then 0 else m.stmts (i.of owner).stmts) = (ledger m).held i := by
  have hof (other : NodeId) : of { i with placed := owner :: i.placed } other = i.of other := rfl
  have hupdate := held_update (m := m) i { i with placed := owner :: i.placed }
    fun other (hne : other ≠ owner) => by simp [owed, hof, hne]
  have howed : i.owed m owner = owed m { i with placed := owner :: i.placed } owner
      + (if owner ∈ i.placed then 0 else m.stmts (i.of owner).stmts) := by
    simp [owed, hof]
  omega

theorem pays_before (hm : m.Silent) (owners : List NodeId) :
    (ledger m).Pays m (before owners) 0 fun ss => m.stmts ss := by
  induction owners with
  | nil => exact .pure (Int.le_refl _)
  | cons owner owners ih =>
    refine .of_at fun i => .of_get ?_
    have hplace := held_place (m := m) i owner
    have hrest (here : List Stmt) : (ledger m).Pays m
        (do return here ++ (← before owners)) (m.stmts here) fun ss => m.stmts ss :=
      ih.andReturn (m.stmts here) (fun ss => by simp; omega) (by omega)
    dsimp only
    split
    · rename_i hplaced
      refine (Ledger.PaysAt.lift_bind (Stmt.costs_copies hm _) 0 fun here => ?_).weaken fun hs => ?_
      · split
        · refine .step (fun _ => rfl) id (fun _ _ => trivial) (.of_pays (hrest here)) fun _ => ?_
          simp only [List.contains_iff_mem.1 hplaced, if_true] at hplace
          omega
        · exact .of_pays ((hrest here).weaken (by omega))
      · rw [(hs owner).2]
        exact Int.le_refl _
    · rename_i hplaced
      have hplaced : owner ∉ i.placed := fun h => hplaced (List.contains_iff_mem.2 h)
      rw [pure_bind]
      split
      · refine .step (fun _ => rfl) id (fun _ _ => trivial) (.of_pays (hrest _)) fun _ => ?_
        rw [if_neg hplaced] at hplace
        omega
      · rename_i hget
        rw [of_eq_of_get?_eq_none (by simpa using hget)]
        exact .of_pays (hrest [])

end Insertions

namespace Keys

def ledger (m : Weights) : Ledger State :=
  ⟨fun st => (Insertions.ledger m).held st.insertions,
    fun st => (Insertions.ledger m).sound st.insertions, fun _ => True⟩

variable {m : Weights}

theorem pays_before (hm : m.Silent) (owners : List NodeId) :
    (ledger m).Pays m (before owners) 0 fun ss => m.stmts ss :=
  have h := Insertions.pays_before hm owners
  ⟨fun st n => h.le st.insertions n, fun hs => h.sound hs, fun hs _ => h.covered hs trivial⟩

theorem pays_newName (base : String) : (ledger m).Pays m (newName base) 0 fun _ => 0 :=
  .of_at fun _ => .of_get (.step (fun _ => rfl) id (fun _ _ => trivial)
    (.of_pays (.pure (Int.le_refl _))) fun _ => Int.le_refl _)

theorem pays_temporary (base : String) (table : NodeId) (e : Expr) (ty : TypeExpr) :
    (ledger m).Pays m (temporary base table e ty) (m.expr e) fun e => m.expr e := by
  refine (pays_newName base).free fun name => ?_
  refine (Ledger.Pays.lift (costs_head m name e.span)).free fun h => ?_
  refine (Ledger.Pays.lift (costs_tag m e.span)).free fun t => ?_
  refine (Ledger.Pays.lift (costs_tag m e.span)).free fun t' => .of_at fun st => ?_
  have hd (spot : Spot) : (Decl.var h ty none).flaw spot = 0 := by cases spot <;> rfl
  refine .step (fun _ => rfl) (fun hs => Insertions.sound_record hs table hd (by simp))
    (fun _ _ => trivial) (.of_pays ((Ledger.Pays.lift (costs_tag m e.span)).andReturn 0
      (fun t => by simp) (Int.le_refl _))) fun _ => ?_
  have hheld := Insertions.held_record (m := m) st.insertions table (.var h ty none)
    (.assign t' (.path t name) e)
  simp only [ledger]
  simp only [m.placed_var, m.expr?_none, m.stmt_assign, m.expr_path] at hheld
  omega

theorem fair_editor (policy : KeyPolicy) (refs : Refs) (types : Types) (base : String)
    (hm : m.Silent) : (editor policy refs types base).Fair (ledger m) m.prices m := by
  refine .of_hooks (Editor.calls_of_silent _ hm) (fun _ => rfl) (fun _ => rfl)
    (fun d st n => .inl ?_) (fun d => ?_) (fun spot d => ?_) (fun s => ?_) Editor.pays_keepBlock
    (fun k => ?_) Editor.pays_keepExpr
  · simp only [editor]
    split <;> rfl
  · simp only [editor]
    split
    · refine .of_at fun st => .step (fun _ => rfl) id (fun _ _ => trivial)
        (.of_pays (.pure (Int.le_refl _))) fun _ => Int.le_refl _
    · exact .pure (Int.le_refl _)
  · simp only [editor]
    split
    · exact Editor.pays_keepDecl spot d
    · refine .of_at fun st => .of_get ?_
      refine .step (fun _ => rfl) (fun hs => Insertions.sound_flush hs d.id) (fun _ _ => trivial)
        (.of_pays (.pure (Int.le_refl _))) fun hs => ?_
      have hheld := Insertions.held_flush (m := m) st.insertions d.id
      have hdecls : m.decls spot (st.insertions.flush d.id).1
          = m.decls .toplevel (st.insertions.flush d.id).1 := by
        rw [Weights.decls, Weights.decls, Insertions.flush_fst, (hs d.id).1, (hs d.id).1]
      simp [ledger, Function.comp_def, hdecls]
      omega
  · simp only [editor]
    refine .of_at fun st => .of_get (.of_pays ?_)
    refine (pays_before hm _).andReturn (m.stmt s) (fun ss => ?_) (by omega)
    simp [Function.comp_def]
  · simp only [editor]
    refine .of_at fun st => .of_get ?_
    split
    · split
      · exact .of_pays ((pays_temporary base _ k.expr _).andReturn (m.node k.id)
          (fun e => by simp [Key.kept]; omega) (by simp; omega))
      · exact .of_pays (Editor.pays_keepKey k)
    · exact .of_pays (Editor.pays_keepKey k)

end Keys

theorem Program.affords_simplifyKeys (hm : m.Silent) (policy : KeyPolicy) (refs : Refs)
    (types : Types) (base : String) (p : Program) :
    p.Affords m (p.simplifyKeys policy refs types base) :=
  (Keys.fair_editor policy refs types base hm).affords p ⟨.ofProgram p, .empty, none⟩
    (fun _ => ⟨fun _ => rfl, rfl⟩) (fun _ => trivial) rfl

namespace Keys

def sum (i : Nat) : Expr := .binary ⟨⟨i⟩, none⟩ .add (.path ⟨⟨i + 1⟩, none⟩ "x")
    (.path ⟨⟨i + 2⟩, none⟩ "x")

def application (i : Nat) : Expr :=
  .call ⟨⟨i⟩, none⟩ (.member ⟨⟨i + 1⟩, none⟩ (.path ⟨⟨i + 2⟩, none⟩ "t") "apply") [] []

def around (locals : List Decl) (ss : List Stmt) : Program := ⟨[.control ⟨⟨0⟩, "c", none⟩ []
  [⟨⟨1⟩, "b", .inout, .bool, none⟩, ⟨⟨2⟩, "x", .input, .bits 8 false, none⟩] [] locals
    (.mk ⟨8⟩ ss)]⟩

def table (column : Expr) : Decl := .table ⟨⟨3⟩, "t", none⟩ [⟨⟨4⟩, column, "exact"⟩] [] none

def read : Stmt := .assign ⟨⟨9⟩, none⟩ (.path ⟨⟨10⟩, none⟩ "b")
    (.member ⟨⟨11⟩, none⟩ (application 12) "hit")

def asked : Program := around [table (sum 5)] [read]

/-- Nothing is assigned to the temporary before an assignment that applies the table. -/
theorem read_unassigned : asked.Distinct 15 ∧ asked.ids.Nodup ∧ asked.check.errors = [] ∧
    (asked.simplifyKeys .nonLeftValue asked.check.refs asked.check.types "tmp" 15).1.get asked =
      around [.var ⟨⟨15⟩, "tmp", none⟩ (.bits 8 false) none, table (.path ⟨⟨18⟩, none⟩ "tmp")]
        [read] :=
  ⟨⟨by decide, by decide⟩, by decide, List.isEmpty_iff.1 (by decide +kernel), by decide +kernel⟩

def hideType (locals : List Decl) (ss : List Stmt) : Program :=
  ⟨[.header ⟨⟨0⟩, "H", none⟩ [⟨.bits 8 false, "f"⟩],
    .control ⟨⟨1⟩, "c", none⟩ [] [⟨⟨2⟩, "h", .input, .named "H", none⟩] []
      (.var ⟨⟨5⟩, "H", none⟩ (.bits 8 false) none :: locals) (.mk ⟨8⟩ ss)]⟩

def hidden : Program := hideType [table (.path ⟨⟨6⟩, none⟩ "h")] [.call ⟨⟨7⟩, none⟩ (application 9)]

def placed : Program := hideType
  [.var ⟨⟨12⟩, "tmp", none⟩ (.named "H") none, table (.path ⟨⟨15⟩, none⟩ "tmp")]
  [.assign ⟨⟨14⟩, none⟩ (.path ⟨⟨13⟩, none⟩ "tmp") (.path ⟨⟨6⟩, none⟩ "h"),
    .call ⟨⟨7⟩, none⟩ (application 9)]

/-- The temporary gets the type of the column by its name, which stands for the variable there. -/
theorem type_hidden : hidden.check.errors = [] ∧
    (hidden.simplifyKeys (fun _ _ _ => true) hidden.check.refs hidden.check.types "tmp" 12).1.get
      hidden = placed ∧
    placed.check.errors.isEmpty = false :=
  ⟨List.isEmpty_iff.1 (by decide +kernel), by decide +kernel, by decide +kernel⟩

end Keys

def Supply.CostsIf {ε α : Type} (m : Weights) (x : ExceptT ε Supply α) (paid : Int)
    (out : α → Int) : Prop :=
  ∀ n, n ≤ (x.run n).2 ∧ ∀ a, (x.run n).1 = .ok a → out a ≤ paid + m.spent n (x.run n).2

namespace Supply.CostsIf

variable {ε α β : Type} {m : Weights} {x : ExceptT ε Supply α} {f : α → ExceptT ε Supply β}
  {p p' : Int} {q : α → Int} {r : β → Int}

theorem pure (h : q a ≤ p) : CostsIf m (Pure.pure a : ExceptT ε Supply α) p q := by
  refine fun n => ⟨Nat.le_refl n, fun b hb => ?_⟩
  cases hb
  simpa using h

theorem bind (hx : CostsIf m x p q) (rest : Int) (hf : ∀ a, CostsIf m (f a) (q a + rest) r) :
    CostsIf m (x >>= f) (p + rest) r := by
  intro n
  obtain ⟨hle, hpaid⟩ := hx n
  rcases hrun : x.run n with ⟨e | a, n₁⟩
  · have hthrow : (x >>= f).run n = (.error e, n₁) := by
      rw [ExceptT.run_bind, Supply.bind_apply, hrun]
      rfl
    rw [hthrow]
    rw [hrun] at hle
    exact ⟨hle, fun _ h => nomatch h⟩
  · have hnext : (x >>= f).run n = (f a).run n₁ := by
      rw [ExceptT.run_bind, Supply.bind_apply, hrun]
    rw [hrun] at hle hpaid
    obtain ⟨hle', hf⟩ := hf a n₁
    rw [hnext]
    refine ⟨Nat.le_trans hle hle', fun b hb => ?_⟩
    have hfirst := hpaid a rfl
    have hsecond := hf b hb
    dsimp only at hfirst
    rw [m.spent_add hle hle']
    push_cast
    omega

theorem weaken (hx : CostsIf m x p q) (hp : p ≤ p') : CostsIf m x p' q := by
  refine fun n => ⟨(hx n).1, fun a ha => ?_⟩
  have := (hx n).2 a ha
  omega

theorem consDecls {spot : Spot} {d : Decl} {ds : List Decl}
    {x : StateT Names (ExceptT ε Supply) (Edit Decl)}
    {y : StateT Names (ExceptT ε Supply) (Edit (List Decl))}
    (hx : ∀ names, CostsIf m (x names) (m.placed spot d) fun r => m.placed spot (r.1.get d))
    (hy : ∀ names, CostsIf m (y names) (m.decls spot ds) fun r => m.decls spot (r.1.get ds))
    (names : Names) :
    CostsIf m ((x >>= fun x => y >>= fun y => Pure.pure (x.map₂ (· :: ·) d ds y)) names)
      (m.decls spot (d :: ds)) fun r => m.decls spot (r.1.get (d :: ds)) := by
  refine ((hx names).bind (m.decls spot ds) fun r => ?_).weaken (by rw [m.decls_cons]; omega)
  refine ((hy r.2).bind (m.placed spot (r.1.get d)) fun r' => .pure ?_).weaken (by omega)
  rw [Edit.get_map₂, m.decls_cons]
  omega

end Supply.CostsIf

namespace Actions

def ledger (m : Weights) : Ledger State :=
  ⟨fun st => m.decls .control st.added, fun _ => True, fun st => st.error = none⟩

variable {m : Weights}

theorem pays_fail (err : ClassificationError) (p : Int) (q : Unit → Int) :
    (ledger m).Pays m (fail err) p q where
  le _ _ := Nat.le_refl _
  sound := id
  covered {st n} _ hv := by
    have hbroken : ((fail err) st n).1.2.error ≠ none := by
      change (st.error.or (some err)) ≠ none
      cases st.error <;> exact Option.some_ne_none _
    exact absurd hv hbroken

theorem pays_newName (base : String) : (ledger m).Pays m (newName base) 0 fun _ => 0 :=
  .of_at fun _ => .of_get (.step (fun _ => rfl) id (fun _ => id)
    (.of_pays (.pure (Int.le_refl _))) fun _ => Int.le_refl _)

theorem pays_add (d : Decl) : (ledger m).Pays m (add d) (m.placed .control d) fun _ => 0 := by
  refine ⟨fun _ _ => Nat.le_refl _, id, fun {st n} _ hv => ⟨hv, ?_⟩⟩
  have hadded : ((add d) st n).1.2.added = st.added ++ [d] := rfl
  have hsupply : ((add d) st n).2 = n := rfl
  simp only [ledger, hadded, hsupply, m.decls_append, m.decls_cons, m.decls_nil, m.spent_self]
  omega

theorem pays_works (refs : Refs) (types : Types) (s : Stmt) :
    (ledger m).Pays m (works refs types s) 0 fun _ => 0 := by
  unfold works
  split
  · exact .pure (Int.le_refl _)
  · split
    · split <;> exact .pure (Int.le_refl _)
    · exact (pays_fail _ 0 fun _ => 0).andReturn 0 (fun _ => Int.le_refl _) (Int.le_refl _)
  · exact .pure (Int.le_refl _)

theorem costs_callOf (hm : m.Silent) (name : String) (span : Option Span) :
    Supply.Costs m (callOf name span) 0 fun s => m.stmt s := by
  refine (costs_tag m span).free fun t => (costs_tag m span).free fun t' => ?_
  refine (costs_tag m span).free fun t'' => .pure ?_
  simp [hm.callee]
  omega

theorem pays_synthesize (hm : m.Silent) (first : Stmt) (run : List Stmt) :
    (ledger m).Pays m (synthesize first run) (m.stmts run) fun s => m.stmt s := by
  refine (pays_newName _).free fun name => ?_
  refine (Ledger.Pays.lift (costs_head m name first.span)).free fun h => ?_
  refine (Ledger.Pays.lift (costs_freshId m)).free fun i => ?_
  refine ((pays_add (.action h [] (.mk i run))).bind 0 fun _ => ?_).weaken ?_
  · exact .lift ((costs_callOf hm name first.span).weaken (by omega))
  · simp [Weights.placed, Decl.flaw]
    omega

theorem pays_close (hm : m.Silent) (run : List Stmt) :
    (ledger m).Pays m (close run) (m.stmts run) fun ss => m.stmts ss := by
  cases run with
  | nil => exact .pure (Int.le_refl _)
  | cons s ss => exact (pays_synthesize hm s (s :: ss)).andReturn 0 (fun s => by simp) (by omega)

theorem pays_regroup (hm : m.Silent) (refs : Refs) (types : Types) (run ss : List Stmt) :
    (ledger m).Pays m (regroup refs types run ss) (m.stmts run + m.stmts ss) fun r =>
      if r.2 then m.stmts r.1 else max (m.stmts r.1) (m.stmts run + m.stmts ss) := by
  induction ss generalizing run with
  | nil =>
    cases run with
    | nil => exact .pure (by simp)
    | cons s run => exact (pays_close hm (s :: run)).andReturn 0 (fun ss => by simp) (by simp)
  | cons s ss ih =>
    rw [regroup]
    refine (pays_works refs types s).free fun does => ?_
    split
    · refine (ih (run ++ [s])).mono (by simp; omega) fun r => ?_
      simp only [m.stmts_append, m.stmts_cons, m.stmts_nil]
      split <;> omega
    · refine ((pays_close hm run).bind (m.stmts (s :: ss)) fun front => ?_).weaken (by omega)
      refine (ih []).andReturn (m.stmts front + m.stmt s) (fun r => ?_) (by simp; omega)
      cases run with
      | nil =>
        simp only [List.isEmpty_nil, Bool.not_true, Bool.or_false, m.stmts_append, m.stmts_cons,
          m.stmts_nil]
        split <;> (push_cast; omega)
      | cons s' run =>
        simp only [List.isEmpty_cons, Bool.not_false, Bool.or_true, m.stmts_append, m.stmts_cons,
          if_true]
        split <;> (push_cast; omega)

theorem pays_wrapBranch (hm : m.Silent) (refs : Refs) (types : Types) (s : Stmt) :
    (ledger m).Pays m (wrapBranch refs types s) (m.stmt s) fun x => m.stmt (x.get s) := by
  refine (pays_works refs types s).free fun does => ?_
  split
  · exact (pays_synthesize hm s [s]).andReturn 0 (fun s => by simp) (by simp)
  · exact .pure (by simp)

theorem fair_synthesis (hm : m.Silent) (refs : Refs) (types : Types) :
    (synthesis refs types).Fair (ledger m) m.prices m := by
  refine .of_hooks (Editor.calls_of_silent _ hm) (fun _ => rfl) (fun _ => rfl)
    (fun _ _ _ => .inl rfl) (fun _ => .pure (Int.le_refl _)) Editor.pays_keepDecl (fun s => ?_)
    (fun b => ?_) Editor.pays_keepKey Editor.pays_keepExpr
  · simp only [synthesis]
    split
    · rename_i t c a
      refine (pays_wrapBranch hm refs types a).andReturn (m.node t.id + m.expr c) (fun x => ?_)
        (by rw [m.stmt_ifThen]; omega)
      rw [List.map_singleton, Edit.get_map (Stmt.ifThen t c · none), m.stmts_cons, m.stmts_nil,
        m.stmt_ifThen]
      omega
    · rename_i t c a b
      refine (pays_wrapBranch hm refs types a).andReturn₂ (pays_wrapBranch hm refs types b)
        (m.node t.id + m.expr c) (fun x y => ?_) (by rw [m.stmt_ifElse]; omega)
      rw [List.map_singleton, Edit.get_map₂ (fun a b => Stmt.ifThen t c a (some b)), m.stmts_cons,
        m.stmts_nil, m.stmt_ifElse]
      omega
    · exact Editor.pays_keepStmt s
  · have hb := m.block_eq b
    refine ((pays_regroup hm refs types [] b.stmts).bind (m.node b.id) fun r => ?_).weaken
      (by rw [m.stmts_nil, hb]; omega)
    obtain ⟨ss, changed⟩ := r
    cases changed with
    | false => exact .pure (by simp [hb]; omega)
    | true => exact .pure (by simp [m.block_withStmts]; omega)

theorem costs_entry (callee : Expr) (ps : List Param) (args : List Expr) :
    Supply.Costs m (entry callee ps args) 0 fun e => m.expr e := by
  unfold entry
  split
  · exact callee.costs_copy m
  · exact (costs_tag m none).andReturn₃ (callee.costs_copy m) (Expr.costs_copies m _)
      (fun _ _ _ => by simp [Int.add_assoc]) (Int.le_refl _)

theorem costs_applyOf (name : String) (span : Option Span) :
    Supply.Costs m (applyOf name span) 0 fun e => m.expr e + m.callee e := by
  refine (costs_tag m span).free fun t => (costs_tag m span).free fun t' => ?_
  refine (costs_tag m span).free fun t'' => .pure ?_
  simp [Weights.callee]
  omega

def keptCallee (refs : Refs) (types : Types) (m : Weights) (e : Expr) : Nat :=
  match Call.classify refs types e with
  | .ok c =>
    match c.kind with
    | .action (.action ..) => 0
    | _ => m.callee e
  | .error _ => 0

theorem keptCallee_le (refs : Refs) (types : Types) (e : Expr) :
    keptCallee refs types m e ≤ m.callee e := by
  unfold keptCallee
  split
  · split
    · exact Nat.zero_le _
    · exact Nat.le_refl _
  · exact Nat.zero_le _

theorem exists_call_of_classify
    (h : Call.classify refs types e = .ok c) : ∃ t callee ts args, e = .call t callee ts args := by
  unfold Call.classify at h
  split at h
  · exact ⟨_, _, _, _, rfl⟩
  · cases h

theorem pays_tabled (refs : Refs) (types : Types) (t : Tag) (e : Expr) :
    (ledger m).Pays m ((tabling refs types).leaveStmt (.call t e))
      (m.node t.id + keptCallee refs types m e + m.expr e) fun xs =>
        m.stmts (xs.map (·.get (.call t e))) := by
  rcases hc : Call.classify refs types e with err | c
  · simp only [tabling, hc]
    refine (pays_fail err (m.node t.id + keptCallee refs types m e + m.expr e) fun _ =>
      m.stmt (.call t e)).andReturn 0 (fun _ => by simp) (by omega)
  · have hkeep (hkept : keptCallee refs types m e = m.callee e) :
        (ledger m).Pays m (pure [.keep]) (m.node t.id + keptCallee refs types m e + m.expr e)
          fun (xs : Splice Stmt) => m.stmts (xs.map (·.get (.call t e))) :=
      (Editor.pays_keepStmt _).weaken (by rw [m.stmt_call, hkept]; omega)
    obtain ⟨t', callee, ts, args, rfl⟩ := exists_call_of_classify hc
    simp only [tabling, hc]
    split
    · rename_i h ps b t' callee ts args hk heq
      cases heq
      refine (Ledger.Pays.lift (costs_entry callee ps args)).free fun entry => ?_
      refine (pays_newName _).free fun name => ?_
      refine (Ledger.Pays.lift (costs_head m name t.span)).free fun h' => ?_
      refine ((pays_add (.table h' [] [entry] (some (.call t' callee ts args)))).bind
        (m.node t.id) fun _ => ?_).weaken ?_
      · refine (Ledger.Pays.lift (costs_applyOf name t.span)).andReturn (m.node t.id) (fun e => ?_)
          (by omega)
        simp only [List.map_cons, List.map_nil, Edit.get_put, m.stmts_cons, m.stmt_call,
          m.stmts_nil]
        omega
      · simp only [Weights.placed, Decl.flaw, m.decl_table, m.keys_nil, m.exprs_cons, m.exprs_nil,
          m.expr?_some]
        push_cast
        omega
    · rename_i hother
      refine hkeep ?_
      rw [keptCallee, hc]
      dsimp only
      split
      · rename_i hk
        exact absurd rfl (hother _ _ _ _ _ _ _ hk)
      · rfl

theorem fair_tabling (hm : m.Silent) (refs : Refs) (types : Types) :
    (tabling refs types).Fair (ledger m) m.prices m := by
  refine .of_hooks (Editor.calls_of_silent _ hm) (fun _ => rfl) (fun _ => rfl)
    (fun _ _ _ => .inl rfl) (fun _ => .pure (Int.le_refl _)) Editor.pays_keepDecl (fun s => ?_)
    Editor.pays_keepBlock Editor.pays_keepKey Editor.pays_keepExpr
  cases s with
  | call t e =>
    have hle := keptCallee_le (m := m) refs types e
    exact (pays_tabled refs types t e).weaken (by rw [m.stmt_call]; omega)
  | _ => exact Editor.pays_keepStmt _

theorem run_body (w : Editor State) (h : Head) (tps : List String) (ps cps : List Param)
    (ls : List Decl) (b : Block) (names : Names) (n : Nat) :
    (body w h tps ps cps ls b names).run n = match w.block b ⟨names, [], none⟩ n with
      | ((x, st), n) =>
        (match st.error with
          | some e => .error e
          | none => .ok (if st.added.isEmpty then .keep
              else .put (.control h tps ps cps (ls ++ st.added) (x.get b)), st.names), n) := by
  obtain ⟨⟨⟨x, names', added, error⟩, n'⟩, hr⟩ : ∃ r, w.block b ⟨names, [], none⟩ n = r := ⟨_, rfl⟩
  have hpure {α : Type} (a : α) (k : Nat) : (StateT.pure a : Supply α) k = (a, k) := rfl
  rw [hr]
  simp only [body, StateT.bind, bind, ExceptT.bind, ExceptT.mk, ExceptT.run, StateT.get, get,
    getThe, MonadStateOf.get, ExceptT.bindCont, liftM, monadLift, MonadLift.monadLift, StateT.lift,
    ExceptT.lift, Functor.map, StateT.map, StateT.run, pure, hpure, ExceptT.pure, hr]
  cases error with
  | some e => rfl
  | none => cases added <;> rfl

variable {w : Editor State}

theorem costs_body (hw : w.Fair (ledger m) m.prices m) (h : Head)
    (tps : List String) (ps cps : List Param) (ls : List Decl) (b : Block) (names : Names) :
    Supply.CostsIf m (body w h tps ps cps ls b names) (m.placed spot (.control h tps ps cps ls b))
      fun r => m.placed spot (r.1.get (.control h tps ps cps ls b)) := by
  intro n
  have hpaid : (ledger m).Pays m (w.block b) (price m.prices b.visits) _ := hw.visitBlock b
  have hle := hpaid.le ⟨names, [], none⟩ n
  have hcovered := @hpaid.covered ⟨names, [], none⟩ n trivial
  rw [run_body]
  obtain ⟨⟨⟨x, names', added, error⟩, n'⟩, hr⟩ : ∃ r, w.block b ⟨names, [], none⟩ n = r := ⟨_, rfl⟩
  rw [hr] at hle hcovered ⊢
  refine ⟨hle, fun r hr => ?_⟩
  cases error with
  | some e => cases hr
  | none =>
    cases hr
    obtain ⟨c, hc⟩ := m.placed_control h spot ps cps tps
    have hbody := (hcovered rfl).2
    rw [m.price_prices] at hbody
    change (m.block (x.get b) : Int) + m.decls .control added
      ≤ m.block b + m.decls .control [] + m.spent n n' at hbody
    dsimp only
    split
    · exact Int.le_add_of_nonneg_right (Int.natCast_nonneg _)
    · rw [Edit.get_put, hc, hc, m.decls_append]
      rw [m.decls_nil] at hbody
      omega

theorem costs_decls (hw : w.Fair (ledger m) m.prices m) (sources : SourceMap)
    (wanted : Block → Bool) (spot : Spot) (ds : List Decl) (names : Names) :
    Supply.CostsIf m (decls w sources wanted ds names) (m.decls spot ds) fun r =>
      m.decls spot (r.1.get ds) := by
  induction ds generalizing names with
  | nil => exact .pure (Int.le_refl _)
  | cons d ds ih =>
    have hkeep (names : Names) : Supply.CostsIf m
        ((pure .keep : StateT Names (ExceptT ClassificationError Supply) (Edit Decl)) names)
        (m.placed spot d) fun r => m.placed spot (r.1.get d) := .pure (Int.le_refl _)
    cases d with
    | control h tps ps cps ls b =>
      rw [decls]
      split
      · exact .consDecls (costs_body hw h tps ps cps ls b) ih names
      · exact .consDecls hkeep ih names
    | _ => exact .consDecls hkeep ih names

theorem costs_program (hw : w.Fair (ledger m) m.prices m) (sources : SourceMap)
    (wanted : Block → Bool) (p : Program) :
    Supply.CostsIf m (program w sources wanted p) (m.total p.visits) fun x =>
      m.total (x.get p).visits := by
  have hdecls := costs_decls hw sources wanted .toplevel p.decls (.ofProgram p)
  refine (hdecls.bind 0 fun r => .pure ?_).weaken ?_
  · rw [Edit.get_map Program.mk, m.decls_toplevel, Int.add_zero]
    exact Int.le_refl _
  · rw [m.decls_toplevel, Int.add_zero]
    exact Int.le_refl _

end Actions

namespace Program

variable {m : Weights}

theorem costs_synthesizeActions (hm : m.Silent) (refs : Refs) (types : Types) (sources : SourceMap)
    (p : Program) :
    Supply.CostsIf m (p.synthesizeActions refs types sources) (m.total p.visits) fun x =>
      m.total (x.get p).visits :=
  Actions.costs_program (Actions.fair_synthesis hm refs types) sources _ p

theorem costs_tableActions (hm : m.Silent) (refs : Refs) (types : Types) (sources : SourceMap)
    (p : Program) :
    Supply.CostsIf m (p.tableActions refs types sources) (m.total p.visits) fun x =>
      m.total (x.get p).visits :=
  Actions.costs_program (Actions.fair_tabling hm refs types) sources _ p

end Program

end MatchAction
