import MatchAction.Pipeline.Standard
import MatchAction.Proofs.SideTables

/-!
No pass of a compilation is refused. Which tables may be stale at a boundary can be told from the
passes alone, whether or not they change the program: a check leaves none, and any other pass adds
at most what it invalidates. In the pipelines of both dialects every pass asks only for tables that
cannot be stale there, also where one pipeline goes on after another.
-/

namespace MatchAction

namespace TableSet

structure Within (s t : TableSet) : Prop where
  refs : s.refs = true → t.refs = true
  types : s.types = true → t.types = true

variable {s t u : TableSet}

theorem within_all (s : TableSet) : s.Within .all := ⟨fun _ => rfl, fun _ => rfl⟩

theorem none_within (s : TableSet) : TableSet.none.Within s := ⟨nofun, nofun⟩

theorem Within.union_right (h : s.Within t) (u : TableSet) : s.Within (t.union u) :=
  ⟨fun hs => by simp [union, h.refs hs], fun hs => by simp [union, h.types hs]⟩

theorem Within.union (h : s.Within t) (u : TableSet) : (s.union u).Within (t.union u) := by
  constructor <;> simp only [TableSet.union, Bool.or_eq_true]
  · exact Or.imp_left h.refs
  · exact Or.imp_left h.types

theorem isEmpty_inter_of_within (h : s.Within t) (hu : (u.inter t).isEmpty = true) :
    (u.inter s).isEmpty = true := by
  simp only [inter, isEmpty, Bool.and_eq_true, Bool.not_eq_true', Bool.and_eq_false_iff] at hu ⊢
  refine ⟨hu.1.imp_right fun ht => ?_, hu.2.imp_right fun ht => ?_⟩
  · exact Bool.eq_false_iff.2 fun hs => Bool.eq_false_iff.1 ht (h.refs hs)
  · exact Bool.eq_false_iff.2 fun hs => Bool.eq_false_iff.1 ht (h.types hs)

end TableSet

namespace Pass.Stock

variable {pass : Pass} {b b' : Boundary} {s : TableSet}

theorem stale_within (h : pass.Stock) (hb : b.context.stale.Within s) (moves : pass.Moves b b') :
    b'.context.stale.Within (s.union pass.invalidates) := by
  obtain @⟨x, c, n, run⟩ := moves
  have hc : c.stale.Within s := by
    obtain ⟨rfl, -⟩ | ⟨same, -⟩ := h.tables run
    · exact TableSet.none_within s
    · exact same.stale.symm ▸ hb
  cases x with
  | keep => exact hc.union_right pass.invalidates
  | put q => exact hc.union pass.invalidates

theorem failure_ne_staleTables (h : pass.Stock) {f : Failure} {c : Context} {n : Nat}
    (run : pass.runAt b = ((.error f, c), n)) (name : String) (stale : TableSet) :
    f ≠ .staleTables name stale := by
  have hmap {ε α : Type} {g : ε → Failure} (hg : ∀ e, g e ≠ .staleTables name stale)
      {x : Except ε α} (hx : x.mapError g = .error f) : f ≠ .staleTables name stale := by
    cases x with
    | error e =>
      cases hx
      exact hg e
    | ok a => cases hx
  have hf : (pass.runAt b).1.1 = .error f := by rw [run]
  cases h with
  | evaluator =>
    rw [runAt_evaluator] at hf
    split at hf
    · cases hf
    · rename_i e _
      cases hf
      cases e <;> exact nofun
  | discoverControls slot =>
    rw [runAt_discoverControls] at hf
    split at hf <;> cases hf
    exact nofun
  | discoverActions slot =>
    rw [runAt_discoverActions] at hf
    dsimp only at hf
    split at hf <;> cases hf <;> exact nofun
  | inlineControls style slot =>
    rw [runAt_inlineControls b style slot rfl] at hf
    exact hmap (g := .recursiveInlining) (fun _ => nofun) hf
  | inlineActions slot =>
    rw [runAt_inlineActions b slot rfl] at hf
    cases hf
  | synthesizeActions =>
    rw [runAt_synthesizeActions] at hf
    exact hmap (g := .classification) (fun _ => nofun) hf
  | tableActions =>
    rw [runAt_tableActions] at hf
    exact hmap (g := .classification) (fun _ => nofun) hf
  | typeChecking | uniqueNames | removeUnused | simplifyKeys | moveDeclarations | removeReturns
  | simplifyFlow | foldConstants | reduceStrength => cases hf

end Pass.Stock

/-- Starting with at most the first set of tables stale, no pass asks for a table that may be stale
by then, and at most the second set is stale in the end. -/
inductive Supplied : TableSet → List Pass → TableSet → Prop
  | nil (s : TableSet) : Supplied s [] s
  | check {s t : TableSet} {passes : List Pass} (rest : Supplied .none passes t) :
    Supplied s (.typeChecking :: passes) t
  | pass {s t : TableSet} {pass : Pass} {passes : List Pass} (stock : pass.Stock)
    (served : (pass.requires.inter s).isEmpty = true)
    (rest : Supplied (s.union pass.invalidates) passes t) : Supplied s (pass :: passes) t

namespace Supplied

variable {s t : TableSet} {passes rest : List Pass} {pass : Pass} {pl : String} {b b' : Boundary}
  {es : List Event}

theorem stock (h : Supplied s passes t) : ∀ pass ∈ passes, pass.Stock := by
  induction h with
  | nil s => exact nofun
  | check _ ih => exact List.forall_mem_cons.2 ⟨.typeChecking, ih⟩
  | pass stock _ _ ih => exact List.forall_mem_cons.2 ⟨stock, ih⟩

theorem uncons (h : Supplied s (pass :: passes) t) (hb : b.context.stale.Within s) :
    pass.Ready b ∧ ∀ {b'}, pass.Moves b b' →
      ∃ s', Supplied s' passes t ∧ b'.context.stale.Within s' := by
  cases h with
  | check rest =>
    refine ⟨rfl, fun moves => ⟨.none, rest, ?_⟩⟩
    obtain ⟨run⟩ := moves
    cases run
    exact TableSet.none_within .none
  | pass stock served rest =>
    exact ⟨TableSet.isEmpty_inter_of_within hb served, fun moves =>
      ⟨_, rest, stock.stale_within hb moves⟩⟩

theorem after (ran : Ran pl passes b es b') (h : Supplied s (passes ++ rest) t)
    (hb : b.context.stale.Within s) : ∃ s', Supplied s' rest t ∧ b'.context.stale.Within s' := by
  induction ran generalizing s with
  | nil b => exact ⟨s, h, hb⟩
  | cons _ moves _ _ ih =>
    obtain ⟨s', h', hb'⟩ := (h.uncons hb).2 moves
    exact ih h' hb'

end Supplied

/-- From a context with at most the first set of tables stale, no pass of the run is refused, and if
it comes to something then at most the second set is stale. -/
def Unrefused {α : Type} (s : TableSet) (x : StateT Context Supply (Run α)) (t : TableSet) : Prop :=
  ∀ c n, c.stale.Within s →
    (∀ pass stale, (x c n).1.1.result ≠ .error (.staleTables pass stale)) ∧
      ∀ a, (x c n).1.1.result = .ok (some a) → (x c n).1.2.stale.Within t

namespace Unrefused

variable {α β : Type} {s t u : TableSet} {x : StateT Context Supply (Run α)}

theorem andThen {next : α → StateT Context Supply (Run β)} (h : Unrefused s x t)
    (hnext : ∀ a, Unrefused t (next a) u) : Unrefused s (x >>= fun r => r.andThen next) u := by
  intro c n hc
  obtain ⟨hne, hend⟩ := h c n hc
  rw [Supply.stateT_bind_apply]
  generalize x c n = r at hne hend ⊢
  obtain ⟨⟨⟨f | _ | a, es⟩, c₁⟩, n₁⟩ := r
  · exact ⟨fun pass stale heq => hne pass stale (congrArg Except.error (Except.error.inj heq)),
      nofun⟩
  · exact ⟨nofun, nofun⟩
  · exact hnext a c₁ n₁ (hend a rfl)

theorem result {pl : Pipeline} (h : Supplied s pl.passes t) (p : Program) :
    Unrefused s (pl.result p) t := by
  intro c n hc
  have hresult : pl.result p c n = (((pl.apply p c n).1.1.toRun.map (·.get p),
    (pl.apply p c n).1.2), (pl.apply p c n).2) := rfl
  rw [hresult]
  by_cases clean : Boundary.Clean ⟨p, c, n⟩
  · obtain ⟨es, b', hran⟩ | ⟨done, pass, rest, es, b₁, r, c', n', hpasses, hran, stop⟩ :=
      Pipeline.ran_or_stops pl.name pl.passes ⟨p, c, n⟩
    · obtain ⟨q, -, happly⟩ := Pipeline.apply_ran pl clean hran
      rw [happly]
      rw [← List.append_nil pl.passes] at h
      obtain ⟨s', ⟨⟩, hb'⟩ := h.after hran hc
      exact ⟨nofun, fun _ _ => hb'⟩
    · rw [Pipeline.apply_stops pl clean hpasses hran stop]
      rw [hpasses] at h
      obtain ⟨s', h', hb₁⟩ := h.after hran hc
      cases stop with
      | refused stale => exact absurd (h'.uncons hb₁).1 stale
      | failed ready run =>
        refine ⟨fun name stale heq => ?_, nofun⟩
        exact (h'.stock pass (.head _)).failure_ne_staleTables run name stale (Except.error.inj heq)
      | errors => exact ⟨nofun, nofun⟩
  · rw [Pipeline.apply_dirty (b := ⟨p, c, n⟩) pl clean]
    exact ⟨nofun, nofun⟩

theorem requireMain (s : TableSet) (p : Program) : Unrefused s (requireMain p) s :=
  fun _ _ hc => ⟨nofun, fun _ _ => hc⟩

theorem takeToplevel (s : TableSet) : Unrefused s takeToplevel s :=
  fun _ _ hc => ⟨nofun, fun _ _ => hc⟩

end Unrefused

namespace Pipeline

theorem supplied_legacy : Supplied .all legacy.passes .all :=
  .check <| .pass .removeReturns rfl <| .check <| .pass .evaluator rfl <|
  .pass (.discoverControls 0) rfl <| .pass (.inlineControls .simple 0) rfl <|
  .pass .removeUnused rfl <| .check <| .pass (.discoverActions 1) rfl <|
  .pass (.inlineActions 1) rfl <| .pass .removeUnused rfl <| .nil .all

theorem supplied_simplify : Supplied .all simplify.passes .none :=
  .check <| .pass .uniqueNames rfl <| .pass .moveDeclarations rfl <| .check <|
  .pass .removeReturns rfl <| .check <| .pass .removeUnused rfl <| .check <|
  .pass .evaluator rfl <| .nil .none

theorem supplied_middle : Supplied .none middle.passes .none :=
  .pass (.discoverControls 0) rfl <| .pass (.inlineControls .general 0) rfl <|
  .pass .removeUnused rfl <| .check <| .pass (.discoverActions 1) rfl <|
  .pass (.inlineActions 1) rfl <| .pass .removeUnused rfl <| .check <|
  .pass .simplifyFlow rfl <| .check <| .pass (.simplifyKeys .nonLeftValue) rfl <| .check <|
  .pass .simplifyFlow rfl <| .pass .foldConstants rfl <| .pass .reduceStrength rfl <| .check <|
  .pass .moveDeclarations rfl <| .check <| .pass .synthesizeActions rfl <| .check <|
  .pass .tableActions rfl <| .check <| .nil .none

theorem supplied_backend : Supplied .all backend.passes .none :=
  .check <| .pass .simplifyFlow rfl <| .check <| .pass .foldConstants rfl <| .check <|
  .pass .evaluator rfl <| .nil .none

end Pipeline

theorem unrefused_compileLegacy (p : Program) : Unrefused .all (compileLegacy p) .all :=
  (Unrefused.result Pipeline.supplied_legacy p).andThen (.requireMain .all)

theorem unrefused_compileCurrent (p : Program) : Unrefused .all (compileCurrent p) .all := by
  have hsimple := (Unrefused.result Pipeline.supplied_simplify p).andThen (.requireMain .none)
  have hmiddle (q : Program) : Unrefused .none (Pipeline.middle.result q) .all := fun c n hc =>
    have h := Unrefused.result Pipeline.supplied_middle q c n hc
    ⟨h.1, fun _ _ => TableSet.within_all _⟩
  have h := hsimple.andThen hmiddle
  rwa [bind_assoc] at h

theorem Program.unrefused_compile (p : Program) : Unrefused .all p.compile .none := by
  intro c n hc
  have hlowered {lower : StateT Context Supply (Run Program)} (h : Unrefused .all lower .all) :=
    (h.andThen fun q => Unrefused.result Pipeline.supplied_backend q).andThen
      fun _ => Unrefused.takeToplevel .none
  simp only [bind_assoc] at hlowered
  simp only [compile, Supply.stateT_bind_apply, Context.get_apply]
  cases c.options.dialect with
  | legacy => exact hlowered (unrefused_compileLegacy p) c n hc
  | current => exact hlowered (unrefused_compileCurrent p) c n hc

/-- A compilation never ends because a pass needs a table that is stale. -/
theorem Program.compile_ne_staleTables (p : Program) (sources : SourceMap) (options : Options)
    (n : Nat) (pass : String) (stale : TableSet) :
    (p.compile (.new sources options) n).1.1.result ≠ .error (.staleTables pass stale) :=
  (p.unrefused_compile (.new sources options) n (TableSet.within_all _)).1 pass stale

end MatchAction
