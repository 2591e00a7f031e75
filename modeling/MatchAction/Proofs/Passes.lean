import MatchAction.Pipeline.Catalogue
import MatchAction.Proofs.Runs

namespace MatchAction

namespace PassM

variable {α β : Type}

@[simp] theorem run_pure (a : α) (c : Context) (n : Nat) :
    (pure a : PassM α).run c n = ((.ok a, c), n) := rfl

@[simp] theorem run_get (c : Context) (n : Nat) :
    (get : PassM Context).run c n = ((.ok c, c), n) := rfl

@[simp] theorem run_lift (x : Supply α) (c : Context) (n : Nat) :
    (liftM x : PassM α).run c n = ((.ok (x n).1, c), (x n).2) := rfl

theorem run_bind (x : PassM α) (f : α → PassM β) (c : Context) (n : Nat) :
    (x >>= f).run c n = match x.run c n with
      | ((.ok a, c), n) => (f a).run c n
      | ((.error e, c), n) => ((.error e, c), n) := by
  change ExceptT.bindCont f (x c n).1.1 (x c n).1.2 (x c n).2 = match x c n with
      | ((.ok a, c), n) => (f a).run c n
      | ((.error e, c), n) => ((.error e, c), n)
  obtain ⟨⟨e | a, c⟩, n⟩ := x c n <;> rfl

end PassM

namespace Pass

inductive Stock : Pass → Prop
  | typeChecking : Stock .typeChecking
  | evaluator : Stock .evaluator
  | uniqueNames : Stock .uniqueNames
  | moveDeclarations : Stock .moveDeclarations
  | removeReturns : Stock .removeReturns
  | removeUnused : Stock .removeUnused
  | simplifyFlow : Stock .simplifyFlow
  | foldConstants : Stock .foldConstants
  | reduceStrength : Stock .reduceStrength
  | simplifyKeys (policy : KeyPolicy) : Stock (.simplifyKeys policy)
  | synthesizeActions : Stock .synthesizeActions
  | tableActions : Stock .tableActions
  | discoverControls (slot : Nat) : Stock (.discoverControls slot)
  | inlineControls (style : InlineStyle) (slot : Nat) : Stock (.inlineControls style slot)
  | discoverActions (slot : Nat) : Stock (.discoverActions slot)
  | inlineActions (slot : Nat) : Stock (.inlineActions slot)

section

variable (b : Boundary)

theorem runAt_typeChecking :
    typeChecking.runAt b = ((.ok .keep, b.context.refresh b.program), b.supply) := rfl

theorem runAt_evaluator :
    evaluator.runAt b = match b.program.elaborate b.context.refs b.context.types with
      | .ok t => ((.ok .keep, { b.context with toplevel := some t }), b.supply)
      | .error e => ((.error (.ofElaboration "Evaluator" e), b.context), b.supply) := by
  simp only [runAt, evaluator, PassM.run_bind, PassM.run_get]
  cases b.program.elaborate b.context.refs b.context.types <;> rfl

theorem run_classifying (x : ExceptT ClassificationError Supply (Edit Program)) (c : Context)
    (n : Nat) :
    (classifying x).run c n = (((x.run n).1.mapError .classification, c), (x.run n).2) := by
  simp only [classifying, PassM.run_bind, PassM.run_lift]
  cases (x.run n).1 <;> rfl

theorem runAt_synthesizeActions :
    synthesizeActions.runAt b =
      match (b.program.synthesizeActions b.context.refs b.context.types b.context.sources).run
        b.supply with
      | (x, n) => ((x.mapError .classification, b.context), n) := by
  simp only [runAt, synthesizeActions, PassM.run_bind, PassM.run_get, run_classifying]
  rfl

theorem runAt_tableActions :
    tableActions.runAt b =
      match (b.program.tableActions b.context.refs b.context.types b.context.sources).run
        b.supply with
      | (x, n) => ((x.mapError .classification, b.context), n) := by
  simp only [runAt, tableActions, PassM.run_bind, PassM.run_get, run_classifying]
  rfl

theorem runAt_discoverControls (slot : Nat) :
    (discoverControls slot).runAt b =
      match ControlInlining.discover b.context.refs b.context.sources b.program with
      | .ok w => ((.ok .keep, b.context.putWork slot w), b.supply)
      | .error e => ((.error (.recursiveInlining e), b.context), b.supply) := by
  simp only [runAt, discoverControls, PassM.run_bind, PassM.run_get]
  cases ControlInlining.discover b.context.refs b.context.sources b.program <;> rfl

theorem runAt_discoverActions (slot : Nat) :
    (discoverActions slot).runAt b =
      let f := ActionInlining.find b.context.refs b.context.types b.context.sources b.program
      match f.error, WorkList.ofEdges f.names f.edges.reverse with
      | some e, _ => ((.error (.classification e), b.context), b.supply)
      | none, .ok w => ((.ok .keep, b.context.putWork slot w), b.supply)
      | none, .error e => ((.error (.recursiveInlining e), b.context), b.supply) := by
  simp only [runAt, discoverActions, PassM.run_bind, PassM.run_get]
  cases (ActionInlining.find b.context.refs b.context.types b.context.sources b.program).error with
  | some e => rfl
  | none =>
    simp only [PassM.run_bind, PassM.run_pure]
    cases WorkList.ofEdges _ _ <;> rfl

theorem run_takeWork (slot : Nat) (c : Context) (n : Nat) :
    (takeWork slot).run c n = ((.ok (c.takeWork slot).1, (c.takeWork slot).2), n) := rfl

theorem run_inlining {α : Type} (x : Inlining α) (c : Context) (n : Nat) :
    (inlining x).run c n = match x.run c.diagnostics n with
      | ((a, ds), n) => ((.ok a, { c with diagnostics := ds }), n) := rfl

theorem run_acyclic {α : Type} (x : Except Dependency.Cycle α) (c : Context) (n : Nat) :
    (acyclic x).run c n = ((x.mapError .recursiveInlining, c), n) := by
  cases x <;> rfl

theorem runAt_inlineControls (style : InlineStyle) (slot : Nat) {w : WorkList} {c : Context}
    (hw : b.context.takeWork slot = (w, c)) :
    (inlineControls style slot).runAt b =
      match (b.program.inlineControls style c.sources w).run.run c.diagnostics b.supply with
      | ((x, ds), n) => ((x.mapError .recursiveInlining, { c with diagnostics := ds }), n) := by
  simp only [runAt, inlineControls, PassM.run_bind, PassM.run_get, run_takeWork, hw, run_inlining,
    run_acyclic]
  rfl

theorem runAt_inlineActions (slot : Nat) {w : WorkList} {c : Context}
    (hw : b.context.takeWork slot = (w, c)) :
    (inlineActions slot).runAt b =
      match (b.program.inlineActions w).run c.diagnostics b.supply with
      | ((x, ds), n) => ((.ok x, { c with diagnostics := ds }), n) := by
  simp only [runAt, inlineActions, PassM.run_bind, run_takeWork, hw, run_inlining]
  rfl

end

end Pass

end MatchAction
