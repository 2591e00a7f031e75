import MatchAction.Proofs.Passes

namespace MatchAction

structure Boundary.Fresh (b : Boundary) : Prop where
  refs : b.context.stale.refs = false → b.context.refs = b.program.check.refs
  types : b.context.stale.types = false → b.context.types = b.program.check.types

structure Context.SameTables (c c' : Context) : Prop where
  refs : c'.refs = c.refs
  types : c'.types = c.types
  stale : c'.stale = c.stale

structure Context.Agree (s : TableSet) (c c' : Context) : Prop where
  refs : s.refs = true → c'.refs = c.refs
  types : s.types = true → c'.types = c.types
  rest : c' = { c with refs := c'.refs, types := c'.types }

theorem Context.Agree.eq {c c' : Context} (h : c.Agree .all c') : c' = c := by
  rw [h.rest, h.refs rfl, h.types rfl]

namespace Boundary.Fresh

variable {pass : Pass} {b : Boundary} {x : Edit Program} {c : Context} {n : Nat}

theorem new (p : Program) (sources : SourceMap) (options : Options) (n : Nat) :
    Boundary.Fresh ⟨p, .new sources options, n⟩ := ⟨nofun, nofun⟩

theorem refresh (p : Program) (c : Context) (n : Nat) : Boundary.Fresh ⟨p, c.refresh p, n⟩ :=
  ⟨fun _ => rfl, fun _ => rfl⟩

theorem left (h : b.Fresh) (same : b.context.SameTables c)
    (honest : x = .keep ∨ pass.invalidates = .all) : (pass.left b x c n).Fresh := by
  cases x with
  | keep =>
    refine ⟨fun hs => ?_, fun hs => ?_⟩
    · exact same.refs.trans (h.refs (same.stale ▸ hs))
    · exact same.types.trans (h.types (same.stale ▸ hs))
  | put q =>
    have hall : pass.invalidates = .all := honest.resolve_left nofun
    refine ⟨fun hs => ?_, fun hs => ?_⟩ <;>
      simp [Pass.left, Edit.isKeep, Context.markStale, TableSet.union, hall, TableSet.all] at hs

end Boundary.Fresh

namespace Pass.Stock

variable {pass : Pass} {b b' : Boundary} {x : Edit Program} {c : Context} {n : Nat}

/-- Only type checking derives tables anew. Any other pass leaves them as they are, and either keeps
the program or says that a change makes both of them stale. -/
theorem tables (h : pass.Stock) (run : pass.runAt b = ((.ok x, c), n)) :
    c = b.context.refresh b.program ∧ x = .keep ∨
      b.context.SameTables c ∧ (x = .keep ∨ pass.invalidates = .all) := by
  have hc : (pass.runAt b).1.2 = c := by rw [run]
  cases h with
  | typeChecking =>
    cases run
    exact .inl ⟨rfl, rfl⟩
  | evaluator =>
    rw [runAt_evaluator] at run
    split at run <;> cases run
    exact .inr ⟨⟨rfl, rfl, rfl⟩, .inl rfl⟩
  | discoverControls slot =>
    rw [runAt_discoverControls] at run
    split at run <;> cases run
    exact .inr ⟨⟨rfl, rfl, rfl⟩, .inl rfl⟩
  | discoverActions slot =>
    rw [runAt_discoverActions] at run
    dsimp only at run
    split at run <;> cases run
    exact .inr ⟨⟨rfl, rfl, rfl⟩, .inl rfl⟩
  | inlineControls style slot =>
    rw [runAt_inlineControls b style slot rfl] at hc
    exact .inr ⟨hc ▸ ⟨rfl, rfl, rfl⟩, .inr rfl⟩
  | inlineActions slot =>
    rw [runAt_inlineActions b slot rfl] at hc
    exact .inr ⟨hc ▸ ⟨rfl, rfl, rfl⟩, .inr rfl⟩
  | synthesizeActions =>
    rw [runAt_synthesizeActions] at hc
    exact .inr ⟨hc ▸ ⟨rfl, rfl, rfl⟩, .inr rfl⟩
  | tableActions =>
    rw [runAt_tableActions] at hc
    exact .inr ⟨hc ▸ ⟨rfl, rfl, rfl⟩, .inr rfl⟩
  | uniqueNames | removeUnused | simplifyKeys | moveDeclarations | removeReturns | simplifyFlow
  | foldConstants | reduceStrength => exact .inr ⟨hc ▸ ⟨rfl, rfl, rfl⟩, .inr rfl⟩

theorem fresh (h : pass.Stock) (hb : b.Fresh) (moves : pass.Moves b b') : b'.Fresh := by
  obtain ⟨run⟩ := moves
  obtain ⟨rfl, rfl⟩ | ⟨same, honest⟩ := h.tables run
  · exact .refresh ..
  · exact hb.left same honest

theorem agree (h : pass.Stock) {p : Program} {c c' : Context} {n : Nat}
    (hc : c.Agree pass.requires c') :
    (pass.runAt ⟨p, c', n⟩).1.1 = (pass.runAt ⟨p, c, n⟩).1.1 ∧
      (pass.runAt ⟨p, c', n⟩).2 = (pass.runAt ⟨p, c, n⟩).2 ∧
      (pass.runAt ⟨p, c, n⟩).1.2.Agree pass.requires (pass.runAt ⟨p, c', n⟩).1.2 := by
  -- A pass that asks for both tables sees one context.
  by_cases hall : pass.requires = .all
  · have heq := (hall ▸ hc).eq
    subst heq
    exact ⟨rfl, rfl, fun _ => rfl, fun _ => rfl, rfl⟩
  obtain ⟨refs, types, rest⟩ := hc
  generalize c'.refs = r at refs rest
  generalize c'.types = t at types rest
  subst rest
  cases h with
  | evaluator | uniqueNames | simplifyKeys | synthesizeActions | tableActions | discoverActions =>
    exact absurd rfl hall
  | typeChecking | moveDeclarations | removeReturns | removeUnused | simplifyFlow | foldConstants
  | reduceStrength => exact ⟨rfl, rfl, nofun, nofun, rfl⟩
  | discoverControls slot =>
    obtain rfl : r = c.refs := refs rfl
    rw [runAt_discoverControls, runAt_discoverControls]
    cases ControlInlining.discover c.refs c.sources p with
    | ok w => exact ⟨rfl, rfl, fun _ => rfl, nofun, rfl⟩
    | error e => exact ⟨rfl, rfl, fun _ => rfl, nofun, rfl⟩
  | inlineControls style slot =>
    rw [runAt_inlineControls _ style slot rfl, runAt_inlineControls _ style slot rfl]
    exact ⟨rfl, rfl, nofun, nofun, rfl⟩
  | inlineActions slot =>
    rw [runAt_inlineActions _ slot rfl, runAt_inlineActions _ slot rfl]
    exact ⟨rfl, rfl, nofun, nofun, rfl⟩

end Pass.Stock

inductive Pipeline.Calls (pl : Pipeline) (b : Boundary) (pass : Pass) (b₁ : Boundary) : Prop
  | mk {done rest : List Pass} {es : List Event} (clean : b.Clean)
    (passes : pl.passes = done ++ pass :: rest) (ran : Ran pl.name done b es b₁)
    (ready : pass.Ready b₁)

inductive Reached (sources : SourceMap) (options : Options) : Boundary → Prop
  | start (p : Program) (n : Nat) : Reached sources options ⟨p, .new sources options, n⟩
  | next {b : Boundary} {pl : Pipeline} {q : Edit Program} {es : List Event} {phase : Phase}
    {c : Context} {n : Nat}
    (reached : Reached sources options b) (stock : ∀ pass ∈ pl.passes, pass.Stock)
    (run : pl.apply b.program b.context b.supply = ((⟨⟨.ok (some q), es⟩, phase⟩, c), n)) :
    Reached sources options ⟨q.get b.program, c, n⟩

theorem Ran.fresh
    (h : Ran pl passes b es b') (stock : ∀ pass ∈ passes, pass.Stock) (hb : b.Fresh) :
    b'.Fresh := by
  induction h with
  | nil b => exact hb
  | cons _ moves _ _ ih =>
    have hnext := (stock _ (.head _)).fresh hb moves
    exact ih (fun pass hpass => stock pass (.tail _ hpass)) hnext

theorem Reached.fresh
    (h : Reached sources options b) : b.Fresh := by
  induction h with
  | start p n => exact .new ..
  | next _ stock run ih => exact (Pipeline.ran_of_apply run).2.fresh stock ih

theorem Boundary.Fresh.required {pass : Pass} {b : Boundary} (h : b.Fresh) (ready : pass.Ready b) :
    (pass.requires.refs = true → b.context.refs = b.program.check.refs) ∧
      (pass.requires.types = true → b.context.types = b.program.check.types) := by
  simp only [Pass.Ready, Pass.staleAt, TableSet.inter, TableSet.isEmpty, Bool.and_eq_true,
    Bool.not_eq_true', Bool.and_eq_false_iff] at ready
  obtain ⟨hrefs, htypes⟩ := ready
  constructor
  · intro hreq
    exact h.refs (hrefs.resolve_left (by simp [hreq]))
  · intro hreq
    exact h.types (htypes.resolve_left (by simp [hreq]))

/-- Wherever a pass is called, the tables not marked stale, and so those it asks for, are the ones a
check derives from the program it is called on; and the other tables make no difference to it. -/
theorem Pipeline.no_stale_table_read :
    (∀ {sources : SourceMap} {options : Options} {b b₁ : Boundary} {pl : Pipeline} {pass : Pass},
      Reached sources options b → (∀ pass ∈ pl.passes, pass.Stock) → pl.Calls b pass b₁ →
        b₁.Fresh ∧ (pass.requires.refs = true → b₁.context.refs = b₁.program.check.refs) ∧
          (pass.requires.types = true → b₁.context.types = b₁.program.check.types)) ∧
    ∀ {pass : Pass} {p : Program} {c c' : Context} {n : Nat}, pass.Stock →
      c.Agree pass.requires c' →
        (pass.runAt ⟨p, c', n⟩).1.1 = (pass.runAt ⟨p, c, n⟩).1.1 ∧
          (pass.runAt ⟨p, c', n⟩).2 = (pass.runAt ⟨p, c, n⟩).2 ∧
          (pass.runAt ⟨p, c, n⟩).1.2.Agree pass.requires (pass.runAt ⟨p, c', n⟩).1.2 := by
  refine ⟨fun reached stock calls => ?_, fun stock hc => stock.agree hc⟩
  obtain ⟨-, hpasses, ran, ready⟩ := calls
  have hfresh := ran.fresh (fun pass hpass => stock pass (hpasses ▸ List.mem_append_left _ hpass))
    reached.fresh
  exact ⟨hfresh, hfresh.required ready⟩

def idleControl (ss : List Stmt) : Program :=
  ⟨[.control ⟨⟨0⟩, "c", none⟩ [] [] [] [] (.mk ⟨1⟩ ss)]⟩

def tidied : Boundary where
  program := idleControl []
  context := ((Context.new .empty .standard).refresh (idleControl [.empty ⟨⟨2⟩, none⟩])).markStale
    .all
  supply := 3

theorem Pipeline.no_stale_table_read_tidied :
    ∃ b₁, tidied.context.stale = .all ∧
      Pipeline.Calls ⟨"Survey", [.typeChecking, .discoverControls 0]⟩ tidied
        (.discoverControls 0) b₁ ∧
      b₁.context.refs = b₁.program.check.refs ∧
      ∀ types, ((Pass.discoverControls 0).runAt
          ⟨b₁.program, { b₁.context with types := types }, b₁.supply⟩).1.1
        = ((Pass.discoverControls 0).runAt b₁).1.1 := by
  have reached : Reached .empty .standard tidied := by
    have hstock : ∀ pass ∈ [Pass.typeChecking, .simplifyFlow], pass.Stock :=
      List.forall_mem_cons.2 ⟨.typeChecking, List.forall_mem_singleton.2 .simplifyFlow⟩
    exact .next (.start (idleControl [.empty ⟨⟨2⟩, none⟩]) 3) (show ∀ pass ∈ Pipeline.passes
      ⟨"Tidy", [.typeChecking, .simplifyFlow]⟩, pass.Stock from hstock) rfl
  let b₁ : Boundary := ⟨tidied.program, tidied.context.refresh tidied.program, 3⟩
  have moves := Pass.Moves.mk (Pass.runAt_typeChecking tidied)
  have ran : Ran "Survey" [.typeChecking] tidied _ b₁ := .cons rfl moves rfl (.nil _)
  have calls : Pipeline.Calls ⟨"Survey", [.typeChecking, .discoverControls 0]⟩ tidied
      (.discoverControls 0) b₁ := .mk rfl rfl ran rfl
  have hstock : ∀ pass ∈ [Pass.typeChecking, .discoverControls 0], pass.Stock :=
    List.forall_mem_cons.2 ⟨.typeChecking, List.forall_mem_singleton.2 (.discoverControls 0)⟩
  refine ⟨b₁, rfl, calls, (no_stale_table_read.1 reached hstock calls).2.1 rfl, fun types => ?_⟩
  exact (no_stale_table_read.2 (.discoverControls 0) ⟨fun _ => rfl, nofun, rfl⟩).1

end MatchAction
