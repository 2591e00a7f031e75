import MatchAction.Pipeline.Standard
import MatchAction.Proofs.Elaboration
import MatchAction.Proofs.SideTables
import MatchAction.Proofs.Tabling

namespace MatchAction

open List

theorem Program.HasMain.mono {p p' : Program} (h : p.HasMain) (hs : p.insts ⊆ p'.insts) :
    p'.HasMain := by
  obtain ⟨x, hx, hmain⟩ := h
  exact ⟨x, hs hx, hmain⟩

structure Boundary.Sound (sources : SourceMap) (b : Boundary) : Prop where
  distinct : b.program.Distinct b.supply
  orderly : b.program.Orderly
  fresh : b.Fresh
  sources : b.context.sources = sources
  main : ∀ t, b.context.toplevel = some t → t.main?.isSome → b.program.HasMain

namespace Pass

variable {pass : Pass} {b b' : Boundary} {sources : SourceMap}

theorem elaborated_of_evaluator
    (run : evaluator.runAt b = ((.ok x, c), n)) :
    ∃ t, b.program.elaborate b.context.refs b.context.types = .ok t ∧ x = .keep ∧
      c = { b.context with toplevel := some t } := by
  rw [runAt_evaluator] at run
  split at run
  · rename_i t ht
    cases run
    exact ⟨t, ht, rfl, rfl⟩
  · cases run

theorem Stock.context (h : pass.Stock)
    (run : pass.runAt b = ((.ok x, c), n)) :
    c.sources = b.context.sources ∧ (c.toplevel = b.context.toplevel ∨
      pass = .evaluator ∧ x = .keep ∧
        ∃ t, b.program.elaborate b.context.refs b.context.types = .ok t ∧ c.toplevel = some t) := by
  have hc : (pass.runAt b).1.2 = c := by rw [run]
  cases h with
  | evaluator =>
    obtain ⟨t, ht, rfl, rfl⟩ := elaborated_of_evaluator run
    exact ⟨rfl, .inr ⟨rfl, rfl, t, ht, rfl⟩⟩
  | discoverControls slot =>
    rw [runAt_discoverControls] at run
    split at run <;> cases run
    exact ⟨rfl, .inl rfl⟩
  | discoverActions slot =>
    rw [runAt_discoverActions] at run
    dsimp only at run
    split at run <;> cases run
    exact ⟨rfl, .inl rfl⟩
  | inlineControls style slot =>
    rw [runAt_inlineControls b style slot rfl] at hc
    exact hc ▸ ⟨rfl, .inl rfl⟩
  | inlineActions slot =>
    rw [runAt_inlineActions b slot rfl] at hc
    exact hc ▸ ⟨rfl, .inl rfl⟩
  | synthesizeActions =>
    rw [runAt_synthesizeActions] at hc
    exact hc ▸ ⟨rfl, .inl rfl⟩
  | tableActions =>
    rw [runAt_tableActions] at hc
    exact hc ▸ ⟨rfl, .inl rfl⟩
  | typeChecking | uniqueNames | removeUnused | simplifyKeys | moveDeclarations | removeReturns
  | simplifyFlow | foldConstants | reduceStrength => exact hc ▸ ⟨rfl, .inl rfl⟩

theorem Stock.sound (h : pass.Stock) (hb : b.Sound sources) (ready : pass.Ready b)
    (moves : pass.Moves b b') :
    b'.Sound sources ∧ b.program.Follows b.supply b'.program b'.supply := by
  have hfresh := h.fresh hb.fresh moves
  obtain @⟨x, c, n, run⟩ := moves
  have hfollows := h.follows run hb.distinct
  obtain ⟨hsources, htop⟩ := h.context run
  have hleft : (pass.left b x c n).context.sources = c.sources ∧
      (pass.left b x c n).context.toplevel = c.toplevel := by
    cases x <;> exact ⟨rfl, rfl⟩
  refine ⟨⟨hfollows.distinct hb.distinct, hfollows.orderly hb.orderly, hfresh,
    hleft.1.trans (hsources.trans hb.sources), fun t ht hmain => ?_⟩, hfollows⟩
  rw [hleft.2] at ht
  rcases htop with hsame | ⟨rfl, rfl, t', helab, ht'⟩
  · exact (hb.main t (hsame ▸ ht) hmain).mono hfollows.insts
  · rw [ht'] at ht
    cases ht
    rw [(hb.fresh.required ready).1 rfl] at helab
    exact Program.hasMain_of_elaborate hb.distinct.nodup helab hmain

theorem errors_of_typeChecking (moves : typeChecking.Moves b b') (clean : b'.Clean) :
    b'.program = b.program ∧ b'.program.check.errors = [] := by
  obtain ⟨run⟩ := moves
  rw [runAt_typeChecking] at run
  cases run
  refine ⟨rfl, eq_nil_iff_forall_not_mem.2 fun e he => ?_⟩
  have hnone := any_eq_false.1 (clean : List.any (_ ++ _) _ = false)
  exact hnone _ (mem_append_right _ (mem_map_of_mem he)) rfl

inductive Tidies : Pass → Prop
  | typeChecking : Tidies .typeChecking
  | evaluator : Tidies .evaluator
  | simplifyFlow : Tidies .simplifyFlow
  | foldConstants : Tidies .foldConstants

theorem Tidies.tabled (h : pass.Tidies) (moves : pass.Moves b b') (ht : b.program.Tabled sources) :
    b'.program.Tabled sources := by
  obtain @⟨x, c, n, run⟩ := moves
  cases h with
  | typeChecking =>
    cases run
    exact ht
  | evaluator =>
    obtain ⟨t, -, rfl, -⟩ := elaborated_of_evaluator run
    exact ht
  | simplifyFlow =>
    cases run
    exact ht.simplifyFlow b.supply
  | foldConstants =>
    cases run
    exact ht.foldConstants b.supply

end Pass

namespace Ran

variable {pl : String} {ps qs : List Pass} {b b' : Boundary} {es : List Event} {sources : SourceMap}

theorem split (h : Ran pl (ps ++ qs) b es b') :
    ∃ b₁ es₁ es₂, Ran pl ps b es₁ b₁ ∧ Ran pl qs b₁ es₂ b' := by
  induction ps generalizing b es with
  | nil => exact ⟨b, [], es, .nil b, h⟩
  | cons pass ps ih =>
    cases h with
    | cons ready moves clean rest =>
      obtain ⟨b₁, es₁, es₂, hps, hqs⟩ := ih rest
      exact ⟨b₁, _, es₂, .cons ready moves clean hps, hqs⟩

theorem sound (h : Ran pl ps b es b') (stock : ∀ pass ∈ ps, pass.Stock) (hb : b.Sound sources) :
    b'.Sound sources ∧ b.program.Follows b.supply b'.program b'.supply := by
  induction h with
  | nil b => exact ⟨hb, .refl _ _⟩
  | cons ready moves _ _ ih =>
    obtain ⟨hpass, hrest⟩ := forall_mem_cons.1 stock
    obtain ⟨hb₁, hfirst⟩ := hpass.sound hb ready moves
    obtain ⟨hb₂, hsecond⟩ := ih hrest hb₁
    exact ⟨hb₂, hfirst.trans hsecond⟩

theorem tabled (h : Ran pl ps b es b') (tidies : ∀ pass ∈ ps, pass.Tidies)
    (hb : b.program.Tabled sources) : b'.program.Tabled sources := by
  induction h with
  | nil b => exact hb
  | cons _ moves _ _ ih =>
    obtain ⟨hpass, hrest⟩ := forall_mem_cons.1 tidies
    exact ih hrest (hpass.tabled moves hb)

theorem returnFree (h : Ran pl ps b es b') (stock : ∀ pass ∈ ps, pass.Stock) (hb : b.Sound sources)
    (hmem : .removeReturns ∈ ps) : b'.program.ReturnFree := by
  obtain ⟨qs, rs, rfl⟩ := append_of_mem hmem
  obtain ⟨hqs, hrest⟩ := forall_mem_append.1 stock
  obtain ⟨hpass, hrs⟩ := forall_mem_cons.1 hrest
  obtain ⟨b₁, es₁, es₂, hbefore, hafter⟩ := h.split
  cases hafter with
  | cons ready moves _ rest =>
    obtain ⟨hb₂, -⟩ := hpass.sound (hbefore.sound hqs hb).1 ready moves
    obtain ⟨-, hfollows⟩ := rest.sound hrs hb₂
    obtain ⟨run⟩ := moves
    cases run
    exact hfollows.returnFree hb₂.orderly (Program.returnFree_removeReturns hb₂.orderly)

theorem tabled_of_tableActions (h : Ran pl (ps ++ [.typeChecking, .tableActions]) b es b')
    (stock : ∀ pass ∈ ps, pass.Stock) (hb : b.Sound sources) : b'.program.Tabled sources := by
  obtain ⟨b₁, es₁, es₂, hbefore, hafter⟩ := h.split
  obtain ⟨hb₁, -⟩ := hbefore.sound stock hb
  cases hafter with
  | cons ready moves clean rest =>
    obtain ⟨-, herr⟩ := Pass.errors_of_typeChecking moves clean
    obtain ⟨hb₂, -⟩ := Pass.Stock.typeChecking.sound hb₁ ready moves
    cases rest with
    | cons ready moves _ rest =>
      cases rest
      obtain ⟨hrefs, htypes⟩ := hb₂.fresh.required ready
      obtain ⟨run⟩ := moves
      rw [Pass.runAt_tableActions, hrefs rfl, htypes rfl, hb₂.sources] at run
      exact Program.tabled_tableActions hb₂.orderly hb₂.distinct.nodup herr
        (eq_ok_of_mapError (congrArg (·.1.1) run))

theorem elaborated (h : Ran pl (ps ++ [.typeChecking, .evaluator]) b es b')
    (stock : ∀ pass ∈ ps, pass.Stock) (hb : b.Sound sources) (hmain : b.program.HasMain) :
    b'.Clean ∧ b'.program.check.errors = [] ∧
      ∃ t, b'.context.toplevel = some t ∧ t.program = b'.program ∧ t.main?.isSome := by
  obtain ⟨b₁, es₁, es₂, hbefore, hafter⟩ := h.split
  obtain ⟨hb₁, hfollows⟩ := hbefore.sound stock hb
  cases hafter with
  | cons ready moves clean rest =>
    obtain ⟨hsame, herr⟩ := Pass.errors_of_typeChecking moves clean
    obtain ⟨hb₂, -⟩ := Pass.Stock.typeChecking.sound hb₁ ready moves
    cases rest with
    | cons ready moves clean rest =>
      cases rest
      obtain ⟨run⟩ := moves
      obtain ⟨t, ht, rfl, rfl⟩ := Pass.elaborated_of_evaluator run
      have hmain₂ := hsame ▸ hmain.mono hfollows.insts
      rw [(hb₂.fresh.required ready).1 rfl] at ht
      refine ⟨clean, herr, t, rfl, ?_, hmain₂.elaborate hb₂.distinct.nodup herr ht⟩
      obtain ⟨is, -, hend⟩ := Elaboration.ok_of_bind ht
      cases hend
      rfl

end Ran

def Comes {α : Type} (x : StateT Context Supply (Run α)) (c : Context) (n : Nat) (a : α)
    (c' : Context) (n' : Nat) : Prop :=
  ∃ es, x c n = ((⟨.ok (some a), es⟩, c'), n')

namespace Comes

variable {α β : Type} {x : StateT Context Supply (Run α)} {next : α → StateT Context Supply (Run β)}
  {p q : Program} {c c' : Context} {n n' : Nat} {y : β} {t : Toplevel}

theorem andThen (h : Comes (x >>= fun r => r.andThen next) c n y c' n') :
    ∃ a c₁ n₁, Comes x c n a c₁ n₁ ∧ Comes (next a) c₁ n₁ y c' n' := by
  obtain ⟨es, h⟩ := h
  obtain ⟨⟨⟨⟨res, es₁⟩, c₁⟩, n₁⟩, hx⟩ : ∃ s, x c n = s := ⟨_, rfl⟩
  simp only [Supply.stateT_bind_apply, hx] at h
  obtain f | _ | a := res
  · cases h
  · cases h
  · refine ⟨a, c₁, n₁, ⟨es₁, hx⟩, ?_⟩
    obtain ⟨⟨⟨⟨res, es₂⟩, c₂⟩, n₂⟩, hnext⟩ : ∃ s, next a c₁ n₁ = s := ⟨_, rfl⟩
    simp only [Run.andThen, Supply.stateT_bind_apply, hnext] at h
    cases h
    exact ⟨es₂, hnext⟩

theorem ran {pl : Pipeline} (h : Comes (pl.result p) c n q c' n') :
    ∃ es, Ran pl.name pl.passes ⟨p, c, n⟩ es ⟨q, c', n'⟩ := by
  obtain ⟨es, h⟩ := h
  obtain ⟨⟨⟨⟨⟨res, es₁⟩, phase⟩, c₁⟩, n₁⟩, happly⟩ : ∃ s, pl.apply p c n = s := ⟨_, rfl⟩
  simp only [Pipeline.result, Supply.stateT_bind_apply, happly] at h
  obtain f | _ | x := res
  · cases h
  · cases h
  · cases h
    obtain ⟨-, hran⟩ := Pipeline.ran_of_apply (b := ⟨p, c, n⟩) happly
    exact ⟨es₁, hran⟩

theorem main (h : Comes (requireMain p) c n q c' n') :
    c.toplevel.any (·.main?.isSome) = true ∧ q = p ∧ c' = c ∧ n' = n := by
  obtain ⟨es, h⟩ := h
  change (((⟨.ok (if c.toplevel.any (·.main?.isSome) then some p else none), []⟩ : Run Program),
    c), n) = _ at h
  split at h
  · rename_i hfound
    cases h
    exact ⟨hfound, rfl, rfl, rfl⟩
  · cases h

theorem toplevel (h : Comes takeToplevel c n t c' n') :
    c.toplevel = some t ∧ c' = { c with toplevel := none } := by
  obtain ⟨es, h⟩ := h
  change (((⟨.ok c.toplevel, []⟩ : Run Toplevel), { c with toplevel := none }), n) = _ at h
  rw [Prod.mk.injEq, Prod.mk.injEq, Run.mk.injEq, Except.ok.injEq] at h
  exact ⟨h.1.1.1, h.1.2.symm⟩

end Comes

namespace Pipeline

theorem stock_legacy : ∀ pass ∈ legacy.passes, pass.Stock := by
  simp only [legacy, forall_mem_cons]
  exact ⟨.typeChecking, .removeReturns, .typeChecking, .evaluator, .discoverControls _,
    .inlineControls _ _, .removeUnused, .typeChecking, .discoverActions _, .inlineActions _,
    .removeUnused, forall_mem_nil _⟩

theorem stock_simplify : ∀ pass ∈ simplify.passes, pass.Stock := by
  simp only [simplify, forall_mem_cons]
  exact ⟨.typeChecking, .uniqueNames, .moveDeclarations, .typeChecking, .removeReturns,
    .typeChecking, .removeUnused, .typeChecking, .evaluator, forall_mem_nil _⟩

theorem stock_middle : ∀ pass ∈ middle.passes, pass.Stock := by
  simp only [middle, forall_mem_cons]
  exact ⟨.discoverControls _, .inlineControls _ _, .removeUnused, .typeChecking, .discoverActions _,
    .inlineActions _, .removeUnused, .typeChecking, .simplifyFlow, .typeChecking, .simplifyKeys _,
    .typeChecking, .simplifyFlow, .foldConstants, .reduceStrength, .typeChecking, .moveDeclarations,
    .typeChecking, .synthesizeActions, .typeChecking, .tableActions, .typeChecking,
    forall_mem_nil _⟩

theorem tidies_backend : ∀ pass ∈ backend.passes, pass.Tidies := by
  simp only [backend, forall_mem_cons]
  exact ⟨.typeChecking, .simplifyFlow, .typeChecking, .foldConstants, .typeChecking, .evaluator,
    forall_mem_nil _⟩

end Pipeline

theorem Pass.Tidies.stock {pass : Pass} (h : pass.Tidies) : pass.Stock := by
  cases h
  · exact .typeChecking
  · exact .evaluator
  · exact .simplifyFlow
  · exact .foldConstants

inductive Lowered : Dialect → Boundary → Boundary → Prop
  | legacy {b b' : Boundary} {es : List Event}
    (ran : Ran Pipeline.legacy.name Pipeline.legacy.passes b es b')
    (main : b'.context.toplevel.any (·.main?.isSome)) : Lowered .legacy b b'
  | current {b b₁ b' : Boundary} {es es' : List Event}
    (simple : Ran Pipeline.simplify.name Pipeline.simplify.passes b es b₁)
    (main : b₁.context.toplevel.any (·.main?.isSome))
    (middle : Ran Pipeline.middle.name Pipeline.middle.passes b₁ es' b') : Lowered .current b b'

namespace Lowered

variable {p q : Program} {c c' : Context} {n n' : Nat} {t : Toplevel} {b b' : Boundary}

theorem of_compileLegacy (h : Comes (compileLegacy p) c n q c' n') :
    Lowered .legacy ⟨p, c, n⟩ ⟨q, c', n'⟩ := by
  obtain ⟨q₁, c₁, n₁, hran, hmain⟩ := h.andThen
  obtain ⟨hfound, rfl, rfl, rfl⟩ := hmain.main
  obtain ⟨es, hran⟩ := hran.ran
  exact .legacy hran hfound

theorem of_compileCurrent (h : Comes (compileCurrent p) c n q c' n') :
    Lowered .current ⟨p, c, n⟩ ⟨q, c', n'⟩ := by
  rw [compileCurrent, ← bind_assoc] at h
  obtain ⟨q₁, c₁, n₁, hsimple, hmiddle⟩ := h.andThen
  obtain ⟨q₂, c₂, n₂, hran, hmain⟩ := hsimple.andThen
  obtain ⟨hfound, rfl, rfl, rfl⟩ := hmain.main
  obtain ⟨es, hran⟩ := hran.ran
  obtain ⟨es', hmiddle⟩ := hmiddle.ran
  exact .current hran hfound hmiddle

theorem of_compile (h : Comes p.compile c n t c' n') :
    ∃ b b' es, Lowered c.options.dialect ⟨p, c, n⟩ b ∧
      Ran Pipeline.backend.name Pipeline.backend.passes b es b' ∧ b'.context.toplevel = some t ∧
        c' = { b'.context with toplevel := none } := by
  have hlowering {lower : StateT Context Supply (Run Program)}
      (h : Comes (lower >>= fun r => r.andThen Pipeline.backend.result >>= fun r =>
        r.andThen fun _ => takeToplevel) c n t c' n') :
      ∃ b b' es, Comes lower c n b.program b.context b.supply ∧
        Ran Pipeline.backend.name Pipeline.backend.passes b es b' ∧ b'.context.toplevel = some t ∧
          c' = { b'.context with toplevel := none } := by
    rw [← bind_assoc] at h
    obtain ⟨q₁, c₁, n₁, hback, htake⟩ := h.andThen
    obtain ⟨q₂, c₂, n₂, hlower, hback⟩ := hback.andThen
    obtain ⟨es, hback⟩ := hback.ran
    exact ⟨⟨q₂, c₂, n₂⟩, ⟨q₁, c₁, n₁⟩, es, hlower, hback, htake.toplevel⟩
  obtain ⟨es, h⟩ := h
  simp only [Program.compile, Supply.stateT_bind_apply, Context.get_apply] at h
  cases hd : c.options.dialect with
  | legacy =>
    rw [hd] at h
    obtain ⟨b, b', es, hlower, hback⟩ := hlowering ⟨es, h⟩
    exact ⟨b, b', es, of_compileLegacy hlower, hback⟩
  | current =>
    rw [hd] at h
    obtain ⟨b, b', es, hlower, hback⟩ := hlowering ⟨es, h⟩
    exact ⟨b, b', es, of_compileCurrent hlower, hback⟩

theorem spec {dialect : Dialect} {sources : SourceMap} (h : Lowered dialect b b')
    (hb : b.Sound sources) :
    b'.Sound sources ∧ b'.program.ReturnFree ∧ b'.program.HasMain ∧
      (dialect = .current → b'.program.Tabled sources) := by
  have hfound {b : Boundary} (hb : b.Sound sources)
      (h : b.context.toplevel.any (·.main?.isSome) = true) : b.program.HasMain := by
    cases ht : b.context.toplevel with
    | none =>
      rw [ht] at h
      cases h
    | some t =>
      rw [ht] at h
      exact hb.main t ht h
  cases h with
  | legacy ran main =>
    obtain ⟨hb', -⟩ := ran.sound Pipeline.stock_legacy hb
    have hmem : .removeReturns ∈ Pipeline.legacy.passes := by simp [Pipeline.legacy]
    exact ⟨hb', ran.returnFree Pipeline.stock_legacy hb hmem, hfound hb' main, nofun⟩
  | current simple main middle =>
    obtain ⟨hb₁, -⟩ := simple.sound Pipeline.stock_simplify hb
    obtain ⟨hb', hfollows⟩ := middle.sound Pipeline.stock_middle hb₁
    have hmem : .removeReturns ∈ Pipeline.simplify.passes := by simp [Pipeline.simplify]
    have hfree := simple.returnFree Pipeline.stock_simplify hb hmem
    refine ⟨hb', hfollows.returnFree hb₁.orderly hfree, (hfound hb₁ main).mono hfollows.insts,
      fun _ => ?_⟩
    have hpasses : Pipeline.middle.passes = (Pipeline.middle.passes.take 19
        ++ [.typeChecking, .tableActions]) ++ [.typeChecking] := rfl
    rw [hpasses] at middle
    obtain ⟨b₂, es₁, es₂, htabling, hlast⟩ := middle.split
    have hstock : ∀ pass ∈ Pipeline.middle.passes.take 19, pass.Stock := fun pass hpass =>
      Pipeline.stock_middle pass (mem_of_mem_take hpass)
    exact hlast.tabled (forall_mem_singleton.2 .typeChecking)
      (htabling.tabled_of_tableActions hstock hb₁)

end Lowered

/-- What backends rely on. -/
structure Toplevel.WellFormed (sources : SourceMap) (dialect : Dialect) (t : Toplevel) : Prop where
  checked : t.program.check.errors = []
  main : t.main?.isSome
  returnFree : ∀ {d b}, .enter d ∈ t.program.visits → d.body? = some b →
    ∀ s e, .stmt (.ret s e) ∉ b.visits
  tabled : dialect = .current → ∀ {h tps ps cps ls b},
    .enter (.control h tps ps cps ls b) ∈ t.program.visits → sources.isLibrary h.span = false →
      ∀ {s e}, .stmt (.call s e) ∈ b.visits →
        ∀ a, Call.kind? t.program.check.refs t.program.check.types e ≠ some (.action a)

/-- What a compilation comes to is well formed, and no error was reported on the way. The program is
orderly, and each of its nodes has an identity of its own, as a supply gives them. -/
theorem Program.wellFormed_of_compile {p : Program} {sources : SourceMap} {options : Options}
    {n n' : Nat} {t : Toplevel} {es : List Event} {c : Context} (hp : p.Orderly)
    (hids : p.Distinct n)
    (run : p.compile (.new sources options) n = ((⟨.ok (some t), es⟩, c), n')) :
    c.diagnostics.hasErrors = false ∧ t.WellFormed sources options.dialect := by
  have hstart : Boundary.Sound sources ⟨p, .new sources options, n⟩ :=
    ⟨hids, hp, .new .., rfl, nofun⟩
  obtain ⟨b, b', es', hlowered, hback, htop, rfl⟩ := Lowered.of_compile ⟨es, run⟩
  obtain ⟨hb, hfree, hmain, htabled⟩ := hlowered.spec hstart
  have hstock (pass : Pass) (hpass : pass ∈ Pipeline.backend.passes) : pass.Stock :=
    (Pipeline.tidies_backend pass hpass).stock
  obtain ⟨hb', hfollows⟩ := hback.sound hstock hb
  have hpasses : Pipeline.backend.passes = Pipeline.backend.passes.take 4
      ++ [.typeChecking, .evaluator] := rfl
  have hback' := hback
  rw [hpasses] at hback'
  obtain ⟨hclean, herr, t', ht', hprogram, hfound⟩ := hback'.elaborated
    (fun pass hpass => hstock pass (List.mem_of_mem_take hpass)) hb hmain
  cases htop.symm.trans ht'
  refine ⟨hclean, hprogram ▸ herr, hfound, fun {d body} hd hbody s e hs => ?_, fun hd => ?_⟩
  · rw [hprogram] at hd
    exact hfollows.returnFree hb.orderly hfree s e
      (visits_subset_of_enter hd (Decl.visits_of_body? hbody hs))
  · rw [hprogram]
    intro h tps ps cps ls body hc hlib s e hs
    exact (hback.tabled Pipeline.tidies_backend (htabled hd)).kind?_ne_action hb'.orderly
      hb'.distinct.nodup herr (hb'.orderly.mem_decls_of_control hc) hlib hs

def returning : Program :=
  let assign (i : Nat) : Stmt :=
    .assign ⟨⟨i⟩, none⟩ (.path ⟨⟨i + 1⟩, none⟩ "x") (.lit ⟨⟨i + 2⟩, none⟩ 1 (.bits 8 false))
  let ret (i : Nat) : Stmt := .ret ⟨⟨i⟩, none⟩ none
  let call : Stmt := .call ⟨⟨8⟩, none⟩ (.call ⟨⟨9⟩, none⟩ (.path ⟨⟨10⟩, none⟩ "a") [] [])
  ⟨[.control ⟨⟨0⟩, "c", none⟩ [] [⟨⟨17⟩, "x", .inout, .bits 8 false, none⟩] []
      [.action ⟨⟨1⟩, "a", none⟩ [] (.mk ⟨2⟩ [ret 3, assign 4])]
      (.mk ⟨7⟩ [call, .ifThen ⟨⟨11⟩, none⟩ (.bool ⟨⟨12⟩, none⟩ true) (ret 13) none, assign 14]),
    .inst ⟨⟨18⟩, "main", none⟩ (.named "c") []]⟩

theorem Program.wellFormed_of_compile_returning :
    returning.Orderly ∧ returning.Distinct 19 ∧ ¬ returning.ReturnFree ∧
      ∃ t es c n, returning.compile (.new .empty .standard) 19 = ((⟨.ok (some t), es⟩, c), n) ∧
        c.diagnostics.hasErrors = false ∧ t.WellFormed .empty .current := by
  have hp : returning.Orderly := ((Weights.total_disorder 0 returning).1 (by decide)).1
  have hids : returning.Distinct 19 := ⟨by decide, by decide⟩
  have hreturn : ¬ returning.ReturnFree := by
    intro hfree
    apply hfree ⟨⟨3⟩, none⟩ none
    simp [returning, Program.visits, Decl.allVisits, Decl.visits, Block.visits, Stmt.allVisits,
      Stmt.visits]
  have hdone : ((returning.compile (.new .empty .standard) 19).1.1.result.toOption.bind
      id).isSome := by
    decide +kernel
  obtain ⟨⟨⟨⟨r, es⟩, c⟩, n⟩, hrun⟩ :
    ∃ r, returning.compile (.new .empty .standard) 19 = r := ⟨_, rfl⟩
  rw [hrun] at hdone
  obtain f | _ | t := r
  · cases hdone
  · cases hdone
  · exact ⟨hp, hids, hreturn, t, es, c, n, hrun, wellFormed_of_compile hp hids hrun⟩

end MatchAction
