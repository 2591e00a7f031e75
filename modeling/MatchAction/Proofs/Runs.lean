import MatchAction.Pipeline.Pass

namespace MatchAction

structure Boundary where
  program : Program
  context : Context
  supply : Nat

def Boundary.Clean (b : Boundary) : Prop := b.context.diagnostics.hasErrors = false

namespace Pass

variable (pass : Pass) (b b' : Boundary)

def staleAt : TableSet := pass.requires.inter b.context.stale

abbrev Ready : Prop := (pass.staleAt b).isEmpty = true

def runAt : (Except Failure (Edit Program) × Context) × Nat :=
  (pass.run b.program).run b.context b.supply

def left (x : Edit Program) (c : Context) (n : Nat) : Boundary :=
  ⟨x.get b.program, if x.isKeep then c else c.markStale pass.invalidates, n⟩

inductive Moves : Boundary → Prop
  | mk {x : Edit Program} {c : Context} {n : Nat} (run : pass.runAt b = ((.ok x, c), n)) :
    Moves (pass.left b x c n)

def before (pipeline : String) : Event := ⟨pipeline, pass.name, .before, b.program⟩

def after (pipeline : String) : Event := ⟨pipeline, pass.name, .after, b'.program⟩

end Pass

/-- The passes ran one after the other, each with its tables up to date, and none left errors. -/
inductive Ran (pipeline : String) : List Pass → Boundary → List Event → Boundary → Prop
  | nil (b : Boundary) : Ran pipeline [] b [] b
  | cons {pass : Pass} {passes : List Pass} {b b₁ b₂ : Boundary} {es : List Event}
    (ready : pass.Ready b) (moves : pass.Moves b b₁) (clean : b₁.Clean)
    (rest : Ran pipeline passes b₁ es b₂) :
    Ran pipeline (pass :: passes) b (pass.before b pipeline :: pass.after b₁ pipeline :: es) b₂

inductive Stops (pipeline : String) (pass : Pass) (b : Boundary) :
    Run (Edit Program) → Context → Nat → Prop
  | refused (stale : ¬ pass.Ready b) :
    Stops pipeline pass b ⟨.error (.staleTables pass.name (pass.staleAt b)), []⟩ b.context b.supply
  | failed {f : Failure} {c : Context} {n : Nat} (ready : pass.Ready b)
    (run : pass.runAt b = ((.error f, c), n)) :
    Stops pipeline pass b ⟨.error f, [pass.before b pipeline]⟩ c n
  | errors {b' : Boundary} (ready : pass.Ready b) (moves : pass.Moves b b') (dirty : ¬ b'.Clean) :
    Stops pipeline pass b ⟨.ok none, [pass.before b pipeline, pass.after b' pipeline]⟩
      b'.context b'.supply

section

variable {σ : Type}

/-- What hooks keep once they have heard of the events, each told to all of them in turn. -/
def told (hooks : List (Hook σ)) (es : List Event) (s : σ) : σ :=
  es.foldl (fun s e => hooks.foldl (fun s hook => hook e s) s) s

theorem told_append (hooks : List (Hook σ)) (es es' : List Event) (s : σ) :
    told hooks (es ++ es') s = told hooks es' (told hooks es s) := List.foldl_append

theorem told_recorder (es kept : List Event) : told [fun e es => es ++ [e]] es kept =
    kept ++ es := by
  induction es generalizing kept with
  | nil => exact (List.append_nil kept).symm
  | cons e es ih => exact (ih (kept ++ [e])).trans (List.append_assoc kept [e] es)

end

@[simp] theorem Context.get_apply (c : Context) (n : Nat) :
    (get : StateT Context Supply Context) c n = ((c, c), n) := rfl

namespace Monitored

variable {σ α β : Type} (m : Monitor σ) (c : Context) (n : Nat)

@[simp] theorem pure_apply (a : α) : (pure a : Monitored σ α) m c n = (((a, m), c), n) := rfl

@[simp] theorem bind_apply (x : Monitored σ α) (f : α → Monitored σ β) :
    (x >>= f) m c n = f (x m c n).1.1.1 (x m c n).1.1.2 (x m c n).1.2 (x m c n).2 := rfl

@[simp] theorem get_apply : (getThe Context : Monitored σ Context) m c n = (((c, m), c), n) := rfl

@[simp] theorem modify_apply (f : Context → Context) :
    (modifyThe Context f : Monitored σ PUnit) m c n = (((⟨⟩, m), f c), n) := rfl

@[simp] theorem lift_apply (x : StateT Context Supply α) :
    (liftM x : Monitored σ α) m c n = ((((x c n).1.1, m), (x c n).1.2), (x c n).2) := rfl

@[simp] theorem turnTo_apply (phase : Phase) :
    Pipeline.turnTo phase m c n = (((⟨⟩, { m with phase := phase }), c), n) := rfl

@[simp] theorem tell_apply (hooks : List (Hook σ)) (e : Event) :
    Pipeline.tell hooks e m c n = (((⟨⟩, { m with kept := told hooks [e] m.kept }), c), n) := by
  induction hooks generalizing m with
  | nil => rfl
  | cons hook hooks ih => exact ih { m with kept := hook e m.kept }

end Monitored

theorem Stops.result_ne {pass : Pass} (h : Stops pl pass b r c n) (q : Edit Program) :
    r.result ≠ .ok (some q) := by
  cases h <;> exact nofun

namespace Outcome

theorem map_of_ne {r : Outcome} (h : ∀ q, r ≠ .ok (some q)) (f : Edit Program → Edit Program) :
    Except.map (Option.map f) r = r := by
  obtain f | _ | q := r
  · rfl
  · rfl
  · exact absurd rfl (h q)

theorem map_keep (r : Outcome) : Except.map (Option.map Edit.keep.andThen) r = r := by
  obtain f | _ | x := r <;> simp [Except.map]

theorem map_andThen (x y : Edit Program) (r : Outcome) :
    Except.map (Option.map x.andThen) (Except.map (Option.map y.andThen) r) =
      Except.map (Option.map (x.andThen y).andThen) r := by
  have hassoc (z : Edit Program) : x.andThen (y.andThen z) = (x.andThen y).andThen z := by
    cases z <;> simp [Edit.andThen]
  obtain f | _ | z := r <;> simp [Except.map, hassoc]

end Outcome

namespace Pipeline

variable {σ : Type} {pl : String} {hooks : List (Hook σ)} {pass : Pass} {passes rest : List Pass}
  {b b₁ b' : Boundary} {es : List Event} {r : Run (Edit Program)} {c : Context} {n : Nat}

theorem step_apply (pl : String) (hooks : List (Hook σ)) (pass : Pass) (b : Boundary)
    (m : Monitor σ) :
    step pl hooks pass b.program m b.context b.supply =
      if (pass.staleAt b).isEmpty then
        match pass.runAt b with
        | ((.error f, c), n) =>
          (((.error f, ⟨.resting .aborted, told hooks [pass.before b pl] m.kept⟩), c), n)
        | ((.ok x, c), n) =>
          let b' := pass.left b x c n
          let kept := told hooks [pass.before b pl, pass.after b' pl] m.kept
          if b'.context.diagnostics.hasErrors then
            (((.ok none, ⟨.resting .aborted, kept⟩), b'.context), b'.supply)
          else (((.ok (some x), ⟨m.phase, kept⟩), b'.context), b'.supply)
      else
        (((.error (.staleTables pass.name (pass.staleAt b)), ⟨.resting .aborted, m.kept⟩),
          b.context), b.supply) := by
  have hstale : pass.requires.inter b.context.stale = pass.staleAt b := rfl
  have hrun : (pass.run b.program).run b.context b.supply = pass.runAt b := rfl
  unfold step
  simp only [Monitored.bind_apply, Monitored.get_apply, hstale]
  cases hready : (pass.staleAt b).isEmpty with
  | false => rfl
  | true =>
    simp only [Bool.not_true, Bool.false_eq_true, if_false, if_true, Monitored.bind_apply,
      Monitored.tell_apply, Monitored.lift_apply, hrun]
    obtain ⟨⟨x, c⟩, n⟩ := pass.runAt b
    cases x with
    | error f => rfl
    | ok x =>
      have hend (c : Context) (kept : σ) :
          (if c.diagnostics.hasErrors = true then do
            turnTo (.resting .aborted)
            return .ok none
          else return .ok (some x) : Monitored σ Outcome) ⟨m.phase, kept⟩ c n =
            if c.diagnostics.hasErrors then (((.ok none, ⟨.resting .aborted, kept⟩), c), n)
            else (((.ok (some x), ⟨m.phase, kept⟩), c), n) := by
        split <;> rfl
      cases x with
      | keep =>
        simp only [Edit.isKeep, Bool.not_true, Bool.false_eq_true, if_false, if_true,
          Monitored.bind_apply, Monitored.tell_apply, Monitored.get_apply, Pass.left]
        exact hend c _
      | put q =>
        simp only [Edit.isKeep, Bool.not_false, Bool.false_eq_true, if_false, if_true,
          Monitored.bind_apply, Monitored.modify_apply, Monitored.tell_apply,
          Monitored.get_apply, Pass.left]
        exact hend (c.markStale pass.invalidates) _

theorem step_stops (h : Stops pl pass b r c n) (hooks : List (Hook σ)) (m : Monitor σ) :
    step pl hooks pass b.program m b.context b.supply =
      (((r.result, ⟨.resting .aborted, told hooks r.events m.kept⟩), c), n) := by
  rw [step_apply]
  cases h with
  | refused stale => exact if_neg stale
  | failed ready run => rw [if_pos ready, run]
  | errors ready moves dirty =>
    obtain ⟨run⟩ := moves
    rw [Boundary.Clean, Bool.not_eq_false] at dirty
    rw [if_pos ready, run]
    exact if_pos dirty

theorem step_moves (pl : String) (ready : pass.Ready b) (moves : pass.Moves b b') (clean : b'.Clean)
    (hooks : List (Hook σ)) (m : Monitor σ) :
    ∃ x, x.get b.program = b'.program ∧ step pl hooks pass b.program m b.context b.supply =
      (((.ok (some x), ⟨m.phase, told hooks [pass.before b pl, pass.after b' pl] m.kept⟩),
        b'.context), b'.supply) := by
  obtain @⟨x, c, n, run⟩ := moves
  refine ⟨x, rfl, ?_⟩
  rw [Boundary.Clean] at clean
  rw [step_apply, if_pos ready, run]
  exact if_neg (Bool.not_eq_true _ ▸ clean)

theorem step_cases (pl : String) (pass : Pass) (b : Boundary) :
    (∃ b', pass.Ready b ∧ pass.Moves b b' ∧ b'.Clean) ∨ ∃ r c n, Stops pl pass b r c n := by
  by_cases ready : pass.Ready b
  · match run : pass.runAt b with
    | ((.error f, c), n) => exact .inr ⟨_, _, _, .failed ready run⟩
    | ((.ok x, c), n) =>
      by_cases clean : (pass.left b x c n).Clean
      · exact .inl ⟨_, ready, .mk run, clean⟩
      · exact .inr ⟨_, _, _, .errors ready (.mk run) clean⟩
  · exact .inr ⟨_, _, _, .refused ready⟩

/-- Passes that run in turn hand over to the rest, whatever phase the pipeline is in by then. -/
theorem steps_append (h : Ran pl passes b es b₁) {kept : σ} {r : Outcome} {m' : Monitor σ} {i : Nat}
    (hrest : ∀ phase, steps pl hooks (i + passes.length) rest b₁.program
      ⟨phase, told hooks es kept⟩ b₁.context b₁.supply = (((r, m'), c), n)) :
    ∃ x : Edit Program, x.get b.program = b₁.program ∧
      ∀ phase, steps pl hooks i (passes ++ rest) b.program ⟨phase, kept⟩ b.context b.supply =
        (((Except.map (Option.map x.andThen) r, m'), c), n) := by
  induction h generalizing i kept with
  | nil b => exact ⟨.keep, rfl, fun phase => by rw [Outcome.map_keep]; exact hrest phase⟩
  | @cons pass passes b b₁ b₂ es ready moves clean _ ih =>
    obtain ⟨x, hx, hstep⟩ := step_moves pl ready moves clean hooks ⟨.running i, kept⟩
    have hlater (phase : Phase) : steps pl hooks (i + 1 + passes.length) rest b₂.program
        ⟨phase, told hooks es (told hooks [pass.before b pl, pass.after b₁ pl] kept)⟩ b₂.context
        b₂.supply = (((r, m'), c), n) := by
      rw [← told_append, Nat.add_right_comm]
      exact hrest phase
    obtain ⟨y, hy, hsteps⟩ := ih hlater
    refine ⟨x.andThen y, by rw [Edit.get_andThen, hx, hy], fun phase => ?_⟩
    rw [List.cons_append, steps, ← Outcome.map_andThen]
    simp only [Monitored.bind_apply, Monitored.turnTo_apply, hstep, hx, hsteps]
    rfl

theorem steps_ran (h : Ran pl passes b es b') (hooks : List (Hook σ)) (i : Nat) (kept : σ) :
    ∃ q : Edit Program, q.get b.program = b'.program ∧
      ∀ phase, steps pl hooks i passes b.program ⟨phase, kept⟩ b.context b.supply =
        (((.ok (some q), ⟨.resting .completed, told hooks es kept⟩), b'.context), b'.supply) := by
  have hnil (phase : Phase) : steps pl hooks (i + passes.length) [] b'.program
      ⟨phase, told hooks es kept⟩ b'.context b'.supply =
        (((.ok (some .keep), ⟨.resting .completed, told hooks es kept⟩), b'.context), b'.supply) :=
          rfl
  obtain ⟨x, hx, hsteps⟩ := steps_append h hnil
  refine ⟨x, hx, fun phase => ?_⟩
  rw [← List.append_nil passes, hsteps phase]
  rfl

theorem steps_stops (h : Ran pl passes b es b₁) (stop : Stops pl pass b₁ r c n) (rest : List Pass)
    (hooks : List (Hook σ)) (i : Nat) (kept : σ) (phase : Phase) :
    steps pl hooks i (passes ++ pass :: rest) b.program ⟨phase, kept⟩ b.context b.supply =
      (((r.result, ⟨.resting .aborted, told hooks (es ++ r.events) kept⟩), c), n) := by
  have hpass (i : Nat) (phase : Phase) :
      steps pl hooks i (pass :: rest) b₁.program ⟨phase, told hooks es kept⟩ b₁.context b₁.supply =
        (((r.result, ⟨.resting .aborted, told hooks (es ++ r.events) kept⟩), c), n) := by
    rw [told_append, steps]
    simp only [Monitored.bind_apply, Monitored.turnTo_apply, step_stops stop hooks]
    have hne := stop.result_ne
    generalize r.result = o at hne
    obtain f | _ | q := o
    · rfl
    · rfl
    · exact absurd rfl (hne q)
  obtain ⟨x, -, hsteps⟩ := steps_append h (i := i) fun phase => hpass _ phase
  rw [hsteps phase, Outcome.map_of_ne stop.result_ne]

theorem ran_or_stops (pl : String) (passes : List Pass) (b : Boundary) :
    (∃ es b', Ran pl passes b es b') ∨
      ∃ done pass rest es b₁ r c n, passes = done ++ pass :: rest ∧ Ran pl done b es b₁ ∧
        Stops pl pass b₁ r c n := by
  induction passes generalizing b with
  | nil => exact .inl ⟨_, _, .nil b⟩
  | cons pass passes ih =>
    obtain ⟨b₁, ready, moves, clean⟩ | ⟨r, c, n, stop⟩ := step_cases pl pass b
    · obtain ⟨es, b', h⟩ | ⟨done, pass', rest, es, b₂, r, c, n, rfl, h, stop⟩ := ih b₁
      · exact .inl ⟨_, _, .cons ready moves clean h⟩
      · exact .inr ⟨pass :: done, pass', rest, _, b₂, r, c, n, rfl, .cons ready moves clean h, stop⟩
    · exact .inr ⟨[], pass, passes, [], b, r, c, n, rfl, .nil b, stop⟩

section

variable (pl : Pipeline) (hooks : List (Hook σ)) (m : Monitor σ)

theorem run_clean (h : b.Clean) : pl.run hooks b.program m b.context b.supply =
    steps pl.name hooks 0 pl.passes b.program ⟨.resting .ready, m.kept⟩ b.context b.supply := by
  rw [Boundary.Clean] at h
  simp only [run, Monitored.bind_apply, Monitored.turnTo_apply, Monitored.get_apply, h,
    Bool.false_eq_true, if_false]

theorem run_dirty (h : ¬ b.Clean) : pl.run hooks b.program m b.context b.supply =
    (((.ok none, ⟨.resting .aborted, m.kept⟩), b.context), b.supply) := by
  rw [Boundary.Clean, Bool.not_eq_false] at h
  simp only [run, Monitored.bind_apply, Monitored.turnTo_apply, Monitored.get_apply,
    Monitored.pure_apply, h, if_true]

end

/-- A run comes to a program exactly if there are no errors at the start and every pass goes
through in turn; then it is completed. Any other run is aborted: at the start, or at the pass where
it stops, and then nothing after that pass has run. The hooks have heard of the passes that ran. -/
theorem run_completes_or_aborts (pl : Pipeline) (hooks : List (Hook σ)) (b : Boundary)
    (m : Monitor σ) :
    ∃ r m' c n, pl.run hooks b.program m b.context b.supply = (((r, m'), c), n) ∧
      ((∃ q, r = .ok (some q)) ↔ b.Clean ∧ ∃ es b', Ran pl.name pl.passes b es b') ∧
      (∀ q, r = .ok (some q) → m'.phase = .resting .completed ∧
        ∃ es b', Ran pl.name pl.passes b es b' ∧ q.get b.program = b'.program ∧
          c = b'.context ∧ n = b'.supply ∧ m'.kept = told hooks es m.kept) ∧
      ((∀ q, r ≠ .ok (some q)) → m'.phase = .resting .aborted ∧
        (¬ b.Clean → r = .ok none ∧ c = b.context ∧ n = b.supply ∧ m'.kept = m.kept) ∧
        (b.Clean → ∃ done pass rest es b₁ last, pl.passes = done ++ pass :: rest ∧
          Ran pl.name done b es b₁ ∧ Stops pl.name pass b₁ ⟨r, last⟩ c n ∧
          m'.kept = told hooks (es ++ last) m.kept)) := by
  by_cases clean : b.Clean
  · rw [run_clean pl hooks m clean]
    obtain ⟨es, b', h⟩ | ⟨done, pass, rest, es, b₁, r, c, n, hpasses, h, stop⟩ :=
      ran_or_stops pl.name pl.passes b
    · obtain ⟨q, hq, hsteps⟩ := steps_ran h hooks 0 m.kept
      refine ⟨_, _, _, _, hsteps _, ⟨fun _ => ⟨clean, es, b', h⟩, fun _ => ⟨q, rfl⟩⟩, ?_, ?_⟩
      · rintro q' ⟨⟩
        exact ⟨rfl, es, b', h, hq, rfl, rfl, rfl⟩
      · exact fun hne => absurd rfl (hne q)
    · have hsteps := steps_stops h stop rest hooks 0 m.kept (.resting .ready)
      rw [← hpasses] at hsteps
      refine ⟨_, _, _, _, hsteps, ⟨?_, ?_⟩, ?_, ?_⟩
      · rintro ⟨q, hq⟩
        exact absurd hq (stop.result_ne q)
      · rintro ⟨-, es', b', h'⟩
        obtain ⟨q, -, hq⟩ := steps_ran h' hooks 0 m.kept
        exact absurd (congrArg (·.1.1.1) (hsteps.symm.trans (hq _))) (stop.result_ne q)
      · exact fun q hq => absurd hq (stop.result_ne q)
      · exact fun _ => ⟨rfl, fun hdirty => absurd clean hdirty, fun _ =>
          ⟨done, pass, rest, es, b₁, r.events, hpasses, h, stop, rfl⟩⟩
  · rw [run_dirty pl hooks m clean]
    exact ⟨_, _, _, _, rfl, ⟨nofun, fun h => absurd h.1 clean⟩, nofun, fun _ =>
      ⟨rfl, fun _ => ⟨rfl, rfl, rfl, rfl⟩, fun h => absurd h clean⟩⟩

/-! What is kept of a run that is only recorded. -/

theorem apply_eq (pl : Pipeline) {r : Outcome} {es : List Event} {phase : Phase}
    (h : pl.run [fun e es => es ++ [e]] b.program ⟨.resting .ready, []⟩ b.context b.supply =
      (((r, ⟨phase, es⟩), c), n)) :
    pl.apply b.program b.context b.supply = ((⟨⟨r, es⟩, phase⟩, c), n) := by
  have happly : pl.apply b.program b.context b.supply =
      let x := pl.run [fun e es => es ++ [e]] b.program ⟨.resting .ready, []⟩ b.context b.supply
      ((⟨⟨x.1.1.1, x.1.1.2.kept⟩, x.1.1.2.phase⟩, x.1.2), x.2) := rfl
  rw [happly, h]

theorem apply_dirty (pl : Pipeline) (h : ¬ b.Clean) : pl.apply b.program b.context b.supply =
    ((⟨⟨.ok none, []⟩, .resting .aborted⟩, b.context), b.supply) :=
  apply_eq pl (run_dirty pl _ _ h)

theorem apply_ran (pl : Pipeline) (clean : b.Clean) (h : Ran pl.name pl.passes b es b') :
    ∃ q : Edit Program, q.get b.program = b'.program ∧ pl.apply b.program b.context b.supply =
      ((⟨⟨.ok (some q), es⟩, .resting .completed⟩, b'.context), b'.supply) := by
  obtain ⟨q, hq, hsteps⟩ := steps_ran h [fun e es => es ++ [e]] 0 []
  refine ⟨q, hq, apply_eq pl ?_⟩
  rw [run_clean pl _ _ clean, hsteps, told_recorder, List.nil_append]

theorem apply_stops (pl : Pipeline) (clean : b.Clean) (hpasses : pl.passes = passes ++ pass :: rest)
    (h : Ran pl.name passes b es b₁) (stop : Stops pl.name pass b₁ r c n) :
    pl.apply b.program b.context b.supply =
      ((⟨⟨r.result, es ++ r.events⟩, .resting .aborted⟩, c), n) := by
  refine apply_eq pl ?_
  rw [run_clean pl _ _ clean, hpasses, steps_stops h stop, told_recorder, List.nil_append]

theorem ran_of_apply {pl : Pipeline} {q : Edit Program} {phase : Phase}
    (h : pl.apply b.program b.context b.supply = ((⟨⟨.ok (some q), es⟩, phase⟩, c), n)) :
    b.Clean ∧ Ran pl.name pl.passes b es ⟨q.get b.program, c, n⟩ := by
  by_cases clean : b.Clean
  · refine ⟨clean, ?_⟩
    obtain ⟨es', b', hran⟩ | ⟨done, pass, rest, es', b₁, r, c', n', hpasses, hran, stop⟩ :=
      ran_or_stops pl.name pl.passes b
    · obtain ⟨q', hq, happly⟩ := apply_ran pl clean hran
      rw [happly] at h
      cases h
      rw [hq]
      exact hran
    · rw [apply_stops pl clean hpasses hran stop] at h
      exact absurd (congrArg (·.1.1.result) h) (stop.result_ne q)
  · rw [apply_dirty pl clean] at h
    cases h

end Pipeline

end MatchAction
