import MatchAction.Proofs.Discovery
import MatchAction.Proofs.Equality
import MatchAction.Proofs.Placement
import MatchAction.Proofs.Regrouping

namespace MatchAction

open List

theorem Stmt.visits_eq_cons (s : Stmt) : s.visits = .stmt s :: s.visits.tail := by
  cases s with
  | ifThen t c a b => cases b <;> rfl
  | _ => rfl

theorem Stmt.stmt_mem_visits {s x : Stmt} : .stmt x ∈ s.visits ↔ x = s ∨
    .stmt x ∈ s.visits.tail := by
  rw [s.visits_eq_cons, mem_cons, tail_cons, Visit.stmt.injEq]

theorem Stmt.mem_allVisits :
    v ∈ Stmt.allVisits ss ↔ ∃ s ∈ ss, v ∈ s.visits := by
  induction ss with
  | nil => simp [Stmt.allVisits]
  | cons s ss ih => simp [Stmt.allVisits, ih]

namespace Actions

def work : Decl → List Stmt
  | .action _ _ b => b.stmts
  | _ => []

variable {refs : Refs} {types : Types} {n : Nat}

theorem ActionOf.work (h : ActionOf n run a) : work a = run := by
  cases h
  rfl

theorem Grouped.mem_work (h : Grouped refs types n ss ss' A)
    (x : Stmt) : x ∈ A.flatMap work ↔ x ∈ ss ∧ moves refs types x = true := by
  induction h with
  | nil => simp
  | stay here rest ih =>
    have hne : ¬ moves refs types ‹Stmt› = true := fun hm => by
      rw [not_stays_of_moves hm] at here
      cases here
    rw [ih, mem_cons]
    constructor
    · exact fun h => ⟨.inr h.1, h.2⟩
    · rintro ⟨rfl | hx, hm⟩
      · exact absurd hm hne
      · exact ⟨hx, hm⟩
  | run nonempty work stop action call rest ih =>
    rw [flatMap_cons, mem_append, mem_append, ih, action.work]
    constructor
    · rintro (hx | ⟨hx, hm⟩)
      · exact ⟨.inl hx, work x hx⟩
      · exact ⟨.inr hx, hm⟩
    · rintro ⟨hx | hx, hm⟩
      · exact .inl hx
      · exact .inr ⟨hx, hm⟩

theorem Lone.mem_work (h : Lone refs types n s s' A) (x : Stmt) :
    x ∈ A.flatMap work ↔ x = s ∧ moves refs types x = true := by
  cases h with
  | stay here =>
    simp only [flatMap_nil, not_mem_nil, false_iff, not_and]
    rintro rfl hm
    rw [not_stays_of_moves hm] at here
    cases here
  | run hm action call =>
    rw [flatMap_singleton, action.work, mem_singleton]
    constructor
    · rintro rfl
      exact ⟨rfl, hm⟩
    · exact And.left

theorem RegroupedStmt.work_iff (h : RegroupedStmt refs types n s s' A)
    (x : Stmt) : x = s' ∧ moves refs types x = true ↔ x = s ∧ moves refs types x = true := by
  cases h <;> first
    | exact Iff.rfl
    | (constructor <;> (rintro ⟨rfl, hm⟩; cases hm))

mutual
theorem RegroupedStmt.mem_work {s s' : Stmt} {A : List Decl} (x : Stmt) :
    RegroupedStmt refs types n s s' A →
      (x ∈ A.flatMap work ↔ .stmt x ∈ s.visits.tail ∧ moves refs types x = true)
  | .block t body => body.mem_work x
  | .assign t l r | .call t e => by simp [Stmt.visits, Expr.visits]
  | .ifThen t c ifTrue branch => by
    rw [flatMap_append, mem_append, ifTrue.mem_work x, branch.mem_work, ifTrue.work_iff]
    simp [Stmt.visits, Expr.visits, Stmt.stmt_mem_visits (x := x), ← or_and_right, or_comm]
  | .ifElse t c ifTrue ifFalse branch branch' => by
    simp only [flatMap_append, mem_append]
    rw [ifTrue.mem_work x, branch.mem_work, ifTrue.work_iff, ifFalse.mem_work x, branch'.mem_work,
      ifFalse.work_iff]
    simp only [Stmt.visits, Expr.visits, tail_cons, mem_append, mem_map, reduceCtorEq,
      and_false, exists_false, false_or, Stmt.stmt_mem_visits (x := x)]
    grind
  | .switch t e cases => by
    simpa [Stmt.visits, Expr.visits] using cases.mem_work x
  | .ret t e => by cases e <;> simp [Stmt.visits, Expr.visits?, Expr.visits]
  | .exit t | .empty t => by simp [Stmt.visits]
theorem RegroupedBlock.mem_work {b b' : Block} {A : List Decl} (x : Stmt) :
    RegroupedBlock refs types n b b' A →
      (x ∈ A.flatMap work ↔ .stmt x ∈ b.visits ∧ moves refs types x = true)
  | .mk i stmts runs => by
    rw [flatMap_append, mem_append, runs.mem_work, stmts.mem_work x]
    simp [Block.visits]
theorem RegroupedStmts.mem_work {ss ss' : List Stmt} {A : List Decl} (x : Stmt) :
    RegroupedStmts refs types n ss ss' A →
      (x ∈ A.flatMap work ∨ x ∈ ss' ∧ moves refs types x = true ↔
        .stmt x ∈ Stmt.allVisits ss ∧ moves refs types x = true)
  | .nil => by simp [Stmt.allVisits]
  | .cons head tail => by
    have hhead := head.mem_work x
    have htail := tail.mem_work x
    have hwork := head.work_iff x
    rw [flatMap_append, Stmt.allVisits, mem_append, mem_append, mem_cons,
      Stmt.stmt_mem_visits, or_and_right, or_and_right, or_and_right, hwork, ← hhead, ← htail]
    grind
theorem RegroupedCases.mem_work {cs cs' : List Case} {A : List Decl} (x : Stmt) :
    RegroupedCases refs types n cs cs' A →
      (x ∈ A.flatMap work ↔ .stmt x ∈ Case.visits cs ∧ moves refs types x = true)
  | .nil => by simp [Case.visits]
  | .run l body tail => by
    rw [flatMap_append, mem_append, body.mem_work x, tail.mem_work x, ← or_and_right]
    simp [Case.visits]
  | .fallThrough l tail => tail.mem_work x
end

theorem Grouped.actionOf (h : Grouped refs types n ss ss' A) :
    ∀ a ∈ A, ∃ run, ActionOf n run a := by
  induction h with
  | nil => exact fun _ h => absurd h not_mem_nil
  | stay here rest ih => exact ih
  | run nonempty work stop action call rest ih => exact forall_mem_cons.2 ⟨⟨_, action⟩, ih⟩

theorem Lone.actionOf (h : Lone refs types n s s' A) :
    ∀ a ∈ A, ∃ run, ActionOf n run a := by
  cases h with
  | stay here => exact fun _ h => absurd h not_mem_nil
  | run work action call => exact forall_mem_singleton.2 ⟨_, action⟩

mutual
theorem RegroupedStmt.actionOf :
    RegroupedStmt refs types n s s' A → ∀ a ∈ A, ∃ run, ActionOf n run a
  | .block t body => body.actionOf
  | .ifThen t c ifTrue branch => forall_mem_append.2 ⟨ifTrue.actionOf, branch.actionOf⟩
  | .ifElse t c ifTrue ifFalse branch branch' => forall_mem_append.2
      ⟨forall_mem_append.2 ⟨ifTrue.actionOf, ifFalse.actionOf⟩,
        forall_mem_append.2 ⟨branch.actionOf, branch'.actionOf⟩⟩
  | .switch t e cases => cases.actionOf
  | .assign .. | .call .. | .ret .. | .exit .. | .empty .. => fun _ h => absurd h not_mem_nil
theorem RegroupedBlock.actionOf :
    RegroupedBlock refs types n b b' A → ∀ a ∈ A, ∃ run, ActionOf n run a
  | .mk i stmts runs => forall_mem_append.2 ⟨stmts.actionOf, runs.actionOf⟩
theorem RegroupedStmts.actionOf :
    RegroupedStmts refs types n ss ss' A → ∀ a ∈ A, ∃ run, ActionOf n run a
  | .nil => fun _ h => absurd h not_mem_nil
  | .cons head tail => forall_mem_append.2 ⟨head.actionOf, tail.actionOf⟩
theorem RegroupedCases.actionOf :
    RegroupedCases refs types n cs cs' A → ∀ a ∈ A, ∃ run, ActionOf n run a
  | .nil => fun _ h => absurd h not_mem_nil
  | .run l body tail => forall_mem_append.2 ⟨body.actionOf, tail.actionOf⟩
  | .fallThrough l tail => tail.actionOf
end

variable {sources : SourceMap} {ds ds' A : List Decl}

theorem RegroupedDecls.actionOf (h : RegroupedDecls refs types n sources ds ds' A) :
    ∀ a ∈ A, ∃ run, ActionOf n run a := by
  induction h with
  | nil => exact fun _ h => absurd h not_mem_nil
  | keep here tail ih => exact ih
  | control here body tail ih => exact forall_mem_append.2 ⟨body.actionOf, ih⟩

theorem RegroupedDecls.mem_work (h : RegroupedDecls refs types n sources ds ds' A) (x : Stmt) :
    x ∈ A.flatMap work ↔ ∃ h tps ps cps ls b, .control h tps ps cps ls b ∈ ds ∧
      sources.isLibrary h.span = false ∧ b.declared = [] ∧ .stmt x ∈ b.visits ∧
        moves refs types x = true := by
  induction h with
  | nil => simp
  | keep here tail ih =>
    rw [ih]
    constructor
    · rintro ⟨h, tps, ps, cps, ls, b, hd, hx⟩
      exact ⟨h, tps, ps, cps, ls, b, .tail _ hd, hx⟩
    · rintro ⟨h, tps, ps, cps, ls, b, hd, hlib, hb, hx⟩
      rcases mem_cons.1 hd with rfl | hd
      · rw [edits_control.2 ⟨hlib, hb⟩] at here
        cases here
      · exact ⟨h, tps, ps, cps, ls, b, hd, hlib, hb, hx⟩
  | control here body tail ih =>
    rw [flatMap_append, mem_append, ih, body.mem_work]
    obtain ⟨hlib, hb⟩ := edits_control.1 here
    constructor
    · rintro (hx | ⟨h, tps, ps, cps, ls, b, hd, hx⟩)
      · exact ⟨_, _, _, _, _, _, .head _, hlib, hb, hx⟩
      · exact ⟨h, tps, ps, cps, ls, b, .tail _ hd, hx⟩
    · rintro ⟨h, tps, ps, cps, ls, b, hd, hlib, hb, hx⟩
      rcases mem_cons.1 hd with he | hd
      · cases he
        exact .inl hx
      · exact .inr ⟨h, tps, ps, cps, ls, b, hd, hlib, hb, hx⟩

end Actions

def Program.addedLocals (p q : Program) : List Decl :=
  (List.zipWith (fun d d' => d'.locals.drop d.locals.length) p.decls q.decls).flatten

theorem Actions.RegroupedDecls.flatten_locals (h : RegroupedDecls refs types n sources ds ds' A) :
    (List.zipWith (fun d d' => d'.locals.drop d.locals.length) ds ds').flatten = A := by
  induction h with
  | nil => rfl
  | keep here tail ih => simp [ih]
  | control here body tail ih =>
    rw [zipWith_cons_cons, flatten_cons, ih]
    simp [Decl.locals]

def Call.applies (refs : Refs) (types : Types) (e : Expr) : Bool :=
  match Call.kind? refs types e with
  | some (.apply ..) => true
  | _ => false

/-- New actions apply something exactly if a statement that moves does: an assignment that applies
controls and no table, or a call of an external method, external function or built-in operation with
an application among its parts. -/
theorem Program.synthesized_applies_iff {p : Program} {refs : Refs} {types : Types}
    {sources : SourceMap}
    {n : Nat} {x : Edit Program} (hx : ((p.synthesizeActions refs types sources).run n).1 = .ok x) :
    (∃ a ∈ p.addedLocals (x.get p), ∃ e, .expr e ∈ a.visits ∧ Call.applies refs types e = true) ↔
      ∃ h tps ps cps ls b, .control h tps ps cps ls b ∈ p.decls ∧ sources.isLibrary h.span = false ∧
        b.declared = [] ∧ ∃ s e, .stmt s ∈ b.visits ∧ Actions.moves refs types s = true ∧
          .expr e ∈ s.visits ∧ Call.applies refs types e = true := by
  obtain ⟨A, hA, -, -⟩ := Program.exists_regrouped hx
  have hvisits {a : Decl} (ha : a ∈ A) (e : Expr) :
      .expr e ∈ a.visits ↔ ∃ s ∈ Actions.work a, .expr e ∈ s.visits := by
    obtain ⟨run, hrun⟩ := hA.actionOf a ha
    cases hrun
    simp [Decl.visits, Block.visits, Actions.work, Block.stmts, Stmt.mem_allVisits]
  rw [addedLocals, hA.flatten_locals]
  constructor
  · rintro ⟨a, ha, e, he, happly⟩
    obtain ⟨s, hs, he⟩ := (hvisits ha e).1 he
    obtain ⟨h, tps, ps, cps, ls, b, hd, hlib, hb, hvisit, hmoves⟩ :=
      (hA.mem_work s).1 (List.mem_flatMap.2 ⟨a, ha, hs⟩)
    exact ⟨h, tps, ps, cps, ls, b, hd, hlib, hb, s, e, hvisit, hmoves, he, happly⟩
  · rintro ⟨h, tps, ps, cps, ls, b, hd, hlib, hb, s, e, hvisit, hmoves, he, happly⟩
    obtain ⟨a, ha, hs⟩ := List.mem_flatMap.1
      ((hA.mem_work s).2 ⟨h, tps, ps, cps, ls, b, hd, hlib, hb, hvisit, hmoves⟩)
    exact ⟨a, ha, e, (hvisits ha e).2 ⟨s, hs, he⟩, happly⟩

namespace Outlining

def applied (i : Nat) (n : String) : Expr :=
  .call ⟨⟨i⟩, none⟩ (.member ⟨⟨i + 1⟩, none⟩ (.path ⟨⟨i + 2⟩, none⟩ n) "apply") [] []

def store : Stmt := .assign ⟨⟨10⟩, none⟩ (.path ⟨⟨11⟩, none⟩ "v") (applied 12 "i")

def stored : Program := ⟨[.control ⟨⟨0⟩, "l", none⟩ [] [] [] [] (.mk ⟨1⟩ []),
  .control ⟨⟨2⟩, "c", none⟩ [] [⟨⟨3⟩, "b", .input, .bool, none⟩] []
    [.inst ⟨⟨4⟩, "i", none⟩ (.named "l") [], .var ⟨⟨5⟩, "v", none⟩ .void none]
    (.mk ⟨6⟩ [.ifThen ⟨⟨8⟩, none⟩ (.path ⟨⟨9⟩, none⟩ "b") store none])]⟩

theorem stored_applies : stored.check.errors = [] ∧ ∃ x,
    ((stored.synthesizeActions stored.check.refs stored.check.types .empty).run 15).1 = .ok x ∧
    ∃ a ∈ stored.addedLocals (x.get stored), ∃ e, .expr e ∈ a.visits ∧
      Call.applies stored.check.refs stored.check.types e = true := by
  have herr : stored.check.errors = [] := List.isEmpty_iff.1 (by decide +kernel)
  obtain ⟨x, hx⟩ : ∃ x, ((stored.synthesizeActions stored.check.refs stored.check.types .empty).run
    15).1 = .ok x := by
    refine ⟨.put ⟨[.control ⟨⟨0⟩, "l", none⟩ [] [] [] [] (.mk ⟨1⟩ []),
      .control ⟨⟨2⟩, "c", none⟩ [] [⟨⟨3⟩, "b", .input, .bool, none⟩] []
        [.inst ⟨⟨4⟩, "i", none⟩ (.named "l") [], .var ⟨⟨5⟩, "v", none⟩ .void none,
          .action ⟨⟨15⟩, "act", none⟩ [] (.mk ⟨16⟩ [store])]
        (.mk ⟨6⟩ [.ifThen ⟨⟨8⟩, none⟩ (.path ⟨⟨9⟩, none⟩ "b")
          (.call ⟨⟨18⟩, none⟩ (.call ⟨⟨19⟩, none⟩ (.path ⟨⟨17⟩, none⟩ "act") [] [])) none])]⟩, ?_⟩
    decide +kernel
  refine ⟨herr, x, hx, (Program.synthesized_applies_iff hx).2 ?_⟩
  refine ⟨_, _, _, _, _, _, .tail _ (.head _), rfl, rfl, store, applied 12 "i", ?_, ?_, ?_, ?_⟩
  · exact List.mem_of_getElem? (i := 3) rfl
  · decide +kernel
  · exact List.mem_of_getElem? (i := 2) rfl
  · decide +kernel

def ask : Stmt := .call ⟨⟨5⟩, none⟩ (.call ⟨⟨6⟩, none⟩ (.path ⟨⟨7⟩, none⟩ "f") []
  [.member ⟨⟨8⟩, none⟩ (applied 9 "t") "hit"])

def asking (more : List Decl) (s : Stmt) : Program :=
  ⟨[.externFn ⟨⟨0⟩, "f", none⟩ ⟨.void, "f", [], [⟨⟨1⟩, "b", .input, .bool, none⟩], none⟩,
    .control ⟨⟨2⟩, "c", none⟩ [] [] [] (.table ⟨⟨3⟩, "t", none⟩ [] [] none :: more) (.mk ⟨4⟩ [s])]⟩

/-- The application of a table moves into an action with the call it is an argument of. -/
theorem application_moved : (asking [] ask).ids.Nodup ∧ (asking [] ask).check.errors = [] ∧
    ((asking [] ask).synthesizeActions (asking [] ask).check.refs (asking [] ask).check.types
      .empty).run 12 = (.ok (.put (asking [.action ⟨⟨12⟩, "act", none⟩ [] (.mk ⟨13⟩ [ask])]
        (.call ⟨⟨15⟩, none⟩ (.call ⟨⟨16⟩, none⟩ (.path ⟨⟨14⟩, none⟩ "act") [] [])))), 17) ∧
    Visit.expr (applied 9 "t") ∈ ask.visits ∧
    Call.applies (asking [] ask).check.refs (asking [] ask).check.types (applied 9 "t") = true :=
  ⟨by decide, List.isEmpty_iff.1 (by decide +kernel),
    Prod.ext (by decide +kernel) (by decide +kernel), List.mem_of_getElem? (i := 4) rfl,
    by decide +kernel⟩

/-- `header T { bit<8> f; }` and a control `c(inout T x)` with an instance `self` of itself and an
action that declares a control `g<T>(inout T y)`, which applies an instance of `c` to `y`. -/
def overwritten (more : List Decl) (s : Stmt) : Program :=
  ⟨[.header ⟨⟨0⟩, "T", none⟩ [⟨.bits 8 false, "f"⟩],
    .control ⟨⟨1⟩, "c", none⟩ [] [⟨⟨2⟩, "x", .inout, .named "T", none⟩] []
      (.action ⟨⟨3⟩, "n", none⟩ [] (.mk ⟨4⟩ [.decl ⟨⟨5⟩, none⟩
        (.control ⟨⟨6⟩, "g", none⟩ ["T"] [⟨⟨7⟩, "y", .inout, .named "T", none⟩] []
          [.inst ⟨⟨8⟩, "i", none⟩ (.named "c") []]
          (.mk ⟨9⟩ [.call ⟨⟨10⟩, none⟩ (.call ⟨⟨11⟩, none⟩
            (.member ⟨⟨12⟩, none⟩ (.path ⟨⟨13⟩, none⟩ "i") "apply") []
              [.path ⟨⟨14⟩, none⟩ "y"])]))]) ::
        .inst ⟨⟨15⟩, "self", none⟩ (.named "c") [] :: more)
      (.mk ⟨16⟩ [.call ⟨⟨17⟩, none⟩ (.call ⟨⟨18⟩, none⟩
        (.member ⟨⟨19⟩, none⟩ (.path ⟨⟨20⟩, none⟩ "self") "apply")
        [] [.path ⟨⟨21⟩, none⟩ "x"]), s])]⟩

def setField : Stmt :=
  .assign ⟨⟨22⟩, none⟩ (.member ⟨⟨23⟩, none⟩ (.path ⟨⟨24⟩, none⟩ "x") "f")
    (.lit ⟨⟨25⟩, none⟩ 1 (.bits 8 false))

/-- In an action, the assignment is checked after `x` has got the type of `y`. -/
theorem setField_fails : (overwritten [] setField).check.errors = [] ∧
    ((overwritten [] setField).synthesizeActions (overwritten [] setField).check.refs
        (overwritten [] setField).check.types .empty).run 26 =
      (.ok (.put (overwritten [.action ⟨⟨26⟩, "act", none⟩ [] (.mk ⟨27⟩ [setField])]
        (.call ⟨⟨29⟩, none⟩ (.call ⟨⟨30⟩, none⟩ (.path ⟨⟨28⟩, none⟩ "act") [] [])))), 31) ∧
    (overwritten [.action ⟨⟨26⟩, "act", none⟩ [] (.mk ⟨27⟩ [setField])]
      (.call ⟨⟨29⟩, none⟩ (.call ⟨⟨30⟩, none⟩ (.path ⟨⟨28⟩, none⟩ "act") []
        []))).check.errors.isEmpty = false :=
  ⟨List.isEmpty_iff.1 (by decide +kernel), Prod.ext (by decide +kernel) (by decide +kernel),
    by decide +kernel⟩

def passV (i : Nat) : Expr := .call ⟨⟨i⟩, none⟩ (.path ⟨⟨i + 1⟩, none⟩ "a") []
    [.path ⟨⟨i + 2⟩, none⟩ "v"]

def declaring (more : List Decl) (s : Stmt) : Program :=
  ⟨[.control ⟨⟨0⟩, "c", none⟩ [] [] []
    (.action ⟨⟨1⟩, "a", none⟩ [⟨⟨2⟩, "x", .input, .bits 8 false, none⟩] (.mk ⟨3⟩ []) :: more)
    (.mk ⟨4⟩ [.decl ⟨⟨5⟩, none⟩ (.var ⟨⟨6⟩, "v", none⟩ (.bits 8 false) none), s])]⟩

def passing : Program := declaring [] (.call ⟨⟨7⟩, none⟩ (passV 8))

def passed : Program := declaring [.table ⟨⟨14⟩, "tbl_a", none⟩ [] [passV 11] (some (passV 8))]
  (.call ⟨⟨7⟩, none⟩ (.call ⟨⟨16⟩, none⟩ (.member ⟨⟨17⟩, none⟩ (.path ⟨⟨15⟩, none⟩ "tbl_a") "apply")
    [] []))

/-- The call of `a` moves out of the scope of its argument. -/
theorem argument_lost : passing.check.errors = [] ∧
    (passing.tableActions passing.check.refs passing.check.types .empty).run 11 =
      (.ok (.put passed), 18) ∧
    passed.check.errors.isEmpty = false :=
  ⟨List.isEmpty_iff.1 (by decide +kernel), Prod.ext (by decide +kernel) (by decide +kernel),
    by decide +kernel⟩

end Outlining

end MatchAction
