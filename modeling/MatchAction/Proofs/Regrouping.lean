import MatchAction.Proofs.Toplevel

/-!
What the body of a control becomes when its work moves into actions. In every list of statements
each run of statements that do work becomes one new action, called in its place, and a branch that
does work becomes the call of an action of its own; nothing else changes. The new actions come in
the order in which the runs end, inner ones first.
-/

namespace MatchAction

open List

def Undeclared (vs : List Visit) : Prop := ∀ t d, Visit.stmt (.decl t d) ∉ vs

theorem Undeclared.mono (h : Undeclared ws) (hs : vs ⊆ ws) : Undeclared vs :=
  fun t d hv => h t d (hs hv)

theorem Block.undeclared {b : Block} (h : b.declared = []) : Undeclared b.visits := by
  intro t d hv
  have hd : d ∈ b.declared := mem_filterMap.2 ⟨_, hv, rfl⟩
  rw [h] at hd
  cases hd

structure Names.HandsOut (names : List String) (ns ns' : Names) : Prop where
  used : ns.used ++ names ⊆ ns'.used
  nodup : names.Nodup
  fresh : ∀ name ∈ names, name ∉ ns.used

namespace Names.HandsOut

variable {names names' : List String} {ns ns₁ ns₂ : Names}

theorem refl (ns : Names) : HandsOut [] ns ns := ⟨by simp, .nil, fun _ h => absurd h not_mem_nil⟩

theorem trans (h : HandsOut names ns ns₁) (h' : HandsOut names' ns₁ ns₂) :
    HandsOut (names ++ names') ns ns₂ where
  used := by
    rw [← append_assoc]
    refine append_subset.2 ⟨?_, (append_subset.1 h'.used).2⟩
    exact List.Subset.trans h.used (append_subset.1 h'.used).1
  nodup := h.nodup.append h'.nodup fun name hn hn' =>
    h'.fresh name hn' (h.used (mem_append_right _ hn))
  fresh name hn := by
    rcases mem_append.1 hn with hn | hn
    · exact h.fresh name hn
    · exact fun hused => h'.fresh name hn (h.used (mem_append_left _ hused))

theorem pick (ns : Names) (base : String) :
    HandsOut [ns.pick base] ns (ns.reserve (ns.pick base)) where
  used := append_subset.2
    ⟨subset_cons_self .., cons_subset_cons _ (nil_subset _)⟩
  nodup := nodup_singleton _
  fresh name hn := by
    rw [mem_singleton.1 hn]
    exact ns.pick_not_mem base

end Names.HandsOut

namespace Actions

section

variable (refs : Refs) (types : Types)

/-- The statements that do work: assignments that apply no table, and calls of methods and
functions of externals and of built-in operations. -/
def moves : Stmt → Bool
  | .assign _ l r => !(appliesTable refs types l || appliesTable refs types r)
  | .call _ e =>
    match Call.kind? refs types e with
    | none | some (.apply ..) | some (.action ..) => false
    | _ => true
  | _ => false

/-- The statements that have their place in the body of a control: all but assignments that apply no
table, and calls other than those of tables, controls and actions. -/
def stays : Stmt → Bool
  | .assign _ l r => appliesTable refs types l || appliesTable refs types r
  | .call _ e =>
    match Call.kind? refs types e with
    | some (.apply ..) | some (.action ..) => true
    | _ => false
  | _ => true

variable {refs types}

theorem not_stays_of_moves (h : moves refs types s = true) : stays refs types s = false := by
  cases s with
  | assign t l r => simpa [moves, stays] using h
  | call t e =>
    simp only [moves, stays] at h ⊢
    generalize Call.kind? refs types e = k at h ⊢
    rcases k with _ | k
    · rfl
    · cases k <;> first | rfl | cases h
  | _ => cases h

end

inductive CallOf (n : Nat) (name : String) : Stmt → Prop
  | mk {t t₁ t₂ : Tag} (ht : n ≤ t.id.val) (ht₁ : n ≤ t₁.id.val) (ht₂ : n ≤ t₂.id.val) :
    CallOf n name (.call t (.call t₁ (.path t₂ name) [] []))

inductive ActionOf (n : Nat) (run : List Stmt) : Decl → Prop
  | mk {h : Head} {i : NodeId} (hid : n ≤ h.id.val) (hi : n ≤ i.val) :
    ActionOf n run (.action h [] (.mk i run))

section

variable (refs : Refs) (types : Types) (n : Nat)

/-- A list of statements with calls in place of runs, and the actions that are called. -/
inductive Grouped : List Stmt → List Stmt → List Decl → Prop
  | nil : Grouped [] [] []
  | stay {s : Stmt} {ss ss' : List Stmt} {A : List Decl} (here : stays refs types s = true)
    (rest : Grouped ss ss' A) : Grouped (s :: ss) (s :: ss') A
  | run {run ss ss' : List Stmt} {A : List Decl} {a : Decl} {c : Stmt} (nonempty : run ≠ [])
    (work : ∀ s ∈ run, moves refs types s = true) (stop : ∀ s ∈ ss.head?, stays refs types s = true)
    (action : ActionOf n run a) (call : CallOf n a.name c) (rest : Grouped ss ss' A) :
    Grouped (run ++ ss) (c :: ss') (a :: A)

inductive Lone : Stmt → Stmt → List Decl → Prop
  | stay {s : Stmt} (here : stays refs types s = true) : Lone s s []
  | run {s c : Stmt} {a : Decl} (work : moves refs types s = true) (action : ActionOf n [s] a)
    (call : CallOf n a.name c) : Lone s c [a]

mutual
inductive RegroupedStmt : Stmt → Stmt → List Decl → Prop
  | block {b b' : Block} {A : List Decl} (t : Tag) (body : RegroupedBlock b b' A) :
    RegroupedStmt (.block t b) (.block t b') A
  | assign (t : Tag) (l r : Expr) : RegroupedStmt (.assign t l r) (.assign t l r) []
  | call (t : Tag) (e : Expr) : RegroupedStmt (.call t e) (.call t e) []
  | ifThen {a a' a'' : Stmt} {A A' : List Decl} (t : Tag) (c : Expr) (ifTrue : RegroupedStmt a a' A)
    (branch : Lone refs types n a' a'' A') :
    RegroupedStmt (.ifThen t c a none) (.ifThen t c a'' none) (A ++ A')
  | ifElse {a a' a'' b b' b'' : Stmt} {A A' B B' : List Decl} (t : Tag) (c : Expr)
    (ifTrue : RegroupedStmt a a' A) (ifFalse : RegroupedStmt b b' B)
    (branch : Lone refs types n a' a'' A') (branch' : Lone refs types n b' b'' B') :
    RegroupedStmt (.ifThen t c a (some b)) (.ifThen t c a'' (some b'')) (A ++ B ++ (A' ++ B'))
  | switch {cs cs' : List Case} {A : List Decl} (t : Tag) (e : Expr)
    (cases : RegroupedCases cs cs' A) : RegroupedStmt (.switch t e cs) (.switch t e cs') A
  | ret (t : Tag) (e : Option Expr) : RegroupedStmt (.ret t e) (.ret t e) []
  | exit (t : Tag) : RegroupedStmt (.exit t) (.exit t) []
  | empty (t : Tag) : RegroupedStmt (.empty t) (.empty t) []
inductive RegroupedBlock : Block → Block → List Decl → Prop
  | mk {ss ss' ss'' : List Stmt} {A B : List Decl} (i : NodeId) (stmts : RegroupedStmts ss ss' A)
    (runs : Grouped refs types n ss' ss'' B) : RegroupedBlock (.mk i ss) (.mk i ss'') (A ++ B)
inductive RegroupedStmts : List Stmt → List Stmt → List Decl → Prop
  | nil : RegroupedStmts [] [] []
  | cons {s s' : Stmt} {ss ss' : List Stmt} {A B : List Decl} (head : RegroupedStmt s s' A)
    (tail : RegroupedStmts ss ss' B) : RegroupedStmts (s :: ss) (s' :: ss') (A ++ B)
inductive RegroupedCases : List Case → List Case → List Decl → Prop
  | nil : RegroupedCases [] [] []
  | run {b b' : Block} {cs cs' : List Case} {A B : List Decl} (l : Label)
    (body : RegroupedBlock b b' A) (tail : RegroupedCases cs cs' B) :
    RegroupedCases (.run l b :: cs) (.run l b' :: cs') (A ++ B)
  | fallThrough {cs cs' : List Case} {A : List Decl} (l : Label) (tail : RegroupedCases cs cs' A) :
    RegroupedCases (.fallThrough l :: cs) (.fallThrough l :: cs') A
end

end

/-! The run of the editor. -/

structure Adds (A : List Decl) (st st' : State) : Prop where
  added : st'.added = st.added ++ A
  names : st.names.HandsOut (A.map (·.name)) st'.names

namespace Adds

variable {A B : List Decl} {st st₁ st₂ : State}

theorem refl (st : State) : Adds [] st st := ⟨(append_nil _).symm, .refl _⟩

theorem trans (h : Adds A st st₁) (h' : Adds B st₁ st₂) : Adds (A ++ B) st st₂ where
  added := by rw [h'.added, h.added, append_assoc]
  names := by
    rw [map_append]
    exact h.names.trans h'.names

end Adds

/-- What a step makes and adds if no call fails to be classified, with identities from `n₀` on. -/
structure Runs (n₀ : Nat) {α : Type} (x : Editing State α) (P : List Decl → α → Prop) : Prop where
  le : ∀ st n, n ≤ (x st n).2
  error : ∀ st n, (x st n).1.2.error = none → st.error = none
  adds : ∀ st n, n₀ ≤ n → (x st n).1.2.error = none →
    ∃ A, Adds A st (x st n).1.2 ∧ P A (x st n).1.1

namespace Runs

variable {n₀ : Nat} {α β : Type} {x : Editing State α} {f : α → Editing State β}
  {P : List Decl → α → Prop} {Q : α → List Decl → β → Prop} {R : List Decl → β → Prop}

theorem steady (hle : ∀ st n, n ≤ (x st n).2) (hx : ∀ st n, (x st n).1.2 = st)
    (h : ∀ st n, P [] (x st n).1.1) : Runs n₀ x P where
  le := hle
  error st n he := hx st n ▸ he
  adds st n _ _ := ⟨[], by rw [hx]; exact .refl st, h st n⟩

theorem pure (h : P [] a) : Runs n₀ (Pure.pure a) P :=
  .steady (fun _ _ => Nat.le_refl _) (fun _ _ => rfl) fun _ _ => h

theorem bind (hx : Runs n₀ x P) (hf : ∀ a, Runs n₀ (f a) (Q a))
    (h : ∀ A B a b, P A a → Q a B b → R (A ++ B) b) : Runs n₀ (x >>= f) R where
  le st n := Nat.le_trans (hx.le st n) ((hf _).le _ _)
  error st n he := hx.error st n ((hf _).error _ _ he)
  adds st n hn he := by
    obtain ⟨A, hA, hP⟩ := hx.adds st n hn ((hf _).error _ _ he)
    obtain ⟨B, hB, hQ⟩ := (hf _).adds _ _ (Nat.le_trans hn (hx.le st n)) he
    exact ⟨A ++ B, hA.trans hB, h A B _ _ hP hQ⟩

theorem map (hx : Runs n₀ x P) (h : ∀ A a, P A a → R A (g a)) :
    Runs n₀ (g <$> x) R where
  le := hx.le
  error := hx.error
  adds st n hn he := by
    obtain ⟨A, hA, hP⟩ := hx.adds st n hn he
    exact ⟨A, hA, h A _ hP⟩

theorem both {γ : Type} {y : Editing State β} (g : α → β → γ) {Q : List Decl → β → Prop}
    {R : List Decl → γ → Prop} (hx : Runs n₀ x P) (hy : Runs n₀ y Q)
    (h : ∀ A B a b, P A a → Q B b → R (A ++ B) (g a b)) :
    Runs n₀ (x >>= fun a => y >>= fun b => Pure.pure (g a b)) R := by
  refine hx.bind (Q := fun a B c => ∃ b, Q B b ∧ c = g a b) (fun a => ?_) ?_
  · rw [bind_pure_comp]
    exact hy.map fun B b hb => ⟨b, hb, rfl⟩
  · rintro A B a c ha ⟨b, hb, rfl⟩
    exact h A B a b ha hb

end Runs

variable {refs : Refs} {types : Types} {n₀ : Nat}

theorem plainExprs_synthesis : (synthesis refs types).PlainExprs := ⟨fun _ => rfl, fun _ => rfl⟩

theorem runs_works (s : Stmt) : Runs n₀ (works refs types s)
    fun A does => A = [] ∧ if does = true then moves refs types s = true else stays refs types
      s = true := by
  have hpure {does : Bool} (h : if does = true then moves refs types s = true else stays refs
    types s = true) : Runs n₀ (pure does : Editing State Bool) fun A does =>
        A = [] ∧ if does = true then moves refs types s = true else stays refs types s = true :=
    .pure ⟨rfl, h⟩
  cases s with
  | assign t l r =>
    refine hpure ?_
    simp only [moves, stays]
    cases appliesTable refs types l || appliesTable refs types r <;> rfl
  | call t e =>
    simp only [works]
    split
    · rename_i c hc
      have hkind : Call.kind? refs types e = some c.kind := by rw [Call.kind?, hc]
      split
      · rename_i hk
        exact hpure (by simp [stays, hkind, hk])
      · rename_i hk
        exact hpure (by simp [stays, hkind, hk])
      · rename_i hap hac
        refine hpure ?_
        simp only [if_true, moves, hkind]
        split
        · rename_i hk
          cases hk
        · rename_i hk
          exact absurd (Option.some.inj hk) (hap _ _)
        · rename_i hk
          exact absurd (Option.some.inj hk) (hac _)
        · rfl
    · rename_i err _
      refine ⟨fun _ _ => Nat.le_refl _, fun st n he => ?_, fun st n _ he => ?_⟩
      · exact (Option.or_eq_none_iff.1 he).1
      · exact absurd (Option.or_eq_none_iff.1 he).2 (Option.some_ne_none _)
  | _ => exact hpure rfl

theorem runs_synthesize (first : Stmt) (run : List Stmt) : Runs n₀ (synthesize first run)
    fun A c => ∃ a, A = [a] ∧ ActionOf n₀ run a ∧ CallOf n₀ a.name c where
  le st n := Nat.le_add_right n 5
  error _ _ he := he
  adds st n hn _ := by
    let h : Head := ⟨⟨n⟩, st.names.pick "act", first.span⟩
    refine ⟨[.action h [] (.mk ⟨n + 1⟩ run)], ⟨rfl, .pick st.names "act"⟩, _, rfl,
      .mk hn (Nat.le_succ_of_le hn), .mk ?_ ?_ ?_⟩
    all_goals
      dsimp only
      omega

theorem runs_close (run : List Stmt) : Runs n₀ (close run) fun A cs =>
    (run = [] ∧ A = [] ∧ cs = []) ∨
      (run ≠ [] ∧ ∃ a c, A = [a] ∧ cs = [c] ∧ ActionOf n₀ run a ∧ CallOf n₀ a.name c) := by
  cases run with
  | nil => exact .pure (.inl ⟨rfl, rfl, rfl⟩)
  | cons s ss =>
    rw [close, bind_pure_comp]
    refine (runs_synthesize s (s :: ss)).map ?_
    rintro A c ⟨a, hA, ha, hc⟩
    exact .inr ⟨cons_ne_nil _ _, a, c, hA, rfl, ha, hc⟩

theorem runs_regroup (ss : List Stmt) : ∀ run : List Stmt, Runs n₀ (regroup refs types run ss)
    fun A r =>
    (∀ s ∈ run, moves refs types s = true) → Grouped refs types n₀ (run ++ ss) r.1 A ∧
      (r.2 = false → r.1 = run ++ ss) := by
  induction ss with
  | nil =>
    intro run
    rw [regroup, bind_pure_comp, append_nil]
    refine (runs_close run).map ?_
    rintro A cs (⟨rfl, rfl, rfl⟩ | ⟨hne, a, c, rfl, rfl, ha, hc⟩) hrun
    · exact ⟨.nil, fun _ => rfl⟩
    · refine ⟨?_, fun h => absurd h (by simpa using hne)⟩
      have h : Grouped refs types n₀ (run ++ []) [c] [a] :=
        .run hne hrun (by rintro _ ⟨⟩) ha hc .nil
      rwa [append_nil] at h
  | cons s ss ih =>
    intro run
    rw [regroup]
    refine (runs_works s).bind (Q := fun does A r => (if does = true then moves refs types s = true
      else stays refs types s = true) → (∀ s ∈ run, moves refs types s = true) →
        Grouped refs types n₀ (run ++ s :: ss) r.1 A ∧ (r.2 = false → r.1 = run ++ s :: ss))
      (fun does => ?_) ?_
    · cases does with
      | true =>
        refine (ih (run ++ [s])).map (g := id) fun A r hr hs hrun => ?_
        simpa using hr (by simpa [or_imp, forall_and] using ⟨hrun, hs⟩)
      | false =>
        refine (runs_close run).bind (Q := fun front A r => ∃ ss' changed,
          r = (front ++ s :: ss', changed || !run.isEmpty) ∧
          Grouped refs types n₀ ss ss' A ∧ (changed = false → ss' = ss)) (fun front => ?_) ?_
        · simp only [bind_pure_comp]
          refine (ih []).map fun A r hr => ?_
          exact ⟨r.1, r.2, rfl, hr (fun _ h => absurd h not_mem_nil)⟩
        · rintro A B front r (⟨rfl, rfl, rfl⟩ | ⟨hne, a, c, rfl, rfl, ha, hc⟩) ⟨ss', changed, rfl,
            hss, hsame⟩ hs hrun
          · exact ⟨.stay hs hss, fun h => by simpa using hsame (by simpa using h)⟩
          · refine ⟨.run hne hrun (fun x hx => ?_) ha hc (.stay hs hss),
              fun h => absurd h (by simpa using fun _ => hne)⟩
            cases hx
            exact hs
    · rintro A B does r ⟨rfl, hdoes⟩ hr
      exact hr hdoes

theorem runs_wrapBranch (s : Stmt) : Runs n₀ (wrapBranch refs types s)
    fun A x => Lone refs types n₀ s (x.get s) A := by
  refine (runs_works s).bind (Q := fun does A x => (if does = true then moves refs types s = true
    else stays refs types s = true) → Lone refs types n₀ s (x.get s) A) (fun does => ?_) ?_
  · cases does with
    | true =>
      rw [if_pos rfl, bind_pure_comp]
      refine (runs_synthesize s [s]).map ?_
      rintro A c ⟨a, rfl, ha, hc⟩ hs
      exact .run hs ha hc
    | false => exact .pure fun hs => .stay hs
  · rintro A B does x ⟨rfl, hdoes⟩ hx
    exact hx hdoes

theorem runs_aroundStmt {α : Type} {s : Stmt} (g : α → Edit Stmt) {x : Editing State α}
    {P : List Decl → α → Prop} {Q : α → List Decl → Stmt → Prop} (hx : Runs n₀ x P)
    (hleave : ∀ a, Runs n₀ ((synthesis refs types).leaveStmt ((g a).get s)) fun B ys =>
      ∃ y, ys = [y] ∧ Q a B (y.get ((g a).get s)))
    (h : ∀ A B a s', P A a → Q a B s' → RegroupedStmt refs types n₀ s s' (A ++ B)) :
    Runs n₀ ((synthesis refs types).aroundStmt Editor.stop false s ((fun a => [g a]) <$> x))
      fun A ys => ∃ y, ys = [y] ∧ RegroupedStmt refs types n₀ s (y.get s) A := by
  rw [Editor.aroundStmt_descend rfl, bind_map_left]
  simp only [Editor.leaveEach_singleton]
  refine hx.bind (fun a => (hleave a).map (R := fun B ys => ∃ y, ys = [y] ∧ Q a B (y.get s)) ?_) ?_
  · rintro B ys ⟨y, rfl, hy⟩
    exact ⟨(g a).andThen y, rfl, by rwa [Edit.get_andThen]⟩
  · rintro A B a ys ha ⟨y, rfl, hy⟩
    exact ⟨y, rfl, h A B a _ ha hy⟩

theorem runs_settled {α : Type} {s : Stmt} (g : α → Edit Stmt) {x : Editing State α}
    {P : List Decl → α → Prop} (hx : Runs n₀ x P)
    (hleave : ∀ a, (synthesis refs types).leaveStmt ((g a).get s) = pure [.keep])
    (h : ∀ A a, P A a → RegroupedStmt refs types n₀ s ((g a).get s) A) :
    Runs n₀ ((synthesis refs types).aroundStmt Editor.stop false s ((fun a => [g a]) <$> x))
      fun A ys => ∃ y, ys = [y] ∧ RegroupedStmt refs types n₀ s (y.get s) A := by
  refine runs_aroundStmt (Q := fun a B s' => B = [] ∧ s' = (g a).get s) g hx (fun a => ?_) ?_
  · rw [hleave]
    exact .pure ⟨.keep, rfl, rfl, rfl⟩
  · rintro A B a s' ha ⟨rfl, rfl⟩
    rw [append_nil]
    exact h A a ha

theorem runs_stable {s : Stmt} (hleave : (synthesis refs types).leaveStmt s = pure [.keep])
    (h : RegroupedStmt refs types n₀ s s []) :
    Runs n₀ ((synthesis refs types).aroundStmt Editor.stop false s (pure [.keep]))
      fun A ys => ∃ y, ys = [y] ∧ RegroupedStmt refs types n₀ s (y.get s) A := by
  have hx : Runs n₀ (pure () : Editing State Unit) fun A _ => A = [] := .pure rfl
  have hpure : (pure [.keep] : Editing State (Splice Stmt)) = (fun _ => [.keep]) <$> pure () :=
    (map_pure _ _).symm
  rw [hpure]
  refine runs_settled (fun _ => .keep) hx (fun _ => hleave) ?_
  rintro A _ rfl
  exact h

theorem runs_branch {s : Stmt} {P : List Decl → Stmt → Prop}
    (h : Runs n₀ ((synthesis refs types).visitStmt Editor.stop false s) fun A ys =>
      ∃ y, ys = [y] ∧ P A (y.get s)) :
    Runs n₀ ((synthesis refs types).visitStmt Editor.stop false s >>= fun ys => Editor.single ys s)
      fun A y => P A (y.get s) := by
  refine h.bind (Q := fun ys B y => B = [] ∧ ∀ z, ys = [z] → y = z) (fun ys => ?_) ?_
  · unfold Editor.single
    split
    · exact .pure ⟨rfl, fun z hz => by cases hz; rfl⟩
    · exact .steady (fun _ _ => Nat.le_add_right _ _) (fun _ _ => rfl) fun _ _ => ⟨rfl, nofun⟩
    · rename_i hone _
      refine .steady (fun _ n => Nat.le_add_right n 2) (fun _ _ => rfl) fun _ _ => ⟨rfl,
        fun z hz => ?_⟩
      exact absurd hz (hone z)
  · rintro A B ys y ⟨z, rfl, hz⟩ ⟨rfl, hy⟩
    rw [append_nil, hy z rfl]
    exact hz

def branches (w : Editor State) (a b : Stmt) : Editing State (Edit Stmt × Edit Stmt) := do
  let x ← w.visitStmt Editor.stop false a >>= fun xs => Editor.single xs a
  let y ← w.visitStmt Editor.stop false b >>= fun ys => Editor.single ys b
  return (x, y)

theorem runs_ifElse (t : Tag) (c : Expr) {a b : Stmt}
    (ha : Runs n₀ ((synthesis refs types).visitStmt Editor.stop false a) fun A ys =>
      ∃ y, ys = [y] ∧ RegroupedStmt refs types n₀ a (y.get a) A)
    (hb : Runs n₀ ((synthesis refs types).visitStmt Editor.stop false b) fun A ys =>
      ∃ y, ys = [y] ∧ RegroupedStmt refs types n₀ b (y.get b) A) :
    Runs n₀ ((synthesis refs types).visitStmt Editor.stop false (.ifThen t c a (some b)))
      fun A ys =>
      ∃ y, ys = [y] ∧ RegroupedStmt refs types n₀ (.ifThen t c a (some b))
        (y.get (.ifThen t c a (some b))) A := by
  have hrun : (synthesis refs types).visitStmt Editor.stop false (.ifThen t c a (some b)) =
      (synthesis refs types).aroundStmt Editor.stop false (.ifThen t c a (some b))
        ((fun x => [Edit.map₂ (fun c ab => .ifThen t c ab.1 (some ab.2)) c (a, b) .keep
          (x.1.map₂ Prod.mk a b x.2)]) <$> branches (synthesis refs types) a b) := by
    simp only [Editor.visitStmt, plainExprs_synthesis.visitExpr, pure_bind, branches, bind_assoc,
      map_bind, map_pure]
  have hab : Runs n₀ (branches (synthesis refs types) a b) fun A x => ∃ B C, A = B ++ C ∧
      RegroupedStmt refs types n₀ a (x.1.get a) B ∧ RegroupedStmt refs types n₀ b (x.2.get b) C :=
    (runs_branch (P := fun A s' => RegroupedStmt refs types n₀ a s' A) ha).both Prod.mk
      (runs_branch (P := fun A s' => RegroupedStmt refs types n₀ b s' A) hb)
      fun B C x y hx hy => ⟨B, C, rfl, hx, hy⟩
  rw [hrun]
  refine runs_aroundStmt (Q := fun x A s' => ∃ B C a'' b'', A = B ++ C ∧
    s' = .ifThen t c a'' (some b'') ∧ Lone refs types n₀ (x.1.get a) a'' B ∧
      Lone refs types n₀ (x.2.get b) b'' C) _ hab (fun x => ?_) ?_
  · rw [Editor.get_ifElse]
    refine (runs_wrapBranch (x.1.get a)).both _ (runs_wrapBranch (x.2.get b)) fun B C y z hy hz =>
      ⟨_, rfl, B, C, _, _, rfl, ?_, hy, hz⟩
    exact Edit.get_map₂ (fun a b => Stmt.ifThen t c a (some b)) _ _ y z
  · rintro _ _ x _ ⟨A, B, rfl, hA, hB⟩ ⟨A', B', a'', b'', rfl, rfl, hA', hB'⟩
    exact .ifElse t c hA hB hA' hB'

theorem runs_leaveBlock (i : NodeId) (ss : List Stmt) :
    Runs n₀ ((synthesis refs types).leaveBlock (.mk i ss)) fun A x =>
      ∃ ss', x.get (.mk i ss) = .mk i ss' ∧ Grouped refs types n₀ ss ss' A := by
  refine (runs_regroup ss []).bind (Q := fun r B x => B = [] ∧
    (x = .put (.mk i r.1) ∨ x = .keep ∧ r.2 = false)) (fun r => ?_) ?_
  · obtain ⟨ss', changed⟩ := r
    cases changed with
    | true => exact .pure ⟨rfl, .inl rfl⟩
    | false => exact .pure ⟨rfl, .inr ⟨rfl, rfl⟩⟩
  · rintro A B ⟨ss', changed⟩ x hr ⟨rfl, hx⟩
    obtain ⟨hgrouped, hsame⟩ := hr fun _ h => absurd h not_mem_nil
    rw [append_nil]
    refine ⟨ss', ?_, hgrouped⟩
    rcases hx with rfl | ⟨rfl, rfl⟩
    · rfl
    · exact congrArg (Block.mk i) (hsame rfl).symm

theorem get_cons (s : Stmt) (ss : List Stmt) (x : Edit Stmt) (y : Edit (List Stmt)) :
    ((Splice.toEdit s [x]).map₂ (· ++ ·) [s] ss y).get (s :: ss) = x.get s :: y.get ss := by
  have h := Edit.get_map₂ (· ++ ·) [s] ss (Splice.toEdit s [x]) y
  rw [Splice.get_toEdit] at h
  exact h

mutual
theorem runs_stmt : (s : Stmt) → Undeclared s.visits →
    Runs n₀ ((synthesis refs types).visitStmt Editor.stop false s) fun A ys =>
      ∃ y, ys = [y] ∧ RegroupedStmt refs types n₀ s (y.get s) A
  | .block t b, h => by
    simp only [Editor.visitStmt, bind_pure_comp]
    refine runs_settled (Edit.map (Stmt.block t)) (runs_block b (h.mono fun v hv => .tail _ hv))
      (fun x => ?_) fun A x hx => ?_
    · rw [Edit.get_map]
      rfl
    · rw [Edit.get_map]
      exact .block t hx
  | .assign t l r, _ => by
    simp only [Editor.visitStmt, plainExprs_synthesis.visitExpr, pure_bind, Edit.map₂_keep]
    exact runs_stable rfl (.assign t l r)
  | .call t e, _ => by
    simp only [Editor.visitStmt, plainExprs_synthesis.visitExpr, pure_bind, Edit.map_keep]
    exact runs_stable rfl (.call t e)
  | .ifThen t c a none, h => by
    have ha := runs_branch (P := fun A s' => RegroupedStmt refs types n₀ a s' A)
      (runs_stmt a (h.mono fun v hv => .tail _ (mem_append_right _ hv)))
    have hrun : (synthesis refs types).visitStmt Editor.stop false (.ifThen t c a none) =
        (synthesis refs types).aroundStmt Editor.stop false (.ifThen t c a none)
          ((fun x => [Edit.map₂ (Stmt.ifThen t · · none) c a .keep x]) <$>
            ((synthesis refs types).visitStmt Editor.stop false a >>= fun xs =>
              Editor.single xs a)) := by
      simp [Editor.visitStmt, plainExprs_synthesis.visitExpr]
    rw [hrun]
    refine runs_aroundStmt (Q := fun x A s' => ∃ a'', s' = .ifThen t c a'' none ∧
      Lone refs types n₀ (x.get a) a'' A) _ ha (fun x => ?_) ?_
    · rw [Edit.get_map₂ (Stmt.ifThen t · · none)]
      have hleave : (synthesis refs types).leaveStmt (.ifThen t c (x.get a) none) =
          (fun y => [Edit.map (Stmt.ifThen t c · none) y]) <$> wrapBranch refs types (x.get a) := by
        simp [synthesis]
      rw [Edit.get_keep, hleave]
      refine (runs_wrapBranch (x.get a)).map fun A y hy => ⟨_, rfl, _, ?_, hy⟩
      exact Edit.get_map (Stmt.ifThen t c · none) _ y
    · rintro A A' x _ hA ⟨a'', rfl, hA'⟩
      exact .ifThen t c hA hA'
  | .ifThen t c a (some b), h =>
    runs_ifElse t c (runs_stmt a (h.mono fun v hv => by simp [Stmt.visits, hv]))
      (runs_stmt b (h.mono fun v hv => by simp [Stmt.visits, hv]))
  | .switch t e cs, h => by
    simp only [Editor.visitStmt, plainExprs_synthesis.visitExpr, pure_bind, bind_pure_comp]
    refine runs_settled (fun x => Edit.map₂ (Stmt.switch t) e cs .keep x)
      (runs_cases cs (h.mono fun v hv => .tail _ (mem_append_right _ hv))) (fun x => ?_)
      fun A x hx => ?_
    · rw [Edit.get_map₂]
      rfl
    · rw [Edit.get_map₂]
      exact .switch t e hx
  | .decl t d, h => absurd (.head _) (h t d)
  | .ret t e, _ => by
    simp only [Editor.visitStmt, plainExprs_synthesis.visitExpr?, pure_bind, Edit.map_keep]
    exact runs_stable rfl (.ret t e)
  | .exit t, _ => runs_stable rfl (.exit t)
  | .empty t, _ => runs_stable rfl (.empty t)
theorem runs_block : (b : Block) → Undeclared b.visits →
    Runs n₀ ((synthesis refs types).visitBlock Editor.stop b) fun A x =>
      RegroupedBlock refs types n₀ b (x.get b) A
  | .mk i ss, h => by
    refine (runs_stmts ss (h.mono fun v hv => .tail _ hv)).bind (Q := fun x B y => ∃ ss'',
      y.get (.mk i ss) = .mk i ss'' ∧ Grouped refs types n₀ (x.get ss) ss'' B) (fun x => ?_) ?_
    · dsimp only
      rw [Edit.get_map, bind_pure_comp]
      refine (runs_leaveBlock i (x.get ss)).map ?_
      rintro B y ⟨ss'', hy, hB⟩
      exact ⟨ss'', by rw [Edit.get_andThen, Edit.get_map, hy], hB⟩
    · rintro A B x y hA ⟨ss'', hy, hB⟩
      rw [hy]
      exact .mk i hA hB
theorem runs_stmts : (ss : List Stmt) → Undeclared (Stmt.allVisits ss) →
    Runs n₀ ((synthesis refs types).visitStmts Editor.stop ss) fun A x =>
      RegroupedStmts refs types n₀ ss (x.get ss) A
  | [], _ => .pure .nil
  | s :: ss, h => by
    rw [Editor.visitStmts]
    refine (runs_stmt s (h.mono (subset_append_left _ _))).both _
      (runs_stmts ss (h.mono (subset_append_right _ _))) ?_
    rintro A B ys y ⟨x, rfl, hx⟩ hy
    rw [get_cons]
    exact .cons hx hy
theorem runs_cases : (cs : List Case) → Undeclared (Case.visits cs) →
    Runs n₀ ((synthesis refs types).visitCases Editor.stop cs) fun A x =>
      RegroupedCases refs types n₀ cs (x.get cs) A
  | [], _ => .pure .nil
  | .run l b :: cs, h => by
    rw [Editor.visitCases]
    refine (runs_block b (h.mono (subset_append_left _ _))).both _
      (runs_cases cs (h.mono (subset_append_right _ _))) fun A B x y hx hy => ?_
    rw [Edit.get_map₂, Edit.get_map]
    exact .run l hx hy
  | .fallThrough l :: cs, h => by
    rw [Editor.visitCases, bind_pure_comp]
    refine (runs_cases cs h).map fun A x hx => ?_
    rw [Edit.get_map]
    exact .fallThrough l hx
end

theorem Grouped.eq_of_nil (h : Grouped refs types n₀ ss ss' []) : ss' = ss := by
  generalize hA : ([] : List Decl) = A at h
  induction h with
  | nil => rfl
  | stay here rest ih => rw [ih hA]
  | run => cases hA

mutual
theorem RegroupedStmt.eq_of_nil : RegroupedStmt refs types n₀ s s' [] → s' = s := by
  generalize hA : ([] : List Decl) = A
  intro h
  cases h with
  | block t body => cases hA; rw [body.eq_of_nil]
  | ifThen t c ifTrue branch =>
    obtain ⟨rfl, rfl⟩ := append_eq_nil_iff.1 hA.symm
    cases branch
    rw [ifTrue.eq_of_nil]
  | ifElse t c ifTrue ifFalse branch branch' =>
    obtain ⟨hAB, hAB'⟩ := append_eq_nil_iff.1 hA.symm
    obtain ⟨rfl, rfl⟩ := append_eq_nil_iff.1 hAB
    obtain ⟨rfl, rfl⟩ := append_eq_nil_iff.1 hAB'
    cases branch
    cases branch'
    rw [ifTrue.eq_of_nil, ifFalse.eq_of_nil]
  | switch t e cases => cases hA; rw [cases.eq_of_nil]
  | _ => rfl
theorem RegroupedBlock.eq_of_nil : RegroupedBlock refs types n₀ b b' [] → b' = b := by
  generalize hA : ([] : List Decl) = A
  intro h
  cases h with
  | mk i stmts runs =>
    obtain ⟨rfl, rfl⟩ := append_eq_nil_iff.1 hA.symm
    rw [runs.eq_of_nil, stmts.eq_of_nil]
theorem RegroupedStmts.eq_of_nil :
    RegroupedStmts refs types n₀ ss ss' [] → ss' = ss := by
  generalize hA : ([] : List Decl) = A
  intro h
  cases h with
  | nil => rfl
  | cons head tail =>
    obtain ⟨rfl, rfl⟩ := append_eq_nil_iff.1 hA.symm
    rw [head.eq_of_nil, tail.eq_of_nil]
theorem RegroupedCases.eq_of_nil :
    RegroupedCases refs types n₀ cs cs' [] → cs' = cs := by
  generalize hA : ([] : List Decl) = A
  intro h
  cases h with
  | nil => rfl
  | run l body tail =>
    obtain ⟨rfl, rfl⟩ := append_eq_nil_iff.1 hA.symm
    rw [body.eq_of_nil, tail.eq_of_nil]
  | fallThrough l tail => cases hA; rw [tail.eq_of_nil]
end

inductive RegroupedDecls (refs : Refs) (types : Types) (n : Nat) (sources : SourceMap) :
    List Decl → List Decl → List Decl → Prop
  | nil : RegroupedDecls refs types n sources [] [] []
  | keep {d : Decl} {ds ds' A : List Decl} (here : edits sources (·.declared.isEmpty) d = false)
    (tail : RegroupedDecls refs types n sources ds ds' A) :
    RegroupedDecls refs types n sources (d :: ds) (d :: ds') A
  | control {h : Head} {tps : List String} {ps cps : List Param} {b b' : Block}
    {ls ds ds' A B : List Decl}
    (here : edits sources (·.declared.isEmpty) (.control h tps ps cps ls b) = true)
    (body : RegroupedBlock refs types n b b' A)
    (tail : RegroupedDecls refs types n sources ds ds' B) :
    RegroupedDecls refs types n sources (.control h tps ps cps ls b :: ds)
      (.control h tps ps cps (ls ++ A) b' :: ds') (A ++ B)

theorem edits_control : edits sources (·.declared.isEmpty) (.control h tps ps cps ls b) = true ↔
      sources.isLibrary h.span = false ∧ b.declared = [] := by
  simp [edits]

section

variable {h : Head} {tps : List String} {ps cps : List Param} {ls : List Decl} {b : Block}
  {names names' : Names} {n : Nat}

theorem regrouped_body (hb : b.declared = []) (hn : n₀ ≤ n) {x : Edit Decl}
    (hx : ((body (synthesis refs types) h tps ps cps ls b names).run n).1 = .ok (x, names')) :
    n ≤ ((body (synthesis refs types) h tps ps cps ls b names).run n).2 ∧
    ∃ b' A, x.get (.control h tps ps cps ls b) = .control h tps ps cps (ls ++ A) b' ∧
      RegroupedBlock refs types n₀ b b' A ∧ names.HandsOut (A.map (·.name)) names' := by
  have hruns := @runs_block refs types n₀ b (Block.undeclared hb)
  have hle := hruns.le ⟨names, [], none⟩ n
  have hadds := hruns.adds ⟨names, [], none⟩ n hn
  rw [run_body] at hx ⊢
  obtain ⟨⟨⟨y, names₁, added, error⟩, n'⟩, hr⟩ :
    ∃ r, (synthesis refs types).block b ⟨names, [], none⟩ n = r := ⟨_, rfl⟩
  rw [← Editor.block, hr] at hle hadds
  rw [hr] at hx ⊢
  cases error with
  | some e => cases hx
  | none =>
    cases hx
    obtain ⟨A, ⟨hadded, hnames⟩, hbody⟩ := hadds rfl
    have hA : added = A := hadded
    subst hA
    refine ⟨hle, ?_⟩
    cases added with
    | nil =>
      refine ⟨y.get b, [], ?_, hbody, hnames⟩
      rw [append_nil, hbody.eq_of_nil]
      rfl
    | cons a as => exact ⟨y.get b, a :: as, rfl, hbody, hnames⟩

end

theorem regrouped_decls (sources : SourceMap) (ds : List Decl)
    (hn : n₀ ≤ n)
    (hx : ((decls (synthesis refs types) sources (·.declared.isEmpty) ds names).run n).1 =
      .ok (x, names')) :
    ∃ A, RegroupedDecls refs types n₀ sources ds (x.get ds) A ∧
      names.HandsOut (A.map (·.name)) names' := by
  induction ds generalizing names n x names' with
  | nil =>
    cases hx
    exact ⟨[], .nil, .refl _⟩
  | cons d ds ih =>
    have hcons (y : StateT Names (ExceptT ClassificationError Supply) (Edit Decl))
        (hrun : (((y >>= fun y => decls (synthesis refs types) sources (·.declared.isEmpty) ds >>=
          fun z =>
          pure (y.map₂ (· :: ·) d ds z)) names).run n).1 = .ok (x, names')) :
        ∃ z names₁ zs, ((y names).run n).1 = .ok (z, names₁) ∧
          ((decls (synthesis refs types) sources (·.declared.isEmpty) ds names₁).run
            ((y names).run n).2).1 = .ok (zs, names') ∧ x.get (d :: ds) = z.get d :: zs.get ds := by
      obtain ⟨⟨z, names₁⟩, hz, hrest⟩ := Supply.ok_of_bind hrun
      obtain ⟨⟨zs, names₂⟩, hzs, hend⟩ := Supply.ok_of_bind hrest
      cases hend
      exact ⟨z, names₁, zs, hz, hzs, Edit.get_map₂ ..⟩
    have hkeep (hd : edits sources (·.declared.isEmpty) d = false)
        (hrun : ((((pure .keep : StateT Names (ExceptT ClassificationError Supply) (Edit Decl)) >>=
          fun y => decls (synthesis refs types) sources (·.declared.isEmpty) ds >>= fun z =>
            pure (y.map₂ (· :: ·) d ds z)) names).run n).1 = .ok (x, names')) :
        ∃ A, RegroupedDecls refs types n₀ sources (d :: ds) (x.get (d :: ds)) A ∧
          names.HandsOut (A.map (·.name)) names' := by
      obtain ⟨z, names₁, zs, hz, hzs, hget⟩ := hcons _ hrun
      cases hz
      obtain ⟨A, hA, hnames⟩ := ih hn hzs
      exact ⟨A, hget ▸ .keep hd hA, hnames⟩
    cases d with
    | control h tps ps cps ls b =>
      rw [decls] at hx
      split at hx
      · rename_i hedit
        have hedit : edits sources (·.declared.isEmpty) (.control h tps ps cps ls b) = true := hedit
        obtain ⟨z, names₁, zs, hz, hzs, hget⟩ := hcons _ hx
        obtain ⟨hle, b', A, hbody, hA, hnames⟩ := regrouped_body (edits_control.1 hedit).2 hn hz
        obtain ⟨B, hB, hnames'⟩ := ih (Nat.le_trans hn hle) hzs
        rw [hget, hbody]
        refine ⟨A ++ B, .control hedit hA hB, ?_⟩
        rw [map_append]
        exact hnames.trans hnames'
      · rename_i hedit
        exact hkeep (Bool.not_eq_true _ ▸ hedit) hx
    | _ => exact hkeep rfl hx

end Actions

theorem Program.exists_regrouped (hx : ((p.synthesizeActions refs types sources).run n).1 = .ok x) :
    ∃ A, Actions.RegroupedDecls refs types n sources p.decls (x.get p).decls A ∧
      (A.map (·.name)).Nodup ∧ ∀ a ∈ A, a.name ∉ (Names.ofProgram p).used := by
  obtain ⟨⟨y, names⟩, hy, hend⟩ := Supply.ok_of_bind hx
  cases hend
  obtain ⟨A, hA, hnames⟩ := Actions.regrouped_decls sources p.decls (Nat.le_refl n) hy
  have hget : ((y.map Program.mk).get p).decls = y.get p.decls :=
    congrArg Program.decls (Edit.get_map Program.mk p.decls y)
  rw [hget]
  exact ⟨A, hA, hnames.nodup, fun a ha => hnames.fresh _ (mem_map_of_mem ha)⟩

end MatchAction
