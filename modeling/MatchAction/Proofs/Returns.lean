import Mathlib.Data.List.Forall2
import MatchAction.Proofs.Execution
import MatchAction.Proofs.Names
import MatchAction.Returns

namespace MatchAction

structure Cell (M : Type) where
  get : M → Bool
  set : Bool → M → M
  get_set : ∀ b m, get (set b m) = b
  set_get : ∀ m, set (get m) m = m
  set_set : ∀ b c m, set b (set c m) = set b m

namespace Cell

variable {M α : Type} {x : Cell M}

def Unused (x : Cell M) (f : M → α × M) : Prop :=
  ∀ b m, f (x.set b m) = ((f m).1, x.set b (f m).2)

theorem Unused.get_eq {f : M → α × M} (h : x.Unused f) (m : M) : x.get (f m).2 = x.get m := by
  have hf := h (x.get m) m
  rw [x.set_get] at hf
  rw [hf]
  exact x.get_set _ _

end Cell

namespace Interp

variable {M : Type}

def Ignores (I : Interp M) (x : Cell M) : Atom → Prop
  | .assign l r => ∀ b m, I.assign l r (x.set b m) = x.set b (I.assign l r m)
  | .call e | .value e => x.Unused (I.call e)
  | .declare d => ∀ b m, I.declare d (x.set b m) = x.set b (I.declare d m)
  | .test c => x.Unused (I.test c)
  | .select e ls => x.Unused (I.select e ls)

structure Holds (I : Interp M) (x : Cell M) (name : String) : Prop where
  assign : ∀ t t' b m, I.assign (.path t name) (.bool t' b) m = x.set b m
  declare : ∀ i sp t b m, I.declare (.var ⟨i, name, sp⟩ .bool (some (.bool t b))) m = x.set b m
  test : ∀ t t' m, I.test (.unary t .not (.path t' name)) m = (!x.get m, m)

end Interp

section

variable {M : Type} {I : Interp M} {x : Cell M}

theorem Interp.mapsAll_set (h : ∀ a ∈ as, I.Ignores x a) (b : Bool) :
    I.flat.MapsAll I.flat (x.set b) as where
  leave _ _ := rfl
  atoms a ha := by cases a <;> exact h _ ha b

theorem Stmt.unused_exec (s : Stmt) (h : ∀ a ∈ s.atoms, I.Ignores x a) : x.Unused (s.exec I.flat) :=
  fun b => s.exec_map (Interp.mapsAll_set h b)

theorem Stmt.unused_execs (ss : List Stmt) (h : ∀ a ∈ Stmt.allAtoms ss, I.Ignores x a) :
    x.Unused (Stmt.execs I.flat ss) :=
  fun b => Stmt.execs_map ss (Interp.mapsAll_set h b)

end

namespace Returns

theorem map_label_cases (flag : String) (cs : List Case) (n : Nat) :
    (cases flag cs n).1.map Case.label = cs.map Case.label := by
  induction cs generalizing n with
  | nil => rfl
  | cons c cs ih =>
    cases c with
    | run l b => simp [cases, Case.label, ih]
    | fallThrough l => simp [cases, Case.label, ih]

variable {s : Stmt}

theorem stmts_cons_of_not_hasReturn (h : s.hasReturn = false) (flag : String)
    (ss : List Stmt) (n : Nat) :
    (stmts flag (s :: ss) n).1 = s :: (stmts flag ss n).1 := by
  simp [stmts, h]

variable {ss : List Stmt}

theorem stmts_cons_of_last (h : s.hasReturn = true) (flag : String)
    (hl : ss.isEmpty || isReturn s) (n : Nat) :
    (stmts flag (s :: ss) n).1 = [(stmt flag s n).1] := by
  simp only [stmts, h, Bool.not_true, Bool.false_eq_true, if_false, hl, if_true]
  rfl

theorem stmts_cons_of_guarded (h : s.hasReturn = true) (flag : String)
    (hl : (ss.isEmpty || isReturn s) = false) (n : Nat) :
    ∃ k l, (stmts flag (s :: ss) n).1 =
      [(stmt flag s n).1, (unlessSet flag (stmts flag ss k).1 l).1] := by
  simp only [stmts, h, Bool.not_true, Bool.false_eq_true, if_false, hl]
  exact ⟨_, _, rfl⟩

mutual
theorem hasReturn_stmt (flag : String) : (s : Stmt) → ∀ n, (stmt flag s n).1.hasReturn = false
  | .block _ b, n => hasReturn_block flag b n
  | .assign .., _ | .call .., _ => rfl
  | .ifThen _ _ a none, n => hasReturn_stmt flag a n
  | .ifThen _ _ a (some b), n => by
    simp [stmt, Stmt.hasReturn, hasReturn_stmt flag a, hasReturn_stmt flag b]
  | .switch _ _ cs, n => anyReturn_cases flag cs n
  | .decl .., _ | .ret .., _ | .exit _, _ | .empty _, _ => rfl
theorem hasReturn_block (flag : String) : (b : Block) → ∀ n, (block flag b n).1.hasReturn = false
  | .mk _ ss, n => anyReturn_stmts flag ss n
theorem anyReturn_stmts (flag : String) : (ss : List Stmt) → ∀ n,
    Stmt.anyReturn (stmts flag ss n).1 = false
  | [], _ => by simp [stmts, Stmt.anyReturn]
  | s :: ss, n => by
    cases hs : s.hasReturn with
    | false => simp [stmts_cons_of_not_hasReturn hs, Stmt.anyReturn, hs, anyReturn_stmts flag ss n]
    | true =>
      cases hl : ss.isEmpty || isReturn s with
      | true => simp [stmts_cons_of_last hs flag hl, Stmt.anyReturn, hasReturn_stmt flag s n]
      | false =>
        obtain ⟨k, l, h⟩ := stmts_cons_of_guarded hs flag hl n
        simp [h, unlessSet, Stmt.anyReturn, Stmt.hasReturn, Block.hasReturn,
          hasReturn_stmt flag s n, anyReturn_stmts flag ss k]
theorem anyReturn_cases (flag : String) : (cs : List Case) → ∀ n,
    Case.anyReturn (cases flag cs n).1 = false
  | [], _ => by simp [cases, Case.anyReturn]
  | .run _ b :: cs, n => by
    simp [cases, Case.anyReturn, Case.hasReturn, hasReturn_block flag b, anyReturn_cases flag cs]
  | .fallThrough _ :: cs, n => by
    simp [cases, Case.anyReturn, Case.hasReturn, anyReturn_cases flag cs]
end

/-- What the flag makes of a completion: a `return` becomes normal and sets it. -/
def settle {M : Type} (x : Cell M) : Completion × M → Completion × M
  | (.returned, m) => (.normal, x.set true m)
  | r => r

section

variable {M : Type} {I : Interp M} {x : Cell M} {flag : String}

def Untouched (I : Interp M) (x : Cell M) (as : List Atom) : Prop :=
  (∀ a ∈ as, I.Ignores x a) ∧ ∀ e, Atom.value e ∉ as

theorem Untouched.mono {as bs : List Atom} (h : Untouched I x bs) (hs : as ⊆ bs) :
    Untouched I x as :=
  ⟨fun a ha => h.1 a (hs ha), fun e he => h.2 e (hs he)⟩

theorem exec_unlessSet_of_unset (hx : I.Holds x flag) (ss : List Stmt) (n : Nat) {m : M}
    (hm : x.get m = false) :
    (unlessSet flag ss n).1.exec I.flat m = Stmt.execs I.flat ss m := by
  simp [unlessSet, Stmt.exec, hx.test, hm, Block.exec]

theorem exec_unlessSet_of_set (hx : I.Holds x flag) (ss : List Stmt) (n : Nat) {m : M}
    (hm : x.get m = true) : (unlessSet flag ss n).1.exec I.flat m = (.normal, m) := by
  simp [unlessSet, Stmt.exec, hx.test, hm]

theorem execs_cons_of_last
    (h : Untouched I x (Stmt.allAtoms (s :: ss))) (hl : ss.isEmpty || isReturn s) (m : M) :
    Stmt.execs I.flat (s :: ss) m = s.exec I.flat m := by
  cases ss with
  | nil => exact Stmt.execs_singleton I.flat s m
  | cons s' ss =>
    cases s with
    | ret t v =>
      cases v with
      | none => rfl
      | some e => exact absurd (by simp [Stmt.allAtoms, Stmt.atoms]) (h.2 e)
    | _ => simp [isReturn] at hl

mutual
theorem exec_stmt (hx : I.Holds x flag) : (s : Stmt) → Untouched I x s.atoms → ∀ n m,
    x.get m = false → (stmt flag s n).1.exec I.flat m = settle x (s.exec I.flat m)
  | .block _ b, h, n, m, hm => exec_block hx b h n m hm
  | .assign .., _, _, _, _ => rfl
  | .call _ e, _, _, m, _ => by
    simp only [stmt, Supply.pure_apply, Stmt.exec]
    cases (I.flat.call e m).1 <;> rfl
  | .ifThen _ c a none, h, n, m, hm => by
    have hc : I.Ignores x (.test c) := h.1 _ (by simp [Stmt.atoms])
    have ha := exec_stmt hx a (h.mono (by simp [Stmt.atoms])) n
    have hg := (hc.get_eq m).trans hm
    simp only [stmt, Supply.bind_apply, Supply.pure_apply, Stmt.exec, Interp.toInterp_flat]
    generalize I.test c m = r at hg
    obtain ⟨v, m⟩ := r
    cases v with
    | true => exact ha m hg
    | false => rfl
  | .ifThen _ c a (some b), h, n, m, hm => by
    have hc : I.Ignores x (.test c) := h.1 _ (by simp [Stmt.atoms])
    have ha := exec_stmt hx a (h.mono (by simp [Stmt.atoms])) n
    have hb := exec_stmt hx b (h.mono (by simp [Stmt.atoms])) (stmt flag a n).2
    have hg := (hc.get_eq m).trans hm
    simp only [stmt, Supply.bind_apply, Supply.pure_apply, Stmt.exec, Interp.toInterp_flat]
    generalize I.test c m = r at hg
    obtain ⟨v, m⟩ := r
    cases v with
    | true => exact ha m hg
    | false => exact hb m hg
  | .switch _ e cs, h, n, m, hm => by
    have he : I.Ignores x (.select e (cs.map Case.label)) := h.1 _ (by simp [Stmt.atoms])
    have hcs := exec_cases hx cs (h.mono (by simp [Stmt.atoms])) n
    have hg := (he.get_eq m).trans hm
    simp only [stmt, Supply.bind_apply, Supply.pure_apply, Stmt.exec, Interp.toInterp_flat,
      map_label_cases]
    generalize I.select e (cs.map Case.label) m = r at hg
    obtain ⟨i, m⟩ := r
    cases i with
    | none => rfl
    | some i => exact hcs i m hg
  | .decl .., _, _, _, _ => rfl
  | .ret _ none, _, _, m, _ => by
    simp [stmt, setFlag, Stmt.exec, hx.assign, settle]
  | .ret _ (some e), h, _, _, _ => absurd (by simp [Stmt.atoms]) (h.2 e)
  | .exit _, _, _, _, _ | .empty _, _, _, _, _ => rfl
theorem exec_block (hx : I.Holds x flag) : (b : Block) → Untouched I x b.atoms → ∀ n m,
    x.get m = false → (block flag b n).1.exec I.flat m = settle x (b.exec I.flat m)
  | .mk _ ss, h, n, m, hm => execs_stmts hx ss h n m hm
theorem execs_stmts (hx : I.Holds x flag) : (ss : List Stmt) → Untouched I x (Stmt.allAtoms ss) →
    ∀ n m, x.get m = false →
    Stmt.execs I.flat (stmts flag ss n).1 m = settle x (Stmt.execs I.flat ss m)
  | [], _, _, _, _ => by simp [stmts, Stmt.execs, settle]
  | s :: ss, h, n, m, hm => by
    have hs : Untouched I x s.atoms := h.mono (by simp [Stmt.allAtoms])
    have hss := execs_stmts hx ss (h.mono (by simp [Stmt.allAtoms]))
    have hg : x.get (s.exec I.flat m).2 = false := ((Stmt.unused_exec s hs.1).get_eq m).trans hm
    cases hr : s.hasReturn with
    | false =>
      have hne := Stmt.exec_ne_returned I.flat s hr m
      rw [stmts_cons_of_not_hasReturn hr]
      simp only [Stmt.execs]
      generalize s.exec I.flat m = r at hne hg
      obtain ⟨c, m⟩ := r
      cases c with
      | normal => exact hss n m hg
      | returned => exact absurd rfl hne
      | exited => rfl
    | true =>
      have he := exec_stmt hx s hs n m hm
      cases hl : ss.isEmpty || isReturn s with
      | true =>
        rw [stmts_cons_of_last hr flag hl, Stmt.execs_singleton, he, execs_cons_of_last h hl]
      | false =>
        obtain ⟨k, l, hk⟩ := stmts_cons_of_guarded hr flag hl n
        rw [hk, Stmt.execs_cons, Stmt.execs_cons, he, funext (Stmt.execs_singleton I.flat _)]
        generalize s.exec I.flat m = r at hg
        obtain ⟨c, m⟩ := r
        cases c with
        | normal => exact (exec_unlessSet_of_unset hx _ l hg).trans (hss k m hg)
        | returned => exact exec_unlessSet_of_set hx _ l (x.get_set true m)
        | exited => rfl
theorem exec_cases (hx : I.Holds x flag) : (cs : List Case) → Untouched I x (Case.atoms cs) →
    ∀ n i m, x.get m = false →
    Case.exec I.flat i (cases flag cs n).1 m = settle x (Case.exec I.flat i cs m)
  | [], _, _, _, _, _ => by simp [cases, Case.exec, settle]
  | .run _ b :: cs, h, n, i, m, hm => by
    have hb := exec_block hx b (h.mono (by simp [Case.atoms])) n
    have hcs := exec_cases hx cs (h.mono (by simp [Case.atoms])) (block flag b n).2
    cases i with
    | zero => exact hb m hm
    | succ i => exact hcs i m hm
  | .fallThrough _ :: cs, h, n, i, m, hm => by
    have hcs := exec_cases hx cs (h.mono (by simp [Case.atoms])) n
    simpa [cases, Case.exec] using hcs (i - 1) m hm
end

end

/-- `b'` has no `return`. It runs as `b` does and completes normally where `b` returns, which the
variable `flag` then tells. -/
structure Tracks (flag : String) (b b' : Block) : Prop where
  hasReturn : b'.hasReturn = false
  exec : ∀ {M : Type} {I : Interp M} {x : Cell M}, I.Holds x flag → Untouched I x b.atoms → ∀ m,
    b'.exec I.flat m =
      (if (b.exec I.flat m).1 = .exited then .exited else .normal,
        x.set (decide ((b.exec I.flat m).1 = .returned)) (b.exec I.flat m).2)

inductive Removed (used : List String) (b : Block) : Block → Prop
  | kept (none : b.hasReturn = false) : Removed used b b
  | flagged (flag : String) {b' : Block} (some : b.hasReturn = true) (fresh : flag ∉ used)
      (tracks : Tracks flag b b') : Removed used b b'

theorem tracks_of_front {flag : String} {b : Block} {front : Stmt} {n : Nat}
    (hf : front.hasReturn = false)
    (h : ∀ {M : Type} {I : Interp M} {x : Cell M}, I.Holds x flag → ∀ m,
      front.exec I.flat m = (.normal, x.set false m)) :
    Tracks flag b ((block flag b n).1.withStmts (front :: (block flag b n).1.stmts)) := by
  obtain ⟨i, ss⟩ := b
  constructor
  · simp [block, Block.withStmts, Block.stmts, Block.hasReturn, Stmt.anyReturn, hf,
      anyReturn_stmts]
  · intro M I x hx hu m
    have hss := execs_stmts hx ss hu n (x.set false m) (x.get_set false m)
    rw [Stmt.unused_execs ss hu.1 false m] at hss
    have hb : (Block.mk i ss).exec I.flat m = Stmt.execs I.flat ss m := rfl
    rw [hb]
    simp only [block, Supply.bind_apply, Supply.pure_apply, Block.withStmts, Block.stmts,
      Block.exec, Interp.leave_flat, Stmt.execs, h hx, Completion.normal_andThen, hss]
    generalize Stmt.execs I.flat ss m = r
    obtain ⟨c, m⟩ := r
    cases c with
    | normal => rfl
    | returned => simp [settle, x.set_set]
    | exited => rfl

inductive RemovedAction (used : List String) : Decl → Decl → Prop
  | action {h : Head} {ps : List Param} {b b' : Block} (body : Removed used b b') :
      RemovedAction used (.action h ps b) (.action h ps b')
  | other {d : Decl} (h : d.isAction = false) : RemovedAction used d d

inductive RemovedDecl (used : List String) : Decl → Decl → Prop
  | kept {h : Head} {tps : List String} {ps cps : List Param} {ls ls' : List Decl} {b : Block}
      (locals : List.Forall₂ (RemovedAction used) ls ls') (none : b.hasReturn = false) :
      RemovedDecl used (.control h tps ps cps ls b) (.control h tps ps cps ls' b)
  | flagged {h : Head} {tps : List String} {ps cps : List Param} {ls ls' : List Decl}
      {b b' : Block} {i : NodeId} {flag : String}
      (locals : List.Forall₂ (RemovedAction used) ls ls') (some : b.hasReturn = true)
      (fresh : flag ∉ used) (tracks : Tracks flag b b') :
      RemovedDecl used (.control h tps ps cps ls b)
        (.control h tps ps cps (ls' ++ [.var ⟨i, flag, none⟩ .bool none]) b')
  | action {d d' : Decl} (h : d.isControl = false) (action : RemovedAction used d d') :
      RemovedDecl used d d'

variable {used : List String} {ns : Names}

theorem removed_action (h : Head) (ps : List Param) (b : Block)
    (hu : used ⊆ ns.used) (n : Nat) :
    RemovedAction used (.action h ps b) ((action h ps b ns n).1.1.get (.action h ps b)) ∧
      used ⊆ (action h ps b ns n).1.2.used := by
  cases hb : b.hasReturn with
  | false =>
    simp only [action, hb, Bool.not_false, if_true]
    exact ⟨.action (.kept hb), hu⟩
  | true =>
    simp only [action, hb, Bool.not_true, Bool.false_eq_true, if_false]
    refine ⟨.action (.flagged (ns.pick "hasReturned") hb ?_ ?_), ?_⟩
    · exact fun hm => ns.pick_not_mem _ (hu hm)
    · exact tracks_of_front rfl fun hx m => by
        simp [Stmt.exec, hx.declare]
    · exact fun name hn => List.mem_cons_of_mem _ (hu hn)

theorem removed_locals (ds : List Decl) (hu : used ⊆ ns.used)
    (n : Nat) :
    List.Forall₂ (RemovedAction used) ds ((locals ds ns n).1.1.get ds) ∧
      used ⊆ (locals ds ns n).1.2.used := by
  induction ds generalizing ns n with
  | nil => exact ⟨.nil, hu⟩
  | cons d ds ih =>
    have hd : ∀ x : Naming (Edit Decl), (RemovedAction used d ((x ns n).1.1.get d) ∧
        used ⊆ (x ns n).1.2.used) →
        List.Forall₂ (RemovedAction used) (d :: ds) (((x >>= fun e => do
          return e.map₂ (· :: ·) d ds (← locals ds)) ns n).1.1.get (d :: ds)) ∧
        used ⊆ ((x >>= fun e => do
          return e.map₂ (· :: ·) d ds (← locals ds)) ns n).1.2.used := by
      intro x hx
      have hds := ih hx.2 (x ns n).2
      simp only [Supply.stateT_bind_apply, Supply.stateT_pure_apply, Edit.get_map₂]
      exact ⟨.cons hx.1 hds.1, hds.2⟩
    cases d with
    | action h ps b => exact hd _ (removed_action h ps b hu n)
    | _ => exact hd (pure .keep) ⟨.other rfl, hu⟩

theorem removed_decl (d : Decl) (hu : used ⊆ ns.used)
    (n : Nat) :
    RemovedDecl used d ((decl d ns n).1.1.get d) ∧ used ⊆ (decl d ns n).1.2.used := by
  cases d with
  | action h ps b =>
    obtain ⟨hr, hn⟩ := removed_action h ps b hu n
    exact ⟨.action rfl hr, hn⟩
  | control h tps ps cps ls b =>
    obtain ⟨hls, hn⟩ := removed_locals ls hu n
    cases hb : b.hasReturn with
    | false =>
      simp only [decl, Supply.stateT_bind_apply, hb, Bool.not_false, if_true,
        Supply.stateT_pure_apply]
      refine ⟨?_, hn⟩
      generalize (locals ls ns n).1.1 = e at hls
      cases e with
      | keep => exact .kept hls hb
      | put ls' => exact .kept hls hb
    | true =>
      simp only [decl, Supply.stateT_bind_apply, hb, Bool.not_true, Bool.false_eq_true, if_false]
      refine ⟨.flagged hls hb ?_ ?_, ?_⟩
      · exact fun hm => (locals ls ns n).1.2.pick_not_mem _ (hn hm)
      · exact tracks_of_front rfl fun hx m => by
          simp [Stmt.exec, setFlag, hx.assign]
      · exact fun name hm => List.mem_cons_of_mem _ (hn hm)
  | _ => exact ⟨.action rfl (.other rfl), hu⟩

theorem removed_decls (ds : List Decl) (hu : used ⊆ ns.used)
    (n : Nat) : List.Forall₂ (RemovedDecl used) ds ((decls ds ns n).1.1.get ds) := by
  induction ds generalizing ns n with
  | nil => exact .nil
  | cons d ds ih =>
    obtain ⟨hd, hn⟩ := removed_decl d hu n
    simp only [decls, Supply.stateT_bind_apply, Supply.stateT_pure_apply, Edit.get_map₂]
    exact .cons hd (ih hn _)

end Returns

/-- Removing returns keeps what every body of the program does. -/
theorem Program.removeReturns_preserves_execution (p : Program) (n : Nat) :
    List.Forall₂ (Returns.RemovedDecl (Names.ofProgram p).used) p.decls
      ((p.removeReturns n).1.get p).decls := by
  have h := Returns.removed_decls p.decls (List.Subset.refl (Names.ofProgram p).used) n
  unfold Program.removeReturns
  simp only [StateT.run, Supply.bind_apply, Supply.pure_apply]
  generalize (Returns.decls p.decls (Names.ofProgram p) n).1.1 = e at h
  cases e with
  | keep => exact h
  | put ds => exact h

namespace Returns

def counting (flag : String) : Interp (Bool × Nat) where
  assign
    | .path _ name, .bool _ b, m => if name = flag then (b, m.2) else (m.1, m.2 + 1)
    | _, _, m => (m.1, m.2 + 1)
  call _ m := (false, m)
  declare
    | .var h .bool (some (.bool _ b)), m => if h.name = flag then (b, m.2) else m
    | _, m => m
  test
    | .unary _ .not (.path _ name), m => if name = flag then (!m.1, m) else (m.2 % 2 == 1, m)
    | _, m => (m.2 % 2 == 1, m)
  select _ _ m := (none, m)

def first : Cell (Bool × Nat) where
  get m := m.1
  set b m := (b, m.2)
  get_set _ _ := rfl
  set_get _ := rfl
  set_set _ _ _ := rfl

theorem holds_counting (flag : String) : (counting flag).Holds first flag where
  assign _ _ _ _ := if_pos rfl
  declare _ _ _ _ _ := if_pos rfl
  test _ _ _ := if_pos rfl

def earlyReturn : Block :=
  .mk ⟨1⟩ [
    .ifThen ⟨⟨2⟩, none⟩ (.path ⟨⟨3⟩, none⟩ "odd") (.ret ⟨⟨4⟩, none⟩ none) none,
    .assign ⟨⟨5⟩, none⟩ (.path ⟨⟨6⟩, none⟩ "x") (.path ⟨⟨7⟩, none⟩ "x")]

def early : Program := ⟨[.action ⟨⟨0⟩, "a", none⟩ [] earlyReturn]⟩

theorem untouched_earlyReturn (flag : String) :
    Untouched (counting flag) first earlyReturn.atoms := by
  constructor
  · simp [earlyReturn, Block.atoms, Stmt.allAtoms, Stmt.atoms, Interp.Ignores, Cell.Unused,
      counting, first]
  · simp [earlyReturn, Block.atoms, Stmt.allAtoms, Stmt.atoms]

end Returns

theorem Program.removeReturns_preserves_execution_earlyReturn :
    ∃ flag b', ((Returns.early.removeReturns 8).1.get Returns.early).decls =
        [.action ⟨⟨0⟩, "a", none⟩ [] b'] ∧
      b'.hasReturn = false ∧
      b'.exec (Returns.counting flag).flat (false, 1) = (.normal, (true, 1)) ∧
      b'.exec (Returns.counting flag).flat (true, 2) = (.normal, (false, 3)) := by
  have h := Program.removeReturns_preserves_execution Returns.early 8
  generalize ((Returns.early.removeReturns 8).1.get Returns.early).decls = ds at h ⊢
  rcases h with _ | ⟨⟨⟩ | ⟨⟩ | ⟨-, ⟨hb⟩ | hd⟩, ⟨⟩⟩
  · rcases hb with hn | ⟨flag, -, -, ht⟩
    · cases hn
    · refine ⟨flag, _, rfl, ht.hasReturn, ?_, ?_⟩
      · rw [ht.exec (Returns.holds_counting flag) (Returns.untouched_earlyReturn flag)]
        rfl
      · rw [ht.exec (Returns.holds_counting flag) (Returns.untouched_earlyReturn flag)]
        rfl
  · cases hd

end MatchAction
