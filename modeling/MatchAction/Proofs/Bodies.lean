import MatchAction.Inline.Action
import MatchAction.Inline.Control
import MatchAction.Proofs.Editors

namespace MatchAction

open List

theorem Stmt.anyReturn_append (ss ts : List Stmt) :
    Stmt.anyReturn (ss ++ ts) = (Stmt.anyReturn ss || Stmt.anyReturn ts) := by
  induction ss with
  | nil => rfl
  | cons s ss ih => simp [Stmt.anyReturn, ih, Bool.or_assoc]

namespace Editor

variable {σ : Type}

structure KeepsReturns (w : Editor σ) : Prop where
  enter : ∀ s, w.enterStmt s = pure .descend
  leave : ∀ s st n, Stmt.anyReturn ((w.leaveStmt s st n).1.1.map (·.get s)) = s.hasReturn
  block : ∀ b, w.leaveBlock b = pure .keep

namespace KeepsReturns

variable {w : Editor σ} {k : Continuation σ}

theorem leaveEach (hw : w.KeepsReturns) (s : Stmt) (xs : Splice Stmt) (st : σ) (n : Nat) :
    Stmt.anyReturn ((Editor.leaveEach w.leaveStmt s xs st n).1.1.map (·.get s))
      = Stmt.anyReturn (xs.map (·.get s)) := by
  induction xs generalizing st n with
  | nil => rfl
  | cons x xs ih =>
    have hx := hw.leave (x.get s) st n
    simp only [Editor.leaveEach, Supply.stateT_bind_apply, Supply.stateT_pure_apply, map_append,
      map_map, Function.comp_def, Edit.get_andThen, Stmt.anyReturn_append, ih, map_cons,
      Stmt.anyReturn]
    rw [hx]

theorem around (hw : w.KeepsReturns) (s : Stmt) {y : Editing σ (Splice Stmt)} {st : σ} {n : Nat}
    (hy : Stmt.anyReturn ((y st n).1.1.map (·.get s)) = s.hasReturn) :
    Stmt.anyReturn ((w.aroundStmt k false s y st n).1.1.map (·.get s)) = s.hasReturn := by
  rw [aroundStmt_descend (hw.enter s), Supply.stateT_bind_apply, hw.leaveEach, hy]

theorem single (xs : Splice Stmt) (s : Stmt) (st : σ) (n : Nat) :
    ((Editor.single xs s st n).1.1.get s).hasReturn = Stmt.anyReturn (xs.map (·.get s)) := by
  unfold Editor.single
  split
  · simp [Stmt.anyReturn]
  · rfl
  · rfl

theorem declared (t : Tag) (d : Decl) (s : Stmt) (hs : s.hasReturn = false) (xs : Splice Decl)
    (st : σ) (n : Nat) :
    Stmt.anyReturn ((Editor.declared t d xs st n).1.1.map (·.get s)) = false := by
  have hothers (xs : Splice Decl) (st : σ) (n : Nat) :
      Stmt.anyReturn (((xs.mapM fun y => return Edit.put (← Stmt.declare (y.get d)) :
        Editing σ (Splice Stmt)) st n).1.1.map (·.get s)) = false := by
    induction xs generalizing st n with
    | nil => rfl
    | cons x xs ih =>
      rw [mapM_cons]
      exact ih _ _
  unfold Editor.declared
  split
  · simpa [Stmt.anyReturn] using hs
  · rfl
  · rename_i xs _
    exact hothers xs st n

mutual
theorem visitStmt (hw : w.KeepsReturns) : (s : Stmt) → ∀ st n,
    Stmt.anyReturn ((w.visitStmt k false s st n).1.1.map (·.get s)) = s.hasReturn
  | .block t b, st, n => hw.around _ <| by
    have hb := visitBlock hw b st n
    simp only [Supply.stateT_bind_apply, Supply.stateT_pure_apply, map_cons, map_nil,
      Edit.get_map, Stmt.anyReturn, Stmt.hasReturn, hb, Bool.or_false]
  | .assign t l r, st, n => hw.around _ <| by
    simp only [Supply.stateT_bind_apply, Supply.stateT_pure_apply, map_cons, map_nil,
      Edit.get_map₂, Stmt.anyReturn, Stmt.hasReturn, Bool.or_false]
  | .call t e, st, n => hw.around _ <| by
    simp only [Supply.stateT_bind_apply, Supply.stateT_pure_apply, map_cons, map_nil,
      Edit.get_map, Stmt.anyReturn, Stmt.hasReturn, Bool.or_false]
  | .ifThen t c a none, st, n => hw.around _ <| by
    simp only [Supply.stateT_bind_apply, Supply.stateT_pure_apply, map_cons, map_nil]
    rw [Edit.get_map₂ (Stmt.ifThen t · · none)]
    simp only [Stmt.anyReturn, Stmt.hasReturn, single, visitStmt hw a, Bool.or_false]
  | .ifThen t c a (some b), st, n => hw.around _ <| by
    simp only [Supply.stateT_bind_apply, Supply.stateT_pure_apply, map_cons, map_nil,
      get_ifElse, Stmt.anyReturn, Stmt.hasReturn, single, visitStmt hw a, visitStmt hw b,
      Bool.or_false]
  | .switch t e cs, st, n => hw.around _ <| by
    simp only [Supply.stateT_bind_apply, Supply.stateT_pure_apply, map_cons, map_nil,
      Edit.get_map₂, Stmt.anyReturn, Stmt.hasReturn, visitCases hw cs, Bool.or_false]
  | .decl t d, st, n => hw.around _ (declared t d _ rfl _ _ _)
  | .ret t e, st, n => hw.around _ <| by
    simp only [Supply.stateT_bind_apply, Supply.stateT_pure_apply, map_cons, map_nil,
      Edit.get_map, Stmt.anyReturn, Stmt.hasReturn, Bool.or_false]
  | .exit _, _, _ | .empty _, _, _ => hw.around _ rfl
theorem visitBlock (hw : w.KeepsReturns) : (b : Block) → ∀ st n,
    ((w.visitBlock k b st n).1.1.get b).hasReturn = b.hasReturn
  | .mk i ss, st, n => by
    rw [get_visitBlock hw.block, Block.hasReturn, Block.hasReturn, visitStmts hw ss]
theorem visitStmts (hw : w.KeepsReturns) : (ss : List Stmt) → ∀ st n,
    Stmt.anyReturn ((w.visitStmts k ss st n).1.1.get ss) = Stmt.anyReturn ss
  | [], _, _ => rfl
  | s :: ss, st, n => by
    rw [get_visitStmts_cons, Stmt.anyReturn_append, visitStmt hw s, visitStmts hw ss,
      Stmt.anyReturn]
theorem visitCases (hw : w.KeepsReturns) : (cs : List Case) → ∀ st n,
    Case.anyReturn ((w.visitCases k cs st n).1.1.get cs) = Case.anyReturn cs
  | [], _, _ => rfl
  | .run l b :: cs, st, n => by
    rw [get_visitCases_run, Case.anyReturn, Case.anyReturn, Case.hasReturn, Case.hasReturn,
      visitBlock hw b, visitCases hw cs]
  | .fallThrough l :: cs, st, n => by
    rw [get_visitCases_fallThrough, Case.anyReturn, Case.anyReturn, visitCases hw cs,
      Case.hasReturn]
end

end KeepsReturns

end Editor

mutual
theorem Stmt.hasReturn_copy : (s : Stmt) → ∀ n, (s.copy n).1.hasReturn = s.hasReturn
  | .block _ b, _ => Block.hasReturn_copy b _
  | .ifThen _ _ a none, _ => Stmt.hasReturn_copy a _
  | .ifThen _ _ a (some b), n => by
    simp only [Stmt.copy, Supply.bind_apply, Supply.pure_apply, Stmt.hasReturn,
      Stmt.hasReturn_copy a, Stmt.hasReturn_copy b]
  | .switch _ _ cs, _ => Case.anyReturn_copies cs _
  | .assign .., _ | .call .., _ | .decl .., _ | .ret .., _ | .exit _, _ | .empty _, _ => rfl
theorem Block.hasReturn_copy : (b : Block) → ∀ n, (b.copy n).1.hasReturn = b.hasReturn
  | .mk _ ss, _ => Stmt.anyReturn_copies ss _
theorem Stmt.anyReturn_copies : (ss : List Stmt) → ∀ n,
    Stmt.anyReturn (Stmt.copies ss n).1 = Stmt.anyReturn ss
  | [], _ => rfl
  | s :: ss, n => by
    simp only [Stmt.copies, Supply.bind_apply, Supply.pure_apply, Stmt.anyReturn,
      Stmt.hasReturn_copy s, Stmt.anyReturn_copies ss]
theorem Case.anyReturn_copies : (cs : List Case) → ∀ n,
    Case.anyReturn (Case.copies cs n).1 = Case.anyReturn cs
  | [], _ => rfl
  | .run _ b :: cs, n => by
    simp only [Case.copies, Supply.bind_apply, Supply.pure_apply, Case.anyReturn, Case.hasReturn,
      Block.hasReturn_copy b, Case.anyReturn_copies cs]
  | .fallThrough _ :: cs, _ => Case.anyReturn_copies cs _
end

theorem Case.anyReturn_map {f : Case → Case} (hf : ∀ c, (f c).hasReturn = c.hasReturn)
    (cs : List Case) : Case.anyReturn (cs.map f) = Case.anyReturn cs := by
  induction cs with
  | nil => rfl
  | cons c cs ih => rw [map_cons, Case.anyReturn, Case.anyReturn, hf, ih]

namespace Renaming

variable (r : Renaming) (refs : Refs) (types : Types)

theorem hasReturn_relabel (ls : List (String × String)) (c : Case) :
    (relabel ls c).hasReturn = c.hasReturn := by
  unfold relabel
  split
  · cases c <;> rfl
  · rfl

theorem keepsReturns : (r.editor refs types).KeepsReturns where
  enter _ := rfl
  leave s _ _ := by
    cases s with
    | switch t e cs =>
      have hcases : Case.anyReturn ((r.cases refs types e cs).get cs) = Case.anyReturn cs := by
        unfold Renaming.cases
        split
        · split
          · rfl
          · exact Case.anyReturn_map (hasReturn_relabel _) cs
        · rfl
      have hget := Edit.get_map (Stmt.switch t e) cs (r.cases refs types e cs)
      simp only [editor, Supply.stateT_pure_apply, map_cons, map_nil, hget, Stmt.anyReturn,
        Stmt.hasReturn, hcases, Bool.or_false]
    | _ => exact Bool.or_false _
  block _ := rfl

theorem hasReturn_block (b : Block) (n : Nat) :
    (r.block refs types b n).1.hasReturn = b.hasReturn :=
  (r.keepsReturns refs types).visitBlock b () n

end Renaming

end MatchAction
