import MatchAction.Edit.Editor
import MatchAction.Proofs.Terms

namespace MatchAction

namespace Decl

def frame : Decl → Decl
  | .action h ps _ => .action h ps (.mk ⟨0⟩ [])
  | .table h _ _ _ => .table h [] [] none
  | .control h tps ps cps _ _ => .control h tps ps cps [] (.mk ⟨0⟩ [])
  | .inst h ty _ => .inst h ty []
  | .var h ty _ => .var h ty none
  | .const h ty _ => .const h ty (.bool ⟨⟨0⟩, none⟩ false)
  | d => d

@[simp] theorem head_frame (d : Decl) : d.frame.head = d.head := by cases d <;> rfl

theorem head_congr {d d' : Decl} (h : d'.frame = d.frame) : d'.head = d.head := by
  rw [← head_frame, h, head_frame]

theorem isControl_congr {d d' : Decl} (h : d'.frame = d.frame) : d'.isControl = d.isControl := by
  have hframe (d : Decl) : d.frame.isControl = d.isControl := by cases d <;> rfl
  rw [← hframe, h, hframe]

end Decl

namespace Editor

variable {σ : Type} {w : Editor σ} {k : Continuation σ}

theorem aroundExpr_descend {e : Expr} (h : w.enterExpr e = pure .descend)
    (y : Editing σ (Edit Expr)) :
    w.aroundExpr k false e y = y >>= fun x => x.andThen <$> w.leaveExpr (x.get e) := by
  simp [aroundExpr, h]

theorem get_aroundExpr {e : Expr} (h : w.enterExpr e = pure .descend) (y : Editing σ (Edit Expr))
    (st : σ) (n : Nat) : (w.aroundExpr k false e y st n).1.1.get e =
      (w.leaveExpr ((y st n).1.1.get e) (y st n).1.2 (y st n).2).1.1.get ((y st n).1.1.get e) := by
  rw [aroundExpr_descend h]
  exact Edit.get_andThen e _ _

theorem aroundStmt_descend {s : Stmt} (h : w.enterStmt s = pure .descend)
    (y : Editing σ (Splice Stmt)) :
    w.aroundStmt k false s y = y >>= leaveEach w.leaveStmt s := by
  simp [aroundStmt, h]

theorem aroundDecl_descend {d : Decl} (h : w.enterDecl d = pure .descend)
    (y : Editing σ (Edit Decl)) :
    w.aroundDecl k false d y = y >>= fun x => leaveEach w.leaveDecl d [x] := by
  simp [aroundDecl, h]

theorem leaveEach_singleton {α : Type} (leave : α → Editing σ (Splice α)) (old : α) (x : Edit α) :
    leaveEach leave old [x] = (·.map x.andThen) <$> leave (x.get old) := by
  simp [leaveEach]

theorem get_ifElse (t : Tag) (c : Expr) (a b : Stmt) (x : Edit Expr) (y z : Edit Stmt) :
    (x.map₂ (fun c ab => Stmt.ifThen t c ab.1 (some ab.2)) c (a, b) (y.map₂ Prod.mk a b z)).get
      (.ifThen t c a (some b)) = .ifThen t (x.get c) (y.get a) (some (z.get b)) := by
  cases x <;> cases y <;> cases z <;> rfl

section

variable (s : Stmt) (ss : List Stmt) (l : Label) (b : Block) (cs : List Case) (st : σ) (n : Nat)

theorem get_visitStmts_cons :
    (w.visitStmts k (s :: ss) st n).1.1.get (s :: ss) =
      (w.visitStmt k false s st n).1.1.map (·.get s) ++
        (w.visitStmts k ss (w.visitStmt k false s st n).1.2
          (w.visitStmt k false s st n).2).1.1.get ss := by
  simp only [visitStmts, Supply.stateT_bind_apply, Supply.stateT_pure_apply]
  rw [← Splice.get_toEdit]
  exact Edit.get_map₂ (· ++ ·) [s] ss _ _

theorem get_visitCases_run :
    (w.visitCases k (.run l b :: cs) st n).1.1.get (.run l b :: cs) =
      .run l ((w.visitBlock k b st n).1.1.get b) ::
        (w.visitCases k cs (w.visitBlock k b st n).1.2
          (w.visitBlock k b st n).2).1.1.get cs := by
  simp only [visitCases, Supply.stateT_bind_apply, Supply.stateT_pure_apply, Edit.get_map₂,
    Edit.get_map]

theorem get_visitCases_fallThrough :
    (w.visitCases k (.fallThrough l :: cs) st n).1.1.get (.fallThrough l :: cs) =
      .fallThrough l :: (w.visitCases k cs st n).1.1.get cs := by
  simp only [visitCases, Supply.stateT_bind_apply, Supply.stateT_pure_apply]
  exact Edit.get_map (Case.fallThrough l :: ·) cs _

end

theorem get_visitBlock (h : ∀ b, w.leaveBlock b = pure .keep) (i : NodeId) (ss : List Stmt) (st : σ)
    (n : Nat) : (w.visitBlock k (.mk i ss) st n).1.1.get (.mk i ss) =
      .mk i ((w.visitStmts k ss st n).1.1.get ss) := by
  simp [visitBlock, h, Edit.get_map]

theorem map_label_visitCases (cs : List Case) (st : σ) (n : Nat) :
    ((w.visitCases k cs st n).1.1.get cs).map Case.label = cs.map Case.label := by
  induction cs generalizing st n with
  | nil => rfl
  | cons c cs ih =>
    cases c with
    | run l b => rw [get_visitCases_run, List.map_cons, List.map_cons, ih]; rfl
    | fallThrough l => rw [get_visitCases_fallThrough, List.map_cons, List.map_cons, ih]

def declParts (w : Editor σ) (k : Continuation σ) : Decl → Editing σ (Edit Decl)
  | .action h ps b => return (← w.visitBlock k b).map (.action h ps)
  | .table h ks as d => do
    let x ← w.visitKeys k ks
    let y ← w.visitExprs k as
    let z ← w.visitExpr? k d
    return x.map₂ (fun ks ad => .table h ks ad.1 ad.2) ks (as, d) (y.map₂ Prod.mk as d z)
  | .control h tps ps cps ls b => do
    let x ← w.visitDecls k ls
    let y ← w.visitBlock k b
    return x.map₂ (.control h tps ps cps) ls b y
  | .inst h t as => return (← w.visitExprs k as).map (.inst h t)
  | .var h t e => return (← w.visitExpr? k e).map (.var h t)
  | .const h t e => return (← w.visitExpr k false e).map (.const h t)
  | _ => pure .keep

theorem visitDecl_eq (entered : Bool) (d : Decl) :
    w.visitDecl k entered d = w.aroundDecl k entered d (w.declParts k d) := by
  cases d <;> rfl

theorem get_table (h : Head) (ks : List Key) (as : List Expr) (d : Option Expr)
    (x : Edit (List Key)) (y : Edit (List Expr)) (z : Edit (Option Expr)) :
    (x.map₂ (fun ks ad => Decl.table h ks ad.1 ad.2) ks (as, d) (y.map₂ Prod.mk as d z)).get
      (.table h ks as d) = .table h (x.get ks) (y.get as) (z.get d) := by
  cases x <;> cases y <;> cases z <;> rfl

theorem frame_declParts (d : Decl) (st : σ) (n : Nat) :
    ((w.declParts k d st n).1.1.get d).frame = d.frame := by
  cases d with
  | action h ps b => exact (congrArg Decl.frame (Edit.get_map (Decl.action h ps) b _)).trans rfl
  | table h ks as d => exact (congrArg Decl.frame (get_table h ks as d _ _ _)).trans rfl
  | control h tps ps cps ls b =>
    exact (congrArg Decl.frame (Edit.get_map₂ (Decl.control h tps ps cps) ls b _ _)).trans rfl
  | inst h t as => exact (congrArg Decl.frame (Edit.get_map (Decl.inst h t) as _)).trans rfl
  | var h t e => exact (congrArg Decl.frame (Edit.get_map (Decl.var h t) e _)).trans rfl
  | const h t e => exact (congrArg Decl.frame (Edit.get_map (Decl.const h t) e _)).trans rfl
  | _ => rfl

theorem head_declParts (d : Decl) (st : σ) (n : Nat) :
    ((w.declParts k d st n).1.1.get d).head = d.head := Decl.head_congr (frame_declParts d st n)

theorem created_declParts {ρ ρ' : Env} {d : Decl} (st : σ) (n : Nat)
    (hvar : ∀ h t e, d = .var h t e →
      Expr.terms ρ' ((w.visitExpr? k e st n).1.1.get e).toList = Expr.terms ρ e.toList)
    (hconst : ∀ h t e, d = .const h t e →
      ((w.visitExpr k false e st n).1.1.get e).term ρ' = e.term ρ)
    (hinst : ∀ h t as, d = .inst h t as →
      Expr.terms ρ' ((w.visitExprs k as st n).1.1.get as) = Expr.terms ρ as) :
    ((w.declParts k d st n).1.1.get d).created ρ' = d.created ρ := by
  cases d with
  | action h ps b => exact congrArg (Decl.created ρ') (Edit.get_map (Decl.action h ps) b _)
  | table h ks as d => exact congrArg (Decl.created ρ') (get_table h ks as d _ _ _)
  | control h tps ps cps ls b =>
    exact congrArg (Decl.created ρ') (Edit.get_map₂ (Decl.control h tps ps cps) ls b _ _)
  | inst h t as =>
    have hc := hinst h t as rfl
    refine (congrArg (Decl.created ρ') (Edit.get_map (Decl.inst h t) as _)).trans ?_
    exact congrArg (fun x => some (t, x)) hc
  | var h t e =>
    have hc := hvar h t e rfl
    refine (congrArg (Decl.created ρ') (Edit.get_map (Decl.var h t) e _)).trans ?_
    exact congrArg (fun x => some (t, x)) hc
  | const h t e =>
    have hc := hconst h t e rfl
    refine (congrArg (Decl.created ρ') (Edit.get_map (Decl.const h t) e _)).trans ?_
    exact congrArg (fun x => some (t, [x])) hc
  | _ => rfl

structure PlainExprs (w : Editor σ) : Prop where
  enter : ∀ e, w.enterExpr e = pure .descend
  leave : ∀ e, w.leaveExpr e = pure .keep

theorem PlainExprs.around (h : w.PlainExprs) (e : Expr) {x : Editing σ (Edit Expr)}
    (hx : x = pure .keep) : w.aroundExpr k false e x = pure .keep := by
  simp [aroundExpr_descend (h.enter e), h.leave, hx]

mutual
theorem PlainExprs.visitExpr (h : w.PlainExprs) : (e : Expr) →
    w.visitExpr k false e = pure .keep
  | .lit .. | .bool .. | .path .. => h.around _ rfl
  | .member _ b _ => h.around _ (by simp [h.visitExpr b])
  | .index _ b i => h.around _ (by simp [h.visitExpr b, h.visitExpr i])
  | .call _ c _ as => h.around _ (by simp [h.visitExpr c, h.visitExprs as])
  | .construct _ _ as => h.around _ (by simp [h.visitExprs as])
  | .unary _ _ e => h.around _ (by simp [h.visitExpr e])
  | .binary _ _ l r => h.around _ (by simp [h.visitExpr l, h.visitExpr r])
theorem PlainExprs.visitExprs (h : w.PlainExprs) : (es : List Expr) →
    w.visitExprs k es = pure .keep
  | [] => rfl
  | e :: es => by simp [Editor.visitExprs, h.visitExpr e, h.visitExprs es]
end

theorem PlainExprs.visitExpr? (h : w.PlainExprs) (e : Option Expr) :
    w.visitExpr? k e = pure .keep := by
  cases e with
  | none => rfl
  | some e => simp [Editor.visitExpr?, h.visitExpr e]

theorem PlainExprs.visitKeys (h : w.PlainExprs) (hleave : ∀ key, w.leaveKey key = pure key.kept)
    (ks : List Key) : w.visitKeys k ks = pure .keep := by
  induction ks with
  | nil => rfl
  | cons key ks ih =>
    have hkey : w.visitKey k key = pure .keep := by
      rw [Editor.visitKey, h.visitExpr]
      simp [hleave, Key.kept, Edit.isKeep]
    simp [Editor.visitKeys, hkey, ih]

end Editor

end MatchAction
