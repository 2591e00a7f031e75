import MatchAction.Proofs.Discovery
import MatchAction.Proofs.Placement
import MatchAction.Tree.Copy
import MatchAction.Tree.Outline

namespace MatchAction

structure Wording where
  use : Option Span → String → Expr
  name : String → String

namespace Wording

def spelling (f : String → String) : Wording := ⟨fun sp n => .path ⟨⟨0⟩, sp⟩ (f n), f⟩

def plain : Wording := spelling id

end Wording

variable (w : Wording)

def Tag.blank (t : Tag) : Tag := ⟨⟨0⟩, t.span⟩

def Head.worded (h : Head) : Head := ⟨⟨0⟩, w.name h.name, h.span⟩

def Label.worded : Label → Label
  | .name n => .name (w.name n)
  | .default => .default

mutual
def Expr.worded : Expr → Expr
  | .lit t v ty => .lit t.blank v ty
  | .bool t b => .bool t.blank b
  | .path t n => w.use t.span n
  | .member t b n => .member t.blank b.worded n
  | .index t b i => .index t.blank b.worded i.worded
  | .call t c ts as => .call t.blank c.worded ts (Expr.allWorded as)
  | .construct t ty as => .construct t.blank ty (Expr.allWorded as)
  | .unary t op e => .unary t.blank op e.worded
  | .binary t op l r => .binary t.blank op l.worded r.worded
def Expr.allWorded : List Expr → List Expr
  | [] => []
  | e :: es => e.worded :: Expr.allWorded es
end

def Key.worded (k : Key) : Key := ⟨⟨0⟩, k.expr.worded w, k.matchKind⟩

mutual
def Stmt.worded : Stmt → Stmt
  | .block t b => .block t.blank b.worded
  | .assign t l r => .assign t.blank (l.worded w) (r.worded w)
  | .call t e => .call t.blank (e.worded w)
  | .ifThen t c a none => .ifThen t.blank (c.worded w) a.worded none
  | .ifThen t c a (some b) => .ifThen t.blank (c.worded w) a.worded (some b.worded)
  | .switch t e cs => .switch t.blank (e.worded w) (Case.allWorded cs)
  | .decl t d => .decl t.blank d.worded
  | .ret t e => .ret t.blank (e.map (Expr.worded w))
  | .exit t => .exit t.blank
  | .empty t => .empty t.blank
def Block.worded : Block → Block
  | .mk _ ss => .mk ⟨0⟩ (Stmt.allWorded ss)
def Stmt.allWorded : List Stmt → List Stmt
  | [] => []
  | s :: ss => s.worded :: Stmt.allWorded ss
def Case.allWorded : List Case → List Case
  | [] => []
  | .run l b :: cs => .run (l.worded w) b.worded :: Case.allWorded cs
  | .fallThrough l :: cs => .fallThrough (l.worded w) :: Case.allWorded cs
def Decl.worded : Decl → Decl
  | .header h fs => .header (h.worded w) fs
  | .struct h fs => .struct (h.worded w) fs
  | .externType h tps cs ms => .externType (h.worded w) tps cs ms
  | .externFn h m => .externFn (h.worded w) m
  | .action h ps b => .action (h.worded w) ps b.worded
  | .table h ks as d =>
    .table (h.worded w) (ks.map (Key.worded w)) (Expr.allWorded w as) (d.map (Expr.worded w))
  | .control h tps ps cps ls b => .control (h.worded w) tps ps cps (Decl.allWorded ls) b.worded
  | .package h tps ps => .package (h.worded w) tps ps
  | .inst h t as => .inst (h.worded w) t (Expr.allWorded w as)
  | .var h t e => .var (h.worded w) t (e.map (Expr.worded w))
  | .const h t e => .const (h.worded w) t (e.worded w)
def Decl.allWorded : List Decl → List Decl
  | [] => []
  | d :: ds => d.worded :: Decl.allWorded ds
end

def Program.worded (p : Program) : Program := ⟨Decl.allWorded w p.decls⟩

def kinds (vs : List Visit) : List String := vs.filterMap fun v => v.stmt?.map (·.kind)

section

variable (vs vs' : List Visit)

@[simp] theorem kinds_nil : kinds [] = [] := rfl

@[simp] theorem kinds_append : kinds (vs ++ vs') = kinds vs ++ kinds vs' := List.filterMap_append

@[simp] theorem kinds_stmt (s : Stmt) : kinds (.stmt s :: vs) = s.kind :: kinds vs := rfl

@[simp] theorem kinds_block (b : Block) : kinds (.block b :: vs) = kinds vs := rfl

@[simp] theorem kinds_enter (d : Decl) : kinds (.enter d :: vs) = kinds vs := rfl

@[simp] theorem kinds_leave (d : Decl) : kinds (.leave d :: vs) = kinds vs := rfl

@[simp] theorem kinds_exprs (es : List Expr) : kinds (es.map .expr) = [] := by
  rw [kinds, List.filterMap_map]
  exact List.filterMap_eq_nil_iff.2 fun _ _ => rfl

@[simp] theorem kinds_expr (e : Expr) : kinds e.visits = [] := kinds_exprs e.walk

@[simp] theorem kinds_expr? (e : Option Expr) : kinds (Expr.visits? e) = [] := by
  cases e with
  | none => rfl
  | some e => exact kinds_expr e

@[simp] theorem kinds_keys (ks : List Key) : kinds (ks.flatMap Key.visits) = [] := by
  induction ks with
  | nil => rfl
  | cons k ks ih =>
    rw [List.flatMap_cons, kinds_append, ih, List.append_nil]
    exact kinds_expr k.expr

end

mutual
theorem Stmt.kinds_worded : (s : Stmt) → kinds (s.worded w).visits = kinds s.visits
  | .block _ b => by simp [Stmt.worded, Stmt.visits, Stmt.kind, Block.kinds_worded b]
  | .assign .. | .call .. | .ret .. | .exit _ | .empty
    _ => by simp [Stmt.worded, Stmt.visits, Stmt.kind]
  | .ifThen _ _ a none => by simp [Stmt.worded, Stmt.visits, Stmt.kind, Stmt.kinds_worded a]
  | .ifThen _ _ a (some b) => by
    simp [Stmt.worded, Stmt.visits, Stmt.kind, Stmt.kinds_worded a, Stmt.kinds_worded b]
  | .switch _ _ cs => by simp [Stmt.worded, Stmt.visits, Stmt.kind, Case.kinds_allWorded cs]
  | .decl _ d => by simp [Stmt.worded, Stmt.visits, Stmt.kind, Decl.kinds_worded d]
theorem Block.kinds_worded : (b : Block) → kinds (b.worded w).visits = kinds b.visits
  | .mk _ ss => by simp [Block.worded, Block.visits, Stmt.kinds_allWorded ss]
theorem Stmt.kinds_allWorded : (ss : List Stmt) →
    kinds (Stmt.allVisits (Stmt.allWorded w ss)) = kinds (Stmt.allVisits ss)
  | [] => rfl
  | s :: ss => by
    simp [Stmt.allWorded, Stmt.allVisits, Stmt.kinds_worded s, Stmt.kinds_allWorded ss]
theorem Case.kinds_allWorded : (cs : List Case) →
    kinds (Case.visits (Case.allWorded w cs)) = kinds (Case.visits cs)
  | [] => rfl
  | .run _ b :: cs => by
    simp [Case.allWorded, Case.visits, Block.kinds_worded b, Case.kinds_allWorded cs]
  | .fallThrough _ :: cs => by simp [Case.allWorded, Case.visits, Case.kinds_allWorded cs]
theorem Decl.kinds_worded : (d : Decl) → kinds (d.worded w).visits = kinds d.visits
  | .action _ _ b => by simp [Decl.worded, Decl.visits, Block.kinds_worded b]
  | .control _ _ _ _ ls b => by
    simp [Decl.worded, Decl.visits, Decl.kinds_allWorded ls, Block.kinds_worded b]
  | .header .. | .struct .. | .externType .. | .externFn .. | .table .. | .package .. | .inst ..
  | .var .. | .const .. => by simp [Decl.worded, Decl.visits]
theorem Decl.kinds_allWorded : (ds : List Decl) →
    kinds (Decl.allVisits (Decl.allWorded w ds)) = kinds (Decl.allVisits ds)
  | [] => rfl
  | d :: ds => by
    simp [Decl.allWorded, Decl.allVisits, Decl.kinds_worded d, Decl.kinds_allWorded ds]
end

theorem Program.kinds_worded (p : Program) : kinds (p.worded w).visits = kinds p.visits :=
  Decl.kinds_allWorded w p.decls

namespace ControlInlining

/-- An instance of `A`, which instantiates `L`, is passed to one of `B`, which applies it. -/
def passed : Program := ⟨[
  .control ⟨⟨0⟩, "L", none⟩ [] [] [] [] (.mk ⟨1⟩ []),
  .control ⟨⟨2⟩, "A", none⟩ [] [] [] [.inst ⟨⟨3⟩, "l", none⟩ (.named "L") []]
    (.mk ⟨4⟩ [application 5 "l"]),
  .control ⟨⟨9⟩, "B", none⟩ [] [] [⟨⟨10⟩, "x", .none, .named "A", none⟩] []
    (.mk ⟨11⟩ [application 12 "x"]),
  .control ⟨⟨16⟩, "caller", none⟩ [] [] []
    [.inst ⟨⟨17⟩, "c1", none⟩ (.named "A") [],
      .inst ⟨⟨18⟩, "c2", none⟩ (.named "B") [.path ⟨⟨19⟩, none⟩ "c1"]]
    (.mk ⟨20⟩ [application 21 "c2"])]⟩

def outcome? (style : InlineStyle) (sources : SourceMap) (p : Program) (n : Nat) (w : WorkList) :
    Option (Program × Bool) :=
  let r := (p.inlineControls style sources w).run .empty n
  r.1.1.toOption.map fun x => (x.get p, r.1.2.hasErrors)

theorem exists_of_outcome? {style : InlineStyle} {sources : SourceMap} {p q : Program} {n : Nat}
    {w : WorkList} {failed : Bool} (h : outcome? style sources p n w = some (q, failed)) :
    ∃ x ds n', (p.inlineControls style sources w).run .empty n = ((.ok x, ds), n') ∧
      ds.hasErrors = failed ∧ x.get p = q := by
  obtain ⟨x, hx, hres⟩ := Option.map_eq_some_iff.1 h
  obtain ⟨hget, hfailed⟩ := Prod.mk.inj hres
  exact ⟨x, _, _, Prod.ext (Prod.ext (eq_ok_of_toOption hx) rfl) rfl, hfailed, hget⟩

/-- The application of an instance that was passed on is left over by a single round, since the
instance goes in the same turn; rounds of leaves inline it. -/
theorem passed_instance_divides_styles :
    passed.Distinct 25 ∧ passed.Orderly ∧ passed.check.errors = [] ∧
    passed.ReturnFreeControls .empty ∧ passed.Unambiguous .empty ∧
    (Names.ofProgram passed).used.Nodup ∧
    ∃ w, discover passed.check.refs .empty passed = .ok w ∧
      ∃ x ds n x' ds' n',
        (passed.inlineControls .simple .empty w).run .empty 25 = ((.ok x, ds), n) ∧
        ds.hasErrors = false ∧
        (passed.inlineControls .general .empty w).run .empty 25 = ((.ok x', ds'), n') ∧
        ds'.hasErrors = false ∧
        ∀ v v' : Wording, (x.get passed).worded v ≠ (x'.get passed).worded v' := by
  have hruns : ((discover passed.check.refs .empty passed).toOption.bind fun w =>
      (outcome? .simple .empty passed 25 w).bind fun r =>
        (outcome? .general .empty passed 25 w).map fun r' =>
          (r.2, r'.2, kinds r.1.visits == kinds r'.1.visits)) = some (false, false, false) := by
    decide +kernel
  obtain ⟨w, hw, hruns⟩ := Option.bind_eq_some_iff.1 hruns
  obtain ⟨⟨q, failed⟩, hsimple, hruns⟩ := Option.bind_eq_some_iff.1 hruns
  obtain ⟨⟨q', failed'⟩, hgeneral, hres⟩ := Option.map_eq_some_iff.1 hruns
  obtain ⟨hfailed, hres⟩ := Prod.mk.inj hres
  obtain ⟨hfailed', hkinds⟩ := Prod.mk.inj hres
  obtain ⟨x, ds, n, hrun, hds, rfl⟩ := exists_of_outcome? hsimple
  obtain ⟨x', ds', n', hrun', hds', rfl⟩ := exists_of_outcome? hgeneral
  refine ⟨⟨by decide, by decide⟩, ((Weights.total_disorder 0 passed).1 (by decide)).1,
    List.isEmpty_iff.1 (by decide +kernel), Program.returnFreeControls_iff.2 (by decide),
    Program.unambiguous_iff.2
      (by decide), by decide, w, eq_ok_of_toOption hw, x, ds, n, x', ds', n',
    hrun, hds.trans hfailed, hrun', hds'.trans hfailed', fun v v' hsame => ?_⟩
  have hsame : kinds (x.get passed).visits = kinds (x'.get passed).visits := by
    rw [← Program.kinds_worded v, hsame, Program.kinds_worded]
  rw [hsame, beq_self_eq_true] at hkinds
  cases hkinds

end ControlInlining

end MatchAction
