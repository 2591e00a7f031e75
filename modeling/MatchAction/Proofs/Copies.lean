import MatchAction.Proofs.Steps
import MatchAction.Proofs.Wording
import MatchAction.Tree.Printer

namespace MatchAction

/-! Trees that are the same up to identities print the same text. -/

namespace Expr

theorem isBinary_worded (e : Expr) : (e.worded .plain).isBinary = e.isBinary := by
  cases e <;> rfl

mutual
theorem text_worded : (e : Expr) → (e.worded .plain).text = e.text
  | .lit .. | .bool .. | .path .. => rfl
  | .member _ b _ => by simp only [worded, text, asOperand, b.isBinary_worded, b.text_worded]
  | .index _ b i => by
    simp only [worded, text, asOperand, b.isBinary_worded, b.text_worded, i.text_worded]
  | .call _ c _ as => by simp only [worded, text, c.text_worded, texts_allWorded as]
  | .construct _ _ as => by simp only [worded, text, texts_allWorded as]
  | .unary _ _ e => by simp only [worded, text, asOperand, e.isBinary_worded, e.text_worded]
  | .binary _ _ l r => by
    simp only [worded, text, asOperand, l.isBinary_worded, l.text_worded, r.isBinary_worded,
      r.text_worded]
theorem texts_allWorded : (es : List Expr) → texts (allWorded .plain es) = texts es
  | [] => rfl
  | e :: es => by rw [allWorded, texts, texts, e.text_worded, texts_allWorded es]
end

end Expr

theorem Label.text_worded (l : Label) : (l.worded .plain).text = l.text := by
  cases l <;> rfl

mutual
theorem Stmt.lines_worded : (s : Stmt) → ∀ inBraces, (s.worded .plain).lines inBraces =
    s.lines inBraces
  | .block _ b, _ => by simp only [Stmt.worded, Stmt.lines, b.lines_worded]
  | .assign _ l r, _ => by simp only [Stmt.worded, Stmt.lines, l.text_worded, r.text_worded]
  | .call _ e, _ => by simp only [Stmt.worded, Stmt.lines, e.text_worded]
  | .ifThen _ c a none, _ => by simp only [Stmt.worded, Stmt.lines, c.text_worded, a.lines_worded]
  | .ifThen _ c a (some b), _ => by
    simp only [Stmt.worded, Stmt.lines, c.text_worded, a.lines_worded, b.lines_worded]
  | .switch _ e cs, _ => by simp only [Stmt.worded, Stmt.lines, e.text_worded, Case.lines_worded cs]
  | .decl _ d, _ => by simp only [Stmt.worded, Stmt.lines, d.lines_worded]
  | .ret _ none, _ | .exit _, _ | .empty _, _ => rfl
  | .ret _ (some e), _ => by simp only [Stmt.worded, Option.map_some, Stmt.lines, e.text_worded]
theorem Block.lines_worded : (b : Block) → (b.worded .plain).lines = b.lines
  | .mk _ ss => Stmt.allLines_worded ss
theorem Stmt.allLines_worded : (ss : List Stmt) →
    Stmt.allLines (Stmt.allWorded .plain ss) = Stmt.allLines ss
  | [] => rfl
  | s :: ss => by
    rw [Stmt.allWorded, Stmt.allLines, Stmt.allLines, s.lines_worded, Stmt.allLines_worded ss]
theorem Case.lines_worded : (cs : List Case) → Case.lines (Case.allWorded .plain cs) = Case.lines cs
  | [] => rfl
  | .run l b :: cs => by
    simp only [Case.allWorded, Case.lines, l.text_worded, b.lines_worded, Case.lines_worded cs]
  | .fallThrough l :: cs => by
    simp only [Case.allWorded, Case.lines, l.text_worded, Case.lines_worded cs]
theorem Decl.lines_worded : (d : Decl) → (d.worded .plain).lines = d.lines
  | .header .. | .struct .. | .externType .. | .externFn .. | .package .. | .var _ _ none => rfl
  | .action _ _ b => by simp only [Decl.worded, Decl.lines, b.lines_worded]; rfl
  | .table _ ks as d => by
    have hkeys : (ks.map (Key.worded .plain)).map Key.text = ks.map Key.text := by
      simp [Key.text, Key.worded, Expr.text_worded]
    have hactions : (Expr.allWorded .plain as).map (fun a => a.text ++ ";") =
        as.map (fun a => a.text ++ ";") := by
      induction as with
      | nil => rfl
      | cons a as ih => rw [Expr.allWorded, List.map_cons, List.map_cons, ih, a.text_worded]
    simp only [Decl.worded, Decl.lines, List.isEmpty_map, hkeys, hactions]
    cases d with
    | none => rfl
    | some e => simp only [Option.map_some, e.text_worded]; rfl
  | .control _ _ _ _ ls b => by
    simp only [Decl.worded, Decl.lines, Decl.allLines_worded ls, b.lines_worded]
    rfl
  | .inst _ _ as => by
    simp only [Decl.worded, Decl.lines, Expr.argsText, Expr.texts_allWorded as]
    rfl
  | .var _ _ (some e) => by simp only [Decl.worded, Option.map_some, Decl.lines, e.text_worded]; rfl
  | .const _ _ e => by simp only [Decl.worded, Decl.lines, e.text_worded]; rfl
theorem Decl.allLines_worded : (ds : List Decl) →
    Decl.allLines (Decl.allWorded .plain ds) = Decl.allLines ds
  | [] => rfl
  | d :: ds => by
    rw [Decl.allWorded, Decl.allLines, Decl.allLines, d.lines_worded, Decl.allLines_worded ds]
end

def issued (n k : Nat) : List NodeId := (List.range' n k).map .mk

@[simp] theorem issued_zero (n : Nat) : issued n 0 = [] := rfl

@[simp] theorem issued_succ (n k : Nat) : issued n (k + 1) = ⟨n⟩ :: issued (n + 1) k := rfl

@[simp] theorem issued_add (n j k : Nat) : issued n (j + k) = issued n j ++ issued (n + j) k := by
  rw [issued, ← List.range'_append_1, List.map_append]
  rfl

abbrev Copied {α : Type} (plain : α → α) (nodes : α → List Visit) (a : α) (x : Supply α) : Prop :=
  ∀ n, plain (x n).1 = plain a ∧
    nodeIds (nodes (x n).1) = issued n (nodeIds (nodes a)).length ∧
    (x n).2 = n + (nodeIds (nodes a)).length

section

variable (vs : List Visit)

@[simp] theorem nodeIds_nil : nodeIds [] = [] := rfl

@[simp] theorem nodeIds_stmt (s : Stmt) : nodeIds (.stmt s :: vs) = s.tag.id :: nodeIds vs := rfl

@[simp] theorem nodeIds_block (b : Block) : nodeIds (.block b :: vs) = b.id :: nodeIds vs := rfl

@[simp] theorem nodeIds_key (k : Key) : nodeIds (.key k :: vs) = k.id :: nodeIds vs := rfl

@[simp] theorem nodeIds_enter (d : Decl) : nodeIds (.enter d :: vs) = d.head.id :: nodeIds vs := rfl

@[simp] theorem nodeIds_leave (d : Decl) : nodeIds (.leave d :: vs) = nodeIds vs := rfl

@[simp] theorem nodeIds_expr (e : Expr) : nodeIds (.expr e :: vs) = e.tag.id :: nodeIds vs := rfl

end

namespace Expr

variable (t : Tag) (b i e l r : Expr) (as es : List Expr)

@[simp] theorem visits_member (n : String) : (member t b n).visits = .expr (.member t b n) ::
    b.visits := rfl

@[simp] theorem visits_index : (index t b i).visits = .expr (.index t b i) ::
    (b.visits ++ i.visits) := by
  simp [visits, walk]

@[simp] theorem visits_construct (ty : TypeExpr) :
    (construct t ty as).visits = .expr (.construct t ty as) :: (walks as).map .expr := rfl

@[simp] theorem visits_unary (op : UnaryOp) : (unary t op e).visits = .expr (.unary t op e) ::
    e.visits := rfl

@[simp] theorem visits_binary (op : BinaryOp) :
    (binary t op l r).visits = .expr (.binary t op l r) :: (l.visits ++ r.visits) := by
  simp [visits, walk]

@[simp] theorem walks_cons : (walks (e :: es)).map .expr = e.visits ++ (walks es).map .expr :=
    List.map_append

end Expr

section

attribute [local simp] Expr.copy Expr.copies Expr.worded Expr.allWorded Tag.blank Expr.tag
    Key.copy Key.worded
  Key.visits Stmt.copy Stmt.copies Stmt.worded Stmt.allWorded Stmt.visits Stmt.allVisits
    Stmt.tag Block.copy
  Block.worded Block.visits Block.id Case.copies Case.allWorded Case.visits Decl.copy
    Decl.copies Decl.worded
  Decl.allWorded Decl.visits Decl.allVisits Head.copy Head.fresh Head.worded Decl.head

mutual
theorem Expr.copied : (e : Expr) → Copied (Expr.worded .plain) Expr.visits e e.copy
  | .lit .., _ | .bool .., _ | .path .., _ => ⟨rfl, rfl, rfl⟩
  | .member _ b _, n => by
    simp [b.copied]
    omega
  | .index _ b i, n => by
    simp [b.copied, i.copied]
    omega
  | .call _ c _ as, n => by
    simp [Expr.visits_call, c.copied, Expr.copieds as]
    omega
  | .construct _ _ as, n => by
    simp [Expr.copieds as]
    omega
  | .unary _ _ e, n => by
    simp [e.copied]
    omega
  | .binary _ _ l r, n => by
    simp [l.copied, r.copied]
    omega
theorem Expr.copieds : (es : List Expr) →
    Copied (Expr.allWorded .plain) (fun es => (Expr.walks es).map .expr) es (Expr.copies es)
  | [], _ => ⟨rfl, rfl, rfl⟩
  | e :: es, n => by
    simp [e.copied, Expr.copieds es]
    omega
end

theorem Expr.copied? (e : Option Expr) :
    Copied (·.map (Expr.worded .plain)) Expr.visits? e (Expr.copy? e) := by
  intro n
  cases e with
  | none => exact ⟨rfl, rfl, rfl⟩
  | some e =>
    obtain ⟨hplain, hrest⟩ := e.copied n
    exact ⟨congrArg some hplain, hrest⟩

theorem Key.copied (ks : List Key) :
    Copied (·.map (Key.worded .plain)) (·.flatMap Key.visits) ks (ks.mapM Key.copy) := by
  induction ks with
  | nil => exact fun _ => ⟨rfl, rfl, rfl⟩
  | cons k ks ih =>
    intro n
    simp [k.expr.copied, ih]
    omega

mutual
theorem Stmt.copied : (s : Stmt) → Copied (Stmt.worded .plain) Stmt.visits s s.copy
  | .block _ b, n => by
    simp [b.copied]
    omega
  | .assign _ l r, n => by
    simp [l.copied, r.copied]
    omega
  | .call _ e, n => by
    simp [e.copied]
    omega
  | .ifThen _ c a none, n => by
    simp [c.copied, a.copied]
    omega
  | .ifThen _ c a (some b), n => by
    simp [c.copied, a.copied, b.copied]
    omega
  | .switch _ e cs, n => by
    simp [e.copied, Case.copied cs]
    omega
  | .decl _ d, n => by
    simp [d.copied]
    omega
  | .ret _ e, n => by
    simp [Expr.copied? e]
    omega
  | .exit _, _ | .empty _, _ => ⟨rfl, rfl, rfl⟩
theorem Block.copied : (b : Block) → Copied (Block.worded .plain) Block.visits b b.copy
  | .mk _ ss, n => by
    simp [Stmt.copieds ss]
    omega
theorem Stmt.copieds : (ss : List Stmt) →
    Copied (Stmt.allWorded .plain) Stmt.allVisits ss (Stmt.copies ss)
  | [], _ => ⟨rfl, rfl, rfl⟩
  | s :: ss, n => by
    simp [s.copied, Stmt.copieds ss]
    omega
theorem Case.copied : (cs : List Case) → Copied (Case.allWorded .plain) Case.visits cs
    (Case.copies cs)
  | [], _ => ⟨rfl, rfl, rfl⟩
  | .run _ b :: cs, n => by
    simp [b.copied, Case.copied cs]
    omega
  | .fallThrough _ :: cs, n => by
    simp [Case.copied cs]
theorem Decl.copied : (d : Decl) → Copied (Decl.worded .plain) Decl.visits d d.copy
  | .header .., _ | .struct .., _ | .externType .., _ | .externFn .., _ | .package .., _ =>
    ⟨rfl, rfl, rfl⟩
  | .action _ _ b, n => by
    simp [b.copied]
    omega
  | .table _ ks as d, n => by
    simp [Key.copied ks, Expr.copieds as, Expr.copied? d]
    omega
  | .control _ _ _ _ ls b, n => by
    simp [Decl.copieds ls, b.copied]
    omega
  | .inst _ _ as, n => by
    simp [Expr.copieds as]
    omega
  | .var _ _ e, n => by
    simp [Expr.copied? e]
    omega
  | .const _ _ e, n => by
    simp [e.copied]
    omega
theorem Decl.copieds : (ds : List Decl) →
    Copied (Decl.allWorded .plain) Decl.allVisits ds (Decl.copies ds)
  | [], _ => ⟨rfl, rfl, rfl⟩
  | d :: ds, n => by
    simp [d.copied, Decl.copieds ds]
    omega
end

end

/-- What a copy `a'` shares with `a`, and what it does not: it is the same up to identities and
reads the same, and each of its nodes has an identity that no node had before. The supply has gone
from `n` to `n'`. -/
structure IsCopy {α δ : Type} (plain : α → α) (text : α → δ) (nodes : α → List Visit) (a a' : α)
    (n n' : Nat) : Prop where
  plain : plain a' = plain a
  text : text a' = text a
  length : (nodeIds (nodes a')).length = (nodeIds (nodes a)).length
  nodup : (nodeIds (nodes a')).Nodup
  apart : ∀ vs, (∀ i ∈ nodeIds vs, i.val < n) → ∀ i ∈ nodeIds (nodes a'), i ∉ nodeIds vs
  passed : ∀ i ∈ nodeIds (nodes a'), i.val < n'

theorem mem_issued {n k : Nat} {i : NodeId} : i ∈ issued n k ↔ n ≤ i.val ∧ i.val < n + k := by
  rw [issued, List.mem_map, ← List.mem_range'_1]
  exact ⟨fun ⟨_, hm, hi⟩ => hi ▸ hm, fun hi => ⟨i.val, hi, rfl⟩⟩

theorem nodup_issued (n k : Nat) : (issued n k).Nodup :=
  List.pairwise_map.2 (List.Pairwise.imp (fun hne h => hne (congrArg NodeId.val h))
    (List.nodup_range' 1 Nat.one_pos))

theorem Copied.isCopy {α δ : Type} {plain : α → α} {nodes : α → List Visit} {a : α} {x : Supply α}
    {text : α → δ} (h : Copied plain nodes a x) (htext : ∀ a, text (plain a) = text a) (n : Nat) :
    IsCopy plain text nodes a (x n).1 n (x n).2 := by
  obtain ⟨hplain, hids, hnext⟩ := h n
  refine ⟨hplain, ?_, ?_, ?_, fun vs hvs i hi hmem => ?_, fun i hi => ?_⟩
  · rw [← htext, hplain, htext]
  · simp [hids, issued]
  · rw [hids]
    exact nodup_issued _ _
  · rw [hids, mem_issued] at hi
    exact absurd (hvs i hmem) (Nat.not_lt.2 hi.1)
  · rw [hids, mem_issued] at hi
    exact hnext ▸ hi.2

/-- Copies of declarations, blocks, statements and expressions are the copied trees with identities
of their own. -/
theorem copies_are_new (n : Nat) :
    (∀ d : Decl, IsCopy (Decl.worded .plain) Decl.text Decl.visits d (d.copy n).1 n (d.copy n).2) ∧
    (∀ b : Block, IsCopy (Block.worded .plain) Block.lines Block.visits b (b.copy n).1 n
      (b.copy n).2) ∧
    (∀ s : Stmt, IsCopy (Stmt.worded .plain) Stmt.text Stmt.visits s (s.copy n).1 n (s.copy n).2) ∧
    ∀ e : Expr, IsCopy (Expr.worded .plain) Expr.text Expr.visits e (e.copy n).1 n (e.copy n).2 :=
  ⟨fun d => Copied.isCopy d.copied (fun d => congrArg unlines d.lines_worded) n,
    fun b => Copied.isCopy b.copied Block.lines_worded n,
    fun s => Copied.isCopy s.copied (fun s => congrArg unlines (s.lines_worded false)) n,
    fun e => Copied.isCopy e.copied Expr.text_worded n⟩

end MatchAction
