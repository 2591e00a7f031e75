import Mathlib.Data.List.Forall2
import MatchAction.Proofs.Execution
import MatchAction.Tree.Copy
import MatchAction.Tree.Walk

/-!
Running programs by name. A declaration takes a new location; a name stands for the location it was
declared at, or for a term it was bound to, until the end of its block. What operations on resolved
terms do to the rest of the state is left open.
-/

namespace MatchAction

open List

inductive Term
  | lit (value : Int) (type : TypeExpr)
  | bool (value : Bool)
  | loc (location : Nat)
  | unbound
  | member (base : Term) (name : String)
  | index (base index : Term)
  | call (callee : Term) (typeArgs : List TypeExpr) (args : List Term)
  | construct (type : TypeExpr) (args : List Term)
  | unary (op : UnaryOp) (operand : Term)
  | binary (op : BinaryOp) (left right : Term)

abbrev Env := String → Option Term

namespace Env

def set (ρ : Env) (n : String) (t : Term) : Env := fun x => if x = n then some t else ρ x

@[simp] theorem set_self (ρ : Env) (n : String) (t : Term) : ρ.set n t n = some t := if_pos rfl

theorem set_of_ne (ρ : Env) (h : x ≠ n) (t : Term) : ρ.set n t x = ρ x := if_neg h

end Env

mutual
def Expr.term (ρ : Env) : Expr → Term
  | .lit _ v ty => .lit v ty
  | .bool _ b => .bool b
  | .path _ n => (ρ n).getD .unbound
  | .member _ b n => .member (b.term ρ) n
  | .index _ b i => .index (b.term ρ) (i.term ρ)
  | .call _ c ts as => .call (c.term ρ) ts (Expr.terms ρ as)
  | .construct _ ty as => .construct ty (Expr.terms ρ as)
  | .unary _ op e => .unary op (e.term ρ)
  | .binary _ op l r => .binary op (l.term ρ) (r.term ρ)
def Expr.terms (ρ : Env) : List Expr → List Term
  | [] => []
  | e :: es => e.term ρ :: Expr.terms ρ es
end

@[simp] theorem Expr.length_terms (ρ : Env) (es : List Expr) :
    (Expr.terms ρ es).length = es.length := by
  induction es with
  | nil => rfl
  | cons e es ih => simp [Expr.terms, ih]

def Label.term (ρ : Env) : Label → Option Term
  | .name n => some ((ρ n).getD .unbound)
  | .default => none

structure Config (S : Type) where
  env : Env
  next : Nat
  state : S

structure Ops (S : Type) where
  assign : Term → Term → S → S
  call : Term → S → S
  create : Nat → TypeExpr → List Term → S → S
  test : Term → S → Bool × S
  select : Term → List (Option Term) → S → Option Nat × S

/-- What applying an instance does, given the arguments: whether it leaves by `exit`, the next free
location and the state. -/
abbrev Applied (S : Type) := List Term → Nat → S → Bool × Nat × S

def Expr.application? (ρ : Env) : Expr → Option (String × List Term)
  | .call _ (.member _ (.path _ c) n) _ as =>
    if n = "apply" then some (c, Expr.terms ρ as) else none
  | _ => none

def Decl.created (ρ : Env) : Decl → Option (TypeExpr × List Term)
  | .var _ ty e => some (ty, Expr.terms ρ e.toList)
  | .const _ ty e => some (ty, [e.term ρ])
  | .inst _ ty as => some (ty, Expr.terms ρ as)
  | _ => none

namespace Config

variable {S : Type}

def bind (m : Config S) (n : String) : Config S :=
  { m with env := m.env.set n (.loc m.next), next := m.next + 1 }

def declare (I : Ops S) (m : Config S) (d : Decl) : Config S :=
  { m.bind d.name with
    state := (d.created m.env).elim m.state fun v => I.create m.next v.1 v.2 m.state }

theorem declare_congr (I : Ops S) {m : Config S} {d d' : Decl} (hn : d'.name = d.name)
    (hc : d'.created m.env = d.created m.env) : m.declare I d' = m.declare I d := by
  rw [declare, declare, hn, hc]

end Config

namespace Ops

variable {S : Type}

/-- Applications of the given instances run as they say; all other calls complete normally. -/
def machine (I : Ops S) (insts : String → Option (Applied S)) : Machine (Config S) where
  assign l r m := { m with state := I.assign (l.term m.env) (r.term m.env) m.state }
  call e m :=
    match (e.application? m.env).bind fun a => (insts a.1).map fun f => f a.2 with
    | some f =>
      let r := f m.next m.state
      (r.1, { m with next := r.2.1, state := r.2.2 })
    | none => (false, { m with state := I.call (e.term m.env) m.state })
  declare d m := m.declare I d
  test c m :=
    let r := I.test (c.term m.env) m.state
    (r.1, { m with state := r.2 })
  select e ls m :=
    let r := I.select (e.term m.env) (ls.map (·.term m.env)) m.state
    (r.1, { m with state := r.2 })
  leave m m' := { m' with env := m.env }

end Ops

mutual
theorem Expr.term_congr : (e : Expr) → (∀ t n, .path t n ∈ e.walk → ρ' n = ρ n) →
    e.term ρ' = e.term ρ
  | .lit .., _ | .bool .., _ => rfl
  | .path t n, h => by rw [Expr.term, Expr.term, h t n (.head _)]
  | .member _ b _, h => by
    rw [Expr.term, Expr.term, Expr.term_congr b fun t n hn => h t n (by simp [Expr.walk, hn])]
  | .index _ b i, h => by
    rw [Expr.term, Expr.term, Expr.term_congr b fun t n hn => h t n (by simp [Expr.walk, hn]),
      Expr.term_congr i fun t n hn => h t n (by simp [Expr.walk, hn])]
  | .call _ c _ as, h => by
    rw [Expr.term, Expr.term, Expr.term_congr c fun t n hn => h t n (by simp [Expr.walk, hn]),
      Expr.terms_congr as fun t n hn => h t n (by simp [Expr.walk, hn])]
  | .construct _ _ as, h => by
    rw [Expr.term, Expr.term, Expr.terms_congr as fun t n hn => h t n (by simp [Expr.walk, hn])]
  | .unary _ _ e, h => by
    rw [Expr.term, Expr.term, Expr.term_congr e fun t n hn => h t n (by simp [Expr.walk, hn])]
  | .binary _ _ l r, h => by
    rw [Expr.term, Expr.term, Expr.term_congr l fun t n hn => h t n (by simp [Expr.walk, hn]),
      Expr.term_congr r fun t n hn => h t n (by simp [Expr.walk, hn])]
theorem Expr.terms_congr : (es : List Expr) →
    (∀ t n, .path t n ∈ Expr.walks es → ρ' n = ρ n) → Expr.terms ρ' es = Expr.terms ρ es
  | [], _ => rfl
  | e :: es, h => by
    rw [Expr.terms, Expr.terms, Expr.term_congr e fun t n hn => h t n (by simp [Expr.walks, hn]),
      Expr.terms_congr es fun t n hn => h t n (by simp [Expr.walks, hn])]
end

mutual
theorem Expr.term_copy (ρ : Env) : (e : Expr) → ∀ n, (e.copy n).1.term ρ = e.term ρ
  | .lit .., _ | .bool .., _ | .path .., _ => rfl
  | .member _ b _, n => by simp [Expr.copy, Expr.term, Expr.term_copy ρ b]
  | .index _ b i, n => by simp [Expr.copy, Expr.term, Expr.term_copy ρ b, Expr.term_copy ρ i]
  | .call _ c _ as, n => by simp [Expr.copy, Expr.term, Expr.term_copy ρ c, Expr.terms_copies ρ as]
  | .construct _ _ as, n => by simp [Expr.copy, Expr.term, Expr.terms_copies ρ as]
  | .unary _ _ e, n => by simp [Expr.copy, Expr.term, Expr.term_copy ρ e]
  | .binary _ _ l r, n => by simp [Expr.copy, Expr.term, Expr.term_copy ρ l, Expr.term_copy ρ r]
theorem Expr.terms_copies (ρ : Env) : (es : List Expr) → ∀ n,
    Expr.terms ρ (Expr.copies es n).1 = Expr.terms ρ es
  | [], _ => rfl
  | e :: es, n => by simp [Expr.copies, Expr.terms, Expr.term_copy ρ e, Expr.terms_copies ρ es]
end

theorem Expr.terms_toList_copy? (ρ : Env) (e : Option Expr) (n : Nat) :
    Expr.terms ρ (Expr.copy? e n).1.toList = Expr.terms ρ e.toList := by
  cases e with
  | none => rfl
  | some e => simp [Expr.copy?, Expr.terms, Expr.term_copy]

theorem Expr.application?_copy (ρ : Env) (e : Expr) (n : Nat) :
    (e.copy n).1.application? ρ = e.application? ρ := by
  cases e with
  | call t c ts as =>
    cases c with
    | member t' b m =>
      cases b with
      | path t'' x => simp [Expr.copy, Expr.application?, Expr.terms_copies]
      | _ => rfl
    | _ => rfl
  | _ => rfl

section

variable {S : Type} (I : Ops S) (insts : String → Option (Applied S))

@[simp] theorem Ops.machine_assign (l r : Expr) (m : Config S) : (I.machine insts).assign l r m =
    { m with state := I.assign (l.term m.env) (r.term m.env) m.state } := rfl

@[simp] theorem Ops.machine_declare (d : Decl) (m : Config S) :
    (I.machine insts).declare d m = m.declare I d := rfl

@[simp] theorem Ops.machine_test (c : Expr) (m : Config S) : (I.machine insts).test c m =
    ((I.test (c.term m.env) m.state).1, { m with state := (I.test (c.term m.env) m.state).2 }) :=
      rfl

@[simp] theorem Ops.machine_select (e : Expr) (ls : List Label) (m : Config S) :
    (I.machine insts).select e ls m =
      ((I.select (e.term m.env) (ls.map (·.term m.env)) m.state).1,
        { m with state := (I.select (e.term m.env) (ls.map (·.term m.env)) m.state).2 }) := rfl

@[simp] theorem Ops.machine_leave (m m' : Config S) :
    (I.machine insts).leave m m' = { m' with env := m.env } := rfl

variable {insts} in
theorem Ops.call_of_not_applied
    (he : ∀ a, e.application? m.env = some a → insts a.1 = none) :
    (I.machine insts).call e m = (false, { m with state := I.call (e.term m.env) m.state }) := by
  have hnone : (e.application? m.env).bind (fun a => (insts a.1).map fun f => f a.2) = none := by
    rw [Option.bind_eq_none_iff]
    intro a ha
    rw [he a ha, Option.map_none]
  simp only [Ops.machine, hnone]

theorem Ops.env_call (e : Expr) (m : Config S) : ((I.machine insts).call e m).2.env = m.env := by
  simp only [Ops.machine]
  split <;> rfl

theorem Ops.call_copy (e : Expr) (n : Nat) (m : Config S) :
    (I.machine insts).call (e.copy n).1 m = (I.machine insts).call e m := by
  simp only [Ops.machine, Expr.application?_copy, Expr.term_copy]

theorem Config.declare_copy (d : Decl) (n : Nat) (m : Config S) :
    m.declare I (d.copy n).1 = m.declare I d := by
  refine Config.declare_congr I ?_ ?_
  · cases d <;> rfl
  · cases d with
    | var h ty e => simp [Decl.copy, Decl.created, Expr.terms_toList_copy?]
    | const h ty e => simp [Decl.copy, Decl.created, Expr.term_copy]
    | inst h ty as => simp [Decl.copy, Decl.created, Expr.terms_copies]
    | _ => rfl

theorem Case.map_label_copies (cs : List Case) (n : Nat) :
    (Case.copies cs n).1.map Case.label = cs.map Case.label := by
  induction cs generalizing n with
  | nil => rfl
  | cons c cs ih =>
    cases c with
    | run l b => simp [Case.copies, Case.label, ih]
    | fallThrough l => simp [Case.copies, Case.label, ih]

mutual
theorem Stmt.exec_copy : (s : Stmt) → ∀ n m,
    (s.copy n).1.exec (I.machine insts) m = s.exec (I.machine insts) m
  | .block _ b, n, m => Block.exec_copy b _ m
  | .assign _ l r, n, m => by simp [Stmt.copy, Stmt.exec, Expr.term_copy]
  | .call _ e, n, m => by simp [Stmt.copy, Stmt.exec, Ops.call_copy]
  | .ifThen _ c a none, n, m => by
    simp only [Stmt.copy, Supply.bind_apply, Supply.pure_apply, Stmt.exec, Ops.machine_test,
      Expr.term_copy]
    split
    · exact Stmt.exec_copy a _ _
    · rfl
  | .ifThen _ c a (some b), n, m => by
    simp only [Stmt.copy, Supply.bind_apply, Supply.pure_apply, Stmt.exec, Ops.machine_test,
      Expr.term_copy]
    split
    · exact Stmt.exec_copy a _ _
    · exact Stmt.exec_copy b _ _
  | .switch _ e cs, n, m => by
    simp only [Stmt.copy, Supply.bind_apply, Supply.pure_apply, Stmt.exec, Ops.machine_select,
      Expr.term_copy, Case.map_label_copies]
    split
    · exact Case.exec_copies cs _ _ _
    · rfl
  | .decl _ d, n, m => by simp [Stmt.copy, Stmt.exec, Config.declare_copy]
  | .ret _ none, _, _ => rfl
  | .ret _ (some e), n, m => by simp [Stmt.copy, Expr.copy?, Stmt.exec, Ops.call_copy]
  | .exit _, _, _ | .empty _, _, _ => rfl
theorem Block.exec_copy : (b : Block) → ∀ n m,
    (b.copy n).1.exec (I.machine insts) m = b.exec (I.machine insts) m
  | .mk _ ss, n, m => by
    simp only [Block.copy, Supply.bind_apply, Supply.pure_apply, Block.exec, Stmt.execs_copies ss]
theorem Stmt.execs_copies : (ss : List Stmt) → ∀ n m,
    Stmt.execs (I.machine insts) (Stmt.copies ss n).1 m = Stmt.execs (I.machine insts) ss m
  | [], _, _ => rfl
  | s :: ss, n, m => by
    simp only [Stmt.copies, Supply.bind_apply, Supply.pure_apply, Stmt.execs, Stmt.exec_copy s,
      Stmt.execs_copies ss]
theorem Case.exec_copies : (cs : List Case) → ∀ n i m,
    Case.exec (I.machine insts) i (Case.copies cs n).1 m = Case.exec (I.machine insts) i cs m
  | [], _, _, _ => rfl
  | .run _ b :: cs, n, 0, m => by
    simpa [Case.copies, Case.exec] using Block.exec_copy b n m
  | .run _ b :: cs, n, i + 1, m => by
    simpa [Case.copies, Case.exec] using Case.exec_copies cs _ i m
  | .fallThrough _ :: cs, n, i, m => by
    simpa [Case.copies, Case.exec] using Case.exec_copies cs _ (i - 1) m
end

theorem Block.execs_copy (b : Block) (n : Nat) (m : Config S) :
    Stmt.execs (I.machine insts) (b.copy n).1.stmts m = Stmt.execs (I.machine insts) b.stmts m := by
  obtain ⟨i, ss⟩ := b
  exact Stmt.execs_copies I insts ss _ m

end

mutual
theorem Stmt.visit_of_declare : (s : Stmt) → .declare d ∈ s.atoms →
    ∃ t, .stmt (.decl t d) ∈ s.visits
  | .block _ b, h => (Block.visit_of_declare b h).imp fun _ ht => .tail _ ht
  | .ifThen _ _ a none, h => (Stmt.visit_of_declare a (by simpa [Stmt.atoms] using h)).imp
      fun t ht => by simp [Stmt.visits, ht]
  | .ifThen _ _ a (some b), h => by
    simp only [Stmt.atoms, mem_cons, reduceCtorEq, mem_append, false_or] at h
    rcases h with h | h
    · exact (Stmt.visit_of_declare a h).imp fun t ht => by simp [Stmt.visits, ht]
    · exact (Stmt.visit_of_declare b h).imp fun t ht => by simp [Stmt.visits, ht]
  | .switch _ _ cs, h => (Case.visit_of_declare cs (by simpa [Stmt.atoms] using h)).imp
      fun t ht => by simp [Stmt.visits, ht]
  | .decl t d', h => by
    simp only [Stmt.atoms, mem_singleton, Atom.declare.injEq] at h
    exact ⟨t, by simp [Stmt.visits, h]⟩
  | .assign .., h | .call .., h | .ret _ none, h | .ret _ (some _), h | .exit _, h | .empty _, h =>
    by simp [Stmt.atoms] at h
theorem Block.visit_of_declare : (b : Block) → .declare d ∈ b.atoms →
    ∃ t, .stmt (.decl t d) ∈ b.visits
  | .mk _ ss, h => (Stmt.allVisit_of_declare ss h).imp fun _ ht => .tail _ ht
theorem Stmt.allVisit_of_declare : (ss : List Stmt) → .declare d ∈ Stmt.allAtoms ss →
    ∃ t, .stmt (.decl t d) ∈ Stmt.allVisits ss
  | s :: ss, h => by
    rcases mem_append.1 h with h | h
    · exact (Stmt.visit_of_declare s h).imp fun _ ht => mem_append_left _ ht
    · exact (Stmt.allVisit_of_declare ss h).imp fun _ ht => mem_append_right _ ht
theorem Case.visit_of_declare : (cs : List Case) → .declare d ∈ Case.atoms cs →
    ∃ t, .stmt (.decl t d) ∈ Case.visits cs
  | .run _ b :: cs, h => by
    rcases mem_append.1 h with h | h
    · exact (Block.visit_of_declare b h).imp fun _ ht => mem_append_left _ ht
    · exact (Case.visit_of_declare cs h).imp fun _ ht => mem_append_right _ ht
  | .fallThrough _ :: cs, h => Case.visit_of_declare cs h
end

theorem Atom.forall_of_forall₂ {R : Atom → Atom → Prop} {P Q : Atom → Prop} {as as' : List Atom}
    (h : List.Forall₂ R as as') (hP : ∀ a ∈ as, P a) (hR : ∀ {a a'}, P a → R a a' → Q a') :
    ∀ a ∈ as', Q a := by
  induction h with
  | nil => exact fun _ ha => absurd ha not_mem_nil
  | cons hab _ ih =>
    exact forall_mem_cons.2 ⟨hR (hP _ (.head _)) hab, ih fun a ha => hP a (.tail _ ha)⟩

inductive Atom.Copied : Atom → Atom → Prop
  | assign (l r l' r' : Expr) : Copied (.assign l r) (.assign l' r')
  | call (e : Expr) (n : Nat) : Copied (.call e) (.call (e.copy n).1)
  | declare (d : Decl) (n : Nat) : Copied (.declare d) (.declare (d.copy n).1)
  | test (e e' : Expr) : Copied (.test e) (.test e')
  | select (e e' : Expr) (ls : List Label) : Copied (.select e ls) (.select e' ls)
  | value (e : Expr) (n : Nat) : Copied (.value e) (.value (e.copy n).1)

mutual
theorem Stmt.atoms_copy : (s : Stmt) → ∀ n, List.Forall₂ Atom.Copied s.atoms (s.copy n).1.atoms
  | .block _ b, _ => Block.atoms_copy b _
  | .assign .., _ => .cons (.assign ..) .nil
  | .call _ e, _ => .cons (.call e _) .nil
  | .ifThen _ _ a none, _ => .cons (.test ..) (Stmt.atoms_copy a _)
  | .ifThen _ _ a (some b), _ =>
    .cons (.test ..) (rel_append (Stmt.atoms_copy a _) (Stmt.atoms_copy b _))
  | .switch _ e cs, n => by
    simp only [Stmt.copy, Supply.bind_apply, Supply.pure_apply, Stmt.atoms, Case.map_label_copies]
    exact .cons (.select ..) (Case.atoms_copies cs _)
  | .decl _ d, _ => .cons (.declare d _) .nil
  | .ret _ none, _ => .nil
  | .ret _ (some e), _ => .cons (.value e _) .nil
  | .exit _, _ | .empty _, _ => .nil
theorem Block.atoms_copy : (b : Block) → ∀ n, List.Forall₂ Atom.Copied b.atoms (b.copy n).1.atoms
  | .mk _ ss, _ => Stmt.atoms_copies ss _
theorem Stmt.atoms_copies : (ss : List Stmt) → ∀ n,
    List.Forall₂ Atom.Copied (Stmt.allAtoms ss) (Stmt.allAtoms (Stmt.copies ss n).1)
  | [], _ => .nil
  | s :: ss, _ => rel_append (Stmt.atoms_copy s _) (Stmt.atoms_copies ss _)
theorem Case.atoms_copies : (cs : List Case) → ∀ n,
    List.Forall₂ Atom.Copied (Case.atoms cs) (Case.atoms (Case.copies cs n).1)
  | [], _ => .nil
  | .run _ b :: cs, _ => rel_append (Block.atoms_copy b _) (Case.atoms_copies cs _)
  | .fallThrough _ :: cs, _ => Case.atoms_copies cs _
end

end MatchAction
