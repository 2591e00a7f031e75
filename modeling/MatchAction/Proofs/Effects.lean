import MatchAction.Proofs.ExitGuard

namespace MatchAction

inductive Effect
  | assign (target value : Term)
  | call (call : Term)
  | create (location : Nat) (type : TypeExpr) (parts : List Term)
  | test (condition : Term)
  | select (selector : Term) (labels : List (Option Term))

mutual
def Term.calls : Term → List Term
  | .lit .. | .bool _ | .loc _ | .unbound => []
  | .member b _ => b.calls
  | .index b i => b.calls ++ i.calls
  | .call c ts as => .call c ts as :: (c.calls ++ Term.allCalls as)
  | .construct _ as => Term.allCalls as
  | .unary _ t => t.calls
  | .binary _ l r => l.calls ++ r.calls
def Term.allCalls : List Term → List Term
  | [] => []
  | t :: ts => t.calls ++ Term.allCalls ts
end

namespace Effect

variable {S : Type}

def terms : Effect → List Term
  | .assign l r => [l, r]
  | .call t => [t]
  | .create _ _ ts => ts
  | .test t => [t]
  | .select t _ => [t]

def calls (e : Effect) : List Term := Term.allCalls e.terms

def run (I : Ops S) : Effect → S → S
  | .assign l r, st => I.assign l r st
  | .call t, st => I.call t st
  | .create k ty ts, st => I.create k ty ts st
  | .test t, st => (I.test t st).2
  | .select t ls, st => (I.select t ls st).2

def runs (I : Ops S) (es : List Effect) (st : S) : S := es.foldl (fun st e => e.run I st) st

@[simp] theorem runs_nil (I : Ops S) (st : S) : runs I [] st = st := rfl

@[simp] theorem runs_cons (I : Ops S) (e : Effect) (es : List Effect) (st : S) :
    runs I (e :: es) st = runs I es (e.run I st) := rfl

end Effect

section

variable {S T : Type}

def Ops.recorded (I : Ops S) : Ops (S × List Effect) where
  assign l r st := (I.assign l r st.1, st.2 ++ [.assign l r])
  call t st := (I.call t st.1, st.2 ++ [.call t])
  create k ty ts st := (I.create k ty ts st.1, st.2 ++ [.create k ty ts])
  test t st := ((I.test t st.1).1, (I.test t st.1).2, st.2 ++ [.test t])
  select t ls st := ((I.select t ls st.1).1, (I.select t ls st.1).2, st.2 ++ [.select t ls])

theorem Effect.runs_recorded (I : Ops S) (es : List Effect) (st : S × List Effect) :
    runs I.recorded es st = (runs I es st.1, st.2 ++ es) := by
  induction es generalizing st with
  | nil => simp
  | cons e es ih =>
    rw [runs_cons, runs_cons, ih]
    cases e <;> simp [run, Ops.recorded]

def Config.map (f : S → T) (m : Config S) : Config T := ⟨m.env, m.next, f m.state⟩

structure Ops.Maps (I : Ops S) (J : Ops T) (f : S → T) : Prop where
  assign : ∀ l r st, J.assign l r (f st) = f (I.assign l r st)
  call : ∀ t st, J.call t (f st) = f (I.call t st)
  create : ∀ k ty ts st, J.create k ty ts (f st) = f (I.create k ty ts st)
  test : ∀ t st, J.test t (f st) = ((I.test t st).1, f (I.test t st).2)
  select : ∀ t ls st, J.select t ls (f st) = ((I.select t ls st).1, f (I.select t ls st).2)

theorem Ops.maps_fst (I : Ops S) : I.recorded.Maps I Prod.fst where
  assign _ _ _ := rfl
  call _ _ := rfl
  create _ _ _ _ := rfl
  test _ _ := rfl
  select _ _ _ := rfl

theorem Ops.maps_append (I : Ops S) (es : List Effect) :
    I.recorded.Maps I.recorded fun st => (st.1, es ++ st.2) where
  assign _ _ _ := by simp [recorded]
  call _ _ := by simp [recorded]
  create _ _ _ _ := by simp [recorded]
  test _ _ := by simp [recorded]
  select _ _ _ := by simp [recorded]

variable {I : Ops S} {J : Ops T} {f : S → T}

abbrev Completion.map (f : S → T) : Completion × Config S → Completion × Config T :=
  Prod.map id (Config.map f)

namespace Ops.Maps

variable (h : I.Maps J f)
include h

theorem machine_call (e : Expr) (m : Config S) : (J.machine fun _ => none).call e (m.map f) =
    (((I.machine fun _ => none).call e m).1, ((I.machine fun _ => none).call e m).2.map f) := by
  rw [J.call_of_not_applied fun _ _ => rfl, I.call_of_not_applied fun _ _ => rfl]
  simp only [Config.map, h.call]

theorem machine_test (e : Expr) (m : Config S) : (J.machine fun _ => none).test e (m.map f) =
    (((I.machine fun _ => none).test e m).1, ((I.machine fun _ => none).test e m).2.map f) := by
  simp only [Ops.machine_test, Config.map, h.test]

theorem machine_select (e : Expr) (ls : List Label) (m : Config S) :
    (J.machine fun _ => none).select e ls (m.map f) =
      (((I.machine fun _ => none).select e ls m).1,
        ((I.machine fun _ => none).select e ls m).2.map f) := by
  simp only [Ops.machine_select, Config.map, h.select]

theorem declare (d : Decl) (m : Config S) : (m.map f).declare J d = (m.declare I d).map f := by
  simp only [Config.declare, Config.map, Config.bind]
  cases d.created m.env with
  | none => rfl
  | some v => simp only [Option.elim_some, h.create]

theorem machine : (I.machine fun _ => none).MapsAll (J.machine fun _ => none)
    (Config.map f) as where
  leave _ _ := rfl
  atoms a _ := by
    cases a with
    | assign l r =>
      intro m
      simp only [Ops.machine_assign, Config.map, h.assign]
    | call e | value e => exact h.machine_call e
    | declare d => exact h.declare d
    | test c => exact h.machine_test c
    | select e ls => exact h.machine_select e ls

end Ops.Maps

def Stmt.effects (I : Ops S) (ss : List Stmt) (m : Config S) : List Effect :=
  (Stmt.execs (I.recorded.machine fun _ => none) ss (m.map (·, []))).2.state.2

theorem Stmt.execs_recorded (I : Ops S) (ss : List Stmt) (m : Config S) (es : List Effect) :
    Stmt.execs (I.recorded.machine fun _ => none) ss (m.map (·, es)) =
      Completion.map (·, es ++ Stmt.effects I ss m)
        (Stmt.execs (I.machine fun _ => none) ss m) := by
  have hfst := Stmt.execs_map ss I.maps_fst.machine (m.map (·, []))
  have happend := Stmt.execs_map ss (I.maps_append es).machine (m.map (·, []))
  simp only [Config.map, List.append_nil] at hfst happend ⊢
  rw [happend, hfst]
  rfl

def Stmt.Does (ss : List Stmt) (ρ : Env) (n : Nat) (es : List Effect) (ρ' : Env) (n' : Nat) :
    Prop :=
  ∀ (S : Type) (I : Ops S) (st : S), Stmt.execs (I.machine fun _ => none) ss ⟨ρ, n, st⟩ =
    (.normal, ⟨ρ', n', Effect.runs I es st⟩)

end

def Expr.isConstant : Expr → Bool
  | .lit .. | .bool .. => true
  | .unary _ _ e => e.isConstant
  | .binary _ _ l r => l.isConstant && r.isConstant
  | _ => false

/-- A variable, or a part of one that is told by fields and constant indices. What `next` and `last`
are depends on the stack. -/
def Expr.isFixed : Expr → Bool
  | .path .. => true
  | .member _ b n => b.isFixed && n != "next" && n != "last"
  | .index _ b i => b.isFixed && i.isConstant
  | _ => false

def Env.Located (ρ : Env) (n : String) : Prop := ∃ k, ρ n = some (.loc k)

structure Expr.Steady (ρ : Env) (e : Expr) : Prop where
  fixed : e.isFixed = true
  located : ∀ t n, .path t n ∈ e.walk → ρ.Located n

/-- Which variable, or part of one, a term denotes in a state. -/
structure Denotation (S L V : Type) where
  root : Nat → L
  field : L → String → L
  element : L → V → L
  other : S → Term → L
  value : S → Term → V
  value_constant : ∀ {e : Expr}, e.isConstant = true → ∀ ρ st st',
    value st (e.term ρ) = value st' (e.term ρ)

def Denotation.locate {S L V : Type} (D : Denotation S L V) (st : S) : Term → L
  | .loc k => D.root k
  | .member b n =>
    if n = "next" ∨ n = "last" then D.other st (.member b n) else D.field (D.locate st b) n
  | .index b i => D.element (D.locate st b) (D.value st i)
  | t => D.other st t

namespace Expr

variable {ρ : Env}

theorem calls_of_isConstant : (e : Expr) → e.isConstant = true → (e.term ρ).calls = []
  | .lit .., _ | .bool .., _ => by simp only [term, Term.calls]
  | .unary _ _ e, h => by
    simp only [term, Term.calls]
    exact calls_of_isConstant e h
  | .binary _ _ l r, h => by
    obtain ⟨hl, hr⟩ := Bool.and_eq_true_iff.1 h
    simp only [term, Term.calls, calls_of_isConstant l hl, calls_of_isConstant r hr,
      List.append_nil]

namespace Steady

variable {t : Tag} {b i : Expr} {n : String}

theorem base_of_member (h : (Expr.member t b n).Steady ρ) :
    b.Steady ρ ∧ ¬ (n = "next" ∨ n = "last") := by
  have hfixed := h.fixed
  simp only [isFixed, Bool.and_eq_true, bne_iff_ne] at hfixed
  exact ⟨⟨hfixed.1.1, fun t' x hx => h.located t' x (.tail _ hx)⟩, not_or.2 ⟨hfixed.1.2, hfixed.2⟩⟩

theorem base_of_index (h : (Expr.index t b i).Steady ρ) : b.Steady ρ ∧ i.isConstant = true := by
  obtain ⟨hb, hi⟩ := Bool.and_eq_true_iff.1 h.fixed
  exact ⟨⟨hb, fun t' x hx => h.located t' x (.tail _ (List.mem_append_left _ hx))⟩, hi⟩

theorem calls_eq_nil : {e : Expr} → e.Steady ρ → (e.term ρ).calls = []
  | .path t n, h => by
    obtain ⟨k, hk⟩ := h.located t n (.head _)
    simp only [term, hk, Option.getD_some, Term.calls]
  | .member .., h => by
    simp only [term, Term.calls]
    exact h.base_of_member.1.calls_eq_nil
  | .index _ _ i, h => by
    obtain ⟨hb, hi⟩ := h.base_of_index
    simp only [term, Term.calls, hb.calls_eq_nil, calls_of_isConstant i hi, List.append_nil]
  | .lit .., h | .bool .., h | .call .., h | .construct .., h | .unary .., h | .binary .., h =>
    absurd h.fixed Bool.false_ne_true

theorem locate_eq {S L V : Type} (D : Denotation S L V) (st st' : S) : {e : Expr} → e.Steady ρ →
    D.locate st (e.term ρ) = D.locate st' (e.term ρ)
  | .path t n, h => by
    obtain ⟨k, hk⟩ := h.located t n (.head _)
    simp only [term, hk, Option.getD_some, Denotation.locate]
  | .member .., h => by
    obtain ⟨hb, hn⟩ := h.base_of_member
    simp only [term, Denotation.locate, if_neg hn, hb.locate_eq D st st']
  | .index .., h => by
    obtain ⟨hb, hi⟩ := h.base_of_index
    simp only [term, Denotation.locate, hb.locate_eq D st st', D.value_constant hi ρ st st']
  | .lit .., h | .bool .., h | .call .., h | .construct .., h | .unary .., h | .binary .., h =>
    absurd h.fixed Bool.false_ne_true

end Steady

end Expr

end MatchAction
