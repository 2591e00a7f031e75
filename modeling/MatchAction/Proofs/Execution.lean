import MatchAction.Tree.Program

namespace MatchAction

inductive Completion
  | normal
  | returned
  | exited
deriving DecidableEq

structure Interp (M : Type) where
  assign : Expr → Expr → M → M
  call : Expr → M → Bool × M
  declare : Decl → M → M
  test : Expr → M → Bool × M
  select : Expr → List Label → M → Option Nat × M

/-- An interpretation, and what the end of a block makes of the states at its start and end. -/
structure Machine (M : Type) extends Interp M where
  leave : M → M → M

def Interp.flat {M : Type} (I : Interp M) : Machine M := { I with leave := fun _ m => m }

@[simp] theorem Interp.toInterp_flat {M : Type} (I : Interp M) : I.flat.toInterp = I := rfl

@[simp] theorem Interp.leave_flat {M : Type} (I : Interp M) (m m' : M) :
    I.flat.leave m m' = m' := rfl

def Completion.andThen {M : Type} (r : Completion × M) (k : M → Completion × M) :
    Completion × M :=
  match r with
  | (.normal, m) => k m
  | (.returned, m) => (.returned, m)
  | (.exited, m) => (.exited, m)

def Completion.ofCall (exits : Bool) : Completion := if exits then .exited else .normal

section

variable {M : Type} (I : Machine M)

mutual
def Stmt.exec : Stmt → M → Completion × M
  | .block _ b, m => b.exec m
  | .assign _ l r, m => (.normal, I.assign l r m)
  | .call _ e, m => (.ofCall (I.call e m).1, (I.call e m).2)
  | .ifThen _ c a none, m =>
    match I.test c m with
    | (true, m) => a.exec m
    | (false, m) => (.normal, m)
  | .ifThen _ c a (some b), m =>
    match I.test c m with
    | (true, m) => a.exec m
    | (false, m) => b.exec m
  | .switch _ e cs, m =>
    match I.select e (cs.map Case.label) m with
    | (some i, m) => Case.exec i cs m
    | (none, m) => (.normal, m)
  | .decl _ d, m => (.normal, I.declare d m)
  | .ret _ none, m => (.returned, m)
  | .ret _ (some e), m => Completion.andThen (.ofCall (I.call e m).1, (I.call e m).2) fun m =>
    (.returned, m)
  | .exit _, m => (.exited, m)
  | .empty _, m => (.normal, m)
def Block.exec : Block → M → Completion × M
  | .mk _ ss, m => ((Stmt.execs ss m).1, I.leave m (Stmt.execs ss m).2)
def Stmt.execs : List Stmt → M → Completion × M
  | [], m => (.normal, m)
  | s :: ss, m => Completion.andThen (s.exec m) fun m => Stmt.execs ss m
def Case.exec : Nat → List Case → M → Completion × M
  | _, [], m => (.normal, m)
  | 0, .run _ b :: _, m => b.exec m
  | i + 1, .run _ _ :: cs, m => Case.exec i cs m
  | i, .fallThrough _ :: cs, m => Case.exec (i - 1) cs m
end

end

namespace Completion

variable {M : Type}

@[simp] theorem normal_andThen (m : M) (k : M → Completion × M) :
    andThen (.normal, m) k = k m := rfl

@[simp] theorem exited_andThen (m : M) (k : M → Completion × M) :
    andThen (.exited, m) k = (.exited, m) := rfl

theorem andThen_assoc (r : Completion × M) (k l : M → Completion × M) :
    andThen (andThen r k) l = andThen r fun m => andThen (k m) l := by
  obtain ⟨c, m⟩ := r
  cases c <;> rfl

theorem map_andThen {N : Type} {f : M → N} (r : Completion × M) {k : M → Completion × M}
    {k' : N → Completion × N} (h : ∀ m, k' (f m) = (k m).map id f) :
    andThen (r.map id f) k' = (andThen r k).map id f := by
  obtain ⟨c, m⟩ := r
  cases c with
  | normal => exact h m
  | returned | exited => rfl

end Completion

section

variable {M : Type} (I : Machine M)

theorem Stmt.execs_cons (s : Stmt) (ss : List Stmt) (m : M) :
    Stmt.execs I (s :: ss) m = Completion.andThen (s.exec I m) (Stmt.execs I ss) := rfl

theorem Stmt.execs_append (as bs : List Stmt) (m : M) :
    Stmt.execs I (as ++ bs) m = Completion.andThen (Stmt.execs I as m) fun m =>
      Stmt.execs I bs m := by
  induction as generalizing m with
  | nil => rfl
  | cons a as ih =>
    simp only [List.cons_append, Stmt.execs, Completion.andThen_assoc]
    congr 1
    funext m
    exact ih m

theorem Stmt.execs_singleton (s : Stmt) (m : M) : Stmt.execs I [s] m = s.exec I m := by
  simp only [Stmt.execs]
  generalize s.exec I m = r
  obtain ⟨c, m⟩ := r
  cases c <;> rfl

end

mutual
theorem Stmt.exec_ne_returned {M : Type} (I : Machine M) : (s : Stmt) → s.hasReturn = false →
    ∀ m, (s.exec I m).1 ≠ .returned
  | .block _ b, h, m => Block.exec_ne_returned I b h m
  | .assign .., _, _ => by simp [Stmt.exec]
  | .call _ e, _, m => by
    simp only [Stmt.exec]
    cases (I.call e m).1 <;> simp [Completion.ofCall]
  | .ifThen _ c a none, h, m => by
    simp only [Stmt.exec]
    split
    · exact Stmt.exec_ne_returned I a h _
    · simp
  | .ifThen _ c a (some b), h, m => by
    simp only [Stmt.hasReturn, Bool.or_eq_false_iff] at h
    simp only [Stmt.exec]
    split
    · exact Stmt.exec_ne_returned I a h.1 _
    · exact Stmt.exec_ne_returned I b h.2 _
  | .switch _ e cs, h, m => by
    simp only [Stmt.exec]
    split
    · exact Case.exec_ne_returned I cs h _ _
    · simp
  | .decl .., _, _ | .exit _, _, _ | .empty _, _, _ => by simp [Stmt.exec]
theorem Block.exec_ne_returned {M : Type} (I : Machine M) : (b : Block) → b.hasReturn = false →
    ∀ m, (b.exec I m).1 ≠ .returned
  | .mk _ ss, h, m => Stmt.execs_ne_returned I ss h m
theorem Stmt.execs_ne_returned {M : Type} (I : Machine M) : (ss : List Stmt) →
    Stmt.anyReturn ss = false → ∀ m, (Stmt.execs I ss m).1 ≠ .returned
  | [], _, _ => by simp [Stmt.execs]
  | s :: ss, h, m => by
    simp only [Stmt.anyReturn, Bool.or_eq_false_iff] at h
    have hs := Stmt.exec_ne_returned I s h.1 m
    simp only [Stmt.execs]
    generalize s.exec I m = r at hs
    obtain ⟨c, m⟩ := r
    cases c with
    | normal => exact Stmt.execs_ne_returned I ss h.2 m
    | returned => exact hs
    | exited => simp
theorem Case.exec_ne_returned {M : Type} (I : Machine M) : (cs : List Case) →
    Case.anyReturn cs = false → ∀ i m, (Case.exec I i cs m).1 ≠ .returned
  | [], _, _, _ => by simp [Case.exec]
  | .run _ b :: cs, h, i, m => by
    simp only [Case.anyReturn, Case.hasReturn, Bool.or_eq_false_iff] at h
    cases i with
    | zero => simpa only [Case.exec] using Block.exec_ne_returned I b h.1 m
    | succ i => simpa only [Case.exec] using Case.exec_ne_returned I cs h.2 i m
  | .fallThrough _ :: cs, h, i, m => by
    simpa only [Case.exec] using
      Case.exec_ne_returned I cs (by simpa [Case.anyReturn, Case.hasReturn] using h) (i - 1) m
end

inductive Atom
  | assign (left right : Expr)
  | call (call : Expr)
  | declare (decl : Decl)
  | test (condition : Expr)
  | select (selector : Expr) (labels : List Label)
  | value (value : Expr)

mutual
def Stmt.atoms : Stmt → List Atom
  | .block _ b => b.atoms
  | .assign _ l r => [.assign l r]
  | .call _ e => [.call e]
  | .ifThen _ c a none => .test c :: a.atoms
  | .ifThen _ c a (some b) => .test c :: (a.atoms ++ b.atoms)
  | .switch _ e cs => .select e (cs.map Case.label) :: Case.atoms cs
  | .decl _ d => [.declare d]
  | .ret _ none => []
  | .ret _ (some e) => [.value e]
  | .exit _ => []
  | .empty _ => []
def Block.atoms : Block → List Atom
  | .mk _ ss => Stmt.allAtoms ss
def Stmt.allAtoms : List Stmt → List Atom
  | [] => []
  | s :: ss => s.atoms ++ Stmt.allAtoms ss
def Case.atoms : List Case → List Atom
  | [] => []
  | .run _ b :: cs => b.atoms ++ Case.atoms cs
  | .fallThrough _ :: cs => Case.atoms cs
end

section

variable {M N : Type} {I : Machine M} {J : Machine N} {f : M → N}

/-- At the atom the second machine does to mapped states what the first one does to states. -/
def Machine.Maps (I : Machine M) (J : Machine N) (f : M → N) : Atom → Prop
  | .assign l r => ∀ m, J.assign l r (f m) = f (I.assign l r m)
  | .call e | .value e => ∀ m, J.call e (f m) = (I.call e m).map id f
  | .declare d => ∀ m, J.declare d (f m) = f (I.declare d m)
  | .test c => ∀ m, J.test c (f m) = (I.test c m).map id f
  | .select e ls => ∀ m, J.select e ls (f m) = (I.select e ls m).map id f

structure Machine.MapsAll (I : Machine M) (J : Machine N) (f : M → N) (as : List Atom) : Prop where
  leave : ∀ m m', J.leave (f m) (f m') = f (I.leave m m')
  atoms : ∀ a ∈ as, I.Maps J f a

theorem Machine.MapsAll.mono (h : I.MapsAll J f as) (hsub : bs ⊆ as) : I.MapsAll J f bs :=
  ⟨h.leave, fun a ha => h.atoms a (hsub ha)⟩

mutual
theorem Stmt.exec_map : (s : Stmt) → I.MapsAll J f s.atoms → ∀ m,
    s.exec J (f m) = (s.exec I m).map id f
  | .block _ b, h, m => Block.exec_map b h m
  | .assign _ l r, h, m => by
    have hl : I.Maps J f (.assign l r) := h.atoms _ (by simp [Stmt.atoms])
    simp only [Stmt.exec, hl m]
    rfl
  | .call _ e, h, m => by
    have he : I.Maps J f (.call e) := h.atoms _ (by simp [Stmt.atoms])
    simp only [Stmt.exec, he m]
    rfl
  | .ifThen _ c a none, h, m => by
    have hc : I.Maps J f (.test c) := h.atoms _ (by simp [Stmt.atoms])
    have ha := Stmt.exec_map a (h.mono (by simp [Stmt.atoms]))
    simp only [Stmt.exec, hc m]
    generalize I.test c m = r
    obtain ⟨v, m⟩ := r
    cases v with
    | true => exact ha m
    | false => rfl
  | .ifThen _ c a (some b), h, m => by
    have hc : I.Maps J f (.test c) := h.atoms _ (by simp [Stmt.atoms])
    have ha := Stmt.exec_map a (h.mono (by simp [Stmt.atoms]))
    have hb := Stmt.exec_map b (h.mono (by simp [Stmt.atoms]))
    simp only [Stmt.exec, hc m]
    generalize I.test c m = r
    obtain ⟨v, m⟩ := r
    cases v with
    | true => exact ha m
    | false => exact hb m
  | .switch _ e cs, h, m => by
    have he : I.Maps J f (.select e (cs.map Case.label)) := h.atoms _ (by simp [Stmt.atoms])
    have hcs := Case.exec_map cs (h.mono (by simp [Stmt.atoms]))
    simp only [Stmt.exec, he m]
    generalize I.select e (cs.map Case.label) m = r
    obtain ⟨i, m⟩ := r
    cases i with
    | none => rfl
    | some i => exact hcs i m
  | .decl _ d, h, m => by
    have hd : I.Maps J f (.declare d) := h.atoms _ (by simp [Stmt.atoms])
    simp only [Stmt.exec, hd m]
    rfl
  | .ret _ none, _, _ => rfl
  | .ret _ (some e), h, m => by
    have he : I.Maps J f (.value e) := h.atoms _ (by simp [Stmt.atoms])
    simp only [Stmt.exec, he m]
    exact Completion.map_andThen (f := f) (.ofCall (I.call e m).1, (I.call e m).2) fun _ => rfl
  | .exit _, _, _ | .empty _, _, _ => rfl
theorem Block.exec_map : (b : Block) → I.MapsAll J f b.atoms → ∀ m,
    b.exec J (f m) = (b.exec I m).map id f
  | .mk _ ss, h, m => by
    simp only [Block.exec, Stmt.execs_map ss h m, Prod.map, h.leave]
theorem Stmt.execs_map : (ss : List Stmt) → I.MapsAll J f (Stmt.allAtoms ss) →
    ∀ m, Stmt.execs J ss (f m) = (Stmt.execs I ss m).map id f
  | [], _, _ => rfl
  | s :: ss, h, m => by
    have hs := Stmt.exec_map s (h.mono (by simp [Stmt.allAtoms]))
    have hss := Stmt.execs_map ss (h.mono (by simp [Stmt.allAtoms]))
    simp only [Stmt.execs, hs m]
    exact Completion.map_andThen _ hss
theorem Case.exec_map : (cs : List Case) → I.MapsAll J f (Case.atoms cs) →
    ∀ i m, Case.exec J i cs (f m) = (Case.exec I i cs m).map id f
  | [], _, _, _ => by simp only [Case.exec]; rfl
  | .run _ b :: _, h, 0, m => by
    simpa only [Case.exec] using Block.exec_map b (h.mono (by simp [Case.atoms])) m
  | .run _ _ :: cs, h, i + 1, m => by
    simpa only [Case.exec] using Case.exec_map cs (h.mono (by simp [Case.atoms])) i m
  | .fallThrough _ :: cs, h, i, m => by
    simpa only [Case.exec] using Case.exec_map cs h (i - 1) m
end

end

end MatchAction
