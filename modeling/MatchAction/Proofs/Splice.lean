import MatchAction.Proofs.ExitGuard
import MatchAction.Proofs.Names
import MatchAction.Proofs.Renaming

namespace MatchAction

open List

/-- `r'` gives everything listed a name of its own that is not used, and is `r` otherwise. -/
structure Renaming.Fresh (ns : Names) (l : List (NodeId × String)) (r r' : Renaming) : Prop where
  replacements : r'.replacements = r.replacements
  old : ∀ i, i ∉ l.map (·.1) → r'.names.get? i = r.names.get? i
  new : ∀ i ∈ l.map (·.1), ∃ n, r'.names.get? i = some n ∧ n ∉ ns.used
  inj : ∀ i ∈ l.map (·.1), ∀ j ∈ l.map (·.1), r'.names.get? i = r'.names.get? j → i = j

theorem renameFresh_cons (base : String → String) (i : NodeId) (n : String)
    (l : List (NodeId × String)) (r : Renaming) (ns : Names) (k : Nat) :
    renameFresh base ((i, n) :: l) r ns k =
      renameFresh base l (r.rename i (ns.pick (base n))) (ns.reserve (ns.pick (base n))) k := rfl

theorem Renaming.get?_names_rename (r : Renaming) (i j : NodeId) (n : String) :
    (r.rename i n).names.get? j = if j = i then some n else r.names.get? j :=
  NodeMap.get?_insert r.names i j n

theorem fresh_renameFresh (base : String → String) (l : List (NodeId × String)) (r : Renaming)
    (ns : Names) (k : Nat) : Renaming.Fresh ns l r (renameFresh base l r ns k).1.1 := by
  induction l generalizing r ns with
  | nil => exact ⟨rfl, fun _ _ => rfl, nofun, nofun⟩
  | cons x l ih =>
    obtain ⟨i, n⟩ := x
    let new := ns.pick (base n)
    have hl := ih (r.rename i new) (ns.reserve new)
    rw [← renameFresh_cons] at hl
    generalize (renameFresh base ((i, n) :: l) r ns k).1.1 = r' at hl
    have hi : i ∉ l.map (·.1) → r'.names.get? i = some new := fun hi => by
      rw [hl.old i hi, Renaming.get?_names_rename, if_pos rfl]
    have hne : ∀ j ∈ l.map (·.1), r'.names.get? j ≠ some new := fun j hj he => by
      obtain ⟨n', hn', hfree⟩ := hl.new j hj
      rw [he] at hn'
      cases hn'
      exact hfree (.head _)
    refine ⟨hl.replacements, fun j hj => ?_, fun j hj => ?_, fun j hj j' hj' he => ?_⟩
    · rw [map_cons, mem_cons, not_or] at hj
      rw [hl.old j hj.2, Renaming.get?_names_rename, if_neg hj.1]
    · by_cases hjl : j ∈ l.map (·.1)
      · obtain ⟨n', hn', hfree⟩ := hl.new j hjl
        exact ⟨n', hn', fun hu => hfree (.tail _ hu)⟩
      · obtain rfl : j = i := (mem_cons.1 hj).resolve_right hjl
        exact ⟨new, hi hjl, ns.pick_not_mem _⟩
    · by_cases hjl : j ∈ l.map (·.1) <;> by_cases hjl' : j' ∈ l.map (·.1)
      · exact hl.inj j hjl j' hjl' he
      · obtain rfl : j' = i := (mem_cons.1 hj').resolve_right hjl'
        exact absurd (he.trans (hi hjl')) (hne j hjl)
      · obtain rfl : j = i := (mem_cons.1 hj).resolve_right hjl
        exact absurd (he.symm.trans (hi hjl)) (hne j' hjl')
      · exact ((mem_cons.1 hj).resolve_right hjl).trans
          ((mem_cons.1 hj').resolve_right hjl').symm

def Renaming.newName (r : Renaming) (x : Referent) : String := (r.names.get? x.id).getD x.name

namespace Renaming.Fresh

variable {ns : Names} {own : List Referent} {r₀ r : Renaming}

theorem newName_of_mem (h : Fresh ns (own.map fun x => (x.id, x.name)) r₀ r) {x : Referent}
    (hx : x ∈ own) : r.names.get? x.id = some (r.newName x) ∧ r.newName x ∉ ns.used := by
  obtain ⟨n, hn, hfree⟩ := h.new x.id (by simpa using ⟨x, hx, rfl⟩)
  have he : r.newName x = n := by rw [newName, hn, Option.getD_some]
  exact ⟨he ▸ hn, he ▸ hfree⟩

theorem id_eq (h : Fresh ns (own.map fun x => (x.id, x.name)) r₀ r) {x y : Referent} (hx : x ∈ own)
    (hy : y ∈ own) (he : r.newName x = r.newName y) : x.id = y.id := by
  refine h.inj x.id (by simpa using ⟨x, hx, rfl⟩) y.id (by simpa using ⟨y, hy, rfl⟩) ?_
  rw [(h.newName_of_mem hx).1, (h.newName_of_mem hy).1, he]

end Renaming.Fresh

theorem Renaming.term_of_not_replaced {r : Renaming} {x : Referent}
    (h : r.replacements.get? x.id = none) (ρ : Env) :
    r.term ρ x = (ρ (r.newName x)).getD .unbound := by
  rw [term, newName, h]
  cases r.names.get? x.id <;> rfl

theorem renamedParams_eq (r : Renaming) (ps : List Param) :
    renamedParams r ps = ps.map fun p => (p, r.newName (.param p)) := rfl

@[simp] theorem map_fst_renamedParams (r : Renaming) (ps : List Param) :
    (renamedParams r ps).map (·.1) = ps := by
  rw [renamedParams_eq, map_map]
  exact map_id' ps

theorem map_snd_renamedParams (r : Renaming) (ps : List Param) :
    (renamedParams r ps).map (·.2) = (ps.map Referent.param).map r.newName := by
  rw [renamedParams_eq, map_map, map_map]
  rfl

section

variable {S : Type}

def Ops.writeBack (I : Ops S) : List Param → List Term → Nat → S → S
  | p :: ps, t :: ts, k, st =>
    I.writeBack ps ts (k + 1) (if p.direction.copiesOut then I.assign t (.loc k) st else st)
  | _, _, _, st => st

def Env.Consecutive (ρ : Env) : List String → Nat → Prop
  | [], _ => True
  | n :: ns, k => ρ n = some (.loc k) ∧ ρ.Consecutive ns (k + 1)

theorem Env.Consecutive.congr {ρ ρ' : Env} {ns : List String} (h : ∀ n ∈ ns, ρ' n = ρ n) {k : Nat}
    (hρ : ρ.Consecutive ns k) : ρ'.Consecutive ns k := by
  induction ns generalizing k with
  | nil => exact trivial
  | cons n ns ih =>
    exact ⟨(h n (.head _)).trans hρ.1, ih (fun n hn => h n (.tail _ hn)) hρ.2⟩

theorem execs_copyOuts (I : Ops S) (insts : String → Option (Applied S))
    (ps : List (Param × String)) (args : List Expr) (n : Nat) {k : Nat} {m : Config S}
    (h : m.env.Consecutive (ps.map (·.2)) k) :
    Stmt.execs (I.machine insts) (copyOuts ps args n).1 m = (.normal,
      { m with state := I.writeBack (ps.map (·.1)) (Expr.terms m.env args) k m.state }) := by
  induction ps generalizing args n k m with
  | nil => rfl
  | cons x ps ih =>
    obtain ⟨p, name⟩ := x
    cases args with
    | nil => rfl
    | cons a args =>
      cases hp : p.direction.copiesOut with
      | false =>
        simp only [copyOuts, hp, Bool.false_eq_true, if_false, map_cons, Expr.terms,
          Ops.writeBack]
        exact ih args n h.2
      | true =>
        simp only [copyOuts, hp, if_true, Supply.bind_apply, Supply.pure_apply, Stmt.execs_cons,
          Stmt.exec, Ops.machine_assign, Completion.normal_andThen, Expr.term_copy, map_cons,
          Expr.terms, Ops.writeBack, Expr.term, h.1, Option.getD_some]
        exact ih args _ (m := { m with state := I.assign (a.term m.env) (.loc k) m.state }) h.2

end

end MatchAction
