import MatchAction.Proofs.Classification
import MatchAction.Proofs.Correspondence

namespace MatchAction

open List

namespace Bindings

/-- Bindings for what `a` and then `b` do: those of `a`, with `b` substituted in them, and those of
`b` for the names that `a` does not bind. -/
def andThen (a b : Bindings) : Bindings :=
  a.map (fun x => (x.1, x.2.subst b)) ++ b.filter (!a.binds ·.1)

theorem get?_filter_of_not_binds (a b : Bindings) {n : String} (h : a.binds n = false) :
    get? (b.filter (!a.binds ·.1)) n = b.get? n := by
  induction b with
  | nil => rfl
  | cons x b ih =>
    obtain ⟨m, t⟩ := x
    by_cases hm : n = m
    · subst hm
      simp [get?, h]
    · have hne : (n == m) = false := beq_eq_false_iff_ne.2 hm
      cases hb : a.binds m <;> simpa [get?, hb, lookup_cons, hne] using ih

theorem get?_andThen (a b : Bindings) (n : String) :
    (a.andThen b).get? n = ((a.get? n).map (·.subst b)).or (b.get? n) := by
  rw [andThen, get?, lookup_append, lookup_map_snd]
  cases h : a.get? n with
  | some t =>
    rw [get?] at h
    rw [h]
    rfl
  | none =>
    rw [get?] at h
    rw [h]
    exact get?_filter_of_not_binds a b (by rw [binds, get?, h]; rfl)

theorem binds_andThen (a b : Bindings) (n : String) :
    (a.andThen b).binds n = (a.binds n || b.binds n) := by
  rw [binds, get?_andThen, Option.isSome_or, Option.isSome_map]
  rfl

end Bindings

section

variable (a b : Bindings)

mutual
theorem Ty.subst_subst : (t : Ty) → (t.subst a).subst b = t.subst (a.andThen b)
  | .param n => by
    rw [Ty.subst, Ty.subst, Bindings.get?_andThen]
    cases a.get? n <;> rfl
  | .decl d as => congrArg (Ty.decl d) (Ty.substs_substs as)
  | .stack e n => congrArg (Ty.stack · n) (Ty.subst_subst e)
  | .method s => congrArg Ty.method (Signature.subst_subst s)
  | .bool | .bits .. | .int | .void | .table _ | .applyResult _ | .actionEnum _ | .error => rfl
theorem Ty.substs_substs : (ts : List Ty) →
    Ty.substs b (Ty.substs a ts) = Ty.substs (a.andThen b) ts
  | [] => rfl
  | t :: ts => by simp only [Ty.substs, Ty.subst_subst t, Ty.substs_substs ts]
theorem Signature.subst_subst : (s : Signature) → (s.subst a).subst b = s.subst (a.andThen b)
  | .mk tps ps r => by
    have hleft : (tps.filter (!a.binds ·)).filter (!b.binds ·) =
        tps.filter (!(a.andThen b).binds ·) := by
      simp only [filter_filter, Bindings.binds_andThen, Bool.not_or, Bool.and_comm]
    simp only [Signature.subst, hleft, ParamTy.substs_substs ps, Ty.subst_subst r]
theorem ParamTy.substs_substs : (ps : List ParamTy) →
    ParamTy.substs b (ParamTy.substs a ps) = ParamTy.substs (a.andThen b) ps
  | [] => rfl
  | .mk n d t :: ps => by
    simp only [ParamTy.substs, ParamTy.subst, Ty.subst_subst t, ParamTy.substs_substs ps]
end

end

namespace Ty

theorem equivalence : Equivalence fun t u : Ty => t == u where
  refl t := (beq_iff t t).2 rfl
  symm h := (beq_iff _ _).2 ((beq_iff _ _).1 h).symm
  trans h h' := (beq_iff _ _).2 (((beq_iff _ _).1 h).trans ((beq_iff _ _).1 h'))

theorem subst_congr {t u : Ty} (h : t == u) (b : Bindings) : t.subst b == u.subst b := by
  refine (beq_iff _ _).2 ?_
  rw [over_subst, over_subst, (beq_iff t u).1 h]

theorem accepts_comm (t u : Ty) : t.accepts u = u.accepts t := by
  have h : (t == u) = (u == t) := Bool.eq_iff_iff.2 ⟨equivalence.symm, equivalence.symm⟩
  cases t <;> cases u <;> first | rfl | exact h

/-- The laws of substitution, for types and for signatures. -/
theorem substitution_laws (a b : Bindings) :
    (Equivalence fun t u : Ty => t == u) ∧
      (∀ t u : Ty, t == u → t.subst b == u.subst b) ∧
      (∀ t : Ty, (t.subst a).subst b = t.subst (a.andThen b)) ∧
      (∀ s : Signature, (s.subst a).subst b = s.subst (a.andThen b)) ∧
      (∀ n, (a.andThen b).get? n = ((a.get? n).map (·.subst b)).or (b.get? n)) ∧
      (∀ t : Ty, t.subst [] = t) ∧ (∀ s : Signature, s.subst [] = s) ∧
      ∀ t u : Ty, t.accepts u = u.accepts t :=
  ⟨equivalence, fun _ _ h => subst_congr h b, subst_subst a b, Signature.subst_subst a b,
    Bindings.get?_andThen a b, subst_nil, Signature.subst_nil, accepts_comm⟩

end Ty

end MatchAction
