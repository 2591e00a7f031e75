import MatchAction.Proofs.Equality
import MatchAction.Proofs.Spelling
import MatchAction.Proofs.Substitution

namespace MatchAction

open List

namespace Scopes

/-- The scopes a check can come to: it opens and closes frames, takes type parameters into sight and
out of it, and declares everything under its own name. -/
inductive Reached : Scopes → Prop
  | empty : Reached .empty
  | push (h : Reached sc) : Reached sc.push
  | pop (h : Reached sc) : Reached sc.pop
  | pushTypeParams (h : Reached sc) (tps : List String) : Reached (sc.pushTypeParams tps)
  | popTypeParams (h : Reached sc) : Reached sc.popTypeParams
  | define (h : Reached sc) (r : Referent) : Reached (sc.define r.name r).2

theorem Reached.hold {sc : Scopes} (h : sc.Reached) : sc.Hold (fun _ => True) fun _ => True := by
  induction h with
  | empty => exact ⟨forall_mem_nil _, forall_mem_nil _⟩
  | push _ ih => exact ih.push
  | pop _ ih => exact ih.pop
  | pushTypeParams _ tps ih => exact ih.pushTypeParams tps
  | popTypeParams _ ih => exact ⟨ih.inner, ih.top⟩
  | define _ _ ih => exact ih.define_same trivial

theorem Reached.declares {sc : Scopes} (h : sc.Reached) (ds : List Decl) :
    (sc.declares ds).Reached := by
  induction ds generalizing sc with
  | nil => exact h
  | cons d ds ih => exact ih (h.define (.decl d))

theorem reached_of_place {p : Program} {pl : Place} (h : pl ∈ p.places) : pl.1.Reached := by
  have hstable : Stable (fun _ => True) Reached := ⟨.push, fun h _ => h.pushTypeParams _,
    fun h _ _ => h.define _⟩
  obtain ⟨d, -, hpl⟩ := mem_flatMap.1 h
  exact hstable.decl d (fun _ _ _ _ => trivial) (Reached.empty.declares p.decls) pl hpl

variable {sc : Scopes}

theorem resolveName_cases (hsc : sc.Reached) {n : String} {as : List Ty}
    (h : (sc.resolveName n as).unknown = []) :
    (∀ us, sc.resolveName n us = ⟨.param n, [], []⟩) ∨
      ∃ d : Decl, d.name = n ∧ ∀ us, sc.resolveName n us = ⟨.decl d us, [d.id], []⟩ := by
  by_cases hparam : sc.isTypeParam n
  · exact .inl fun us => by rw [resolveName, if_pos hparam]
  · simp only [resolveName, if_neg hparam] at h ⊢
    split at h
    · rename_i d hl
      split at h
      · rename_i htype
        exact .inr ⟨d, (hsc.hold.lookup hl).1, fun us => if_pos htype⟩
      · cases h
    · cases h

mutual
theorem resolve_again (hsc : sc.Reached) : (t : TypeExpr) → (sc.resolve t).unknown = [] →
    ∃ u, (sc.resolve t).type.toTypeExpr? = some u ∧ (sc.resolve u).unknown = [] ∧
      (sc.resolve u).type = (sc.resolve t).type
  | .bool, _ => ⟨.bool, rfl, rfl, rfl⟩
  | .bits w s, _ => ⟨.bits w s, rfl, rfl, rfl⟩
  | .int, _ => ⟨.int, rfl, rfl, rfl⟩
  | .void, _ => ⟨.void, rfl, rfl, rfl⟩
  | .named n, h => by
    rcases resolveName_cases hsc h with hn | ⟨d, rfl, hn⟩
    · exact ⟨.named n, by simp [resolve, hn, Ty.toTypeExpr?]⟩
    · exact ⟨.named d.name, by simp [resolve, hn, Ty.toTypeExpr?]⟩
  | .specialized n as, h => by
    obtain ⟨has, hname⟩ := append_eq_nil_iff.1 h
    rcases resolveName_cases hsc hname with hn | ⟨d, rfl, hn⟩
    -- The arguments of a type parameter are dropped.
    · exact ⟨.named n, by simp [resolve, hn, Ty.toTypeExpr?]⟩
    · obtain ⟨us, hus, hunknown, hsame⟩ := resolves_again hsc as has
      have htype : (sc.resolve (.specialized d.name as)).type = .decl d (sc.resolves as).1 := by
        simp only [resolve, hn]
      rw [htype]
      cases hts : (sc.resolves as).1 with
      | nil => exact ⟨.named d.name, by simp [resolve, hn, Ty.toTypeExpr?]⟩
      | cons t ts =>
        rw [hts] at hus hsame
        exact ⟨.specialized d.name us, by simp [resolve, hn, Ty.toTypeExpr?, hus, hunknown, hsame]⟩
  | .stack e n, h => by
    obtain ⟨u, hu, hunknown, hsame⟩ := resolve_again hsc e h
    exact ⟨.stack u n, by simp [resolve, Ty.toTypeExpr?, hu, hunknown, hsame]⟩
theorem resolves_again (hsc : sc.Reached) : (ts : List TypeExpr) → (sc.resolves ts).2.2 = [] →
    ∃ us, Ty.toTypeExprs? (sc.resolves ts).1 = some us ∧ (sc.resolves us).2.2 = [] ∧
      (sc.resolves us).1 = (sc.resolves ts).1
  | [], _ => ⟨[], rfl, rfl, rfl⟩
  | t :: ts, h => by
    obtain ⟨ht, hts⟩ := append_eq_nil_iff.1 h
    obtain ⟨u, hu, hunknown, hsame⟩ := resolve_again hsc t ht
    obtain ⟨us, hus, hunknowns, hsames⟩ := resolves_again hsc ts hts
    refine ⟨u :: us, ?_⟩
    simp [resolves, Ty.toTypeExprs?, hu, hus, hunknown, hunknowns, hsame, hsames]
end

end Scopes

namespace Check

theorem errors_resolveType {t : TypeExpr} {span : Option Span} {c : Checker} :
    (resolveType t span c).2.errors = c.errors ↔ (c.scopes.resolve t).unknown = [] :=
  append_right_eq_self.trans map_eq_nil_iff

/-- The scopes at the nodes of programs are among those reached. In a scope that is reached, a type
that is resolved without an error can be written, and in this scope it is resolved again, without an
error and to the same type. -/
theorem resolveType_written :
    (∀ p : Program, ∀ pl ∈ p.places, pl.1.Reached) ∧
      ∀ (t : TypeExpr) (span : Option Span) (c : Checker), c.scopes.Reached →
        (resolveType t span c).2.errors = c.errors →
        ∃ u, (resolveType t span c).1.toTypeExpr? = some u ∧
          ∀ (span' : Option Span) (c' : Checker), c'.scopes = c.scopes →
            (resolveType u span' c').2.errors = c'.errors ∧
              (resolveType u span' c').1 == (resolveType t span c).1 := by
  refine ⟨fun p pl hpl => Scopes.reached_of_place hpl, fun t span c hsc herr => ?_⟩
  obtain ⟨u, hu, hunknown, hsame⟩ := Scopes.resolve_again hsc t (errors_resolveType.1 herr)
  refine ⟨u, hu, fun span' c' hc => ⟨errors_resolveType.2 (hc ▸ hunknown), ?_⟩⟩
  have htype : (resolveType u span' c').1 = (resolveType t span c).1 := by
    show (c'.scopes.resolve u).type = (c.scopes.resolve t).type
    rw [hc, hsame]
  exact htype ▸ Ty.equivalence.refl _

/-- The body of a control with a type parameter, below a header. -/
def sheltered : Program := ⟨[.header ⟨⟨0⟩, "H", none⟩ [],
  .control ⟨⟨1⟩, "c", none⟩ ["T"] [] [] [] (.mk ⟨2⟩ [])]⟩

def inBody : Checker :=
  ⟨(sheltered.top.enterControl ["T"] [] []).declares [], .empty, .empty, []⟩

def headers : TypeExpr := .stack (.named "H") 3

theorem headers_written :
    (inBody.scopes.Reached ∧ (resolveType headers none inBody).2.errors = inBody.errors) ∧
      ∃ u, (resolveType headers none inBody).1.toTypeExpr? = some u ∧
        (resolveType u none inBody).2.errors = inBody.errors ∧
          (resolveType u none inBody).1 == (resolveType headers none inBody).1 := by
  obtain ⟨hreached, hwritten⟩ := resolveType_written
  have hplace : (inBody.scopes, .block (.mk ⟨2⟩ [])) ∈ sheltered.places :=
    mem_of_getElem? (i := 3) rfl
  have hsc := hreached sheltered _ hplace
  have herr : (resolveType headers none inBody).2.errors = inBody.errors := by decide +kernel
  obtain ⟨u, hu, hagain⟩ := hwritten headers none inBody hsc herr
  exact ⟨⟨hsc, herr⟩, u, hu, hagain none inBody rfl⟩

end Check

end MatchAction
