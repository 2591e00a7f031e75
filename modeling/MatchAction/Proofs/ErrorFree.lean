import MatchAction.Proofs.ErrorTypes
import MatchAction.Proofs.Steps

namespace MatchAction

open List hiding modify

def Visit.pathId? : Visit → Option NodeId
  | .expr (.path t _) => some t.id
  | _ => none

/-- No path refers to a variable, constant or instance that is declared where the path stands or
later. -/
def ValuesFirst (refs : Refs) : List Decl → Prop
  | [] => True
  | d :: ds => (∀ i ∈ d.visits.filterMap Visit.pathId?, ∀ x ∈ d :: ds, x.isValue = true →
      (refs.get? i).map (·.id) ≠ some x.id) ∧ ValuesFirst refs ds

instance decidableValuesFirst (refs : Refs) : (ds : List Decl) → Decidable (ValuesFirst refs ds)
  | [] => inferInstanceAs (Decidable True)
  | _ :: ds =>
    have := decidableValuesFirst refs ds
    inferInstanceAs (Decidable (_ ∧ ValuesFirst refs ds))

theorem Ty.eq_error_of_isError {t : Ty} (h : t.isError = true) : t = .error := by
  cases t <;> first | rfl | cases h

variable {i : NodeId}

theorem Types.Grows.isLeftValue {t t' : Types} (h : t.Grows t')
    (hi : t.isLeftValue i = true) : t'.isLeftValue i = true :=
  contains_iff_mem.2 (h.leftValues (contains_iff_mem.1 hi))

variable {t : Tag} {l r f : Expr} {as : List Expr} {ts : List TypeExpr}

namespace Check

variable {N : Nodes} {Entry : Expr → Prop}

theorem types_expect (t u : Ty) (sp : Option Span) (c : Checker) :
    (expect t u sp c).2.types = c.types := by
  unfold expect
  split <;> rfl

theorem assign_apply (t : Tag) (l r : Expr) (c : Checker) :
    assign t l r c = (if !(expr l c).1.isError && !(expr r (expr l c).2).2.types.isLeftValue l.id
      then report .notLeftValue (l.span.or t.span) >>= fun _ =>
        expect (expr l c).1 (expr r (expr l c).2).1 (r.span.or t.span)
      else expect (expr l c).1 (expr r (expr l c).2).1 (r.span.or t.span) : Check Unit)
        (expr r (expr l c).2).2 := rfl

theorem types_assign (t : Tag) (l r : Expr) (c : Checker) :
    (assign t l r c).2.types = (expr r (expr l c).2).2.types := by
  rw [assign_apply]
  split
  · exact types_expect _ _ _ _
  · exact types_expect _ _ _ _

variable {c : Checker}

theorem leftValue_of_assign
    (h : (assign t l r c).2.errors = []) :
    (expr l c).1.isError = true ∨ (assign t l r c).2.types.isLeftValue l.id = true := by
  rw [types_assign]
  by_contra hnot
  obtain ⟨hT, hl⟩ := not_or.1 hnot
  rw [assign_apply, if_pos (by simp [hT, hl])] at h
  exact errors_report_ne _ _ _ ((quiet_expect _ _ _).errors _ h)

theorem get?_assign (h : Ready N Entry (Stmt.assign t l r).visits) (hc : c.Clear N) :
    (assign t l r c).2.types.get? l.id = some (expr l c).1 := by
  have hr : Ready N Entry (l.visits ++ r.visits) := h.tail
  have hl := (runs_expr l hr.left).sets.clear hc
  rw [types_assign, ← get?_expr l c]
  exact (runs_expr r hr.right).sets.frame hl (hr.left.known _ l.id_mem_visits)
    (hr.disjoint l.id_mem_visits)

theorem get?_exprs (h : Ready N Entry ((Expr.walks as).map .expr))
    (hc : c.Clear N) :
    List.Forall₂ (fun a T => a.id ∈ nodeIds ((Expr.walks as).map .expr) ∧
      (exprs as c).2.types.get? a.id = some T) as (exprs as c).1 := by
  induction as generalizing c with
  | nil => exact .nil
  | cons a as ih =>
    have hvs : (Expr.walks (a :: as)).map Visit.expr = a.visits ++ (Expr.walks as).map .expr :=
      map_append
    have hr := hvs ▸ h
    have hc' := (runs_expr a hr.left).sets.clear hc
    rw [hvs]
    refine .cons ⟨nodeIds_subset (subset_append_left _ _) a.id_mem_visits, ?_⟩
      ((ih hr.right hc').imp fun _ _ h => ⟨nodeIds_subset (subset_append_right _ _) h.1, h.2⟩)
    refine Eq.trans ?_ (get?_expr a c)
    exact (runs_exprs as hr.right).sets.frame hc' (hr.left.known _ a.id_mem_visits)
      (hr.disjoint a.id_mem_visits)

theorem frame_call
    (h : Ready N Entry (Expr.call t f ts as).visits) (hc : c.Clear N)
    (hi : i ∈ nodeIds (f.visits ++ (Expr.walks as).map .expr)) :
    (expr (.call t f ts as) c).2.types.get? i =
      (exprs as (callee as.length f c).2).2.types.get? i := by
  have hr := Expr.visits_call t f ts as ▸ h
  have hf := (runs_callee as.length hr.tail.left).sets
  have has := (runs_exprs as hr.tail.right).sets
  have hc₁ := hf.clear hc
  have hcall : Sets N (· = t.id) Any (typed t (call t f (callee as.length f c).1 ts as
      (exprs as (callee as.length f c).2).1)) :=
    (sets_call (L := (· = t.id)) rfl f (hf.result hc) ts as (has.result hc₁)).bind fun _ hty =>
      (sets_setType (i := t.id) (L := (· = t.id)) (fun _ => rfl) hty fun hw => absurd hw
        (h.not_written_expr (e := .call t f ts as) (.head _))).bind fun _ _ => .pure trivial
  rw [expr_call]
  refine hcall.frame (has.clear hc₁) (hr.tail.known i hi) ?_
  rintro rfl
  exact hr.head_not_mem rfl hi

theorem frame_callee
    (h : Ready N Entry (Expr.call t f ts as).visits) (hc : c.Clear N)
    (hi : i ∈ nodeIds f.visits) :
    (expr (.call t f ts as) c).2.types.get? i = (callee as.length f c).2.types.get? i := by
  have hr := Expr.visits_call t f ts as ▸ h
  rw [frame_call h hc (nodeIds_subset (subset_append_left _ _) hi)]
  exact (runs_exprs as hr.tail.right).sets.frame
    ((runs_callee as.length hr.tail.left).sets.clear hc) (hr.tail.left.known _ hi)
    (hr.tail.disjoint hi)

theorem get?_call
    (h : Ready N Entry (Expr.call t f ts as).visits) (hc : c.Clear N) :
    (expr (.call t f ts as) c).2.types.get? f.id = some (callee as.length f c).1 ∧
      List.Forall₂ (fun a T => a.id ∈ nodeIds (Expr.call t f ts as).visits ∧
        (expr (.call t f ts as) c).2.types.get? a.id = some T) as
          (exprs as (callee as.length f c).2).1 := by
  have hr := Expr.visits_call t f ts as ▸ h
  have hc₁ := (runs_callee as.length hr.tail.left).sets.clear hc
  refine ⟨?_, (get?_exprs hr.tail.right hc₁).imp fun a T ⟨ha, hT⟩ => ?_⟩
  · rw [frame_callee h hc f.id_mem_visits, get?_callee]
  · have hmem := nodeIds_subset (subset_append_right f.visits _) ha
    rw [Expr.visits_call]
    exact ⟨.tail _ hmem, (frame_call h hc hmem).trans hT⟩

theorem leftValue_of_arguments {R : Expr → Ty → Prop} {sp : Option Span} {b : Bindings}
    {qs : List ParamTy} {ts : List Ty} (hR : List.Forall₂ R as ts)
    (h : (arguments sp b qs as ts c).2.errors = []) :
    ∀ x ∈ qs.zip as, x.1.direction.copiesOut = true →
      ∃ T, R x.2 T ∧ (T.isError = true ∨ c.types.isLeftValue x.2.id = true) := by
  induction hR generalizing qs c with
  | nil => simp
  | @cons a T as ts ha _ ih =>
    cases qs with
    | nil => simp
    | cons q qs =>
      let rest : Check Unit := expect (q.type.subst b) T (a.span.or sp) >>= fun _ =>
        arguments sp b qs as ts
      have heq : arguments sp b (q :: qs) (a :: as) (T :: ts) c =
          (if q.direction.copiesOut && !T.isError && !c.types.isLeftValue a.id
            then report .notLeftValue a.span >>= fun _ => rest else rest : Check Unit) c := rfl
      have hquiet : Quiet rest := (quiet_expect _ _ _).bind fun _ => quiet_arguments _ _ _ _ _
      by_cases hbad : (q.direction.copiesOut && !T.isError && !c.types.isLeftValue a.id) = true
      · rw [heq, if_pos hbad] at h
        exact absurd (hquiet.errors _ h) (errors_report_ne _ _ _)
      · rw [heq, if_neg hbad] at h
        refine forall_mem_cons.2 ⟨fun hq => ⟨T, ha, ?_⟩, fun x hx hq => ?_⟩
        · by_contra hnot
          obtain ⟨hT, hl⟩ := not_or.1 hnot
          exact hbad (by simp [hq, hT, hl])
        · have hrest := ih (c := (expect (q.type.subst b) T (a.span.or sp) c).2) h x hx hq
          rw [types_expect] at hrest
          exact hrest

def callBindings (t : Tag) (f : Expr) (sig : Signature) (ts : List TypeExpr) (tys : List Ty) :
    Check Bindings := do
  let fromReceiver ← receiverBindings f
  let written ← bindWritten t.span (sig.typeParams.filter (!fromReceiver.binds ·)) ts fromReceiver
  return unifyAll sig.params tys written

def note (i : NodeId) (b : Bindings) : Check Unit :=
  if b.isEmpty then pure () else modify fun c => { c with types := c.types.setBindings i b }

theorem call_method (t : Tag) (f : Expr) (ts : List TypeExpr)
    (ha : sig.arity = as.length) (tys : List Ty) :
    call t f (.method sig) ts as tys = (callBindings t f sig ts tys >>= fun b =>
      arguments t.span b sig.params as tys >>= fun _ => note t.id b >>= fun _ =>
        pure (sig.ret.subst b)) := by
  funext c
  unfold call
  simp only [if_neg (not_not.2 ha)]
  simp only [callBindings, bind_assoc, pure_bind, note]
  refine congrFun (congrArg _ (funext fun b => congrArg _ (funext fun b' => congrArg _
    (funext fun _ => ?_)))) c
  cases (unifyAll sig.params tys b').isEmpty <;> rfl

theorem quiet_note (i : NodeId) (b : Bindings) : Quiet (note i b) :=
  .ite (.pure _) (.typed (·.setBindings i b) fun _ => ⟨id, List.Subset.refl _⟩)

theorem method_of_call {R : Expr → Ty → Prop} {ty : Ty}
    {tys : List Ty} (hR : List.Forall₂ R as tys) (hty : ty ≠ .error)
    (h : (call t f ty ts as tys c).2.errors = []) :
    ∃ sig, ty = .method sig ∧ sig.arity = as.length ∧
      ∀ x ∈ sig.params.zip as, x.1.direction.copiesOut = true → ∃ T, R x.2 T ∧
        (T.isError = true ∨ (call t f ty ts as tys c).2.types.isLeftValue x.2.id = true) := by
  cases ty with
  | method sig =>
    by_cases ha : sig.arity = as.length
    · refine ⟨sig, rfl, ha, fun x hx hq => ?_⟩
      rw [call_method t f ts ha] at h ⊢
      let b := callBindings t f sig ts tys c
      have hnoted : Quiet (note t.id b.1 >>= fun _ => (pure (sig.ret.subst b.1) : Check Ty)) :=
        (quiet_note t.id b.1).bind fun _ => .pure _
      obtain ⟨T, hT, hl⟩ := leftValue_of_arguments (c := b.2) hR (hnoted.errors _ h) x hx hq
      refine ⟨T, hT, hl.imp_right fun hl => ?_⟩
      exact (hnoted.grows _).isLeftValue (((quiet_arguments _ _ _ _ _).grows _).isLeftValue hl)
    · unfold call at h
      simp only [if_pos ha] at h
      exact absurd h (errors_report_ne _ _ _)
  | error => exact absurd rfl hty
  | _ => exact absurd h (errors_report_ne _ _ _)

end Check

namespace Program

variable {p : Program}

theorem onTime_of_valuesFirst (hids : p.NodesApart) (hds : ds ⊆ p.decls)
    (h : ValuesFirst p.check.refs ds) : OnTime p.top ds := by
  induction ds with
  | nil => trivial
  | cons d ds ih =>
    refine ⟨fun pl hpl => ?_, ih (fun d hd => hds (.tail _ hd)) h.2⟩
    have hmem : pl ∈ p.places := mem_flatMap.2 ⟨d, hds (.head _), hpl⟩
    have hvisit : pl.2 ∈ d.visits := d.map_snd_places p.top ▸ mem_map_of_mem hpl
    obtain ⟨sc, v⟩ := pl
    unfold Place.Timely
    split
    · rename_i t n heq
      cases heq
      rintro r hr ⟨x, hx, hvalue, hid⟩
      have href : p.check.refs.get? t.id = some r :=
        get?_refs_check hids.nodes hmem (by simp [Place.use?, hr])
      refine h.1 t.id (mem_filterMap.2 ⟨_, hvisit, rfl⟩) x hx hvalue ?_
      rw [href, hid]
      rfl
    · trivial

section

variable (hids : p.NodesApart) (herr : p.check.errors = [])
  (hfirst : ValuesFirst p.check.refs p.decls)

include hids herr hfirst

theorem ne_error (hT : p.check.types.get? i = some T) : T ≠ .error := by
  rintro rfl
  have honTime : OnTime p.top p.decls :=
    onTime_of_valuesFirst hids (List.Subset.refl _) hfirst
  exact p.made_types (E := False) (.inr ⟨herr, honTime⟩) hT

theorem leftValue_of_assignment (h : .stmt (.assign t l r) ∈ p.visits) :
    p.check.types.isLeftValue l.id = true := by
  obtain ⟨sc, hpl⟩ := exists_place h
  obtain ⟨c₀, c₁, hby⟩ := exists_checkedBy hids hpl rfl
  obtain rfl := hby.step.assign
  have hmem : l.id ∈ nodeIds (Stmt.assign t l r).visits :=
    .tail _ (nodeIds_subset (subset_append_left _ _) l.id_mem_visits)
  have htype := (hby.types l.id hmem).trans (Check.get?_assign hby.ready hby.clear)
  have hne := ne_error hids herr hfirst htype
  have hleft := (Check.leftValue_of_assign (hby.errors herr)).resolve_left fun he =>
    hne (Ty.eq_error_of_isError he)
  exact hby.isLeftValue hleft

theorem method_of_callee
    (h : .expr (.call t f ts as) ∈ p.visits) (he : ¬ p.IsEntry (.call t f ts as)) :
    ∃ sig, p.check.types.get? f.id = some (.method sig) ∧ sig.arity = as.length ∧
      ∀ x ∈ sig.params.zip as, x.1.direction.copiesOut = true →
        p.check.types.isLeftValue x.2.id = true := by
  obtain ⟨sc, hpl⟩ := exists_place h
  obtain ⟨c₀, c₁, hby⟩ := exists_checkedBy hids hpl rfl
  obtain rfl := hby.step.call he
  have hvs := Expr.visits_call t f ts as
  obtain ⟨hf, has⟩ := Check.get?_call hby.ready hby.clear
  have hfinal : p.check.types.get? f.id = some (Check.callee as.length f c₀).1 := by
    refine (hby.types f.id ?_).trans hf
    rw [Visit.under, hvs]
    exact .tail _ (nodeIds_subset (subset_append_left _ _) f.id_mem_visits)
  have herrors := hby.errors herr
  rw [Check.expr_call] at herrors
  obtain ⟨sig, hsig, harity, hleft⟩ :=
    Check.method_of_call has (ne_error hids herr hfirst hfinal) herrors
  refine ⟨sig, hfinal.trans (congrArg some hsig), harity, fun x hx hq => ?_⟩
  obtain ⟨T, ⟨hmem, hT⟩, hl⟩ := hleft x hx hq
  have hne := ne_error hids herr hfirst ((hby.types _ hmem).trans hT)
  refine hby.isLeftValue ?_
  rw [Check.expr_call]
  exact hl.resolve_left fun he => hne (Ty.eq_error_of_isError he)

end

/-- A program without errors, whose values are used after their declaration, is typed throughout. -/
theorem typed_of_errors (hids : p.NodesApart) (herr : p.check.errors = [])
    (hfirst : ValuesFirst p.check.refs p.decls) :
    (∀ e, .expr e ∈ p.visits → ∃ T, p.check.types.get? e.id = some T ∧ T ≠ .error) ∧
      (∀ t n, .expr (.path t n) ∈ p.visits → (p.check.refs.get? t.id).isSome) ∧
      (∀ t l r, .stmt (.assign t l r) ∈ p.visits → p.check.types.isLeftValue l.id = true) ∧
      ∀ t f ts as, .expr (.call t f ts as) ∈ p.visits → ¬ p.IsEntry (.call t f ts as) →
        ∃ sig, p.check.types.get? f.id = some (.method sig) ∧ sig.arity = as.length ∧
          ∀ x ∈ sig.params.zip as, x.1.direction.copiesOut = true →
            p.check.types.isLeftValue x.2.id = true := by
  refine ⟨fun e he => ?_, fun t n hpath => ?_, fun t l r h => ?_, fun t f ts as h hE => ?_⟩
  · obtain ⟨sc, hpl⟩ := exists_place he
    obtain ⟨c₀, c₁, hby⟩ := exists_checkedBy hids hpl rfl
    obtain ⟨T, hT⟩ := Option.isSome_iff_exists.1 hby.step.get?_isSome
    have htype := (hby.types e.id e.id_mem_visits).trans hT
    exact ⟨T, htype, ne_error hids herr hfirst htype⟩
  · obtain ⟨sc, hpl⟩ := exists_place hpath
    obtain ⟨r, hr⟩ := Option.isSome_iff_exists.1 (fine_of_errors herr _ hpl)
    rw [get?_refs_check (r := r) hids.nodes hpl (by simp [Place.use?, hr])]
    rfl
  · exact leftValue_of_assignment hids herr hfirst h
  · exact method_of_callee hids herr hfirst h hE

end Program

namespace ErrorFree

def declaredFirst : Program := ⟨[
  .const ⟨⟨0⟩, "N", none⟩ (.bits 8 false) (.lit ⟨⟨1⟩, none⟩ 1 (.bits 8 false)),
  .action ⟨⟨2⟩, "set", none⟩ [⟨⟨3⟩, "x", .output, .bits 8 false, none⟩]
    (.mk ⟨4⟩ [.assign ⟨⟨5⟩, none⟩ (.path ⟨⟨6⟩, none⟩ "x") (.path ⟨⟨7⟩, none⟩ "N")]),
  .control ⟨⟨8⟩, "c", none⟩ [] [⟨⟨9⟩, "v", .inout, .bits 8 false, none⟩] [] [
    .table ⟨⟨10⟩, "t", none⟩ [] [.call ⟨⟨11⟩, none⟩ (.path ⟨⟨12⟩, none⟩ "set") [] []] none]
    (.mk ⟨13⟩ [.call ⟨⟨14⟩, none⟩
      (.call ⟨⟨15⟩, none⟩ (.path ⟨⟨16⟩, none⟩ "set") [] [.path ⟨⟨17⟩, none⟩ "v"])])]⟩

theorem typed_declaredFirst :
    (declaredFirst.NodesApart ∧ declaredFirst.check.errors = [] ∧
      ValuesFirst declaredFirst.check.refs declaredFirst.decls) ∧
    (∃ T, declaredFirst.check.types.get? ⟨7⟩ = some T ∧ T ≠ .error) ∧
    (declaredFirst.check.refs.get? ⟨7⟩).isSome ∧
    declaredFirst.check.types.isLeftValue ⟨6⟩ = true ∧
    ∃ sig, declaredFirst.check.types.get? ⟨16⟩ = some (.method sig) ∧ sig.arity = 1 ∧
      ∀ x ∈ sig.params.zip [Expr.path ⟨⟨17⟩, none⟩ "v"], x.1.direction.copiesOut = true →
        declaredFirst.check.types.isLeftValue x.2.id = true := by
  have hids : declaredFirst.NodesApart := by decide
  have herr : declaredFirst.check.errors = [] := List.isEmpty_iff.1 (by decide +kernel)
  have hfirst : ValuesFirst declaredFirst.check.refs declaredFirst.decls := by decide +kernel
  have hentry : ¬ declaredFirst.IsEntry (.call ⟨⟨15⟩, none⟩ (.path ⟨⟨16⟩, none⟩ "set") []
      [.path ⟨⟨17⟩, none⟩ "v"]) := fun h => by
    have hid := List.mem_map_of_mem (f := Expr.id) h
    revert hid
    decide
  have hpath : Visit.expr (.path ⟨⟨7⟩, none⟩ "N") ∈ declaredFirst.visits :=
    List.mem_of_getElem? (i := 7) rfl
  have hassign : Visit.stmt (.assign ⟨⟨5⟩, none⟩ (.path ⟨⟨6⟩, none⟩ "x") (.path ⟨⟨7⟩, none⟩ "N")) ∈
      declaredFirst.visits := List.mem_of_getElem? (i := 5) rfl
  have hcall : Visit.expr (.call ⟨⟨15⟩, none⟩ (.path ⟨⟨16⟩, none⟩ "set") []
      [.path ⟨⟨17⟩, none⟩ "v"]) ∈ declaredFirst.visits := List.mem_of_getElem? (i := 16) rfl
  obtain ⟨htypes, hrefs, hleft, hmethod⟩ := Program.typed_of_errors hids herr hfirst
  -- against the goal, the nodes would be found by evaluating the check
  specialize htypes _ hpath
  specialize hrefs _ _ hpath
  specialize hleft _ _ _ hassign
  specialize hmethod _ _ _ _ hcall hentry
  exact ⟨⟨hids, herr, hfirst⟩, htypes, hrefs, hleft, hmethod⟩

def usedFirst : Program := ⟨[
  .const ⟨⟨0⟩, "A", none⟩ (.bits 8 false) (.path ⟨⟨1⟩, none⟩ "B"),
  .const ⟨⟨2⟩, "B", none⟩ (.bits 8 false) (.lit ⟨⟨3⟩, none⟩ 1 (.bits 8 false))]⟩

/-- The use has the error type, and nothing is reported. -/
theorem silent_usedFirst :
    usedFirst.ids.Nodup ∧ usedFirst.check.errors = [] ∧
      .expr (.path ⟨⟨1⟩, none⟩ "B") ∈ usedFirst.visits ∧
      usedFirst.check.types.get? ⟨1⟩ = some .error :=
  ⟨by decide, List.isEmpty_iff.1 (by decide +kernel), List.mem_of_getElem? (i := 1) rfl,
    by with_unfolding_all rfl⟩

end ErrorFree

end MatchAction
