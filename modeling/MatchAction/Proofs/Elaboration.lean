import MatchAction.Proofs.Toplevel

namespace MatchAction

open List

def Program.HasMain (p : Program) : Prop := ∃ x ∈ p.insts, x.1.name = "main" ∧ x.2.baseName.isSome

theorem Program.mem_insts {p : Program} {h : Head} {ty : TypeExpr} :
    (h, ty) ∈ p.insts ↔ ∃ as, .inst h ty as ∈ p.decls := by
  unfold insts Decl.insts
  rw [mem_filterMap]
  constructor
  · rintro ⟨d, hd, hinst⟩
    cases d with
    | inst h' ty' as =>
      cases hinst
      exact ⟨as, hd⟩
    | _ => cases hinst
  · rintro ⟨as, hd⟩
    exact ⟨_, hd, rfl⟩

namespace Elaboration

variable {refs : Refs} {types : Types}

theorem ok_of_bind {ε α β : Type} {x : Except ε α} {f : α → Except ε β} {b : β}
    (h : x >>= f = .ok b) : ∃ a, x = .ok a ∧ f a = .ok b := by
  cases x with
  | error e => cases h
  | ok a => exact ⟨a, rfl, h⟩

theorem ok_of_map {ε α β : Type} {x : Except ε α} {f : α → β} {b : β} (h : f <$> x = .ok b) :
    ∃ a, x = .ok a ∧ f a = b := by
  cases x with
  | error e => cases h
  | ok a => exact ⟨a, rfl, Except.ok.inj h⟩

theorem declareds_ok {build : Builder} {ds : List Decl} {is : List Instance}
    (h : declareds refs build ds = .ok is) :
    (∀ d ∈ ds, ∃ o, declared refs build d = .ok o ∧ ∀ i ∈ o, i ∈ is) ∧
      ∀ i ∈ is, ∃ d ∈ ds, declared refs build d = .ok (some i) := by
  induction ds generalizing is with
  | nil =>
    cases h
    exact ⟨nofun, nofun⟩
  | cons d ds ih =>
    obtain ⟨o, hd, h⟩ := ok_of_bind h
    obtain ⟨is', hds, h⟩ := ok_of_bind h
    cases h
    obtain ⟨hall, hof⟩ := ih hds
    refine ⟨forall_mem_cons.2 ⟨⟨o, hd, fun i hi => ?_⟩, fun d' hd' => ?_⟩, fun i hi => ?_⟩
    · exact mem_append_left _ (Option.mem_toList.2 hi)
    · obtain ⟨o', ho', hmem⟩ := hall d' hd'
      exact ⟨o', ho', fun i hi => mem_append_right _ (hmem i hi)⟩
    · rcases mem_append.1 hi with hi | hi
      · obtain rfl := Option.mem_toList.1 hi
        exact ⟨d, .head _, hd⟩
      · obtain ⟨d', hd', hi⟩ := hof i hi
        exact ⟨d', .tail _ hd', hi⟩

theorem name_of_build {fuel : Nat} {above : List NodeId} {name : String} {type : Decl}
    {args : List Expr} {i : Instance} (h : build refs types fuel above name type args = .ok i) :
    i.name = name := by
  cases fuel with
  | zero => cases h
  | succ fuel =>
    rw [build] at h
    split at h
    · cases h
    · split at h
      · cases h
      · obtain ⟨as, -, h⟩ := ok_of_bind h
        obtain ⟨ls, -, h⟩ := ok_of_bind h
        cases h
        rfl

theorem inst_of_declared {build : Builder} {d : Decl} {i : Instance}
    (h : declared refs build d = .ok (some i)) :
    ∃ hd ty args type, d = .inst hd ty args ∧ refs.decl? hd.id = some type ∧
      build hd.name type args = .ok i := by
  unfold declared at h
  split at h
  · rename_i hd ty args
    split at h
    · rename_i type htype
      obtain ⟨i', hbuild, hi⟩ := ok_of_map h
      cases hi
      exact ⟨hd, ty, args, type, rfl, htype, hbuild⟩
    · cases h
  · cases h

theorem declared_of_inst {build : Builder} {hd : Head} {ty : TypeExpr} {args : List Expr}
    {type : Decl} (htype : refs.decl? hd.id = some type) {o : Option Instance}
    (h : declared refs build (.inst hd ty args) = .ok o) :
    ∃ i, o = some i ∧ build hd.name type args = .ok i := by
  simp only [declared, htype] at h
  obtain ⟨i, hbuild, hi⟩ := ok_of_map h
  exact ⟨i, hi.symm, hbuild⟩

end Elaboration

namespace Scopes

theorem typeParams_define (sc : Scopes) (n : String) (r : Referent) :
    (sc.define n r).2.typeParams = sc.typeParams := by
  unfold define
  split
  · rfl
  · split <;> rfl

theorem typeParams_declares (sc : Scopes) (ds : List Decl) :
    (sc.declares ds).typeParams = sc.typeParams := by
  induction ds generalizing sc with
  | nil => rfl
  | cons d ds ih => exact (ih _).trans (sc.typeParams_define d.name (.decl d))

variable {sc : Scopes} {ty : TypeExpr}

theorem baseName_of_resolve (h : (sc.resolve ty).type.decl? = some d) :
    ty.baseName.isSome := by
  cases ty with
  | named | specialized => rfl
  | _ => cases h

theorem decl?_of_resolve (hsc : sc.typeParams = []) (hty : ty.baseName.isSome)
    (h : (sc.resolve ty).unknown = []) : ((sc.resolve ty).type.decl?).isSome := by
  have hname {n : String} {args : List Ty} (h : (sc.resolveName n args).unknown = []) :
      ((sc.resolveName n args).type.decl?).isSome := by
    have hparam : sc.isTypeParam n = false := by simp [isTypeParam, hsc]
    simp only [resolveName, hparam, Bool.false_eq_true, if_false] at h ⊢
    split at h
    · split at h
      · simp_all [Ty.decl?]
      · cases h
    · cases h
  cases ty with
  | named n => exact hname h
  | specialized n args => exact hname (append_eq_nil_iff.1 h).2
  | _ => cases hty

end Scopes

namespace Check

theorem unknown_of_decls (h : (decls ds c).2.errors = []) (hmem : .inst hd ty as ∈ ds) :
    (c.scopes.resolve ty).unknown = [] := by
  induction ds generalizing c with
  | nil => cases hmem
  | cons d ds ih =>
    rcases mem_cons.1 hmem with rfl | hmem
    · have hdecl : (decl (.inst hd ty as) c).2.errors = [] := ((walks_decls ds).errors _ h).1
      rw [decl] at hdecl
      have hargs := errors_instantiate ((quiet_setType hd.id _).errors _ hdecl)
      have hresolve := ((walks_exprs as).errors _ hargs).1
      exact map_eq_nil_iff.1 (append_eq_nil_iff.1 hresolve).2
    · have hscopes : (decl d c).2.scopes = c.scopes := (walks_decl d).scopes c
      exact hscopes ▸ ih (c := (decl d c).2) h hmem

end Check

namespace Program

variable {p : Program}

theorem decl?_of_inst (hids : (nodeIds p.visits).Nodup) (herr : p.check.errors = [])
    (hmem : .inst h ty as ∈ p.decls) (hty : ty.baseName.isSome) :
    ∃ d, p.check.refs.decl? h.id = some d := by
  have hscopes : (Check.defineAll p.decls ⟨.empty, .empty, .empty, []⟩).2.scopes = p.top :=
    (Check.walks_defineAll p.decls).scopes _
  have hunknown := Check.unknown_of_decls herr hmem
  rw [hscopes] at hunknown
  have htop : p.top.typeParams = [] := Scopes.empty.typeParams_declares p.decls
  obtain ⟨d, hd⟩ := Option.isSome_iff_exists.1 (Scopes.decl?_of_resolve htop hty hunknown)
  have hplace : (p.top, .enter (.inst h ty as)) ∈ p.places :=
    mem_flatMap.2 ⟨_, hmem, Decl.enter_mem_places _ _⟩
  have huse : Place.use? (p.top, .enter (.inst h ty as)) = some (h.id, .decl d) := by
    simp [Place.use?, hd]
  exact ⟨d, by rw [Refs.decl?, get?_refs_check hids hplace huse]; rfl⟩

theorem baseName_of_decl? (hids : (nodeIds p.visits).Nodup) (hmem : .inst h ty as ∈ p.decls)
    (hd : p.check.refs.decl? h.id = some d) : ty.baseName.isSome := by
  obtain ⟨r, hr, -⟩ := Option.bind_eq_some_iff.1 hd
  have hplace : (p.top, .enter (.inst h ty as)) ∈ p.places :=
    mem_flatMap.2 ⟨_, hmem, Decl.enter_mem_places _ _⟩
  obtain ⟨d', hd', -⟩ := Option.map_eq_some_iff.1 (use?_of_get? hids hplace rfl hr)
  exact Scopes.baseName_of_resolve hd'

variable {types : Types} {t : Toplevel}

theorem hasMain_of_elaborate (hids : (nodeIds p.visits).Nodup)
    (ht : p.elaborate p.check.refs types = .ok t) (hmain : t.main?.isSome) : p.HasMain := by
  obtain ⟨is, his, h⟩ := Elaboration.ok_of_bind ht
  cases h
  obtain ⟨i, hi⟩ := Option.isSome_iff_exists.1 hmain
  obtain ⟨d, hd, hdeclared⟩ := (Elaboration.declareds_ok his).2 i (mem_of_find?_eq_some hi)
  obtain ⟨h, ty, args, type, rfl, htype, hbuild⟩ := Elaboration.inst_of_declared hdeclared
  have hname : i.name = "main" := by simpa using find?_some hi
  exact ⟨(h, ty), mem_insts.2 ⟨args, hd⟩, (Elaboration.name_of_build hbuild).symm.trans hname,
    baseName_of_decl? hids hd htype⟩

theorem HasMain.elaborate (hp : p.HasMain) (hids : (nodeIds p.visits).Nodup)
    (herr : p.check.errors = []) (ht : p.elaborate p.check.refs types = .ok t) :
      t.main?.isSome := by
  obtain ⟨is, his, h⟩ := Elaboration.ok_of_bind ht
  cases h
  obtain ⟨⟨h, ty⟩, hinst, hname, hty⟩ := hp
  obtain ⟨args, hd⟩ := mem_insts.1 hinst
  obtain ⟨type, htype⟩ := decl?_of_inst hids herr hd hty
  obtain ⟨o, ho, hmem⟩ := (Elaboration.declareds_ok his).1 _ hd
  obtain ⟨i, rfl, hbuild⟩ := Elaboration.declared_of_inst htype ho
  refine find?_isSome.2 ⟨i, hmem i rfl, ?_⟩
  rw [Elaboration.name_of_build hbuild, hname]
  rfl

end Program

end MatchAction
