import MatchAction.Proofs.Equality
import MatchAction.Proofs.ErrorTypes
import MatchAction.Proofs.Steps

namespace MatchAction

mutual
def TypeExpr.names : TypeExpr → List String
  | .named n => [n]
  | .specialized n as => n :: TypeExpr.allNames as
  | .stack e _ => e.names
  | _ => []
def TypeExpr.allNames : List TypeExpr → List String
  | [] => []
  | t :: ts => t.names ++ TypeExpr.allNames ts
end

variable {n : String}

namespace Scopes

variable {sc sc' : Scopes}

/-- The name stands for the same thing in both: a type parameter, or what is found under it. -/
def Agree (sc sc' : Scopes) (n : String) : Prop :=
  sc.isTypeParam n = sc'.isTypeParam n ∧ (sc.isTypeParam n = false → sc.lookup n = sc'.lookup n)

theorem Agree.resolveName (h : sc.Agree sc' n) (args : List Ty) :
    sc.resolveName n args = sc'.resolveName n args := by
  obtain ⟨hparam, hlookup⟩ := h
  unfold Scopes.resolveName
  cases hn : sc.isTypeParam n with
  | true => rw [← hparam, hn, if_pos rfl, if_pos rfl]
  | false => rw [← hparam, hn, hlookup hn]

mutual
theorem resolve_congr : (t : TypeExpr) → (∀ n ∈ t.names, sc.Agree sc' n) →
    (sc.resolve t).type = (sc'.resolve t).type
  | .bool, _ | .bits .., _ | .int, _ | .void, _ => rfl
  | .named n, h => congrArg (·.type) ((h n (.head _)).resolveName [])
  | .specialized n as, h => by
    have hargs : (sc.resolves as).1 = (sc'.resolves as).1 :=
      resolves_congr as fun m hm => h m (.tail _ hm)
    change (sc.resolveName n (sc.resolves as).1).type = (sc'.resolveName n (sc'.resolves as).1).type
    rw [(h n (.head _)).resolveName, hargs]
  | .stack e k, h => congrArg (Ty.stack · k) (resolve_congr e h)
theorem resolves_congr : (ts : List TypeExpr) → (∀ n ∈ TypeExpr.allNames ts, sc.Agree sc' n) →
    (sc.resolves ts).1 = (sc'.resolves ts).1
  | [], _ => rfl
  | t :: ts, h => by
    have ht := resolve_congr t fun n hn => h n (List.mem_append_left _ hn)
    have hts := resolves_congr ts fun n hn => h n (List.mem_append_right _ hn)
    change (sc.resolve t).type :: (sc.resolves ts).1 = (sc'.resolve t).type :: (sc'.resolves ts).1
    rw [ht, hts]
end

theorem Agree.pushTypeParams {tps : List String} (h : n ∉ tps → sc.Agree sc' n) :
    (sc.pushTypeParams tps).Agree (sc'.pushTypeParams tps) n := by
  have hparam : ∀ s : Scopes, (s.pushTypeParams tps).isTypeParam n =
      (tps.contains n || s.isTypeParam n) := fun _ => rfl
  have hlookup : ∀ s : Scopes, (s.pushTypeParams tps).lookup n = s.lookup n := fun _ => rfl
  unfold Agree at h ⊢
  rw [hparam, hparam, hlookup, hlookup]
  by_cases hn : n ∈ tps
  · simp [hn]
  · simpa [hn] using h hn

def paramTys (sc : Scopes) (ps : List Param) : List ParamTy :=
  ps.map fun p => .mk p.name p.direction (sc.resolve p.type).type

theorem paramTys_congr {ps : List Param}
    (h : ∀ n ∈ ps.flatMap (·.type.names), sc.Agree sc' n) : sc.paramTys ps = sc'.paramTys ps :=
  List.map_congr_left fun p hp => congrArg _ <| resolve_congr p.type fun n hn =>
    h n (List.mem_flatMap.2 ⟨p, hp, hn⟩)

end Scopes

inductive Taken
  | field (type : TypeExpr)
  | signature (typeParams : List String) (params : List Param) (ret : TypeExpr)
deriving DecidableEq

def Taken.names : Taken → List String
  | .field t => t.names
  | .signature tps ps r => (ps.flatMap (·.type.names) ++ r.names).filter (!tps.contains ·)

def Scopes.taken (sc : Scopes) : Taken → Ty
  | .field t => (sc.resolve t).type
  | .signature tps ps r => .method (.mk tps ((sc.pushTypeParams tps).paramTys ps)
      ((sc.pushTypeParams tps).resolve r).type)

theorem Scopes.taken_congr {sc sc' : Scopes} (u : Taken) (h : ∀ n ∈ u.names, sc.Agree sc' n) :
    sc.taken u = sc'.taken u := by
  cases u with
  | field t => exact Scopes.resolve_congr t h
  | signature tps ps r =>
    have hpush : ∀ n ∈ ps.flatMap (·.type.names) ++ r.names,
        (sc.pushTypeParams tps).Agree (sc'.pushTypeParams tps) n := fun n hn =>
      Scopes.Agree.pushTypeParams fun hnot => h n (List.mem_filter.2 ⟨hn, by simpa using hnot⟩)
    have hps : (sc.pushTypeParams tps).paramTys ps = (sc'.pushTypeParams tps).paramTys ps :=
      Scopes.paramTys_congr fun n hn => hpush n (List.mem_append_left _ hn)
    have hr : ((sc.pushTypeParams tps).resolve r).type =
        ((sc'.pushTypeParams tps).resolve r).type :=
      Scopes.resolve_congr r fun n hn => hpush n (List.mem_append_right _ hn)
    rw [Scopes.taken, Scopes.taken, hps, hr]

namespace Decl

def called? : Decl → Option Taken
  | .action _ ps _ => some (.signature [] ps .void)
  | .externFn _ m => some (.signature m.typeParams m.params m.returnType)
  | _ => none

def member? (n : String) : Decl → Option Taken
  | .header _ fs => (fs.find? (·.name == n)).map fun f => .field f.type
  | .struct _ fs => (fs.find? (·.name == n)).map fun f => .field f.type
  | .control _ _ ps _ _ _ => if n == "apply" then some (.signature [] ps .void) else none
  | _ => none

def within (sc : Scopes) : Decl → Scopes
  | .control _ tps _ _ _ _ => sc.pushTypeParams tps
  | _ => sc

end Decl

def Expr.takes (c : Checked) : Expr → Option (Decl × Taken)
  | .path t _ => do
    let d ← c.refs.decl? t.id
    let u ← d.called?
    return (d, u)
  | .member _ b n => do
    let T ← c.types.get? b.id
    let d ← T.decl?
    let u ← d.member? n
    return (d, u)
  | _ => none

variable {d : Decl} {u : Taken}

namespace Check

theorem fst_paramTypes (ps : List Param) (c : Checker) :
    (paramTypes ps c).1 = c.scopes.paramTys ps := by
  induction ps generalizing c with
  | nil => rfl
  | cons p ps ih =>
    change ParamTy.mk p.name p.direction (c.scopes.resolve p.type).type ::
      (paramTypes ps (paramType p c).2).1 = _
    rw [ih, (quiet_paramType p).scopes]
    rfl

theorem fst_actionType (ps : List Param) (c : Checker) :
    Ty.method (actionType ps c).1 = c.scopes.taken (.signature [] ps .void) := by
  have hps : (paramTypes ps c).1 = (c.scopes.pushTypeParams []).paramTys ps :=
    (fst_paramTypes ps c).trans (Scopes.paramTys_congr fun _ _ => ⟨rfl, fun _ => rfl⟩)
  exact congrArg (fun ts => Ty.method (.mk [] ts .void)) hps

theorem fst_methodType (m : Method) (c : Checker) :
    Ty.method (methodType m c).1 =
      c.scopes.taken (.signature m.typeParams m.params m.returnType) := by
  let c' : Checker := { c with scopes := c.scopes.pushTypeParams m.typeParams }
  have hps : (paramTypes m.params c').1 =
      (c.scopes.pushTypeParams m.typeParams).paramTys m.params :=
    fst_paramTypes m.params c'
  have hsc : (paramTypes m.params c').2.scopes = c.scopes.pushTypeParams m.typeParams :=
    (quiet_paramTypes m.params).scopes c'
  change Ty.method (.mk m.typeParams (paramTypes m.params c').1
    ((paramTypes m.params c').2.scopes.resolve m.returnType).type) = _
  rw [hps, hsc]
  rfl

theorem fst_referentType (t : Tag) (hu : d.called? = some u) (c : Checker) :
    (referentType t (.decl d) c).1 = c.scopes.taken u := by
  cases d <;> cases hu
  · exact fst_methodType _ c
  · exact fst_actionType _ c

theorem fst_member (t : Tag) (b : NodeId) (args : List Ty)
    (hu : d.member? n = some u) (k : Option Nat) (c : Checker) :
    (member t b (.decl d args) n k c).1 = c.scopes.taken u := by
  have hfield : ∀ (isHeader : Bool) (fs : List Field),
      (fs.find? (·.name == n)).map (fun f => Taken.field f.type) = some u →
        (fieldType t b (.decl d args) isHeader fs n c).1 = c.scopes.taken u := by
    intro isHeader fs hu
    obtain ⟨f, hfind, rfl⟩ := Option.map_eq_some_iff.1 hu
    unfold fieldType
    rw [hfind]
    change (((inheritLeftValue b t.id c).2.scopes).resolve f.type).type = _
    rw [(quiet_inheritLeftValue b t).scopes]
    rfl
  cases d with
  | header h fs => exact hfield true fs hu
  | struct h fs => exact hfield false fs hu
  | control h tps ps cps ls body =>
    simp only [Decl.member?] at hu
    split at hu
    · rename_i hn
      cases hu
      simp only [member, hn, if_true]
      exact fst_actionType ps c
    · cases hu
  | _ => cases hu

end Check

namespace Program

variable {p : Program} {sc : Scopes}

variable {t : Tag}

theorem lookup_of_refs (hids : p.NodesApart)
    (he : (sc, .expr (.path t n)) ∈ p.places)
    (hd : p.check.refs.decl? t.id = some d) : sc.lookup n = some (.decl d) := by
  obtain ⟨r, hr, hrd⟩ := Option.bind_eq_some_iff.1 hd
  obtain rfl : r = .decl d := by
    cases r <;> cases hrd
    rfl
  have huse := use?_of_get? hids.nodes he rfl hr
  obtain ⟨r, hl, hr⟩ := Option.map_eq_some_iff.1 huse
  rw [hl, (Prod.mk.inj hr).2]

theorem get?_types_path (hids : p.NodesApart)
    (he : (sc, .expr (.path t n)) ∈ p.places)
    (hd : p.check.refs.decl? t.id = some d) (hu : d.called? = some u) :
    p.check.types.get? t.id = some (sc.taken u) := by
  obtain ⟨c₀, c₁, h⟩ := exists_checkedBy hids he rfl
  obtain ⟨rfl, rfl⟩ := h.step.path
  have hl := lookup_of_refs hids he hd
  have htype : (Check.expr (.path t n) c₀).1 = c₀.scopes.taken u := by
    change (Check.path t n c₀).1 = _
    rw [Check.path_of_lookup hl]
    exact Check.fst_referentType t hu _
  rw [h.types t.id (.head _), ← htype]
  exact Check.get?_expr (.path t n) c₀

theorem get?_types_member (hids : p.NodesApart) {b : Expr}
    (he : (sc, .expr (.member t b n)) ∈ p.places) {args : List Ty}
    (hb : p.check.types.get? b.id = some (.decl d args)) (hu : d.member? n = some u) :
    p.check.types.get? t.id = some (sc.taken u) := by
  obtain ⟨c₀, c₁, h⟩ := exists_checkedBy hids he rfl
  obtain ⟨rfl, k, rfl⟩ := h.step.member
  have hid : b.id ∈ nodeIds (Expr.member t b n).visits := .tail _ b.id_mem_visits
  have hbase : (Check.expr b c₀).1 = .decl d args := by
    rw [h.types b.id hid, Check.get?_receiver h.ready h.clear k] at hb
    exact Option.some.inj hb
  have hscopes : (Check.expr b c₀).2.scopes = c₀.scopes := (Check.walks_expr b).scopes c₀
  rw [h.types t.id (.head _), Check.get?_typed]
  change some (Check.member t b.id (Check.expr b c₀).1 n k (Check.expr b c₀).2).1 = _
  rw [hbase, Check.fst_member t b.id args hu k, hscopes]

theorem get?_types_of_takes (hids : p.NodesApart) {e : Expr} (he : (sc, .expr e) ∈ p.places)
    (hu : e.takes p.check = some (d, u)) :
    p.check.types.get? e.id = some (sc.taken u) ∧ d ∈ p.allDecls := by
  cases e with
  | path t n =>
    simp only [Expr.takes, Option.bind_eq_bind, Option.bind_eq_some_iff, Option.pure_def,
      Option.some.injEq, Prod.mk.injEq] at hu
    obtain ⟨d, hd, u, hu, rfl, rfl⟩ := hu
    refine ⟨get?_types_path hids he hd hu, ?_⟩
    rcases mem_referents (lookup_of_place he (lookup_of_refs hids he hd)).2 with
      ⟨d', hd', heq⟩ | ⟨_, -, _, -, heq⟩
    · cases heq
      exact hd'
    · cases heq
  | member t b n =>
    simp only [Expr.takes, Option.bind_eq_bind, Option.bind_eq_some_iff, Option.pure_def,
      Option.some.injEq, Prod.mk.injEq] at hu
    obtain ⟨T, hT, d, hd, u, hu, rfl, rfl⟩ := hu
    cases T <;> cases hd
    exact ⟨get?_types_member hids he hT hu, (p.made_types (.inl trivial) hT).1⟩
  | _ => cases hu

/-- A member or signature has the type that its declaration has, in the declaration's own scope,
where every name in that type stands for the same thing as at the use. -/
theorem type_taken (hids : p.NodesApart) {e : Expr} (he : (sc, .expr e) ∈ p.places) {d : Decl}
    {u : Taken} (hu : e.takes p.check = some (d, u)) :
    p.check.types.get? e.id = some (sc.taken u) ∧ (∃ sd, (sd, .enter d) ∈ p.places) ∧
      ∀ sd, (sd, .enter d) ∈ p.places → (∀ n ∈ u.names, sc.Agree (d.within sd) n) →
        p.check.types.get? e.id = some ((d.within sd).taken u) := by
  obtain ⟨htype, hd⟩ := get?_types_of_takes hids he hu
  refine ⟨htype, exists_place (mem_allDecls.1 hd), fun sd _ hagree => ?_⟩
  rw [htype, Scopes.taken_congr u hagree]

end Program

namespace Signatures

def header : Decl := .header ⟨⟨0⟩, "T", none⟩ [⟨.bits 8 false, "f"⟩]

def struct : Decl := .struct ⟨⟨1⟩, "S", none⟩ [⟨.named "T", "x"⟩]

def params : List Param :=
  [⟨⟨3⟩, "a", .input, .named "T", none⟩, ⟨⟨4⟩, "b", .inout, .named "S", none⟩]

def generic : Decl := .externFn ⟨⟨2⟩, "g", none⟩ ⟨.void, "g", ["T"], params, none⟩

def argument : Param := ⟨⟨6⟩, "s", .inout, .named "S", none⟩

def captured : Program := ⟨[header, struct, generic,
  .control ⟨⟨5⟩, "c", none⟩ ["T"] [argument] [] []
    (.mk ⟨7⟩ [
      .call ⟨⟨8⟩, none⟩ (.call ⟨⟨9⟩, none⟩ (.path ⟨⟨10⟩, none⟩ "g") []
        [.lit ⟨⟨11⟩, none⟩ 1 (.bits 8 false), .path ⟨⟨12⟩, none⟩ "s"]),
      .assign ⟨⟨13⟩, none⟩
        (.member ⟨⟨14⟩, none⟩ (.member ⟨⟨15⟩, none⟩ (.path ⟨⟨16⟩, none⟩ "s") "x") "f")
        (.lit ⟨⟨17⟩, none⟩ 1 (.bits 8 false))])]⟩

def inside : Scopes := ((captured.top.enterControl ["T"] [argument] []).declares []).push

theorem type_taken_generic :
    captured.NodesApart ∧ (inside, .expr (.path ⟨⟨10⟩, none⟩ "g")) ∈ captured.places ∧
      (Expr.path ⟨⟨10⟩, none⟩ "g").takes captured.check =
        some (generic, .signature ["T"] params .void) ∧
      (captured.top, .enter generic) ∈ captured.places ∧
      (∀ n ∈ (Taken.signature ["T"] params .void).names,
        inside.Agree (generic.within captured.top) n) ∧
      captured.check.types.get? ⟨10⟩ =
        some ((generic.within captured.top).taken (.signature ["T"] params .void)) := by
  have hids : captured.NodesApart := by decide
  have huse : (inside, .expr (.path ⟨⟨10⟩, none⟩ "g")) ∈ captured.places :=
    List.mem_of_getElem? (i := 10) rfl
  have htakes : (Expr.path ⟨⟨10⟩, none⟩ "g").takes captured.check =
      some (generic, .signature ["T"] params .void) := by decide +kernel
  have hdecl : (captured.top, .enter generic) ∈ captured.places :=
    List.mem_of_getElem? (i := 4) rfl
  have hagree : ∀ n ∈ (Taken.signature ["T"] params .void).names,
      inside.Agree (generic.within captured.top) n := fun n hn => by
    obtain rfl : n = "S" := List.mem_singleton.1 hn
    exact ⟨rfl, fun _ => rfl⟩
  have htaken := (Program.type_taken hids huse htakes).2.2 captured.top hdecl hagree
  exact ⟨hids, huse, htakes, hdecl, hagree, htaken⟩

/-- The field is a header by its declaration, and a type parameter where it is read. -/
theorem field_type_hidden :
    captured.ids.Nodup ∧ (captured.top, .enter struct) ∈ captured.places ∧
      (inside, .expr (.member ⟨⟨15⟩, none⟩ (.path ⟨⟨16⟩, none⟩ "s") "x")) ∈ captured.places ∧
      (Expr.member ⟨⟨15⟩, none⟩ (.path ⟨⟨16⟩, none⟩ "s") "x").takes captured.check =
        some (struct, .field (.named "T")) ∧
      (struct.within captured.top).taken (.field (.named "T")) = .decl header [] ∧
      captured.check.types.get? ⟨15⟩ = some (.param "T") :=
  ⟨by decide, List.mem_of_getElem? (i := 2) rfl, List.mem_of_getElem? (i := 15) rfl,
    by decide +kernel, by decide +kernel, by decide +kernel⟩

end Signatures

end MatchAction
