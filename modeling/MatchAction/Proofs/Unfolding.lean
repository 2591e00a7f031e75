import Mathlib.Data.List.Forall2
import Mathlib.Logic.Relation
import MatchAction.Proofs.Equality
import MatchAction.Proofs.Passes

namespace MatchAction

open List Relation

namespace Elaboration

inductive Site
  | declared (head : Head) (args : List Expr)
  | constructed (name : String) (tag : Tag) (type : TypeExpr) (args : List Expr)

namespace Site

def name : Site → String
  | .declared h _ => h.name
  | .constructed n _ _ _ => n

def args : Site → List Expr
  | .declared _ as | .constructed _ _ _ as => as

def type? (refs : Refs) : Site → Option Decl
  | .declared h _ => refs.decl? h.id
  | .constructed _ t _ _ => refs.decl? t.id

def ofDecl? : Decl → Option Site
  | .inst h _ as => some (.declared h as)
  | _ => none

def ofArgument? (refs : Refs) (name : String) : Expr → Option Site
  | .construct t ty as => some (.constructed name t ty as)
  | .path t _ => (refs.decl? t.id).bind ofDecl?
  | _ => none

def arguments (refs : Refs) (d : Decl) (as : List Expr) : List Site :=
  as.zipIdx.filterMap fun (e, i) =>
    ofArgument? refs (((parameterNames d)[i]?).getD ("arg" ++ toString i)) e

def locals : Decl → List Site
  | .control _ _ _ _ ls _ => ls.filterMap ofDecl?
  | _ => []

def Leads (refs : Refs) (s s' : Site) : Prop :=
  ∃ d, s.type? refs = some d ∧ s' ∈ arguments refs d s.args ++ locals d

end Site

/-- The instance made at a site and, recursively, all those that the site leads to. -/
inductive Unfolds (refs : Refs) : Site → Instance → Prop
  | mk {s : Site} {d : Decl} {k : InstanceKind} {as ls : List Instance}
    (type : s.type? refs = some d) (kind : InstanceKind.ofDecl? d = some k)
    (arguments : Forall₂ (Unfolds refs) (Site.arguments refs d s.args) as)
    (locals : Forall₂ (Unfolds refs) (Site.locals d) ls) : Unfolds refs s (.mk s.name k d as ls)

def Site.Comes (refs : Refs) (s : Site) (P : NodeId → Prop) : Prop :=
  ∃ s' d, ReflTransGen (Leads refs) s s' ∧ s'.type? refs = some d ∧ P d.id

def Site.Recurs (refs : Refs) (s : Site) : Prop :=
  ∃ s₁ s₂ d₁ d₂, ReflTransGen (Leads refs) s s₁ ∧ TransGen (Leads refs) s₁ s₂ ∧
    s₁.type? refs = some d₁ ∧ s₂.type? refs = some d₂ ∧ d₂.id = d₁.id

def Site.Sound (refs : Refs) (s : Site) : Prop :=
  ∀ s', ReflTransGen (Leads refs) s s' → ∃ d, s'.type? refs = some d ∧
    (InstanceKind.ofDecl? d).isSome

variable {refs : Refs} {types : Types}

def Site.make (refs : Refs) (types : Types) (build : Builder) :
    Site → Except ElaborationError (Option Instance)
  | .declared h as => Elaboration.declared refs build (.inst h .void as)
  | .constructed n t ty as => argument refs types build n (.construct t ty as)

theorem Site.make_cases (types : Types) (s : Site) :
    (∃ d, s.type? refs = some d ∧
      ∀ build, s.make refs types build = some <$> build s.name d s.args) ∨
    (∀ d ∈ s.type? refs, InstanceKind.ofDecl? d = none) ∧
      ∃ r, (∀ build, s.make refs types build = r) ∧ ∀ e, r = .error e →
        ∃ c, e = .classification c := by
  cases s with
  | declared h as =>
    cases hd : refs.decl? h.id with
    | some d => exact .inl ⟨d, hd, fun build => by simp only [make, Elaboration.declared, hd]; rfl⟩
    | none =>
      refine .inr ⟨fun d hd' => ?_, .ok none, fun build => ?_, fun e he => ?_⟩
      · cases hd.symm.trans hd'
      · simp only [make, Elaboration.declared, hd]
        rfl
      · cases he
  | constructed n t ty as =>
    cases hc : Construction.classify refs types (.construct t ty as) with
    | error e =>
      refine .inr ⟨fun d hd => ?_, .error (.classification e), fun build => ?_, fun e' he => ?_⟩
      · have hd : refs.decl? t.id = some d := hd
        simp only [Construction.classify, hd] at hc
        cases d with
        | externType | control | package => cases hc
        | _ => rfl
      · simp only [make, argument, hc]
      · cases he
        exact ⟨e, rfl⟩
    | ok c =>
      refine .inl ⟨c.target, ?_, fun build => by simp only [make, argument, hc]; rfl⟩
      simp only [Construction.classify] at hc
      split at hc
      · rename_i d hd
        split at hc <;> cases hc <;> exact hd
      · cases hc

def gather (refs : Refs) (types : Types) (build : Builder) :
    List Site → Except ElaborationError (List Instance)
  | [] => .ok []
  | s :: ss => do
    let i ← s.make refs types build
    return i.toList ++ (← gather refs types build ss)

theorem gather_filterMap_cons {α : Type} (build : Builder) (f : α → Option Site) (a : α)
    (l : List α) : gather refs types build ((a :: l).filterMap f) = do
      let i ← (f a).elim (.ok none) (·.make refs types build)
      return i.toList ++ (← gather refs types build (l.filterMap f)) := by
  rw [filterMap_cons]
  cases f a with
  | some s => rfl
  | none => exact (bind_pure (gather refs types build (l.filterMap f))).symm

theorem declared_eq_make (types : Types) (build : Builder) (d : Decl) :
    declared refs build d = (Site.ofDecl? d).elim (.ok none) (·.make refs types build) := by
  cases d <;> rfl

theorem declareds_eq_gather (types : Types) (build : Builder) (ds : List Decl) :
    declareds refs build ds = gather refs types build (ds.filterMap Site.ofDecl?) := by
  induction ds with
  | nil => rfl
  | cons d ds ih => rw [declareds, ih, declared_eq_make types, gather_filterMap_cons]

theorem argument_eq_make (build : Builder) (name : String) (e : Expr) :
    argument refs types build name e =
      (Site.ofArgument? refs name e).elim (.ok none) (·.make refs types build) := by
  cases e with
  | path t n =>
    simp only [argument, Site.ofArgument?]
    cases refs.decl? t.id with
    | none => rfl
    | some d => exact declared_eq_make types build d
  | _ => rfl

theorem arguments_eq_gather (build : Builder) (d : Decl) (as : List Expr) :
    arguments refs types build (parameterNames d) 0 as =
      gather refs types build (Site.arguments refs d as) := by
  rw [Site.arguments]
  generalize 0 = i
  induction as generalizing i with
  | nil => rfl
  | cons e as ih => rw [arguments, ih, argument_eq_make, zipIdx_cons, gather_filterMap_cons]

theorem locals_eq_gather (types : Types) (build : Builder) (d : Decl) :
    locals refs build d = gather refs types build (Site.locals d) := by
  cases d with
  | control => exact declareds_eq_gather types build _
  | _ => rfl

theorem build_succ (n : Nat) (above : List NodeId) (name : String) (d : Decl) (as : List Expr) :
    build refs types (n + 1) above name d as = match InstanceKind.ofDecl? d with
      | none => .error (.notInstantiable name d.name)
      | some k => if d.id ∈ above then .error (.selfInstantiation d.name) else do
        let inner := build refs types n (d.id :: above)
        let is ← gather refs types inner (Site.arguments refs d as)
        let ls ← gather refs types inner (Site.locals d)
        return .mk name k d is ls := by
  rw [build]
  cases InstanceKind.ofDecl? d with
  | none => rfl
  | some k =>
    simp only [arguments_eq_gather, locals_eq_gather types]
    by_cases h : d.id ∈ above
    · simp [h]
      rfl
    · simp [h]

section

variable {build₁ build₂ : Builder} {ss : List Site}

theorem gather_congr (h : ∀ s ∈ ss, ∀ d, s.type? refs = some d →
    build₁ s.name d s.args = build₂ s.name d s.args) :
    gather refs types build₁ ss = gather refs types build₂ ss := by
  induction ss with
  | nil => rfl
  | cons s ss ih =>
    have hmake : s.make refs types build₁ = s.make refs types build₂ := by
      rcases s.make_cases types with ⟨d, hd, hmake⟩ | ⟨-, r, hmake, -⟩
      · rw [hmake, hmake, h s (.head _) d hd]
      · rw [hmake, hmake]
    rw [gather, gather, hmake, ih fun s' hs' => h s' (.tail _ hs')]

theorem error_of_bind {ε α β : Type} {x : Except ε α} {f : α → Except ε β} {e : ε}
    (h : x >>= f = .error e) : x = .error e ∨ ∃ a, x = .ok a ∧ f a = .error e := by
  cases x with
  | error e' =>
    cases h
    exact .inl rfl
  | ok a => exact .inr ⟨a, rfl, h⟩

theorem exists_of_gather_error {e : ElaborationError} (he : ∀ c, e ≠ .classification c)
    (h : gather refs types build₁ ss = .error e) :
    ∃ s ∈ ss, ∃ d, s.type? refs = some d ∧ build₁ s.name d s.args = .error e := by
  induction ss with
  | nil => cases h
  | cons s ss ih =>
    rcases error_of_bind h with h | ⟨i, -, h⟩
    · rcases s.make_cases types with ⟨d, hd, hmake⟩ | ⟨-, r, hmake, hr⟩
      · rw [hmake] at h
        cases hb : build₁ s.name d s.args with
        | ok i => rw [hb] at h; cases h
        | error e => rw [hb] at h; cases h; exact ⟨s, .head _, d, hd, hb⟩
      · obtain ⟨c, hc⟩ := hr e ((hmake build₁).symm.trans h)
        exact absurd hc (he c)
    · rcases error_of_bind h with h | ⟨is, -, h⟩
      · obtain ⟨s', hs', h⟩ := ih h
        exact ⟨s', .tail _ hs', h⟩
      · cases h

theorem gather_of_forall (types : Types) {U : Site → Instance → Prop}
    (h : ∀ s ∈ ss, ∃ d i, s.type? refs = some d ∧
    (InstanceKind.ofDecl? d).isSome ∧ build₁ s.name d s.args = .ok i ∧ U s i) :
    ∃ is, gather refs types build₁ ss = .ok is ∧ Forall₂ U ss is := by
  induction ss with
  | nil => exact ⟨[], rfl, .nil⟩
  | cons s ss ih =>
    obtain ⟨d, i, hd, hk, hi, hU⟩ := h s (.head _)
    obtain ⟨is, his, hUs⟩ := ih fun s' hs' => h s' (.tail _ hs')
    refine ⟨i :: is, ?_, .cons hU hUs⟩
    rcases s.make_cases types with ⟨d', hd', hmake⟩ | ⟨hnone, -⟩
    · obtain rfl : d = d' := Option.some.inj (hd.symm.trans hd')
      rw [gather, hmake, hi, his]
      rfl
    · rw [hnone d hd] at hk
      cases hk

end

/-- The types above differ and are targets of references, and more targets are left than may be met
below. -/
structure Room (refs : Refs) (n : Nat) (above : List NodeId) : Prop where
  nodup : above.Nodup
  known : above ⊆ refs.targets.entries.map (·.2.id)
  room : refs.targets.entries.length < n + above.length

theorem Site.known {s : Site} {d : Decl} (h : s.type? refs = some d) :
    d.id ∈ refs.targets.entries.map (·.2.id) := by
  have hknown {i : NodeId} (h : refs.decl? i = some d) :
      d.id ∈ refs.targets.entries.map (·.2.id) := by
    obtain ⟨r, hr, hd⟩ := Option.bind_eq_some_iff.1 h
    obtain ⟨l₁, l₂, hl, -⟩ := lookup_eq_some_iff.1 hr
    cases r with
    | param => cases hd
    | decl => cases hd; exact mem_map.2 ⟨_, hl ▸ mem_append_right _ (.head _), rfl⟩
  cases s <;> exact hknown h

namespace Room

variable {n : Nat} {above : List NodeId}

theorem nil (h : refs.targets.entries.length < n) : Room refs n [] := ⟨nodup_nil, nil_subset _, h⟩

theorem not_zero (h : Room refs 0 above) : False := by
  have hlen := h.nodup.length_le_of_subset h.known
  have hroom := h.room
  rw [length_map] at hlen
  omega

theorem below {d : Decl} (h : Room refs (n + 1) above) (hd : d.id ∉ above)
    (hknown : d.id ∈ refs.targets.entries.map (·.2.id)) : Room refs n (d.id :: above) where
  nodup := nodup_cons.2 ⟨hd, h.nodup⟩
  known := cons_subset.2 ⟨hknown, h.known⟩
  room := by
    have hroom := h.room
    rw [length_cons]
    omega

end Room

theorem build_of_room (types : Types) {n m : Nat} {above : List NodeId} {name : String} {d : Decl}
    {as : List Expr} (hn : Room refs n above) (hm : Room refs m above)
    (hd : d.id ∈ refs.targets.entries.map (·.2.id)) :
    build refs types n above name d as = build refs types m above name d as := by
  induction n generalizing m above name d as with
  | zero => exact hn.not_zero.elim
  | succ n ih =>
    cases m with
    | zero => exact hm.not_zero.elim
    | succ m =>
      rw [build_succ, build_succ]
      by_cases h : d.id ∈ above
      · simp only [if_pos h]
      · have hinner (ss : List Site) : gather refs types (build refs types n (d.id :: above)) ss =
            gather refs types (build refs types m (d.id :: above)) ss :=
          gather_congr fun s _ d' hd' => ih (hn.below h hd) (hm.below h hd) (Site.known hd')
        simp only [if_neg h, hinner]

variable {n : Nat} {above : List NodeId} {s : Site} {d : Decl}

/-- An error that is not found at a site itself is found at one that it leads to. -/
theorem error_of_build {e : ElaborationError} (he : ∀ c, e ≠ .classification c)
    (hd : s.type? refs = some d) (h : build refs types (n + 1) above s.name d s.args = .error e) :
    e = .notInstantiable s.name d.name ∨ e = .selfInstantiation d.name ∧ d.id ∈ above ∨
      d.id ∉ above ∧ ∃ s' d', s.Leads refs s' ∧ s'.type? refs = some d' ∧
        build refs types n (d.id :: above) s'.name d' s'.args = .error e := by
  rw [build_succ] at h
  split at h
  · cases h
    exact .inl rfl
  · split at h
    · rename_i hmem
      cases h
      exact .inr (.inl ⟨rfl, hmem⟩)
    · rename_i hmem
      refine .inr (.inr ⟨hmem, ?_⟩)
      rcases error_of_bind h with h | ⟨as, -, h⟩
      · obtain ⟨s', hs', d', hd', h⟩ := exists_of_gather_error he h
        exact ⟨s', d', ⟨d, hd, mem_append_left _ hs'⟩, hd', h⟩
      · rcases error_of_bind h with h | ⟨ls, -, h⟩
        · obtain ⟨s', hs', d', hd', h⟩ := exists_of_gather_error he h
          exact ⟨s', d', ⟨d, hd, mem_append_right _ hs'⟩, hd', h⟩
        · cases h

theorem not_tooDeep_of_build {x : String} (hn : Room refs n above) (hd : s.type? refs = some d) :
    build refs types n above s.name d s.args ≠ .error (.tooDeep x) := by
  intro h
  induction n generalizing above s d with
  | zero => exact hn.not_zero
  | succ n ih =>
    rcases error_of_build (fun _ he => by cases he) hd h with he | ⟨he, -⟩ | ⟨hmem, s',
      d', -, hd', h⟩
    · cases he
    · cases he
    · exact ih (hn.below hmem (Site.known hd)) hd' h

theorem recurs_of_build {x : String} (hn : Room refs n above) (hd : s.type? refs = some d)
    (h : build refs types n above s.name d s.args = .error (.selfInstantiation x)) :
    s.Comes refs (· ∈ above) ∨ s.Recurs refs := by
  induction n generalizing above s d with
  | zero => exact hn.not_zero.elim
  | succ n ih =>
    rcases error_of_build (fun _ he => by cases he) hd h with he | ⟨-, hmem⟩ | ⟨hmem, s', d',
      hlead, hd', h⟩
    · cases he
    · exact .inl ⟨s, d, .refl, hd, hmem⟩
    · rcases ih (hn.below hmem (Site.known hd)) hd' h with ⟨s₂, d₂, hch, hd₂, hid⟩ |
        ⟨s₁, s₂, d₁, d₂, hch, hrest⟩
      · rcases mem_cons.1 hid with hid | hid
        · exact .inr ⟨s, s₂, d, d₂, .refl, .head' hlead hch, hd, hd₂, hid⟩
        · exact .inl ⟨s₂, d₂, .head hlead hch, hd₂, hid⟩
      · exact .inr ⟨s₁, s₂, d₁, d₂, .head hlead hch, hrest⟩

theorem unfolds_build (types : Types) (hn : Room refs n above) (hd : s.type? refs = some d)
    (hc : ¬s.Comes refs (· ∈ above)) (hr : ¬s.Recurs refs) (hs : s.Sound refs) :
    ∃ i, build refs types n above s.name d s.args = .ok i ∧ Unfolds refs s i := by
  induction n generalizing above s d with
  | zero => exact hn.not_zero.elim
  | succ n ih =>
    have hmem : d.id ∉ above := fun h => hc ⟨s, d, .refl, hd, h⟩
    have hbelow : ∀ s' ∈ Site.arguments refs d s.args ++ Site.locals d, ∃ d' i,
        s'.type? refs = some d' ∧ (InstanceKind.ofDecl? d').isSome ∧
          build refs types n (d.id :: above) s'.name d' s'.args = .ok i ∧ Unfolds refs s' i := by
      intro s' hs'
      have hlead : s.Leads refs s' := ⟨d, hd, hs'⟩
      obtain ⟨d', hd', hk⟩ := hs s' (.single hlead)
      have hc' : ¬s'.Comes refs (· ∈ d.id :: above) := by
        rintro ⟨s₂, d₂, hch, hd₂, hid⟩
        rcases mem_cons.1 hid with hid | hid
        · exact hr ⟨s, s₂, d, d₂, .refl, .head' hlead hch, hd, hd₂, hid⟩
        · exact hc ⟨s₂, d₂, .head hlead hch, hd₂, hid⟩
      have hr' : ¬s'.Recurs refs := fun ⟨s₁, s₂, d₁, d₂, hch, hrest⟩ =>
        hr ⟨s₁, s₂, d₁, d₂, .head hlead hch, hrest⟩
      obtain ⟨i, hi, hu⟩ := ih (hn.below hmem (Site.known hd)) hd' hc' hr'
        fun s₂ hch => hs s₂ (.head hlead hch)
      exact ⟨d', i, hd', hk, hi, hu⟩
    obtain ⟨k, hk⟩ : ∃ k, InstanceKind.ofDecl? d = some k := by
      obtain ⟨d', hd', hk⟩ := hs s .refl
      obtain rfl : d = d' := Option.some.inj (hd.symm.trans hd')
      exact Option.isSome_iff_exists.1 hk
    obtain ⟨as, has, huas⟩ := gather_of_forall types fun s' hs' => hbelow s' (mem_append_left _ hs')
    obtain ⟨ls, hls, huls⟩ := gather_of_forall types fun s' hs' =>
      hbelow s' (mem_append_right _ hs')
    refine ⟨.mk s.name k d as ls, ?_, .mk hd hk huas huls⟩
    simp only [build_succ, hk, if_neg hmem, has, hls]
    rfl

end Elaboration

open Elaboration

def Program.sites (p : Program) : List Site := p.decls.filterMap Site.ofDecl?

theorem Failure.selfInstantiation_of_message {e : ElaborationError} {pass t : String}
    (h : ofElaboration pass e = .internal pass ("`" ++ t ++ "` instantiates itself")) :
    ∃ x, e = .selfInstantiation x := by
  cases e with
  | classification => cases h
  | notInstantiable name type =>
    have hlast := congrArg (·.toList.getLast?) (Failure.internal.inj h).2
    simp only [String.toList_append, getLast?_append] at hlast
    cases hlast
  | selfInstantiation x => exact ⟨x, rfl⟩
  | tooDeep x =>
    have hlast := congrArg (·.toList.getLast?) (Failure.internal.inj h).2
    simp only [String.toList_append, getLast?_append] at hlast
    cases hlast

namespace Program

variable {refs : Refs} (types : Types) (p : Program)

theorem elaborate_eq_gather {n : Nat} (hn : refs.targets.entries.length < n) :
    p.elaborate refs types =
      (gather refs types (Elaboration.build refs types n []) p.sites).map (⟨p, ·⟩) := by
  rw [elaborate, declareds_eq_gather types, ← sites, gather_congr
    fun s _ d hd => build_of_room types
    (Room.nil (Nat.lt_succ_self _)) (Room.nil hn) (Site.known hd)]
  rfl

theorem site_of_elaborate {e : ElaborationError} (he : ∀ c, e ≠ .classification c)
    (h : p.elaborate refs types = .error e) : ∃ s ∈ p.sites, ∃ d, s.type? refs = some d ∧
      Elaboration.build refs types (refs.targets.entries.length + 1) [] s.name d s.args =
        .error e := by
  rw [p.elaborate_eq_gather types (Nat.lt_succ_self _)] at h
  cases hg : gather refs types (Elaboration.build refs types (refs.targets.entries.length + 1) [])
      p.sites with
  | ok is =>
    rw [hg] at h
    cases h
  | error e' =>
    rw [hg] at h
    cases h
    exact exists_of_gather_error he hg

theorem not_tooDeep_of_elaborate (x : String) : p.elaborate refs types ≠ .error (.tooDeep x) := by
  intro h
  obtain ⟨s, -, d, hd, h⟩ := p.site_of_elaborate types (fun _ he => by cases he) h
  exact not_tooDeep_of_build (.nil (Nat.lt_succ_self _)) hd h

theorem recurs_of_elaborate {x : String}
    (h : p.elaborate refs types = .error (.selfInstantiation x)) :
      ∃ s ∈ p.sites, s.Recurs refs := by
  obtain ⟨s, hs, d, hd, h⟩ := p.site_of_elaborate types (fun _ he => by cases he) h
  refine ⟨s, hs, (recurs_of_build (.nil (Nat.lt_succ_self _)) hd h).resolve_left ?_⟩
  rintro ⟨_, _, _, _, hmem⟩
  cases hmem

theorem unfolds_elaborate (h : ∀ s ∈ p.sites, ¬s.Recurs refs ∧ s.Sound refs) :
    ∃ is, p.elaborate refs types = .ok ⟨p, is⟩ ∧ Forall₂ (Unfolds refs) p.sites is := by
  have hsites : ∀ s ∈ p.sites, ∃ d i, s.type? refs = some d ∧ (InstanceKind.ofDecl? d).isSome ∧
      Elaboration.build refs types (refs.targets.entries.length + 1) [] s.name d s.args = .ok i ∧
        Unfolds refs s i := by
    intro s hs
    obtain ⟨d, hd, hk⟩ := (h s hs).2 s .refl
    have hnil : ¬s.Comes refs (· ∈ []) := by
      rintro ⟨_, _, _, _, hmem⟩
      cases hmem
    obtain ⟨i, hi, hu⟩ :=
      unfolds_build types (.nil (Nat.lt_succ_self _)) hd hnil (h s hs).1 (h s hs).2
    exact ⟨d, i, hd, hk, hi, hu⟩
  obtain ⟨is, his, hu⟩ := gather_of_forall types hsites
  refine ⟨is, ?_, hu⟩
  rw [p.elaborate_eq_gather types (Nat.lt_succ_self _), his]
  rfl

end Program

/-- Elaboration with the tables at a boundary. However much deeper it may go than there are targets
of references, the outcome is the same, and the bound on the depth is never met. It edits nothing
and leaves the tables as they are. It fails as a self-instantiation only if some chain of
instantiations from the toplevel recurs. If none does, and if all that the chains come to can be
instantiated, then it succeeds, and the instances are the unfolding of the toplevel ones. -/
theorem Pass.evaluator_unfolds (b : Boundary) :
    let refs := b.context.refs
    let types := b.context.types
    (∀ n, refs.targets.entries.length < n →
      declareds refs (Elaboration.build refs types n []) b.program.decls =
        (b.program.elaborate refs types).map (·.instances)) ∧
    (∀ x, b.program.elaborate refs types ≠ .error (.tooDeep x)) ∧
    (∀ x c n, evaluator.runAt b = ((x, c), n) →
      c.refs = refs ∧ c.types = types ∧ c.stale = b.context.stale ∧ ∀ e, x = .ok e → e = .keep) ∧
    (∀ t, (evaluator.runAt b).1.1 =
        .error (.internal "Evaluator" ("`" ++ t ++ "` instantiates itself")) →
      ∃ s ∈ b.program.sites, s.Recurs refs) ∧
    ((∀ s ∈ b.program.sites, ¬s.Recurs refs ∧ s.Sound refs) →
      ∃ is, evaluator.runAt b =
          ((.ok .keep, { b.context with toplevel := some ⟨b.program, is⟩ }), b.supply) ∧
        Forall₂ (Unfolds refs) b.program.sites is) := by
  intro refs types
  refine ⟨fun n hn => ?_, b.program.not_tooDeep_of_elaborate types, fun x c n hrun => ?_,
    fun t hrun => ?_, fun hsites => ?_⟩
  · rw [declareds_eq_gather types, Program.elaborate_eq_gather types _ hn, Program.sites]
    cases gather refs types _ (b.program.decls.filterMap Site.ofDecl?) <;> rfl
  · rw [runAt_evaluator] at hrun
    split at hrun <;> cases hrun
    · exact ⟨rfl, rfl, rfl, fun e he => (Except.ok.inj he).symm⟩
    · exact ⟨rfl, rfl, rfl, fun e he => by cases he⟩
  · rw [runAt_evaluator] at hrun
    split at hrun
    · cases hrun
    · rename_i e he
      obtain ⟨x, rfl⟩ := Failure.selfInstantiation_of_message (Except.error.inj hrun)
      exact b.program.recurs_of_elaborate types he
  · obtain ⟨is, his, hu⟩ := b.program.unfolds_elaborate types hsites
    exact ⟨is, by rw [runAt_evaluator, his], hu⟩

namespace Evaluation

/-- Control `c` holds an instance of a control that is given. -/
def holding (type : String) : Boundary :=
  let p : Program := ⟨[
    .control ⟨⟨0⟩, "leaf", none⟩ [] [] [] [] (.mk ⟨1⟩ []),
    .control ⟨⟨2⟩, "c", none⟩ [] [] [] [.inst ⟨⟨3⟩, "x", none⟩ (.named type) []] (.mk ⟨4⟩ []),
    .inst ⟨⟨5⟩, "main", none⟩ (.named "c") []]⟩
  ⟨p, (Context.new .empty .standard).refresh p, 6⟩

def main : Site := .declared ⟨⟨5⟩, "main", none⟩ []

def held : Site := .declared ⟨⟨3⟩, "x", none⟩ []

variable {s : Site}

theorem type_main : main.type? (holding "leaf").context.refs =
    (holding "leaf").program.decls[1]? := by
  decide +kernel

theorem type_held : held.type? (holding "leaf").context.refs =
    (holding "leaf").program.decls[0]? := by
  decide +kernel

theorem leads_main (h : main.Leads (holding "leaf").context.refs s) : s = held := by
  obtain ⟨d, hd, hs⟩ := h
  rw [type_main] at hd
  cases hd
  exact mem_singleton.1 hs

theorem not_leads_held : ¬ held.Leads (holding "leaf").context.refs s := by
  rintro ⟨d, hd, hs⟩
  rw [type_held] at hd
  cases hd
  cases hs

theorem not_recurs_main : ¬ main.Recurs (holding "leaf").context.refs := by
  rintro ⟨s₁, s₂, d₁, d₂, hch, hround, hd₁, hd₂, hid⟩
  rcases hch.cases_head with rfl | ⟨s', hlead, hch⟩
  · obtain ⟨s', hlead, hch⟩ := TransGen.head'_iff.1 hround
    cases leads_main hlead
    rcases hch.cases_head with rfl | ⟨s', hlead, -⟩
    · rw [type_main] at hd₁
      rw [type_held] at hd₂
      cases hd₁
      cases hd₂
      exact absurd hid (by decide)
    · exact not_leads_held hlead
  · cases leads_main hlead
    rcases hch.cases_head with rfl | ⟨s', hlead, -⟩
    · obtain ⟨s', hlead, -⟩ := TransGen.head'_iff.1 hround
      exact not_leads_held hlead
    · exact not_leads_held hlead

theorem sound_main : main.Sound (holding "leaf").context.refs := by
  intro s hch
  rcases hch.cases_head with rfl | ⟨s', hlead, hch⟩
  · exact ⟨_, type_main, rfl⟩
  · cases leads_main hlead
    rcases hch.cases_head with rfl | ⟨s', hlead, -⟩
    · exact ⟨_, type_held, rfl⟩
    · exact absurd hlead not_leads_held

theorem evaluator_unfolds_holding :
    ((∀ s ∈ (holding "leaf").program.sites, ¬s.Recurs (holding "leaf").context.refs ∧
        s.Sound (holding "leaf").context.refs) ∧
      ∃ is, (Pass.evaluator.runAt (holding "leaf")).1.1 = .ok .keep ∧
        Forall₂ (Unfolds (holding "leaf").context.refs) [main] is) ∧
    (Pass.evaluator.runAt (holding "c")).1.1 =
      .error (.internal "Evaluator" "`c` instantiates itself") ∧
      ∃ s ∈ (holding "c").program.sites, s.Recurs (holding "c").context.refs := by
  have hsites : ∀ s ∈ (holding "leaf").program.sites, ¬s.Recurs (holding "leaf").context.refs ∧
      s.Sound (holding "leaf").context.refs :=
    forall_mem_singleton.2 ⟨not_recurs_main, sound_main⟩
  obtain ⟨-, -, -, -, hunfolds⟩ := Pass.evaluator_unfolds (holding "leaf")
  obtain ⟨-, -, -, hself, -⟩ := Pass.evaluator_unfolds (holding "c")
  obtain ⟨is, hrun, his⟩ := hunfolds hsites
  have herr : (Pass.evaluator.runAt (holding "c")).1.1 =
      .error (.internal "Evaluator" ("`" ++ "c" ++ "` instantiates itself")) := by decide +kernel
  exact ⟨⟨hsites, is, by rw [hrun], his⟩, herr, hself "c" herr⟩

end Evaluation

end MatchAction
