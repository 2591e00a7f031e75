import MatchAction.Proofs.Equality
import MatchAction.Proofs.Relocation
import MatchAction.Proofs.UniqueNames

namespace MatchAction

open List

open Hoist

/-! The nodes of the output tell what has become of a declaration. -/

open Classical in
noncomputable def Versions.among (vs : List Visit) : Versions where
  decl d := if h : ∃ d', .enter d' ∈ vs ∧ d.Alike d' then h.choose else d
  alike d := by
    split
    · rename_i h
      exact h.choose_spec.2
    · exact .refl d
  path := Spelling.same.use

theorem Versions.covers_among (h : (nodeIds vs).Nodup) : (among vs).Covers vs := by
  intro d d' hd' halike
  have hex : ∃ d', .enter d' ∈ vs ∧ d.Alike d' := ⟨d', hd', halike⟩
  obtain ⟨hmem, hchosen⟩ := hex.choose_spec
  have hid : some hex.choose.id = some d'.id := congrArg some (hchosen.id.trans halike.id.symm)
  have heq := eq_of_nodup_filterMap h hmem hd' hid rfl
  injection heq with heq
  exact (dif_pos hex).trans heq

/-! Bodies of a program whose declarations have names of their own. -/

theorem Decl.declsOf_visits (d : Decl) : declsOf d.visits = d :: d.innerDecls := by
  rw [d.visits_eq_cons, declsOf_enter]
  rfl

theorem Decl.innerDecls_action (h : Head) (ps : List Param) (b : Block) :
    (Decl.action h ps b).innerDecls = declsOf b.visits := by
  have hall := (Decl.action h ps b).declsOf_visits
  simp only [Decl.visits, declsOf_enter, declsOf_append, declsOf_leave, declsOf_nil,
    append_nil] at hall
  exact (List.cons.inj hall).2.symm

theorem Decl.innerDecls_control (h : Head) (tps : List String) (ps cps : List Param)
    (ls : List Decl) (b : Block) : (Decl.control h tps ps cps ls b).innerDecls =
      declsOf (Decl.allVisits ls) ++ declsOf b.visits := by
  have hall := (Decl.control h tps ps cps ls b).declsOf_visits
  simp only [Decl.visits, declsOf_enter, declsOf_append, declsOf_leave, declsOf_nil,
    append_nil] at hall
  exact (List.cons.inj hall).2.symm

variable {d : Decl} {b : Block}

theorem Decl.declsOf_body (h : d.body? = some b) :
    (declsOf b.visits).Sublist d.innerDecls := by
  cases d with
  | action h₀ ps b' =>
    cases h
    rw [Decl.innerDecls_action]
  | control h₀ tps ps cps ls b' =>
    cases h
    rw [Decl.innerDecls_control]
    exact sublist_append_right _ _
  | _ => cases h

theorem Decl.innerDecls_of_mem (h : d ∈ ds) :
    (d :: d.innerDecls).Sublist (declsOf (Decl.allVisits ds)) := by
  induction ds with
  | nil => cases h
  | cons e ds ih =>
    rw [Decl.allVisits, declsOf_append]
    rcases mem_cons.1 h with rfl | h
    · rw [d.declsOf_visits]
      exact sublist_append_left _ _
    · exact (ih h).trans (sublist_append_right _ _)

namespace Program

variable {p : Program}

theorem innerDecls_sublist (h : d ∈ p.decls) : d.innerDecls.Sublist p.innerDecls :=
  sublist_flatten_of_mem (mem_map_of_mem h)

theorem declsOf_body_sublist (hp : p.Orderly) (hd : .enter d ∈ p.visits)
    (hb : d.body? = some b) : (declsOf b.visits).Sublist p.innerDecls := by
  rcases hp.enter_cases hd with htop | ⟨h, tps, ps, cps, ls, b', hc, hl⟩ | hflaw
  · exact (d.declsOf_body hb).trans (innerDecls_sublist htop)
  · refine (d.declsOf_body hb).trans (((sublist_cons_self d _).trans ?_).trans
      (innerDecls_sublist hc))
    rw [Decl.innerDecls_control]
    exact (Decl.innerDecls_of_mem hl).trans (sublist_append_left _ _)
  · cases (Decl.body?_of_flaw hflaw).symm.trans hb

theorem tidy (hp : p.Orderly) (hblocks : DeclsInBlocks p.visits)
    (hnames : (p.innerDecls.map (·.name)).Nodup)
    (hd : .enter d ∈ p.visits) (hb : d.body? = some b) : Tidy b.visits := by
  have hin : b.visits ⊆ p.visits :=
    fun v hv => visits_subset_of_enter hd (Decl.visits_of_body? hb hv)
  exact ⟨hp.holds hin, fun v hv => hblocks v (hin hv),
    hnames.sublist ((declsOf_body_sublist hp hd hb).map _)⟩

theorem beside_start (p : Program) (V : Versions) (n₀ : Nat) :
    Beside p V n₀ [] .empty [] ⟨.empty, .empty, .empty, []⟩ ⟨.empty, .empty, .empty, []⟩ where
  names := ⟨rfl, nofun, nofun, nofun, nofun, fun _ _ => rfl⟩
  refs _ _ := rfl
  types := ⟨fun _ _ _ => rfl, fun _ _ => rfl⟩
  errors := rfl
  clear := clear_start p
  pending := nofun
  among := List.Subset.refl []
  nodup := .nil
  place hne := absurd rfl hne
  settled := nofun

/-- Moving the variables of a program leaves its check as it was: by the end, both have come across
the same errors, references and types. -/
theorem check_hoisted (S : Setting p V n₀) (hp : p.Orderly)
    (hV : V.Covers q.visits)
    (hto : List.Forall₂ (DeclTo A (p.decls.map (·.name)) n₀) p.decls q.decls)
    (htidy : ∀ e, .enter e ∈ p.visits → ∀ b, e.body? = some b → Tidy b.visits)
    (herr : p.check.errors = [])
    (hR : ((Check.program q).run ⟨.empty, .empty, .empty, []⟩).2.Agrees R) :
    Beside p V n₀ [] .empty [] ((Check.program p).run ⟨.empty, .empty, .empty, []⟩).2
      ((Check.program q).run ⟨.empty, .empty, .empty, []⟩).2 ∧
      List.Forall₂ (DeclTo (Refers R) (p.decls.map (·.name)) n₀) p.decls q.decls := by
  have htop := (beside_start p V n₀).ofDefineAll S hV hto (List.Subset.refl _) (List.Subset.refl _)
    ((Check.walks_decls p.decls).errors _ herr).1
  refine htop.ofDecls S hp hV hto (List.Sublist.refl _) (List.Subset.refl _) htidy ?_ herr hR
  rw [(Check.walks_defineAll p.decls).scopes]
  have hempty : Scopes.Within [] .empty := nofun
  have hall := hempty.declares p.decls
  rwa [append_nil] at hall

end Program

def Pinned (ps : List Param) (ss : List Stmt) : Prop :=
  ∀ h ty e, .enter (.var h ty e) ∈ Stmt.allVisits ss → h.name ∈ ps.map (·.name)

def Fronted (ps : List Param) (ss : List Stmt) : Prop := ∃ front rest, ss = front ++ rest ∧
  (∀ s ∈ front, ∃ t h ty, s = .decl t (.var h ty none)) ∧ Pinned ps rest

def Decl.Cleared : Decl → Prop
  | .action _ ps b => Fronted ps b.stmts
  | .control _ _ ps cps ls b => Pinned (ps ++ cps) b.stmts ∧
    ∀ h ps' b', .action h ps' b' ∈ ls → Fronted (ps' ++ (ps ++ cps)) b'.stmts
  | _ => True

namespace Hoist

variable {A : NodeId → Head → Prop} {T : List String} {n₀ : Nat}

variable {b' : Block}

theorem BlockTo.taken (hb : BlockTo A T n₀ b b')
    (hv : .enter (.var h ty e) ∈ Stmt.allVisits b'.stmts) :
    .var h ty e ∈ declsOf b.visits ∧ h.name ∈ T := by
  have hmem : .var h ty e ∈ declsOf b'.visits := by
    obtain ⟨i, ss⟩ := b'
    exact mem_declsOf.2 (.tail _ hv)
  rw [hb.declsOf_eq, left, mem_filter] at hmem
  exact ⟨hmem.1, by simpa [moves] using hmem.2⟩

theorem BlockTo.pinned (hb : BlockTo A T n₀ b b')
    (hT : ∀ d ∈ declsOf b.visits, d.name ∈ T → d.name ∈ ps.map (·.name)) : Pinned ps b'.stmts := by
  intro h ty e hv
  obtain ⟨hmem, htaken⟩ := hb.taken hv
  exact hT _ hmem htaken

theorem moves_frame (h : moves T d = true) : ∃ hd ty, d.frame = .var hd ty none := by
  cases d with
  | var hd ty e => exact ⟨hd, ty, rfl⟩
  | _ => cases h

theorem ActionTo.fronted
    (hto : ActionTo A T n₀ d (.action h ps b'))
    (hT : ∀ e ∈ d.innerDecls, e.name ∈ T → e.name ∈ qs.map (·.name)) :
      Fronted (ps ++ qs) b'.stmts := by
  cases hto with
  | @mk _ _ b b' hb front hfront =>
    refine ⟨front, b'.stmts, rfl, fun s hs => ?_, hb.pinned fun e he htaken => ?_⟩
    · obtain ⟨m, hm, t, -, rfl⟩ := exists_left_of_forall₂ hfront hs
      obtain ⟨hd, ty, hframe⟩ := moves_frame (mem_moved.1 hm).2
      exact ⟨t, hd, ty, hframe ▸ rfl⟩
    · rw [map_append, mem_append]
      exact (mem_append.1 htaken).imp_right (hT e (by rwa [Decl.innerDecls_action]))

theorem name_not_mem_locals (h : ((declsOf (Decl.allVisits ls)).map (·.name)).Nodup)
    (hl : l ∈ ls) (hd : d ∈ l.innerDecls) : d.name ∉ ls.map (·.name) := by
  induction ls with
  | nil => cases hl
  | cons l₀ ls ih =>
    have hsub (l : Decl) (hl : l ∈ ls) : l ∈ declsOf (Decl.allVisits ls) :=
      (Decl.innerDecls_of_mem hl).subset (.head _)
    rw [Decl.allVisits, declsOf_append, l₀.declsOf_visits, cons_append, map_cons,
      nodup_cons, map_append] at h
    obtain ⟨hfirst, hrest⟩ := h
    obtain ⟨-, hnodup, hdisjoint⟩ := List.nodup_append.1 hrest
    rw [map_cons, mem_cons, not_or]
    rcases mem_cons.1 hl with rfl | hl
    · refine ⟨fun he => hfirst (mem_append_left _ (he ▸ mem_map_of_mem hd)), fun hmem => ?_⟩
      obtain ⟨l', hl', he⟩ := mem_map.1 hmem
      exact hdisjoint _ (mem_map_of_mem hd) _ (mem_map_of_mem (hsub l' hl')) he.symm
    · have hin : d ∈ declsOf (Decl.allVisits ls) := (Decl.innerDecls_of_mem hl).subset (.tail _ hd)
      exact ⟨fun he => hfirst (mem_append_right _ (he ▸ mem_map_of_mem hin)), ih hnodup hl⟩

theorem DeclTo.cleared (hto : DeclTo A T n₀ d d')
    (hnames : (d.innerDecls.map (·.name)).Nodup) (hT : ∀ e ∈ d.innerDecls, e.name ∉ T) :
      d'.Cleared := by
  cases hto with
  | action h =>
    cases h with
    | mk h₀ ps hb hfront =>
      have hfronted : Fronted (ps ++ []) _ := (ActionTo.mk h₀ ps hb hfront).fronted
          fun e he htaken =>
        absurd htaken (hT e he)
      rwa [append_nil] at hfronted
  | @control h tps ps cps ls ls' b b' T' hT' hls hb =>
    rw [Decl.innerDecls_control] at hnames hT
    rw [map_append] at hnames
    obtain ⟨hlocals, -, hdisjoint⟩ := List.nodup_append.1 hnames
    have hsub (l : Decl) (hl : l ∈ ls) : l ∈ declsOf (Decl.allVisits ls) :=
      (Decl.innerDecls_of_mem hl).subset (.head _)
    have hparam (e : Decl) (he : e ∈ declsOf (Decl.allVisits ls) ++ declsOf b.visits)
        (hlocal : e.name ∉ ls.map (·.name)) (htaken : e.name ∈ T') :
        e.name ∈ (ps ++ cps).map (·.name) := by
      rw [hT', mem_append, mem_append] at htaken
      exact (htaken.resolve_right (hT e he)).resolve_left hlocal
    refine ⟨hb.pinned fun e he => hparam e (mem_append_right _ he) fun hmem => ?_, ?_⟩
    · obtain ⟨l, hl, heq⟩ := mem_map.1 hmem
      exact hdisjoint _ (mem_map_of_mem (hsub l hl)) _ (mem_map_of_mem he) heq
    · intro h' ps' b₁ hl'
      rcases mem_append.1 hl' with hl' | hframe
      · obtain ⟨l, hl, hone⟩ := exists_left_of_forall₂ hls hl'
        cases hone with
        | action hact =>
          exact hact.fronted fun e he => hparam e
            (mem_append_left _ ((Decl.innerDecls_of_mem hl).subset (.tail _ he)))
            (name_not_mem_locals hlocals hl he)
        | same hact => cases hact
      · obtain ⟨m, hm, heq⟩ := mem_map.1 hframe
        obtain ⟨hd, ty, hvar⟩ := moves_frame (mem_moved.1 hm).2
        cases hvar.symm.trans heq
  | same ha hc =>
    cases d with
    | action => cases ha
    | control => cases hc
    | _ => trivial

end Hoist

namespace Program

variable {p q : Program}

/-- Moving variables outward keeps a program well formed. If all declarations below the toplevel
have names of their own, what was free of errors stays so; every path refers to what it referred
to, and everything keeps its type; a variable that moves is assigned its initial value where it was
declared; and only variables that a parameter hides stay behind. -/
theorem hoistVariables_resolves {n : Nat} (hids : p.NodesApart) (hlt : ∀ i ∈ p.ids, i.val < n)
    (hp : p.Orderly) (hblocks : DeclsInBlocks p.visits) (hnames : (p.innerDecls.map (·.name)).Nodup)
    (htop : ∀ d ∈ p.innerDecls, d.name ∉ p.decls.map (·.name)) (herr : p.check.errors = [])
    (hq : (p.hoistVariables n).1.get p = q) :
    q.check.errors = [] ∧
    (∀ t m, .expr (.path t m) ∈ p.visits → ∃ r r', p.check.refs.get? t.id = some r ∧
      q.check.refs.get? t.id = some r' ∧ r'.id = r.id) ∧
    (∃ V : Versions, ∀ i ∈ p.ids, q.check.types.get? i = (p.check.types.get? i).map
      (Ty.over V.decl)) ∧
    List.Forall₂ (DeclTo (Refers fun i r => q.check.refs.get? i = some r) (p.decls.map (·.name)) n)
      p.decls q.decls ∧
    ∀ d ∈ q.decls, d.Cleared := by
  have htidy : ∀ d, .enter d ∈ p.visits → ∀ b, d.body? = some b → Tidy b.visits := fun d hd b hb =>
    tidy hp hblocks hnames hd hb
  have hto : List.Forall₂ (DeclTo anyPath (p.decls.map (·.name)) n) p.decls q.decls :=
    hq ▸ p.decls_hoistVariables n htidy
  -- the output tells its nodes apart
  have hdistinct : p.Distinct n := ⟨hids.nodes, fun i hi => hlt i (List.mem_append_left _ hi)⟩
  have hfollows : p.Follows n q _ := hq ▸
    follows_of_affords (fun m hm => p.affords_hoistVariables hm) (p.insts_hoistVariables n)
  have hnodup := (hfollows.distinct hdistinct).nodup
  have hagrees : ((Check.program q).run ⟨.empty, .empty, .empty, []⟩).2.Agrees
      fun i r => q.check.refs.get? i = some r := by
    intro i r hr
    obtain ⟨pl, hpl, huse⟩ := List.mem_filterMap.1 ((q.mem_targets_check _).1 hr)
    exact get?_refs_check hnodup hpl huse
  obtain ⟨hafter, hto'⟩ := check_hoisted ⟨hids, hlt, rfl⟩ hp (Versions.covers_among hnodup)
    hto htidy herr hagrees
  refine ⟨hafter.errors.trans herr, fun t m hpath => ?_, ⟨.among q.visits, fun i hi => ?_⟩, hto',
    fun d hd => ?_⟩
  · obtain ⟨sc, hpl⟩ := exists_place hpath
    obtain ⟨r, hr⟩ := Option.isSome_iff_exists.1 (fine_of_errors herr _ hpl)
    have hget : p.check.refs.get? t.id = some r :=
      (get?_refs_path hids.nodes hpl).trans hr
    have hid : t.id ∈ p.ids := List.mem_append_left _ (List.mem_filterMap.2 ⟨_, hpath, rfl⟩)
    have hget' := (hafter.refs t.id (hlt _ hid)).trans (congrArg (Option.map _) hget)
    exact ⟨r, _, hget, hget', Referent.id_over (.among q.visits) r⟩
  · exact hafter.types.1 i (hlt i hi) List.not_mem_nil
  · obtain ⟨d₀, hd₀, hone⟩ := exists_left_of_forall₂ hto hd
    have hsub := innerDecls_sublist hd₀
    exact hone.cleared (hnames.sublist (hsub.map _)) fun e he => htop e (hsub.subset he)

end Program

namespace Extrusion

def name (i : Nat) (n : String) : Expr := .path ⟨⟨i⟩, none⟩ n

def set (i : Nat) (n m : String) : Stmt := .assign ⟨⟨i⟩, none⟩ (name (i + 1) n) (name (i + 2) m)

def start (i : Nat) (n m : String) : Stmt :=
  .decl ⟨⟨i⟩, none⟩ (.var ⟨⟨i + 1⟩, n, none⟩ (.bits 8 false) (some (name (i + 2) m)))

def nest (i : Nat) (ss : List Stmt) : Stmt := .block ⟨⟨i⟩, none⟩ (.mk ⟨i + 1⟩ ss)

def holder (inAction : List Stmt) (more : List Decl) (inBody : List Stmt) : Program :=
  ⟨[.control ⟨⟨0⟩, "c", none⟩ [] [⟨⟨1⟩, "x", .inout, .bits 8 false, none⟩] []
    (.action ⟨⟨2⟩, "a", none⟩ [⟨⟨3⟩, "y", .input, .bits 8 false, none⟩] (.mk ⟨4⟩ inAction) :: more)
    (.mk ⟨5⟩ inBody)]⟩

def buried : Program :=
  holder [nest 10 [start 12 "v" "y", nest 15 [start 17 "y" "v", set 20 "x" "y"]]] []
  [.ifThen ⟨⟨30⟩, none⟩ (.bool ⟨⟨31⟩, none⟩ true) (nest 32 [start 34 "w" "x", set 37 "x" "w"]) none,
    .call ⟨⟨40⟩, none⟩ (.call ⟨⟨41⟩, none⟩ (name 42 "a") [] [name 43 "x"])]

def unburied : Program := holder
  [.decl ⟨⟨46⟩, none⟩ (.var ⟨⟨13⟩, "v", none⟩ (.bits 8 false) none),
    nest 10 [.assign ⟨⟨45⟩, none⟩ (name 44 "v") (name 14 "y"), nest 15 [start 17 "y" "v",
      set 20 "x" "y"]]]
  [.var ⟨⟨35⟩, "w", none⟩ (.bits 8 false) none]
  [.ifThen ⟨⟨30⟩, none⟩ (.bool ⟨⟨31⟩, none⟩ true)
      (nest 32 [.assign ⟨⟨48⟩, none⟩ (name 47 "w") (name 36 "x"), set 37 "x" "w"]) none,
    .call ⟨⟨40⟩, none⟩ (.call ⟨⟨41⟩, none⟩ (name 42 "a") [] [name 43 "x"])]

/-- The variable of the branch becomes a local and that of the action starts its body; the path in
the deepest block still refers to the variable and not to the parameter. -/
theorem buried_resolves :
    (buried.NodesApart ∧ (∀ i ∈ buried.ids, i.val < 44) ∧ buried.Orderly ∧
      DeclsInBlocks buried.visits ∧ (buried.innerDecls.map (·.name)).Nodup ∧
      (∀ d ∈ buried.innerDecls, d.name ∉ buried.decls.map (·.name)) ∧ buried.check.errors = [] ∧
      (buried.hoistVariables 44).1.get buried = unburied) ∧
    unburied.check.errors = [] ∧
    (∃ r r', buried.check.refs.get? ⟨22⟩ = some r ∧ unburied.check.refs.get? ⟨22⟩ = some r' ∧
      r.id = ⟨18⟩ ∧ r'.id = ⟨18⟩) ∧
    List.Forall₂ (DeclTo (Refers fun i r => unburied.check.refs.get? i = some r) ["c"] 44)
      buried.decls unburied.decls ∧
    ∀ d ∈ unburied.decls, d.Cleared := by
  have hids : buried.NodesApart := by decide
  have hlt : ∀ i ∈ buried.ids, i.val < 44 := by decide
  have hp : buried.Orderly := ((Weights.total_disorder 0 buried).1 (by decide)).1
  have hblocks : DeclsInBlocks buried.visits := by decide
  have hnames : (buried.innerDecls.map (·.name)).Nodup := by decide
  have htop : ∀ d ∈ buried.innerDecls, d.name ∉ buried.decls.map (·.name) := by decide
  have herr : buried.check.errors = [] := List.isEmpty_iff.1 (by decide +kernel)
  have hq : (buried.hoistVariables 44).1.get buried = unburied := by decide +kernel
  obtain ⟨herr', hpaths, -, hto, hcleared⟩ :=
    Program.hoistVariables_resolves hids hlt hp hblocks hnames htop herr hq
  refine ⟨⟨hids, hlt, hp, hblocks, hnames, htop, herr, hq⟩, herr', ?_, hto, hcleared⟩
  obtain ⟨r, r', hr, hr', hid⟩ := hpaths ⟨⟨22⟩, none⟩ "y" (List.mem_of_getElem? (i := 17) rfl)
  have hvar : (buried.check.refs.get? ⟨22⟩).map (·.id) = some ⟨18⟩ := by decide +kernel
  rw [hr] at hvar
  have hself : r.id = ⟨18⟩ := Option.some.inj hvar
  exact ⟨r, r', hr, hr', hself, hid.trans hself⟩

end Extrusion

end MatchAction
