import MatchAction.Inline.Action
import MatchAction.Proofs.Equality
import MatchAction.Proofs.Resolution
import MatchAction.Proofs.Splice

namespace MatchAction

open List

section

variable {S : Type}

def Config.pass (I : Ops S) (m : Config S) (p : Param) (name : String) (t : Term) : Config S :=
  { m.bind name with
    state := I.create m.next p.type (if p.direction.copiesIn then [t] else []) m.state }

def Config.passes (I : Ops S) : List (Param × String) → List Term → Config S → Config S
  | (p, n) :: ps, t :: ts, m => Config.passes I ps ts (m.pass I p n t)
  | _, _, m => m

/-- The environment a body starts in: names in sight at its declaration stand for what they do, and
names of its own for nothing yet. -/
def Env.entry (ρ : Env) (sc : Scopes) (own : List String) : Env := fun n =>
  if n ∈ own then none else (sc.lookup n).bind fun _ => ρ n

def Config.enterAction (I : Ops S) (sc : Scopes) (ps : List Param) (b : Block) (ts : List Term)
    (m : Config S) : Config S :=
  Config.passes I (ps.map fun p => (p, p.name)) ts
    { m with env := m.env.entry sc (ps.map (·.name) ++ b.declared.map (·.name)) }

/-- A call of an action. Results are written back when the body completes and when it leaves by
`exit`. -/
def Ops.callAction (I : Ops S) (sc : Scopes) (ps : List Param) (b : Block) (args : List Expr)
    (m : Config S) : Completion × Config S :=
  let ts := Expr.terms m.env args
  let q := Stmt.execs (I.machine fun _ => none) b.stmts (m.enterAction I sc ps b ts)
  (q.1, ⟨m.env, q.2.next, I.writeBack ps ts m.next q.2.state⟩)

end

section

variable {S : Type} (I : Ops S)

theorem Config.env_passes_of_not_mem {ps : List (Param × String)} {ts : List Term} {m : Config S}
    {n : String} (h : n ∉ ps.map (·.2)) : (m.passes I ps ts).env n = m.env n := by
  induction ps generalizing ts m with
  | nil => rfl
  | cons q ps ih =>
    rw [map_cons, mem_cons, not_or] at h
    cases ts with
    | nil => rfl
    | cons t ts => exact (ih h.2).trans (Env.set_of_ne m.env h.1 _)

theorem Config.consecutive_passes {ps : List (Param × String)} {ts : List Term} {m : Config S}
    (hnames : (ps.map (·.2)).Nodup) (hlen : ts.length = ps.length) :
    (m.passes I ps ts).env.Consecutive (ps.map (·.2)) m.next := by
  induction ps generalizing ts m with
  | nil => exact trivial
  | cons q ps ih =>
    obtain ⟨hq, hps⟩ := nodup_cons.1 hnames
    cases ts with
    | nil => cases hlen
    | cons t ts =>
      refine ⟨?_, ih hps (Nat.succ.inj hlen)⟩
      exact (env_passes_of_not_mem I hq).trans (Env.set_self _ _ _)

theorem ActionInlining.execs_paramDecls (insts : String → Option (Applied S))
    (h : ∀ n ∈ ps.map (·.2), ∀ t, .path t n ∉ Expr.walks args) (k : Nat) (m : Config S) :
    Stmt.execs (I.machine insts) (paramDecls ps args k).1 m =
      (.normal, m.passes I ps (Expr.terms m.env args)) := by
  induction ps generalizing args k m with
  | nil => rfl
  | cons q ps ih =>
    obtain ⟨q, name⟩ := q
    cases args with
    | nil => rfl
    | cons a args =>
      have hargs : Expr.terms (m.pass I q name (a.term m.env)).env args = Expr.terms m.env args :=
        Expr.terms_congr args fun t n hn => Env.set_of_ne _ (fun he => h name (.head _) t (by
          rw [← he]
          exact mem_append_right _ hn)) _
      have hrest := fun k => ih (fun n hn t ht => h n (.tail _ hn) t (mem_append_right _ ht)) k
        (m.pass I q name (a.term m.env))
      have hinit : Expr.terms m.env (if q.direction.copiesIn then some a else none).toList =
          if q.direction.copiesIn then [a.term m.env] else [] := by
        cases q.direction.copiesIn <;> rfl
      simp only [paramDecls, Stmt.declare, Head.fresh, Supply.bind_apply, Supply.pure_apply,
        Stmt.execs_cons, Stmt.exec, Ops.machine_declare, Completion.normal_andThen, Config.declare,
        Decl.created, Option.elim_some, hinit]
      refine (hrest _).trans ?_
      rw [hargs]
      rfl

end

namespace ActionInlining

structure Renewed (p : Program) (ns : Names) (own : List Referent) (r : Renaming) : Prop where
  ids : p.ids.Nodup
  names : (Names.ofProgram p).used.Nodup
  used : (Names.ofProgram p).used ⊆ ns.used
  known : own ⊆ p.referents
  fresh : Renaming.Fresh ns (own.map fun x => (x.id, x.name)) .empty r

structure Sees (r : Renaming) (own : List Referent) (sc : Scopes) (ρ ρ' : Env) : Prop where
  seen : ∀ {n : String} {x : Referent}, sc.lookup n = some x → r.term ρ' x = (ρ n).getD .unbound
  own : ∀ x ∈ own, r.term ρ' x = (ρ x.name).getD .unbound

variable {ρ ρ' : Env}

namespace Renewed

variable {p : Program} {ns : Names} {own : List Referent} {r : Renaming}

theorem term_eq (h : Renewed p ns own r) (ρ : Env) (x : Referent) :
    r.term ρ x = (ρ (r.newName x)).getD .unbound :=
  Renaming.term_of_not_replaced (by rw [h.fresh.replacements]; rfl) ρ

variable {x : Referent}

theorem newName_of_mem (h : Renewed p ns own r) (hx : x ∈ own) :
    r.names.get? x.id = some (r.newName x) ∧ r.newName x ∉ ns.used :=
  h.fresh.newName_of_mem hx

theorem newName_of_not_mem (h : Renewed p ns own r) (hx : x ∈ p.referents)
    (hown : x ∉ own) : r.newName x = x.name := by
  have hi : x.id ∉ (own.map fun x => (x.id, x.name)).map (·.1) := by
    intro hmem
    simp only [map_map, mem_map, Function.comp] at hmem
    obtain ⟨y, hy, he⟩ := hmem
    exact hown (Program.referent_ext_id h.ids (h.known hy) hx he ▸ hy)
  rw [Renaming.newName, h.fresh.old x.id hi]
  rfl

theorem name_mem_used (h : Renewed p ns own r) (hx : x ∈ p.referents) :
    x.name ∈ ns.used := by
  refine h.used ?_
  rw [Program.names_referents]
  exact mem_map_of_mem hx

theorem newName_inj (h : Renewed p ns own r) (hx : x ∈ p.referents)
    (hy : y ∈ p.referents) (he : r.newName x = r.newName y) : x = y := by
  by_cases hxo : x ∈ own <;> by_cases hyo : y ∈ own
  · exact Program.referent_ext_id h.ids hx hy (h.fresh.id_eq hxo hyo he)
  · rw [h.newName_of_not_mem hy hyo] at he
    exact absurd (he ▸ h.name_mem_used hy) (h.newName_of_mem hxo).2
  · rw [h.newName_of_not_mem hx hxo] at he
    exact absurd (he ▸ h.name_mem_used hx) (h.newName_of_mem hyo).2
  · rw [h.newName_of_not_mem hx hxo, h.newName_of_not_mem hy hyo] at he
    exact Program.referent_ext_name h.names hx hy he

theorem term_set (h : Renewed p ns own r) (hx : x ∈ p.referents)
    (hy : y ∈ p.referents) (t : Term) (he : r.term ρ' y = (ρ y.name).getD .unbound) :
    r.term (ρ'.set (r.newName x) t) y = (ρ.set x.name t y.name).getD .unbound := by
  rw [h.term_eq] at he ⊢
  by_cases hxy : y = x
  · subst hxy
    rw [Env.set_self, Env.set_self]
  · rw [Env.set_of_ne _ fun hn => hxy (h.newName_inj hy hx hn),
      Env.set_of_ne _ fun hn => hxy (Program.referent_ext_name h.names hy hx hn), he]

theorem sees_define (h : Renewed p ns own r)
    (hsc : sc.Hold (· ∈ p.referents) (· ∈ p.referents)) (hx : x ∈ own)
    (hs : Sees r own sc ρ ρ') (t : Term) :
    Sees r own (sc.define x.name x).2 (ρ.set x.name t) (ρ'.set (r.newName x) t) where
  seen := by
    intro n y hl
    rcases Scopes.lookup_define hl with ⟨rfl, rfl⟩ | hl
    · rw [h.term_eq, Env.set_self, Env.set_self]
    · obtain ⟨hn, hy⟩ := hsc.lookup hl
      rw [← hn]
      exact h.term_set (h.known hx) (hy.elim id id) t (hn ▸ hs.seen hl)
  own := fun y hy => h.term_set (h.known hx) (h.known hy) t (hs.own y hy)

theorem sees_after {sc : Scopes} {s : Stmt}
    (hs : ∀ t d, .stmt (.decl t d) ∈ s.visits → .decl d ∈ own)
    (hsees : Sees r own sc ρ ρ') : Sees r own (s.after sc) ρ ρ' where
  seen := by
    intro n x hl
    rcases s.lookup_after hl with hl | ⟨t, d, hd, rfl, rfl⟩
    · exact hsees.seen hl
    · exact hsees.own _ (hs t d hd)
  own := hsees.own

theorem follows_sees : r.Follows (Sees r own) where
  path hs hl _ := hs.seen hl
  push hs := ⟨hs.seen, hs.own⟩

end Renewed

/-- Every label of a `switch` is the name, in sight there, of an action of the table. -/
def Labelled (c : Checked) : Place → Prop
  | (sc, .stmt (.switch _ e cs)) => ∀ n, .name n ∈ cs.map Case.label →
    ∃ h ks as d x, c.types.get? e.id = some (.actionEnum (.table h ks as d)) ∧
      sc.lookup n = some x ∧ (∃ t, .path t n ∈ as.map Renaming.entryPath) ∧
      ∀ t, .path t n ∈ as.map Renaming.entryPath → c.refs.get? t.id = some x
  | _ => True

def renewedBy (ps : List Param) (b : Block) : List Referent :=
  ps.map .param ++ b.declared.map .decl

section

variable {p : Program} {ns : Names} {r : Renaming} {sc : Scopes} {h : Head} {ps : List Param}
  {b : Block}

theorem mem_declared : d ∈ b.declared ↔ ∃ t, .stmt (.decl t d) ∈ b.visits := by
  constructor
  · intro hd
    obtain ⟨v, hv, hvd⟩ := mem_filterMap.1 hd
    split at hvd
    · cases hvd
      exact ⟨_, hv⟩
    · cases hvd
  · rintro ⟨t, ht⟩
    exact mem_filterMap.2 ⟨_, ht, rfl⟩

theorem renewedBy_subset (hd : .enter (.action h ps b) ∈ p.visits) :
    renewedBy ps b ⊆ p.referents := by
  intro x hx
  rcases mem_append.1 hx with hx | hx
  · exact Program.referents_subset hd (.tail _ hx)
  · obtain ⟨d, hdecl, rfl⟩ := mem_map.1 hx
    obtain ⟨t, ht⟩ := mem_declared.1 hdecl
    have hmem : .stmt (.decl t d) ∈ p.visits := Program.visits_subset_of_enter hd
      (mem_cons_of_mem _ (mem_append_left _ ht))
    exact Program.referents_subset (Program.enter_mem_visits hmem) d.self_mem_referents

theorem label_terms (hR : Renewed p ns own r) (hlab : Labelled c (sc, .stmt (.switch t e cs)))
    (hsc : sc.Hold (· ∈ p.referents) (· ∈ p.referents)) (hs : Sees r own sc ρ ρ')
    (hcs : cs'.map Case.label = cs.map Case.label) (n : Nat) :
    (((r.cases c.refs c.types (r.visited c n e) cs').get cs').map Case.label).map (·.term ρ') =
      (cs.map Case.label).map (·.term ρ) := by
  obtain ⟨ls, hls, hdef⟩ := Renaming.map_label_cases (r := r) (c := c) (r.visited c n e) cs'
  rw [hls, hcs, map_map]
  refine map_congr_left fun l hl => ?_
  cases l with
  | default => rfl
  | name k =>
    obtain ⟨h, ks, as, d, x, htype, hlook, hex, hall⟩ := hlab k hl
    have hid : (r.visited c n e).id = e.id :=
      Renaming.id_visited (fun i => by rw [hR.fresh.replacements]; rfl) e n
    have hnew : (ls.lookup k).getD k = r.newName x := by
      rw [hdef h ks as d (hid ▸ htype), Renaming.lookup_labels hex hall, Renaming.newName,
        (hsc.lookup hlook).1]
    change some ((ρ' ((ls.lookup k).getD k)).getD .unbound) = some ((ρ k).getD .unbound)
    rw [hnew, ← hR.term_eq, hs.seen hlook]

variable {i : NodeId} {ss : List Stmt}

theorem fits_body {S : Type} (I : Ops S) (hR : Renewed p ns (renewedBy ps (.mk i ss)) r)
    (herr : p.check.errors = []) (hpl : (sc, .enter (.action h ps (.mk i ss))) ∈ p.places)
    (hlab : ∀ pl ∈ (Decl.action h ps (.mk i ss)).places sc, Labelled p.check pl) :
    ∀ pl ∈ Stmt.allPlaces (sc.push.declareParams ps) ss,
      r.Fits p.check (Sees r (renewedBy ps (.mk i ss))) I (fun _ => none) pl := by
  have hbody : Stmt.allPlaces (sc.push.declareParams ps) ss ⊆
      (Decl.action h ps (.mk i ss)).places sc := fun pl hmem => by simp [Decl.places, hmem]
  have hprog := fun pl hmem => p.closed_places _ hpl (hbody (a := pl) hmem)
  have hdecl : ∀ s, (∃ sc', (sc', .stmt s) ∈ Stmt.allPlaces (sc.push.declareParams ps) ss) →
      ∀ t d, .stmt (.decl t d) ∈ s.visits → .decl d ∈ renewedBy ps (.mk i ss) := by
    rintro s ⟨sc', hs⟩ t d hd
    refine mem_append_right _ (mem_map_of_mem (mem_declared.2 ⟨t, ?_⟩))
    rw [← s.map_snd_places sc'] at hd
    obtain ⟨pl, hmem, he⟩ := mem_map.1 hd
    have hmem' := mem_map_of_mem (f := Prod.snd) (closed_listing.stmts ss _ _ hs hmem)
    rw [Stmt.map_snd_allPlaces, he] at hmem'
    exact .tail _ hmem'
  intro pl hmem
  have hfine := p.fine_of_errors herr pl (hprog pl hmem)
  have hhold := Program.hold_places (hprog pl hmem)
  have hlabel := hlab pl (hbody hmem)
  unfold Renaming.Fits
  split
  · rename_i sc' t n
    obtain ⟨x, hx⟩ := Option.isSome_iff_exists.1 hfine
    refine ⟨x, hx, (hhold.lookup hx).1,
      Program.get?_refs_check (Program.nodesApart_of_ids hR.ids).nodes (hprog _ hmem) ?_⟩
    simp [Place.use?, hx]
  · rename_i sc' t d
    have hd := hdecl _ ⟨sc', hmem⟩ t d (.head _)
    exact ⟨_, (hR.newName_of_mem hd).1, fun ρ ρ' t hs => hR.sees_define hhold hd hs t⟩
  · rename_i sc' t e a
    exact fun ρ ρ' => Renewed.sees_after fun t d hd =>
      hdecl _ ⟨sc', hmem⟩ t d (by simp [Stmt.visits, hd])
  · rename_i sc' t e a b
    exact ⟨fun ρ ρ' => Renewed.sees_after fun t d hd =>
        hdecl _ ⟨sc', hmem⟩ t d (by simp [Stmt.visits, hd]),
      fun ρ ρ' => Renewed.sees_after fun t d hd =>
        hdecl _ ⟨sc', hmem⟩ t d (by simp [Stmt.visits, hd])⟩
  · rename_i sc' t e cs
    intro ρ ρ' n cs' hs hcs t'
    rw [label_terms hR hlabel hhold hs hcs n]
  · exact fun _ _ _ _ _ _ => rfl
  · trivial

theorem alike_passes {S : Type} (I : Ops S) {own : List Referent} (hR : Renewed p ns own r)
    {qs : List Param} (hqs : ∀ q ∈ qs, .param q ∈ own) {ts : List Term}
    (hlen : ts.length = qs.length) (hsc : sc.Hold (· ∈ p.referents) (· ∈ p.referents))
    (hne : sc.inner ≠ []) {m m' : Config S} (hm : m.Alike (Sees r own) sc m') :
    (m.passes I (qs.map fun q => (q, q.name)) ts).Alike (Sees r own) (sc.declareParams qs)
      (m'.passes I (renamedParams r qs) ts) := by
  induction qs generalizing ts sc m m' with
  | nil => exact hm
  | cons q qs ih =>
    cases ts with
    | nil => cases hlen
    | cons t ts =>
      have hq := hqs q (.head _)
      refine ih (fun q hq => hqs q (.tail _ hq)) (Nat.succ.inj hlen)
        (hsc.define hne (hR.known hq)) (Scopes.define_inner hne q.name (.param q)).1 ⟨?_, ?_, ?_⟩
      · exact congrArg (· + 1) hm.next
      · simp only [Config.pass, hm.next, hm.state]
      · simp only [Config.pass, Config.bind, hm.next]
        exact hR.sees_define hsc hq hm.env _

theorem splice_eq (c : Checked) (span : Option Span) (args : List Expr)
    (ps : List Param) (b : Block) (ns : Names) (k : Nat) : ∃ r k₁ k₂ k₃ k₄ k₅ t i,
    r = (renameFresh id ((renewedBy ps b).map fun x => (x.id, x.name)) .empty ns k).1.1 ∧
    (splice c span args ps b ns k).1.1 = .block t (.mk i
      ((paramDecls (renamedParams r ps) args k₁).1
        ++ (copyOutBeforeExit (copyOuts (renamedParams r ps) args k₂).1
          ((r.visitedBlock c k₃ b).copy k₄).1 k₅).1.stmts
        ++ (copyOuts (renamedParams r ps) args k₂).1)) := by
  have hlist : ps.map (fun p => (p.id, p.name)) ++ b.declared.map (fun d => (d.id, d.name)) =
      (renewedBy ps b).map fun x => (x.id, x.name) := by
    rw [renewedBy, map_append, map_map, map_map]
    rfl
  unfold splice
  rw [hlist]
  exact ⟨_, _, _, _, _, _, _, _, rfl, rfl⟩

structure Backed (ρ₀ : Env) (qs : List (Param × String)) (args : List Expr) (k : Nat) (ρ : Env) :
    Prop where
  kept : ∀ t n, .path t n ∈ Expr.walks args → ρ n = ρ₀ n
  params : ρ.Consecutive (qs.map (·.2)) k

theorem Backed.set
    (hb : Backed ρ₀ qs args k ρ) (hargs : ∀ t, .path t n ∉ Expr.walks args)
    (hqs : n ∉ qs.map (·.2)) (t : Term) : Backed ρ₀ qs args k (ρ.set n t) where
  kept t' n' hn := by
    have hne : n' ≠ n := fun he => hargs t' (he ▸ hn)
    exact (Env.set_of_ne ρ hne t).trans (hb.kept t' n' hn)
  params := hb.params.congr fun n' hn => by
    have hne : n' ≠ n := fun he => hqs (he ▸ hn)
    exact Env.set_of_ne ρ hne t

theorem tame_visitedBlock {S : Type} (I : Ops S) {P : Env → Prop} (hret : b.hasReturn = false)
    (h : ∀ d ∈ b.declared, ∀ ρ, P ρ → ∀ t, P (ρ.set (r.newName (.decl d)) t)) (k : Nat) :
    ∀ a ∈ (r.visitedBlock c k b).atoms, Tame I (fun _ => none) P a := by
  refine Atom.forall_of_forall₂ (Renaming.atoms_visitedBlock b hret k) (fun _ ha => ha) ?_
  intro a a' ha hon
  cases hon with
  | assign => trivial
  | call e n => exact fun m => congrArg Prod.fst (I.call_of_not_applied fun _ _ => rfl)
  | test | select => trivial
  | declare d d' hname =>
    obtain ⟨t, ht⟩ := b.visit_of_declare ha
    have hname : d'.name = r.newName (.decl d) := hname
    intro m hm
    change P (m.env.set d'.name _)
    rw [hname]
    exact h d (mem_declared.2 ⟨t, ht⟩) m.env hm _

theorem tame_body {S : Type} (I : Ops S) (hR : Renewed p ns (renewedBy ps b) r)
    (hret : b.hasReturn = false)
    (hargs : ∀ t n, .path t n ∈ Expr.walks args → n ∈ ns.used) (ρ : Env) (l k k' : Nat) :
    ∀ a ∈ ((r.visitedBlock c k b).copy k').1.atoms,
      Tame I (fun _ => none) (Backed ρ (renamedParams r ps) args l) a := by
  refine tame_copy (tame_visitedBlock I hret (fun d hd ρ' hb t => ?_) k) k'
  have hdecl : .decl d ∈ renewedBy ps b := mem_append_right _ (mem_map_of_mem hd)
  have hfree := (hR.newName_of_mem hdecl).2
  refine hb.set (fun t hn => hfree (hargs t _ hn)) ?_ t
  intro hmem
  simp only [renamedParams_eq, map_map, mem_map, Function.comp] at hmem
  obtain ⟨q, hq, he⟩ := hmem
  have hq' : .param q ∈ renewedBy ps b := mem_append_left _ (mem_map_of_mem hq)
  have hsame := hR.newName_inj (hR.known hq') (hR.known hdecl) he
  cases hsame

theorem sees_entry (hR : Renewed p ns (renewedBy ps b) r)
    (hsc : sc.Hold (· ∈ p.referents) (· ∈ p.referents))
    (hρ : ∀ n, n ∉ ns.used → ρ n = none) :
    Sees r (renewedBy ps b) sc.push
      (ρ.entry sc (ps.map (·.name) ++ b.declared.map (·.name))) ρ := by
  have hnames : ps.map (·.name) ++ b.declared.map (·.name) = (renewedBy ps b).map (·.name) := by
    rw [renewedBy, map_append, map_map, map_map]
    rfl
  have hown : ∀ x ∈ renewedBy ps b, r.term ρ x =
      (ρ.entry sc (ps.map (·.name) ++ b.declared.map (·.name)) x.name).getD .unbound := by
    intro x hx
    rw [hR.term_eq, hρ _ (hR.newName_of_mem hx).2, Env.entry, hnames,
      if_pos (mem_map_of_mem hx)]
  refine ⟨fun {n x} hl => ?_, hown⟩
  obtain ⟨rfl, hx⟩ := hsc.push.lookup hl
  have hx : x ∈ p.referents := hx.elim id id
  by_cases hxo : x ∈ renewedBy ps b
  · exact hown x hxo
  · have hn : x.name ∉ (renewedBy ps b).map (·.name) := fun hmem => by
      obtain ⟨y, hy, he⟩ := mem_map.1 hmem
      exact hxo (Program.referent_ext_name hR.names (hR.known hy) hx he ▸ hy)
    rw [hR.term_eq, hR.newName_of_not_mem hx hxo, Env.entry, hnames, if_neg hn]
    rw [Scopes.lookup_push] at hl
    rw [hl]
    rfl

theorem alike_enterAction {S : Type} (I : Ops S) (hR : Renewed p ns (renewedBy ps b) r)
    (hsc : sc.Hold (· ∈ p.referents) (· ∈ p.referents)) {ts : List Term}
    (hlen : ts.length = ps.length) {m : Config S} (hm : ∀ n, n ∉ ns.used → m.env n = none) :
    (m.enterAction I sc ps b ts).Alike (Sees r (renewedBy ps b)) (sc.push.declareParams ps)
      (m.passes I (renamedParams r ps) ts) :=
  alike_passes I hR (fun _ hq => mem_append_left _ (mem_map_of_mem hq)) hlen hsc.push
    sc.inner_push_ne ⟨rfl, rfl, sees_entry hR hsc hm⟩

theorem nodup_newNames (hR : Renewed p ns (renewedBy ps b) r)
    (hd : .enter (.action h ps b) ∈ p.visits) : ((renamedParams r ps).map (·.2)).Nodup := by
  have href : p.referents.Nodup := List.Nodup.of_map _ (p.names_referents ▸ hR.names)
  have hps : (ps.map Referent.param).Nodup :=
    (nodup_cons.1 ((nodup_flatMap.1 href).1 _ (Program.mem_allDecls.2 hd))).2
  rw [map_snd_renamedParams]
  exact hps.map_on fun x hx y hy he =>
    hR.newName_inj (hR.known (mem_append_left _ hx)) (hR.known (mem_append_left _ hy)) he

theorem newNames_not_used (hR : Renewed p ns (renewedBy ps b) r) :
    ∀ n ∈ (renamedParams r ps).map (·.2), n ∉ ns.used := by
  rw [map_snd_renamedParams]
  intro n hn
  obtain ⟨x, hx, rfl⟩ := mem_map.1 hn
  exact (hR.newName_of_mem (mem_append_left _ hx)).2

theorem backed_passes {S : Type} (I : Ops S) (hR : Renewed p ns (renewedBy ps b) r)
    (hd : .enter (.action h ps b) ∈ p.visits) {args : List Expr}
    (hargs : ∀ t n, .path t n ∈ Expr.walks args → n ∈ ns.used) {ts : List Term}
    (hlen : ts.length = ps.length) (m : Config S) :
    Backed m.env (renamedParams r ps) args m.next (m.passes I (renamedParams r ps) ts).env where
  kept t n hn := Config.env_passes_of_not_mem I fun hq => newNames_not_used hR n hq (hargs t n hn)
  params := Config.consecutive_passes I (nodup_newNames hR hd) (by
    rw [hlen, renamedParams, length_map])

theorem execs_copyOuts_backed {S : Type} (I : Ops S) {args : List Expr} {k : Nat} {m m' : Config S}
    (h : Backed m.env (renamedParams r ps) args k m'.env) (n : Nat) :
    Stmt.execs (I.machine fun _ => none) (copyOuts (renamedParams r ps) args n).1 m' =
      (.normal, { m' with state := I.writeBack ps (Expr.terms m.env args) k m'.state }) := by
  rw [execs_copyOuts I _ _ args n h.params, map_fst_renamedParams, Expr.terms_congr args h.kept]

theorem andThen_writeBack {S : Type} {κ : S → S} {q : Completion × Config S}
    (hq : q.1 ≠ .returned) {co : Config S → Completion × Config S}
    (hco : co q.2 = (.normal, { q.2 with state := κ q.2.state })) :
    Completion.andThen (onExit κ q) co = (q.1, { q.2 with state := κ q.2.state }) := by
  obtain ⟨v, m⟩ := q
  cases v with
  | normal => exact hco
  | returned => exact absurd rfl hq
  | exited => rfl

theorem exec_splice {S : Type} (I : Ops S) (hids : p.ids.Nodup)
    (hnames : (Names.ofProgram p).used.Nodup) (hns : (Names.ofProgram p).used ⊆ ns.used)
    (herr : p.check.errors = []) (hpl : (sc, .enter (.action h ps (.mk i ss))) ∈ p.places)
    (hlab : ∀ pl ∈ (Decl.action h ps (.mk i ss)).places sc, Labelled p.check pl)
    (hret : (Block.mk i ss).hasReturn = false) {args : List Expr}
    (hargs : ∀ t n, .path t n ∈ Expr.walks args → n ∈ ns.used) (hlen : args.length = ps.length)
    (span : Option Span) (k : Nat) {m : Config S} (hm : ∀ n, n ∉ ns.used → m.env n = none) :
    (splice p.check span args ps (.mk i ss) ns k).1.1.exec (I.machine fun _ => none) m =
      I.callAction sc ps (.mk i ss) args m := by
  obtain ⟨r, k₁, k₂, k₃, k₄, k₅, t, j, hr, hs⟩ := splice_eq p.check span args ps (.mk i ss) ns k
  have hvisit := Program.mem_visits hpl
  have hR : Renewed p ns (renewedBy ps (.mk i ss)) r :=
    ⟨hids, hnames, hns, renewedBy_subset hvisit, hr ▸ fresh_renameFresh _ _ _ _ _⟩
  have hts : (Expr.terms m.env args).length = ps.length := (Expr.length_terms _ _).trans hlen
  have hback := backed_passes I hR hvisit hargs hts m
  have htame := tame_body I (c := p.check) hR hret hargs m.env m.next k₃ k₄
  have halike := Renaming.alike_visitedStmts Renewed.follows_sees ss hret
    (fits_body I hR herr hpl hlab) k₃ (alike_enterAction I hR (Program.hold_places hpl) hts hm)
  have hne := Stmt.execs_ne_returned (I.machine fun _ => none) ss hret
    (m.enterAction I sc ps (.mk i ss) (Expr.terms m.env args))
  have hcopy := Block.execs_copy I (fun _ => none) (r.visitedBlock p.check k₃ (.mk i ss)) k₄
    (m.passes I (renamedParams r ps) (Expr.terms m.env args))
  have henv := env_execs htame hback
  rw [hcopy, Renaming.visitedBlock_mk] at henv
  rw [hs, Stmt.exec, Block.exec, Stmt.execs_append, Stmt.execs_append,
    execs_paramDecls I (fun _ => none)
      (fun n hn t ht => newNames_not_used hR n hn (hargs t n ht)) k₁ m,
    Completion.normal_andThen,
    execs_copyOutBeforeExit (fun m' hm' => execs_copyOuts_backed I hm' k₂) htame k₅ hback, hcopy,
    Renaming.visitedBlock_mk,
    andThen_writeBack (by exact halike.completion ▸ hne) (execs_copyOuts_backed I henv k₂)]
  refine Prod.ext halike.completion ?_
  simp only [Ops.machine_leave, Ops.callAction]
  congr 1
  · exact halike.next
  · exact congrArg _ halike.state

end

section

variable {p : Program} {ns : Names} {sc : Scopes} {h : Head} {ps : List Param} {b : Block}
  {t t₁ t₂ : Tag} {f : String} {ts : List TypeExpr} {args : List Expr}

theorem args_of_call (hids : p.NodesApart) (herr : p.check.errors = [])
    (hcall : .stmt (.call t (.call t₁ (.path t₂ f) ts args)) ∈ p.visits)
    (haction : p.check.refs.get? t₂.id = some (.decl (.action h ps b))) :
    args.length = ps.length ∧ .decl (.action h ps b) ∈ p.referents ∧
      ∀ t n, .path t n ∈ Expr.walks args → n ∈ (Names.ofProgram p).used := by
  obtain ⟨sc, hpl⟩ := Program.exists_place hcall
  have hbelow : ∀ e ∈ (Expr.call t₁ (.path t₂ f) ts args).walk, (sc, .expr e) ∈ p.places :=
    fun e he => p.closed_places _ hpl (.tail _ (mem_map_of_mem (mem_map_of_mem he)))
  have hsight : ∀ t n, .path t n ∈ (Expr.call t₁ (.path t₂ f) ts args).walk →
      ∃ x, sc.lookup n = some x ∧ p.check.refs.get? t.id = some x := fun t n hn => by
    obtain ⟨x, hx⟩ := Option.isSome_iff_exists.1 (p.fine_of_errors herr _ (hbelow _ hn))
    exact ⟨x, hx, Program.get?_refs_check hids.nodes (hbelow _ hn)
      (by simp [Place.use?, hx])⟩
  obtain ⟨x, hx, href⟩ := hsight t₂ f (by simp [Expr.walk])
  obtain rfl : x = .decl (.action h ps b) := Option.some.inj (href.symm.trans haction)
  refine ⟨p.fine_of_errors herr _ hpl h ps b hx, (Program.lookup_of_place hpl hx).2, ?_⟩
  intro t n hn
  obtain ⟨x, hx, -⟩ := hsight t n (by simp [Expr.walk, hn])
  obtain ⟨rfl, hmem⟩ := Program.lookup_of_place hpl hx
  rw [Program.names_referents]
  exact mem_map_of_mem hmem

/-- A call statement of an action without `return` becomes a block that does to every interpretation
what the call does: it completes as the call does, in the same state. The labels of the body have to
name actions of their tables. -/
theorem inlined_call_preserves_execution (hids : p.ids.Nodup)
    (hnames : (Names.ofProgram p).used.Nodup) (herr : p.check.errors = [])
    (hcall : .stmt (.call t (.call t₁ (.path t₂ f) ts args)) ∈ p.visits)
    (haction : p.check.refs.get? t₂.id = some (.decl (.action h ps b)))
    (hret : b.hasReturn = false) (hpl : (sc, .enter (.action h ps b)) ∈ p.places)
    (hlab : ∀ pl ∈ (Decl.action h ps b).places sc, Labelled p.check pl)
    (hns : (Names.ofProgram p).used ⊆ ns.used) (caller : NodeId) {sites : List InlineEdge}
    (hsite : (sites.find? (·.site == t.id)).map (·.callee) = some h.id) (k : Nat) :
    ∃ s, ((splicer p.check p caller sites).leaveStmt
        (.call t (.call t₁ (.path t₂ f) ts args)) ns k).1.1 = [.put s] ∧
      ∀ (S : Type) (I : Ops S) (m : Config S), (∀ n, n ∉ ns.used → m.env n = none) →
        s.exec (I.machine fun _ => none) m = I.callAction sc ps b args m := by
  obtain ⟨hlen, hmem, hused⟩ := args_of_call (Program.nodesApart_of_ids hids) herr hcall haction
  have hdecl := Program.declOf?_of_mem (Program.nodesApart_of_ids hids) hmem
  refine ⟨(splice p.check t.span args ps b ns k).1.1, ?_, fun S I m hm => ?_⟩
  · obtain ⟨e, he, hcallee⟩ := Option.map_eq_some_iff.1 hsite
    have hfound : (sites.find? (·.site == t.id)).bind (fun e => p.declOf? e.callee) =
        some (.action h ps b) := by
      rw [he, Option.bind_some, hcallee]
      exact hdecl
    have hspliceable : spliceable (.call t (.call t₁ (.path t₂ f) ts args)) (.action h ps b) =
        true := by
      simp [spliceable, hlen, hret]
    simp only [splicer, Stmt.id, Stmt.tag, hfound, hspliceable, if_true]
    rfl
  · obtain ⟨i, ss⟩ := b
    exact exec_splice I hids hnames hns herr hpl hlab hret (fun t n hn => hns (hused t n hn)) hlen
      t.span k hm

end

def leavingAction : Decl :=
  .action ⟨⟨6⟩, "a", none⟩ [⟨⟨7⟩, "v", .inout, .bits 8 false, none⟩] (.mk ⟨8⟩ [
    .switch ⟨⟨9⟩, none⟩ (.member ⟨⟨10⟩, none⟩ (.call ⟨⟨11⟩, none⟩
        (.member ⟨⟨12⟩, none⟩ (.path ⟨⟨13⟩, none⟩ "t") "apply") [] []) "action_run") [
      .run (.name "b") (.mk ⟨14⟩ [
        .assign ⟨⟨15⟩, none⟩ (.path ⟨⟨16⟩, none⟩ "v") (.lit ⟨⟨17⟩, none⟩ 2 (.bits 8 false)),
        .exit ⟨⟨18⟩, none⟩])]])

def leavingCall : Stmt :=
  .call ⟨⟨20⟩, none⟩ (.call ⟨⟨21⟩, none⟩ (.path ⟨⟨22⟩, none⟩ "a") [] [.path ⟨⟨23⟩, none⟩ "x"])

def leaving : Program := ⟨[.control ⟨⟨0⟩, "c", none⟩ [] [⟨⟨1⟩, "x", .inout, .bits 8 false, none⟩] []
  [.action ⟨⟨2⟩, "b", none⟩ [] (.mk ⟨3⟩ []),
    .table ⟨⟨4⟩, "t", none⟩ [] [.path ⟨⟨5⟩, none⟩ "b"] none,
    leavingAction]
  (.mk ⟨19⟩ [leavingCall])]⟩

theorem labelled_leaving : ∃ sc, (sc, .enter leavingAction) ∈ leaving.places ∧
    ∀ pl ∈ leavingAction.places sc, Labelled leaving.check pl := by
  refine ⟨_, mem_of_getElem? (i := 7) rfl, ?_⟩
  simp only [leavingAction, Decl.places, Stmt.allPlaces, Stmt.places, Case.places, Block.places,
    Scopes.all, Expr.visits, Expr.walk, Expr.walks, map_cons, map_nil,
    forall_mem_cons, append_nil, nil_append, cons_append, Labelled, true_and]
  refine ⟨fun n hn => ?_, fun _ h => absurd h not_mem_nil⟩
  obtain rfl : n = "b" := by simpa [Case.label] using hn
  refine ⟨⟨⟨4⟩, "t", none⟩, [], [.path ⟨⟨5⟩, none⟩ "b"], none,
    .decl (.action ⟨⟨2⟩, "b", none⟩ [] (.mk ⟨3⟩ [])), by decide +kernel, by decide +kernel,
    ⟨⟨⟨5⟩, none⟩, by simp [Renaming.entryPath]⟩, fun t ht => ?_⟩
  obtain rfl : t = ⟨⟨5⟩, none⟩ := by simpa [Renaming.entryPath] using ht
  decide +kernel

theorem inlined_call_preserves_execution_leaving :
    leaving.ids.Nodup ∧ (Names.ofProgram leaving).used.Nodup ∧ leaving.check.errors = [] ∧
    ∃ sc ps b, (sc, .enter leavingAction) ∈ leaving.places ∧
      leavingAction = .action ⟨⟨6⟩, "a", none⟩ ps b ∧ ∃ s,
      ((splicer leaving.check leaving ⟨0⟩ [⟨⟨0⟩, ⟨6⟩, ⟨20⟩⟩]).leaveStmt leavingCall
        (.ofProgram leaving) 24).1.1 = [.put s] ∧
      ∀ (S : Type) (I : Ops S) (m : Config S),
        (∀ n, n ∉ (Names.ofProgram leaving).used → m.env n = none) →
        s.exec (I.machine fun _ => none) m =
          I.callAction sc ps b [.path ⟨⟨23⟩, none⟩ "x"] m := by
  have hids : leaving.ids.Nodup := by decide
  have hnames : (Names.ofProgram leaving).used.Nodup := by decide
  have herr : leaving.check.errors = [] := List.isEmpty_iff.1 (by decide +kernel)
  have hcall : .stmt leavingCall ∈ leaving.visits :=
    List.mem_of_getElem? (i := 21) (by decide +kernel)
  have haction : leaving.check.refs.get? ⟨22⟩ = some (.decl leavingAction) := by decide +kernel
  have hsite : ([⟨⟨0⟩, ⟨6⟩, ⟨20⟩⟩].find? fun e : InlineEdge => e.site == ⟨20⟩).map (·.callee) =
    some ⟨6⟩ := rfl
  obtain ⟨sc, hpl, hlab⟩ := labelled_leaving
  have hkept := inlined_call_preserves_execution hids hnames herr hcall haction rfl hpl hlab
    (List.Subset.refl (Names.ofProgram leaving).used) ⟨0⟩ hsite 24
  refine ⟨hids, hnames, herr, sc, _, _, hpl, rfl, ?_⟩
  unfold leavingCall
  exact hkept

/-- `action a() { action b() {} table t {..} switch (t.apply().action_run) { b_0: {..} b: {..} } }`,
where no action is called `b_0`. -/
def deadLabelAction : Decl :=
  .action ⟨⟨2⟩, "a", none⟩ [] (.mk ⟨3⟩ [
    .decl ⟨⟨4⟩, none⟩ (.action ⟨⟨5⟩, "b", none⟩ [] (.mk ⟨6⟩ [])),
    .decl ⟨⟨7⟩, none⟩ (.table ⟨⟨8⟩, "t", none⟩ [] [.path ⟨⟨9⟩, none⟩ "b"] none),
    .switch ⟨⟨10⟩, none⟩ (.member ⟨⟨11⟩, none⟩ (.call ⟨⟨12⟩, none⟩
        (.member ⟨⟨13⟩, none⟩ (.path ⟨⟨14⟩, none⟩ "t") "apply") [] []) "action_run") [
      .run (.name "b_0") (.mk ⟨15⟩ [
        .assign ⟨⟨16⟩, none⟩ (.path ⟨⟨17⟩, none⟩ "x") (.lit ⟨⟨18⟩, none⟩ 1 (.bits 8 false))]),
      .run (.name "b") (.mk ⟨19⟩ [
        .assign ⟨⟨20⟩, none⟩ (.path ⟨⟨21⟩, none⟩ "x") (.lit ⟨⟨22⟩, none⟩ 2 (.bits 8 false))])]])

def deadLabelCall : Stmt :=
  .call ⟨⟨24⟩, none⟩ (.call ⟨⟨25⟩, none⟩ (.path ⟨⟨26⟩, none⟩ "a") [] [])

def deadLabel : Program :=
    ⟨[.control ⟨⟨0⟩, "c", none⟩ [] [⟨⟨1⟩, "x", .inout, .bits 8 false, none⟩] []
  [deadLabelAction] (.mk ⟨23⟩ [deadLabelCall])]⟩

/-- The copy of the body, where `b_0` is the new name of `b`. -/
def deadLabelInlined : Stmt :=
  .block ⟨⟨47⟩, none⟩ (.mk ⟨48⟩ [
    .decl ⟨⟨28⟩, none⟩ (.action ⟨⟨29⟩, "b_0", none⟩ [] (.mk ⟨30⟩ [])),
    .decl ⟨⟨31⟩, none⟩ (.table ⟨⟨32⟩, "t_0", none⟩ [] [.path ⟨⟨33⟩, none⟩ "b_0"] none),
    .switch ⟨⟨34⟩, none⟩ (.member ⟨⟨35⟩, none⟩ (.call ⟨⟨36⟩, none⟩
        (.member ⟨⟨37⟩, none⟩ (.path ⟨⟨38⟩, none⟩ "t_0") "apply") [] []) "action_run") [
      .run (.name "b_0") (.mk ⟨39⟩ [
        .assign ⟨⟨40⟩, none⟩ (.path ⟨⟨41⟩, none⟩ "x") (.lit ⟨⟨42⟩, none⟩ 1 (.bits 8 false))]),
      .run (.name "b_0") (.mk ⟨43⟩ [
        .assign ⟨⟨44⟩, none⟩ (.path ⟨⟨45⟩, none⟩ "x") (.lit ⟨⟨46⟩, none⟩ 2 (.bits 8 false))])]])

def firstNamed : Ops Int where
  assign _ r n := match r with
    | .lit v _ => v
    | _ => n
  call _ n := n
  create _ _ _ n := n
  test _ n := (true, n)
  select _ ls n := (ls.findIdx? fun | some (.loc _) => true | _ => false, n)

/-- A label that names nothing can come to name an action: the new name of `b` is `b_0`. -/
theorem inlined_call_takes_deadLabel :
    deadLabel.ids.Nodup ∧ (Names.ofProgram deadLabel).used.Nodup ∧ deadLabel.check.errors = [] ∧
    ∃ sc b, (sc, .enter deadLabelAction) ∈ deadLabel.places ∧
      deadLabelAction = .action ⟨⟨2⟩, "a", none⟩ [] b ∧ b.hasReturn = false ∧ ∃ s,
      ((splicer deadLabel.check deadLabel ⟨0⟩ [⟨⟨0⟩, ⟨2⟩, ⟨24⟩⟩]).leaveStmt deadLabelCall
        (.ofProgram deadLabel) 27).1.1 = [.put s] ∧
      let m : Config Int := ⟨Env.set (fun _ => none) "x" (.loc 0), 1, 0⟩
      (s.exec (firstNamed.machine fun _ => none) m).2.state = 1 ∧
        (firstNamed.callAction sc [] b [] m).2.state = 2 := by
  refine ⟨by decide, by decide, List.isEmpty_iff.1 (by decide +kernel), _, _,
    List.mem_of_getElem? (i := 1) rfl, rfl, rfl, deadLabelInlined, by decide +kernel, ?_, ?_⟩
  · decide +kernel
  · decide +kernel

end ActionInlining

end MatchAction
