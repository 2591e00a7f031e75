import MatchAction.Tree.Names
import MatchAction.Typing.Scopes

namespace MatchAction

open List

namespace Scopes

def declare (sc : Scopes) (d : Decl) : Scopes := (sc.define d.name (.decl d)).2

def declareParam (sc : Scopes) (p : Param) : Scopes := (sc.define p.name (.param p)).2

def declares : Scopes → List Decl → Scopes := List.foldl declare

def declareParams : Scopes → List Param → Scopes := List.foldl declareParam

def enterControl (sc : Scopes) (tps : List String) (ps cps : List Param) : Scopes :=
  ((sc.pushTypeParams tps).push.declareParams cps).declareParams ps

end Scopes

abbrev Place := Scopes × Visit

def Scopes.all (sc : Scopes) (vs : List Visit) : List Place := vs.map fun v => (sc, v)

def Stmt.after (sc : Scopes) : Stmt → Scopes
  | .decl _ d => sc.declare d
  | .ifThen _ _ a none => a.after sc
  | .ifThen _ _ a (some b) => b.after (a.after sc)
  | _ => sc

def Stmt.afters : Scopes → List Stmt → Scopes := List.foldl Stmt.after

mutual
def Stmt.places (sc : Scopes) : Stmt → List Place
  | .block t b => (sc, .stmt (.block t b)) :: b.places sc
  | .assign t l r => (sc, .stmt (.assign t l r)) :: sc.all (l.visits ++ r.visits)
  | .call t e => (sc, .stmt (.call t e)) :: sc.all e.visits
  | .ifThen t c a none => (sc, .stmt (.ifThen t c a none)) :: (sc.all c.visits ++ a.places sc)
  | .ifThen t c a (some b) =>
    (sc, .stmt (.ifThen t c a (some b)))
      :: (sc.all c.visits ++ a.places sc ++ b.places (a.after sc))
  | .switch t e cs => (sc, .stmt (.switch t e cs)) :: (sc.all e.visits ++ Case.places sc cs)
  | .decl t d => (sc, .stmt (.decl t d)) :: d.places sc
  | .ret t e => (sc, .stmt (.ret t e)) :: sc.all (Expr.visits? e)
  | .exit t => [(sc, .stmt (.exit t))]
  | .empty t => [(sc, .stmt (.empty t))]
def Block.places (sc : Scopes) : Block → List Place
  | .mk i ss => (sc, .block (.mk i ss)) :: Stmt.allPlaces sc.push ss
def Stmt.allPlaces (sc : Scopes) : List Stmt → List Place
  | [] => []
  | s :: ss => s.places sc ++ Stmt.allPlaces (s.after sc) ss
def Case.places (sc : Scopes) : List Case → List Place
  | [] => []
  | .run _ b :: cs => b.places sc ++ Case.places sc cs
  | .fallThrough _ :: cs => Case.places sc cs
def Decl.places (sc : Scopes) : Decl → List Place
  | .action h ps (.mk i ss) =>
    (sc, .enter (.action h ps (.mk i ss))) :: (sc, .block (.mk i ss))
      :: (Stmt.allPlaces (sc.push.declareParams ps) ss ++ [(sc, .leave (.action h ps (.mk i ss)))])
  | .table h ks as d =>
    (sc, .enter (.table h ks as d))
      :: (sc.all (ks.flatMap Key.visits ++ (Expr.walks as).map .expr ++ Expr.visits? d)
        ++ [(sc, .leave (.table h ks as d))])
  | .control h tps ps cps ls b =>
    (sc, .enter (.control h tps ps cps ls b))
      :: (Decl.allPlaces (sc.enterControl tps ps cps) ls
        ++ b.places ((sc.enterControl tps ps cps).declares ls)
        ++ [(sc, .leave (.control h tps ps cps ls b))])
  | .inst h t as =>
    (sc, .enter (.inst h t as))
      :: (sc.all ((Expr.walks as).map .expr) ++ [(sc, .leave (.inst h t as))])
  | .var h t e =>
    (sc, .enter (.var h t e)) :: (sc.all (Expr.visits? e) ++ [(sc, .leave (.var h t e))])
  | .const h t e =>
    (sc, .enter (.const h t e)) :: (sc.all e.visits ++ [(sc, .leave (.const h t e))])
  | d => [(sc, .enter d), (sc, .leave d)]
def Decl.allPlaces (sc : Scopes) : List Decl → List Place
  | [] => []
  | d :: ds => d.places sc ++ Decl.allPlaces (sc.declare d) ds
end

def Program.top (p : Program) : Scopes := Scopes.empty.declares p.decls

def Program.places (p : Program) : List Place := p.decls.flatMap (·.places p.top)

theorem Expr.visits?_eq (e : Option Expr) : Expr.visits? e = (Expr.walks e.toList).map .expr := by
  cases e with
  | none => rfl
  | some e => exact congrArg (List.map Visit.expr) (append_nil e.walk).symm

variable {n : String}

namespace Scopes

@[simp] theorem pop_push (sc : Scopes) : sc.push.pop = sc := rfl

theorem inner_push_ne (sc : Scopes) : sc.push.inner ≠ [] := cons_ne_nil _ _

theorem define_inner {sc : Scopes} (h : sc.inner ≠ []) (n : String) (r : Referent) :
    (sc.define n r).2.inner ≠ [] ∧ (sc.define n r).2.pop = sc.pop := by
  obtain ⟨inner, top, tps⟩ := sc
  cases inner with
  | nil => exact absurd rfl h
  | cons f fs =>
    unfold define
    split
    · exact ⟨h, rfl⟩
    · exact ⟨cons_ne_nil _ _, rfl⟩

theorem innermost_define {sc : Scopes} (h : sc.innermost.lookup n = none)
    (r : Referent) : (sc.define n r).2.innermost = (n, r) :: sc.innermost := by
  obtain ⟨inner, top, tps⟩ := sc
  unfold define
  rw [h]
  cases inner <;> rfl

theorem declareParams_inner {sc : Scopes} (h : sc.inner ≠ []) (ps : List Param) :
    (sc.declareParams ps).inner ≠ [] ∧ (sc.declareParams ps).pop = sc.pop := by
  induction ps generalizing sc with
  | nil => exact ⟨h, rfl⟩
  | cons p ps ih =>
    obtain ⟨hp, he⟩ := define_inner h p.name (.param p)
    exact ⟨(ih hp).1, (ih hp).2.trans he⟩

theorem declares_inner {sc : Scopes} (h : sc.inner ≠ []) (ds : List Decl) :
    (sc.declares ds).inner ≠ [] ∧ (sc.declares ds).pop = sc.pop := by
  induction ds generalizing sc with
  | nil => exact ⟨h, rfl⟩
  | cons d ds ih =>
    obtain ⟨hd, he⟩ := define_inner h d.name (.decl d)
    exact ⟨(ih hd).1, (ih hd).2.trans he⟩

end Scopes

theorem Stmt.after_inner : (s : Stmt) → {sc : Scopes} → sc.inner ≠ [] →
    (s.after sc).inner ≠ [] ∧ (s.after sc).pop = sc.pop
  | .decl _ d, _, h => Scopes.define_inner h d.name (.decl d)
  | .ifThen _ _ a none, _, h => Stmt.after_inner a h
  | .ifThen _ _ a (some b), _, h => by
    obtain ⟨ha, he⟩ := Stmt.after_inner a h
    obtain ⟨hb, he'⟩ := Stmt.after_inner b ha
    exact ⟨hb, he'.trans he⟩
  | .block .., _, h | .assign .., _, h | .call .., _, h | .switch .., _, h | .ret .., _,
    h | .exit _, _, h
  | .empty _, _, h => ⟨h, rfl⟩

theorem Stmt.afters_inner (h : sc.inner ≠ []) (ss : List Stmt) :
    (Stmt.afters sc ss).inner ≠ [] ∧ (Stmt.afters sc ss).pop = sc.pop := by
  induction ss generalizing sc with
  | nil => exact ⟨h, rfl⟩
  | cons s ss ih =>
    obtain ⟨hs, he⟩ := Stmt.after_inner s h
    exact ⟨(ih hs).1, (ih hs).2.trans he⟩

variable {r : Referent}

namespace Scopes

theorem pop_action (sc : Scopes) (ps : List Param) (ss : List Stmt) :
    (Stmt.afters (sc.push.declareParams ps) ss).pop = sc := by
  have h := declareParams_inner sc.inner_push_ne ps
  rw [(Stmt.afters_inner h.1 ss).2, h.2, pop_push]

theorem pop_control (sc : Scopes) (ps cps : List Param) (ls : List Decl) :
    (((sc.push.declareParams cps).declareParams ps).declares ls).pop = sc := by
  have h₁ := declareParams_inner sc.inner_push_ne cps
  have h₂ := declareParams_inner h₁.1 ps
  rw [(declares_inner h₂.1 ls).2, h₂.2, h₁.2, pop_push]

theorem lookup_push (sc : Scopes) (n : String) : sc.push.lookup n = sc.lookup n := rfl

theorem lookup_define {sc : Scopes} {k : String} {x : Referent}
    (h : (sc.define k r).2.lookup n = some x) : (n = k ∧ x = r) ∨ sc.lookup n = some x := by
  obtain ⟨inner, top, tps⟩ := sc
  unfold define at h
  split at h
  · exact .inr h
  · by_cases hn : n = k
    · subst hn
      refine .inl ⟨rfl, ?_⟩
      cases inner <;> simp [lookup] at h <;> exact h.symm
    · have hbeq : (n == k) = false := beq_eq_false_iff_ne.2 hn
      refine .inr ?_
      cases inner with
      | nil => simpa only [lookup, lookup_cons, hbeq] using h
      | cons f fs => simpa only [lookup, findSome?_cons, lookup_cons, hbeq] using h

end Scopes

theorem Stmt.lookup_after : (s : Stmt) → ∀ {sc : Scopes} {n : String} {x : Referent},
    (s.after sc).lookup n = some x →
      sc.lookup n = some x ∨ ∃ t d, .stmt (.decl t d) ∈ s.visits ∧ n = d.name ∧ x = .decl d
  | .decl t d, sc, n, x, h => (Scopes.lookup_define h).symm.imp_right fun hx =>
    ⟨t, d, by simp [Stmt.visits], hx⟩
  | .ifThen _ _ a none, sc, n, x, h => by
    rcases Stmt.lookup_after a h with h | ⟨t, d, hd, hx⟩
    · exact .inl h
    · exact .inr ⟨t, d, by simp [Stmt.visits, hd], hx⟩
  | .ifThen _ _ a (some b), sc, n, x, h => by
    rcases Stmt.lookup_after b h with h | ⟨t, d, hd, hx⟩
    · rcases Stmt.lookup_after a h with h | ⟨t, d, hd, hx⟩
      · exact .inl h
      · exact .inr ⟨t, d, by simp [Stmt.visits, hd], hx⟩
    · exact .inr ⟨t, d, by simp [Stmt.visits, hd], hx⟩
  | .block .., _, _, _, h | .assign .., _, _, _, h | .call .., _, _, _, h | .switch .., _, _, _, h
  | .ret .., _, _, _, h | .exit _, _, _, _, h | .empty _, _, _, _, h => .inl h

@[simp] theorem Scopes.map_snd_all (sc : Scopes) (vs : List Visit) :
    (sc.all vs).map (·.2) = vs := by
  rw [Scopes.all, map_map]
  exact map_id vs

mutual
theorem Stmt.map_snd_places : (s : Stmt) → ∀ sc, (s.places sc).map (·.2) = s.visits
  | .block _ b, sc => by simp [Stmt.places, Stmt.visits, Block.map_snd_places b sc]
  | .assign .., sc | .call .., sc => by simp [Stmt.places, Stmt.visits]
  | .ifThen _ _ a none, sc => by simp [Stmt.places, Stmt.visits, Stmt.map_snd_places a sc]
  | .ifThen _ _ a (some b), sc => by
    simp [Stmt.places, Stmt.visits, Stmt.map_snd_places a sc, Stmt.map_snd_places b]
  | .switch _ _ cs, sc => by simp [Stmt.places, Stmt.visits, Case.map_snd_places cs sc]
  | .decl _ d, sc => by simp [Stmt.places, Stmt.visits, Decl.map_snd_places d sc]
  | .ret .., sc => by simp [Stmt.places, Stmt.visits]
  | .exit _, _ | .empty _, _ => rfl
theorem Block.map_snd_places : (b : Block) → ∀ sc, (b.places sc).map (·.2) = b.visits
  | .mk _ ss, sc => by simp [Block.places, Block.visits, Stmt.map_snd_allPlaces ss]
theorem Stmt.map_snd_allPlaces : (ss : List Stmt) → ∀ sc,
    (Stmt.allPlaces sc ss).map (·.2) = Stmt.allVisits ss
  | [], _ => rfl
  | s :: ss, sc => by
    simp [Stmt.allPlaces, Stmt.allVisits, Stmt.map_snd_places s, Stmt.map_snd_allPlaces ss]
theorem Case.map_snd_places : (cs : List Case) → ∀ sc, (Case.places sc cs).map (·.2) =
    Case.visits cs
  | [], _ => rfl
  | .run _ b :: cs, sc => by
    simp [Case.places, Case.visits, Block.map_snd_places b, Case.map_snd_places cs]
  | .fallThrough _ :: cs, sc => by simp [Case.places, Case.visits, Case.map_snd_places cs]
theorem Decl.map_snd_places : (d : Decl) → ∀ sc, (d.places sc).map (·.2) = d.visits
  | .action h ps (.mk i ss), sc => by
    simp [Decl.places, Decl.visits, Block.visits, Stmt.map_snd_allPlaces ss]
  | .control _ _ _ _ ls b, sc => by
    simp [Decl.places, Decl.visits, Decl.map_snd_allPlaces ls, Block.map_snd_places b]
  | .table .., sc | .inst .., sc | .var .., sc | .const .., sc => by simp [Decl.places, Decl.visits]
  | .header .., _ | .struct .., _ | .externType .., _ | .externFn .., _ | .package .., _ => rfl
theorem Decl.map_snd_allPlaces : (ds : List Decl) → ∀ sc,
    (Decl.allPlaces sc ds).map (·.2) = Decl.allVisits ds
  | [], _ => rfl
  | d :: ds, sc => by
    simp [Decl.allPlaces, Decl.allVisits, Decl.map_snd_places d, Decl.map_snd_allPlaces ds]
end

theorem Program.map_snd_places (p : Program) : p.places.map (·.2) = p.visits := by
  obtain ⟨ds⟩ := p
  unfold Program.places Program.visits
  generalize Program.top ⟨ds⟩ = sc
  induction ds with
  | nil => rfl
  | cons d ds ih => simp [Decl.allVisits, Decl.map_snd_places d, ← ih]

def Place.below : Place → List Place
  | (sc, .enter d) => d.places sc
  | (sc, .stmt s) => s.places sc
  | _ => []

def Visit.inner : Visit → List Visit
  | .stmt (.assign _ l r) => l.visits ++ r.visits
  | .stmt (.call _ e) => e.visits
  | .stmt (.ifThen _ c _ _) => c.visits
  | .stmt (.switch _ e _) => e.visits
  | .stmt (.ret _ e) => Expr.visits? e
  | .enter (.table _ ks as d) =>
    ks.flatMap Key.visits ++ ((Expr.walks as).map .expr ++ (Expr.walks d.toList).map .expr)
  | .enter (.inst _ _ as) => (Expr.walks as).map .expr
  | .enter (.var _ _ e) => Expr.visits? e
  | .enter (.const _ _ e) => e.visits
  | _ => []

theorem Visit.inner_cases {v w : Visit} (h : w ∈ v.inner) : (∃ k, w = .key k) ∨
    ∃ e, w = .expr e := by
  have hmap {es : List Expr} (h : w ∈ es.map Visit.expr) : (∃ k, w = .key k) ∨
      ∃ e, w = .expr e := by
    obtain ⟨e, -, rfl⟩ := mem_map.1 h
    exact .inr ⟨e, rfl⟩
  have hopt {e : Option Expr} (h : w ∈ Expr.visits? e) : (∃ k, w = .key k) ∨ ∃ e, w = .expr e :=
    hmap (Expr.visits?_eq e ▸ h)
  cases v with
  | stmt s =>
    cases s with
    | assign t l r => exact (mem_append.1 h).elim hmap hmap
    | call t e => exact hmap h
    | ifThen t c a b => exact hmap h
    | switch t e cs => exact hmap h
    | ret t e => exact hopt h
    | _ => cases h
  | enter d =>
    cases d with
    | table hd ks as x =>
      rcases mem_append.1 h with h | h
      · obtain ⟨k, -, h⟩ := mem_flatMap.1 h
        exact (mem_cons.1 h).elim (fun h => .inl ⟨k, h⟩) hmap
      · exact (mem_append.1 h).elim hmap hmap
    | inst hd ty as => exact hmap h
    | var hd ty e => exact hopt h
    | const hd ty e => exact hmap h
    | _ => cases h
  | _ => cases h

variable {l : List Place} {pl : Place}

theorem Scopes.all_append (sc : Scopes) (vs ws : List Visit) :
    sc.all (vs ++ ws) = sc.all vs ++ sc.all ws := map_append

/-- What holds of lists that are put together, and of a node with its expressions before what stands
below it. -/
structure Listing (X : List Place → Prop) : Prop where
  nil : X []
  append : ∀ {l l'}, X l → X l' → X (l ++ l')
  node : ∀ {sc v l}, X l → v.expr? = none → Place.below (sc, v) ⊆ (sc, v) :: (sc.all v.inner ++ l) →
    X ((sc, v) :: (sc.all v.inner ++ l))

namespace Listing

variable {X : List Place → Prop}

theorem leave (hX : Listing X) (sc : Scopes) (d : Decl) : X [(sc, .leave d)] :=
  hX.node (v := .leave d) hX.nil rfl (nil_subset _)

theorem leaf (hX : Listing X) {s : Stmt}
    (h : s.places sc = (sc, .stmt s) :: sc.all (Visit.inner (.stmt s))) : X (s.places sc) := by
  rw [h, ← append_nil (sc.all _)]
  exact hX.node hX.nil rfl (by rw [append_nil, ← h]; exact List.Subset.refl _)

theorem around (hX : Listing X) {d : Decl} (h : d.places sc =
    (sc, .enter d) :: (sc.all (Visit.inner (.enter d)) ++ [(sc, .leave d)])) : X (d.places sc) := by
  rw [h]
  exact hX.node (hX.leave sc d) rfl (h ▸ List.Subset.refl _)

mutual
theorem stmt (hX : Listing X) : (s : Stmt) → ∀ sc, X (s.places sc)
  | .assign .., sc | .call .., sc | .ret .., sc | .exit _, sc | .empty _, sc => hX.leaf rfl
  | .block t b, sc => hX.node (v := .stmt (.block t b)) (block hX b sc) rfl (List.Subset.refl _)
  | .ifThen t c a none, sc =>
    hX.node (v := .stmt (.ifThen t c a none)) (stmt hX a sc) rfl (List.Subset.refl _)
  | .ifThen t c a (some b), sc => by
    have hab := hX.append (stmt hX a sc) (stmt hX b (a.after sc))
    rw [Stmt.places, append_assoc]
    refine hX.node (v := .stmt (.ifThen t c a (some b))) hab rfl ?_
    rw [Place.below, Stmt.places, append_assoc]
    exact List.Subset.refl _
  | .switch t e cs, sc =>
    hX.node (v := .stmt (.switch t e cs)) (cases hX cs sc) rfl (List.Subset.refl _)
  | .decl t d, sc => hX.node (v := .stmt (.decl t d)) (decl hX d sc) rfl (List.Subset.refl _)
theorem block (hX : Listing X) : (b : Block) → ∀ sc, X (b.places sc)
  | .mk i ss, sc => hX.node (v := .block (.mk i ss)) (stmts hX ss sc.push) rfl (nil_subset _)
theorem stmts (hX : Listing X) : (ss : List Stmt) → ∀ sc, X (Stmt.allPlaces sc ss)
  | [], _ => hX.nil
  | s :: ss, sc => hX.append (stmt hX s sc) (stmts hX ss _)
theorem cases (hX : Listing X) : (cs : List Case) → ∀ sc, X (Case.places sc cs)
  | [], _ => hX.nil
  | .run _ b :: cs, sc => hX.append (block hX b sc) (cases hX cs sc)
  | .fallThrough _ :: cs, sc => cases hX cs sc
theorem decl (hX : Listing X) : (d : Decl) → ∀ sc, X (d.places sc)
  | .action h ps (.mk i ss), sc => hX.node (v := .enter (.action h ps (.mk i ss)))
      (hX.node (v := .block (.mk i ss)) (hX.append (stmts hX ss _) (hX.leave sc _)) rfl
        (nil_subset _)) rfl (List.Subset.refl _)
  | .control h tps ps cps ls b, sc => hX.node (v := .enter (.control h tps ps cps ls b))
      (hX.append (hX.append (decls hX ls _) (block hX b _)) (hX.leave sc _))
        rfl (List.Subset.refl _)
  | .table .., sc => hX.around (by rw [Decl.places, append_assoc, Expr.visits?_eq, Visit.inner])
  | .inst .., sc | .var .., sc | .const .., sc | .header .., sc | .struct .., sc
  | .externType .., sc | .externFn .., sc | .package .., sc => hX.around rfl
theorem decls (hX : Listing X) : (ds : List Decl) → ∀ sc, X (Decl.allPlaces sc ds)
  | [], _ => hX.nil
  | d :: ds, sc => hX.append (decl hX d sc) (decls hX ds _)
end

theorem program (hX : Listing X) (p : Program) : X p.places := by
  unfold Program.places
  generalize p.top = sc
  induction p.decls with
  | nil => exact hX.nil
  | cons d ds ih => exact hX.append (hX.decl d sc) ih

end Listing

theorem listing_with {f : Place → List Place} (hkey : ∀ sc k, f (sc, .key k) = [])
    (hexpr : ∀ sc e, f (sc, .expr e) = []) (hnode : ∀ {sc v l}, Place.below (sc, v) ⊆
      (sc, v) :: (sc.all v.inner ++ l) → f (sc, v) ⊆ (sc, v) :: (sc.all v.inner ++ l)) :
    Listing fun l => ∀ pl ∈ l, f pl ⊆ l where
  nil := forall_mem_nil _
  append h h' := forall_mem_append.2
    ⟨fun pl hpl => subset_append_of_subset_left _ (h pl hpl),
      fun pl hpl => subset_append_of_subset_right _ (h' pl hpl)⟩
  node {sc v l} h _ hb := by
    refine forall_mem_cons.2 ⟨hnode hb, forall_mem_append.2 ⟨fun pl hpl => ?_, fun pl hpl => ?_⟩⟩
    · obtain ⟨w, hw, rfl⟩ := mem_map.1 hpl
      rcases Visit.inner_cases hw with ⟨k, rfl⟩ | ⟨e, rfl⟩
      · exact hkey sc k ▸ nil_subset _
      · exact hexpr sc e ▸ nil_subset _
    · exact subset_cons_of_subset _ (subset_append_of_subset_right _ (h pl hpl))

def Closed (l : List Place) : Prop := ∀ pl ∈ l, pl.below ⊆ l

theorem closed_listing : Listing Closed := listing_with (fun _ _ => rfl) (fun _ _ => rfl) id

theorem Program.closed_places (p : Program) : Closed p.places := closed_listing.program p

theorem Decl.enter_mem_places (d : Decl) (sc : Scopes) : (sc, .enter d) ∈ d.places sc := by
  match d with
  | .action h ps (.mk i ss) | .table .. | .control .. | .inst .. | .var .. | .const ..
  | .header .. | .struct .. | .externType .. | .externFn .. | .package .. => exact .head _

def Decl.referents : Decl → List Referent
  | .externType h tps cs ms => [.decl (.externType h tps cs ms)]
  | d => .decl d :: d.params.map .param

theorem Decl.self_mem_referents (d : Decl) : .decl d ∈ d.referents := by
  cases d <;> simp [Decl.referents]

def Visit.referents : Visit → List Referent
  | .enter d => d.referents
  | _ => []

namespace Scopes

/-- Names stand for referents of that name: for some of `R` below the toplevel, for some of `T` at
the toplevel. -/
structure Hold (R T : Referent → Prop) (sc : Scopes) : Prop where
  inner : ∀ f ∈ sc.inner, ∀ x ∈ f, x.2.name = x.1 ∧ R x.2
  top : ∀ x ∈ sc.top, x.2.name = x.1 ∧ T x.2

section

variable {R T : Referent → Prop} {sc : Scopes}

theorem Hold.push (h : sc.Hold R T) : sc.push.Hold R T :=
  ⟨fun f hf => by
    rcases mem_cons.1 hf with rfl | hf
    · exact fun x hx => absurd hx not_mem_nil
    · exact h.inner f hf, h.top⟩

theorem Hold.pushTypeParams (h : sc.Hold R T) (tps : List String) :
    (sc.pushTypeParams tps).Hold R T := ⟨h.inner, h.top⟩

theorem Hold.define (h : sc.Hold R T) (hi : sc.inner ≠ []) (hr : R r) :
    (sc.define r.name r).2.Hold R T := by
  obtain ⟨inner, top, tps⟩ := sc
  cases inner with
  | nil => exact absurd rfl hi
  | cons f fs =>
    unfold Scopes.define
    split
    · exact h
    · refine ⟨fun g hg => ?_, h.top⟩
      rcases mem_cons.1 hg with rfl | hg
      · exact forall_mem_cons.2 ⟨⟨rfl, hr⟩, h.inner f (.head _)⟩
      · exact h.inner g (.tail _ hg)

theorem mem_of_lookup {f : Frame} (h : f.lookup n = some r) :
    (n, r) ∈ f := by
  induction f with
  | nil => cases h
  | cons x f ih =>
    obtain ⟨k, v⟩ := x
    rw [lookup_cons] at h
    by_cases hk : n = k
    · subst hk
      simp only [beq_self_eq_true] at h
      cases h
      exact .head _
    · rw [beq_eq_false_iff_ne.2 hk] at h
      exact .tail _ (ih h)

theorem Hold.lookup (h : sc.Hold R T) (hl : sc.lookup n = some r) :
    r.name = n ∧ (R r ∨ T r) := by
  unfold Scopes.lookup at hl
  rcases Option.or_eq_some_iff.1 hl with hl | ⟨-, hl⟩
  · obtain ⟨f, hf, hl⟩ := exists_of_findSome?_eq_some hl
    obtain ⟨hn, hr⟩ := h.inner f hf _ (mem_of_lookup hl)
    exact ⟨hn, .inl hr⟩
  · obtain ⟨hn, hr⟩ := h.top _ (mem_of_lookup hl)
    exact ⟨hn, .inr hr⟩

end

end Scopes

def Brings (R : Referent → Prop) (vs : List Visit) : Prop := ∀ v ∈ vs, ∀ r ∈ v.referents, R r

theorem Brings.mono (h : Brings R ws) (hs : vs ⊆ ws) :
    Brings R vs := fun v hv => h v (hs hv)

theorem Brings.tail (h : Brings R (v :: vs)) : Brings R vs := h.mono (subset_cons_self _ _)

theorem Brings.append (h : Brings R (vs ++ ws)) : Brings R vs ∧ Brings R ws :=
  forall_mem_append.1 h

variable {d : Decl}

section

variable {R T : Referent → Prop}

theorem Brings.decl (h : Brings R (Decl.allVisits ds)) (hd : d ∈ ds) :
    R (.decl d) :=
  h (.enter d) (Decl.mem_allVisits.2 ⟨d, hd, d.enter_mem_visits⟩) _ d.self_mem_referents

/-- Kept where frames and controls are entered and where names come into sight below the toplevel,
for referents of `R`. -/
structure Scopes.Stable (R : Referent → Prop) (P : Scopes → Prop) : Prop where
  push : ∀ {sc}, P sc → P sc.push
  pushTypeParams : ∀ {sc h tps ps cps ls b}, P sc → R (.decl (.control h tps ps cps ls b)) →
    P (sc.pushTypeParams tps)
  define : ∀ {sc r}, P sc → sc.inner ≠ [] → R r → P (sc.define r.name r).2

theorem Scopes.stable_hold : Stable R (Hold R T) :=
  ⟨.push, fun h _ => h.pushTypeParams _, .define⟩

namespace Scopes.Stable

variable {P : Scopes → Prop} (hP : Stable R P)
include hP

theorem declareParams (h : P sc) (hi : sc.inner ≠ []) (hps : ∀ p ∈ ps, R (.param p)) :
    P (sc.declareParams ps) := by
  induction ps generalizing sc with
  | nil => exact h
  | cons p ps ih =>
    exact ih (hP.define h hi (hps p (.head _))) (define_inner hi p.name (.param p)).1
      fun q hq => hps q (.tail _ hq)

theorem declares (h : P sc) (hi : sc.inner ≠ []) (hds : ∀ d ∈ ds, R (.decl d)) :
    P (sc.declares ds) := by
  induction ds generalizing sc with
  | nil => exact h
  | cons d ds ih =>
    exact ih (hP.define h hi (hds d (.head _))) (define_inner hi d.name (.decl d)).1
      fun d' hd' => hds d' (.tail _ hd')

theorem enterControl {sc : Scopes} {tps : List String} (h : P (sc.pushTypeParams tps))
    (ps cps : List Param) (hps : ∀ p ∈ cps ++ ps, R (.param p)) :
    P (sc.enterControl tps ps cps) ∧ (sc.enterControl tps ps cps).inner ≠ [] := by
  have hi := declareParams_inner (sc.pushTypeParams tps).inner_push_ne cps
  refine ⟨hP.declareParams (hP.declareParams (hP.push h) (inner_push_ne _)
    fun p hp => hps p (mem_append_left _ hp)) hi.1 fun p hp => hps p (mem_append_right _ hp), ?_⟩
  exact (declareParams_inner hi.1 ps).1

theorem declare (h : P sc) (hi : sc.inner ≠ []) (hd : Brings R d.visits) : P (sc.declare d) :=
  hP.define h hi (hd (.enter d) d.enter_mem_visits _ d.self_mem_referents)

theorem after : (s : Stmt) → Brings R s.visits → ∀ {sc}, P sc → sc.inner ≠ [] → P (s.after sc)
  | .decl .., hb, _, h, hi => hP.declare h hi hb.tail
  | .ifThen _ _ a none, hb, _, h, hi => after a hb.tail.append.2 h hi
  | .ifThen _ _ a (some b), hb, _, h, hi => after b hb.tail.append.2
      (after a hb.tail.append.1.append.2 h hi) (Stmt.after_inner a hi).1
  | .block .., _, _, h, _ | .assign .., _, _, h, _ | .call .., _, _, h, _ | .switch .., _, _, h, _
  | .ret .., _, _, h, _ | .exit _, _, _, h, _ | .empty _, _, _, h, _ => h

omit hP

theorem all (h : P sc) (vs : List Visit) : ∀ pl ∈ sc.all vs, P pl.1 := forall_mem_map.2 fun _ _ => h

mutual
theorem stmt (hP : Stable R P) : (s : Stmt) → Brings R s.visits → ∀ {sc}, P sc → sc.inner ≠ [] →
    ∀ pl ∈ s.places sc, P pl.1
  | .block _ b, hb, _, h, _ =>
    forall_mem_cons.2 ⟨h, block hP b hb.tail h⟩
  | .assign .., _, _, h, _ | .call .., _, _, h, _ | .ret .., _, _, h, _ =>
    forall_mem_cons.2 ⟨h, all h _⟩
  | .ifThen _ _ a none, hb, _, h, hi => forall_mem_cons.2 ⟨h, forall_mem_append.2
    ⟨all h _, stmt hP a hb.tail.append.2 h hi⟩⟩
  | .ifThen _ _ a (some b), hb, _, h, hi => by
    have ha : Brings R a.visits := hb.tail.append.1.append.2
    have hb' : Brings R b.visits := hb.tail.append.2
    exact forall_mem_cons.2 ⟨h, forall_mem_append.2 ⟨forall_mem_append.2 ⟨all h _,
      stmt hP a ha h hi⟩, stmt hP b hb' (hP.after a ha h hi) (Stmt.after_inner a hi).1⟩⟩
  | .switch _ _ cs, hb, _, h, _ => forall_mem_cons.2 ⟨h, forall_mem_append.2
    ⟨all h _, cases hP cs hb.tail.append.2 h⟩⟩
  | .decl _ d, hb, _, h, _ =>
    forall_mem_cons.2 ⟨h, decl hP d hb.tail h⟩
  | .exit _, _, _, h, _ | .empty _, _, _, h, _ => forall_mem_singleton.2 h
theorem block (hP : Stable R P) : (b : Block) → Brings R b.visits → ∀ {sc}, P sc →
    ∀ pl ∈ b.places sc, P pl.1
  | .mk _ ss, hb, sc, h => forall_mem_cons.2 ⟨h, stmts hP ss
    hb.tail (hP.push h) sc.inner_push_ne⟩
theorem stmts (hP : Stable R P) : (ss : List Stmt) → Brings R (Stmt.allVisits ss) → ∀ {sc}, P sc →
    sc.inner ≠ [] → ∀ pl ∈ Stmt.allPlaces sc ss, P pl.1
  | [], _, _, _, _ => forall_mem_nil _
  | s :: ss, hb, _, h, hi => by
    have hs : Brings R s.visits := hb.append.1
    exact forall_mem_append.2 ⟨stmt hP s hs h hi, stmts hP ss hb.append.2
      (hP.after s hs h hi) (Stmt.after_inner s hi).1⟩
theorem cases (hP : Stable R P) : (cs : List Case) → Brings R (Case.visits cs) → ∀ {sc}, P sc →
    ∀ pl ∈ Case.places sc cs, P pl.1
  | [], _, _, _ => forall_mem_nil _
  | .run _ b :: cs, hb, _, h => forall_mem_append.2
    ⟨block hP b hb.append.1 h,
      cases hP cs hb.append.2 h⟩
  | .fallThrough _ :: cs, hb, _, h => cases hP cs hb h
theorem decl (hP : Stable R P) : (d : Decl) → Brings R d.visits → ∀ {sc}, P sc →
    ∀ pl ∈ d.places sc, P pl.1
  | .action hd ps (.mk i ss), hb, sc, h => by
    have hps : ∀ p ∈ ps, R (.param p) := fun p hp =>
      hb (.enter (.action hd ps (.mk i ss))) (by simp [Decl.visits]) _
        (by simp [Visit.referents, Decl.referents, Decl.params, hp])
    have hss := stmts hP ss hb.tail.append.1.tail
      (hP.declareParams (hP.push h) sc.inner_push_ne hps)
        (declareParams_inner sc.inner_push_ne ps).1
    exact forall_mem_cons.2 ⟨h, forall_mem_cons.2 ⟨h, forall_mem_append.2
      ⟨hss, forall_mem_singleton.2 h⟩⟩⟩
  | .control hd tps ps cps ls b, hb, sc, h => by
    have hps : ∀ p ∈ cps ++ ps, R (.param p) := fun p hp =>
      hb (.enter (.control hd tps ps cps ls b)) (by simp [Decl.visits]) _
        (by simpa [Visit.referents, Decl.referents, Decl.params] using hp)
    have hcontrol : R (.decl (.control hd tps ps cps ls b)) :=
      hb _ (.head _) _ (Decl.self_mem_referents _)
    obtain ⟨hin, hi⟩ := hP.enterControl (hP.pushTypeParams h hcontrol) ps cps hps
    have hls : Brings R (Decl.allVisits ls) := hb.tail.append.1.append.1
    have hbody := block hP b hb.tail.append.1.append.2
      (hP.declares hin hi fun d hd => hls.decl hd)
    exact forall_mem_cons.2 ⟨h, forall_mem_append.2 ⟨forall_mem_append.2
      ⟨decls hP ls hls hin hi, hbody⟩, forall_mem_singleton.2 h⟩⟩
  | .table .., _, _, h | .inst .., _, _, h | .var .., _, _, h | .const .., _, _, h =>
    forall_mem_cons.2 ⟨h, forall_mem_append.2 ⟨all h _, forall_mem_singleton.2 h⟩⟩
  | .header .., _, _, h | .struct .., _, _, h | .externType .., _, _, h | .externFn .., _, _, h
  | .package .., _, _, h => forall_mem_cons.2 ⟨h, forall_mem_singleton.2 h⟩
theorem decls (hP : Stable R P) : (ds : List Decl) → Brings R (Decl.allVisits ds) → ∀ {sc}, P sc →
    sc.inner ≠ [] → ∀ pl ∈ Decl.allPlaces sc ds, P pl.1
  | [], _, _, _, _ => forall_mem_nil _
  | d :: ds, hb, _, h, hi => by
    have hd : Brings R d.visits := hb.append.1
    exact forall_mem_append.2 ⟨decl hP d hd h, decls hP ds hb.append.2
      (hP.declare h hi hd) (define_inner hi d.name (.decl d)).1⟩
end

end Scopes.Stable

end

namespace Program

variable {p : Program}

def referents (p : Program) : List Referent := p.allDecls.flatMap Decl.referents

theorem names_referents (p : Program) : (Names.ofProgram p).used = p.referents.map (·.name) := by
  have hd : Names.ofDecl = fun d => d.referents.map (·.name) := by
    funext d
    cases d <;> simp [Names.ofDecl, Decl.referents, Decl.name, Decl.params, Referent.name] <;> rfl
  rw [Names.ofProgram, referents, map_flatMap, hd]

theorem mem_allDecls : d ∈ p.allDecls ↔ .enter d ∈ p.visits := by
  simp only [allDecls, mem_filterMap]
  constructor
  · rintro ⟨v, hv, hd⟩
    cases v <;> cases hd
    exact hv
  · intro h
    exact ⟨_, h, rfl⟩

theorem brings_visits (p : Program) : Brings (· ∈ p.referents) p.visits := by
  intro v hv r hr
  cases v with
  | enter d => exact mem_flatMap.2 ⟨d, mem_allDecls.2 hv, hr⟩
  | _ => cases hr

theorem visits_subset_of_mem (hd : d ∈ p.decls) : d.visits ⊆ p.visits :=
  fun _ hv => Decl.mem_allVisits.2 ⟨d, hd, hv⟩

theorem hold_top (R : Referent → Prop) (p : Program) :
    p.top.inner = [] ∧ p.top.Hold R fun r => ∃ d ∈ p.decls, r = .decl d := by
  have hfold : ∀ (ds : List Decl) (sc : Scopes), sc.inner = [] → (∀ d ∈ ds, d ∈ p.decls) →
      sc.Hold R (fun r => ∃ d ∈ p.decls, r = .decl d) →
      (sc.declares ds).inner = [] ∧
        (sc.declares ds).Hold R fun r => ∃ d ∈ p.decls, r = .decl d := by
    intro ds
    induction ds with
    | nil => exact fun sc hi _ h => ⟨hi, h⟩
    | cons d ds ih =>
      intro sc hi hds h
      obtain ⟨inner, top, tps⟩ := sc
      cases hi
      refine ih _ ?_ (fun d hd => hds d (.tail _ hd)) ?_
      · unfold Scopes.declare Scopes.define
        split <;> rfl
      · unfold Scopes.declare Scopes.define
        split
        · exact h
        · exact ⟨h.inner, forall_mem_cons.2 ⟨⟨rfl, d, hds d (.head _), rfl⟩, h.top⟩⟩
  exact hfold p.decls .empty rfl (fun _ hd => hd)
    ⟨fun _ hf => absurd hf not_mem_nil, fun _ hx => absurd hx not_mem_nil⟩

theorem hold_places (h : pl ∈ p.places) :
    pl.1.Hold (· ∈ p.referents) (· ∈ p.referents) := by
  obtain ⟨d, hd, hpl⟩ := mem_flatMap.1 h
  have htop : p.top.Hold (· ∈ p.referents) (· ∈ p.referents) := by
    obtain ⟨-, ht⟩ := p.hold_top (· ∈ p.referents)
    refine ⟨ht.inner, fun x hx => ⟨(ht.top x hx).1, ?_⟩⟩
    obtain ⟨d', hd', heq⟩ := (ht.top x hx).2
    have hmem : Visit.enter d' ∈ d'.visits := by cases d' <;> simp [Decl.visits]
    exact p.brings_visits _ (visits_subset_of_mem hd' hmem) _ (heq ▸ d'.self_mem_referents)
  exact Scopes.stable_hold.decl d (p.brings_visits.mono (visits_subset_of_mem hd)) htop pl hpl

theorem lookup_of_place (h : pl ∈ p.places)
    (hl : pl.1.lookup n = some r) : r.name = n ∧ r ∈ p.referents :=
  ⟨((hold_places h).lookup hl).1, ((hold_places h).lookup hl).2.elim id id⟩

theorem exists_place (h : v ∈ p.visits) : ∃ sc, (sc, v) ∈ p.places := by
  rw [← p.map_snd_places] at h
  obtain ⟨⟨sc, _⟩, hpl, rfl⟩ := mem_map.1 h
  exact ⟨sc, hpl⟩

theorem mem_visits (h : pl ∈ p.places) : pl.2 ∈ p.visits :=
  p.map_snd_places ▸ mem_map_of_mem h

theorem referents_subset (h : .enter d ∈ p.visits) : d.referents ⊆ p.referents :=
  fun x hx => p.brings_visits _ h x hx

theorem enter_mem_visits (h : .stmt (.decl t d) ∈ p.visits) :
    .enter d ∈ p.visits := by
  obtain ⟨sc, hpl⟩ := exists_place h
  exact mem_visits (p.closed_places _ hpl (.tail _ (d.enter_mem_places sc)))

theorem visits_subset_of_enter (h : .enter d ∈ p.visits) : d.visits ⊆ p.visits := by
  obtain ⟨sc, hpl⟩ := exists_place h
  intro v hv
  rw [← d.map_snd_places sc] at hv
  obtain ⟨pl, hmem, rfl⟩ := mem_map.1 hv
  exact mem_visits (p.closed_places _ hpl hmem)

end Program

namespace Frame

def add (f : Frame) (n : String) (r : Referent) : Frame :=
  if (f.lookup n).isSome then f else (n, r) :: f

end Frame

namespace Scopes

def frames (sc : Scopes) : List Frame := sc.inner ++ [sc.top]

theorem frames_eq_cons (sc : Scopes) : sc.frames = sc.innermost :: sc.frames.tail := by
  obtain ⟨inner, top, tps⟩ := sc
  cases inner <;> rfl

theorem frames_define (sc : Scopes) (n : String) (r : Referent) :
    (sc.define n r).2.frames = sc.innermost.add n r :: sc.frames.tail := by
  obtain ⟨inner, top, tps⟩ := sc
  cases inner with
  | nil =>
    unfold define Frame.add
    cases h : (Scopes.mk [] top tps).innermost.lookup n <;> rfl
  | cons f fs =>
    unfold define Frame.add
    cases h : (Scopes.mk (f :: fs) top tps).innermost.lookup n <;> rfl

theorem innermost_define_eq (sc : Scopes) (n : String) (r : Referent) :
    (sc.define n r).2.innermost = sc.innermost.add n r := by
  have h := sc.frames_define n r
  rw [frames_eq_cons] at h
  exact (List.cons.inj h).1

theorem lookup_eq_findSome? (sc : Scopes) (n : String) :
    sc.lookup n = sc.frames.findSome? (·.lookup n) := by
  rw [lookup, frames, findSome?_append]
  congr 1
  cases h : sc.top.lookup n <;> simp [h]

theorem lookup_define_eq (sc : Scopes) (n m : String) (r : Referent) :
    (sc.define n r).2.lookup m =
      if (sc.innermost.lookup n).isSome = false ∧ m = n then some r else sc.lookup m := by
  rw [lookup_eq_findSome?, lookup_eq_findSome?, frames_define, sc.frames_eq_cons, Frame.add,
    findSome?_cons, findSome?_cons, tail_cons]
  cases (sc.innermost.lookup n).isSome with
  | true => simp
  | false =>
    by_cases hm : m = n
    · simp [hm]
    · simp [hm, lookup_cons, beq_eq_false_iff_ne.2 hm]

end Scopes

end MatchAction
