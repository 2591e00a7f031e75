import Mathlib.Data.List.Chain
import Mathlib.Data.List.Nodup
import Mathlib.Logic.Relation
import MatchAction.Inline.WorkList

namespace MatchAction

open List

section

variable {α : Type} {R : α → α → Prop}

theorem exists_transGen_of_isChain {l : List α} (hlong : 2 ≤ l.length) (hwalk : l.IsChain R)
    (hclosed : l.head? = l.getLast?) : ∃ a, Relation.TransGen R a a := by
  match l, hlong, hwalk, hclosed with
  | a :: b :: l, _, hwalk, hclosed =>
    obtain ⟨hfirst, hrest⟩ := isChain_cons_cons.1 hwalk
    have hlast : (b :: l).getLast (cons_ne_nil _ _) = a := by
      rw [getLast?_cons_cons, getLast?_eq_some_getLast (cons_ne_nil _ _)] at hclosed
      exact (Option.some.inj hclosed).symm
    exact ⟨a, .head' hfirst (relationReflTransGen_of_exists_isChain_cons l hrest hlast)⟩

theorem not_exists_transGen_of_rank {r : α → Nat} (h : ∀ a b, R a b → r b < r a) :
    ¬ ∃ a, Relation.TransGen R a a := by
  rintro ⟨a, ha⟩
  have hlt : ∀ {b}, Relation.TransGen R a b → r b < r a := fun hb => by
    induction hb with
    | single hR => exact h _ _ hR
    | tail _ hR ih => exact Nat.lt_trans (h _ _ hR) ih
  exact Nat.lt_irrefl _ (hlt ha)

end

variable {n m : String} {ns : List String}

namespace Dependency

def names (g : Dependency) : List String := g.nodes.map (·.name)

def Closed (g : Dependency) : Prop := ∀ n ∈ g.names, ∀ m ∈ g.needs n, m ∈ g.names

structure Ordered (g : Dependency) (done : List String) : Prop where
  nodup : done.Nodup
  after : ∀ l₁ n l₂, done = l₁ ++ n :: l₂ → ∀ m ∈ g.needs n, m ∈ l₁

variable {g : Dependency}

variable {name : String}

theorem mem_insertName :
    n ∈ insertName name ns ↔ n = name ∨ n ∈ ns := by
  induction ns with
  | nil => simp [insertName]
  | cons x ns ih =>
    unfold insertName
    split
    · simp
    · simp only [mem_cons, ih]
      exact or_left_comm

theorem mem_sortNames : n ∈ sortNames ns ↔ n ∈ ns := by
  induction ns with
  | nil => rfl
  | cons x ns ih => rw [sortNames, mem_insertName, ih, mem_cons]

theorem Ordered.nil : g.Ordered [] :=
  ⟨nodup_nil, fun l₁ n l₂ h => by simp at h⟩

theorem Ordered.snoc (h : g.Ordered done) (hn : name ∉ done)
    (hneeds : ∀ m ∈ g.needs name, m ∈ done) : g.Ordered (done ++ [name]) where
  nodup := by
    refine List.nodup_append.2 ⟨h.nodup, nodup_singleton _, fun a ha b hb he => hn ?_⟩
    rwa [← mem_singleton.1 hb, ← he]
  after l₁ n l₂ he m hm := by
    rcases append_eq_append_iff.1 he with ⟨as, rfl, hlast⟩ | ⟨bs, rfl, hlast⟩
    · cases as with
      | nil =>
        cases hlast
        rw [append_nil]
        exact hneeds m hm
      | cons a as => simp at hlast
    · cases bs with
      | nil =>
        cases hlast
        simpa using hneeds m hm
      | cons b bs =>
        cases hlast
        exact h.after l₁ n bs rfl m hm

structure Visited (g : Dependency) (path done done' : List String) : Prop where
  ordered : g.Ordered done'
  grows : done ⊆ done'
  apart : ∀ n ∈ path, n ∉ done'
  known : done' ⊆ g.names

/-- What a visit relies on. The path holds different nodes, so there are never more of them than
fuel was given for at the start. -/
structure OnPath (g : Dependency) (fuel : Nat) (path : List String) : Prop where
  nodup : path.Nodup
  known : path ⊆ g.names
  enough : g.names.length < fuel + path.length

theorem visited_foldlM
    (hvisit : ∀ done name, name ∈ g.names → g.Ordered done → (∀ n ∈ path, n ∉ done) →
      done ⊆ g.names → ∀ done', g.visit fuel path done name = .ok done' →
      Visited g path done done' ∧ name ∈ done') :
    ∀ (ns done done' : List String), (∀ n ∈ ns, n ∈ g.names) → g.Ordered done →
      (∀ n ∈ path, n ∉ done) → done ⊆ g.names → ns.foldlM (g.visit fuel path) done = .ok done' →
      Visited g path done done' ∧ ∀ n ∈ ns, n ∈ done' := by
  intro ns
  induction ns with
  | nil =>
    intro done done' _ ho ha hk h
    cases h
    exact ⟨⟨ho, List.Subset.refl _, ha, hk⟩, nofun⟩
  | cons n ns ih =>
    intro done done' hns ho ha hk h
    rw [foldlM_cons] at h
    cases hv : g.visit fuel path done n with
    | error c => rw [hv] at h; cases h
    | ok done₁ =>
      rw [hv] at h
      obtain ⟨h₁, hn⟩ := hvisit done n (hns n (.head _)) ho ha hk done₁ hv
      obtain ⟨h₂, hall⟩ := ih done₁ done' (fun m hm => hns m (.tail _ hm)) h₁.ordered h₁.apart
        h₁.known h
      refine ⟨⟨h₂.ordered, fun m hm => h₂.grows (h₁.grows hm), h₂.apart, h₂.known⟩, ?_⟩
      exact forall_mem_cons.2 ⟨h₂.grows hn, hall⟩

theorem visited_visit (hg : g.Closed) (fuel : Nat) : ∀ path, OnPath g fuel path → ∀ done name,
    name ∈ g.names → g.Ordered done → (∀ n ∈ path, n ∉ done) → done ⊆ g.names → ∀ done',
    g.visit fuel path done name = .ok done' → Visited g path done done' ∧ name ∈ done' := by
  induction fuel with
  | zero =>
    intro path hp
    have hlen := hp.nodup.length_le_of_subset hp.known
    have := hp.enough
    omega
  | succ fuel ih =>
    intro path hp done name hname ho ha hk done' h
    rw [visit] at h
    split at h
    · rename_i hdone
      cases h
      exact ⟨⟨ho, List.Subset.refl _, ha, hk⟩, contains_iff_mem.1 hdone⟩
    · rename_i hdone
      split at h
      · cases h
      · rename_i hpath
        have hnd : name ∉ done := fun hm => hdone (contains_iff_mem.2 hm)
        have hnp : name ∉ path := fun hm => hpath (contains_iff_mem.2 hm)
        have hp' : OnPath g fuel (name :: path) :=
          ⟨nodup_cons.2 ⟨hnp, hp.nodup⟩, cons_subset.2 ⟨hname, hp.known⟩, by
            have := hp.enough
            rw [length_cons]
            omega⟩
        cases hf : (sortNames (g.needs name)).foldlM (g.visit fuel (name :: path)) done with
        | error c => rw [hf] at h; cases h
        | ok done₁ =>
          rw [hf] at h
          cases h
          obtain ⟨h₁, hall⟩ := visited_foldlM (ih _ hp') _ done done₁
            (fun m hm => hg name hname m (mem_sortNames.1 hm)) ho
            (forall_mem_cons.2 ⟨hnd, ha⟩) hk hf
          have hn := h₁.apart name (.head _)
          refine ⟨⟨h₁.ordered.snoc hn fun m hm => hall m (mem_sortNames.2 hm), ?_, ?_, ?_⟩, ?_⟩
          · exact subset_append_of_subset_left _ h₁.grows
          · intro n hn' hmem
            rcases mem_append.1 hmem with hmem | hmem
            · exact h₁.apart n (.tail _ hn') hmem
            · exact hnp (mem_singleton.1 hmem ▸ hn')
          · exact append_subset.2 ⟨h₁.known, cons_subset.2 ⟨hname, nil_subset _⟩⟩
          · exact mem_append_right _ (mem_singleton.2 rfl)

theorem ordered_order (hg : g.Closed) (h : g.order = .ok ns) :
    g.Ordered ns ∧ ∀ n, n ∈ ns ↔ n ∈ g.names := by
  have hp : OnPath g (g.nodes.length + 1) [] :=
    ⟨nodup_nil, nil_subset _, by simp [names]⟩
  obtain ⟨hv, hall⟩ := visited_foldlM (visited_visit hg _ _ hp) _ [] ns
    (fun n hn => mem_sortNames.1 hn) .nil nofun (nil_subset _) h
  exact ⟨hv.ordered, fun n => ⟨fun hn => hv.known hn, fun hn => hall n (mem_sortNames.2 hn)⟩⟩

def Ranked (g : Dependency) (rank : String → Nat) : Prop :=
  ∀ n, ∀ m ∈ g.needs n, rank m < rank n

theorem needs_of_not_mem (h : n ∉ g.names) : g.needs n = [] := by
  have hnone : g.node? n = none := by
    rw [node?, find?_eq_none]
    intro x hx he
    exact h (mem_map.2 ⟨x, hx, eq_of_beq he⟩)
  rw [needs, hnone]
  rfl

theorem ranked_of_order (hg : g.Closed) (h : g.order = .ok ns) :
    g.Ranked ns.idxOf := by
  obtain ⟨ho, hmem⟩ := ordered_order hg h
  intro n m hm
  by_cases hn : n ∈ ns
  · obtain ⟨l₁, l₂, rfl⟩ := append_of_mem hn
    have hl₁ : n ∉ l₁ := fun h => (List.nodup_append.1 ho.nodup).2.2 n h n (.head _) rfl
    have hm₁ := ho.after l₁ n l₂ rfl m hm
    change (l₁ ++ n :: l₂).idxOf m < (l₁ ++ n :: l₂).idxOf n
    rw [idxOf_append_of_mem hm₁, idxOf_append_of_notMem hl₁]
    exact Nat.lt_add_right _ (idxOf_lt_length_of_mem hm₁)
  · rw [needs_of_not_mem fun h => hn ((hmem n).2 h)] at hm
    cases hm

structure Closing (g : Dependency) (c : Cycle) : Prop where
  walk : c.names.IsChain fun n m => m ∈ g.needs n
  closed : c.names.head? = c.names.getLast?
  long : 2 ≤ c.names.length

theorem exists_visit_error {f : List String → String → Except Cycle (List String)}
    {done : List String} {c : Cycle} (h : ns.foldlM f done = .error c) :
    ∃ n ∈ ns, ∃ done', f done' n = .error c := by
  induction ns generalizing done with
  | nil => cases h
  | cons n ns ih =>
    rw [foldlM_cons] at h
    cases hv : f done n with
    | error c' =>
      rw [hv] at h
      cases h
      exact ⟨n, .head _, done, hv⟩
    | ok done₁ =>
      rw [hv] at h
      obtain ⟨m, hm, hfail⟩ := ih h
      exact ⟨m, .tail _ hm, hfail⟩

theorem closing_of_path (hmem : name ∈ path)
    (hpath : (name :: path).IsChain fun m n => m ∈ g.needs n) :
    g.Closing ⟨name :: (path.takeWhile (· != name)).reverse ++ [name]⟩ := by
  obtain ⟨l₁, l₂, rfl, hl₁⟩ := eq_append_cons_of_mem hmem
  have htake : (l₁ ++ name :: l₂).takeWhile (· != name) = l₁ := by
    have hne (n : String) (hn : n ∈ l₁) : (n != name) = true :=
      bne_iff_ne.2 fun he => hl₁ (he ▸ hn)
    rw [takeWhile_append_of_pos hne]
    simp
  have hround : (name :: l₁ ++ [name]).IsChain fun m n => m ∈ g.needs n :=
    hpath.prefix ⟨l₂, by simp⟩
  rw [htake]
  refine ⟨?_, ?_, ?_⟩
  · have hreverse : name :: l₁.reverse ++ [name] = (name :: l₁ ++ [name]).reverse := by simp
    rw [hreverse, isChain_reverse]
    exact hround
  · exact (getLast?_concat ..).symm
  · simp

theorem closing_visit (fuel : Nat) : ∀ path done name c,
    (name :: path).IsChain (fun m n => m ∈ g.needs n) →
    g.visit fuel path done name = .error c → g.Closing c := by
  induction fuel with
  | zero => exact fun path done name c _ h => nomatch h
  | succ fuel ih =>
    intro path done name c hpath h
    rw [visit] at h
    split at h
    · cases h
    · split at h
      · rename_i hmem
        cases h
        exact closing_of_path (contains_iff_mem.1 hmem) hpath
      · cases hf : (sortNames (g.needs name)).foldlM (g.visit fuel (name :: path)) done with
        | ok done₁ =>
          rw [hf] at h
          cases h
        | error c' =>
          rw [hf] at h
          cases h
          obtain ⟨m, hm, done', hfail⟩ := exists_visit_error hf
          exact ih _ done' m c (hpath.cons_cons (mem_sortNames.1 hm)) hfail

theorem closing_order {c : Cycle} (h : g.order = .error c) : g.Closing c := by
  obtain ⟨n, -, done, hfail⟩ := exists_visit_error h
  exact closing_visit _ [] done n c (.singleton n) hfail

theorem node?_addNode (a n : String) :
    (g.addNode a).node? n = (g.node? n).or (if n = a then some ⟨a, []⟩ else none) := by
  unfold addNode
  split
  · rename_i ha
    by_cases hn : n = a
    · subst hn
      obtain ⟨x, hx⟩ := Option.isSome_iff_exists.1 ha
      rw [hx]
      rfl
    · rw [if_neg hn, Option.or_none]
  · rw [node?, find?_append, node?]
    congr 1
    by_cases hn : n = a
    · simp [hn]
    · simp [hn, Ne.symm hn]

theorem needs_addNode (a n : String) : (g.addNode a).needs n = g.needs n := by
  rw [needs, needs, node?_addNode]
  cases g.node? n with
  | some x => rfl
  | none =>
    rw [Option.none_or]
    split <;> rfl

theorem mem_names_addNode : n ∈ (g.addNode a).names ↔ n ∈ g.names ∨ n = a := by
  unfold addNode
  split
  · rename_i ha
    refine (or_iff_left_of_imp ?_).symm
    rintro rfl
    obtain ⟨x, hx⟩ := Option.isSome_iff_exists.1 ha
    have hname := find?_some hx
    exact mem_map.2 ⟨x, mem_of_find?_eq_some hx, eq_of_beq hname⟩
  · simp [names]

theorem names_addNeed (a b : String) : (g.addNeed a b).names = g.names := by
  rw [names, names, addNeed, map_map]
  refine map_congr_left fun x _ => ?_
  simp only [Function.comp]
  split <;> rfl

theorem node?_addNeed (a b n : String) : (g.addNeed a b).node? n = (g.node? n).map fun x =>
    if x.name == a && !x.needs.contains b then { x with needs := x.needs ++ [b] } else x := by
  rw [node?, addNeed, find?_map]
  congr 2
  funext x
  simp only [Function.comp]
  split <;> rfl

theorem mem_needs_addNeed (ha : a ∈ g.names) :
    m ∈ (g.addNeed a b).needs n ↔ m ∈ g.needs n ∨ n = a ∧ m = b := by
  rw [needs, needs, node?_addNeed]
  cases hx : g.node? n with
  | none =>
    have hne : n ≠ a := by
      rintro rfl
      obtain ⟨x, hx', hn⟩ := mem_map.1 ha
      exact find?_eq_none.1 hx x hx' (beq_iff_eq.2 hn)
    simp [hne]
  | some x =>
    have hbeq := find?_some hx
    have hname : x.name = n := eq_of_beq hbeq
    by_cases hn : n = a
    · subst hn
      by_cases hb : b ∈ x.needs
      · simp only [Option.map_some, Option.getD_some, hname, hb, contains_iff_mem.2,
          beq_self_eq_true, Bool.not_true, Bool.and_false, Bool.false_eq_true, if_false, true_and]
        exact (or_iff_left_of_imp fun h => h ▸ hb).symm
      · simp [hname, hb]
    · simp [hname, hn]

end Dependency

namespace WorkList

variable {names : NodeMap String} {edges : List InlineEdge}

theorem mem_needs_foldl (g : Dependency) :
    m ∈ (edges.foldl (fun g e =>
      ((g.addNode (nodeName names e.caller)).addNode (nodeName names e.callee)).addNeed
        (nodeName names e.caller) (nodeName names e.callee)) g).needs n ↔
    m ∈ g.needs n ∨ ∃ e ∈ edges, n = nodeName names e.caller ∧ m = nodeName names e.callee := by
  induction edges generalizing g with
  | nil => simp
  | cons e es ih =>
    have hcaller : nodeName names e.caller ∈
        ((g.addNode (nodeName names e.caller)).addNode (nodeName names e.callee)).names :=
      Dependency.mem_names_addNode.2 (.inl (Dependency.mem_names_addNode.2 (.inr rfl)))
    rw [foldl_cons, ih, Dependency.mem_needs_addNeed hcaller, Dependency.needs_addNode,
      Dependency.needs_addNode, or_assoc]
    simp only [mem_cons, exists_eq_or_imp]

theorem mem_needs_graph : m ∈ (graph names edges).needs n ↔
    ∃ e ∈ edges, n = nodeName names e.caller ∧ m = nodeName names e.callee :=
  (mem_needs_foldl .empty).trans (or_iff_right not_mem_nil)

theorem mem_names_foldl (g : Dependency) :
    n ∈ (edges.foldl (fun g e =>
      ((g.addNode (nodeName names e.caller)).addNode (nodeName names e.callee)).addNeed
        (nodeName names e.caller) (nodeName names e.callee)) g).names ↔
    n ∈ g.names ∨ n ∈ (edges.flatMap fun e => [e.caller, e.callee]).map (nodeName names) := by
  induction edges generalizing g with
  | nil => simp
  | cons e es ih =>
    rw [foldl_cons, ih, Dependency.names_addNeed, Dependency.mem_names_addNode,
      Dependency.mem_names_addNode, flatMap_cons, map_append]
    simp only [map_cons, map_nil, mem_append, mem_cons, not_mem_nil,
      or_false, or_assoc]

theorem mem_names_graph : n ∈ (graph names edges).names ↔
    n ∈ (edges.flatMap fun e => [e.caller, e.callee]).map (nodeName names) :=
  (mem_names_foldl .empty).trans (or_iff_right not_mem_nil)

theorem closed_graph : (graph names edges).Closed := by
  intro n _ m hm
  obtain ⟨e, he, -, rfl⟩ := mem_needs_graph.1 hm
  exact mem_names_graph.2 (mem_map_of_mem (mem_flatMap.2 ⟨e, he, by simp⟩))

theorem isCaller_iff : isCaller edges i = true ↔ ∃ e ∈ edges, e.caller = i := by
  simp [isCaller]

def NamedApart (names : NodeMap String) (edges : List InlineEdge) : Prop :=
  ∀ i ∈ edges.flatMap fun e => [e.caller, e.callee],
    ∀ j ∈ edges.flatMap fun e => [e.caller, e.callee], nodeName names i = nodeName names j → i = j

theorem holder?_nodeName (h : NamedApart names edges)
    (hi : i ∈ edges.flatMap fun e => [e.caller, e.callee]) :
    holder? names edges (nodeName names i) = some i := by
  have hsome : (holder? names edges (nodeName names i)).isSome := by
    rw [holder?, find?_isSome]
    exact ⟨i, mem_reverse.2 hi, beq_self_eq_true _⟩
  obtain ⟨j, hj⟩ := Option.isSome_iff_exists.1 hsome
  have hname := find?_some hj
  have hmem := mem_reverse.1 (mem_of_find?_eq_some hj)
  rw [hj, h j hmem i hi (eq_of_beq hname)]

theorem map_nodeName_holders (h : NamedApart names edges)
    (hns : ∀ n ∈ ns, n ∈ (graph names edges).names) :
    (ns.filterMap (holder? names edges)).map (nodeName names) = ns ∧
      ns.filterMap (holder? names edges) ⊆ edges.flatMap fun e => [e.caller, e.callee] := by
  induction ns with
  | nil => exact ⟨rfl, nil_subset _⟩
  | cons n ns ih =>
    obtain ⟨hmap, hsub⟩ := ih fun n hn => hns n (.tail _ hn)
    obtain ⟨i, hi, rfl⟩ := mem_map.1 (mem_names_graph.1 (hns n (.head _)))
    rw [filterMap_cons_some (holder?_nodeName h hi), map_cons, hmap]
    exact ⟨rfl, cons_subset.2 ⟨hi, hsub⟩⟩

/-- A work list holds every caller once, after the callers among its callees. -/
structure Scheduled (edges : List InlineEdge) (callers : List NodeId) : Prop where
  nodup : callers.Nodup
  mem : ∀ i, i ∈ callers ↔ ∃ e ∈ edges, e.caller = i
  after : ∀ l₁ i l₂, callers = l₁ ++ i :: l₂ → ∀ e ∈ edges, e.caller = i →
    (∃ e' ∈ edges, e'.caller = e.callee) → e.callee ∈ l₁

theorem scheduled_ofEdges (h : NamedApart names edges)
    (hw : ofEdges names edges = .ok w) : w.edges = edges ∧ Scheduled edges w.callers := by
  unfold ofEdges at hw
  cases hns : (graph names edges).order with
  | error c => rw [hns] at hw; cases hw
  | ok ns =>
    rw [hns] at hw
    cases hw
    obtain ⟨ho, hmem⟩ := Dependency.ordered_order closed_graph hns
    obtain ⟨hmap, hsub⟩ := map_nodeName_holders h fun n hn => (hmem n).1 hn
    refine ⟨rfl, ?_, fun i => ?_, fun l₁ i l₂ hsplit e he hi hcallee => ?_⟩
    · exact (List.Nodup.of_map _ (hmap ▸ ho.nodup)).filter _
    · rw [mem_filter, isCaller_iff]
      refine and_iff_right_of_imp ?_
      rintro ⟨e, he, rfl⟩
      have hid : e.caller ∈ edges.flatMap fun e => [e.caller, e.callee] :=
        mem_flatMap.2 ⟨e, he, .head _⟩
      exact mem_filterMap.2 ⟨nodeName names e.caller,
        (hmem _).2 (mem_names_graph.2 (mem_map_of_mem hid)), holder?_nodeName h hid⟩
    · obtain ⟨as, bs, hsplit', rfl, hbs⟩ := filter_eq_append_iff.1 hsplit
      obtain ⟨bs₁, bs₂, rfl, hnot, -, -⟩ := filter_eq_cons_iff.1 hbs
      rw [hsplit', ← append_assoc] at hmap hsub
      rw [map_append, map_cons] at hmap
      have hneeds := mem_needs_graph.2 ⟨e, he, congrArg (nodeName names) hi.symm, rfl⟩
      obtain ⟨j, hj, hname⟩ := mem_map.1 (ho.after _ _ _ hmap.symm _ hneeds)
      obtain rfl := h j (hsub (mem_append_left _ hj)) e.callee
        (mem_flatMap.2 ⟨e, he, .tail _ (.head _)⟩) hname
      rcases mem_append.1 hj with hj | hj
      · exact mem_filter.2 ⟨hj, isCaller_iff.2 hcallee⟩
      · exact absurd (isCaller_iff.2 hcallee) (hnot _ hj)

def Ranked (edges : List InlineEdge) (rank : NodeId → Nat) : Prop :=
  ∀ e ∈ edges, rank e.callee < rank e.caller

theorem ranked_of_ofEdges (hw : ofEdges names edges = .ok w) :
    ∃ rank, Ranked edges rank := by
  unfold ofEdges at hw
  cases hns : (graph names edges).order with
  | error c => rw [hns] at hw; cases hw
  | ok ns =>
    have hr := Dependency.ranked_of_order closed_graph hns
    exact ⟨fun i => ns.idxOf (nodeName names i), fun e he =>
      hr _ _ (mem_needs_graph.2 ⟨e, he, rfl, rfl⟩)⟩

end WorkList

end MatchAction
