import MatchAction.Proofs.Dependency

namespace MatchAction

namespace Dependency

inductive Built : List String → List (String × String) → Dependency → Prop
  | empty : Built [] [] .empty
  | addNode {N : List String} {E : List (String × String)} {g : Dependency} (name : String)
    (h : Built N E g) : Built (name :: N) E (g.addNode name)
  | addNeed {N : List String} {E : List (String × String)} {g : Dependency} {name need : String}
    (hname : name ∈ N) (hneed : need ∈ N) (h : Built N E g) :
    Built N ((name, need) :: E) (g.addNeed name need)

structure Sorts (N : List String) (E : List (String × String)) (ns : List String) : Prop where
  nodup : ns.Nodup
  mem : ∀ n, n ∈ ns ↔ n ∈ N
  after : ∀ l₁ n l₂, ns = l₁ ++ n :: l₂ → ∀ m, (n, m) ∈ E → m ∈ l₁

structure GoesRound (E : List (String × String)) (ns : List String) : Prop where
  long : 2 ≤ ns.length
  closed : ns.head? = ns.getLast?
  walk : ns.IsChain fun n m => (n, m) ∈ E

section

variable {g g' : Dependency} {n : String} {ns ns' : List String}

theorem insertName_comm (a b : String) (ns : List String) :
    insertName a (insertName b ns) = insertName b (insertName a ns) := by
  induction ns with
  | nil => grind [insertName]
  | cons n ns ih => grind [insertName]

theorem sortNames_congr (h : ns.Perm ns') : sortNames ns = sortNames ns' := by
  induction h with
  | nil => rfl
  | cons n _ ih => rw [sortNames, sortNames, ih]
  | swap a b ns => exact insertName_comm b a (sortNames ns)
  | trans _ _ ih ih' => exact ih.trans ih'

theorem visit_congr (h : ∀ n, (g.needs n).Perm (g'.needs n)) (fuel : Nat) :
    g.visit fuel = g'.visit fuel := by
  induction fuel with
  | zero => rfl
  | succ fuel ih =>
    funext path done name
    rw [visit, visit, sortNames_congr (h name), ih]

theorem order_congr (hnames : g.names.Perm g'.names) (hneeds : ∀ n, (g.needs n).Perm (g'.needs n)) :
    g.order = g'.order := by
  have hlength : g.nodes.length = g'.nodes.length := by simpa [names] using hnames.length_eq
  change (sortNames g.names).foldlM _ _ = (sortNames g'.names).foldlM _ _
  rw [sortNames_congr hnames, visit_congr hneeds, hlength]

theorem nodup_needs_addNeed {a b : String} (h : (g.needs n).Nodup) :
    ((g.addNeed a b).needs n).Nodup := by
  unfold needs at h ⊢
  rw [node?_addNeed]
  cases hx : g.node? n with
  | none => exact List.nodup_nil
  | some x =>
    rw [hx] at h
    simp only [Option.map_some, Option.getD_some] at h ⊢
    split
    · rename_i hnew
      simp only [Bool.and_eq_true, Bool.not_eq_true', List.contains_eq_mem,
        decide_eq_false_iff_not] at hnew
      exact List.nodup_append.2 ⟨h, List.nodup_singleton _, by grind⟩
    · exact h

end

namespace Built

variable {N N' : List String} {E E' : List (String × String)} {g g' : Dependency}

theorem mem_names (h : Built N E g) {n : String} : n ∈ g.names ↔ n ∈ N := by
  induction h with
  | empty => rfl
  | addNode name _ ih => rw [mem_names_addNode, ih, List.mem_cons, or_comm]
  | addNeed _ _ _ ih => rw [names_addNeed, ih]

theorem mem_needs (h : Built N E g) {n m : String} : m ∈ g.needs n ↔ (n, m) ∈ E := by
  induction h with
  | empty => exact iff_of_false List.not_mem_nil List.not_mem_nil
  | addNode name _ ih => rw [needs_addNode, ih]
  | addNeed hname _ hg ih =>
    rw [mem_needs_addNeed (hg.mem_names.2 hname), ih, List.mem_cons, Prod.mk.injEq, or_comm]

theorem mem_of_need (h : Built N E g) {n m : String} (hm : (n, m) ∈ E) : m ∈ N := by
  induction h with
  | empty => cases hm
  | addNode name _ ih => exact .tail _ (ih hm)
  | addNeed _ hneed _ ih =>
    rcases List.mem_cons.1 hm with he | hm
    · cases he
      exact hneed
    · exact ih hm

theorem isClosed (h : Built N E g) : g.Closed :=
  fun _ _ _ hm => h.mem_names.2 (h.mem_of_need (h.mem_needs.1 hm))

theorem sorts (h : Built N E g) {ns : List String} (hns : g.order = .ok ns) : Sorts N E ns := by
  obtain ⟨ho, hmem⟩ := ordered_order h.isClosed hns
  exact ⟨ho.nodup, fun n => (hmem n).trans h.mem_names,
    fun l₁ n l₂ hsplit m hm => ho.after l₁ n l₂ hsplit m (h.mem_needs.2 hm)⟩

theorem goesRound (h : Built N E g) {c : Cycle} (hc : g.order = .error c) :
    GoesRound E c.names := by
  have hclosing := closing_order hc
  exact ⟨hclosing.long, hclosing.closed, hclosing.walk.imp fun _ _ => h.mem_needs.1⟩

theorem acyclic (h : Built N E g) {ns : List String} (hns : g.order = .ok ns) :
    ¬ ∃ n, Relation.TransGen (fun n m => (n, m) ∈ E) n n :=
  not_exists_transGen_of_rank fun n m hm =>
    ranked_of_order h.isClosed hns n m (h.mem_needs.2 hm)

/-- There is an order exactly if needs do not lead back. It has every name once, after all that the
name needs; a failure names a way round. -/
theorem order_exact (h : Built N E g) :
    ((∃ ns, g.order = .ok ns) ↔ ¬ ∃ n, Relation.TransGen (fun n m => (n, m) ∈ E) n n) ∧
    (∀ ns, g.order = .ok ns → Sorts N E ns) ∧
    ∀ c, g.order = .error c → GoesRound E c.names := by
  refine ⟨⟨fun ⟨_, hns⟩ => h.acyclic hns, fun hnot => ?_⟩, fun _ => h.sorts, fun _ => h.goesRound⟩
  cases hr : g.order with
  | ok ns => exact ⟨ns, rfl⟩
  | error c =>
    have hround := h.goesRound hr
    exact absurd (exists_transGen_of_isChain hround.long hround.walk hround.closed) hnot

theorem order_exact_diamond :
    (∃ g ns, Built ["a", "b", "c", "d"] [("b", "d"), ("c", "d"), ("a", "c"), ("a", "b")] g ∧
      g.order = .ok ns ∧ ns = ["d", "b", "c", "a"] ∧
      Sorts ["a", "b", "c", "d"] [("b", "d"), ("c", "d"), ("a", "c"), ("a", "b")] ns) ∧
    ∃ g c, Built ["a", "c", "d"] [("d", "c"), ("c", "d"), ("a", "c")] g ∧
      g.order = .error c ∧ c.names = ["c", "d", "c"] ∧
      GoesRound [("d", "c"), ("c", "d"), ("a", "c")] c.names := by
  have hdiamond : Built ["a", "b", "c", "d"] [("b", "d"), ("c", "d"), ("a", "c"), ("a", "b")] _ :=
    .addNeed (by decide) (by decide) <| .addNeed (by decide) (by decide) <|
      .addNeed (by decide) (by decide) <| .addNeed (by decide) (by decide) <|
      .addNode "a" <| .addNode "b" <| .addNode "c" <| .addNode "d" .empty
  have hround : Built ["a", "c", "d"] [("d", "c"), ("c", "d"), ("a", "c")] _ :=
    .addNeed (by decide) (by decide) <| .addNeed (by decide) (by decide) <|
      .addNeed (by decide) (by decide) <| .addNode "a" <| .addNode "c" <| .addNode "d" .empty
  exact ⟨⟨_, _, hdiamond, rfl, rfl, (order_exact hdiamond).2.1 _ rfl⟩,
    ⟨_, _, hround, rfl, rfl, (order_exact hround).2.2 _ rfl⟩⟩

theorem nodup_names (h : Built N E g) : g.names.Nodup := by
  induction h with
  | empty => exact List.nodup_nil
  | @addNode N E g name hg ih =>
    unfold Dependency.addNode
    split
    · exact ih
    · rename_i hnew
      have hnot : name ∉ g.names := by
        intro hmem
        obtain ⟨x, hx, rfl⟩ := List.mem_map.1 hmem
        exact hnew (List.find?_isSome.2 ⟨x, hx, beq_self_eq_true _⟩)
      rw [names, List.map_append]
      refine List.nodup_append.2 ⟨ih, List.nodup_singleton _, fun a ha b hb he => hnot ?_⟩
      obtain rfl : b = name := List.mem_singleton.1 hb
      exact he ▸ ha
  | addNeed _ _ _ ih => rwa [names_addNeed]

theorem nodup_needs (h : Built N E g) (n : String) : (g.needs n).Nodup := by
  induction h with
  | empty => exact List.nodup_nil
  | addNode name _ ih => rwa [needs_addNode]
  | addNeed _ _ _ ih => exact nodup_needs_addNeed ih

/-- The same names and needs have one order, or one way round, however the graph was built. -/
theorem order_unique (h : Built N E g) (h' : Built N' E' g') (hN : ∀ n, n ∈ N ↔ n ∈ N')
    (hE : ∀ e, e ∈ E ↔ e ∈ E') : g.order = g'.order := by
  refine order_congr ((List.perm_ext_iff_of_nodup h.nodup_names h'.nodup_names).2 fun n => ?_)
    fun n =>
    (List.perm_ext_iff_of_nodup (h.nodup_needs n) (h'.nodup_needs n)).2 fun m => ?_
  · rw [h.mem_names, h'.mem_names, hN]
  · rw [h.mem_needs, h'.mem_needs, hE]

theorem order_unique_diamond :
    ∃ g g', Built ["d", "c", "b", "a"] [("c", "d"), ("b", "d"), ("a", "b"), ("a", "c")] g ∧
      Built ["a", "b", "c", "b", "d"] [("a", "b"), ("a", "c"), ("a", "b"), ("b", "d"),
        ("c", "d")] g' ∧
      g.names ≠ g'.names ∧ g.order = .ok ["d", "b", "c", "a"] ∧ g.order = g'.order := by
  have hdown : Built ["d", "c", "b", "a"] [("c", "d"), ("b", "d"), ("a", "b"), ("a", "c")] _ :=
    .addNeed (by decide) (by decide) <| .addNeed (by decide) (by decide) <|
      .addNeed (by decide) (by decide) <| .addNeed (by decide) (by decide) <|
      .addNode "d" <| .addNode "c" <| .addNode "b" <| .addNode "a" .empty
  have hup : Built ["a", "b", "c", "b", "d"]
      [("a", "b"), ("a", "c"), ("a", "b"), ("b", "d"), ("c", "d")] _ :=
    .addNeed (by decide) (by decide) <| .addNeed (by decide) (by decide) <|
      .addNeed (by decide) (by decide) <| .addNeed (by decide) (by decide) <|
      .addNeed (by decide) (by decide) <| .addNode "a" <| .addNode "b" <| .addNode "c" <|
      .addNode "b" <| .addNode "d" .empty
  refine ⟨_, _, hdown, hup, by decide, rfl, order_unique hdown hup (fun n => ?_) fun e => ?_⟩ <;>
    simp only [List.mem_cons, List.not_mem_nil] <;> tauto

end Built

end Dependency

end MatchAction
