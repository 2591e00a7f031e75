import Mathlib.Logic.Relation
import MatchAction.Proofs.Names
import MatchAction.Proofs.Places
import MatchAction.Proofs.Traversal

namespace MatchAction

open List Relation

def Node.Contains : Node → Node → Prop := ReflTransGen fun m n => n ∈ m.children

theorem Node.mem_walk_of_contains {m n : Node} (h : m.Contains n) : n ∈ m.walk := by
  induction h using ReflTransGen.head_induction_on with
  | refl =>
    rw [walk_eq]
    exact .head _
  | head hchild _ ih =>
    rw [walk_eq]
    exact .tail _ (mem_flatMap.2 ⟨_, hchild, ih⟩)

-- A child has a shorter walk than its parent.
theorem Node.contains_of_mem_walk (m n : Node) (h : n ∈ m.walk) : m.Contains n := by
  rw [walk_eq] at h
  rcases mem_cons.1 h with rfl | h
  · exact .refl
  · obtain ⟨c, hc, hn⟩ := mem_flatMap.1 h
    have hlt : c.walk.length < m.walk.length := by
      obtain ⟨as, bs, hsplit⟩ := append_of_mem hc
      simp only [walk_eq m, hsplit, flatMap_append, flatMap_cons, length_cons, length_append]
      omega
    exact .head hc (contains_of_mem_walk c n hn)
termination_by m.walk.length

inductive Decl.Introduces : Decl → String → Prop
  | own (d : Decl) : d.Introduces d.name
  | action (h : q ∈ ps) : (Decl.action hd ps b).Introduces q.name
  | apply (h : q ∈ ps) : (Decl.control hd tps ps cps ls b).Introduces q.name
  | constructor (h : q ∈ cps) : (Decl.control hd tps ps cps ls b).Introduces q.name
  | package (h : q ∈ ps) : (Decl.package hd tps ps).Introduces q.name
  | externFn (h : q ∈ m.params) : (Decl.externFn hd m).Introduces q.name

def Program.Introduces (p : Program) (n : String) : Prop :=
  ∃ top ∈ p.decls, ∃ d, (Node.decl top).Contains (.decl d) ∧ d.Introduces n

theorem Program.mem_allDecls_iff_contains {p : Program} {d : Decl} :
    d ∈ p.allDecls ↔ ∃ top ∈ p.decls, (Node.decl top).Contains (.decl d) := by
  have hnode : .enter d ∈ p.visits ↔ .decl d ∈ nodesOf p.visits := by
    rw [nodesOf, mem_filterMap]
    refine ⟨fun h => ⟨_, h, rfl⟩, fun ⟨v, hv, hd⟩ => ?_⟩
    cases v <;> cases hd
    exact hv
  rw [mem_allDecls, hnode, visits, nodesOf_decls, mem_flatMap]
  constructor
  · rintro ⟨m, hm, hd⟩
    obtain ⟨top, htop, rfl⟩ := mem_map.1 hm
    exact ⟨top, htop, Node.contains_of_mem_walk _ _ hd⟩
  · rintro ⟨top, htop, hd⟩
    exact ⟨_, mem_map_of_mem htop, Node.mem_walk_of_contains hd⟩

namespace Names

theorem mem_ofDecl {d : Decl} {n : String} : n ∈ ofDecl d ↔ d.Introduces n := by
  constructor
  · intro h
    cases d with
    | externType => exact mem_singleton.1 h ▸ .own _
    | action | package | externFn =>
      rcases mem_cons.1 h with rfl | h
      · exact .own _
      · obtain ⟨q, hq, rfl⟩ := mem_map.1 h
        constructor
        exact hq
    | control =>
      rcases mem_cons.1 h with rfl | h
      · exact .own _
      · obtain ⟨q, hq, rfl⟩ := mem_map.1 h
        exact (mem_append.1 hq).elim .constructor .apply
    | _ => exact mem_singleton.1 h ▸ .own _
  · rintro (_ | h | h | h | h | h)
    · cases d <;> exact .head _
    all_goals exact .tail _ (mem_map_of_mem (by simp [Decl.params, h]))

theorem mem_ofProgram {p : Program} {n : String} : n ∈ (ofProgram p).used ↔ p.Introduces n := by
  simp only [ofProgram, mem_flatMap, Program.mem_allDecls_iff_contains, mem_ofDecl,
    Program.Introduces]
  constructor
  · rintro ⟨d, ⟨top, ht, hd⟩, hn⟩
    exact ⟨top, ht, d, hd, hn⟩
  · rintro ⟨top, ht, d, hd, hn⟩
    exact ⟨d, ⟨top, ht, hd⟩, hn⟩

inductive Request
  | reserve (name : String)
  | new (base : String)

def serve : List Request → Names → List String × Names
  | [], ns => ([], ns)
  | .reserve n :: rs, ns => serve rs (ns.reserve n)
  | .new base :: rs, ns =>
    let (name, ns) := new (m := Id) base ns
    let (names, ns) := serve rs ns
    (name :: names, ns)

theorem mem_serve (rs : List Request) (ns : Names) (n : String) :
    n ∈ (serve rs ns).2.used ↔ n ∈ ns.used ∨ .reserve n ∈ rs ∨ n ∈ (serve rs ns).1 := by
  induction rs generalizing ns with
  | nil => simp [serve]
  | cons r rs ih =>
    cases r with
    | reserve name =>
      have hhead : (Request.reserve n = .reserve name) ↔ n = name := by simp
      rw [serve, ih, reserve, mem_cons, mem_cons, hhead]
      tauto
    | new base =>
      have hhead : Request.reserve n ≠ .new base := by rintro ⟨⟩
      simp only [serve, ih, new, reserve, pure, mem_cons, hhead, false_or]
      tauto

/-- After any requests, what is used is what the program introduces, what was reserved and what was
handed out. A new name is none of these: it is the wished one, or the first free one numbered, and
it is used whatever is requested next. -/
theorem new_first_free (p : Program) (before after : List Request) (base : String) :
    let (handed, ns) := serve before (ofProgram p)
    let (name, ns') := new (m := Id) base ns
    (∀ n, ns.isUsed n ↔ p.Introduces n ∨ .reserve n ∈ before ∨ n ∈ handed) ∧
      (¬p.Introduces name ∧ .reserve name ∉ before ∧ name ∉ handed) ∧
      (if ns.isUsed base then
        ∃ k, name = numbered base k ∧ ns.isUsed (numbered base k) = false ∧
          ∀ j < k, ns.isUsed (numbered base j)
      else name = base) ∧
      (serve after ns').2.isUsed name := by
  have hused (n : String) : (serve before (ofProgram p)).2.isUsed n ↔
      p.Introduces n ∨ .reserve n ∈ before ∨ n ∈ (serve before (ofProgram p)).1 := by
    rw [isUsed, contains_iff_mem, mem_serve, mem_ofProgram]
  have hfree := (serve before (ofProgram p)).2.pick_not_mem base
  rw [← contains_iff_mem, ← isUsed, hused] at hfree
  refine ⟨hused, by tauto, ?_, ?_⟩
  · split
    · rename_i h
      exact pick_of_isUsed h
    · rename_i h
      exact if_neg h
  · exact contains_iff_mem.2 ((mem_serve after _ _).2 (.inl (.head _)))

end Names

end MatchAction
