import MatchAction.Proofs.Equality
import MatchAction.Proofs.Placement
import MatchAction.Proofs.Renaming
import MatchAction.Proofs.Spelling

namespace MatchAction

open List

/-! What renaming does to a program. -/

theorem Decl.visits_eq_cons (d : Decl) : d.visits = .enter d :: d.visits.tail := by
  cases d <;> rfl

theorem Decl.isType_of_flaw {spot : Spot} (hs : spot ≠ .toplevel) {d : Decl} (h : d.flaw spot = 0) :
    d.isType = false := by
  cases spot with
  | toplevel => exact absurd rfl hs
  | control | block => cases d <;> first | rfl | cases h

theorem Decl.withHead_head (d : Decl) : d.withHead d.head = d := by
  cases d <;> rfl

variable {t : Tag} {h : Head}

namespace Renaming

def spelling (r : Renaming) (c : Checked) : Spelling where
  decl i n := (r.names.get? i).getD n
  use i n := ((c.refs.get? i).bind fun x => r.names.get? x.id).getD n
  label i n := match c.types.get? i with
    | some (.actionEnum (.table _ _ as _)) => ((r.labels c.refs as).lookup n).getD n
    | _ => n

variable {r : Renaming} {c : Checked}

mutual
theorem get_visitExpr (hr : ∀ i, r.replacements.get? i = none) : (e : Expr) → ∀ n,
    ((r.editor c.refs c.types).visitExpr Editor.stop false e () n).1.1.get e =
      e.spelled (r.spelling c).use
  | .lit t v ty, _ => get_around_expr (.lit t v ty) rfl (by simp)
  | .bool t v, _ => get_around_expr (.bool t v) rfl (by simp)
  | .path t x, n => by
    rw [Editor.visitExpr, Editor.get_aroundExpr rfl]
    simp only [editor, Supply.stateT_pure_apply, Edit.get_keep, Expr.spelled, spelling]
    cases c.refs.get? t.id with
    | none => rfl
    | some y =>
      simp only [hr, Option.bind_some]
      cases r.names.get? y.id <;> rfl
  | .member t b m, n => by
    rw [Editor.visitExpr, get_around_expr _ (Edit.get_map (Expr.member t · m) b _) (by simp)]
    exact congrArg (Expr.member t · m) (get_visitExpr hr b n)
  | .index t b i, n => by
    rw [Editor.visitExpr, get_around_expr _ (Edit.get_map₂ (Expr.index t) b i _ _) (by simp)]
    exact congrArg₂ (Expr.index t) (get_visitExpr hr b n) (get_visitExpr hr i _)
  | .call t f ts as, n => by
    rw [Editor.visitExpr, get_around_expr _ (Edit.get_map₂ (Expr.call t · ts ·) f as _ _) (by simp)]
    exact congrArg₂ (Expr.call t · ts ·) (get_visitExpr hr f n) (get_visitExprs hr as _)
  | .construct t ty as, n => by
    rw [Editor.visitExpr, get_around_expr _ (Edit.get_map (Expr.construct t ty) as _) (by simp)]
    exact congrArg (Expr.construct t ty) (get_visitExprs hr as n)
  | .unary t op e, n => by
    rw [Editor.visitExpr, get_around_expr _ (Edit.get_map (Expr.unary t op) e _) (by simp)]
    exact congrArg (Expr.unary t op) (get_visitExpr hr e n)
  | .binary t op a b, n => by
    rw [Editor.visitExpr, get_around_expr _ (Edit.get_map₂ (Expr.binary t op) a b _ _) (by simp)]
    exact congrArg₂ (Expr.binary t op) (get_visitExpr hr a n) (get_visitExpr hr b _)
theorem get_visitExprs (hr : ∀ i, r.replacements.get? i = none) : (es : List Expr) → ∀ n,
    ((r.editor c.refs c.types).visitExprs Editor.stop es () n).1.1.get es =
      Expr.spelleds (r.spelling c).use es
  | [], _ => rfl
  | e :: es, n => by
    simp only [Editor.visitExprs, Supply.stateT_bind_apply, Supply.stateT_pure_apply,
      Edit.get_map₂, Expr.spelleds, get_visitExpr hr e n, get_visitExprs hr es]
end

section

variable (hr : ∀ i, r.replacements.get? i = none)

include hr

theorem get_visitExpr? (e : Option Expr) (n : Nat) :
    ((r.editor c.refs c.types).visitExpr? Editor.stop e () n).1.1.get e =
      e.map (Expr.spelled (r.spelling c).use) := by
  cases e with
  | none => rfl
  | some e =>
    simp only [Editor.visitExpr?, Supply.stateT_bind_apply, Supply.stateT_pure_apply]
    rw [Edit.get_map, get_visitExpr hr e n]
    rfl

theorem get_visitKey (k : Key) (n : Nat) :
    ((r.editor c.refs c.types).visitKey Editor.stop k () n).1.1.get k =
      k.spelled (r.spelling c).use := by
  have he := get_visitExpr (c := c) hr k.expr n
  rw [Key.spelled, ← he]
  simp only [Editor.visitKey, Supply.stateT_bind_apply, editor, Supply.stateT_pure_apply, Key.kept,
    Edit.andThen_keep, true_and]
  split
  · rename_i hkeep
    rw [Edit.get_of_isKeep hkeep]
    rfl
  · rfl

theorem get_visitKeys (ks : List Key) (n : Nat) :
    ((r.editor c.refs c.types).visitKeys Editor.stop ks () n).1.1.get ks =
      ks.map (Key.spelled (r.spelling c).use) := by
  induction ks generalizing n with
  | nil => rfl
  | cons k ks ih =>
    simp only [Editor.visitKeys, Supply.stateT_bind_apply, Supply.stateT_pure_apply,
      Edit.get_map₂, map_cons, get_visitKey hr k n, ih]

end

theorem get_cases (e : Expr) (cs : List Case) : (r.cases c.refs c.types e cs).get cs =
    cs.map fun x => x.relabel (x.label.spelled ((r.spelling c).label e.id)) := by
  have hsame (f : String → String) (hf : ∀ n, f n = n) :
      cs = cs.map fun x => x.relabel (x.label.spelled f) := by
    refine (map_id cs).symm.trans (map_congr_left fun x _ => ?_)
    obtain ⟨⟨n⟩ | _, b⟩ | ⟨⟨n⟩ | _⟩ := x <;> simp [Case.relabel, Case.label, Label.spelled, hf]
  unfold cases
  split
  · rename_i h ks as d ht
    simp only [spelling, ht]
    split
    · rename_i hls
      exact hsame _ fun n => by rw [hls]; rfl
    · refine map_congr_left fun x _ => ?_
      obtain ⟨⟨n⟩ | _, b⟩ | ⟨⟨n⟩ | _⟩ := x <;> rfl
  · rename_i hne
    refine hsame _ fun n => ?_
    simp only [spelling]

theorem visitedStmt_ret (e : Option Expr) : r.visitedStmt c n (.ret t e) =
    .ret t (((r.editor c.refs c.types).visitExpr? Editor.stop e () n).1.1.get e) :=
  visitedStmt_of_visitStmt (around_single rfl (congrArg _ (Edit.get_map (Stmt.ret t) e _)))

theorem elim_rename {d d' : Decl} (hd : d.head = h)
    (hd' : d.withHead (h.spelled (r.spelling c)) = d') :
    (r.names.get? h.id).elim d d.rename = d' := by
  subst hd
  rw [← hd']
  change _ = d.withHead { d.head with name := (r.names.get? d.head.id).getD d.head.name }
  cases r.names.get? d.head.id with
  | none => exact d.withHead_head.symm
  | some n => rfl

mutual
theorem visitedStmt_eq (hr : ∀ i, r.replacements.get? i = none) : (s : Stmt) → ∀ n,
    r.visitedStmt c n s = s.spelled (r.spelling c)
  | .block t b, n => by rw [visitedStmt_block, visitedBlock_eq hr b, Stmt.spelled]
  | .assign t a b, n => by
    obtain ⟨k, hv⟩ := visitedStmt_assign (r := r) (c := c) (n := n) (t := t) a b
    rw [hv, visited, visited, get_visitExpr hr, get_visitExpr hr, Stmt.spelled]
  | .call t e, n => by rw [visitedStmt_call, visited, get_visitExpr hr, Stmt.spelled]
  | .ifThen t e a none, n => by
    obtain ⟨k, hv⟩ := visitedStmt_ifThen (r := r) (c := c) (n := n) (t := t) (e := e) a
    rw [hv, visited, get_visitExpr hr, visitedStmt_eq hr a, Stmt.spelled]
  | .ifThen t e a (some b), n => by
    obtain ⟨k, l, hv⟩ := visitedStmt_ifElse (r := r) (c := c) (n := n) (t := t) (e := e) a b
    rw [hv, visited, get_visitExpr hr, visitedStmt_eq hr a, visitedStmt_eq hr b, Stmt.spelled]
  | .switch t e cs, n => by
    obtain ⟨k, hv⟩ := visitedStmt_switch (r := r) (c := c) (n := n) (t := t) (e := e) cs
    rw [hv, visited, get_visitExpr hr, get_cases, visitedCases_eq hr, Expr.id_spelled, Stmt.spelled]
  | .decl t d, n => by rw [visitedStmt_decl, visitedDecl_eq_spelled hr d, Stmt.spelled]
  | .ret t e, n => by rw [visitedStmt_ret, get_visitExpr? hr, Stmt.spelled]
  | .exit t, n => visitedStmt_exit
  | .empty t, n => visitedStmt_empty
theorem visitedBlock_eq (hr : ∀ i, r.replacements.get? i = none) : (b : Block) → ∀ n,
    r.visitedBlock c n b = b.spelled (r.spelling c)
  | .mk i ss, n => by rw [visitedBlock_mk, visitedStmts_eq hr ss, Block.spelled]
theorem visitedStmts_eq (hr : ∀ i, r.replacements.get? i = none) : (ss : List Stmt) → ∀ n,
    r.visitedStmts c n ss = Stmt.spelleds (r.spelling c) ss
  | [], _ => rfl
  | s :: ss, n => by
    obtain ⟨k, hv⟩ := visitedStmts_cons (r := r) (c := c) (n := n) s ss
    rw [hv, visitedStmt_eq hr s, visitedStmts_eq hr ss, Stmt.spelleds]
theorem visitedCases_eq (hr : ∀ i, r.replacements.get? i = none) {f : String → String} :
    (cs : List Case) → ∀ n, ((r.visitedCases c n cs).map fun x => x.relabel (x.label.spelled f)) =
      Case.spelleds (r.spelling c) f cs
  | [], _ => rfl
  | .run l b :: cs, n => by
    obtain ⟨k, hv⟩ := visitedCases_run (r := r) (c := c) (n := n) l b cs
    rw [hv, map_cons, visitedCases_eq hr cs, visitedBlock_eq hr b, Case.spelleds]
    rfl
  | .fallThrough l :: cs, n => by
    rw [visitedCases_fallThrough, map_cons, visitedCases_eq hr cs, Case.spelleds]
    rfl
theorem visitedDecl_eq_spelled (hr : ∀ i, r.replacements.get? i = none) : (d : Decl) → ∀ n,
    r.visitedDecl c n d = d.spelled (r.spelling c)
  | .action h ps b, n => by
    rw [visitedDecl_eq]
    have hb : ((r.editor c.refs c.types).declParts Editor.stop (.action h ps b) () n).1.1.get
        (.action h ps b) = .action h ps (b.spelled (r.spelling c)) :=
      (Edit.get_map (Decl.action h ps) b _).trans (congrArg _ (visitedBlock_eq hr b n))
    rw [hb]
    exact elim_rename rfl rfl
  | .table h ks as d, n => by
    rw [visitedDecl_eq]
    have hb : ((r.editor c.refs c.types).declParts Editor.stop (.table h ks as d) () n).1.1.get
        (.table h ks as d) = .table h (ks.map (Key.spelled (r.spelling c).use))
          (Expr.spelleds (r.spelling c).use as) (d.map (Expr.spelled (r.spelling c).use)) :=
      (Editor.get_table h ks as d _ _ _).trans (congr (congrArg₂ (Decl.table h)
        (get_visitKeys hr ks n) (get_visitExprs hr as _)) (get_visitExpr? hr d _))
    rw [hb]
    exact elim_rename rfl rfl
  | .control h tps ps cps ls b, n => by
    rw [visitedDecl_eq]
    have hb : ((r.editor c.refs c.types).declParts Editor.stop (.control h tps ps cps ls b)
      () n).1.1.get
        (.control h tps ps cps ls b) = .control h tps ps cps (Decl.spelleds (r.spelling c) ls)
          (b.spelled (r.spelling c)) :=
      (Edit.get_map₂ (Decl.control h tps ps cps) ls b _ _).trans
        (congrArg₂ (Decl.control h tps ps cps) (get_visitDecls hr ls n) (visitedBlock_eq hr b _))
    rw [hb]
    exact elim_rename rfl rfl
  | .inst h t as, n => by
    rw [visitedDecl_eq]
    have hb : ((r.editor c.refs c.types).declParts Editor.stop (.inst h t as) () n).1.1.get
        (.inst h t as) = .inst h t (Expr.spelleds (r.spelling c).use as) :=
      (Edit.get_map (Decl.inst h t) as _).trans (congrArg _ (get_visitExprs hr as n))
    rw [hb]
    exact elim_rename rfl rfl
  | .var h t e, n => by
    rw [visitedDecl_eq]
    have hb : ((r.editor c.refs c.types).declParts Editor.stop (.var h t e) () n).1.1.get
        (.var h t e) = .var h t (e.map (Expr.spelled (r.spelling c).use)) :=
      (Edit.get_map (Decl.var h t) e _).trans (congrArg _ (get_visitExpr? hr e n))
    rw [hb]
    exact elim_rename rfl rfl
  | .const h t e, n => by
    rw [visitedDecl_eq]
    have hb : ((r.editor c.refs c.types).declParts Editor.stop (.const h t e) () n).1.1.get
        (.const h t e) = .const h t (e.spelled (r.spelling c).use) :=
      (Edit.get_map (Decl.const h t) e _).trans (congrArg _ (get_visitExpr hr e n))
    rw [hb]
    exact elim_rename rfl rfl
  | .header h fs, n | .struct h fs, n | .externType h tps cs ms, n | .externFn h m,
    n | .package h tps ps, n =>
    (visitedDecl_eq _).trans (elim_rename rfl rfl)
theorem get_visitDecls (hr : ∀ i, r.replacements.get? i = none) : (ds : List Decl) → ∀ n,
    ((r.editor c.refs c.types).visitDecls Editor.stop ds () n).1.1.get ds =
      Decl.spelleds (r.spelling c) ds
  | [], _ => rfl
  | d :: ds, n => by
    obtain ⟨x, hx, -⟩ := visitDecl_single (r := r) (c := c) d n
    have hd := visitedDecl_eq_spelled hr d n
    rw [visitedDecl, hx] at hd
    rw [Editor.get_visitDecls_cons, hx, get_visitDecls hr ds, Decl.spelleds, ← hd]
    rfl
end

theorem get_program (hr : ∀ i, r.replacements.get? i = none) (p : Program) (n : Nat) :
    (r.program c.refs c.types p n).1.get p = p.spelled (r.spelling c) :=
  (Edit.get_map Program.mk p.decls _).trans (congrArg Program.mk (get_visitDecls hr p.decls n))

def nameOf (r : Renaming) (d : Decl) : String := (r.names.get? d.id).getD d.name

theorem name_spelled (r : Renaming) (c : Checked) (d : Decl) :
    (d.spelled (r.spelling c)).name = r.nameOf d := congrArg Head.name (d.head_spelled _)

end Renaming

def Decl.innerDecls (d : Decl) : List Decl := d.visits.tail.filterMap Visit.decl?

def Program.innerDecls (p : Program) : List Decl := p.decls.flatMap Decl.innerDecls

namespace Unique

theorem foldl_visits (d : Decl) (h : st.depth = 0) :
    d.visits.foldl step st = d.innerDecls.foldl note st := by
  obtain ⟨vs, hvs, hlevel⟩ := level_inside d
  have hinner : d.innerDecls = vs.filterMap Visit.decl? := by
    rw [Decl.innerDecls, hvs, tail_cons, filterMap_append]
    exact append_nil _
  have henter : step st (.enter d) = { st with depth := 1 } := by simp [step, enter, h]
  have hzero : st = { st with depth := 0 } := by rw [← h]
  rw [hvs, foldl_cons, henter, foldl_append, hlevel.inner _ Nat.one_ne_zero,
    foldl_note_depth, hinner]
  conv_rhs => rw [hzero, foldl_note_depth]
  rfl

theorem changes_eq (p : Program) : changes p =
    (p.innerDecls.foldl note ⟨0, p.decls.map (·.name), .ofProgram p, .empty⟩).changes := by
  have hfold : ∀ (ds : List Decl) (st : State), st.depth = 0 →
      (Decl.allVisits ds).foldl step st = (ds.flatMap Decl.innerDecls).foldl note st := by
    intro ds
    induction ds with
    | nil => exact fun _ _ => rfl
    | cons d ds ih =>
      intro st h
      rw [Decl.allVisits, foldl_append, flatMap_cons, foldl_append,
        ih _ (((level_decl d).depth st).trans h), foldl_visits d h]
  exact congrArg State.changes (hfold p.decls _ rfl)

/-- What has been chosen for the declarations `ds`, where `top` and `used` are the toplevel names
and all names of the program. -/
structure Chosen (top used : List String) (ds : List Decl) (st : State) : Prop where
  seen : st.seen = (ds.map st.changes.nameOf).reverse ++ top
  distinct : (ds.map st.changes.nameOf).Nodup
  lower : ∀ d ∈ ds, st.changes.nameOf d ∉ top
  fresh : ∀ {i n}, st.changes.names.get? i = some n → i ∈ ds.map (·.id) ∧ n ∉ used
  taken : st.seen ⊆ st.names.used
  used : used ⊆ st.names.used
  plain : ∀ i, st.changes.replacements.get? i = none

namespace Chosen

variable {top used : List String} {ds : List Decl} {st : State} {d : Decl}

theorem get?_of_new (h : Chosen top used ds st) (hid : d.id ∉ ds.map (·.id)) :
    st.changes.names.get? d.id = none := by
  cases hn : st.changes.names.get? d.id with
  | none => rfl
  | some n => exact absurd (h.fresh hn).1 hid

theorem extend (h : Chosen top used ds st) (hn : n ∉ st.seen)
    (hseen : st'.seen = n :: st.seen) (hd : st'.changes.nameOf d = n)
    (hds : ∀ e ∈ ds, st'.changes.nameOf e = st.changes.nameOf e)
    (hfresh : ∀ {i n}, st'.changes.names.get? i = some n →
      i ∈ (ds ++ [d]).map (·.id) ∧ n ∉ used)
    (htaken : st'.seen ⊆ st'.names.used) (hused : used ⊆ st'.names.used)
    (hplain : ∀ i, st'.changes.replacements.get? i = none) : Chosen top used (ds ++ [d]) st' := by
  rw [h.seen, mem_append, mem_reverse, not_or] at hn
  have hmap : (ds ++ [d]).map st'.changes.nameOf = ds.map st.changes.nameOf ++ [n] := by
    rw [map_append, map_congr_left hds, ← hd]
    rfl
  refine ⟨?_, ?_, fun e he => ?_, hfresh, htaken, hused, hplain⟩
  · rw [hseen, h.seen, hmap, reverse_append]
    rfl
  · rw [hmap]
    exact h.distinct.append (nodup_singleton n) (by simpa using hn.1)
  · rcases mem_append.1 he with he | he
    · rw [hds e he]
      exact h.lower e he
    · rw [mem_singleton.1 he, hd]
      exact hn.2

theorem note (h : Chosen top used ds st) (hid : d.id ∉ ds.map (·.id)) (hd : d.name ∈ used) :
    Chosen top used (ds ++ [d]) (note st d) := by
  have hne : ∀ e ∈ ds, e.id ≠ d.id := fun e he heq => hid (heq ▸ mem_map_of_mem he)
  unfold Unique.note
  split
  · have hpick := st.names.pick_not_mem d.name
    refine h.extend (n := st.names.pick d.name) (fun hmem => hpick (h.taken hmem)) rfl ?_
      (fun e he => ?_) (fun {i n} hget => ?_) (cons_subset_cons _ h.taken)
      (subset_cons_of_subset _ h.used) h.plain
    · simp [Renaming.nameOf, Renaming.rename, NodeMap.get?_insert]
    · simp [Renaming.nameOf, Renaming.rename, NodeMap.get?_insert, hne e he]
    · simp only [Renaming.rename, NodeMap.get?_insert] at hget
      split at hget
      · rename_i hi
        cases hget
        exact ⟨by simp [hi], fun hmem => hpick (h.used hmem)⟩
      · exact ⟨by simpa using .inl (by simpa using (h.fresh hget).1), (h.fresh hget).2⟩
  · rename_i hfree
    have hnew : st.changes.nameOf d = d.name := by
      rw [Renaming.nameOf, h.get?_of_new hid]
      rfl
    exact h.extend (by simpa using hfree) rfl hnew (fun _ _ => rfl)
      (fun hget => ⟨by simpa using .inl (by simpa using (h.fresh hget).1), (h.fresh hget).2⟩)
      (cons_subset.2 ⟨h.used hd, h.taken⟩) h.used h.plain

theorem foldl_note (h : Chosen top used ds st)
    (hids : ((ds ++ rest).map (·.id)).Nodup) (hrest : ∀ d ∈ rest, d.name ∈ used) :
    Chosen top used (ds ++ rest) (rest.foldl Unique.note st) := by
  induction rest generalizing ds st with
  | nil => simpa using h
  | cons d rest ih =>
    have hid : d.id ∉ ds.map (·.id) := fun hmem => by
      rw [map_append, map_cons] at hids
      exact (List.nodup_append.1 hids).2.2 _ hmem _ (.head _) rfl
    have happend : ds ++ d :: rest = (ds ++ [d]) ++ rest := by simp
    rw [happend] at hids ⊢
    exact ih (h.note hid (hrest d (.head _))) hids fun d hd => hrest d (.tail _ hd)

end Chosen

end Unique

theorem ids_decls_sublist (vs : List Visit) :
    ((vs.filterMap Visit.decl?).map (·.id)).Sublist (nodeIds vs) := by
  induction vs with
  | nil => exact .slnil
  | cons v vs ih =>
    cases v with
    | enter d => exact ih.cons_cons d.id
    | leave d => exact ih
    | _ => exact ih.cons _

namespace Program

variable {p : Program}

theorem ids_innerDecls_sublist (p : Program) :
    (p.innerDecls.map (·.id)).Sublist (nodeIds p.visits) := by
  obtain ⟨ds⟩ := p
  unfold innerDecls Program.visits
  induction ds with
  | nil => exact .slnil
  | cons d ds ih =>
    rw [flatMap_cons, map_append, Decl.allVisits, nodeIds_append]
    refine List.Sublist.append ((ids_decls_sublist _).trans ?_) ih
    exact (tail_sublist d.visits).filterMap _

theorem mem_allDecls_iff : d ∈ p.allDecls ↔ d ∈ p.decls ∨ d ∈ p.innerDecls := by
  have hvisits (e : Decl) : .enter d ∈ e.visits ↔ d = e ∨ d ∈ e.innerDecls := by
    rw [e.visits_eq_cons, mem_cons, Visit.enter.injEq, Decl.innerDecls, mem_filterMap]
    refine or_congr_right ⟨fun h => ⟨_, h, rfl⟩, ?_⟩
    rintro ⟨v, hv, hd⟩
    cases v <;> cases hd
    exact hv
  simp only [mem_allDecls, Program.visits, Decl.mem_allVisits, hvisits, innerDecls, mem_flatMap]
  constructor
  · rintro ⟨e, he, rfl | hd⟩
    · exact .inl he
    · exact .inr ⟨e, he, hd⟩
  · rintro (hd | ⟨e, he, hd⟩)
    · exact ⟨d, hd, .inl rfl⟩
    · exact ⟨e, he, .inr hd⟩

theorem innerDecls_spelled (p : Program) (σ : Spelling) :
    (p.spelled σ).innerDecls = p.innerDecls.map (Decl.spelled σ) := by
  have hdecl (d : Decl) : (d.spelled σ).innerDecls = d.innerDecls.map (Decl.spelled σ) := by
    have h := Decl.decls_spelled σ d
    rw [Decl.visits_eq_cons, d.visits_eq_cons] at h
    exact (List.cons.inj h).2
  obtain ⟨ds⟩ := p
  unfold innerDecls Program.spelled
  induction ds with
  | nil => rfl
  | cons d ds ih =>
    simp only [Decl.spelleds, flatMap_cons, map_append, hdecl, ih]

theorem name_mem_used (hr : r ∈ p.referents) : r.name ∈ (Names.ofProgram p).used := by
  rw [names_referents]
  exact mem_map_of_mem hr

theorem decl_mem_referents (hd : d ∈ p.allDecls) : .decl d ∈ p.referents :=
  referents_subset (mem_allDecls.1 hd) d.self_mem_referents

theorem decl_mem_allDecls (hd : .decl d ∈ p.referents) : d ∈ p.allDecls := by
  rcases mem_referents hd with ⟨d', hd', he⟩ | ⟨_, _, _, _, he⟩
  · cases he
    exact hd'
  · cases he

theorem exists_of_param_mem (hq : .param q ∈ p.referents) :
    ∃ d ∈ p.allDecls, q ∈ d.params := by
  rcases mem_referents hq with ⟨_, _, he⟩ | ⟨d, hd, q', hq', he⟩
  · cases he
  · cases he
    exact ⟨d, hd, hq'⟩

theorem exists_chosen (hids : (nodeIds p.visits).Nodup) : ∃ st, st.changes = Unique.changes p ∧
    Unique.Chosen (p.decls.map (·.name)) (Names.ofProgram p).used p.innerDecls st := by
  have hused {d : Decl} (hd : d ∈ p.allDecls) : d.name ∈ (Names.ofProgram p).used :=
    name_mem_used (decl_mem_referents hd)
  have hempty : Unique.Chosen (p.decls.map (·.name)) (Names.ofProgram p).used []
      ⟨0, p.decls.map (·.name), .ofProgram p, .empty⟩ := by
    refine ⟨rfl, .nil, nofun, nofun, fun n hn => ?_, List.Subset.refl _, fun _ => rfl⟩
    obtain ⟨d, hd, rfl⟩ := mem_map.1 hn
    exact hused (mem_allDecls_iff.2 (.inl hd))
  exact ⟨_, (Unique.changes_eq p).symm, hempty.foldl_note (hids.sublist p.ids_innerDecls_sublist)
    fun d hd => hused (mem_allDecls_iff.2 (.inr hd))⟩

end Program

namespace Renaming

theorem spelling_of_isEmpty {r : Renaming} (h : r.isEmpty = true) (c : Checked) :
    r.spelling c = .same := by
  have hnames (i : NodeId) : r.names.get? i = none := by
    rw [isEmpty, Bool.and_eq_true, List.isEmpty_iff] at h
    rw [NodeMap.get?, h.1]
    rfl
  have hlabels (as : List Expr) : r.labels c.refs as = [] := by
    have hadd (e : Expr) : r.addLabel c.refs [] e = [] := by
      unfold addLabel
      split
      · simp [hnames]
      · rfl
    rw [labels_eq]
    induction as with
    | nil => rfl
    | cons e as ih => rw [foldl_cons, hadd, ih]
  unfold spelling Spelling.same
  simp only [hnames, hlabels]
  congr
  · funext i n
    cases c.refs.get? i <;> rfl
  · funext i n
    split <;> rfl

end Renaming

namespace Unique

variable {p : Program} (hids : p.NodesApart)

include hids

theorem uniqueNames_eq (c : Checked) (n : Nat) : (p.uniqueNames c.refs c.types n).1.get p =
    p.spelled ((changes p).spelling c) := by
  obtain ⟨st, hst, hchosen⟩ := Program.exists_chosen hids.nodes
  unfold Program.uniqueNames
  split
  · rename_i hempty
    rw [Renaming.spelling_of_isEmpty hempty, Program.spelled_same]
    rfl
  · exact Renaming.get_program (hst ▸ hchosen.plain) p n

theorem key_cases (c : Checked) (hr : r ∈ p.referents) :
    r.key ((changes p).spelling c) = r.name ∨
      ∃ d ∈ p.innerDecls, r = .decl d ∧ (changes p).nameOf d ∉ (Names.ofProgram p).used := by
  obtain ⟨st, hst, hchosen⟩ := Program.exists_chosen hids.nodes
  cases r with
  | param q => exact .inl rfl
  | decl d =>
    have hkey : (Referent.decl d).key ((changes p).spelling c) = (changes p).nameOf d := rfl
    rw [hkey, Renaming.nameOf]
    cases hn : (changes p).names.get? d.id with
    | none => exact .inl rfl
    | some n =>
      have hinner : d ∈ p.innerDecls := by
        refine (Program.mem_allDecls_iff.1 (Program.decl_mem_allDecls hr)).resolve_left fun hd => ?_
        rw [get?_toplevel hids.nodes hd] at hn
        cases hn
      refine .inr ⟨d, hinner, rfl, ?_⟩
      rw [Renaming.nameOf, hn]
      exact (hchosen.fresh (hst ▸ hn)).2

theorem apart (hp : p.Orderly) (c : Checked) :
    ((changes p).spelling c).Apart (· ∈ p.referents) where
  name {r r'} hr hr' hkey := by
    obtain ⟨st, hst, hchosen⟩ := Program.exists_chosen hids.nodes
    rcases key_cases hids c hr with h | ⟨d, hd, rfl, hnew⟩ <;>
      rcases key_cases hids c hr' with h' | ⟨d', hd', rfl, hnew'⟩
    · rw [← h, ← h', hkey]
    · have hused := Program.name_mem_used hr
      rw [← h, hkey] at hused
      exact absurd hused hnew'
    · have hused := Program.name_mem_used hr'
      rw [← h', ← hkey] at hused
      exact absurd hused hnew
    · rw [inj_on_of_nodup_map (hst ▸ hchosen.distinct) hd hd' hkey]
  types {d} hd ht := by
    have henter : .enter d ∈ p.visits := Program.mem_allDecls.1 (Program.decl_mem_allDecls hd)
    rcases hp.enter_cases henter with hmem | ⟨h, tps, ps, cps, ls, b, hc, hl⟩ | hflaw
    · change ((changes p).names.get? d.id).getD d.name = d.name
      rw [get?_toplevel hids.nodes hmem]
      rfl
    · have hflaw := hp.locals (Program.visits_subset_of_mem hc (Decl.enter_mem_visits _)) d hl
      rw [Decl.isType_of_flaw (by simp) hflaw] at ht
      cases ht
    · rw [Decl.isType_of_flaw (by simp) hflaw] at ht
      cases ht

theorem spelled (hpl : pl ∈ p.places) : pl.Spelled ((changes p).spelling p.check) := by
  obtain ⟨st, hst, hchosen⟩ := Program.exists_chosen hids.nodes
  unfold Place.Spelled
  split
  · rename_i sc t n
    intro x hl
    obtain ⟨hname, hx⟩ := Program.lookup_of_place hpl hl
    have href : p.check.refs.get? t.id = some x :=
      Program.get?_refs_check hids.nodes hpl (by simp [Place.use?, hl])
    have huse : ((changes p).spelling p.check).use t.id n =
        ((changes p).names.get? x.id).getD n := by
      simp only [Renaming.spelling, href, Option.bind_some]
    rw [huse, ← hname]
    cases x with
    | decl d => rfl
    | param q =>
      have hnone : (changes p).names.get? q.id = none := by
        cases hn : (changes p).names.get? q.id with
        | none => rfl
        | some n' =>
          have hmem := p.ids_innerDecls_sublist.subset (hchosen.fresh (hst ▸ hn)).1
          obtain ⟨d, hd, hq⟩ := Program.exists_of_param_mem hx
          exact absurd hmem (hids.params d hd q hq)
      rw [show (Referent.param q).id = q.id from rfl, hnone]
      rfl
  · trivial

end Unique

/-- Under the selector with identity `i`, the label `l` names the action with identity `a`: the
selector tells which action of a table was run, and `l` is an entry of the table's action list that
refers to `a`. -/
def Checked.Labels (c : Checked) (i : NodeId) (l : String) (a : NodeId) : Prop :=
  ∃ h ks as d t r, c.types.get? i = some (.actionEnum (.table h ks as d)) ∧
    .path t l ∈ as.map Renaming.entryPath ∧ c.refs.get? t.id = some r ∧ r.id = a

theorem Renaming.entryPath_spelled (use : NodeId → String → String) (e : Expr) :
    entryPath (e.spelled use) = (entryPath e).spelled use := by
  cases e <;> rfl

theorem Renaming.entryPath_mem_walk (e : Expr) : entryPath e ∈ e.walk := by
  cases e with
  | call t c ts as => exact .tail _ (mem_append_left _ c.self_mem_walk)
  | _ => exact .head _

namespace Program

variable {p : Program}

theorem exists_scopes_of_table
    (ht : .table h ks as d ∈ p.allDecls) : ∃ sc : Scopes,
      ∀ e ∈ as.map Renaming.entryPath, (sc, .expr e) ∈ p.places := by
  obtain ⟨sc, hpl⟩ := exists_place (mem_allDecls.1 ht)
  refine ⟨sc, fun e he => p.closed_places _ hpl (.tail _ (mem_append_left _ ?_))⟩
  obtain ⟨x, hx, rfl⟩ := mem_map.1 he
  rw [Scopes.all_append, Scopes.all_append]
  exact mem_append_left _ (mem_append_right _ (Check.mem_all_exprs
    (Expr.walk_subset_walks hx (Renaming.entryPath_mem_walk x))))

variable {l : String}

theorem lookup_of_get? (hids : p.NodesApart)
    (hpl : (sc, .expr (.path t l)) ∈ p.places) (hr : p.check.refs.get? t.id = some r) :
    sc.lookup l = some r := by
  obtain ⟨r', hl, he⟩ := Option.map_eq_some_iff.1 (use?_of_get? hids.nodes hpl rfl hr)
  cases he
  exact hl

theorem label_eq_use (hids : p.NodesApart) (r : Renaming)
    (hty : p.check.types.get? i = some (.actionEnum (.table h ks as d)))
    (hmem : .path t l ∈ as.map Renaming.entryPath) (hx : p.check.refs.get? t.id = some x) :
    (r.spelling p.check).label i l = (r.spelling p.check).use t.id l := by
  obtain ⟨sc, hsc⟩ := exists_scopes_of_table (p.made_types (E := True) (.inl trivial) hty)
  have hlookup := lookup_of_get? hids (hsc _ hmem) hx
  have hall : ∀ t', .path t' l ∈ as.map Renaming.entryPath → p.check.refs.get? t'.id = some x :=
    fun t' ht' => get?_refs_check hids.nodes (hsc _ ht') (by simp [Place.use?, hlookup])
  simp only [Renaming.spelling, hty, hx, Renaming.lookup_labels ⟨t, hmem⟩ hall, Option.bind_some]

theorem labels_spelled (hids : p.NodesApart) (hp : p.Orderly) {σ : Spelling}
    (hσ : σ = (Unique.changes p).spelling p.check) {c : Checked}
    (htypes : c.types = p.check.types.over (Decl.spelled σ))
    (hrefs : c.refs = p.check.refs.over (Decl.spelled σ)) {i a : NodeId}
    (hl : p.check.Labels i l a) (b : NodeId) : c.Labels i (σ.label i l) b ↔ b = a := by
  obtain ⟨h, ks, as, d, t, x, hty, hmem, hx, rfl⟩ := hl
  obtain ⟨sc, hsc⟩ := exists_scopes_of_table (p.made_types (E := True) (.inl trivial) hty)
  have hkey {t : Tag} {l : String} {x : Referent} (ht : .path t l ∈ as.map Renaming.entryPath)
      (hx : p.check.refs.get? t.id = some x) :
      sc.lookup l = some x ∧ x ∈ p.referents ∧ x.name = l ∧ σ.use t.id l = x.key σ := by
    have hlookup := lookup_of_get? hids (hsc _ ht) hx
    have ⟨hname, hmem⟩ := lookup_of_place (hsc _ ht) hlookup
    exact ⟨hlookup, hmem, hname, hσ ▸ Unique.spelled hids (hsc _ ht) x hlookup⟩
  have hlabel : σ.label i l = σ.use t.id l := hσ ▸ label_eq_use hids _ hty hmem hx
  have hentries : (Expr.spelleds σ.use as).map Renaming.entryPath =
      (as.map Renaming.entryPath).map (Expr.spelled σ.use) := by
    rw [Expr.spelleds_eq_map, map_map, map_map]
    exact map_congr_left fun e _ => Renaming.entryPath_spelled _ e
  have htable : c.types.get? i = some (.actionEnum ((Decl.table h ks as d).spelled σ)) := by
    rw [htypes, Types.get?_over, hty]
    rfl
  constructor
  · rintro ⟨h', ks', as', d', t', x', hty', hmem', hx', rfl⟩
    cases Option.some.inj (htable.symm.trans hty')
    rw [hentries] at hmem'
    obtain ⟨e, he, heq⟩ := mem_map.1 hmem'
    cases e with
    | path t'' l' =>
      injection heq with ht hl'
      subst ht
      rw [hrefs, Refs.get?_over] at hx'
      obtain ⟨x'', hx'', rfl⟩ := Option.map_eq_some_iff.1 hx'
      obtain ⟨hlookup, hin, hname, huse⟩ := hkey hmem hx
      obtain ⟨hlookup', hin', hname', huse'⟩ := hkey he hx''
      have hnames : x''.name = x.name :=
        (hσ ▸ Unique.apart hids hp p.check).name hin' hin (by rw [← huse, ← huse', hl', hlabel])
      rw [← hname', hnames, hname, hlookup] at hlookup'
      rw [Option.some.inj hlookup']
      exact Referent.id_over σ.versions _
    | _ => cases heq
  · rintro rfl
    refine ⟨_, _, _, _, t, x.over (Decl.spelled σ), htable, ?_, ?_, Referent.id_over σ.versions x⟩
    · rw [hentries, hlabel]
      exact mem_map_of_mem hmem
    · rw [hrefs, Refs.get?_over, hx]
      rfl

/-- Unique names are an alpha-renaming. Of a program without errors, only the names of declarations,
of paths and of labels change; below the toplevel all declarations get different names, none of them
one of the toplevel; and everything refers to what it referred to. -/
theorem uniqueNames_renames (hids : p.NodesApart) (hp : p.Orderly) (herr : p.check.errors = [])
    (n : Nat) : ∃ (σ : Spelling) (q : Program),
      (p.uniqueNames p.check.refs p.check.types n).1.get p = q ∧ q = p.spelled σ ∧
      (q.innerDecls.map (·.name)).Nodup ∧
      (∀ d ∈ q.innerDecls, d.name ∉ q.decls.map (·.name)) ∧
      q.check.errors = [] ∧
      (∀ i, (q.check.refs.get? i).map (·.id) = (p.check.refs.get? i).map (·.id)) ∧
      ∀ i l a, p.check.Labels i l a → ∀ b, q.check.Labels i (σ.label i l) b ↔ b = a := by
  let σ := (Unique.changes p).spelling p.check
  have hcheck : (p.spelled σ).check = _ :=
    check_spelled (Unique.apart hids hp p.check) (fun _ hpl => Unique.spelled hids hpl) herr
  obtain ⟨st, hst, hchosen⟩ := exists_chosen hids.nodes
  have hnames : (p.spelled σ).innerDecls.map (·.name) =
      p.innerDecls.map (Unique.changes p).nameOf := by
    rw [innerDecls_spelled, List.map_map]
    exact List.map_congr_left fun d _ => Renaming.name_spelled _ _ d
  have htop : (p.spelled σ).decls.map (·.name) = p.decls.map (·.name) := by
    rw [Program.spelled, Decl.spelleds_eq_map, List.map_map]
    refine List.map_congr_left fun d hd => (Renaming.name_spelled _ _ d).trans ?_
    rw [Renaming.nameOf, Unique.get?_toplevel hids.nodes hd]
    rfl
  refine ⟨σ, _, Unique.uniqueNames_eq hids p.check n, rfl, ?_, ?_, ?_, ?_, ?_⟩
  · rw [hnames]
    exact hst ▸ hchosen.distinct
  · intro d hd
    obtain ⟨d', hd', rfl⟩ := List.mem_map.1 (p.innerDecls_spelled σ ▸ hd)
    rw [htop, Renaming.name_spelled]
    exact hst ▸ hchosen.lower d' hd'
  · rw [hcheck]
  · intro i
    rw [hcheck, Refs.get?_over, Option.map_map]
    congr 1
    funext r
    exact Referent.id_over σ.versions r
  · intro i l a hl
    exact labels_spelled hids hp rfl (congrArg Checked.types hcheck) (congrArg Checked.refs hcheck)
      hl

end Program

namespace UniqueNames

def ran (i : Nat) : Expr := .member ⟨⟨i⟩, none⟩ (.call ⟨⟨i + 1⟩, none⟩
  (.member ⟨⟨i + 2⟩, none⟩ (.path ⟨⟨i + 3⟩, none⟩ "t") "apply") [] []) "action_run"

def chooser (i : Nat) (n : String) : Decl := .control ⟨⟨i⟩, n, none⟩ [] [] [] [
  .action ⟨⟨i + 1⟩, "a", none⟩ [] (.mk ⟨i + 2⟩ []),
  .table ⟨⟨i + 3⟩, "t", none⟩ [] [.path ⟨⟨i + 4⟩, none⟩ "a"] none]
  (.mk ⟨i + 5⟩ [.switch ⟨⟨i + 6⟩, none⟩ (ran (i + 7)) [.run (.name "a") (.mk ⟨i + 11⟩ [])]])

def twins : Program := ⟨[chooser 0 "c", chooser 20 "d"]⟩

/-- The action and the table of the second control get new names, and the label follows. -/
theorem twins_renamed : (twins.NodesApart ∧ twins.Orderly ∧ twins.check.errors = []) ∧
    ∃ (σ : Spelling) (q : Program),
      (twins.uniqueNames twins.check.refs twins.check.types 40).1.get twins = q ∧
      q = twins.spelled σ ∧ q.innerDecls.map (·.name) = ["a", "t", "a_0", "t_0"] ∧
      (q.innerDecls.map (·.name)).Nodup ∧ q.check.errors = [] ∧
      q.check.refs.get? ⟨24⟩ = some (.decl (.action ⟨⟨21⟩, "a_0", none⟩ [] (.mk ⟨22⟩ []))) ∧
      ∀ b, q.check.Labels ⟨27⟩ (σ.label ⟨27⟩ "a") b ↔ b = ⟨21⟩ := by
  have hids : twins.NodesApart := by decide
  have hp : twins.Orderly := ((Weights.total_disorder 0 twins).1 (by decide)).1
  have herr : twins.check.errors = [] := List.isEmpty_iff.1 (by decide +kernel)
  have hlabel : twins.check.Labels ⟨27⟩ "a" ⟨21⟩ :=
    ⟨⟨⟨23⟩, "t", none⟩, [], [.path ⟨⟨24⟩, none⟩ "a"], none, ⟨⟨24⟩, none⟩,
      .decl (.action ⟨⟨21⟩, "a", none⟩ [] (.mk ⟨22⟩ [])), by decide +kernel, .head _,
      by decide +kernel, rfl⟩
  obtain ⟨σ, q, hq, hσ, hnodup, -, herr', -, hlabels⟩ := Program.uniqueNames_renames hids hp herr 40
  have hnames : q.innerDecls.map (·.name) = ["a", "t", "a_0", "t_0"] := by
    rw [← hq]
    decide +kernel
  have hrefs : q.check.refs.get? ⟨24⟩ =
      some (.decl (.action ⟨⟨21⟩, "a_0", none⟩ [] (.mk ⟨22⟩ []))) := by
    rw [← hq]
    decide +kernel
  exact ⟨⟨hids, hp, herr⟩, σ, q, hq, hσ, hnames, hnodup, herr', hrefs, hlabels _ _ _ hlabel⟩

end UniqueNames

end MatchAction
