import MatchAction.Proofs.Balance
import MatchAction.Proofs.Resolution

namespace MatchAction

open List

variable {m : Weights}

variable {d : Decl} {k : Nat}

namespace Weights

variable (m)

def excess (d d' : Decl) : Nat :=
  max (m.placed .toplevel d' - m.placed .toplevel d)
    (max (m.placed .control d' - m.placed .control d) (m.placed .block d' - m.placed .block d))

theorem placed_le_excess (spot : Spot) (d d' : Decl) :
    m.placed spot d' ≤ m.placed spot d + m.excess d d' := by
  unfold excess
  cases spot <;> omega

variable {m}

theorem excess_le (h : ∀ spot, m.placed spot d' ≤ m.placed spot d + k) :
    m.excess d d' ≤ k := by
  have htop := h .toplevel
  have hcontrol := h .control
  have hblock := h .block
  unfold excess
  omega

end Weights

/-! Replacement of a declaration. -/

namespace Replacement

/-- Whatever bears the identity of the new declaration pays for it. -/
def prices (m : Weights) (d : Decl) (v : Visit) : Int :=
  m.visit v + match v with
    | .enter old => if old.id = d.id then m.excess old d else 0
    | _ => 0

theorem le_prices (d : Decl) (v : Visit) : m.visit v ≤ prices m d v := by
  unfold prices
  split
  · split <;> omega
  · omega

theorem total_le_price (d : Decl) (vs : List Visit) : m.total vs ≤ price (prices m d) vs := by
  induction vs with
  | nil => exact Int.le_refl _
  | cons v vs ih =>
    have hv := le_prices (m := m) d v
    rw [m.total_cons, price_cons]
    omega

theorem placed_le_price {old : Decl} (h : old.id = d.id) (spot : Spot) :
    m.placed spot d ≤ price (prices m d) old.visits + m.misplaced * old.flaw spot := by
  obtain ⟨vs, hvs⟩ : ∃ vs, old.visits = .enter old :: vs := by
    cases old <;> exact ⟨_, rfl⟩
  have hexcess := m.placed_le_excess spot old d
  have hrest := total_le_price (m := m) d vs
  have hfirst : prices m d (.enter old) = m.visit (.enter old) + m.excess old d := by
    simp [prices, h]
  have hold : m.placed spot old
      = m.visit (.enter old) + m.total vs + m.misplaced * old.flaw spot := by
    rw [Weights.placed, Weights.decl, hvs, m.total_cons]
  rw [hold] at hexcess
  rw [hvs, price_cons, hfirst]
  omega

theorem fair_replacer (d : Decl) : (replacer d).Fair .idle (prices m d) m := by
  have hexprs : (replacer d).FairExprs .idle (prices m d) m :=
    ⟨fun e => le_prices d (.expr e), fun _ => rfl, Editor.pays_keepExpr⟩
  have hplain : (replacer d).PlainExprs := ⟨fun _ => rfl, fun _ => rfl⟩
  exact {
    hexprs with
    key := fun k => le_prices d (.key k)
    block := fun b => le_prices d (.block b)
    stmt := fun s _ => le_prices d (.stmt s)
    leave := fun d' => le_prices d (.leave d')
    enterStmt := fun _ => rfl
    not_into := fun old st n d' h => by
      change (if old.id = d.id then Entry.swap d else .descend) = .into d' at h
      split at h <;> cases h
    enterDecl := fun spot old => by
      change Ledger.idle.Pays m (pure (if old.id = d.id then Entry.swap d else .descend)) _ _
      split
      · rename_i h
        exact .pure (placed_le_price h spot)
      · exact Editor.pays_descend spot (le_prices d (.enter old))
    leaveDecl := Editor.pays_keepDecl
    leaveStmt := Editor.pays_keepStmt
    leaveBlock := Editor.pays_keepBlock
    leaveKey := Editor.pays_keepKey
    call := fun t e => hexprs.call (fun e st n => by rw [hplain.visitExpr e]; exact Nat.le_refl _)
      (fun _ => rfl) Editor.pays_keepStmt (le_prices d (.stmt (.call t e))) }

theorem prices_eq (h : v.id? ≠ some d.id) : prices m d v = m.visit v := by
  unfold prices
  split
  · rw [if_neg fun hid => h (congrArg some hid)]
    omega
  · omega

theorem price_of_not_mem (h : d.id ∉ nodeIds vs) :
    price (prices m d) vs = m.total vs := by
  induction vs with
  | nil => rfl
  | cons v vs ih =>
    have hv : v.id? ≠ some d.id := fun hv => h (mem_filterMap.2 ⟨v, .head _, hv⟩)
    have hvs : d.id ∉ nodeIds vs := fun hvs => h (nodeIds_subset (subset_cons_self v vs) hvs)
    rw [price_cons, m.total_cons, prices_eq hv, ih hvs]
    push_cast
    rfl

theorem price_le (hids : (nodeIds vs).Nodup)
    (h : ∀ old, .enter old ∈ vs → old.id = d.id → m.excess old d ≤ k) :
    price (prices m d) vs ≤ m.total vs + k := by
  induction vs with
  | nil => simp
  | cons v vs ih =>
    have hrest : (nodeIds vs).Nodup := hids.sublist ((sublist_cons_self v vs).filterMap _)
    rw [price_cons, m.total_cons]
    by_cases hv : v.id? = some d.id
    · have hnot : d.id ∉ nodeIds vs := by
        rw [nodeIds, filterMap_cons_some hv, nodup_cons] at hids
        exact hids.1
      have hfirst : prices m d v ≤ m.visit v + k := by
        unfold prices
        split
        · rename_i old
          have hold : old.id = d.id := Option.some.inj hv
          have := h old (.head _) hold
          rw [if_pos hold]
          omega
        · omega
      rw [price_of_not_mem hnot]
      push_cast
      omega
    · have hvs := ih hrest fun old hold => h old (.tail _ hold)
      rw [prices_eq hv]
      push_cast
      omega

end Replacement

variable {i : NodeId}

theorem Program.enter_of_declOf? {p : Program} (h : p.declOf? i = some d) :
    .enter d ∈ p.visits ∧ d.id = i := by
  have hfind : p.allDecls.find? (·.id == i) = some d := h
  have hid := find?_some hfind
  exact ⟨mem_allDecls.1 (mem_of_find?_eq_some hfind), eq_of_beq hid⟩

theorem Program.costs_replaceDecl {p : Program} (hids : (nodeIds p.visits).Nodup) {d' : Decl}
    (hd : p.declOf? d'.id = some d) :
    Supply.Costs m (p.replaceDecl d') (m.total p.visits + m.excess d d') fun x =>
      m.total (x.get p).visits := by
  have hprice : price (Replacement.prices m d') p.visits ≤ m.total p.visits + m.excess d d' := by
    refine Replacement.price_le hids fun old hold hid => ?_
    obtain ⟨hmem, hid'⟩ := enter_of_declOf? hd
    have hsame := eq_of_nodup_filterMap hids hold hmem (congrArg some hid) (congrArg some hid')
    cases hsame
    exact Nat.le_refl _
  refine (((Replacement.fair_replacer d').program p).costs () trivial fun _ => trivial).andReturn
    (fun r => ?_) ?_
  · simp [Ledger.idle]
  · simpa [Ledger.idle] using hprice

theorem Program.flawless_of_declOf? {p : Program} (hp : m.flaws.total p.visits = 0)
    (h : p.declOf? i = some d) : m.flaws.decl d = 0 := by
  refine Weights.total_eq_zero.2 fun v hv => ?_
  exact Weights.total_eq_zero.1 hp v (visits_subset_of_enter (enter_of_declOf? h).1 hv)

/-! Parts of callees. -/

section

variable {σ α β : Type} {L : Ledger σ} {x : Supply α} {f : α → Editing σ β} {p p' : Int}
  {q : α → Int} {r : β → Int}

theorem Ledger.Pays.lift_bind_of {R : α → Prop} (hx : Supply.Costs m x p q) (hR : ∀ n, R (x n).1)
    (rest : Int) (hf : ∀ a, R a → L.Pays m (f a) (q a + rest) r) (hp : p + rest ≤ p') :
    L.Pays m (liftM x >>= f) p' r :=
  have hx : L.Pays m (liftM x) p q := .lift hx
  (hx.bind_of (R := R) (fun _ n => hR n) rest hf).weaken hp

theorem Ledger.Pays.ofFlaws (hx : Supply.Costs m.flaws x p q)
    (hf : ∀ a, q a ≤ p → L.Pays m (f a) p' r) : L.Pays m (liftM x >>= f) p' r := by
  have hspent : Supply.Costs m x 0 fun _ => 0 := fun n => ⟨(hx n).1, by simp⟩
  have hflaws n : q (x n).1 ≤ p := by simpa using (hx n).2
  exact .lift_bind_of hspent hflaws p' (fun a ha => (hf a ha).weaken (by omega)) (by omega)

end

theorem costs_copyOuts (params : List (Param × String)) (args : List Expr) :
    Supply.Costs m (copyOuts params args) 0 fun ss => m.stmts ss := by
  induction params generalizing args with
  | nil => exact .pure (Int.le_refl _)
  | cons p ps ih =>
    cases args with
    | nil => exact .pure (Int.le_refl _)
    | cons a as =>
      obtain ⟨p, name⟩ := p
      rw [copyOuts]
      split
      · refine (a.costs_copy m).free fun target => (costs_tag m none).free fun t => ?_
        refine (costs_tag m none).free fun t' => ?_
        refine ((ih as).bind (m.node t'.id + (m.node t.id + m.expr target))
          fun ss => .pure ?_).weaken (by omega)
        simp
        omega
      · exact ih as

theorem flawless_copyOuts (params : List (Param × String)) (args : List Expr) (n : Nat) :
    m.flaws.stmts (copyOuts params args n).1 = 0 := by
  have := (costs_copyOuts (m := m.flaws) params args n).2
  simpa using this

theorem fair_exitGuard (hm : m.Silent) (h : m.flaws.stmts copyOut = 0) :
    (exitGuard copyOut).Fair .idle m.prices m := by
  refine .of_hooks (Editor.calls_of_silent _ hm) (fun _ => rfl) (fun _ => rfl)
    (fun _ _ _ => .inl rfl) (fun _ => .pure (Int.le_refl _)) Editor.pays_keepDecl (fun s => ?_)
    Editor.pays_keepBlock Editor.pays_keepKey Editor.pays_keepExpr
  simp only [exitGuard]
  split
  · rename_i t
    refine (Ledger.Pays.lift (Stmt.costs_copies hm copyOut)).andReturn (m.stmt (.exit t))
      (fun ss => ?_) (by rw [h]; omega)
    simp [Function.comp_def]
  · exact Editor.pays_keepStmt s

theorem Editor.Fair.costs_block {σ : Type} {w : Editor σ} (hw : w.Fair .idle m.prices m) (st : σ)
    (b : Block) : Supply.Costs m ((w.block b).run st) (m.block b) fun r => m.block (r.1.get b) := by
  refine ((hw.visitBlock b).costs st trivial fun _ => trivial).mono ?_ fun r => ?_
  · rw [m.price_prices]
    simp [Ledger.idle, Weights.block]
  · simp [Ledger.idle]

def Weights.grown (m : Weights) (d : Decl) : Splice Decl → Nat
  | .put d' :: _ => m.excess d d'
  | _ => 0

theorem Weights.grown_le
    (h : ∀ spot, m.decls spot (xs.map (·.get d)) ≤ m.placed spot d + k) : m.grown d xs ≤ k := by
  unfold grown
  split
  · refine excess_le fun spot => ?_
    have := h spot
    rw [map_cons, m.decls_cons, Edit.get_put] at this
    omega
  · exact Nat.zero_le k

theorem Editor.Fair.costs_decl {σ : Type} {w : Editor σ} (hw : w.Fair .idle m.prices m) (st : σ)
    (d : Decl) : Supply.Costs m ((w.decl d).run st) 0 fun r => m.grown d r.1 := by
  intro n
  have hspot spot := (hw.visitDecl spot d).costs st trivial (fun _ => trivial) n
  refine ⟨(hspot .toplevel).1, ?_⟩
  have hgrown : m.grown d (w.visitDecl stop false d st n).1.1
      ≤ m.spent n (w.visitDecl stop false d st n).2 := by
    refine Weights.grown_le fun spot => ?_
    have hpaid := (hspot spot).2
    rw [m.price_prices] at hpaid
    simp only [Ledger.idle, StateT.run] at hpaid
    rw [Weights.placed, Weights.decl]
    omega
  rw [Int.zero_add]
  exact Int.ofNat_le.2 hgrown

theorem costs_copyOutBeforeExit {copyOut : List Stmt} (hm : m.Silent)
    (h : m.flaws.stmts copyOut = 0) (b : Block) :
    Supply.Costs m (copyOutBeforeExit copyOut b) (m.block b) fun b => m.block b := by
  unfold copyOutBeforeExit
  split
  · exact .pure (Int.le_refl _)
  · exact ((fair_exitGuard hm h).costs_block () b).andReturn (fun _ => Int.le_refl _)
      (Int.le_refl _)

theorem pays_renameFresh (base : String → String) (found : List (NodeId × String)) (r : Renaming) :
    Ledger.idle.Pays m (renameFresh base found r) 0 fun _ => 0 := by
  induction found generalizing r with
  | nil => exact .pure (Int.le_refl _)
  | cons x xs ih => exact (Names.pays_new _).free fun new => ih _

namespace Renaming

variable (r : Renaming) (refs : Refs) (types : Types)

theorem costs_block (hm : m.Silent) (b : Block) :
    Supply.Costs m (r.block refs types b) (m.block b) fun b => m.block b :=
  ((r.fair_editor refs types hm).costs_block () b).andReturn (fun _ => Int.le_refl _)
    (Int.le_refl _)

theorem costs_decls (hm : m.Silent) (spot : Spot) (ds : List Decl) :
    Supply.Costs m (r.decls refs types ds) (m.decls spot ds) fun ds => m.decls spot ds := by
  have hrun := ((r.fair_editor refs types hm).visitDecls spot ds).costs () trivial fun _ => trivial
  refine hrun.andReturn (fun x => ?_) ?_
  · simp [Ledger.idle]
  · rw [m.price_prices]
    simp [Ledger.idle, Weights.decls]

end Renaming

theorem pays_recheck (p : Program) : Ledger.idle.Pays m (recheck p) 0 fun _ => 0 :=
  ⟨fun _ _ => Nat.le_refl _, id, fun _ _ => ⟨trivial, by simp [Ledger.idle]⟩⟩

/-! Actions. -/

namespace ActionInlining

theorem costs_paramDecls (params : List (Param × String)) (args : List Expr) :
    Supply.Costs m (paramDecls params args) (m.exprs args) fun ss => m.stmts ss := by
  induction params generalizing args with
  | nil => exact .pure (by simp)
  | cons p ps ih =>
    cases args with
    | nil => exact .pure (Int.le_refl _)
    | cons a as =>
      obtain ⟨p, name⟩ := p
      refine (costs_head m name p.span).free fun h => ?_
      have hinit : m.expr? (if p.direction.copiesIn then some a else none) ≤ m.expr a := by
        split <;> simp
      refine ((costs_declare m (.var h p.type _)).bind (m.exprs as) fun s => ?_).weaken (by
        rw [m.placed_var, m.exprs_cons]
        omega)
      refine ((ih as).bind (m.stmt s) fun ss => .pure ?_).weaken (by omega)
      rw [m.stmts_cons]
      omega

theorem pays_splice (hm : m.Silent) (c : Checked) (span : Option Span) (args : List Expr)
    (ps : List Param) {b : Block} (hb : m.flaws.block b = 0) :
    Ledger.idle.Pays m (splice c span args ps b) (m.exprs args) fun s => m.stmt s := by
  refine (pays_renameFresh _ _ _).free fun r => ?_
  refine .ofFlaws (r.costs_block c.refs c.types hm.flaws b) fun b' hb' => ?_
  refine ((Ledger.Pays.lift (b'.costs_copy hm)).bind (m.exprs args) fun body => ?_).weaken
    (by omega)
  have hout := costs_copyOuts (m := m) (renamedParams r ps) args
  refine .lift_bind_of (R := fun ss => m.flaws.stmts ss = 0) hout (flawless_copyOuts _ args)
    (m.block body + m.exprs args) (fun copyOut hflaws => ?_) (by omega)
  refine ((Ledger.Pays.lift (costs_paramDecls (renamedParams r ps) args)).bind
    (m.block body + m.stmts copyOut) fun front => ?_).weaken (by omega)
  refine ((Ledger.Pays.lift (costs_copyOutBeforeExit hm hflaws body)).bind
    (m.stmts front + m.stmts copyOut) fun body' => ?_).weaken (by omega)
  refine (Ledger.Pays.lift (costs_tag m span)).free fun t => ?_
  refine (Ledger.Pays.lift (costs_freshId m)).free fun i => .pure ?_
  simp only [m.stmt_block, m.block_mk, m.stmts_append, m.block_eq body']
  omega

theorem fair_splicer (hm : m.Silent) (c : Checked) {p : Program}
    (hp : m.flaws.total p.visits = 0) (caller : NodeId) (sites : List InlineEdge) :
    (splicer c p caller sites).Fair .idle m.prices m := by
  refine .of_hooks (Editor.calls_of_silent _ hm) (fun _ => rfl) (fun _ => rfl)
    (fun d _ _ => ?_) (fun _ => .pure (Int.le_refl _)) Editor.pays_keepDecl (fun s => ?_)
    Editor.pays_keepBlock Editor.pays_keepKey Editor.pays_keepExpr
  · by_cases hd : (d.id ≠ caller && d.isAction) = true
    · exact .inr (if_pos hd)
    · exact .inl (if_neg hd)
  · simp only [splicer]
    split
    · rename_i callee hcallee
      obtain ⟨e, -, hdecl⟩ := Option.bind_eq_some_iff.1 hcallee
      split
      · split
        · rename_i t _ callee' _ args h ps b _
          have hb : m.flaws.block b = 0 := by
            have := p.flawless_of_declOf? hp hdecl
            rw [m.flaws.decl_action] at this
            omega
          refine (pays_splice hm c t.span args ps hb).andReturn 0 (fun s => by simp) ?_
          rw [m.stmt_call, m.expr_call]
          omega
        · exact Editor.pays_keepStmt _
      · exact Editor.pays_keepStmt _
    · exact Editor.pays_keepStmt s

theorem frame_splicer (c : Checked) (p : Program) (sites : List InlineEdge) (d : Decl) (st : Names)
    (n : Nat) : ∃ x, ((splicer c p d.id sites).decl d st n).1.1 = [x] ∧
      (x.get d).frame = d.frame := by
  have henter : (splicer c p d.id sites).enterDecl d = pure .descend := by
    simp [splicer]
  refine ⟨((splicer c p d.id sites).declParts Editor.stop d st n).1.1, ?_,
    Editor.frame_declParts d st n⟩
  rw [Editor.decl, Editor.visitDecl_eq, Editor.aroundDecl_descend henter]
  simp [Editor.leaveEach_singleton, splicer]

theorem pays_into (hm : m.Silent) {p : Program} (hids : (nodeIds p.visits).Nodup)
    (hp : m.flaws.total p.visits = 0) (caller : NodeId) (sites : List InlineEdge) :
    Ledger.idle.Pays m (into caller sites p) (m.total p.visits) fun x =>
      m.total (x.get p).visits := by
  unfold into
  split
  · rename_i d hd
    obtain ⟨-, rfl⟩ := Program.enter_of_declOf? hd
    refine (pays_recheck p).free fun c => ?_
    split
    · exact .pure (by simp)
    · have hdecl := (fair_splicer hm c hp d.id sites).costs_decl (.ofProgram p) d
      refine .lift_bind_of (R := fun r => ∀ d' rest, r.1 = .put d' :: rest → d'.id = d.id) hdecl
        (fun n d' rest hr => ?_) (m.total p.visits) (fun r hr => ?_) (by omega)
      · obtain ⟨x, hx, hframe⟩ := frame_splicer c p sites d (.ofProgram p) n
        have hlist := hx.symm.trans hr
        cases hlist
        exact congrArg Head.id (Decl.head_congr hframe)
      · dsimp only
        split
        · rename_i d' rest hx
          have hd' : p.declOf? d'.id = some d := by rw [hr d' rest hx, hd]
          exact .lift ((p.costs_replaceDecl hids hd').weaken (by rw [hx, Weights.grown]; omega))
        · exact .pure (by rw [Edit.get_keep]; omega)
  · exact .pure (Int.le_refl _)

end ActionInlining

namespace ControlInlining

def preparedWeight (m : Weights) : Option Prepared → Nat
  | some q => m.decls .control q.locals + m.flaws.block q.body
  | none => 0

theorem pays_vars (params : List (Param × String)) :
    Ledger.idle.Pays m
      (params.mapM fun (p, name) => return Decl.var (← Head.fresh name none) p.type none :
        Editing Names (List Decl)) 0 fun ds => m.decls .control ds := by
  refine Editor.pays_mapM (U := fun _ => 0) (V := fun ds => m.decls .control ds)
    rfl (fun _ _ => rfl) (fun d ds => by simp) (fun x => ?_) params
  exact (Ledger.Pays.lift (costs_head m x.2 none)).andReturn 0 (fun h => by simp) (Int.le_refl _)

theorem pays_prepare (hm : m.Silent) (style : InlineStyle) (c : Checked) (inst : Head)
    (args : List Expr) (callee : Decl) :
    Ledger.idle.Pays m (prepare style c inst args callee) (m.flaws.decl callee) fun q =>
      preparedWeight m q := by
  unfold prepare
  split
  · rename_i h tps ps cps ls b
    split
    · exact .pure (Int.natCast_nonneg _)
    · refine (pays_renameFresh _ _ _).free fun r => ?_
      refine .ofFlaws (r.costs_decls c.refs c.types hm.flaws .control ls) fun ls' hls => ?_
      refine .ofFlaws (r.costs_block c.refs c.types hm.flaws b) fun b' hb => ?_
      refine (pays_vars (renamedParams r ps)).free fun vars => ?_
      refine (Ledger.Pays.lift (Decl.costs_copies hm .control ls')).andReturn
        (m.decls .control vars + m.flaws.block b') (fun ds => ?_) ?_
      · simp [preparedWeight]
        omega
      · rw [m.flaws.decl_control]
        omega
  · exact .pure (Int.natCast_nonneg _)

def flawsOf (m : Weights) (prepared : List (NodeId × Prepared)) : Nat :=
  (prepared.map fun x => m.flaws.block x.2.body).sum

theorem flawless_body (h : flawsOf m prepared = 0)
    (hq : prepared.lookup i = some q) : m.flaws.block q.body = 0 := by
  obtain ⟨front, back, rfl, -⟩ := lookup_eq_some_iff.1 hq
  simp only [flawsOf, map_append, map_cons, sum_append, sum_cons] at h
  omega

theorem pays_prepareLocal (hm : m.Silent) (style : InlineStyle) (c : Checked) {p : Program}
    (hp : m.flaws.total p.visits = 0) (edges : List InlineEdge) (l : Decl) :
    Ledger.idle.Pays m (prepareLocal style c p edges l) 0 fun q => preparedWeight m q := by
  unfold prepareLocal
  dsimp only
  split
  · rename_i callee hcallee
    obtain ⟨e, -, hdecl⟩ := Option.bind_eq_some_iff.1 hcallee
    exact (pays_prepare hm style c l.head _ callee).weaken
      (by rw [p.flawless_of_declOf? hp hdecl]; omega)
  · exact .pure (Int.le_refl _)

theorem pays_locals (hm : m.Silent) (style : InlineStyle) (c : Checked)
    (hp : m.flaws.total p.visits = 0) (edges : List InlineEdge) (ls : List Decl) :
    Ledger.idle.Pays m (locals style c p edges ls) (m.decls .control ls) fun r =>
      m.decls .control r.1 + flawsOf m r.2 := by
  induction ls with
  | nil =>
    rw [locals]
    exact .pure (by simp [flawsOf])
  | cons l ls ih =>
    rw [locals]
    refine (pays_prepareLocal hm style c hp edges l).free fun q => ?_
    refine (ih.bind (preparedWeight m q + m.placed .control l) fun r => ?_).weaken
      (by rw [m.decls_cons]; omega)
    cases q with
    | none => exact .pure (by simp only [preparedWeight, m.decls_cons]; omega)
    | some q =>
      refine .pure ?_
      simp only [preparedWeight, m.decls_append, flawsOf, map_cons, sum_cons]
      omega

theorem costs_copyIns (params : List (Param × String)) (args : List Expr) :
    Supply.Costs m (copyIns params args) (m.exprs args) fun ss => m.stmts ss := by
  induction params generalizing args with
  | nil => exact .pure (by simp)
  | cons p ps ih =>
    cases args with
    | nil => exact .pure (Int.le_refl _)
    | cons a as =>
      obtain ⟨p, name⟩ := p
      rw [copyIns]
      split
      · refine (costs_tag m none).free fun t => (costs_tag m none).free fun t' => ?_
        refine ((ih as).bind (m.node t'.id + m.node t.id + m.expr a) fun ss => .pure ?_).weaken
          (by rw [m.exprs_cons]; omega)
        simp
        omega
      · exact (ih as).weaken (by rw [m.exprs_cons]; omega)

theorem costs_splice (hm : m.Silent) (hq : m.flaws.block q.body = 0)
    (span : Option Span) (args : List Expr) :
    Supply.Costs m (splice q span args) (m.exprs args) fun s => m.stmt s := by
  refine ((costs_copyOuts q.params args).bind_of (R := fun ss => m.flaws.stmts ss = 0)
    (flawless_copyOuts _ args) (m.exprs args) fun copyOut hflaws => ?_).weaken (by omega)
  refine ((costs_copyIns q.params args).bind (m.stmts copyOut) fun copyIn => ?_).weaken (by omega)
  refine ((q.body.costs_copy hm).bind (m.stmts copyIn + m.stmts copyOut) fun body => ?_).weaken
    (by omega)
  refine ((costs_copyOutBeforeExit hm hflaws body).bind (m.stmts copyIn + m.stmts copyOut)
    fun body' => ?_).weaken (by omega)
  refine (costs_tag m span).free fun t => (costs_freshId m).free fun i => .pure ?_
  simp only [m.stmt_block, m.block_mk, m.stmts_append, m.block_eq body']
  omega

theorem fair_splicer (hm : m.Silent) (c : Checked)
    (h : flawsOf m prepared = 0) : (splicer c prepared).Fair .idle m.prices m := by
  refine .of_hooks (Editor.calls_of_silent _ hm) (fun _ => rfl) (fun _ => rfl)
    (fun _ _ _ => .inl rfl) (fun _ => .pure (Int.le_refl _)) Editor.pays_keepDecl (fun s => ?_)
    Editor.pays_keepBlock Editor.pays_keepKey Editor.pays_keepExpr
  simp only [splicer]
  split
  · rename_i t e
    split
    · split
      · rename_i inst _ t' callee ts args _ _ q hq
        have hbody : m.flaws.block q.body = 0 := flawless_body h hq
        refine (Ledger.Pays.lift (costs_splice hm hbody t.span args)).andReturn 0
          (fun s => by simp) ?_
        rw [m.stmt_call, m.expr_call]
        omega
      · exact Editor.pays_keepStmt _
    · exact Editor.pays_keepStmt _
  · exact Editor.pays_keepStmt s

theorem flawless_locals (hm : m.Silent) (style : InlineStyle) (c : Checked) {p : Program}
    (hp : m.flaws.total p.visits = 0) {h : Head} {tps : List String}
    {ps cps : List Param} {ls : List Decl} {b : Block}
    (hd : p.declOf? i = some (.control h tps ps cps ls b)) (edges : List InlineEdge) (st : Names)
    (n : Nat) : flawsOf m ((locals style c p edges ls).run st n).1.1.2 = 0 := by
  have hpaid := ((pays_locals hm.flaws style c (p := p) hp edges ls).costs st trivial
    (fun _ => trivial) n).2
  have hls := p.flawless_of_declOf? hp hd
  rw [m.flaws.decl_control] at hls
  have hsame (prepared : List (NodeId × Prepared)) : flawsOf m.flaws prepared =
      flawsOf m prepared :=
    rfl
  simp only [Ledger.idle, hsame, m.flaws_spent] at hpaid
  omega

theorem excess_control (h : Head) (tps : List String) (ps cps : List Param) (ls ls' : List Decl)
    (b b' : Block) : m.excess (.control h tps ps cps ls b) (.control h tps ps cps ls' b')
      ≤ m.decls .control ls' - m.decls .control ls + (m.block b' - m.block b) := by
  refine Weights.excess_le fun spot => ?_
  obtain ⟨c, hc⟩ := m.placed_control h spot ps cps tps
  rw [hc, hc]
  omega

theorem pays_into (hm : m.Silent) (style : InlineStyle) {p : Program}
    (hids : (nodeIds p.visits).Nodup) (hp : m.flaws.total p.visits = 0) (caller : NodeId)
    (edges : List InlineEdge) :
    Ledger.idle.Pays m (into style caller edges p) (m.total p.visits) fun x =>
      m.total (x.get p).visits := by
  unfold into
  split
  · rename_i h tps ps cps ls b hd
    obtain ⟨-, rfl⟩ := Program.enter_of_declOf? hd
    refine (pays_recheck p).free fun c => ?_
    split
    · exact .pure (by simp)
    · have hlocals := (pays_locals hm style c hp edges ls).costs (.ofProgram p) trivial
        fun _ => trivial
      refine .lift_bind_of (R := fun r => flawsOf m r.1.2 = 0) hlocals.orBack
        (flawless_locals hm style c hp hd edges _) (m.total p.visits - m.decls .control ls)
        (fun r hflaws => ?_) (by simp only [Ledger.idle]; omega)
      obtain ⟨⟨ls', prepared⟩, names⟩ := r
      dsimp only at hflaws ⊢
      simp only [Ledger.idle, hflaws]
      split
      · exact .pure (by rw [Edit.get_keep]; omega)
      · refine ((Ledger.Pays.lift ((fair_splicer hm c hflaws).costs_block () b).orBack).bind
          (m.total p.visits + max (m.decls .control ls) (m.decls .control ls')
            - m.decls .control ls - m.block b) fun x => ?_).weaken (by omega)
        have hd' : p.declOf? (Decl.control h tps ps cps ls' (x.1.get b)).id
            = some (.control h tps ps cps ls b) := hd
        refine .lift ((p.costs_replaceDecl hids hd').weaken ?_)
        have hexcess := excess_control (m := m) h tps ps cps ls ls' b (x.1.get b)
        omega
  · exact .pure (Int.le_refl _)

end ControlInlining

end MatchAction
