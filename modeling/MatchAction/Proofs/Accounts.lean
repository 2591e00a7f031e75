import MatchAction.Proofs.Editors
import MatchAction.Proofs.Weights

/-!
Bookkeeping for editing. An edit is paid for if what it makes, together with what it puts aside in
its state, weighs no more than what it was given, what was put aside before, and the identities it
took from the supply. Paying for the hooks of an editor pays for every traversal.
-/

namespace MatchAction

open List

variable {α β σ : Type}

/-- What a computation makes is covered by the price paid and the identities it takes. -/
def Supply.Costs (m : Weights) (x : Supply α) (paid : Int) (out : α → Int) : Prop :=
  ∀ n, n ≤ (x n).2 ∧ out (x n).1 ≤ paid + m.spent n (x n).2

structure Ledger (σ : Type) where
  held : σ → Nat
  sound : σ → Prop
  /-- Once broken it stays broken, and then nothing need be paid. -/
  valid : σ → Prop

def Ledger.idle : Ledger σ := ⟨fun _ => 0, fun _ => True, fun _ => True⟩

structure Ledger.Pays (L : Ledger σ) (m : Weights) (x : Editing σ α) (paid : Int) (out : α → Int) :
    Prop where
  le : ∀ st n, n ≤ (x st n).2
  sound : ∀ {st n}, L.sound st → L.sound (x st n).1.2
  covered : ∀ {st n}, L.sound st → L.valid (x st n).1.2 →
    L.valid st ∧ out (x st n).1.1 + L.held (x st n).1.2 ≤ paid + L.held st + m.spent n (x st n).2

namespace Supply.Costs

variable {m : Weights} {x : Supply α} {f : α → Supply β} {p p' : Int} {q q' : α → Int}
  {r : β → Int}

theorem pure (h : q a ≤ p) : Supply.Costs m (Pure.pure a) p q := by
  intro n
  simpa using h

theorem bind_of {R : α → Prop} (hx : Costs m x p q) (hR : ∀ n, R (x n).1) (rest : Int)
    (hf : ∀ a, R a → Costs m (f a) (q a + rest) r) : Costs m (x >>= f) (p + rest) r := by
  intro n
  obtain ⟨hle, hx⟩ := hx n
  obtain ⟨hle', hf⟩ := hf (x n).1 (hR n) (x n).2
  refine ⟨Nat.le_trans hle hle', ?_⟩
  simp only [Supply.bind_apply]
  rw [m.spent_add hle hle']
  push_cast
  omega

theorem bind (hx : Costs m x p q) (rest : Int) (hf : ∀ a, Costs m (f a) (q a + rest) r) :
    Costs m (x >>= f) (p + rest) r :=
  hx.bind_of (R := fun _ => True) (fun _ => trivial) rest fun a _ => hf a

theorem mono (hx : Costs m x p q) (hp : p ≤ p') (hq : ∀ a, q' a ≤ q a) : Costs m x p' q' := by
  intro n
  obtain ⟨hle, hx⟩ := hx n
  have := hq (x n).1
  exact ⟨hle, by omega⟩

theorem weaken (hx : Costs m x p q) (hp : p ≤ p') : Costs m x p' q :=
  hx.mono hp fun _ => Int.le_refl _

theorem orBack (hx : Costs m x p q) : Costs m x p fun a => max p (q a) := by
  intro n
  obtain ⟨hle, hx⟩ := hx n
  exact ⟨hle, by dsimp only; omega⟩

theorem free (hx : Costs m x 0 q) (hf : ∀ a, Costs m (f a) (q a + p) r) : Costs m (x >>= f) p r :=
  (hx.bind p hf).weaken (by omega)

variable {γ δ : Type} {y : Supply β} {z : Supply γ} {p₁ p₂ : Int} {u : γ → Int} {v : δ → Int}

theorem andReturn {g : α → β} (hx : Costs m x p q) (h : ∀ a, r (g a) ≤ q a) (hp : p ≤ p') :
    Costs m (x >>= fun a => Pure.pure (g a)) p' r := by
  refine (hx.bind 0 fun a => .pure ?_).weaken (by omega)
  have := h a
  omega

theorem andReturn₂ {g : α → β → γ} (hx : Costs m x p q) (hy : Costs m y p₁ r)
    (h : ∀ a b, u (g a b) ≤ q a + r b) (hp : p + p₁ ≤ p') :
    Costs m (x >>= fun a => y >>= fun b => Pure.pure (g a b)) p' u := by
  refine (hx.bind p₁ fun a => ?_).weaken hp
  refine (hy.bind (q a) fun b => .pure ?_).weaken (by omega)
  have := h a b
  omega

theorem andReturn₃ {g : α → β → γ → δ} (hx : Costs m x p q) (hy : Costs m y p₁ r)
    (hz : Costs m z p₂ u) (h : ∀ a b c, v (g a b c) ≤ q a + r b + u c) (hp : p + p₁ + p₂ ≤ p') :
    Costs m (x >>= fun a => y >>= fun b => z >>= fun c => Pure.pure (g a b c)) p' v := by
  refine (hx.bind (p₁ + p₂) fun a => ?_).weaken (by omega)
  refine (hy.bind (q a + p₂) fun b => ?_).weaken (by omega)
  refine (hz.bind (q a + r b) fun c => .pure ?_).weaken (by omega)
  have := h a b c
  omega

end Supply.Costs

theorem costs_freshId (m : Weights) : Supply.Costs m freshId 0 fun i => m.node i := by
  intro n
  simp

theorem costs_tag (m : Weights) (sp : Option Span) :
    Supply.Costs m (Tag.fresh sp) 0 fun t => m.node t.id := by
  intro n
  simp

theorem costs_head (m : Weights) (name : String) (sp : Option Span) :
    Supply.Costs m (Head.fresh name sp) 0 fun h => m.node h.id := by
  intro n
  simp [Head.fresh]

variable {spot : Spot} {d : Decl}

theorem Supply.Costs.consDecls {m : Weights} {ds : List Decl}
    {x : Supply (Edit Decl)} {y : Supply (Edit (List Decl))}
    (hx : Costs m x (m.placed spot d) fun x => m.placed spot (x.get d))
    (hy : Costs m y (m.decls spot ds) fun y => m.decls spot (y.get ds)) :
    Costs m (x >>= fun x => y >>= fun y => Pure.pure (x.map₂ (· :: ·) d ds y))
      (m.decls spot (d :: ds)) fun z => m.decls spot (z.get (d :: ds)) := by
  refine hx.andReturn₂ hy (fun x y => ?_) (by rw [m.decls_cons]; omega)
  rw [Edit.get_map₂, m.decls_cons]
  omega

theorem costs_declare (m : Weights) (d : Decl) :
    Supply.Costs m (Stmt.declare d) (m.placed .block d) fun s => m.stmt s := by
  refine ((costs_tag m d.span).bind (m.placed .block d) fun t => .pure ?_).weaken (by omega)
  rw [m.stmt_decl]
  omega

namespace Ledger.Pays

variable {L : Ledger σ} {m : Weights} {x : Editing σ α} {f : α → Editing σ β} {p p' : Int}
  {q q' : α → Int} {r : β → Int}

theorem pure (h : q a ≤ p) : L.Pays m (Pure.pure a) p q where
  le _ n := Nat.le_refl n
  sound h := h
  covered := by
    intro st n _ hv
    refine ⟨hv, ?_⟩
    simp only [Supply.stateT_pure_apply, Weights.spent_self]
    omega

theorem bind_of {R : α → Prop} (hx : L.Pays m x p q) (hR : ∀ st n, R (x st n).1.1) (rest : Int)
    (hf : ∀ a, R a → L.Pays m (f a) (q a + rest) r) : L.Pays m (x >>= f) (p + rest) r where
  le st n := Nat.le_trans (hx.le st n) ((hf _ (hR st n)).le _ _)
  sound hs := (hf _ (hR _ _)).sound (hx.sound hs)
  covered := by
    intro st n hs hv
    have hf' := hf (x st n).1.1 (hR st n)
    obtain ⟨hv', hrest⟩ := hf'.covered (hx.sound hs) hv
    obtain ⟨hv'', hfirst⟩ := hx.covered hs hv'
    refine ⟨hv'', ?_⟩
    simp only [Supply.stateT_bind_apply]
    rw [m.spent_add (hx.le st n) (hf'.le _ _)]
    push_cast
    omega

theorem bind (hx : L.Pays m x p q) (rest : Int) (hf : ∀ a, L.Pays m (f a) (q a + rest) r) :
    L.Pays m (x >>= f) (p + rest) r :=
  hx.bind_of (R := fun _ => True) (fun _ _ => trivial) rest fun a _ => hf a

theorem mono (hx : L.Pays m x p q) (hp : p ≤ p') (hq : ∀ a, q' a ≤ q a) : L.Pays m x p' q' where
  le := hx.le
  sound := hx.sound
  covered := by
    intro st n hs hv
    obtain ⟨hv, hx⟩ := hx.covered hs hv
    have := hq (x st n).1.1
    exact ⟨hv, by omega⟩

theorem weaken (hx : L.Pays m x p q) (hp : p ≤ p') : L.Pays m x p' q :=
  hx.mono hp fun _ => Int.le_refl _

theorem free (hx : L.Pays m x 0 q) (hf : ∀ a, L.Pays m (f a) (q a + p) r) :
    L.Pays m (x >>= f) p r :=
  (hx.bind p hf).weaken (by omega)

theorem andReturn {g : α → β} (hx : L.Pays m x p q) (rest : Int) (h : ∀ a, r (g a) ≤ q a + rest)
    (hp : p + rest ≤ p') : L.Pays m (x >>= fun a => Pure.pure (g a)) p' r :=
  (hx.bind rest fun a => .pure (h a)).weaken hp

theorem andReturn₂ {γ : Type} {y : Editing σ β} {g : α → β → γ} {out : γ → Int} {p₁ : Int}
    (hx : L.Pays m x p q) (hy : L.Pays m y p₁ r) (rest : Int)
    (h : ∀ a b, out (g a b) ≤ q a + r b + rest) (hp : p + p₁ + rest ≤ p') :
    L.Pays m (x >>= fun a => y >>= fun b => Pure.pure (g a b)) p' out := by
  refine (hx.bind (p₁ + rest) fun a => ?_).weaken (by omega)
  exact hy.andReturn (q a + rest) (fun b => by have := h a b; omega) (by omega)

theorem consDecls {ds : List Decl} {x : Editing σ (Edit Decl)}
    {y : Editing σ (Edit (List Decl))}
    (hx : L.Pays m x (m.placed spot d) fun x => m.placed spot (x.get d))
    (hy : L.Pays m y (m.decls spot ds) fun y => m.decls spot (y.get ds)) :
    L.Pays m (x >>= fun x => y >>= fun y => Pure.pure (x.map₂ (· :: ·) d ds y))
      (m.decls spot (d :: ds)) fun z => m.decls spot (z.get (d :: ds)) := by
  refine hx.andReturn₂ hy 0 (fun x y => ?_) (by rw [m.decls_cons]; omega)
  rw [Edit.get_map₂, m.decls_cons]
  omega

theorem lift {x : Supply α} (hx : Supply.Costs m x p q) : L.Pays m (liftM x) p q where
  le st n := (hx n).1
  sound h := h
  covered := by
    intro st n hs hv
    have := (hx n).2
    refine ⟨hv, ?_⟩
    simp only [Supply.stateT_lift_apply]
    omega

theorem costs (hx : L.Pays m x p q) (st : σ) (hs : L.sound st) (hv : ∀ st, L.valid st) :
    Supply.Costs m (x.run st) (p + L.held st) fun r => q r.1 + L.held r.2 :=
  fun n => ⟨hx.le st n, (hx.covered hs (hv _)).2⟩

end Ledger.Pays

structure Ledger.PaysAt (L : Ledger σ) (m : Weights) (st : σ) (x : Editing σ α) (paid : Int)
    (out : α → Int) : Prop where
  le : ∀ n, n ≤ (x st n).2
  sound : ∀ {n}, L.sound st → L.sound (x st n).1.2
  covered : ∀ {n}, L.sound st → L.valid (x st n).1.2 →
    L.valid st ∧ out (x st n).1.1 + L.held (x st n).1.2 ≤ paid + L.held st + m.spent n (x st n).2

theorem Ledger.Pays.of_at {L : Ledger σ} {m : Weights} {x : Editing σ α} {p : Int} {q : α → Int}
    (h : ∀ st, L.PaysAt m st x p q) : L.Pays m x p q :=
  ⟨fun st => (h st).le, fun {st _} => (h st).sound, fun {st _} => (h st).covered⟩

namespace Ledger.PaysAt

variable {L : Ledger σ} {m : Weights} {st st' : σ} {x : Editing σ α} {f : α → Editing σ β}
  {p p' : Int} {q : α → Int} {r : β → Int}

theorem of_pays (h : L.Pays m x p q) : L.PaysAt m st x p q := ⟨h.le st, h.sound, h.covered⟩

theorem of_get {f : σ → Editing σ β} (h : L.PaysAt m st (f st) p r) :
    L.PaysAt m st (get >>= f) p r := ⟨h.le, h.sound, h.covered⟩

theorem step (hx : ∀ n, x st n = ((a, st'), n)) (hs : L.sound st → L.sound st')
    (hv : L.sound st → L.valid st' → L.valid st) (h : L.PaysAt m st' (f a) p' r)
    (hp : L.sound st → p' + L.held st' ≤ p + L.held st) : L.PaysAt m st (x >>= f) p r := by
  have hrun n : (x >>= f) st n = f a st' n := by rw [Supply.stateT_bind_apply, hx]
  refine ⟨fun n => hrun n ▸ h.le n, fun {n} hst => hrun n ▸ h.sound (hs hst), fun {n} hst => ?_⟩
  rw [hrun]
  intro hvalid
  obtain ⟨hv', hcovered⟩ := h.covered (hs hst) hvalid
  have := hp hst
  exact ⟨hv hst hv', by omega⟩

theorem lift_bind {x : Supply α} (hx : Supply.Costs m x p q) (rest : Int)
    (hf : ∀ a, L.PaysAt m st (f a) (q a + rest) r) :
    L.PaysAt m st (liftM x >>= f) (p + rest) r := by
  have hrun n : (liftM x >>= f) st n = f (x n).1 st (x n).2 := rfl
  refine ⟨fun n => ?_, fun {n} hst => hrun n ▸ (hf _).sound hst, fun {n} hst => ?_⟩
  · exact hrun n ▸ Nat.le_trans (hx n).1 ((hf _).le _)
  · rw [hrun]
    intro hvalid
    obtain ⟨hle, hpaid⟩ := hx n
    obtain ⟨hv, hcovered⟩ := (hf (x n).1).covered hst hvalid
    rw [m.spent_add hle ((hf _).le _)]
    push_cast
    exact ⟨hv, by omega⟩

theorem weaken (h : L.PaysAt m st x p q) (hp : L.sound st → p ≤ p') : L.PaysAt m st x p' q := by
  refine ⟨h.le, h.sound, fun {n} hst hvalid => ?_⟩
  obtain ⟨hv, hcovered⟩ := h.covered hst hvalid
  have := hp hst
  exact ⟨hv, by omega⟩

end Ledger.PaysAt

def price (f : Visit → Int) (vs : List Visit) : Int := (vs.map f).sum

@[simp] theorem price_nil (f : Visit → Int) : price f [] = 0 := rfl

@[simp] theorem price_cons (f : Visit → Int) (v : Visit) (vs : List Visit) :
    price f (v :: vs) = f v + price f vs := by simp [price]

@[simp] theorem price_append (f : Visit → Int) (vs ws : List Visit) :
    price f (vs ++ ws) = price f vs + price f ws := by simp [price]

namespace Weights

variable (m : Weights)

def prices (v : Visit) : Int := m.visit v

theorem price_prices (vs : List Visit) : price m.prices vs = m.total vs := by
  induction vs with
  | nil => rfl
  | cons v vs ih => simp [ih, prices]

def entry (f : Visit → Int) (spot : Spot) (d : Decl) : Entry Decl → Int
  | .descend => m.visit (.enter d) + (price f d.visits - f (.enter d)) + m.misplaced * d.flaw spot
  | .prune => m.placed spot d
  | .swap d' => m.placed spot d'
  | .into _ => 0

end Weights

namespace Editor

/-- The hooks of an editor around expressions pay for what they make; what they are given was
priced by `f`. -/
structure FairExprs (w : Editor σ) (L : Ledger σ) (f : Visit → Int) (m : Weights) : Prop where
  expr : ∀ e, m.node e.id ≤ f (.expr e)
  enterExpr : ∀ e, w.enterExpr e = pure .descend
  leaveExpr : ∀ e, L.Pays m (w.leaveExpr e) (m.expr e) fun x => m.expr (x.get e)

structure Fair (w : Editor σ) (L : Ledger σ) (f : Visit → Int) (m : Weights) : Prop
    extends FairExprs w L f m where
  key : ∀ k, m.node k.id ≤ f (.key k)
  block : ∀ b, m.node b.id ≤ f (.block b)
  stmt : ∀ s, (∀ t e, s ≠ .call t e) → m.visit (.stmt s) ≤ f (.stmt s)
  leave : ∀ d, 0 ≤ f (.leave d)
  enterStmt : ∀ s, w.enterStmt s = pure .descend
  not_into : ∀ d st n d', (w.enterDecl d st n).1.1 ≠ .into d'
  enterDecl : ∀ spot d, L.Pays m (w.enterDecl d) (price f d.visits + m.misplaced * d.flaw spot)
    (m.entry f spot d)
  leaveDecl : ∀ spot d, L.Pays m (w.leaveDecl d) (m.placed spot d) fun xs =>
    m.decls spot (xs.map (·.get d))
  leaveStmt : ∀ s, L.Pays m (w.leaveStmt s) (m.stmt s) fun xs => m.stmts (xs.map (·.get s))
  leaveBlock : ∀ b, L.Pays m (w.leaveBlock b) (m.block b) fun x => m.block (x.get b)
  leaveKey : ∀ k, L.Pays m (w.leaveKey k) (m.key k) fun r =>
    m.node r.id + m.expr (r.expr.get k.expr)
  call : ∀ t e, L.Pays m (w.visitStmt stop false (.call t e)) (price f (Stmt.call t e).visits)
    fun xs => m.stmts (xs.map (·.get (.call t e)))

section

variable {L : Ledger σ} {m : Weights}

theorem pays_leaveEach {leave : α → Editing σ (Splice α)} {W : List α → Nat}
    (happend : ∀ as bs, W (as ++ bs) = W as + W bs)
    (hleave : ∀ a, L.Pays m (leave a) (W [a]) fun ys => W (ys.map (·.get a)))
    (old : α) (xs : Splice α) :
    L.Pays m (leaveEach leave old xs) (W (xs.map (·.get old))) fun ys =>
      W (ys.map (·.get old)) := by
  induction xs with
  | nil => exact .pure (Int.le_refl _)
  | cons x xs ih =>
    have hsplit : W ((x :: xs).map (·.get old)) = W [x.get old] + W (xs.map (·.get old)) := by
      rw [← happend]
      rfl
    rw [hsplit, Int.natCast_add]
    refine (hleave (x.get old)).bind _ fun ys => ?_
    have hys : (ys.map x.andThen).map (·.get old) = ys.map (·.get (x.get old)) := by
      simp [Function.comp_def, Edit.get_andThen]
    rw [Int.add_comm]
    refine ih.bind _ fun zs => .pure ?_
    rw [map_append, happend, hys]
    push_cast
    omega

variable {w : Editor σ} {f : Visit → Int}

theorem FairExprs.aroundExpr (hw : w.FairExprs L f m) {e : Expr} {x : Editing σ (Edit Expr)}
    {p : Int} (hx : L.Pays m x p fun x => m.expr (x.get e)) :
    L.Pays m (w.aroundExpr stop false e x) p fun x => m.expr (x.get e) := by
  rw [aroundExpr_descend (hw.enterExpr e)]
  refine (hx.bind 0 fun x => ?_).weaken (by omega)
  refine (hw.leaveExpr (x.get e)).andReturn 0 (fun y => ?_) (Int.le_refl _)
  rw [Edit.get_andThen]
  omega

theorem FairExprs.leaf (hw : w.FairExprs L f m) (e : Expr) (hvisits : e.visits = [.expr e])
    (hweight : m.expr e = m.node e.id) :
    L.Pays m (w.aroundExpr stop false e (pure .keep)) (price f e.visits) fun x =>
      m.expr (x.get e) := by
  have hnode := hw.expr e
  refine hw.aroundExpr (.pure ?_)
  rw [hvisits, Edit.get_keep, hweight, price_cons, price_nil]
  omega

mutual
theorem FairExprs.visitExpr (hw : w.FairExprs L f m) : (e : Expr) →
    L.Pays m (w.visitExpr stop false e) (price f e.visits) fun x => m.expr (x.get e)
  | .lit t v ty | .bool t b | .path t n => hw.leaf _ rfl rfl
  | .member t b n => by
    have hnode : m.node t.id ≤ f (.expr (.member t b n)) := hw.expr _
    refine hw.aroundExpr ((hw.visitExpr b).andReturn (m.node t.id) (fun x => ?_) ?_)
    · rw [Edit.get_map (Expr.member t · n), m.expr_member]
      omega
    · simp only [Expr.visits, Expr.walk, map_cons, price_cons]
      omega
  | .index t b i => by
    have hnode : m.node t.id ≤ f (.expr (.index t b i)) := hw.expr _
    refine hw.aroundExpr
      ((hw.visitExpr b).andReturn₂ (hw.visitExpr i) (m.node t.id) (fun x y => ?_) ?_)
    · rw [Edit.get_map₂, m.expr_index]
      omega
    · simp only [Expr.visits, Expr.walk, map_cons, map_append, price_cons, price_append]
      omega
  | .call t c ts as => by
    have hnode : m.node t.id ≤ f (.expr (.call t c ts as)) := hw.expr _
    refine hw.aroundExpr
      ((hw.visitExpr c).andReturn₂ (hw.visitExprs as) (m.node t.id) (fun x y => ?_) ?_)
    · rw [Edit.get_map₂ (Expr.call t · ts ·), m.expr_call]
      omega
    · simp only [Expr.visits, Expr.walk, map_cons, map_append, price_cons, price_append]
      omega
  | .construct t ty as => by
    have hnode : m.node t.id ≤ f (.expr (.construct t ty as)) := hw.expr _
    refine hw.aroundExpr ((hw.visitExprs as).andReturn (m.node t.id) (fun x => ?_) ?_)
    · rw [Edit.get_map, m.expr_construct]
      omega
    · simp only [Expr.visits, Expr.walk, map_cons, price_cons]
      omega
  | .unary t op e => by
    have hnode : m.node t.id ≤ f (.expr (.unary t op e)) := hw.expr _
    refine hw.aroundExpr ((hw.visitExpr e).andReturn (m.node t.id) (fun x => ?_) ?_)
    · rw [Edit.get_map, m.expr_unary]
      omega
    · simp only [Expr.visits, Expr.walk, map_cons, price_cons]
      omega
  | .binary t op l r => by
    have hnode : m.node t.id ≤ f (.expr (.binary t op l r)) := hw.expr _
    refine hw.aroundExpr
      ((hw.visitExpr l).andReturn₂ (hw.visitExpr r) (m.node t.id) (fun x y => ?_) ?_)
    · rw [Edit.get_map₂, m.expr_binary]
      omega
    · simp only [Expr.visits, Expr.walk, map_cons, map_append, price_cons, price_append]
      omega
theorem FairExprs.visitExprs (hw : w.FairExprs L f m) : (es : List Expr) →
    L.Pays m (w.visitExprs stop es) (price f ((Expr.walks es).map .expr))
      fun x => m.exprs (x.get es)
  | [] => .pure (Int.le_refl _)
  | e :: es => by
    refine (hw.visitExpr e).andReturn₂ (hw.visitExprs es) 0 (fun x y => ?_) ?_
    · rw [Edit.get_map₂, m.exprs_cons]
      omega
    · simp only [Expr.visits, Expr.walks, map_append, price_append]
      omega
end

theorem FairExprs.visitExpr? (hw : w.FairExprs L f m) (e : Option Expr) :
    L.Pays m (w.visitExpr? stop e) (price f (Expr.visits? e)) fun x => m.expr? (x.get e) := by
  cases e with
  | none => exact .pure (Int.le_refl _)
  | some e =>
    refine (hw.visitExpr e).andReturn 0 (fun x => ?_) (Int.le_of_eq (Int.add_zero _))
    rw [Edit.get_map some, m.expr?_some]
    omega

theorem Fair.visitKey (hw : w.Fair L f m) (k : Key) :
    L.Pays m (w.visitKey stop k) (price f k.visits) fun x => m.key (x.get k) := by
  have hnode := hw.key k
  refine ((hw.visitExpr k.expr).bind (m.node k.id) fun x => ?_).weaken ?_
  · have hleave := hw.leaveKey { k with expr := x.get k.expr }
    refine (hleave.bind 0 fun r => ?_).weaken (by simp; omega)
    have hget : (x.andThen r.expr).get k.expr = r.expr.get (x.get k.expr) := Edit.get_andThen ..
    dsimp only at hget ⊢
    split
    · rename_i h
      refine .pure ?_
      rw [Edit.get_of_isKeep h.2.2] at hget
      rw [Edit.get_keep, m.key_eq, ← hget, h.1]
      omega
    · refine .pure ?_
      rw [Edit.get_put, m.key_eq, hget]
      push_cast
      omega
  · simp only [Key.visits, price_cons]
    omega

theorem Fair.visitKeys (hw : w.Fair L f m) (ks : List Key) :
    L.Pays m (w.visitKeys stop ks) (price f (ks.flatMap Key.visits))
      fun x => m.keys (x.get ks) := by
  induction ks with
  | nil => exact .pure (Int.le_refl _)
  | cons k ks ih =>
    refine (hw.visitKey k).andReturn₂ ih 0 (fun x y => ?_) ?_
    · rw [Edit.get_map₂, m.keys_cons]
      omega
    · simp only [flatMap_cons, price_append]
      omega

theorem Fair.aroundStmt (hw : w.Fair L f m) {s : Stmt} {x : Editing σ (Splice Stmt)} {p : Int}
    (hx : L.Pays m x p fun xs => m.stmts (xs.map (·.get s))) :
    L.Pays m (w.aroundStmt stop false s x) p fun xs => m.stmts (xs.map (·.get s)) := by
  rw [aroundStmt_descend (hw.enterStmt s)]
  refine (hx.bind 0 fun xs => ?_).weaken (by omega)
  have hleave (s : Stmt) : L.Pays m (w.leaveStmt s) (m.stmts [s]) fun ys =>
      m.stmts (ys.map (·.get s)) := by
    rw [m.stmts_cons, m.stmts_nil, Nat.add_zero]
    exact hw.leaveStmt s
  rw [Int.add_zero]
  exact pays_leaveEach m.stmts_append hleave s xs

theorem Fair.aroundDecl (hw : w.Fair L f m) {x : Editing σ (Edit Decl)}
    (hx : L.Pays m x (m.entry f spot d .descend) fun x => m.placed spot (x.get d)) :
    L.Pays m (w.aroundDecl stop false d x) (price f d.visits + m.misplaced * d.flaw spot) fun xs =>
      m.decls spot (xs.map (·.get d)) := by
  have hleave (d : Decl) : L.Pays m (w.leaveDecl d) (m.decls spot [d]) fun ys =>
      m.decls spot (ys.map (·.get d)) := by
    rw [m.decls_cons, m.decls_nil, Nat.add_zero]
    exact hw.leaveDecl spot d
  have hsingle : m.decls spot [d] = m.placed spot d := by
    rw [m.decls_cons, m.decls_nil, Nat.add_zero]
  simp only [Editor.aroundDecl, Bool.false_eq_true, if_false]
  rw [← Int.add_zero (price f d.visits + _)]
  refine (hw.enterDecl spot d).bind_of (R := fun x => ∀ d', x ≠ .into d') (hw.not_into d) 0
    fun entry hentry => ?_
  rw [Int.add_zero]
  cases entry with
  | descend =>
    rw [← Int.add_zero (m.entry f spot d _)]
    refine hx.bind 0 fun x => ?_
    refine (pays_leaveEach (m.decls_append spot) hleave d [x]).weaken ?_
    simp
  | prune => exact .pure (Int.le_of_eq (congrArg _ hsingle))
  | swap d' => exact .pure (by simp [Weights.entry])
  | into d' => exact absurd rfl (hentry d')

theorem Fair.plainDecl (hw : w.Fair L f m)
    (hvisits : d.visits = [.enter d, .leave d]) (hweight : m.decl d = m.visit (.enter d)) :
    L.Pays m (w.aroundDecl stop false d (pure .keep))
      (price f d.visits + m.misplaced * d.flaw spot) fun xs => m.decls spot (xs.map (·.get d)) := by
  have hleave := hw.leave d
  refine hw.aroundDecl (.pure ?_)
  rw [Edit.get_keep, Weights.placed, hweight, Weights.entry, hvisits]
  simp only [price_cons, price_nil]
  push_cast
  omega

theorem pays_single (xs : Splice Stmt) (s : Stmt) :
    L.Pays m (single xs s) (m.stmts (xs.map (·.get s))) fun x => m.stmt (x.get s) := by
  match xs with
  | [x] => exact .pure (by simp)
  | [] =>
    refine (Ledger.Pays.lift (costs_tag m none)).andReturn 0 (fun t => ?_) (by simp)
    simp
  | x :: y :: xs =>
    refine (Ledger.Pays.lift (costs_tag m none)).andReturn₂ (.lift (costs_freshId m))
      (m.stmts ((x :: y :: xs).map (·.get s))) (fun t i => ?_) (by omega)
    rw [Edit.get_put, m.stmt_block, m.block_mk]
    omega

theorem pays_mapM {g : α → Editing σ β} {U : List α → Nat} {V : List β → Nat} (hV : V [] = 0)
    (hU : ∀ a as, U (a :: as) = U [a] + U as) (hcons : ∀ b bs, V (b :: bs) = V [b] + V bs)
    (hg : ∀ a, L.Pays m (g a) (U [a]) fun b => V [b]) (as : List α) :
    L.Pays m (as.mapM g) (U as) fun bs => V bs := by
  induction as with
  | nil => exact .pure (by simp [hV])
  | cons a as ih =>
    rw [mapM_cons]
    refine (hg a).andReturn₂ ih 0 (fun b bs => ?_) (by have := hU a as; omega)
    have := hcons b bs
    omega

theorem pays_declared (t : Tag) (d : Decl) (xs : Splice Decl) :
    L.Pays m (declared t d xs) (m.node t.id + m.decls .block (xs.map (·.get d))) fun ys =>
      m.stmts (ys.map (·.get (.decl t d))) := by
  unfold declared
  split
  · exact .pure (by simp)
  · exact .pure (by simp)
  · rename_i x xs _
    have hothers : L.Pays m (xs.mapM fun y => return Edit.put (← Stmt.declare (y.get d)))
        (m.decls .block (xs.map (·.get d))) fun ys => m.stmts (ys.map (·.get (.decl t d))) := by
      refine pays_mapM (U := fun (xs : Splice Decl) => m.decls .block (xs.map (·.get d)))
        (V := fun (ys : Splice Stmt) => m.stmts (ys.map (·.get (.decl t d))))
          rfl (fun _ _ => by simp)
        (fun _ _ => by simp) (fun y => ?_) xs
      exact (Ledger.Pays.lift (costs_declare m (y.get d))).andReturn 0 (fun s => by simp) (by simp)
    refine hothers.andReturn (m.node t.id + m.placed .block (x.get d)) (fun ys => ?_) ?_
    · simp only [map_cons, Edit.get_put, m.stmts_cons, m.stmt_decl]
      omega
    · simp only [map_cons, m.decls_cons]
      omega

theorem pays_branch (hx : L.Pays m x p fun xs => m.stmts (xs.map (·.get a))) (rest : Int)
    (hk : ∀ y, L.Pays m (k y) (m.stmt (y.get a) + rest) out) :
    L.Pays m (x >>= fun xs => single xs a >>= k) (p + rest) out :=
  hx.bind rest fun xs => (pays_single xs a).bind rest hk

mutual
theorem Fair.visitStmt (hw : w.Fair L f m) : (s : Stmt) →
    L.Pays m (w.visitStmt stop false s) (price f s.visits) fun xs => m.stmts (xs.map (·.get s))
  | .block t b => by
    have hnode : m.node t.id ≤ f (.stmt (.block t b)) := hw.stmt _ nofun
    refine hw.aroundStmt ((hw.visitBlock b).andReturn (m.node t.id) (fun x => ?_) ?_)
    · rw [map_singleton, Edit.get_map, m.stmts_cons, m.stmt_block, m.stmts_nil]
      omega
    · simp only [Stmt.visits, price_cons]
      omega
  | .assign t l r => by
    have hnode : m.node t.id ≤ f (.stmt (.assign t l r)) := hw.stmt _ nofun
    refine hw.aroundStmt ((hw.visitExpr l).andReturn₂ (hw.visitExpr r) (m.node t.id)
      (fun x y => ?_) ?_)
    · rw [map_singleton, Edit.get_map₂, m.stmts_cons, m.stmt_assign, m.stmts_nil]
      omega
    · simp only [Stmt.visits, price_cons, price_append]
      omega
  | .call t e => hw.call t e
  | .ifThen t c a none => by
    have hnode : m.node t.id ≤ f (.stmt (.ifThen t c a none)) := hw.stmt _ nofun
    refine hw.aroundStmt
      (((hw.visitExpr c).bind (price f a.visits + m.node t.id) fun x => ?_).weaken ?_)
    · refine (pays_branch (hw.visitStmt a) (m.expr (x.get c) + m.node t.id) fun y =>
        .pure ?_).weaken (by omega)
      rw [map_singleton, Edit.get_map₂ (Stmt.ifThen t · · none), m.stmts_cons, m.stmt_ifThen,
        m.stmts_nil]
      omega
    · simp only [Stmt.visits, price_cons, price_append]
      omega
  | .ifThen t c a (some b) => by
    have hnode : m.node t.id ≤ f (.stmt (.ifThen t c a (some b))) := hw.stmt _ nofun
    refine hw.aroundStmt
      (((hw.visitExpr c).bind (price f a.visits + price f b.visits + m.node t.id)
        fun x => ?_).weaken ?_)
    · refine (pays_branch (hw.visitStmt a) (m.expr (x.get c) + price f b.visits + m.node t.id)
        fun y => ?_).weaken (by omega)
      refine (pays_branch (hw.visitStmt b) (m.expr (x.get c) + m.stmt (y.get a) + m.node t.id)
        fun z => .pure ?_).weaken (by omega)
      rw [map_singleton, get_ifElse, m.stmts_cons, m.stmt_ifElse, m.stmts_nil]
      omega
    · simp only [Stmt.visits, price_cons, price_append]
      omega
  | .switch t e cs => by
    have hnode : m.node t.id ≤ f (.stmt (.switch t e cs)) := hw.stmt _ nofun
    refine hw.aroundStmt ((hw.visitExpr e).andReturn₂ (hw.visitCases cs) (m.node t.id)
      (fun x y => ?_) ?_)
    · rw [map_singleton, Edit.get_map₂, m.stmts_cons, m.stmt_switch, m.stmts_nil]
      omega
    · simp only [Stmt.visits, price_cons, price_append]
      omega
  | .decl t d => by
    have hnode : m.visit (.stmt (.decl t d)) ≤ f (.stmt (.decl t d)) := hw.stmt _ nofun
    refine hw.aroundStmt
      (((hw.visitDecl .block d).bind (m.node t.id) fun xs => ?_).weaken ?_)
    · exact (pays_declared t d xs).weaken (by omega)
    · simp only [Stmt.visits, price_cons]
      simp only [Weights.visit, Weights.kind, Stmt.id, Stmt.tag] at hnode
      push_cast at hnode
      omega
  | .ret t e => by
    have hnode : m.visit (.stmt (.ret t e)) ≤ f (.stmt (.ret t e)) := hw.stmt _ nofun
    refine hw.aroundStmt ((hw.visitExpr? e).andReturn (m.node t.id + m.ret) (fun x => ?_) ?_)
    · rw [map_singleton, Edit.get_map, m.stmts_cons, m.stmt_ret, m.stmts_nil]
      omega
    · simp only [Stmt.visits, price_cons]
      simp only [Weights.visit, Weights.kind, Stmt.id, Stmt.tag] at hnode
      omega
  | .exit t => by
    have hnode : m.node t.id ≤ f (.stmt (.exit t)) := hw.stmt _ nofun
    exact hw.aroundStmt (.pure (by simpa [Stmt.visits] using hnode))
  | .empty t => by
    have hnode : m.node t.id ≤ f (.stmt (.empty t)) := hw.stmt _ nofun
    exact hw.aroundStmt (.pure (by simpa [Stmt.visits] using hnode))
theorem Fair.visitBlock (hw : w.Fair L f m) : (b : Block) →
    L.Pays m (w.visitBlock stop b) (price f b.visits) fun x => m.block (x.get b)
  | .mk i ss => by
    have hnode : m.node i ≤ f (.block (.mk i ss)) := hw.block _
    refine ((hw.visitStmts ss).bind (m.node i) fun x => ?_).weaken ?_
    · have hleave := hw.leaveBlock ((x.map (Block.mk i)).get (.mk i ss))
      refine hleave.andReturn 0 (fun y => ?_) ?_
      · rw [Edit.get_andThen]
        omega
      · rw [Edit.get_map, m.block_mk]
        omega
    · simp only [Block.visits, price_cons]
      omega
theorem Fair.visitStmts (hw : w.Fair L f m) : (ss : List Stmt) →
    L.Pays m (w.visitStmts stop ss) (price f (Stmt.allVisits ss)) fun x => m.stmts (x.get ss)
  | [] => .pure (Int.le_refl _)
  | s :: ss => by
    refine (hw.visitStmt s).andReturn₂ (hw.visitStmts ss) 0 (fun x y => ?_) ?_
    · have hget := Edit.get_map₂ (· ++ ·) [s] ss (x.toEdit s) y
      rw [Splice.get_toEdit] at hget
      rw [singleton_append] at hget
      rw [hget, m.stmts_append]
      omega
    · simp only [Stmt.allVisits, price_append]
      omega
theorem Fair.visitCases (hw : w.Fair L f m) : (cs : List Case) →
    L.Pays m (w.visitCases stop cs) (price f (Case.visits cs)) fun x => m.cases (x.get cs)
  | [] => .pure (Int.le_refl _)
  | .run l b :: cs => by
    refine (hw.visitBlock b).andReturn₂ (hw.visitCases cs) 0 (fun x y => ?_) ?_
    · rw [Edit.get_map₂, Edit.get_map, m.cases_run]
      omega
    · simp only [Case.visits, price_append]
      omega
  | .fallThrough l :: cs => by
    refine (hw.visitCases cs).andReturn 0 (fun x => ?_) (by simp [Case.visits])
    rw [Edit.get_map (Case.fallThrough l :: ·), m.cases_fallThrough]
    omega
theorem Fair.visitDecl (hw : w.Fair L f m) (spot : Spot) : (d : Decl) →
    L.Pays m (w.visitDecl stop false d) (price f d.visits + m.misplaced * d.flaw spot) fun xs =>
      m.decls spot (xs.map (·.get d))
  | .action h ps b => by
    have hflaw b' : (Decl.action h ps b').flaw spot = (Decl.action h ps b).flaw spot := by
      cases spot <;> rfl
    refine hw.aroundDecl ((hw.visitBlock b).andReturn
      (m.node h.id + m.misplaced * (Decl.action h ps b).flaw spot) (fun x => ?_) ?_)
    · rw [Edit.get_map, Weights.placed, m.decl_action, hflaw]
      push_cast
      omega
    · have hleave := hw.leave (.action h ps b)
      simp only [Weights.entry, Weights.visit, Decl.visits, price_cons, price_append, price_nil,
        Decl.id, Decl.head]
      omega
  | .table h ks as d => by
    have hflaw ks' as' d' : (Decl.table h ks' as' d').flaw spot =
        (Decl.table h ks as d).flaw spot := by
      cases spot <;> rfl
    refine hw.aroundDecl (((hw.visitKeys ks).bind
      (price f ((Expr.walks as).map .expr) + price f (Expr.visits? d)
        + m.node h.id + m.misplaced * (Decl.table h ks as d).flaw spot) fun x => ?_).weaken ?_)
    · refine (hw.visitExprs as).andReturn₂ (hw.visitExpr? d)
        (m.keys (x.get ks) + m.node h.id + m.misplaced * (Decl.table h ks as d).flaw spot)
        (fun y z => ?_) (by omega)
      rw [get_table, Weights.placed, m.decl_table, hflaw]
      push_cast
      omega
    · have hleave := hw.leave (.table h ks as d)
      simp only [Weights.entry, Weights.visit, Decl.visits, price_cons, price_append, price_nil,
        Decl.id, Decl.head]
      omega
  | .control h tps ps cps ls b => by
    have hflaw ls' b' : (Decl.control h tps ps cps ls' b').flaw spot
        = (Decl.control h tps ps cps ls b).flaw spot := by
      cases spot <;> rfl
    refine hw.aroundDecl ((hw.visitDecls .control ls).andReturn₂ (hw.visitBlock b)
      (m.node h.id + m.misplaced * (Decl.control h tps ps cps ls b).flaw spot) (fun x y => ?_) ?_)
    · rw [Edit.get_map₂, Weights.placed, m.decl_control, hflaw]
      push_cast
      omega
    · have hleave := hw.leave (.control h tps ps cps ls b)
      simp only [Weights.entry, Weights.visit, Decl.visits, price_cons, price_append, price_nil]
      push_cast
      omega
  | .inst h t as => by
    have hflaw as' : (Decl.inst h t as').flaw spot = (Decl.inst h t as).flaw spot := by
      cases spot <;> rfl
    refine hw.aroundDecl ((hw.visitExprs as).andReturn
      (m.node h.id + m.misplaced * (Decl.inst h t as).flaw spot) (fun x => ?_) ?_)
    · rw [Edit.get_map, Weights.placed, m.decl_inst, hflaw]
      push_cast
      omega
    · have hleave := hw.leave (.inst h t as)
      simp only [Weights.entry, Weights.visit, Decl.visits, price_cons, price_append, price_nil,
        Decl.id, Decl.head]
      omega
  | .var h t e => by
    have hflaw e' : (Decl.var h t e').flaw spot = (Decl.var h t e).flaw spot := by
      cases spot <;> rfl
    refine hw.aroundDecl ((hw.visitExpr? e).andReturn
      (m.node h.id + m.misplaced * (Decl.var h t e).flaw spot) (fun x => ?_) ?_)
    · rw [Edit.get_map, Weights.placed, m.decl_var, hflaw]
      push_cast
      omega
    · have hleave := hw.leave (.var h t e)
      simp only [Weights.entry, Weights.visit, Decl.visits, price_cons, price_append, price_nil,
        Decl.id, Decl.head]
      omega
  | .const h t e => by
    have hflaw e' : (Decl.const h t e').flaw spot = (Decl.const h t e).flaw spot := by
      cases spot <;> rfl
    refine hw.aroundDecl ((hw.visitExpr e).andReturn
      (m.node h.id + m.misplaced * (Decl.const h t e).flaw spot) (fun x => ?_) ?_)
    · rw [Edit.get_map, Weights.placed, m.decl_const, hflaw]
      push_cast
      omega
    · have hleave := hw.leave (.const h t e)
      simp only [Weights.entry, Weights.visit, Decl.visits, price_cons, price_append, price_nil,
        Decl.id, Decl.head]
      omega
  | .header h fs | .struct h fs | .externType h tps cs ms | .externFn h x | .package h tps ps =>
    hw.plainDecl rfl rfl
theorem Fair.visitDecls (hw : w.Fair L f m) (spot : Spot) : (ds : List Decl) →
    L.Pays m (w.visitDecls stop ds) (price f (Decl.allVisits ds) + m.misplaced * Decl.flaws spot ds)
      fun x => m.decls spot (x.get ds)
  | [] => .pure (Int.le_refl _)
  | d :: ds => by
    refine (hw.visitDecl spot d).andReturn₂ (hw.visitDecls spot ds) 0 (fun x y => ?_) ?_
    · have hget := Edit.get_map₂ (· ++ ·) [d] ds (x.toEdit d) y
      rw [Splice.get_toEdit, singleton_append] at hget
      rw [hget, m.decls_append]
      omega
    · simp only [Decl.allVisits, price_append, Decl.flaws, map_cons, sum_cons]
      push_cast
      rw [Int.mul_add]
      omega
end

/-! Hooks that leave everything as it is. -/

theorem pays_keepDecl (spot : Spot) (d : Decl) :
    L.Pays m (pure [.keep]) (m.placed spot d) fun (xs : Splice Decl) =>
      m.decls spot (xs.map (·.get d)) :=
  .pure (by simp)

theorem pays_keepStmt (s : Stmt) :
    L.Pays m (pure [.keep]) (m.stmt s) fun (xs : Splice Stmt) => m.stmts (xs.map (·.get s)) :=
  .pure (by simp)

theorem pays_keepBlock (b : Block) :
    L.Pays m (pure .keep) (m.block b) fun (x : Edit Block) => m.block (x.get b) :=
  .pure (Int.le_refl _)

theorem pays_keepKey (k : Key) :
    L.Pays m (pure k.kept) (m.key k) fun r => m.node r.id + m.expr (r.expr.get k.expr) :=
  .pure (by simp [Key.kept])

theorem pays_keepExpr (e : Expr) :
    L.Pays m (pure .keep) (m.expr e) fun (x : Edit Expr) => m.expr (x.get e) :=
  .pure (Int.le_refl _)

theorem pays_descend (spot : Spot) (h : m.visit (.enter d) ≤ f (.enter d)) :
    L.Pays m (pure .descend) (price f d.visits + m.misplaced * d.flaw spot) (m.entry f spot d) :=
  .pure (by simp only [Weights.entry]; omega)

def Calls (w : Editor σ) (m : Weights) : Prop :=
  ∀ e st n, m.callee ((w.visitExpr stop false e st n).1.1.get e) ≤ m.callee e

theorem calls_of_silent (w : Editor σ) (hm : m.Silent) : w.Calls m := by
  intro e st n
  simp [hm.callee]

theorem FairExprs.call (hw : w.FairExprs L f m) (hcalls : w.Calls m)
    (enterStmt : ∀ s, w.enterStmt s = pure .descend)
    (leaveStmt : ∀ s, L.Pays m (w.leaveStmt s) (m.stmt s) fun xs => m.stmts (xs.map (·.get s)))
    (hnode : m.visit (.stmt (.call t e)) ≤ f (.stmt (.call t e))) :
    L.Pays m (w.visitStmt stop false (.call t e)) (price f (Stmt.call t e).visits) fun xs =>
      m.stmts (xs.map (·.get (.call t e))) := by
  rw [Editor.visitStmt, aroundStmt_descend (enterStmt _), bind_assoc]
  refine ((hw.visitExpr e).bind_of (R := fun x => m.callee (x.get e) ≤ m.callee e) (hcalls e)
    (m.node t.id + m.callee e) fun x hx => ?_).weaken ?_
  · rw [pure_bind, leaveEach_singleton, Edit.get_map]
    refine ((leaveStmt (.call t (x.get e))).andReturn 0 (fun ys => ?_) ?_)
    · have hget : (ys.map (x.map (Stmt.call t)).andThen).map (·.get (.call t e))
          = ys.map (·.get (.call t (x.get e))) := by
        simp [Function.comp_def, Edit.get_andThen, Edit.get_map]
      rw [hget]
      omega
    · rw [m.stmt_call]
      omega
  · simp only [Stmt.visits, price_cons]
    simp only [Weights.visit, Weights.kind, Stmt.id, Stmt.tag] at hnode
    omega

theorem Fair.of_hooks (hcalls : w.Calls m) (enterExpr : ∀ e, w.enterExpr e = pure .descend)
    (enterStmt : ∀ s, w.enterStmt s = pure .descend)
    (entries : ∀ d st n, (w.enterDecl d st n).1.1 = .descend ∨ (w.enterDecl d st n).1.1 = .prune)
    (enterDecl : ∀ d, L.Pays m (w.enterDecl d) 0 fun _ => 0)
    (leaveDecl : ∀ spot d, L.Pays m (w.leaveDecl d) (m.placed spot d) fun xs =>
      m.decls spot (xs.map (·.get d)))
    (leaveStmt : ∀ s, L.Pays m (w.leaveStmt s) (m.stmt s) fun xs => m.stmts (xs.map (·.get s)))
    (leaveBlock : ∀ b, L.Pays m (w.leaveBlock b) (m.block b) fun x => m.block (x.get b))
    (leaveKey : ∀ k, L.Pays m (w.leaveKey k) (m.key k) fun r =>
      m.node r.id + m.expr (r.expr.get k.expr))
    (leaveExpr : ∀ e, L.Pays m (w.leaveExpr e) (m.expr e) fun x => m.expr (x.get e)) :
    w.Fair L m.prices m := by
  have hexprs : w.FairExprs L m.prices m := ⟨fun _ => Int.le_refl _, enterExpr, leaveExpr⟩
  exact {
    hexprs with
    key := fun _ => Int.le_refl _
    block := fun _ => Int.le_refl _
    stmt := fun _ _ => Int.le_refl _
    leave := fun _ => Int.le_refl _
    enterStmt := enterStmt
    not_into := fun d st n d' h => by
      rcases entries d st n with h' | h' <;> rw [h'] at h <;> cases h
    enterDecl := fun spot d => by
      have hpaid : price m.prices d.visits + m.misplaced * d.flaw spot = m.placed spot d := by
        rw [m.price_prices, Weights.placed, Weights.decl]
        push_cast
        rfl
      have hentry st n : m.entry m.prices spot d (w.enterDecl d st n).1.1 = m.placed spot d := by
        rcases entries d st n with h | h <;> rw [h, Weights.entry]
        rw [Weights.prices]
        omega
      refine ⟨(enterDecl d).le, (enterDecl d).sound, fun {st n} hs hv => ?_⟩
      obtain ⟨hv, hcovered⟩ := (enterDecl d).covered hs hv
      exact ⟨hv, by rw [hentry]; omega⟩
    leaveDecl := leaveDecl
    leaveStmt := leaveStmt
    leaveBlock := leaveBlock
    leaveKey := leaveKey
    call := fun t e => hexprs.call hcalls enterStmt leaveStmt (Int.le_refl _) }

theorem Fair.program (hw : w.Fair L f m) (p : Program) :
    L.Pays m (w.program p) (price f p.visits) fun x => m.total (x.get p).visits := by
  refine (hw.visitDecls .toplevel p.decls).andReturn 0 (fun x => ?_) ?_
  · rw [Edit.get_map Program.mk, m.decls_toplevel, Int.add_zero]
    exact Int.le_refl _
  · have hflaws : Decl.flaws .toplevel p.decls = 0 := Decl.flaws_toplevel _
    rw [hflaws, Program.visits]
    omega

end

end Editor

mutual
theorem Expr.costs_copy (m : Weights) : (e : Expr) → Supply.Costs m e.copy 0 fun e => m.expr e
  | .lit t _ _ | .bool t _ | .path t _ =>
    (costs_tag m t.span).andReturn (fun _ => Int.le_refl _) (Int.le_refl _)
  | .member t b _ =>
    (costs_tag m t.span).andReturn₂ (b.costs_copy m) (fun _ _ => by simp) (Int.le_refl _)
  | .index t b i =>
    (costs_tag m t.span).andReturn₃ (b.costs_copy m) (i.costs_copy m)
      (fun _ _ _ => by simp [Int.add_assoc]) (Int.le_refl _)
  | .call t c _ as =>
    (costs_tag m t.span).andReturn₃ (c.costs_copy m) (Expr.costs_copies m as)
      (fun _ _ _ => by simp [Int.add_assoc]) (Int.le_refl _)
  | .construct t _ as =>
    (costs_tag m t.span).andReturn₂ (Expr.costs_copies m as) (fun _ _ => by simp) (Int.le_refl _)
  | .unary t _ e =>
    (costs_tag m t.span).andReturn₂ (e.costs_copy m) (fun _ _ => by simp) (Int.le_refl _)
  | .binary t _ l r =>
    (costs_tag m t.span).andReturn₃ (l.costs_copy m) (r.costs_copy m)
      (fun _ _ _ => by simp [Int.add_assoc]) (Int.le_refl _)
theorem Expr.costs_copies (m : Weights) : (es : List Expr) →
    Supply.Costs m (Expr.copies es) 0 fun es => m.exprs es
  | [] => .pure (Int.le_refl _)
  | e :: es =>
    (e.costs_copy m).andReturn₂ (Expr.costs_copies m es) (fun _ _ => by simp) (Int.le_refl _)
end

theorem Expr.costs_copy? (m : Weights) (e : Option Expr) :
    Supply.Costs m (Expr.copy? e) 0 fun e => m.expr? e := by
  cases e with
  | none => exact .pure (Int.le_refl _)
  | some e => exact (e.costs_copy m).andReturn (fun _ => Int.le_refl _) (Int.le_refl _)

theorem Key.costs_copies (m : Weights) (ks : List Key) :
    Supply.Costs m (ks.mapM Key.copy) 0 fun ks => m.keys ks := by
  induction ks with
  | nil => exact .pure (Int.le_refl _)
  | cons k ks ih =>
    have hk : Supply.Costs m k.copy 0 fun k => m.key k :=
      (costs_freshId m).andReturn₂ (k.expr.costs_copy m) (fun _ _ => by simp) (Int.le_refl _)
    rw [mapM_cons]
    exact hk.andReturn₂ ih (fun _ _ => by simp) (Int.le_refl _)

theorem Decl.flaw_copy (spot : Spot) (d : Decl) (n : Nat) :
    (d.copy n).1.flaw spot = d.flaw spot := by
  cases d <;> cases spot <;> rfl

section

variable {m : Weights}

theorem Decl.costs_placed (h : Supply.Costs m d.copy (m.flaws.decl d) fun d => m.decl d)
    (spot : Spot) : Supply.Costs m d.copy (m.flaws.placed spot d) fun d => m.placed spot d := by
  intro n
  obtain ⟨hle, hn⟩ := h n
  refine ⟨hle, ?_⟩
  dsimp only at hn
  simp only [Weights.placed, Decl.flaw_copy, Weights.flaws_misplaced]
  push_cast
  omega

mutual
theorem Stmt.costs_copy (hm : m.Silent) : (s : Stmt) →
    Supply.Costs m s.copy (m.flaws.stmt s) fun s => m.stmt s
  | .block t b =>
    (costs_tag m t.span).andReturn₂ (b.costs_copy hm) (fun _ _ => by simp) (by simp)
  | .assign t l r =>
    (costs_tag m t.span).andReturn₃ (l.costs_copy m) (r.costs_copy m)
      (fun _ _ _ => by simp [Int.add_assoc]) (by simp)
  | .call t e =>
    (costs_tag m t.span).andReturn₂ (e.costs_copy m) (fun _ _ => by simp [hm.callee]) (by simp)
  | .ifThen t c a none =>
    (costs_tag m t.span).andReturn₃ (c.costs_copy m) (a.costs_copy hm)
      (fun _ _ _ => by simp [Int.add_assoc]) (by simp)
  | .ifThen t c a (some b) => by
    refine (costs_tag m t.span).free fun t' => (c.costs_copy m).free fun c' => ?_
    refine ((a.costs_copy hm).bind (m.node t'.id + m.expr c' + m.flaws.stmt b) fun a' => ?_).weaken
      (by simp only [Weights.stmt_ifElse, Weights.flaws_node, Weights.flaws_expr]; omega)
    refine ((b.costs_copy hm).bind (m.node t'.id + m.expr c' + m.stmt a') fun b' => .pure ?_).weaken
      (by omega)
    rw [m.stmt_ifElse]
    omega
  | .switch t e cs =>
    (costs_tag m t.span).andReturn₃ (e.costs_copy m) (Case.costs_copies hm cs)
      (fun _ _ _ => by simp [Int.add_assoc]) (by simp)
  | .decl t d =>
    (costs_tag m t.span).andReturn₂ (Decl.costs_placed (d.costs_copy hm) .block)
      (fun _ _ => by simp) (by simp)
  | .ret t e => by
    refine (costs_tag m t.span).free fun t' => (Expr.costs_copy? m e).free fun e' => .pure ?_
    rw [m.stmt_ret, m.flaws.stmt_ret, m.flaws_ret]
    omega
  | .exit t | .empty t => (costs_tag m t.span).andReturn (fun _ => Int.le_refl _) (Int.le_refl _)
theorem Block.costs_copy (hm : m.Silent) : (b : Block) →
    Supply.Costs m b.copy (m.flaws.block b) fun b => m.block b
  | .mk _ ss =>
    (costs_freshId m).andReturn₂ (Stmt.costs_copies hm ss) (fun _ _ => by simp) (by simp)
theorem Stmt.costs_copies (hm : m.Silent) : (ss : List Stmt) →
    Supply.Costs m (Stmt.copies ss) (m.flaws.stmts ss) fun ss => m.stmts ss
  | [] => .pure (Int.le_refl _)
  | s :: ss =>
    (s.costs_copy hm).andReturn₂ (Stmt.costs_copies hm ss) (fun _ _ => by simp) (by simp)
theorem Case.costs_copies (hm : m.Silent) : (cs : List Case) →
    Supply.Costs m (Case.copies cs) (m.flaws.cases cs) fun cs => m.cases cs
  | [] => .pure (Int.le_refl _)
  | .run l b :: cs =>
    (b.costs_copy hm).andReturn₂ (Case.costs_copies hm cs) (fun _ _ => by simp) (by simp)
  | .fallThrough l :: cs =>
    (Case.costs_copies hm cs).andReturn (fun _ => by simp) (by simp)
theorem Decl.costs_copy (hm : m.Silent) : (d : Decl) →
    Supply.Costs m d.copy (m.flaws.decl d) fun d => m.decl d
  | .action h ps b =>
    (costs_head m h.name h.span).andReturn₂ (b.costs_copy hm) (fun _ _ => by simp) (by simp)
  | .table h ks as d => by
    refine (costs_head m h.name h.span).free fun h' => (Key.costs_copies m ks).free fun ks' => ?_
    refine (Expr.costs_copies m as).free fun as' => (Expr.costs_copy? m d).free fun d' => .pure ?_
    rw [m.decl_table]
    omega
  | .control h tps ps cps ls b =>
    (costs_head m h.name h.span).andReturn₃ (Decl.costs_copies hm .control ls) (b.costs_copy hm)
      (fun _ _ _ => by simp [Int.add_assoc]) (by simp)
  | .inst h t as =>
    (costs_head m h.name h.span).andReturn₂ (Expr.costs_copies m as) (fun _ _ => by simp) (by simp)
  | .var h t e =>
    (costs_head m h.name h.span).andReturn₂ (Expr.costs_copy? m e) (fun _ _ => by simp) (by simp)
  | .const h t e =>
    (costs_head m h.name h.span).andReturn₂ (e.costs_copy m) (fun _ _ => by simp) (by simp)
  | .header h fs | .struct h fs =>
    (costs_head m h.name h.span).andReturn (fun _ => Int.le_refl _) (by simp)
  | .externType h tps cs ms =>
    (costs_head m h.name h.span).andReturn (fun _ => Int.le_refl _) (by simp)
  | .externFn h x | .package h tps ps =>
    (costs_head m h.name h.span).andReturn (fun _ => Int.le_refl _) (by simp)
theorem Decl.costs_copies (hm : m.Silent) (spot : Spot) : (ds : List Decl) →
    Supply.Costs m (Decl.copies ds) (m.flaws.decls spot ds) fun ds => m.decls spot ds
  | [] => .pure (Int.le_refl _)
  | d :: ds =>
    (Decl.costs_placed (d.costs_copy hm) spot).andReturn₂ (Decl.costs_copies hm spot ds)
      (fun _ _ => by simp) (by simp)
end

end

end MatchAction
