import MatchAction.Proofs.Editors
import MatchAction.Proofs.Words

/-!
Folding keeps values. Expressions are evaluated with what is not an operator left open: a path,
member, index or call is worth whatever is assigned to it, given what its parts are worth. Literals
that come out of folding are in the range of their types again, and what overflows is left as it
is.
-/

namespace MatchAction

/-- Values for the nodes that are no literals and no operators, given the values of their parts. -/
abbrev Assignment := NodeId → List (Option Value) → Option Value

mutual
def Expr.eval (ρ : Assignment) : Expr → Option Value
  | .lit _ v ty => some (.lit v ty)
  | .bool _ b => some (.bool b)
  | .path t _ => ρ t.id []
  | .member t b _ => ρ t.id [b.eval ρ]
  | .index t b i => ρ t.id [b.eval ρ, i.eval ρ]
  | .call t c _ as => ρ t.id (c.eval ρ :: Expr.evals ρ as)
  | .construct t _ as => ρ t.id (Expr.evals ρ as)
  | .unary _ op e => (e.eval ρ).bind (Value.unary? op)
  | .binary _ .and l r =>
    match l.eval ρ with
    | some (.bool false) => some (.bool false)
    | a => a.bind fun a => (r.eval ρ).bind (Value.binary? .and a)
  | .binary _ .or l r =>
    match l.eval ρ with
    | some (.bool true) => some (.bool true)
    | a => a.bind fun a => (r.eval ρ).bind (Value.binary? .or a)
  | .binary _ op l r => (l.eval ρ).bind fun a => (r.eval ρ).bind (Value.binary? op a)
def Expr.evals (ρ : Assignment) : List Expr → List (Option Value)
  | [] => []
  | e :: es => e.eval ρ :: Expr.evals ρ es
end

inductive Size
  | sized
  | unsized
deriving DecidableEq

def TypeExpr.size? : TypeExpr → Option Size
  | .bits _ _ => some .sized
  | .int => some .unsized
  | _ => none

namespace BinaryOp

def isArithmetic : BinaryOp → Bool
  | .add | .sub | .mul | .bitAnd | .bitOr | .bitXor => true
  | _ => false

def isShift : BinaryOp → Bool
  | .shl | .shr => true
  | _ => false

def isComparison : BinaryOp → Bool
  | .eq | .ne | .lt | .le | .gt | .ge => true
  | _ => false

/-- A sized and an unsized integer meet in arithmetic only, or where the unsized one is the amount
of a shift. -/
def admits (op : BinaryOp) : Option Size → Option Size → Bool
  | some .sized, some .unsized => op.isArithmetic || op.isShift
  | some .unsized, some .sized => op.isArithmetic
  | _, _ => true

def size? (op : BinaryOp) (l r : Option Size) : Option Size :=
  if op.isShift then l
  else if op.isArithmetic then
    if l = some .sized ∨ r = some .sized then some .sized
    else if l = some .unsized ∧ r = some .unsized then some .unsized
    else none
  else none

end BinaryOp

namespace Expr

def size? : Expr → Option Size
  | .lit _ _ ty => ty.size?
  | .unary _ .not _ => none
  | .unary _ _ e => e.size?
  | .binary _ op l r => op.size? l.size? r.size?
  | _ => none

end Expr

mutual
def Expr.Ranged : Expr → Prop
  | .lit _ v ty => Literal.InRange v ty
  | .bool .. | .path .. => True
  | .member _ b _ => b.Ranged
  | .index _ b i => b.Ranged ∧ i.Ranged
  | .call _ c _ as => c.Ranged ∧ Expr.AllRanged as
  | .construct _ _ as => Expr.AllRanged as
  | .unary _ _ e => e.Ranged
  | .binary _ _ l r => l.Ranged ∧ r.Ranged
def Expr.AllRanged : List Expr → Prop
  | [] => True
  | e :: es => e.Ranged ∧ Expr.AllRanged es
end

mutual
def Expr.Unmixed : Expr → Prop
  | .lit .. | .bool .. | .path .. => True
  | .member _ b _ => b.Unmixed
  | .index _ b i => b.Unmixed ∧ i.Unmixed
  | .call _ c _ as => c.Unmixed ∧ Expr.AllUnmixed as
  | .construct _ _ as => Expr.AllUnmixed as
  | .unary _ _ e => e.Unmixed
  | .binary _ op l r => (l.Unmixed ∧ r.Unmixed) ∧ op.admits l.size? r.size? = true
def Expr.AllUnmixed : List Expr → Prop
  | [] => True
  | e :: es => e.Unmixed ∧ Expr.AllUnmixed es
end

/-! Folding from the leaves up. -/

namespace Folding

def fold (e : Expr) : Expr := (fold? e).getD e

end Folding

mutual
def Expr.folded : Expr → Expr
  | .member t b n => .member t b.folded n
  | .index t b i => .index t b.folded i.folded
  | .call t c ts as => .call t c.folded ts (Expr.allFolded as)
  | .construct t ty as => .construct t ty (Expr.allFolded as)
  | .unary t op e => Folding.fold (.unary t op e.folded)
  | .binary t op l r => Folding.fold (.binary t op l.folded r.folded)
  | e => e
def Expr.allFolded : List Expr → List Expr
  | [] => []
  | e :: es => e.folded :: Expr.allFolded es
end

variable {e' : Expr} {ρ : Assignment}

namespace Folding

variable {e : Expr} {t : Tag} {ty u : TypeExpr} {l r v : Int} {a b : Option Size} {op : BinaryOp}

theorem get_leave (e : Expr) (n : Nat) :
    (editor.leaveExpr e () n).1.1.get e = fold e ∧ (editor.leaveExpr e () n).2 = n := by
  cases h : fold? e with
  | none =>
    have hleave : editor.leaveExpr e = pure .keep := by simp only [editor, h]
    rw [hleave, fold, h]
    exact ⟨rfl, rfl⟩
  | some e' =>
    have hleave : editor.leaveExpr e = pure (.put e') := by simp only [editor, h]
    rw [hleave, fold, h]
    exact ⟨rfl, rfl⟩

variable {k : Continuation Unit}

theorem get_around (e' : Expr)
    (hx : x = editor.aroundExpr k false e y) (h : (y () n).1.1.get e = e' ∧ (y () n).2 = n)
    (he : fold e' = e'') : (x () n).1.1.get e = e'' ∧ (x () n).2 = n := by
  rw [hx, Editor.get_aroundExpr rfl, Editor.aroundExpr_descend rfl]
  obtain ⟨rfl, h⟩ := h
  obtain ⟨hget, hn⟩ := get_leave ((y () n).1.1.get e) (y () n).2
  exact ⟨hget.trans he, hn.trans h⟩

mutual
theorem get_visitExpr : (e : Expr) → ∀ n,
    (editor.visitExpr k false e () n).1.1.get e = e.folded ∧
      (editor.visitExpr k false e () n).2 = n
  | .lit t v ty, _ => get_around (.lit t v ty) rfl ⟨rfl, rfl⟩ rfl
  | .bool t b, _ => get_around (.bool t b) rfl ⟨rfl, rfl⟩ rfl
  | .path t m, _ => get_around (.path t m) rfl ⟨rfl, rfl⟩ rfl
  | .member t b m, n => by
    obtain ⟨hb, hn⟩ := get_visitExpr b n
    refine get_around (.member t b.folded m) rfl ⟨?_, hn⟩ rfl
    exact (Edit.get_map (Expr.member t · m) b _).trans (by rw [hb])
  | .index t b i, n => by
    obtain ⟨hb, hn⟩ := get_visitExpr b n
    obtain ⟨hi, hn'⟩ := get_visitExpr i n
    refine get_around (.index t b.folded i.folded) rfl ⟨?_, ?_⟩ rfl
    · exact (Edit.get_map₂ (Expr.index t) b i _ _).trans (by rw [hb, hn, hi])
    · exact (congrArg (fun m => (editor.visitExpr k false i () m).2) hn).trans hn'
  | .call t c ts as, n => by
    obtain ⟨hc, hn⟩ := get_visitExpr c n
    obtain ⟨has, hn'⟩ := get_visitExprs as n
    refine get_around (.call t c.folded ts (Expr.allFolded as)) rfl ⟨?_, ?_⟩ rfl
    · exact (Edit.get_map₂ (Expr.call t · ts ·) c as _ _).trans (by rw [hc, hn, has])
    · exact (congrArg (fun m => (editor.visitExprs k as () m).2) hn).trans hn'
  | .construct t ty as, n => by
    obtain ⟨has, hn⟩ := get_visitExprs as n
    refine get_around (.construct t ty (Expr.allFolded as)) rfl ⟨?_, hn⟩ rfl
    exact (Edit.get_map (Expr.construct t ty) as _).trans (by rw [has])
  | .unary t op e, n => by
    obtain ⟨he, hn⟩ := get_visitExpr e n
    refine get_around (.unary t op e.folded) rfl ⟨?_, hn⟩ rfl
    exact (Edit.get_map (Expr.unary t op) e _).trans (by rw [he])
  | .binary t op l r, n => by
    obtain ⟨hl, hn⟩ := get_visitExpr l n
    obtain ⟨hr, hn'⟩ := get_visitExpr r n
    refine get_around (.binary t op l.folded r.folded) rfl ⟨?_, ?_⟩ rfl
    · exact (Edit.get_map₂ (Expr.binary t op) l r _ _).trans (by rw [hl, hn, hr])
    · exact (congrArg (fun m => (editor.visitExpr k false r () m).2) hn).trans hn'
theorem get_visitExprs : (es : List Expr) → ∀ n,
    (editor.visitExprs k es () n).1.1.get es = Expr.allFolded es ∧
      (editor.visitExprs k es () n).2 = n
  | [], _ => ⟨rfl, rfl⟩
  | e :: es, n => by
    obtain ⟨he, hn⟩ := get_visitExpr e n
    obtain ⟨hes, hn'⟩ := get_visitExprs es n
    refine ⟨?_, ?_⟩
    · exact (Edit.get_map₂ (· :: ·) e es _ _).trans (by rw [he, hn, hes]; rfl)
    · exact (congrArg (fun m => (editor.visitExprs k es () m).2) hn).trans hn'
end

/-! One node. -/

inductive Yields (t : Tag) : Expr → Option Value → Prop
  | bool (b : Bool) : Yields t (.bool t b) (some (.bool b))
  | lit {v : Int} {ty : TypeExpr} (range : Literal.InRange v ty) :
    Yields t (.lit t v ty) (some (.lit v ty))

theorem Yields.literal {u : Int} {a : Option Value} (hu : Literal.InRange u ty)
    (hv : Literal.fits v = true) (ha : a = some (.lit v ty)) : Yields t (literal t v ty) a := by
  obtain ⟨hrange, hvalue⟩ := Literal.wrap_spec hu hv
  rw [ha, ← hvalue]
  exact .lit hrange

theorem yields_unary {op : UnaryOp} (h : unary? t op e = some e') (he : e.Ranged)
    (ρ : Assignment) : Yields t e' ((e.eval ρ).bind (Value.unary? op)) := by
  unfold unary? at h
  split at h
  · cases h
    exact .bool _
  · rename_i v ty
    obtain ⟨u, hu, rfl⟩ := Option.map_eq_some_iff.1 h
    obtain ⟨rfl, hfits⟩ := Literal.checked_eq_some hu
    refine .literal he hfits ?_
    cases ty with
    | bits w s => exact congrArg (some ∘ Value.word w s) BitVec.ofInt_neg.symm
    | _ => rfl
  · rename_i v ty
    split at h
    · cases h
      cases ty with
      | bits w s =>
        refine .literal he ?_ (congrArg (some ∘ Value.word w s) (Literal.ofInt_complement w v).symm)
        have hv := Literal.fits_iff.1 (Literal.fits_of_inRange he)
        rw [Literal.fits_iff]
        omega
      | _ => contradiction
    · cases h
  · cases h

theorem size?_of_isBits (h : ty.isBits = true) : ty.size? = some .sized := by
  cases ty with
  | bits => rfl
  | _ => cases h

theorem inRange_common_left {t : TypeExpr} (h : Literal.commonType? t u = some ty)
    (hv : Literal.InRange v t) (hmix : ¬ (t.size? = some .unsized ∧ u.size? = some .sized)) :
    Literal.InRange v ty := by
  rcases Literal.commonType?_cases h with ⟨hbits, ⟨rfl, -⟩ | ⟨rfl, -⟩ | ⟨rfl, rfl⟩⟩ | ⟨hbits, -, -⟩
  · exact hv
  · exact hv
  · exact absurd ⟨rfl, size?_of_isBits hbits⟩ hmix
  · exact (Literal.inRange_iff_fits hbits v).2 (Literal.fits_of_inRange hv)

theorem inRange_common_right {t : TypeExpr} (h : Literal.commonType? t u = some ty)
    (hv : Literal.InRange v u) (hmix : ¬ (t.size? = some .sized ∧ u.size? = some .unsized)) :
    Literal.InRange v ty := by
  rcases Literal.commonType?_cases h with ⟨hbits, ⟨-, rfl⟩ | ⟨rfl, rfl⟩ | ⟨-, rfl⟩⟩ | ⟨hbits, -, -⟩
  · exact hv
  · exact absurd ⟨size?_of_isBits hbits, rfl⟩ hmix
  · exact hv
  · exact (Literal.inRange_iff_fits hbits v).2 (Literal.fits_of_inRange hv)

theorem admits_left (h : op.admits a b = true)
    (hop : op.isArithmetic = false) : ¬ (a = some .unsized ∧ b = some .sized) := by
  rintro ⟨rfl, rfl⟩
  rw [BinaryOp.admits, hop] at h
  cases h

theorem admits_right (h : op.admits a b = true)
    (hop : op.isArithmetic = false) (hop' : op.isShift = false) :
    ¬ (a = some .sized ∧ b = some .unsized) := by
  rintro ⟨rfl, rfl⟩
  rw [BinaryOp.admits, hop, hop'] at h
  cases h

theorem comparison_kind {b : Bool} (h : comparison? op l r = some b) :
    op.isArithmetic = false ∧ op.isShift = false := by
  cases op <;> first | exact ⟨rfl, rfl⟩ | cases h

theorem binary?_of_isShift (h : op.isShift = false) (a b : Value) :
    Value.binary? op a b = Value.alike? op (a.conform b) (b.conform a) := by
  cases op <;> first | rfl | cases h

theorem yields_binary {tl tr : Tag} {lt rt : TypeExpr}
    (h : binary? t op (.lit tl l lt) (.lit tr r rt) = some e) (hl : Literal.InRange l lt)
    (hr : Literal.InRange r rt) (hty : Literal.commonType? lt rt = some ty)
    (hlty : op.isArithmetic = false → Literal.InRange l ty)
    (hrty : op.isArithmetic = false → op.isShift = false → Literal.InRange r ty) :
    Yields t e (Value.binary? op (.lit l lt) (.lit r rt)) := by
  obtain ⟨ty', hty', h⟩ := Option.bind_eq_some_iff.1 h
  cases hty.symm.trans hty'
  obtain ⟨hleft, hright⟩ := Literal.conform_lit hty l r
  obtain ⟨u, hu⟩ := Literal.inRange_common hty hl hr
  split at h
  · rename_i b hb
    cases h
    -- the written values are compared, which is right if both are in range
    obtain ⟨harith, hshift⟩ := comparison_kind hb
    rw [binary?_of_isShift hshift, hleft, hright, Literal.alike?_of_comparison hb
      (hlty harith) (hrty harith hshift)]
    exact .bool b
  · obtain ⟨v, hv, h⟩ := Option.bind_eq_some_iff.1 h
    cases h
    by_cases hshl : op = .shl
    · subst hshl
      obtain ⟨hvalue, hfits, hr0⟩ := Literal.shiftLeft_lit (l := l) hv hu
      refine .literal hu hfits ?_
      rw [Value.binary?, Literal.amount?_lit hr hr0, Option.bind_some, hleft, hvalue]
    by_cases hshr : op = .shr
    · subst hshr
      obtain ⟨hvalue, hfits, hr0⟩ := Literal.shiftRight_lit hv (hlty rfl)
      refine .literal hu hfits ?_
      rw [Value.binary?, Literal.amount?_lit hr hr0, Option.bind_some, hleft, hvalue]
    -- all other operators agree modulo the width, so it does not matter when a literal is reduced
    obtain ⟨hvalue, hfits⟩ := Literal.alike?_of_arithmetic hv hshl hshr hu
      (Literal.fits_of_inRange hl) (Literal.fits_of_inRange hr)
    refine .literal hu hfits ?_
    rw [binary?_of_isShift (by cases op <;> first | rfl | contradiction), hleft, hright, hvalue]

theorem Yields.eval {a : Option Value} (h : Yields t e a) (ρ : Assignment) :
    e.eval ρ = a ∧ e.Ranged := by
  cases h with
  | bool b => exact ⟨rfl, trivial⟩
  | lit range => exact ⟨rfl, range⟩

def Below (a b : Option Size) : Prop := a = none ∨ a = b

theorem admits_of_below (h : op.admits a b = true)
    (ha : Below a' a) (hb : Below b' b) : op.admits a' b' = true := by
  rcases ha with rfl | rfl
  · rfl
  rcases hb with rfl | rfl
  · cases a' with
    | none => rfl
    | some a => cases a <;> rfl
  · exact h

theorem below_size? (op : BinaryOp) (ha : Below a' a) (hb : Below b' b) :
    Below (op.size? a' b') (op.size? a b) := by
  unfold BinaryOp.size?
  rcases ha with rfl | rfl <;> rcases hb with rfl | rfl
  all_goals split
  all_goals try split
  all_goals first | exact .inl rfl | exact .inr rfl | skip
  all_goals simp only [reduceCtorEq, false_or, or_false, false_and, and_false, if_false]
  · split
    · rw [if_pos (.inr ‹_›)]
      exact .inr rfl
    · exact .inl rfl
  · split
    · rw [if_pos (.inl ‹_›)]
      exact .inr rfl
    · exact .inl rfl

structure Kept (e e' : Expr) : Prop where
  eval : ∀ ρ, e'.eval ρ = e.eval ρ
  ranged : e'.Ranged
  size : Below e'.size? e.size?

theorem Kept.refl (h : e.Ranged) : Kept e e := ⟨fun _ => rfl, h, .inr rfl⟩

theorem Kept.trans (h : Kept e e') (h' : Kept e' e'') : Kept e e'' where
  eval ρ := (h'.eval ρ).trans (h.eval ρ)
  ranged := h'.ranged
  size := by
    rcases h'.size with hn | he
    · exact .inl hn
    · rw [he]
      exact h.size

theorem kept_unary {op : UnaryOp} (he : e.Ranged) :
    Kept (.unary t op e) (fold (.unary t op e)) := by
  rw [fold, fold?]
  cases h : unary? t op e with
  | none => exact .refl he
  | some e' =>
    refine ⟨fun ρ => ((yields_unary h he ρ).eval ρ).1, ((yields_unary h he fun _ _ => none).eval
      fun _ _ => none).2, ?_⟩
    unfold unary? at h
    split at h
    · cases h
      exact .inr rfl
    · obtain ⟨u, -, rfl⟩ := Option.map_eq_some_iff.1 h
      exact .inr rfl
    · split at h
      · cases h
        exact .inr rfl
      · cases h
    · cases h

theorem eval_binary {l r : Expr} (hand : op ≠ .and)
    (hor : op ≠ .or) : (Expr.binary t op l r).eval ρ =
      (l.eval ρ).bind fun a => (r.eval ρ).bind (Value.binary? op a) := by
  cases op with
  | and => exact absurd rfl hand
  | or => exact absurd rfl hor
  | _ => rfl

theorem eval_logical {tl tr : Tag} {a b c : Bool}
    (h : logical? op a b = some c) :
    (Expr.binary t op (.bool tl a) (.bool tr b)).eval ρ = some (.bool c) := by
  cases op with
  | and | or | eq | ne =>
    cases h
    cases a <;> cases b <;> rfl
  | _ => cases h

theorem commonType?_int {t : TypeExpr} (h : Literal.commonType? t u = some .int) :
    t = .int ∧ u = .int := by
  unfold Literal.commonType? at h
  split at h
  · exact ⟨rfl, Option.some.inj h⟩
  · exact ⟨Option.some.inj h, rfl⟩
  · split at h
    · cases h
      contradiction
    · cases h

theorem size?_literal {lt rt : TypeExpr}
    (hty : Literal.commonType? lt rt = some ty) (h : arithmetic? op l r ty = some v)
    (hop : op.admits lt.size? rt.size? = true) : Below ty.size? (op.size? lt.size? rt.size?) := by
  have hkind : op.isShift = true ∧ op.isArithmetic = false ∨ op.isShift = false ∧
      op.isArithmetic = true := by
    cases op <;> first | exact .inl ⟨rfl, rfl⟩ | exact .inr ⟨rfl, rfl⟩ | cases h
  rcases Literal.commonType?_cases hty with ⟨hbits, htypes⟩ | ⟨hbits, -, -⟩
  · rcases hkind with ⟨hshift, harith⟩ | ⟨hshift, harith⟩
    · rw [BinaryOp.size?, if_pos hshift]
      rcases htypes with ⟨rfl, -⟩ | ⟨rfl, -⟩ | ⟨rfl, rfl⟩
      · exact .inr rfl
      · exact .inr rfl
      · -- an unsized number is not shifted by a sized amount
        exact absurd ⟨rfl, size?_of_isBits hbits⟩ (admits_left hop harith)
    · have hsized : lt.size? = some .sized ∨ rt.size? = some .sized := by
        rcases htypes with ⟨rfl, -⟩ | ⟨rfl, -⟩ | ⟨-, rfl⟩
        · exact .inl (size?_of_isBits hbits)
        · exact .inl (size?_of_isBits hbits)
        · exact .inr (size?_of_isBits hbits)
      rw [BinaryOp.size?, if_neg (by rw [hshift]; exact Bool.false_ne_true), if_pos harith,
        if_pos hsized]
      exact .inr (size?_of_isBits hbits)
  · cases ty with
    | bits => cases hbits
    | int =>
      obtain ⟨rfl, rfl⟩ := commonType?_int hty
      rcases hkind with ⟨hshift, -⟩ | ⟨hshift, harith⟩
      · rw [BinaryOp.size?, if_pos hshift]
        exact .inr rfl
      · rw [BinaryOp.size?, if_neg (by rw [hshift]; exact Bool.false_ne_true), if_pos harith]
        exact .inr rfl
    | _ => exact .inl rfl

theorem kept_binary {l r : Expr} (hl : l.Ranged) (hr : r.Ranged)
    (hop : op.admits l.size? r.size? = true) :
      Kept (.binary t op l r) (fold (.binary t op l r)) := by
  rw [fold, fold?]
  cases h : binary? t op l r with
  | none => exact .refl ⟨hl, hr⟩
  | some e =>
    have hbinary := h
    unfold binary? at h
    split at h
    · obtain ⟨c, hc, rfl⟩ := Option.map_eq_some_iff.1 h
      exact ⟨fun ρ => (eval_logical hc).symm, trivial, .inl rfl⟩
    · rename_i tl l lt tr r rt
      obtain ⟨ty, hty, h⟩ := Option.bind_eq_some_iff.1 h
      have hyields := yields_binary hbinary hl hr hty
        (fun harith => inRange_common_left hty hl (admits_left hop harith))
        (fun harith hshift => inRange_common_right hty hr (admits_right hop harith hshift))
      have hne : op ≠ .and ∧ op ≠ .or := by
        refine ⟨?_, ?_⟩ <;> rintro rfl <;> cases h
      refine ⟨fun ρ => ?_, (hyields.eval fun _ _ => none).2, ?_⟩
      · rw [eval_binary hne.1 hne.2]
        exact (hyields.eval ρ).1
      · split at h
        · cases h
          exact .inl rfl
        · obtain ⟨v, hv, h⟩ := Option.bind_eq_some_iff.1 h
          cases h
          exact size?_literal hty hv hop
    · cases h

mutual
theorem kept_folded : (e : Expr) → e.Ranged → e.Unmixed → Kept e e.folded
  | .lit .., h, _ | .bool .., h, _ | .path .., h, _ => .refl h
  | .member t b n, h, hm => by
    have hb := kept_folded b h hm
    exact ⟨fun ρ => congrArg (ρ t.id [·]) (hb.eval ρ), hb.ranged, .inl rfl⟩
  | .index t b i, h, hm => by
    have hb := kept_folded b h.1 hm.1
    have hi := kept_folded i h.2 hm.2
    exact ⟨fun ρ => congrArg₂ (ρ t.id [·, ·]) (hb.eval ρ) (hi.eval ρ), ⟨hb.ranged, hi.ranged⟩,
      .inl rfl⟩
  | .call t c ts as, h, hm => by
    have hc := kept_folded c h.1 hm.1
    obtain ⟨heval, hranged⟩ := kept_allFolded as h.2 hm.2
    exact ⟨fun ρ => congrArg₂ (fun a as => ρ t.id (a :: as)) (hc.eval ρ) (heval ρ),
      ⟨hc.ranged, hranged⟩, .inl rfl⟩
  | .construct t ty as, h, hm => by
    obtain ⟨heval, hranged⟩ := kept_allFolded as h hm
    exact ⟨fun ρ => congrArg (ρ t.id) (heval ρ), hranged, .inl rfl⟩
  | .unary t op e, h, hm => by
    have he := kept_folded e h hm
    have hnode : Kept (.unary t op e) (.unary t op e.folded) := by
      refine ⟨fun ρ => congrArg (·.bind (Value.unary? op)) (he.eval ρ), he.ranged, ?_⟩
      cases op with
      | not => exact .inl rfl
      | _ => exact he.size
    exact hnode.trans (kept_unary he.ranged)
  | .binary t op l r, h, hm => by
    have hl := kept_folded l h.1 hm.1.1
    have hr := kept_folded r h.2 hm.1.2
    have hnode : Kept (.binary t op l r) (.binary t op l.folded r.folded) := by
      refine ⟨fun ρ => ?_, ⟨hl.ranged, hr.ranged⟩, below_size? op hl.size hr.size⟩
      cases op <;> simp only [Expr.eval, hl.eval ρ, hr.eval ρ]
    -- folding may forget that an operand is unsized, and `admits` asks for no more then
    exact hnode.trans (kept_binary hl.ranged hr.ranged (admits_of_below hm.2 hl.size hr.size))
theorem kept_allFolded : (es : List Expr) → Expr.AllRanged es → Expr.AllUnmixed es →
    (∀ ρ, Expr.evals ρ (Expr.allFolded es) = Expr.evals ρ es) ∧ Expr.AllRanged (Expr.allFolded es)
  | [], _, _ => ⟨fun _ => rfl, trivial⟩
  | e :: es, h, hm => by
    have he := kept_folded e h.1 hm.1
    obtain ⟨heval, hranged⟩ := kept_allFolded es h.2 hm.2
    exact ⟨fun ρ => congrArg₂ List.cons (he.eval ρ) (heval ρ), he.ranged, hranged⟩
end

end Folding

/-! Overflow. -/

namespace Expr

def result? : Expr → Option Int
  | .unary _ .neg (.lit _ v _) => some (-v)
  | .binary _ .add (.lit _ l _) (.lit _ r _) => some (l + r)
  | .binary _ .sub (.lit _ l _) (.lit _ r _) => some (l - r)
  | .binary _ .mul (.lit _ l _) (.lit _ r _) => some (l * r)
  | .binary _ .shl (.lit _ l .int) (.lit _ r .int) => if 0 ≤ r then some (l * 2 ^ r.toNat) else none
  | _ => none

def onOperands (f : Expr → Expr) : Expr → Expr
  | .unary t op e => .unary t op (f e)
  | .binary t op l r => .binary t op (f l) (f r)
  | e => e

end Expr

namespace Folding

variable {t tl tr : Tag} {op : BinaryOp} {l r v : Int} {lt rt ty : TypeExpr} {e : Expr}

theorem arithmetic?_of_fold?
    (h : fold? (.binary t op (.lit tl l lt) (.lit tr r rt)) = some e)
    (hop : op.isComparison = false) :
    ∃ ty v, Literal.commonType? lt rt = some ty ∧ arithmetic? op l r ty = some v := by
  obtain ⟨ty, hty, h⟩ := Option.bind_eq_some_iff.1 h
  have hnone : comparison? op l r = none := by cases op <;> first | rfl | cases hop
  rw [hnone] at h
  obtain ⟨v, hv, -⟩ := Option.bind_eq_some_iff.1 h
  exact ⟨ty, v, hty, hv⟩

theorem fits_of_checked (h : fold? (.binary t op (.lit tl l lt) (.lit tr r rt)) = some e)
    (hop : op.isComparison = false) (hv : ∀ ty, arithmetic? op l r ty = Literal.checked v) :
    Literal.fits v = true := by
  obtain ⟨ty, u, -, hu⟩ := arithmetic?_of_fold? h hop
  rw [hv] at hu
  exact (Literal.checked_eq_some hu).2

theorem fits_of_fold? (h : fold? e = some e') (hv : e.result? = some v) :
    Literal.fits v = true := by
  unfold Expr.result? at hv
  split at hv
  · cases hv
    obtain ⟨u, hu, -⟩ := Option.map_eq_some_iff.1 h
    exact (Literal.checked_eq_some hu).2
  · cases hv
    exact fits_of_checked h rfl fun _ => rfl
  · cases hv
    exact fits_of_checked h rfl fun _ => rfl
  · cases hv
    exact fits_of_checked h rfl fun _ => rfl
  · split at hv
    · cases hv
      obtain ⟨ty, u, hty, hu⟩ := arithmetic?_of_fold? h rfl
      cases hty
      obtain ⟨n, -, rfl, hn, rfl, hbits | hexact⟩ := Literal.shl_eq_some hu
      · cases hbits
      · rw [← Literal.toInt_shiftLeft hn hexact]
        exact Literal.fits_toInt _
    · cases hv
  · cases hv

theorem folded_of_overflow (hv : (e.onOperands Expr.folded).result? = some v)
    (hfits : Literal.fits v = false) : e.folded = e.onOperands Expr.folded := by
  have hnone : fold? (e.onOperands Expr.folded) = none := by
    by_contra hsome
    obtain ⟨e', he'⟩ := Option.ne_none_iff_exists'.1 hsome
    rw [fits_of_fold? he' hv] at hfits
    cases hfits
  have hfold : e.folded = fold (e.onOperands Expr.folded) := by
    cases e with
    | unary | binary => rfl
    | _ => cases hv
  rw [hfold, fold, hnone]
  rfl

/-- Folding an expression keeps its value, whatever its paths, members, indexings and calls are
worth. The literals are in the range of their types again. An operator stays if its exact result
leaves the word. -/
theorem keeps_values {e : Expr} (hrange : e.Ranged) (hmix : e.Unmixed) (k : Continuation Unit)
    (n : Nat) :
    let f := fun e => (editor.visitExpr k false e () n).1.1.get e
    (∀ ρ, (f e).eval ρ = e.eval ρ) ∧ (f e).Ranged ∧
      ∀ v, (e.onOperands f).result? = some v → Literal.fits v = false → f e = e.onOperands f := by
  intro f
  have hf : f = Expr.folded := funext fun e => (get_visitExpr e n).1
  rw [hf]
  have hkept := kept_folded e hrange hmix
  exact ⟨hkept.eval, hkept.ranged, fun v => folded_of_overflow⟩

def overflowing : Expr :=
  .binary ⟨⟨0⟩, none⟩ .add (.lit ⟨⟨1⟩, none⟩ (2 ^ 127 - 1) .int)
    (.binary ⟨⟨2⟩, none⟩ .shl (.lit ⟨⟨3⟩, none⟩ 1 .int) (.lit ⟨⟨4⟩, none⟩ 3 .int))

theorem overflowing_keeps_values :
    overflowing.Ranged ∧ overflowing.Unmixed ∧
      (∀ ρ, ((editor.visitExpr Editor.stop false overflowing () 5).1.1.get overflowing).eval ρ =
        overflowing.eval ρ) ∧
      (editor.visitExpr Editor.stop false overflowing () 5).1.1.get overflowing =
        .binary ⟨⟨0⟩, none⟩ .add (.lit ⟨⟨1⟩, none⟩ (2 ^ 127 - 1) .int)
          (.lit ⟨⟨2⟩, none⟩ 8 .int) := by
  have hfits {v : Int} (t : Tag) (h : Literal.fits v = true) : (Expr.lit t v .int).Ranged := h
  have hrange : overflowing.Ranged :=
    ⟨hfits _ (by decide +kernel), hfits _ (by decide +kernel), hfits _ (by decide +kernel)⟩
  have hmix : overflowing.Unmixed := ⟨⟨trivial, ⟨trivial, trivial⟩, rfl⟩, rfl⟩
  obtain ⟨hvalue, -, hstays⟩ := keeps_values hrange hmix Editor.stop 5
  refine ⟨hrange, hmix, hvalue, ?_⟩
  exact hstays (2 ^ 127 + 7) (by decide +kernel) (by decide +kernel)

theorem binary?_of_isComparison (t tl tr : Tag) (l r : Int)
    (hop : op.isComparison = true) (hty : Literal.commonType? lt rt = some ty) :
    ∃ b, binary? t op (.lit tl l lt) (.lit tr r rt) = some (.bool t b) := by
  have hsome : ∃ b, comparison? op l r = some b := by
    cases op <;> first | exact ⟨_, rfl⟩ | cases hop
  obtain ⟨b, hb⟩ := hsome
  refine ⟨b, ?_⟩
  simp only [binary?, hty, hb]
  rfl

theorem yields_comparison
    (hop : op.isComparison = true) (hty : Literal.commonType? lt rt = some ty)
    (hl : Literal.InRange l lt) (hr : Literal.InRange r rt) (hlty : Literal.InRange l ty)
    (hrty : Literal.InRange r ty) :
    Yields t (fold (.binary t op (.lit tl l lt) (.lit tr r rt)))
      ((Expr.binary t op (.lit tl l lt) (.lit tr r rt)).eval ρ) := by
  obtain ⟨b, hb⟩ := binary?_of_isComparison t tl tr l r hop hty
  rw [fold, fold?, hb, eval_binary (by rintro rfl; cases hop) (by rintro rfl; cases hop)]
  exact yields_binary hb hl hr hty (fun _ => hlty) fun _ _ => hrty

theorem eval_eq_wrap (hw : 0 < w) (hw' : w < 128) (t tx tn : Tag)
    (ρ : Assignment) :
    (Expr.binary t .eq (.lit tx (Literal.wrap n (.bits w s)) (.bits w s)) (.lit tn n .int)).eval ρ =
      some (.bool true) := by
  simp [Expr.eval, Value.lit, Value.binary?, Value.conform, Literal.ofInt_wrap hw hw', Value.alike?,
    Value.compare?]

/-- A comparison of literals folds to its value, whichever of them is unsized, and so does a right
shift by a sized amount, for exactly the unsized literals that are in the range of the sized type:
they are not reduced to it first. -/
theorem unsized_operand_iff {n : Int} {w : Nat} {s : Bool} (hn : Literal.fits n = true) (hw : 0 < w)
    (hw' : w < 127) (t tx tn : Tag) (ρ : Assignment) :
    let f := fun e => (editor.visitExpr Editor.stop false e () 0).1.1.get e
    Literal.InRange n (.bits w s) ↔
      ∀ x, Literal.InRange x (.bits w s) →
        (∀ op : BinaryOp, op.isComparison = true →
          Yields t (f (.binary t op (.lit tx x (.bits w s)) (.lit tn n .int)))
            ((Expr.binary t op (.lit tx x (.bits w s)) (.lit tn n .int)).eval ρ) ∧
          Yields t (f (.binary t op (.lit tn n .int) (.lit tx x (.bits w s))))
            ((Expr.binary t op (.lit tn n .int) (.lit tx x (.bits w s))).eval ρ)) ∧
        (f (.binary t .shr (.lit tn n .int) (.lit tx x (.bits w s)))).eval ρ =
          (Expr.binary t .shr (.lit tn n .int) (.lit tx x (.bits w s))).eval ρ := by
  intro f
  have hf : f = Expr.folded := funext fun e => (get_visitExpr e 0).1
  rw [hf]
  refine ⟨fun hrange x hx => ⟨fun op hop => ⟨?_, ?_⟩, ?_⟩, fun h => ?_⟩
  · exact yields_comparison hop rfl hx hn hx hrange
  · exact yields_comparison hop rfl hn hx hrange hx
  · change (fold (.binary t .shr (.lit tn n .int) (.lit tx x (.bits w s)))).eval ρ = _
    rw [fold, fold?]
    cases hshr : binary? t .shr (.lit tn n .int) (.lit tx x (.bits w s)) with
    | none => rfl
    | some e =>
      have hyields := yields_binary hshr hn hx rfl (fun _ => hrange) nofun
      exact (hyields.eval ρ).1
  · -- the reduced literal is as good as `n`, and yet is told from it
    have hx : Literal.InRange (Literal.wrap n (.bits w s)) (.bits w s) :=
      Literal.inRange_wrap (Literal.inRange_zero hw hw' s) n
    by_contra hout
    obtain ⟨hyields, -⟩ := (h _ hx).1 .eq rfl
    have hne : (Literal.wrap n (.bits w s) == n) = false := by
      refine beq_eq_false_iff_ne.2 fun heq => hout ?_
      rwa [heq] at hx
    rw [eval_eq_wrap hw (hw'.trans (by decide))] at hyields
    change Yields t (.bool t (Literal.wrap n (.bits w s) == n)) _ at hyields
    rw [hne] at hyields
    cases hyields

/-- Folding tells `8w255` from `-1`, which is the same value of that type. -/
theorem unsized_operand_not_reduced :
    (editor.visitExpr Editor.stop false
        (.binary ⟨⟨0⟩, none⟩ .eq (.lit ⟨⟨1⟩, none⟩ 255 (.bits 8 false))
          (.lit ⟨⟨2⟩, none⟩ (-1) .int)) () 3).1.1.get
        (.binary ⟨⟨0⟩, none⟩ .eq (.lit ⟨⟨1⟩, none⟩ 255 (.bits 8 false))
          (.lit ⟨⟨2⟩, none⟩ (-1) .int)) =
      .bool ⟨⟨0⟩, none⟩ false ∧
    Literal.wrap (-1) (.bits 8 false) = 255 ∧
    ∀ ρ, (Expr.binary ⟨⟨0⟩, none⟩ .eq (.lit ⟨⟨1⟩, none⟩ 255 (.bits 8 false))
      (.lit ⟨⟨2⟩, none⟩ (-1) .int)).eval ρ = some (.bool true) :=
  ⟨rfl, by decide +kernel, fun _ => rfl⟩

theorem unsized_operand_twoHundred :
    Literal.InRange 200 (.bits 8 false) ∧ Literal.InRange 3 (.bits 8 false) ∧
      ((editor.visitExpr Editor.stop false (.binary ⟨⟨0⟩, none⟩ .shr (.lit ⟨⟨2⟩, none⟩ 200 .int)
        (.lit ⟨⟨1⟩, none⟩ 3 (.bits 8 false))) () 0).1.1.get (.binary ⟨⟨0⟩, none⟩ .shr
          (.lit ⟨⟨2⟩, none⟩ 200 .int) (.lit ⟨⟨1⟩, none⟩ 3 (.bits 8 false)))).eval
            (fun _ _ => none) =
        (Expr.binary ⟨⟨0⟩, none⟩ .shr (.lit ⟨⟨2⟩, none⟩ 200 .int)
          (.lit ⟨⟨1⟩, none⟩ 3 (.bits 8 false))).eval fun _ _ => none := by
  have hn : Literal.InRange 200 (.bits 8 false) := ⟨by decide, by decide⟩
  have hx : Literal.InRange 3 (.bits 8 false) := ⟨by decide, by decide⟩
  refine ⟨hn, hx, ?_⟩
  exact ((unsized_operand_iff (s := false) (by decide +kernel) (by decide) (by decide) ⟨⟨0⟩, none⟩
    ⟨⟨1⟩, none⟩ ⟨⟨2⟩, none⟩ fun _ _ => none).1 hn 3 hx).2

end Folding

end MatchAction
