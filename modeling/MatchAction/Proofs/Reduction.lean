import MatchAction.Proofs.Equality
import MatchAction.Proofs.Folding
import MatchAction.Simplify.Strength
import MatchAction.Typing.Check

/-!
Cheaper operators keep values and calls. Values are integers in the range of their type, truth
values 0 and 1. What is not an operator is left open: reading depends on the state, and calls
change it.
-/

namespace MatchAction

open List

inductive Form
  | bool
  | bits (width : Nat) (signed : Bool)
  | plain
deriving DecidableEq

namespace Form

/-- The value that a number is taken for: words modulo their width, signed ones in two's
complement. -/
def wrap : Form → Int → Int
  | .bool, x => (x != 0).toInt
  | .bits w s, x => if s then x.bmod (2 ^ w) else x % 2 ^ w
  | .plain, x => x

variable (K : Form)

@[simp] theorem wrap_plain (x : Int) : Form.plain.wrap x = x := rfl

@[simp] theorem wrap_zero : K.wrap 0 = 0 := by
  cases K <;> simp [wrap]

theorem wrap_toInt (b : Bool) : Form.bool.wrap b.toInt = b.toInt := by cases b <;> rfl

@[simp] theorem wrap_mul (x y : Int) : K.wrap (x * K.wrap y) = K.wrap (x * y) := by
  cases K with
  | bool =>
    by_cases hx : x = 0
    · simp [hx]
    · by_cases hy : y = 0
      · simp [hy]
      · simp [wrap, bne_iff_ne.2 hx, bne_iff_ne.2 hy, bne_iff_ne.2 (mul_ne_zero hx hy)]
  | bits w s => cases s <;> simp [wrap, Int.mul_emod]
  | plain => rfl

@[simp] theorem wrap_wrap (x : Int) : K.wrap (K.wrap x) = K.wrap x := by
  simpa using K.wrap_mul 1 x

end Form

def TypeExpr.form : TypeExpr → Form
  | .bits w s => .bits w s
  | _ => .plain

/-- What the nodes that are no literals and no operators are worth, given what their parts are, and
what calls do. Comparisons and shifts by negative numbers are left open too. -/
structure Oracle (S : Type) where
  form : NodeId → Form
  read : NodeId → List Int → S → Int
  call : NodeId → List Int → S → Int × S
  other : BinaryOp → Int → Int → Int

namespace BinaryOp

/-- An unsized operand takes the type of the other one, and a shift is of the type of what is
shifted. -/
def form (op : BinaryOp) (l r : Form) : Form :=
  if op.isArithmetic then if l = .plain then r else l else if op.isShift then l else .bool

def decidedBy : BinaryOp → Int → Bool
  | .and, a => a == 0
  | .or, a => a != 0
  | _, _ => false

end BinaryOp

variable {S : Type} (W : Oracle S)

namespace Oracle

def look (i : NodeId) (parts : List Int) : StateM S Int :=
    fun s => ((W.form i).wrap (W.read i parts s), s)

def make (i : NodeId) (parts : List Int) : StateM S Int := fun s =>
  ((W.form i).wrap (W.call i parts s).1, (W.call i parts s).2)

def operate (op : BinaryOp) (K : Form) (a b : Int) : Int :=
  K.wrap <| match op with
  | .add => K.wrap a + K.wrap b
  | .sub => K.wrap a - K.wrap b
  | .mul => K.wrap a * K.wrap b
  | .bitAnd => (K.wrap a).land (K.wrap b)
  | .bitOr => (K.wrap a).lor (K.wrap b)
  | .bitXor => (K.wrap a).xor (K.wrap b)
  | .shl => if 0 ≤ b then a * 2 ^ b.toNat else W.other op a b
  | .shr => if 0 ≤ b then a / 2 ^ b.toNat else W.other op a b
  | .and | .or => b
  | op => W.other op a b

end Oracle

namespace Expr

def form : Expr → Form
  | .lit _ _ ty => ty.form
  | .bool .. => .bool
  | .path t _ | .member t _ _ | .index t _ _ | .call t _ _ _ | .construct t _ _ => W.form t.id
  | .unary _ .not _ => .bool
  | .unary _ _ e => e.form
  | .binary _ op l r => op.form l.form r.form

mutual
def run : Expr → StateM S Int
  | .lit _ v ty => return ty.form.wrap v
  | .bool _ b => return b.toInt
  | .path t _ => W.look t.id []
  | .member t b _ => do W.look t.id [← b.run]
  | .index t b i => do W.look t.id [← b.run, ← i.run]
  | .call t c _ as => do W.make t.id ((← c.run) :: (← runs as))
  | .construct t _ as => do W.make t.id (← runs as)
  | .unary _ .not e => return ((← e.run) == 0).toInt
  | .unary _ .neg e => return (e.form W).wrap (-(← e.run))
  | .unary _ .complement e => return (e.form W).wrap (-(← e.run) - 1)
  | .binary _ op l r => do
    let a ← l.run
    if op.decidedBy a then return (a != 0).toInt
    return W.operate op (op.form (l.form W) (r.form W)) a (← r.run)
def runs : List Expr → StateM S (List Int)
  | [] => return []
  | e :: es => return (← e.run) :: (← runs es)
end

def isUnsized : Expr → Bool
  | .lit _ _ .int => true
  | _ => false

def Joins (op : BinaryOp) (l r : Expr) : Prop :=
  (op.isArithmetic = true → l.form W = r.form W ∨ l.isUnsized = true ∨ r.isUnsized = true) ∧
    (op = .and ∨ op = .or → l.form W = .bool ∧ r.form W = .bool)

mutual
def Regular : Expr → Prop
  | .lit .. | .bool .. | .path .. => True
  | .member _ b _ => b.Regular
  | .index _ b i => b.Regular ∧ i.Regular
  | .call _ c _ as => c.Regular ∧ AllRegular as
  | .construct _ _ as => AllRegular as
  | .unary _ op e => e.Regular ∧ (op = .not → e.form W = .bool)
  | .binary _ op l r => l.Regular ∧ r.Regular ∧ Joins W op l r
def AllRegular : List Expr → Prop
  | [] => True
  | e :: es => e.Regular ∧ AllRegular es
end

variable {W} {e l r : Expr} {op : BinaryOp} {t : Tag}

@[simp] theorem run_lit (v : Int) (ty : TypeExpr) (s : S) :
    (lit t v ty).run W s = (ty.form.wrap v, s) := rfl

@[simp] theorem run_bool (b : Bool) (s : S) : (bool t b).run W s = (b.toInt, s) := rfl

theorem run_binary (t : Tag) (op : BinaryOp) (l r : Expr) (s : S) :
    (binary t op l r).run W s =
      if op.decidedBy (l.run W s).1 then (((l.run W s).1 != 0).toInt, (l.run W s).2)
      else (W.operate op (op.form (l.form W) (r.form W)) (l.run W s).1 (r.run W (l.run W s).2).1,
        (r.run W (l.run W s).2).2) := by
  rw [run]
  change (if op.decidedBy (l.run W s).1 = true then _ else _ : StateM S Int) _ = _
  split <;> rfl

@[simp] theorem wrap_run (e : Expr) (s : S) : (e.form W).wrap (e.run W s).1 = (e.run W s).1 := by
  cases e with
  | bool t b => exact Form.wrap_toInt b
  | unary t op e =>
    cases op with
    | not => exact Form.wrap_toInt _
    | _ => exact Form.wrap_wrap ..
  | binary t op l r =>
    rw [run_binary]
    split
    · rename_i h
      have hform : (binary t op l r).form W = .bool := by cases op <;> first | rfl | cases h
      rw [hform]
      exact Form.wrap_toInt _
    · exact Form.wrap_wrap ..
  | _ => exact Form.wrap_wrap ..

theorem run_eq_toInt (h : e.form W = .bool) (s : S) :
    (e.run W s).1 = ((e.run W s).1 != 0).toInt := by
  have hwrap := e.wrap_run (W := W) s
  rw [h] at hwrap
  exact hwrap.symm

theorem run_of_hasCall : (e : Expr) → e.hasCall = false → ∀ s, (e.run W s).2 = s
  | .lit .., _, _ | .bool .., _, _ | .path .., _, _ => rfl
  | .member _ b _, h, s => run_of_hasCall b h s
  | .index _ b i, h, s => by
    obtain ⟨hb, hi⟩ := Bool.or_eq_false_iff.1 h
    exact (run_of_hasCall i hi _).trans (run_of_hasCall b hb s)
  | .unary _ .not e, h, s | .unary _ .neg e, h, s | .unary _ .complement e, h, s =>
    run_of_hasCall e h s
  | .binary _ op l r, h, s => by
    obtain ⟨hl, hr⟩ := Bool.or_eq_false_iff.1 h
    rw [run_binary]
    split
    · exact run_of_hasCall l hl s
    · exact (run_of_hasCall r hr _).trans (run_of_hasCall l hl s)

end Expr

namespace Strength

inductive Connective : BinaryOp → Bool → Prop
  | and : Connective .and true
  | or : Connective .or false

def neutral : BinaryOp → Int → Bool
  | .add, v | .bitOr, v | .bitXor, v => v == 0
  | .mul, v => v == 1
  | _, _ => false

inductive Rule : BinaryOp → Expr → Expr → Reduction → Prop
  | neutralRight : neutral op v = true ∨ op = .sub ∧ v = 0 → integer? l = none →
    Rule op l (.lit t v ty) .left
  | neutralLeft : neutral op v = true → integer? r = none → Rule op (.lit t v ty) r .right
  | shiftZero : op.isShift = true → Rule op l (.lit t 0 ty) .left
  | mulZero : op = .mul ∨ op = .bitAnd → isSizedZero r = true → integer? l = none →
    l.hasCall = false → Rule op l r .right
  | zeroMul : op = .mul ∨ op = .bitAnd → isSizedZero l = true → integer? r = none →
    r.hasCall = false → Rule op l r .left
  | mulPower : powerOfTwo? v = some k → integer? l = none → Rule .mul l (.lit t v ty) (.shiftLeft k)
  | powerMul : powerOfTwo? v = some k → integer? r = none →
    Rule .mul (.lit t v ty) r (.shiftRight k)
  | unitLeft : Connective op u → Rule op (.bool t u) r .right
  | decidedLeft : Connective op u → b = !u → Rule op (.bool t b) r .left
  | unitRight : Connective op u → Rule op l (.bool t u) .left
  | decidedRight : Connective op u → b = !u → l.hasCall = false → Rule op l (.bool t b) .right

theorem powerOfTwo?_eq_some (h : powerOfTwo? v = some k) : v = 2 ^ k ∧ k ≠ 0 := by
  simp only [powerOfTwo?] at h
  split at h
  · rename_i hv
    simp only [Bool.and_eq_true, decide_eq_true_iff, beq_iff_eq] at hv
    cases h
    refine ⟨hv.2, fun hk => ?_⟩
    rw [hk] at hv
    exact absurd hv.1 (by rw [hv.2]; decide)
  · cases h

variable {W} {e l r : Expr} {op : BinaryOp} {t : Tag}

@[simp] theorem integer?_lit : integer? (.lit t v ty) = some v := rfl
@[simp] theorem integer?_bool : integer? (.bool t b) = none := rfl
@[simp] theorem boolean?_lit : boolean? (.lit t v ty) = none := rfl
@[simp] theorem boolean?_bool : boolean? (.bool t b) = some b := rfl
@[simp] theorem isSizedZero_bool : isSizedZero (.bool t b) = false := rfl

theorem literal_cases (e : Expr) : (∃ t v ty, e = .lit t v ty) ∨ (∃ t b, e = .bool t b) ∨
    integer? e = none ∧ boolean? e = none ∧ isSizedZero e = false := by
  cases e <;> simp [integer?, boolean?, isSizedZero]

theorem rule_of_reduction? (h : reduction? op l r = some red) : Rule op l r red := by
  rcases literal_cases l with ⟨t, v, ty, rfl⟩ | ⟨t, b, rfl⟩ | hl <;>
    rcases literal_cases r with ⟨t', v', ty', rfl⟩ | ⟨t', b', rfl⟩ | hr <;>
      cases op <;> simp [reduction?, neutral?, zero?, product?, connective?, *] at h
  all_goals grind [Rule, neutral, Connective, integer?_lit, integer?_bool, BinaryOp.isShift]

/-! One operation. -/

variable {K : Form} {a v : Int} {ty : TypeExpr} {s : S} {red : Reduction}

theorem land_zero (x : Int) : x.land 0 = 0 ∧
    Int.land 0 x = 0 := by cases x <;> simp [Int.land, Nat.ldiff]

theorem lor_zero (x : Int) : x.lor 0 = x ∧
    Int.lor 0 x = x := by cases x <;> simp [Int.lor, Nat.ldiff]

theorem xor_zero (x : Int) : x.xor 0 = x ∧ Int.xor 0 x = x := by cases x <;> simp [Int.xor]

theorem operate_neutral (h : neutral op v = true ∨ op = .sub ∧ v = 0) (ha : K.wrap a = a) :
    W.operate op K a v = a := by
  cases op <;> simp_all [neutral, Oracle.operate, lor_zero, xor_zero]

theorem operate_neutral_left (h : neutral op v = true) (ha : K.wrap a = a) :
    W.operate op K v a = a := by
  cases op <;> simp_all [neutral, Oracle.operate, lor_zero, xor_zero, Int.mul_comm (K.wrap 1)]

theorem operate_zero (hop : op = .mul ∨ op = .bitAnd) : W.operate op K a 0 = 0 ∧
    W.operate op K 0 a = 0 := by
  rcases hop with rfl | rfl <;> simp [Oracle.operate, land_zero]

theorem operate_shift (hop : op.isShift = true) (ha : K.wrap a = a) : W.operate op K a 0 = a := by
  cases op <;> simp_all [Oracle.operate, BinaryOp.isShift]

theorem operate_mul_pow (k : Nat) (ha : K.wrap a = a) : W.operate .mul K a (2 ^ k) =
    W.operate .shl K a k ∧ W.operate .mul K (2 ^ k) a = W.operate .shl K a k := by
  simp [Oracle.operate, ha, Int.mul_comm (K.wrap (2 ^ k))]

theorem decidedBy_eq_false (hop : op.isArithmetic = true ∨ op.isShift = true) (a : Int) :
    op.decidedBy a = false := by
  cases op <;> simp_all [BinaryOp.decidedBy, BinaryOp.isArithmetic, BinaryOp.isShift]

theorem run_beside (hop : op.isArithmetic = true) (hty : e.form W = ty.form ∨ ty.form = .plain) :
    (op.form (e.form W) ty.form = e.form W ∧ op.form ty.form (e.form W) = e.form W) ∧ ∀ t t' v s,
      (Expr.binary t op e (.lit t' v ty)).run W s = (W.operate op (e.form W) (e.run W s).1 v,
        (e.run W s).2) ∧ (Expr.binary t op (.lit t' v ty) e).run W s
          = (W.operate op (e.form W) v (e.run W s).1, (e.run W s).2) := by
  have hform : op.form (e.form W) ty.form = e.form W ∧ op.form ty.form (e.form W) = e.form W := by
    rcases hty with h | h <;> simp_all [BinaryOp.form]
  have hwrap (v : Int) : (e.form W).wrap (ty.form.wrap v) = (e.form W).wrap v := by
    rcases hty with h | h <;> simp [h]
  refine ⟨hform, fun t t' v s => ?_⟩
  simp only [Expr.run_binary, decidedBy_eq_false (.inl hop), Expr.form, hform]
  cases op <;> simp_all [Oracle.operate, BinaryOp.isArithmetic]

theorem form_beside (h : e.form W = ty.form ∨ e.isUnsized = true ∨
    (Expr.lit t v ty).isUnsized = true)
    (he : integer? e = none) : e.form W = ty.form ∨ ty.form = .plain := by
  rcases h with h | h | h
  · exact .inl h
  · cases e <;> simp_all [Expr.isUnsized]
  · cases ty <;> simp_all [Expr.isUnsized, TypeExpr.form]

/-- `e'` is worth what `e` is, makes the same calls and can stand wherever `e` can. -/
structure Faithful (W : Oracle S) (e e' : Expr) : Prop where
  run : ∀ s, e'.run W s = e.run W s
  form : e'.form W = e.form W
  regular : e'.Regular W

def Reduction.result (t t' : Tag) (l r : Expr) : Reduction → Expr
  | .left => l
  | .right => r
  | .shiftLeft k => .binary t .shl l (.lit t' k .int)
  | .shiftRight k => .binary t .shl r (.lit t' k .int)

theorem Connective.run (h : Connective op u) (hl : (l.run W s).1 = b.toInt)
    (hr : r.form W = .bool) :
    (Expr.binary t op l r).run W s = if b = u then r.run W (l.run W s).2 else l.run W s := by
  have hb := r.wrap_run (W := W) (l.run W s).2
  rw [hr] at hb
  rw [Expr.run_binary]
  cases h <;> cases b <;> refine Prod.ext ?_ ?_ <;>
    simp_all [BinaryOp.decidedBy, Oracle.operate, BinaryOp.form, BinaryOp.isArithmetic,
      BinaryOp.isShift]

theorem Connective.forms (h : Connective op u) (hjoins : Expr.Joins W op l r) :
    l.form W = .bool ∧ r.form W = .bool := hjoins.2 (by cases h <;> simp)

theorem Connective.form (h : Connective op u) (K K' : Form) : op.form K K' = .bool := by
  cases h <;> rfl

theorem faithful_shift {k : Nat} (he : e.Regular W) (hrun : ∀ s, e'.run W s =
      (W.operate .shl (e.form W) (e.run W s).1 k, (e.run W s).2)) (hform : e'.form W = e.form W) :
    Faithful W e' (.binary t .shl e (.lit t' k .int)) := by
  refine ⟨fun s => ?_, hform.symm, he, trivial, by simp [Expr.Joins, BinaryOp.isArithmetic]⟩
  rw [Expr.run_binary, hrun]
  rfl

theorem eq_of_isSizedZero (h : isSizedZero e = true) : ∃ t w b, e = .lit t 0 (.bits w b) := by
  unfold isSizedZero at h
  split at h <;> simp_all

theorem Rule.faithful (h : Rule op l r red) (hreg : (Expr.binary t op l r).Regular W) (t' : Tag) :
    Faithful W (.binary t op l r) (red.result t t' l r) := by
  obtain ⟨hl, hr, hjoins⟩ := hreg
  have hswap (h : op.isArithmetic = true) : r.form W = l.form W ∨ r.isUnsized = true ∨
      l.isUnsized = true :=
    (hjoins.1 h).elim (fun h => .inl h.symm) fun h => .inr h.symm
  cases h with
  | neutralRight hop hnone =>
    have harith : op.isArithmetic = true := by
      cases op <;> simp_all [neutral, BinaryOp.isArithmetic]
    obtain ⟨hform, hrun⟩ := run_beside harith (form_beside (hjoins.1 harith) hnone)
    exact ⟨fun s => by simp [Reduction.result, hrun, operate_neutral hop], hform.1.symm, hl⟩
  | neutralLeft hop hnone =>
    have harith : op.isArithmetic = true := by
      cases op <;> simp_all [neutral, BinaryOp.isArithmetic]
    obtain ⟨hform, hrun⟩ := run_beside harith (form_beside (hswap harith) hnone)
    exact ⟨fun s => by simp [Reduction.result, hrun, operate_neutral_left hop], hform.2.symm, hr⟩
  | shiftZero hop =>
    have hform (K : Form) : op.form (l.form W) K = l.form W := by
      cases op <;> simp_all [BinaryOp.form, BinaryOp.isShift, BinaryOp.isArithmetic]
    refine ⟨fun s => ?_, (hform _).symm, hl⟩
    rw [Expr.run_binary, decidedBy_eq_false (.inr hop)]
    simp [Reduction.result, hform, operate_shift hop]
  | mulZero hop hzero hnone hcall =>
    have harith : op.isArithmetic = true := by rcases hop with rfl | rfl <;> rfl
    obtain ⟨t, w, b, rfl⟩ := eq_of_isSizedZero hzero
    have hty := form_beside (hjoins.1 harith) hnone
    obtain ⟨hform, hrun⟩ := run_beside harith hty
    refine ⟨fun s => ?_, (hty.resolve_right (by simp [TypeExpr.form])).symm.trans hform.1.symm, hr⟩
    simp [Reduction.result, hrun, operate_zero hop, l.run_of_hasCall hcall]
  | zeroMul hop hzero hnone hcall =>
    have harith : op.isArithmetic = true := by rcases hop with rfl | rfl <;> rfl
    obtain ⟨t, w, b, rfl⟩ := eq_of_isSizedZero hzero
    have hty := form_beside (hswap harith) hnone
    obtain ⟨hform, hrun⟩ := run_beside harith hty
    refine ⟨fun s => ?_, (hty.resolve_right (by simp [TypeExpr.form])).symm.trans hform.2.symm, hl⟩
    simp [Reduction.result, hrun, operate_zero hop, r.run_of_hasCall hcall]
  | mulPower hk hnone =>
    obtain ⟨rfl, -⟩ := powerOfTwo?_eq_some hk
    obtain ⟨hform, hrun⟩ := run_beside (show BinaryOp.isArithmetic .mul = true from rfl)
      (form_beside (hjoins.1 rfl) hnone)
    exact faithful_shift hl (fun s => by simp [hrun, operate_mul_pow]) hform.1
  | powerMul hk hnone =>
    obtain ⟨rfl, -⟩ := powerOfTwo?_eq_some hk
    obtain ⟨hform, hrun⟩ := run_beside (show BinaryOp.isArithmetic .mul = true from rfl)
      (form_beside (hswap rfl) hnone)
    exact faithful_shift hr (fun s => by simp [hrun, operate_mul_pow]) hform.2
  | unitLeft hop =>
    obtain ⟨-, hkr⟩ := hop.forms hjoins
    refine ⟨fun s => ?_, hkr.trans (hop.form _ _).symm, hr⟩
    rw [hop.run rfl hkr, if_pos rfl]
    rfl
  | decidedLeft hop hb =>
    obtain ⟨hkl, hkr⟩ := hop.forms hjoins
    refine ⟨fun s => ?_, hkl.trans (hop.form _ _).symm, hl⟩
    rw [hop.run rfl hkr, if_neg (by simp [hb])]
    rfl
  | unitRight hop =>
    obtain ⟨hkl, hkr⟩ := hop.forms hjoins
    refine ⟨fun s => ?_, hkl.trans (hop.form _ _).symm, hl⟩
    rw [hop.run (Expr.run_eq_toInt hkl s) hkr]
    split
    · rename_i hu
      exact Prod.ext ((Expr.run_eq_toInt hkl s).trans (congrArg Bool.toInt hu)) rfl
    · rfl
  | decidedRight hop hb hcall =>
    obtain ⟨hkl, hkr⟩ := hop.forms hjoins
    have hstate := l.run_of_hasCall (W := W) hcall
    refine ⟨fun s => ?_, hkr.trans (hop.form _ _).symm, hr⟩
    rw [hop.run (Expr.run_eq_toInt hkl s) hkr, hstate]
    split
    · rfl
    · rename_i hu
      refine Prod.ext ?_ (hstate s).symm
      rw [Expr.run_eq_toInt hkl s, Bool.eq_not.2 hu, hb]
      rfl

/-! Whole expressions. -/

theorem Faithful.refl (h : e.Regular W) : Faithful W e e := ⟨fun _ => rfl, rfl, h⟩

theorem faithful_leave (n : Nat) (h : e.Regular W) :
    Faithful W e ((editor.leaveExpr e () n).1.1.get e) := by
  simp only [editor]
  split
  · rename_i e
    obtain ⟨⟨hreg, hform⟩, -⟩ := h
    refine ⟨fun s => Prod.ext ?_ rfl, hform rfl, hreg⟩
    change (e.run W s).1 = (((e.run W s).1 == 0).toInt == 0).toInt
    rw [Expr.run_eq_toInt (hform rfl) s]
    cases (e.run W s).1 != 0 <;> rfl
  · rename_i t op l r
    cases hred : reduction? op l r with
    | none => exact .refl h
    | some red => cases red <;> exact (rule_of_reduction? hred).faithful h ⟨⟨n⟩, none⟩
  · exact .refl h

def Irreducible (es : List Expr) : Prop := ∀ e ∈ es, editor.leaveExpr e = pure .keep

theorem irreducible_shift {k : Nat} (hk : powerOfTwo? v = some k) (h : Irreducible e.walk) :
    Irreducible (Expr.binary t .shl e (.lit t' k .int)).walk := by
  refine forall_mem_cons.2 ⟨?_, forall_mem_append.2 ⟨h, forall_mem_singleton.2 rfl⟩⟩
  simp [editor, reduction?, (powerOfTwo?_eq_some hk).2]

theorem walk_eq_cons (e : Expr) : e.walk = e :: e.walk.tail := by cases e <;> rfl

theorem irreducible_leave (n : Nat) (h : Irreducible e.walk.tail) :
    Irreducible ((editor.leaveExpr e () n).1.1.get e).walk := by
  simp only [editor]
  split
  · exact fun x hx => h x (.tail _ hx)
  · rename_i t op l r
    obtain ⟨hl, hr⟩ := forall_mem_append.1 h
    cases hred : reduction? op l r with
    | none => exact forall_mem_cons.2 ⟨by simp only [editor, hred], h⟩
    | some red =>
      cases rule_of_reduction? hred with
      | mulPower hk => exact irreducible_shift hk hl
      | powerMul hk => exact irreducible_shift hk hr
      | _ => assumption
  · rw [Supply.stateT_pure_apply, Edit.get_keep, walk_eq_cons]
    exact forall_mem_cons.2 ⟨by simp only [editor], h⟩

structure Reduces (e e' : Expr) : Prop where
  irreducible : Irreducible e'.walk
  faithful : ∀ {S : Type} (W : Oracle S), e.Regular W → Faithful W e e'
  fixed : Irreducible e.walk → e' = e

variable {k : Continuation Unit}

theorem reduces_around {x : Editing Unit (Edit Expr)} (hx : (x () n).1.1.get e = e')
    (hbelow : Irreducible e'.walk.tail) (hf : ∀ {S : Type} (W : Oracle S), e.Regular W →
      Faithful W e e')
    (hfix : Irreducible e.walk → e' = e) :
      Reduces e ((editor.aroundExpr k false e x () n).1.1.get e) := by
  rw [Editor.get_aroundExpr rfl, hx]
  refine ⟨irreducible_leave _ hbelow, fun W hreg => ?_, fun h => ?_⟩
  · have he := hf W hreg
    have he' := faithful_leave (x () n).2 he.regular
    exact ⟨fun s => (he'.run s).trans (he.run s), he'.form.trans he.form, he'.regular⟩
  · rw [hfix h, h e (by rw [walk_eq_cons]; exact .head _)]
    rfl

structure ReducesAll (as as' : List Expr) : Prop where
  irreducible : Irreducible (Expr.walks as')
  regular : ∀ {S : Type} (W : Oracle S), Expr.AllRegular W as → Expr.AllRegular W as'
  runs : ∀ {S : Type} (W : Oracle S), Expr.AllRegular W as → ∀ s, Expr.runs W as' s =
    Expr.runs W as s
  fixed : Irreducible (Expr.walks as) → as' = as

theorem Reduces.unsized (h : Reduces e e') (he : e.isUnsized = true) : e'.isUnsized = true := by
  unfold Expr.isUnsized at he
  split at he
  · rw [h.fixed (forall_mem_singleton.2 rfl)]
    rfl
  · cases he

theorem Reduces.joins (hl : Reduces l l') (hr : Reduces r r') (hl' : l.Regular W)
    (hr' : r.Regular W) (h : Expr.Joins W op l r) : Expr.Joins W op l' r' := by
  unfold Expr.Joins
  rw [(hl.faithful W hl').form, (hr.faithful W hr').form]
  exact ⟨fun hop => (h.1 hop).imp_right (Or.imp hl.unsized hr.unsized), h.2⟩

theorem reduces_leaf (h : e.walk = [e]) (hreg : ∀ {S : Type} (W : Oracle S), e.Regular W) :
    Reduces e ((editor.aroundExpr k false e (pure .keep) () n).1.1.get e) :=
  reduces_around rfl (by simp [h, Irreducible]) (fun W _ => ⟨fun _ => rfl, rfl, hreg W⟩)
    fun _ => rfl

mutual
theorem reduces_visitExpr : (e : Expr) →
    ∀ n, Reduces e ((editor.visitExpr k false e () n).1.1.get e)
  | .lit .., _ => reduces_leaf rfl fun _ => trivial
  | .bool .., _ => reduces_leaf rfl fun _ => trivial
  | .path .., _ => reduces_leaf rfl fun _ => trivial
  | .member t b m, n => by
    have hb := reduces_visitExpr b n
    refine reduces_around (Edit.get_map (Expr.member t · m) b _) hb.irreducible (fun W h => ?_)
      fun h => ?_
    · have hf := hb.faithful W h
      exact ⟨fun s => by simp only [Expr.run, bind, StateT.bind, hf.run], rfl, hf.regular⟩
    · rw [hb.fixed (forall_mem_cons.1 h).2]
  | .index t b i, n => by
    have hb := reduces_visitExpr b n
    have hi := reduces_visitExpr i (editor.visitExpr k false b () n).2
    refine reduces_around (Edit.get_map₂ (Expr.index t) b i _ _)
      (forall_mem_append.2 ⟨hb.irreducible, hi.irreducible⟩) (fun W h => ?_) fun h => ?_
    · have hf := hb.faithful W h.1
      have hf' := hi.faithful W h.2
      exact ⟨fun s => by simp only [Expr.run, bind, StateT.bind, hf.run, hf'.run], rfl,
        hf.regular, hf'.regular⟩
    · obtain ⟨hb', hi'⟩ := forall_mem_append.1 (forall_mem_cons.1 h).2
      exact congrArg₂ (Expr.index t) (hb.fixed hb') (hi.fixed hi')
  | .call t c ts as, n => by
    have hc := reduces_visitExpr c n
    have has := reduces_visitExprs as (editor.visitExpr k false c () n).2
    refine reduces_around (Edit.get_map₂ (Expr.call t · ts ·) c as _ _)
      (forall_mem_append.2 ⟨hc.irreducible, has.irreducible⟩) (fun W h => ?_) fun h => ?_
    · have hf := hc.faithful W h.1
      exact ⟨fun s => by simp only [Expr.run, bind, StateT.bind, hf.run, has.runs W h.2], rfl,
        hf.regular,
        has.regular W h.2⟩
    · obtain ⟨hc', has'⟩ := forall_mem_append.1 (forall_mem_cons.1 h).2
      exact congrArg₂ (Expr.call t · ts ·) (hc.fixed hc') (has.fixed has')
  | .construct t ty as, n => by
    have has := reduces_visitExprs as n
    refine reduces_around (Edit.get_map (Expr.construct t ty) as _) has.irreducible (fun W h => ?_)
      fun h => ?_
    · exact ⟨fun s => by simp only [Expr.run, bind, StateT.bind, has.runs W h], rfl,
        has.regular W h⟩
    · rw [has.fixed (forall_mem_cons.1 h).2]
  | .unary t op e, n => by
    have he := reduces_visitExpr e n
    refine reduces_around (Edit.get_map (Expr.unary t op) e _) he.irreducible (fun W h => ?_)
      fun h => ?_
    · have hf := he.faithful W h.1
      refine ⟨fun s => ?_, ?_, hf.regular, fun hop => hf.form.trans (h.2 hop)⟩
      · cases op <;> simp only [Expr.run, bind, StateT.bind, hf.run, hf.form]
      · cases op <;> simp only [Expr.form, hf.form]
    · rw [he.fixed (forall_mem_cons.1 h).2]
  | .binary t op l r, n => by
    have hl := reduces_visitExpr l n
    have hr := reduces_visitExpr r (editor.visitExpr k false l () n).2
    refine reduces_around (Edit.get_map₂ (Expr.binary t op) l r _ _)
      (forall_mem_append.2 ⟨hl.irreducible, hr.irreducible⟩) (fun W h => ?_) fun h => ?_
    · have hf := hl.faithful W h.1
      have hf' := hr.faithful W h.2.1
      refine ⟨fun s => ?_, ?_, hf.regular, hf'.regular, hl.joins hr h.1 h.2.1 h.2.2⟩
      · simp only [Expr.run_binary, hf.run, hf'.run, hf.form, hf'.form]
      · simp only [Expr.form, hf.form, hf'.form]
    · obtain ⟨hl', hr'⟩ := forall_mem_append.1 (forall_mem_cons.1 h).2
      exact congrArg₂ (Expr.binary t op) (hl.fixed hl') (hr.fixed hr')
theorem reduces_visitExprs : (es : List Expr) →
    ∀ n, ReducesAll es ((editor.visitExprs k es () n).1.1.get es)
  | [], _ => ⟨forall_mem_nil _, fun _ h => h, fun _ _ _ => rfl, fun _ => rfl⟩
  | e :: es, n => by
    have he := reduces_visitExpr e n
    have hes := reduces_visitExprs es (editor.visitExpr k false e () n).2
    refine (Edit.get_map₂ (· :: ·) e es _ _).symm ▸
      ⟨forall_mem_append.2 ⟨he.irreducible, hes.irreducible⟩,
      fun W h => ⟨(he.faithful W h.1).regular, hes.regular W h.2⟩, fun W h s => ?_, fun h => ?_⟩
    · simp only [Expr.runs, bind, StateT.bind, (he.faithful W h.1).run, hes.runs W h.2]
    · obtain ⟨he', hes'⟩ := forall_mem_append.1 h
      exact congrArg₂ List.cons (he.fixed he') (hes.fixed hes')
end

/-- Reducing an expression keeps its value, the state it leaves behind and so the calls it makes,
whatever its paths, members, indexings and calls are worth and do. It keeps its type, and reducing
it once more changes nothing. -/
theorem keeps_values_and_calls {S : Type} {W : Oracle S} {e : Expr} (h : e.Regular W)
    (k : Continuation Unit) (n : Nat) :
    let f := fun e n => (editor.visitExpr k false e () n).1.1.get e
    (∀ s, (f e n).run W s = e.run W s) ∧ (f e n).form W = e.form W ∧ (f e n).Regular W ∧
      ∀ n', f (f e n) n' = f e n := by
  have hred := reduces_visitExpr (k := k) e n
  have hf := hred.faithful W h
  exact ⟨hf.run, hf.form, hf.regular, fun n' => (reduces_visitExpr _ n').fixed hred.irreducible⟩

def recording : Oracle (List NodeId) where
  form _ := .bits 8 false
  read _ _ _ := 1
  call i _ calls := (3, calls ++ [i])
  other _ _ _ := 0

def fourfold : Expr :=
  let tag (i : Nat) : Tag := ⟨⟨i⟩, none⟩
  .binary (tag 1) .add
    (.binary (tag 2) .mul (.call (tag 3) (.path (tag 4) "f") [] []) (.lit (tag 5) 4 .int))
      (.lit (tag 6) 0 .int)

theorem fourfold_keeps : fourfold.Regular recording ∧
    ((editor.visitExpr Editor.stop false fourfold () 7).1.1.get fourfold).run recording [] =
      (12, [⟨3⟩]) := by
  have h : fourfold.Regular recording := by
    simp [fourfold, Expr.Regular, Expr.AllRegular, Expr.Joins, Expr.isUnsized]
  exact ⟨h, (keeps_values_and_calls h Editor.stop 7).1 []⟩

/-- The sum of a literal zero of 8 bits and a parameter of 16 is assigned to one of 8 bits. -/
def zeroPlus : Program :=
  ⟨[.control ⟨⟨0⟩, "c", none⟩ []
    [⟨⟨1⟩, "y", .inout, .bits 8 false, none⟩, ⟨⟨2⟩, "x", .input, .bits 16 false, none⟩] [] []
    (.mk ⟨3⟩ [.assign ⟨⟨4⟩, none⟩ (.path ⟨⟨5⟩, none⟩ "y") (.binary ⟨⟨6⟩, none⟩ .add
      (.lit ⟨⟨7⟩, none⟩ 0 (.bits 8 false)) (.path ⟨⟨8⟩, none⟩ "x"))])]⟩

/-- `y = 8w0 + x` with an `x` of 16 bits becomes `y = x`. -/
theorem zero_left_out :
    zeroPlus.check.errors = [] ∧ ((zeroPlus.reduceStrength 9).1.get zeroPlus).check.errors =
      [⟨.mismatch (.bits 8 false) (.bits 16 false), none⟩] :=
  ⟨by decide +kernel, by decide +kernel⟩

end Strength

end MatchAction
