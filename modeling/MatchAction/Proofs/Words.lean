import Mathlib.Data.Int.Bitwise
import Mathlib.Tactic.Linarith
import Mathlib.Tactic.Positivity
import MatchAction.Simplify.Folding

/-!
What numbers are worth. A value of a sized type is a word of that many bits, read with or without a
sign; an unsized one is any integer. Arithmetic on literals is done in words of 128 bits and wrapped
afterwards, and comes to the same as long as the width is below that.
-/

namespace MatchAction

def wordValue {w : Nat} (signed : Bool) (x : BitVec w) : Int := if signed then x.toInt else x.toNat

theorem ofInt_wordValue {w : Nat} (signed : Bool) (x : BitVec w) :
    BitVec.ofInt w (wordValue signed x) = x := by
  cases signed with
  | true => exact BitVec.ofInt_toInt
  | false => simp [wordValue]

inductive Value
  | bool (value : Bool)
  | word (width : Nat) (signed : Bool) (bits : BitVec width)
  | int (value : Int)

namespace Value

def lit (v : Int) : TypeExpr → Value
  | .bits w s => .word w s (.ofInt w v)
  | _ => .int v

def conform : Value → Value → Value
  | .int v, .word w s _ => .word w s (.ofInt w v)
  | a, _ => a

def amount? : Value → Option Nat
  | .bool _ => none
  | .word _ s x => if 0 ≤ wordValue s x then some (wordValue s x).toNat else none
  | .int v => if 0 ≤ v then some v.toNat else none

def shiftLeft (n : Nat) : Value → Option Value
  | .bool _ => none
  | .word w s x => some (.word w s (x <<< n))
  | .int v => some (.int (v * 2 ^ n))

def shiftRight (n : Nat) : Value → Option Value
  | .bool _ => none
  | .word w true x => some (.word w true (x.sshiftRight n))
  | .word w false x => some (.word w false (x >>> n))
  | .int v => some (.int (v >>> n))

def compare? : BinaryOp → Int → Int → Option Bool
  | .eq, a, b => some (decide (a = b))
  | .ne, a, b => some (decide (a ≠ b))
  | .lt, a, b => some (decide (a < b))
  | .le, a, b => some (decide (a ≤ b))
  | .gt, a, b => some (decide (b < a))
  | .ge, a, b => some (decide (b ≤ a))
  | _, _, _ => none

def words? {w : Nat} : BinaryOp → BitVec w → BitVec w → Option (BitVec w)
  | .add, x, y => some (x + y)
  | .sub, x, y => some (x - y)
  | .mul, x, y => some (x * y)
  | .bitAnd, x, y => some (x &&& y)
  | .bitOr, x, y => some (x ||| y)
  | .bitXor, x, y => some (x ^^^ y)
  | _, _, _ => none

def ints? : BinaryOp → Int → Int → Option Int
  | .add, a, b => some (a + b)
  | .sub, a, b => some (a - b)
  | .mul, a, b => some (a * b)
  | .bitAnd, a, b => some (a.land b)
  | .bitOr, a, b => some (a.lor b)
  | .bitXor, a, b => some (a.xor b)
  | _, _, _ => none

def alike? (op : BinaryOp) : Value → Value → Option Value
  | .bool a, .bool b =>
    match op with
    | .and => some (.bool (a && b))
    | .or => some (.bool (a || b))
    | .eq => some (.bool (a == b))
    | .ne => some (.bool (a != b))
    | _ => none
  | .word w s x, .word w' s' y =>
    if h : w' = w ∧ s = s' then
      ((compare? op (wordValue s x) (wordValue s' y)).map .bool).or
        ((words? op x (y.cast h.1)).map (.word w s))
    else none
  | .int a, .int b => ((compare? op a b).map .bool).or ((ints? op a b).map .int)
  | _, _ => none

def binary? (op : BinaryOp) (a b : Value) : Option Value :=
  match op with
  | .shl => b.amount?.bind fun n => (a.conform b).shiftLeft n
  | .shr => b.amount?.bind fun n => (a.conform b).shiftRight n
  | _ => alike? op (a.conform b) (b.conform a)

def unary? : UnaryOp → Value → Option Value
  | .not, .bool b => some (.bool !b)
  | .neg, .word w s x => some (.word w s (-x))
  | .neg, .int v => some (.int (-v))
  | .complement, .word w s x => some (.word w s (~~~x))
  | .complement, .int v => some (.int (-v - 1))
  | _, _ => none

end Value

namespace Literal

variable {a b l r u v : Int} {w : Nat} {s : Bool} {t ty : TypeExpr} {op : BinaryOp}

/-- In the range of the type: of a width that leaves a word of 128 bits room for the modulus, or of
any other type, whose values are such words. -/
def InRange (v : Int) : TypeExpr → Prop
  | .bits w true => (0 < w ∧ w < 127) ∧ -2 ^ (w - 1) ≤ v ∧ v < 2 ^ (w - 1)
  | .bits w false => (0 < w ∧ w < 128) ∧ 0 ≤ v ∧ v < 2 ^ w
  | _ => fits v = true

theorem fits_iff : fits v = true ↔ -2 ^ 127 ≤ v ∧ v < 2 ^ 127 := by
  unfold fits
  rw [Bool.and_eq_true, decide_eq_true_iff, decide_eq_true_iff]
  rfl

theorem checked_eq_some (h : checked v = some u) : u = v ∧ fits v = true := by
  unfold checked at h
  split at h
  · exact ⟨(Option.some.inj h).symm, ‹_›⟩
  · cases h

theorem wrap_bits (hw : 0 < w) (hw' : w < 128) (s : Bool) (v : Int) :
    wrap v (.bits w s) = wordValue s (BitVec.ofInt w v) := by
  have hpow : (Int.pow 2 w : Int) = ((2 ^ w : Nat) : Int) := by
    rw [Nat.cast_pow]
    rfl
  have hcond : ¬ (w = 0 ∨ 128 ≤ w) := by omega
  have hhalf : (2 : Nat) ^ w = 2 * 2 ^ (w - 1) := by
    rw [← Nat.pow_succ']
    congr 1
    omega
  have hpos : (0 : Int) < ((2 ^ w : Nat) : Int) := by positivity
  have hnn := Int.emod_nonneg v hpos.ne'
  rw [wrap, if_neg hcond, hpow]
  cases s with
  | false =>
    rw [wordValue, BitVec.toNat_ofInt]
    simp only [Bool.false_and, Bool.false_eq_true, if_false]
    exact (Int.toNat_of_nonneg hnn).symm
  | true =>
    rw [wordValue, if_pos rfl, BitVec.toInt_ofInt, Int.bmod_def]
    simp only [Bool.true_and, decide_eq_true_iff]
    generalize v % ((2 ^ w : Nat) : Int) = u at hnn
    generalize (2 : Nat) ^ w = m at *
    split <;> split <;> omega

theorem wordValue_of_inRange (h : InRange v (.bits w s)) :
    wordValue s (BitVec.ofInt w v) = v := by
  cases s with
  | true =>
    obtain ⟨⟨hw, -⟩, hlo, hhi⟩ := h
    have hhalf : (2 : Int) ^ w = 2 * 2 ^ (w - 1) := by
      rw [← Int.pow_succ']
      congr 1
      omega
    rw [wordValue, if_pos rfl, BitVec.toInt_ofInt]
    apply Int.bmod_eq_of_le
    all_goals push_cast; omega
  | false =>
    obtain ⟨-, hlo, hhi⟩ := h
    rw [wordValue, if_neg Bool.false_ne_true, BitVec.toNat_ofInt]
    push_cast
    rw [Int.emod_eq_of_lt hlo hhi]
    exact Int.toNat_of_nonneg hlo

theorem width_of_inRange (h : InRange v (.bits w s)) :
    0 < w ∧ w < 128 := by
  cases s with
  | true => exact ⟨h.1.1, h.1.2.trans (by decide)⟩
  | false => exact h.1

theorem inRange_zero (hw : 0 < w) (hw' : w < 127) (s : Bool) : InRange 0 (.bits w s) := by
  cases s with
  | true => exact ⟨⟨hw, hw'⟩, by simp, by positivity⟩
  | false => exact ⟨⟨hw, hw'.trans (by decide)⟩, le_rfl, by positivity⟩

theorem inRange_wrap (h : InRange u (.bits w s)) (v : Int) :
    InRange (wrap v (.bits w s)) (.bits w s) := by
  obtain ⟨hw, hw'⟩ := width_of_inRange h
  rw [wrap_bits hw hw']
  cases s with
  | true => exact ⟨h.1, BitVec.le_toInt _, BitVec.toInt_lt⟩
  | false =>
    have hlt : ((BitVec.ofInt w v).toNat : Int) < 2 ^ w := by exact_mod_cast (BitVec.ofInt w v).isLt
    exact ⟨h.1, Int.natCast_nonneg _, hlt⟩

theorem ofInt_wrap (hw : 0 < w) (hw' : w < 128) (s : Bool) (v : Int) :
    BitVec.ofInt w (wrap v (.bits w s)) = BitVec.ofInt w v := by
  rw [wrap_bits hw hw', ofInt_wordValue]

theorem fits_of_inRange (h : InRange v ty) : fits v = true := by
  cases ty with
  | bits w s =>
    rw [fits_iff]
    cases s with
    | true =>
      obtain ⟨⟨-, hw⟩, hlo, hhi⟩ := h
      have hpow : (2 : Int) ^ (w - 1) ≤ 2 ^ 127 := pow_le_pow_right₀ (by decide) (by omega)
      omega
    | false =>
      obtain ⟨⟨-, hw⟩, hlo, hhi⟩ := h
      have hpow : (2 : Int) ^ w ≤ 2 ^ 127 := pow_le_pow_right₀ (by decide) (by omega)
      omega
  | _ => exact h

/-! Words of 128 bits, and shorter ones. -/

theorem fits_toInt (x : BitVec 128) : fits x.toInt = true :=
  fits_iff.2 ⟨x.le_toInt, x.toInt_lt⟩

theorem ofInt_toInt_word (hw : w ≤ 128) (x : BitVec 128) :
    BitVec.ofInt w x.toInt = x.setWidth w := x.signExtend_eq_setWidth_of_le hw

theorem setWidth_ofInt (hw : w ≤ 128) (v : Int) :
    (BitVec.ofInt 128 v).setWidth w = BitVec.ofInt w v := by
  rw [← ofInt_toInt_word hw, BitVec.toInt_ofInt]
  apply BitVec.eq_of_toInt_eq
  rw [BitVec.toInt_ofInt, BitVec.toInt_ofInt]
  exact Int.bmod_bmod_of_dvd (Nat.pow_dvd_pow 2 hw)

theorem getLsbD_ofInt (w : Nat) (v : Int) (i : Nat) :
    (BitVec.ofInt w v).getLsbD i = (decide (i < w) && v.testBit i) := by
  cases v with
  | ofNat n =>
    change (BitVec.ofInt w (n : Int)).getLsbD i = _
    rw [BitVec.ofInt_natCast, BitVec.getLsbD_ofNat]
    rfl
  | negSucc n =>
    rw [BitVec.ofInt_negSucc_eq_not_ofNat, BitVec.getLsbD_not, BitVec.getLsbD_ofNat]
    by_cases h : i < w <;> simp [h, Int.testBit]

theorem fits_iff_lt : fits v = true ↔ (∃ n : Nat, v = n ∧ n < 2 ^ 127) ∨
    ∃ n : Nat, v = Int.negSucc n ∧ n < 2 ^ 127 := by
  rw [fits_iff]
  cases v with
  | ofNat n =>
    simp only [Int.ofNat_eq_natCast]
    constructor
    · rintro ⟨-, h⟩
      exact .inl ⟨n, rfl, by exact_mod_cast h⟩
    · rintro (⟨m, h, hm⟩ | ⟨m, h, -⟩)
      · have : n = m := by exact_mod_cast h
        subst this
        exact ⟨by omega, by exact_mod_cast hm⟩
      · cases h
  | negSucc n =>
    constructor
    · rintro ⟨h, -⟩
      exact .inr ⟨n, rfl, by omega⟩
    · rintro (⟨m, h, -⟩ | ⟨m, h, hm⟩)
      · cases h
      · cases h
        omega

theorem fits_bitwise (f : Bool → Bool → Bool) (ha : fits a = true) (hb : fits b = true) :
    fits (Int.bitwise f a b) = true := by
  have hnat (g : Bool → Bool → Bool) {m n : Nat} (hm : m < 2 ^ 127) (hn : n < 2 ^ 127) :
      fits (Int.natBitwise g m n) = true := by
    unfold Int.natBitwise
    cases g false false with
    | true => exact fits_iff_lt.2 (.inr ⟨_, rfl, Nat.bitwise_lt_two_pow hm hn⟩)
    | false => exact fits_iff_lt.2 (.inl ⟨_, rfl, Nat.bitwise_lt_two_pow hm hn⟩)
  obtain ⟨m, rfl, hm⟩ | ⟨m, rfl, hm⟩ := fits_iff_lt.1 ha <;>
    obtain ⟨n, rfl, hn⟩ | ⟨n, rfl, hn⟩ := fits_iff_lt.1 hb
  · exact hnat f hm hn
  · exact hnat (fun x y => f x !y) hm hn
  · exact hnat (fun x y => f (!x) y) hm hn
  · exact hnat (fun x y => f (!x) !y) hm hn

theorem toInt_eq_bitwise {f : Bool → Bool → Bool} (ha : fits a = true) (hb : fits b = true)
    {x : BitVec 128} (hx : ∀ i < 128, x.getLsbD i = f (a.testBit i) (b.testBit i)) :
    x.toInt = Int.bitwise f a b := by
  have hsame : x = BitVec.ofInt 128 (Int.bitwise f a b) := by
    refine BitVec.eq_of_getLsbD_eq fun i hi => ?_
    rw [hx i hi, getLsbD_ofInt, Int.testBit_bitwise, decide_eq_true hi, Bool.true_and]
  obtain ⟨hlo, hhi⟩ := fits_iff.1 (fits_bitwise f ha hb)
  rw [hsame, BitVec.toInt_ofInt]
  apply Int.bmod_eq_of_le
  all_goals push_cast; omega

theorem bitwise_and (ha : fits a = true) (hb : fits b = true) :
    bitwise (· &&& ·) a b = a.land b := by
  rw [← Int.bitwise_and]
  refine toInt_eq_bitwise ha hb fun i hi => ?_
  rw [BitVec.getLsbD_and, getLsbD_ofInt, getLsbD_ofInt, decide_eq_true hi, Bool.true_and,
    Bool.true_and]

theorem bitwise_or (ha : fits a = true) (hb : fits b = true) :
    bitwise (· ||| ·) a b = a.lor b := by
  rw [← Int.bitwise_or]
  refine toInt_eq_bitwise ha hb fun i hi => ?_
  rw [BitVec.getLsbD_or, getLsbD_ofInt, getLsbD_ofInt, decide_eq_true hi, Bool.true_and,
    Bool.true_and]

theorem bitwise_xor (ha : fits a = true) (hb : fits b = true) :
    bitwise (· ^^^ ·) a b = a.xor b := by
  rw [← Int.bitwise_xor]
  refine toInt_eq_bitwise ha hb fun i hi => ?_
  rw [BitVec.getLsbD_xor, getLsbD_ofInt, getLsbD_ofInt, decide_eq_true hi, Bool.true_and,
    Bool.true_and]

theorem ofInt_sub (w : Nat) (a b : Int) : BitVec.ofInt w (a - b) = BitVec.ofInt w a -
    BitVec.ofInt w b := by
  rw [Int.sub_eq_add_neg, BitVec.ofInt_add, BitVec.ofInt_neg, BitVec.sub_eq_add_neg]

theorem ofInt_complement (w : Nat) (v : Int) : BitVec.ofInt w (-v - 1) = ~~~BitVec.ofInt w v := by
  rw [BitVec.not_eq_neg_add, ofInt_sub, BitVec.ofInt_neg]
  simp

/-! Shifts. -/

theorem shiftAmount?_eq_some {n : Nat} (h : shiftAmount? r = some n) :
    0 ≤ r ∧ r.toNat = n := by
  unfold shiftAmount? at h
  split at h
  · rename_i hr
    rw [Bool.and_eq_true, decide_eq_true_iff] at hr
    exact ⟨hr.1, Option.some.inj h⟩
  · cases h

theorem shl_eq_some (h : shl l r ty = some v) :
    ∃ n, 0 ≤ r ∧ r.toNat = n ∧ n < 128 ∧ v = (BitVec.ofInt 128 l <<< n).toInt ∧
      (ty.isBits = true ∨ v >>> n = l) := by
  unfold shl at h
  obtain ⟨n, hn, h⟩ := Option.bind_eq_some_iff.1 h
  obtain ⟨hr, rfl⟩ := shiftAmount?_eq_some hn
  split at h
  · cases h
  · rename_i hlt
    dsimp only at h
    split at h
    · rename_i hok
      cases h
      refine ⟨_, hr, rfl, Nat.lt_of_not_le hlt, rfl, ?_⟩
      simpa using hok
    · cases h

theorem shr_eq_some (h : shr l r = some v) :
    ∃ n, 0 ≤ r ∧ r.toNat = n ∧ v = l >>> min n 127 := by
  unfold shr at h
  obtain ⟨n, hn, h⟩ := Option.bind_eq_some_iff.1 h
  obtain ⟨hr, rfl⟩ := shiftAmount?_eq_some hn
  cases h
  exact ⟨_, hr, rfl, rfl⟩

theorem ofInt_mul_two_pow (w : Nat) (v : Int) (n : Nat) :
    BitVec.ofInt w (v * 2 ^ n) = BitVec.ofInt w v <<< n := by
  have hpow : (2 : Int) ^ n = ((2 ^ n : Nat) : Int) := by rw [Nat.cast_pow]; rfl
  rw [BitVec.ofInt_mul, hpow, BitVec.ofInt_natCast, BitVec.shiftLeft_eq_mul_twoPow]
  congr 1
  apply BitVec.eq_of_toNat_eq
  rw [BitVec.toNat_ofNat, BitVec.toNat_twoPow]

theorem toInt_shiftLeft {n : Nat} (hn : n < 128)
    (h : (BitVec.ofInt 128 l <<< n).toInt >>> n = l) : (BitVec.ofInt 128 l <<< n).toInt =
      l * 2 ^ n := by
  have hdvd : ((2 ^ n : Nat) : Int) ∣ (BitVec.ofInt 128 l <<< n).toInt := by
    rw [← ofInt_mul_two_pow, BitVec.toInt_ofInt]
    have hmul : ((2 ^ n : Nat) : Int) ∣ l * 2 ^ n := by
      rw [Nat.cast_pow]
      exact Dvd.intro_left l rfl
    have hmod : ((2 ^ n : Nat) : Int) ∣ ((2 ^ 128 : Nat) : Int) :=
      Int.natCast_dvd_natCast.2 (Nat.pow_dvd_pow 2 hn.le)
    have hdiff := hmod.trans (Int.dvd_bmod_sub_self (x := l * 2 ^ n) (m := 2 ^ 128))
    exact (Int.dvd_iff_dvd_of_dvd_sub hdiff).2 hmul
  rw [Int.shiftRight_eq_div_pow] at h
  conv_rhs => rw [← h]
  rw [← Int.ediv_mul_cancel hdvd]
  push_cast
  rw [Int.mul_ediv_cancel _ (by positivity)]

theorem fits_shiftRight (h : fits l = true) (n : Nat) : fits (l >>> n) = true := by
  rw [fits_iff] at h ⊢
  rw [Int.shiftRight_eq_div_pow]
  have hpos : (1 : Int) ≤ ((2 ^ n : Nat) : Int) := by exact_mod_cast Nat.one_le_two_pow
  constructor
  · rw [Int.le_ediv_iff_mul_le (by omega)]
    nlinarith [h.1]
  · rw [Int.ediv_lt_iff_lt_mul (by omega)]
    nlinarith [h.2]

theorem shiftRight_min (h : fits l = true) (n : Nat) : l >>> min n 127 = l >>> n := by
  rcases le_total n 127 with hn | hn
  · rw [min_eq_left hn]
  have hone (k : Nat) (hk : 127 ≤ k) : l >>> k = if l < 0 then -1 else 0 := by
    have hpow : (2 : Int) ^ 127 ≤ ((2 ^ k : Nat) : Int) := by
      rw [Nat.cast_pow]
      exact pow_le_pow_right₀ (by decide) hk
    obtain ⟨hlo, hhi⟩ := fits_iff.1 h
    rw [Int.shiftRight_eq_div_pow]
    split
    · rw [Int.ediv_eq_iff_of_pos (by omega)]
      omega
    · exact Int.ediv_eq_zero_of_lt (by omega) (by omega)
  rw [min_eq_right hn, hone 127 le_rfl, hone n hn]

/-! Operators on literals. -/

theorem lit_of_not_isBits (h : ty.isBits = false) (v : Int) : Value.lit v ty = .int v := by
  cases ty with
  | bits => cases h
  | _ => rfl

theorem inRange_iff_fits (h : ty.isBits = false) (v : Int) : InRange v ty ↔ fits v = true := by
  cases ty with
  | bits => cases h
  | _ => rfl

theorem wrap_spec (hu : InRange u ty) (hv : fits v = true) :
    InRange (wrap v ty) ty ∧ Value.lit (wrap v ty) ty = .lit v ty := by
  cases ty with
  | bits w s =>
    obtain ⟨hw, hw'⟩ := width_of_inRange hu
    exact ⟨inRange_wrap hu v, congrArg (Value.word w s) (ofInt_wrap hw hw' s v)⟩
  | _ => exact ⟨hv, rfl⟩

/-- The types of two operands and the one they have in common: a sized one that each of them has or
takes, or one that is not sized. -/
theorem commonType?_cases {u : TypeExpr} (h : commonType? t u = some ty) :
    (ty.isBits = true ∧ (t = ty ∧ u = ty ∨ t = ty ∧ u = .int ∨ t = .int ∧ u = ty)) ∨
      (ty.isBits = false ∧ t.isBits = false ∧ u.isBits = false) := by
  unfold commonType? at h
  split at h
  · cases h
    cases hty : ty.isBits with
    | true => exact .inl ⟨rfl, .inr (.inr ⟨rfl, rfl⟩)⟩
    | false => exact .inr ⟨rfl, rfl, rfl⟩
  · cases h
    cases ht : t.isBits with
    | true => exact .inl ⟨rfl, .inr (.inl ⟨rfl, rfl⟩)⟩
    | false => exact .inr ⟨rfl, rfl, rfl⟩
  · split at h
    · rename_i heq
      cases h
      cases t with
      | bits w s =>
        cases u with
        | bits w' s' =>
          have hsame : (w == w' && s == s') = true := heq
          rw [Bool.and_eq_true, beq_iff_eq, beq_iff_eq] at hsame
          obtain ⟨rfl, rfl⟩ := hsame
          exact .inl ⟨rfl, .inl ⟨rfl, rfl⟩⟩
        | _ => cases heq
      | _ =>
        cases u with
        | bits w' s' => cases heq
        | _ => exact .inr ⟨rfl, rfl, rfl⟩
    · cases h

theorem conform_lit {u : TypeExpr} (h : commonType? t u = some ty) (l r : Int) :
    (Value.lit l t).conform (.lit r u) = .lit l ty ∧ (Value.lit r u).conform (.lit l t) =
      .lit r ty := by
  rcases commonType?_cases h with ⟨hty, ⟨rfl, rfl⟩ | ⟨rfl, rfl⟩ | ⟨rfl, rfl⟩⟩ | ⟨hty, ht, hu⟩
  · cases u <;> exact ⟨rfl, rfl⟩
  · cases t <;> exact ⟨rfl, rfl⟩
  · cases u <;> exact ⟨rfl, rfl⟩
  · rw [lit_of_not_isBits ht, lit_of_not_isBits hu, lit_of_not_isBits hty, lit_of_not_isBits hty]
    exact ⟨rfl, rfl⟩

theorem inRange_common {u : TypeExpr} (h : commonType? t u = some ty)
    (hl : InRange l t) (hr : InRange r u) : ∃ v, InRange v ty := by
  rcases commonType?_cases h with ⟨-, ⟨rfl, -⟩ | ⟨rfl, -⟩ | ⟨-, rfl⟩⟩ | ⟨hty, -, -⟩
  · exact ⟨l, hl⟩
  · exact ⟨l, hl⟩
  · exact ⟨r, hr⟩
  · exact ⟨l, (inRange_iff_fits hty l).2 (fits_of_inRange hl)⟩

theorem compare?_eq (op : BinaryOp) (l r : Int) : Folding.comparison? op l r = Value.compare?
    op l r := by
  cases op with
  | ne => exact congrArg some (decide_not (p := l = r)).symm
  | _ => rfl

theorem alike?_of_comparison {b : Bool}
    (h : Folding.comparison? op l r = some b) (hl : InRange l ty) (hr : InRange r ty) :
    Value.alike? op (.lit l ty) (.lit r ty) = some (.bool b) := by
  rw [compare?_eq] at h
  cases hty : ty.isBits with
  | true =>
    cases ty with
    | bits w s =>
      simp only [Value.lit, Value.alike?, and_self, dif_pos, wordValue_of_inRange hl,
        wordValue_of_inRange hr, h]
      rfl
    | _ => cases hty
  | false =>
    rw [lit_of_not_isBits hty, lit_of_not_isBits hty, Value.alike?, h]
    rfl

theorem alike?_word {x y z : BitVec w}
    (hcompare : ∀ a b, Value.compare? op a b = none) (h : Value.words? op x y = some z) :
    Value.alike? op (.word w s x) (.word w s y) = some (.word w s z) := by
  simp [Value.alike?, hcompare, h]

theorem alike?_of_arithmetic
    (h : Folding.arithmetic? op l r ty = some v) (hshl : op ≠ .shl) (hshr : op ≠ .shr)
    (hu : InRange u ty) (hl : fits l = true) (hr : fits r = true) :
    Value.alike? op (.lit l ty) (.lit r ty) = some (.lit v ty) ∧ fits v = true := by
  cases hty : ty.isBits with
  | true =>
    cases ty with
    | bits w s =>
      have hw : w ≤ 128 := (width_of_inRange hu).2.le
      cases op with
      | add =>
        obtain ⟨rfl, hv⟩ := checked_eq_some h
        exact ⟨alike?_word (fun _ _ => rfl) (congrArg some (BitVec.ofInt_add l r).symm), hv⟩
      | sub =>
        obtain ⟨rfl, hv⟩ := checked_eq_some h
        exact ⟨alike?_word (fun _ _ => rfl) (congrArg some (ofInt_sub w l r).symm), hv⟩
      | mul =>
        obtain ⟨rfl, hv⟩ := checked_eq_some h
        exact ⟨alike?_word (fun _ _ => rfl) (congrArg some (BitVec.ofInt_mul l r).symm), hv⟩
      | bitAnd =>
        cases h
        refine ⟨alike?_word (fun _ _ => rfl) (congrArg some ?_), fits_toInt _⟩
        rw [bitwise, ofInt_toInt_word hw, BitVec.setWidth_and, setWidth_ofInt hw, setWidth_ofInt hw]
      | bitOr =>
        cases h
        refine ⟨alike?_word (fun _ _ => rfl) (congrArg some ?_), fits_toInt _⟩
        rw [bitwise, ofInt_toInt_word hw, BitVec.setWidth_or, setWidth_ofInt hw, setWidth_ofInt hw]
      | bitXor =>
        cases h
        refine ⟨alike?_word (fun _ _ => rfl) (congrArg some ?_), fits_toInt _⟩
        rw [bitwise, ofInt_toInt_word hw, BitVec.setWidth_xor, setWidth_ofInt hw, setWidth_ofInt hw]
      | shl => exact absurd rfl hshl
      | shr => exact absurd rfl hshr
      | _ => cases h
    | _ => cases hty
  | false =>
    rw [lit_of_not_isBits hty, lit_of_not_isBits hty, lit_of_not_isBits hty]
    cases op with
    | add | sub | mul =>
      obtain ⟨rfl, hv⟩ := checked_eq_some h
      exact ⟨rfl, hv⟩
    | bitAnd =>
      cases h
      exact ⟨congrArg (some ∘ Value.int) (bitwise_and hl hr).symm, fits_toInt _⟩
    | bitOr =>
      cases h
      exact ⟨congrArg (some ∘ Value.int) (bitwise_or hl hr).symm, fits_toInt _⟩
    | bitXor =>
      cases h
      exact ⟨congrArg (some ∘ Value.int) (bitwise_xor hl hr).symm, fits_toInt _⟩
    | shl => exact absurd rfl hshl
    | shr => exact absurd rfl hshr
    | _ => cases h

theorem amount?_lit (h : InRange r ty) (hr : 0 ≤ r) :
    (Value.lit r ty).amount? = some r.toNat := by
  cases hty : ty.isBits with
  | true =>
    cases ty with
    | bits w s => rw [Value.lit, Value.amount?, wordValue_of_inRange h, if_pos hr]
    | _ => cases hty
  | false => rw [lit_of_not_isBits hty, Value.amount?, if_pos hr]

theorem shiftLeft_lit (h : shl l r ty = some v) (hu : InRange u ty) :
    (Value.lit l ty).shiftLeft r.toNat = some (.lit v ty) ∧ fits v = true ∧ 0 ≤ r := by
  obtain ⟨n, hr, rfl, hn, rfl, hexact⟩ := shl_eq_some h
  refine ⟨?_, fits_toInt _, hr⟩
  cases hty : ty.isBits with
  | true =>
    cases ty with
    | bits w s =>
      have hw : w ≤ 128 := (width_of_inRange hu).2.le
      rw [Value.lit, Value.lit, Value.shiftLeft, ofInt_toInt_word hw,
        BitVec.setWidth_shiftLeft_of_le hw, setWidth_ofInt hw]
    | _ => cases hty
  | false =>
    rw [lit_of_not_isBits hty, lit_of_not_isBits hty, Value.shiftLeft,
      toInt_shiftLeft hn (hexact.resolve_left (by simp [hty]))]

theorem shiftRight_lit (h : shr l r = some v) (hl : InRange l ty) :
    (Value.lit l ty).shiftRight r.toNat = some (.lit v ty) ∧ fits v = true ∧ 0 ≤ r := by
  obtain ⟨n, hr, rfl, rfl⟩ := shr_eq_some h
  have hfits := fits_of_inRange hl
  refine ⟨?_, fits_shiftRight hfits _, hr⟩
  rw [shiftRight_min hfits]
  cases hty : ty.isBits with
  | true =>
    cases ty with
    | bits w s =>
      have hvalue := wordValue_of_inRange hl
      cases s with
      | true =>
        have hshift : wordValue true ((BitVec.ofInt w l).sshiftRight r.toNat) = l >>> r.toNat := by
          rw [wordValue, if_pos rfl] at hvalue
          rw [wordValue, if_pos rfl, BitVec.toInt_sshiftRight, hvalue]
        rw [Value.lit, Value.lit, Value.shiftRight, ← hshift, ofInt_wordValue]
      | false =>
        have hshift : wordValue false (BitVec.ofInt w l >>> r.toNat) = l >>> r.toNat := by
          rw [wordValue, if_neg Bool.false_ne_true, BitVec.toNat_ushiftRight,
            Nat.shiftRight_eq_div_pow, Int.shiftRight_eq_div_pow, Int.natCast_ediv]
          exact congrArg (· / ((2 ^ r.toNat : Nat) : Int)) hvalue
        rw [Value.lit, Value.lit, Value.shiftRight, ← hshift, ofInt_wordValue]
    | _ => cases hty
  | false => rw [lit_of_not_isBits hty, lit_of_not_isBits hty, Value.shiftRight]

end Literal

end MatchAction
