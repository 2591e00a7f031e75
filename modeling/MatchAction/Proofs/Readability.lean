import Mathlib.Data.List.TakeWhile
import MatchAction.Tree.Printer

namespace MatchAction

def Tag.absent : Tag := ⟨⟨0⟩, Option.none⟩

/-- Letters, digits and the underscore. Beyond ASCII every character counts as a letter. -/
def isWordChar (c : Char) : Bool := c.isAlphanum || c == '_' || 128 ≤ c.toNat

def IsIdentifier (s : String) : Prop :=
  (∀ c ∈ s.toList, isWordChar c) ∧ ∃ c ∈ s.toList.head?, c.isDigit = false

namespace Expr

mutual
def untagged : Expr → Expr
  | .lit _ v t => .lit .absent v t
  | .bool _ b => .bool .absent b
  | .path _ n => .path .absent n
  | .member _ b n => .member .absent b.untagged n
  | .index _ b i => .index .absent b.untagged i.untagged
  | .call _ c ts as => .call .absent c.untagged ts (allUntagged as)
  | .construct _ t as => .construct .absent t (allUntagged as)
  | .unary _ op e => .unary .absent op e.untagged
  | .binary _ op l r => .binary .absent op l.untagged r.untagged
def allUntagged : List Expr → List Expr
  | [] => []
  | e :: es => e.untagged :: allUntagged es
end

def isCallee : Expr → Bool
  | .path .. | .member .. | .index .. | .call .. => true
  | _ => false

inductive Plain : Expr → Prop
  | number (t : Tag) (n : Nat) : Plain (.lit t n .int)
  | sized (t : Tag) (n w : Nat) (s : Bool) : Plain (.lit t n (.bits w s))
  | bool (t : Tag) (b : Bool) : Plain (.bool t b)
  | path (t : Tag) : IsIdentifier n → n ≠ "true" → n ≠ "false" → Plain (.path t n)
  | member (t : Tag) : Plain b → b.isCallee || b.isBinary → IsIdentifier n → Plain (.member t b n)
  | index (t : Tag) : Plain b → b.isCallee || b.isBinary → Plain i → Plain (.index t b i)
  | call (t : Tag) : Plain c → c.isCallee → (∀ a ∈ as, Plain a) → Plain (.call t c [] as)
  | unary (t : Tag) (op : UnaryOp) : Plain e → Plain (.unary t op e)
  | binary (t : Tag) (op : BinaryOp) : Plain l → Plain r → Plain (.binary t op l r)

end Expr

namespace Reader

def number (ds : List Char) : Nat := Nat.ofDigitChars 10 ds 0

def atom? (w : List Char) : Option Expr :=
  match w.takeWhile Char.isDigit, w.dropWhile Char.isDigit with
  | [], [] => none
  | ds, [] => some (.lit .absent (number ds) .int)
  | [], w =>
    if w = "true".toList then some (.bool .absent true)
    else if w = "false".toList then some (.bool .absent false)
    else some (.path .absent (String.ofList w))
  | ds, c :: cs => some (.lit .absent (number cs) (.bits (number ds) (c == 's')))

def bounded (s : List Char) (x : Option (α × List Char)) :
    Option (α × {r : List Char // r.length ≤ s.length}) :=
  x.bind fun (a, r) => if h : r.length ≤ s.length then some (a, ⟨r, h⟩) else none

mutual
def expr (s : List Char) : Option (Expr × List Char) := do
  match ← bounded s (operand s) with
  | (l, ⟨' ' :: s, _⟩) =>
    let op ← BinaryOp.ofSymbol? (String.ofList (s.takeWhile (· != ' ')))
    let (r, s) ← operand ((s.dropWhile (· != ' ')).drop 1)
    return (.binary .absent op l r, s)
  | (l, s) => return (l, s)
termination_by 4 * s.length + 2
decreasing_by all_goals grind [List.length_dropWhile_le]
def operand (s : List Char) : Option (Expr × List Char) :=
  match s with
  | [] => none
  | c :: s =>
    if isWordChar c then do
      let e ← atom? ((c :: s).takeWhile isWordChar)
      suffixes e ((c :: s).dropWhile isWordChar)
    else if c = '(' then do
      let (e, ⟨s, _⟩) ← bounded s (expr s)
      suffixes e (s.drop 1)
    else do
      let op ← [UnaryOp.not, .neg, .complement].find? (·.symbol.toList = [c])
      let (e, s) ← operand s
      return (.unary .absent op e, s)
termination_by 4 * s.length + 1
decreasing_by all_goals grind [List.length_dropWhile_le]
def suffixes (e : Expr) (s : List Char) : Option (Expr × List Char) :=
  match s with
  | '.' :: s =>
    suffixes (.member .absent e (String.ofList (s.takeWhile isWordChar))) (s.dropWhile isWordChar)
  | '[' :: s => do
    let (i, ⟨s, _⟩) ← bounded s (expr s)
    suffixes (.index .absent e i) (s.drop 1)
  | '(' :: ')' :: s => suffixes (.call .absent e [] []) s
  | '(' :: s => do
    let (as, ⟨s, _⟩) ← bounded s (args s)
    suffixes (.call .absent e [] as) (s.drop 1)
  | s => some (e, s)
termination_by 4 * s.length
decreasing_by all_goals grind [List.length_dropWhile_le]
def args (s : List Char) : Option (List Expr × List Char) := do
  match ← bounded s (expr s) with
  | (e, ⟨',' :: s, _⟩) =>
    let (es, s) ← args (s.drop 1)
    return (e :: es, s)
  | (e, s) => return ([e], s)
termination_by 4 * s.length + 3
decreasing_by all_goals grind
end

theorem bounded_append (a : α) (w r : List Char) :
    bounded (w ++ r) (some (a, r)) = some (a, ⟨r, (List.suffix_append w r).length_le⟩) := by
  simp [bounded]

def Before (cs r : List Char) : Prop := ∀ c ∈ r.head?, c ∈ cs

def Apart (r : List Char) : Prop := ∀ c ∈ r.head?, isWordChar c = false

section

variable {p : Char → Bool} {w r : List Char} {e : Expr}

theorem takeWhile_word (hw : ∀ c ∈ w, p c = true) (hr : ∀ c ∈ r.head?, p c = false) :
    (w ++ r).takeWhile p = w ∧ (w ++ r).dropWhile p = r := by
  rw [List.takeWhile_append_of_pos hw, List.dropWhile_append_of_pos hw]
  cases r with
  | nil => simp
  | cons c r => simp [hr c rfl]

@[simp] theorem number_digits (n : Nat) : number (Nat.toDigits 10 n) = n :=
  Nat.ofDigitChars_ten_toDigits

theorem digits_isDigit (n : Nat) : ∀ c ∈ Nat.toDigits 10 n, c.isDigit = true :=
  fun _ hc => Nat.isDigit_of_mem_toDigits (by decide) (by decide) hc

theorem atom?_number (n : Nat) : atom? (Nat.toDigits 10 n) = some (.lit .absent n .int) := by
  obtain ⟨ht, hd⟩ := takeWhile_word (r := []) (digits_isDigit n) (by simp)
  rw [List.append_nil] at ht hd
  simp [atom?, ht, hd]

theorem atom?_sized (n w : Nat) (s : Bool) :
    atom? (Nat.toDigits 10 w ++ (if s then 's' else 'w') :: Nat.toDigits 10 n)
      = some (.lit .absent n (.bits w s)) := by
  obtain ⟨ht, hd⟩ := takeWhile_word (r := (if s then 's' else 'w') :: Nat.toDigits 10 n)
    (digits_isDigit w) (by cases s <;> simp)
  simp only [atom?, ht, hd]
  cases s <;> simp

theorem atom?_identifier (hn : IsIdentifier n) (ht : n ≠ "true") (hf : n ≠ "false") :
    atom? n.toList = some (.path .absent n) := by
  obtain ⟨-, c, hc, hd⟩ := hn
  obtain ⟨cs, hcs⟩ : ∃ cs, n.toList = c :: cs := List.head?_eq_some_iff.mp hc
  have hw : n.toList.takeWhile Char.isDigit = [] ∧ n.toList.dropWhile Char.isDigit = n.toList := by
    simp [hcs, hd]
  rw [atom?, hw.1, hw.2, hcs]
  simp only [← hcs, String.toList_inj, if_neg ht, if_neg hf, String.ofList_toList]

theorem operand_word (hw : ∀ c ∈ w, isWordChar c) (ha : atom? w = some e) (hr : Apart r) :
    operand (w ++ r) = suffixes e r := by
  obtain ⟨htake, hdrop⟩ := takeWhile_word hw hr
  cases w with
  | nil => simp [atom?] at ha
  | cons c w =>
    rw [List.cons_append] at htake hdrop ⊢
    rw [operand]
    simp only [hw c (by simp), if_true, htake, hdrop, ha, Option.bind_eq_bind, Option.bind_some]

theorem suffixes_end (hr : Before [' ', ',', ')', ']'] r) : suffixes e r = some (e, r) := by
  rw [suffixes.eq_def]
  split <;> simp_all [Before]

theorem expr_of_operand (h : operand (w ++ r) = some (e, r)) (hr : Before [',', ')', ']'] r) :
    expr (w ++ r) = some (e, r) := by
  rw [expr, h, bounded_append]
  simp only [Option.bind_eq_bind, Option.bind_some]
  split
  · simp_all [Before]
  · next heq =>
    cases heq
    rfl

end

/-- The reader finds the expression in its text, and goes on with what may grow around it. -/
structure Finds (e : Expr) : Prop where
  operand : ∀ r, Before [' ', ',', ')', ']'] r →
    operand ((e.asOperand e.text).toList ++ r) = some (e.untagged, r)
  expr : ∀ r, Before [',', ')', ']'] r → expr (e.text.toList ++ r) = some (e.untagged, r)
  grows : e.isCallee || e.isBinary → ∀ r, Apart r →
    Reader.operand ((e.asOperand e.text).toList ++ r) = suffixes e.untagged r

variable {a b c e i l r : Expr} {as : List Expr} {n : String}

theorem Finds.of_operand (hb : e.isBinary = false)
    (hend : ∀ r, Before [' ', ',', ')', ']'] r →
      Reader.operand (e.text.toList ++ r) = some (e.untagged, r))
    (hgrows : e.isCallee → ∀ r, Apart r →
      Reader.operand (e.text.toList ++ r) = suffixes e.untagged r) : Finds e := by
  have hop : e.asOperand e.text = e.text := by simp [Expr.asOperand, hb]
  refine ⟨hop.symm ▸ hend, fun r hr => expr_of_operand (hend r ?_) hr,
    fun h => hop.symm ▸ hgrows ?_⟩
  · exact fun c hc => List.mem_cons_of_mem _ (hr c hc)
  · simpa [hb] using h

theorem Finds.of_grows (hb : e.isBinary = false)
    (h : ∀ r, Apart r → Reader.operand (e.text.toList ++ r) = suffixes e.untagged r) : Finds e := by
  refine .of_operand hb (fun r hr => ?_) fun _ => h
  have hends : ∀ c ∈ [' ', ',', ')', ']'], isWordChar c = false := by simp [isWordChar]
  rw [h r fun c hc => hends c (hr c hc), suffixes_end hr]

theorem Finds.of_word (hb : e.isBinary = false) (ht : e.text.toList = w)
    (hw : ∀ c ∈ w, isWordChar c) (ha : atom? w = some e.untagged) : Finds e :=
  .of_grows hb fun _ hr => ht ▸ operand_word hw ha hr

theorem Finds.member (t : Tag) (hb : Finds b) (h : b.isCallee || b.isBinary) (hn : IsIdentifier n) :
    Finds (.member t b n) := by
  refine .of_grows rfl fun r hr => ?_
  obtain ⟨htake, hdrop⟩ := takeWhile_word hn.1 hr
  have hg := hb.grows h ('.' :: (n.toList ++ r)) (by simp [Apart, isWordChar])
  simp only [Expr.text, String.toList_append, List.append_assoc]
  simp only [String.reduceToList, List.cons_append, List.nil_append, hg]
  rw [suffixes, htake, hdrop, String.ofList_toList, Expr.untagged]

theorem Finds.index (t : Tag) (hb : Finds b) (h : b.isCallee || b.isBinary) (hi : Finds i) :
    Finds (.index t b i) := by
  refine .of_grows rfl fun r hr => ?_
  have hg := hb.grows h ('[' :: (i.text.toList ++ ']' :: r)) (by simp [Apart, isWordChar])
  have hx := hi.expr (']' :: r) (by simp [Before])
  simp only [Expr.text, String.toList_append, List.append_assoc]
  simp only [String.reduceToList, List.cons_append, List.nil_append, hg]
  rw [suffixes, hx, bounded_append]
  rfl

theorem Finds.unary (t : Tag) (op : UnaryOp) (he : Finds e) : Finds (.unary t op e) := by
  refine .of_operand rfl (fun r hr => ?_) fun h => by simp [Expr.isCallee] at h
  have hx := he.operand r hr
  cases op <;>
    simp [Expr.text, UnaryOp.symbol, Reader.operand, isWordChar, hx, Expr.untagged]

theorem expr_binary (t : Tag) (op : BinaryOp) (hl : Finds l) (hr : Finds r) (s : List Char)
    (hs : Before [',', ')', ']'] s) :
    expr ((Expr.binary t op l r).text.toList ++ s) = some ((Expr.binary t op l r).untagged, s) := by
  have hleft := hl.operand (' ' :: (op.symbol.toList ++ ' ' :: ((r.asOperand r.text).toList ++ s)))
    (by simp [Before])
  have hright := hr.operand s fun c hc => List.mem_cons_of_mem _ (hs c hc)
  have hsym : ∀ c ∈ op.symbol.toList, (c != ' ') = true := by cases op <;> simp [BinaryOp.symbol]
  have hop : BinaryOp.ofSymbol? op.symbol = some op := by cases op <;> rfl
  obtain ⟨htake, hdrop⟩ := takeWhile_word hsym
    (r := ' ' :: ((r.asOperand r.text).toList ++ s)) (by simp)
  simp only [Expr.text, String.toList_append, List.append_assoc]
  simp only [String.reduceToList, List.cons_append, List.nil_append]
  rw [expr, hleft, bounded_append]
  simp [htake, hdrop, hop, hright, Expr.untagged]

theorem Finds.binary (t : Tag) (op : BinaryOp) (hl : Finds l) (hr : Finds r) :
    Finds (.binary t op l r) := by
  have hgrows : ∀ s, Reader.operand (((Expr.binary t op l r).asOperand
      (Expr.binary t op l r).text).toList ++ s) = suffixes (Expr.binary t op l r).untagged s := by
    intro s
    have hx := expr_binary t op hl hr (')' :: s) (by simp [Before])
    simp [Expr.asOperand, Expr.isBinary, Reader.operand, isWordChar, hx, bounded_append]
  exact ⟨fun s hs => by rw [hgrows, suffixes_end hs], expr_binary t op hl hr, fun _ s _ => hgrows s⟩

theorem args_text (has : ∀ x ∈ a :: as, Finds x) (s : List Char) :
    args ((Expr.argsText (a :: as)).toList ++ ')' :: s)
      = some (Expr.allUntagged (a :: as), ')' :: s) := by
  induction as generalizing a with
  | nil =>
    have hx := (has a (by simp)).expr (')' :: s) (by simp [Before])
    rw [args, show Expr.argsText [a] =
      a.text by simp [Expr.argsText, Expr.texts], hx, bounded_append]
    rfl
  | cons b as ih =>
    have hx := (has a (by simp)).expr (',' :: ' ' :: ((Expr.argsText (b :: as)).toList ++ ')' :: s))
      (by simp [Before])
    have hi := ih fun x hx => has x (List.mem_cons_of_mem a hx)
    have htext : (Expr.argsText (a :: b :: as)).toList
        = a.text.toList ++ ',' :: ' ' :: (Expr.argsText (b :: as)).toList := by
      simp [Expr.argsText, Expr.texts]
    rw [htext, List.append_assoc, List.cons_append, List.cons_append, args, hx, bounded_append]
    simp [hi, Expr.allUntagged]

theorem args_close (s : List Char) : args (')' :: s) = none := by
  rw [args, expr, operand]
  simp [bounded, isWordChar, UnaryOp.symbol]

theorem Finds.call (t : Tag) (hc : Finds c) (h : c.isCallee) (has : ∀ a ∈ as, Finds a) :
    Finds (.call t c [] as) := by
  refine .of_grows rfl fun r hr => ?_
  have hop : c.asOperand c.text = c.text := by
    cases c <;> simp [Expr.isCallee] at h <;> rfl
  have hg := hc.grows (by simp [h]) ('(' :: ((Expr.argsText as).toList ++ ')' :: r))
    (by simp [Apart, isWordChar])
  have htext : (Expr.call t c [] as).text.toList ++ r
      = c.text.toList ++ '(' :: ((Expr.argsText as).toList ++ ')' :: r) := by
    simp [Expr.text, Expr.argsText]
  rw [htext, ← hop, hg]
  cases as with
  | nil =>
    change suffixes c.untagged ('(' :: ')' :: r) = _
    rw [suffixes]
    rfl
  | cons a as =>
    have hx := args_text has r
    rw [suffixes, hx, bounded_append]
    · rfl
    · -- No argument starts with the bracket that ends the list.
      intro s hs
      rw [hs, args_close] at hx
      cases hx

theorem digits_word (n : Nat) : ∀ c ∈ Nat.toDigits 10 n, isWordChar c = true := by
  intro c hc
  simp [isWordChar, Char.isAlphanum, digits_isDigit n c hc]

theorem finds (h : e.Plain) : Finds e := by
  induction h with
  | number t n =>
    refine .of_word rfl ?_ (digits_word n) (atom?_number n)
    exact (congrArg String.toList Nat.toString_eq_ofList_toDigits).trans String.toList_ofList
  | sized t n w s =>
    refine .of_word rfl ?_ ?_ (atom?_sized n w s)
    · cases s <;> simp [Expr.text, literalText]
    · refine List.forall_mem_append.mpr
        ⟨digits_word w, List.forall_mem_cons.mpr ⟨?_, digits_word n⟩⟩
      cases s <;> simp [isWordChar]
  | bool t b =>
    cases b with
    | false =>
      exact .of_word (w := "false".toList) rfl rfl (by simp [isWordChar])
        (by simp [atom?, Expr.untagged])
    | true =>
      exact .of_word (w := "true".toList) rfl rfl (by simp [isWordChar])
        (by simp [atom?, Expr.untagged])
  | path t hn ht hf => exact .of_word rfl rfl hn.1 (atom?_identifier hn ht hf)
  | member t _ hb hn ih => exact ih.member t hb hn
  | index t _ hb _ ihb ihi => exact ihb.index t hb ihi
  | call t _ hc _ ihc ihas => exact ihc.call t hc ihas
  | unary t op _ ih => exact ih.unary t op
  | binary t op _ _ ihl ihr => exact ihl.binary t op ihr

end Reader

namespace Expr

mutual
theorem text_untagged : (e : Expr) → e.untagged.text = e.text
  | .lit .. | .bool .. | .path .. => rfl
  | .member _ b _ => by simp only [untagged, text, asOperand_untagged b]
  | .index _ b i => by simp only [untagged, text, asOperand_untagged b, text_untagged i]
  | .call _ c _ as => by simp only [untagged, text, text_untagged c, texts_untagged as]
  | .construct _ _ as => by simp only [untagged, text, texts_untagged as]
  | .unary _ _ e => by simp only [untagged, text, asOperand_untagged e]
  | .binary _ _ l r => by simp only [untagged, text, asOperand_untagged l, asOperand_untagged r]
theorem asOperand_untagged (e : Expr) :
    e.untagged.asOperand e.untagged.text = e.asOperand e.text := by
  rw [text_untagged e]
  cases e <;> rfl
theorem texts_untagged : (es : List Expr) → texts (allUntagged es) = texts es
  | [] => rfl
  | e :: es => by rw [allUntagged, texts, texts, text_untagged e, texts_untagged es]
end

/-- Expressions that print the same text are the same up to identities and positions. -/
theorem text_unambiguous {e e' : Expr} (h : e.Plain) (h' : e'.Plain) :
    e.text = e'.text ↔ e.untagged = e'.untagged := by
  constructor
  · intro htext
    have hread := (Reader.finds h).expr [] (by simp [Reader.Before])
    rw [htext, (Reader.finds h').expr [] (by simp [Reader.Before])] at hread
    simpa using hread.symm
  · intro hsame
    rw [← e.text_untagged, hsame, e'.text_untagged]

def negatedMember (t : Tag) : Expr :=
  .unary t .not (.call t
    (.member t (.binary t .add (.path t "a") (.lit t 5 (.bits 8 false))) "f") []
    [.unary t .neg (.path t "x")])

theorem negatedMember_plain (t : Tag) : (negatedMember t).Plain := by
  have path : ∀ n ∈ ["a", "x"], Plain (.path t n) := by
    intro n hn
    refine .path t ?_ ?_ ?_ <;> revert n <;> simp [IsIdentifier, isWordChar]
  refine .unary t _ (.call t
    (.member t (.binary t _ (path _ (by simp)) (.sized t 5 8 false)) rfl ?_) rfl ?_)
  · simp [IsIdentifier, isWordChar]
  · rintro _ (_ | ⟨_, ⟨⟩⟩)
    exact .unary t _ (path _ (by simp))

theorem negatedMember_unambiguous :
    let e := negatedMember ⟨⟨1⟩, some ⟨0, 4, 9, by decide⟩⟩
    let e' := negatedMember ⟨⟨2⟩, none⟩
    e.Plain ∧ e'.Plain ∧ e.text = e'.text ∧ e.untagged = e'.untagged :=
  ⟨negatedMember_plain _, negatedMember_plain _, rfl,
    (text_unambiguous (negatedMember_plain _) (negatedMember_plain _)).mp rfl⟩

end Expr

end MatchAction
