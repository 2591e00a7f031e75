import MatchAction.Edit.Basic
import MatchAction.Pipeline.Context
import MatchAction.Tree.Walk

/-!
Trees are compared part by part, so that an equation between closed ones can be decided. Types are
compared the same way, with all of the declarations in them and not by their identities alone.
-/

namespace MatchAction

deriving instance DecidableEq for Tag, Head, Label

mutual
def Expr.beq : Expr → Expr → Bool
  | .lit t v ty, .lit t' v' ty' => t == t' && v == v' && ty == ty'
  | .bool t v, .bool t' v' => t == t' && v == v'
  | .path t n, .path t' n' => t == t' && n == n'
  | .member t b n, .member t' b' n' => t == t' && b.beq b' && n == n'
  | .index t b i, .index t' b' i' => t == t' && b.beq b' && i.beq i'
  | .call t c ts as, .call t' c' ts' as' =>
    t == t' && c.beq c' && TypeExpr.beqs ts ts' && Expr.beqs as as'
  | .construct t ty as, .construct t' ty' as' => t == t' && ty == ty' && Expr.beqs as as'
  | .unary t o e, .unary t' o' e' => t == t' && o == o' && e.beq e'
  | .binary t o l r, .binary t' o' l' r' => t == t' && o == o' && l.beq l' && r.beq r'
  | _, _ => false
def Expr.beqs : List Expr → List Expr → Bool
  | [], [] => true
  | e :: es, e' :: es' => e.beq e' && Expr.beqs es es'
  | _, _ => false
end

mutual
theorem TypeExpr.beq_iff : (t u : TypeExpr) → (t.beq u ↔ t = u)
  | .bool, u | .int, u | .void, u => by cases u <;> simp [beq]
  | .bits .., u | .named .., u => by cases u <;> simp [beq]
  | .specialized _ as, u => by cases u <;> simp [beq, beqs_iff]
  | .stack e _, u => by cases u <;> simp [beq, beq_iff e]
theorem TypeExpr.beqs_iff : (ts us : List TypeExpr) → (beqs ts us ↔ ts = us)
  | [], us => by cases us <;> simp [beqs]
  | t :: ts, us => by cases us <;> simp [beqs, beq_iff t, beqs_iff ts]
end

instance : LawfulBEq TypeExpr where
  eq_of_beq := (TypeExpr.beq_iff _ _).1
  rfl := (TypeExpr.beq_iff _ _).2 rfl

mutual
theorem Expr.beq_iff : (e e' : Expr) → (e.beq e' ↔ e = e')
  | .lit .., e' | .bool .., e' | .path .., e' => by cases e' <;> simp [beq, and_assoc]
  | .member _ b _, e' => by cases e' <;> simp [beq, beq_iff b, and_assoc]
  | .index _ b i, e' => by cases e' <;> simp [beq, beq_iff b, beq_iff i, and_assoc]
  | .call _ c _ as, e' => by
    cases e' <;> simp [beq, beq_iff c, beqs_iff as, TypeExpr.beqs_iff, and_assoc]
  | .construct _ _ as, e' => by cases e' <;> simp [beq, beqs_iff as, and_assoc]
  | .unary _ _ e, e' => by cases e' <;> simp [beq, beq_iff e, and_assoc]
  | .binary _ _ l r, e' => by cases e' <;> simp [beq, beq_iff l, beq_iff r, and_assoc]
theorem Expr.beqs_iff : (es es' : List Expr) → (Expr.beqs es es' ↔ es = es')
  | [], es' => by cases es' <;> simp [Expr.beqs]
  | e :: es, es' => by cases es' <;> simp [Expr.beqs, Expr.beq_iff e, Expr.beqs_iff es]
end

instance : DecidableEq TypeExpr := fun t u => decidable_of_iff _ (TypeExpr.beq_iff t u)

instance : DecidableEq Expr := fun e e' => decidable_of_iff _ (Expr.beq_iff e e')

deriving instance DecidableEq for Param, Field, Method, Key

mutual
def Stmt.beq : Stmt → Stmt → Bool
  | .block t b, .block t' b' => t == t' && b.beq b'
  | .assign t l r, .assign t' l' r' => t == t' && l == l' && r == r'
  | .call t e, .call t' e' => t == t' && e == e'
  | .ifThen t c s o, .ifThen t' c' s' o' => t == t' && c == c' && s.beq s' && Stmt.beq? o o'
  | .switch t e cs, .switch t' e' cs' => t == t' && e == e' && Case.beqs cs cs'
  | .decl t d, .decl t' d' => t == t' && d.beq d'
  | .ret t e, .ret t' e' => t == t' && e == e'
  | .exit t, .exit t' | .empty t, .empty t' => t == t'
  | _, _ => false
def Stmt.beq? : Option Stmt → Option Stmt → Bool
  | none, none => true
  | some s, some s' => s.beq s'
  | _, _ => false
def Stmt.beqs : List Stmt → List Stmt → Bool
  | [], [] => true
  | s :: ss, s' :: ss' => s.beq s' && Stmt.beqs ss ss'
  | _, _ => false
def Block.beq : Block → Block → Bool
  | .mk i ss, .mk i' ss' => i == i' && Stmt.beqs ss ss'
def Case.beq : Case → Case → Bool
  | .run l b, .run l' b' => l == l' && b.beq b'
  | .fallThrough l, .fallThrough l' => l == l'
  | _, _ => false
def Case.beqs : List Case → List Case → Bool
  | [], [] => true
  | c :: cs, c' :: cs' => c.beq c' && Case.beqs cs cs'
  | _, _ => false
def Decl.beq : Decl → Decl → Bool
  | .header h fs, .header h' fs' | .struct h fs, .struct h' fs' => h == h' && fs == fs'
  | .externType h tps cs ms, .externType h' tps' cs' ms' =>
    h == h' && tps == tps' && cs == cs' && ms == ms'
  | .externFn h m, .externFn h' m' => h == h' && m == m'
  | .action h ps b, .action h' ps' b' => h == h' && ps == ps' && b.beq b'
  | .table h ks as d, .table h' ks' as' d' => h == h' && ks == ks' && as == as' && d == d'
  | .control h tps ps cps ls b, .control h' tps' ps' cps' ls' b' =>
    h == h' && tps == tps' && ps == ps' && cps == cps' && Decl.beqs ls ls' && b.beq b'
  | .package h tps ps, .package h' tps' ps' => h == h' && tps == tps' && ps == ps'
  | .inst h ty as, .inst h' ty' as' => h == h' && ty == ty' && as == as'
  | .var h ty e, .var h' ty' e' => h == h' && ty == ty' && e == e'
  | .const h ty e, .const h' ty' e' => h == h' && ty == ty' && e == e'
  | _, _ => false
def Decl.beqs : List Decl → List Decl → Bool
  | [], [] => true
  | d :: ds, d' :: ds' => d.beq d' && Decl.beqs ds ds'
  | _, _ => false
end

mutual
theorem Stmt.beq_iff : (s s' : Stmt) → (s.beq s' ↔ s = s')
  | .block _ b, s' => by cases s' <;> simp [Stmt.beq, b.beq_iff]
  | .assign .., s' | .call .., s' | .ret .., s' => by cases s' <;> simp [Stmt.beq, and_assoc]
  | .exit _, s' | .empty _, s' => by cases s' <;> simp [Stmt.beq]
  | .ifThen _ _ s o, s' => by
    cases s' <;> simp [Stmt.beq, s.beq_iff, Stmt.beq?_iff o, and_assoc]
  | .switch _ _ cs, s' => by cases s' <;> simp [Stmt.beq, Case.beqs_iff cs, and_assoc]
  | .decl _ d, s' => by cases s' <;> simp [Stmt.beq, d.beq_iff]
theorem Stmt.beq?_iff : (o o' : Option Stmt) → (Stmt.beq? o o' ↔ o = o')
  | none, o' => by cases o' <;> simp [Stmt.beq?]
  | some s, o' => by cases o' <;> simp [Stmt.beq?, s.beq_iff]
theorem Stmt.beqs_iff : (ss ss' : List Stmt) → (Stmt.beqs ss ss' ↔ ss = ss')
  | [], ss' => by cases ss' <;> simp [Stmt.beqs]
  | s :: ss, ss' => by cases ss' <;> simp [Stmt.beqs, s.beq_iff, Stmt.beqs_iff ss]
theorem Block.beq_iff : (b b' : Block) → (b.beq b' ↔ b = b')
  | .mk _ ss, b' => by cases b'; simp [Block.beq, Stmt.beqs_iff ss]
theorem Case.beq_iff : (c c' : Case) → (c.beq c' ↔ c = c')
  | .run _ b, c' => by cases c' <;> simp [Case.beq, b.beq_iff]
  | .fallThrough _, c' => by cases c' <;> simp [Case.beq]
theorem Case.beqs_iff : (cs cs' : List Case) → (Case.beqs cs cs' ↔ cs = cs')
  | [], cs' => by cases cs' <;> simp [Case.beqs]
  | c :: cs, cs' => by cases cs' <;> simp [Case.beqs, c.beq_iff, Case.beqs_iff cs]
theorem Decl.beq_iff : (d d' : Decl) → (d.beq d' ↔ d = d')
  | .header .., d' | .struct .., d' | .externFn .., d' => by cases d' <;> simp [Decl.beq]
  | .externType .., d' | .table .., d' | .package .., d' | .inst .., d' | .var .., d'
  | .const .., d' => by cases d' <;> simp [Decl.beq, and_assoc]
  | .action _ _ b, d' => by cases d' <;> simp [Decl.beq, b.beq_iff, and_assoc]
  | .control _ _ _ _ ls b, d' => by
    cases d' <;> simp [Decl.beq, Decl.beqs_iff ls, b.beq_iff, and_assoc]
theorem Decl.beqs_iff : (ds ds' : List Decl) → (Decl.beqs ds ds' ↔ ds = ds')
  | [], ds' => by cases ds' <;> simp [Decl.beqs]
  | d :: ds, ds' => by cases ds' <;> simp [Decl.beqs, d.beq_iff, Decl.beqs_iff ds]
end

instance : DecidableEq Stmt := fun s s' => decidable_of_iff _ (s.beq_iff s')

instance : DecidableEq Block := fun b b' => decidable_of_iff _ (b.beq_iff b')

instance : DecidableEq Decl := fun d d' => decidable_of_iff _ (d.beq_iff d')

deriving instance DecidableEq for Program, Visit, Referent, Scopes, Edit

mutual
def Ty.same : Ty → Ty → Bool
  | .bool, .bool | .int, .int | .void, .void | .error, .error => true
  | .bits w s, .bits w' s' => w == w' && s == s'
  | .decl d ts, .decl d' ts' => d == d' && Ty.sames ts ts'
  | .stack t n, .stack t' n' => t.same t' && n == n'
  | .param n, .param n' => n == n'
  | .method s, .method s' => s.same s'
  | .table d, .table d' | .applyResult d, .applyResult d' | .actionEnum d, .actionEnum d' => d == d'
  | _, _ => false
def Ty.sames : List Ty → List Ty → Bool
  | [], [] => true
  | t :: ts, t' :: ts' => t.same t' && Ty.sames ts ts'
  | _, _ => false
def Signature.same : Signature → Signature → Bool
  | .mk tps ps r, .mk tps' ps' r' => tps == tps' && ParamTy.sames ps ps' && r.same r'
def ParamTy.same : ParamTy → ParamTy → Bool
  | .mk n d t, .mk n' d' t' => n == n' && d == d' && t.same t'
def ParamTy.sames : List ParamTy → List ParamTy → Bool
  | [], [] => true
  | p :: ps, p' :: ps' => p.same p' && ParamTy.sames ps ps'
  | _, _ => false
end

mutual
theorem Ty.same_iff : (t u : Ty) → (t.same u ↔ t = u)
  | .bool, u | .int, u | .void, u | .error, u => by cases u <;> simp [Ty.same]
  | .bits .., u | .param _, u => by cases u <;> simp [Ty.same]
  | .table _, u | .applyResult _, u | .actionEnum _, u => by cases u <;> simp [Ty.same]
  | .decl _ ts, u => by cases u <;> simp [Ty.same, Ty.sames_iff ts]
  | .stack t _, u => by cases u <;> simp [Ty.same, t.same_iff]
  | .method s, u => by cases u <;> simp [Ty.same, s.same_iff]
theorem Ty.sames_iff : (ts us : List Ty) → (Ty.sames ts us ↔ ts = us)
  | [], us => by cases us <;> simp [Ty.sames]
  | t :: ts, us => by cases us <;> simp [Ty.sames, t.same_iff, Ty.sames_iff ts]
theorem Signature.same_iff : (s s' : Signature) → (s.same s' ↔ s = s')
  | .mk _ ps r, s' => by
    cases s'
    simp [Signature.same, ParamTy.sames_iff ps, r.same_iff, and_assoc]
theorem ParamTy.same_iff : (p p' : ParamTy) → (p.same p' ↔ p = p')
  | .mk _ _ t, p' => by
    cases p'
    simp [ParamTy.same, t.same_iff, and_assoc]
theorem ParamTy.sames_iff : (ps ps' : List ParamTy) → (ParamTy.sames ps ps' ↔ ps = ps')
  | [], ps' => by cases ps' <;> simp [ParamTy.sames]
  | p :: ps, ps' => by cases ps' <;> simp [ParamTy.sames, p.same_iff, ParamTy.sames_iff ps]
end

instance : DecidableEq Ty := fun t u => decidable_of_iff _ (t.same_iff u)

instance : DecidableEq Signature := fun s s' => decidable_of_iff _ (s.same_iff s')

deriving instance DecidableEq for TypeFault, TypeError

deriving instance DecidableEq for CallFault, ConstructFault, ClassificationError, CallKind, Call

deriving instance DecidableEq for Dependency.Cycle, Failure

end MatchAction
