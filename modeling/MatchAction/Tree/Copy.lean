import MatchAction.Tree.Program

namespace MatchAction

mutual
def Expr.copy : Expr → Supply Expr
  | .lit t v ty => return .lit (← Tag.fresh t.span) v ty
  | .bool t b => return .bool (← Tag.fresh t.span) b
  | .path t n => return .path (← Tag.fresh t.span) n
  | .member t b n => return .member (← Tag.fresh t.span) (← b.copy) n
  | .index t b i => return .index (← Tag.fresh t.span) (← b.copy) (← i.copy)
  | .call t c ts as => return .call (← Tag.fresh t.span) (← c.copy) ts (← Expr.copies as)
  | .construct t ty as => return .construct (← Tag.fresh t.span) ty (← Expr.copies as)
  | .unary t op e => return .unary (← Tag.fresh t.span) op (← e.copy)
  | .binary t op l r => return .binary (← Tag.fresh t.span) op (← l.copy) (← r.copy)
def Expr.copies : List Expr → Supply (List Expr)
  | [] => return []
  | e :: es => return (← e.copy) :: (← Expr.copies es)
end

def Expr.copy? : Option Expr → Supply (Option Expr)
  | none => return none
  | some e => return some (← e.copy)

def Key.copy (k : Key) : Supply Key := return ⟨← freshId, ← k.expr.copy, k.matchKind⟩

def Head.copy (h : Head) : Supply Head := Head.fresh h.name h.span

mutual
def Stmt.copy : Stmt → Supply Stmt
  | .block t b => return .block (← Tag.fresh t.span) (← b.copy)
  | .assign t l r => return .assign (← Tag.fresh t.span) (← l.copy) (← r.copy)
  | .call t e => return .call (← Tag.fresh t.span) (← e.copy)
  | .ifThen t c a none => return .ifThen (← Tag.fresh t.span) (← c.copy) (← a.copy) none
  | .ifThen t c a (some b) =>
    return .ifThen (← Tag.fresh t.span) (← c.copy) (← a.copy) (some (← b.copy))
  | .switch t e cs => return .switch (← Tag.fresh t.span) (← e.copy) (← Case.copies cs)
  | .decl t d => return .decl (← Tag.fresh t.span) (← d.copy)
  | .ret t e => return .ret (← Tag.fresh t.span) (← Expr.copy? e)
  | .exit t => return .exit (← Tag.fresh t.span)
  | .empty t => return .empty (← Tag.fresh t.span)
def Block.copy : Block → Supply Block
  | .mk _ ss => return .mk (← freshId) (← Stmt.copies ss)
def Stmt.copies : List Stmt → Supply (List Stmt)
  | [] => return []
  | s :: ss => return (← s.copy) :: (← Stmt.copies ss)
def Case.copies : List Case → Supply (List Case)
  | [] => return []
  | .run l b :: cs => return .run l (← b.copy) :: (← Case.copies cs)
  | .fallThrough l :: cs => return .fallThrough l :: (← Case.copies cs)
def Decl.copy : Decl → Supply Decl
  | .header h fs => return .header (← h.copy) fs
  | .struct h fs => return .struct (← h.copy) fs
  | .externType h tps cs ms => return .externType (← h.copy) tps cs ms
  | .externFn h m => return .externFn (← h.copy) m
  | .action h ps b => return .action (← h.copy) ps (← b.copy)
  | .table h ks as d =>
    return .table (← h.copy) (← ks.mapM Key.copy) (← Expr.copies as) (← Expr.copy? d)
  | .control h tps ps cps ls b =>
    return .control (← h.copy) tps ps cps (← Decl.copies ls) (← b.copy)
  | .package h tps ps => return .package (← h.copy) tps ps
  | .inst h t as => return .inst (← h.copy) t (← Expr.copies as)
  | .var h t e => return .var (← h.copy) t (← Expr.copy? e)
  | .const h t e => return .const (← h.copy) t (← e.copy)
def Decl.copies : List Decl → Supply (List Decl)
  | [] => return []
  | d :: ds => return (← d.copy) :: (← Decl.copies ds)
end

end MatchAction
