import MatchAction.Tree.Program

namespace MatchAction

mutual
/-- The expression and everything below it, parents first. -/
def Expr.walk : Expr → List Expr
  | .member t b n => .member t b n :: b.walk
  | .index t b i => .index t b i :: (b.walk ++ i.walk)
  | .call t c ts as => .call t c ts as :: (c.walk ++ Expr.walks as)
  | .construct t ty as => .construct t ty as :: Expr.walks as
  | .unary t op e => .unary t op e :: e.walk
  | .binary t op l r => .binary t op l r :: (l.walk ++ r.walk)
  | e => [e]
def Expr.walks : List Expr → List Expr
  | [] => []
  | e :: es => e.walk ++ Expr.walks es
end

inductive Visit
  | enter (decl : Decl)
  | leave (decl : Decl)
  | block (block : Block)
  | stmt (stmt : Stmt)
  | key (key : Key)
  | expr (expr : Expr)

def Expr.visits (e : Expr) : List Visit := e.walk.map .expr

def Expr.visits? (e : Option Expr) : List Visit := (e.map visits).getD []

def Key.visits (k : Key) : List Visit := .key k :: k.expr.visits

mutual
def Stmt.visits : Stmt → List Visit
  | .block t b => .stmt (.block t b) :: b.visits
  | .assign t l r => .stmt (.assign t l r) :: (l.visits ++ r.visits)
  | .call t e => .stmt (.call t e) :: e.visits
  | .ifThen t c a none => .stmt (.ifThen t c a none) :: (c.visits ++ a.visits)
  | .ifThen t c a (some b) => .stmt (.ifThen t c a (some b)) :: (c.visits ++ a.visits ++ b.visits)
  | .switch t e cs => .stmt (.switch t e cs) :: (e.visits ++ Case.visits cs)
  | .decl t d => .stmt (.decl t d) :: d.visits
  | .ret t e => .stmt (.ret t e) :: Expr.visits? e
  | .exit t => [.stmt (.exit t)]
  | .empty t => [.stmt (.empty t)]
def Block.visits : Block → List Visit
  | .mk i ss => .block (.mk i ss) :: Stmt.allVisits ss
def Stmt.allVisits : List Stmt → List Visit
  | [] => []
  | s :: ss => s.visits ++ Stmt.allVisits ss
def Case.visits : List Case → List Visit
  | [] => []
  | .run _ b :: cs => b.visits ++ Case.visits cs
  | .fallThrough _ :: cs => Case.visits cs
def Decl.visits : Decl → List Visit
  | .action h ps b => .enter (.action h ps b) :: (b.visits ++ [.leave (.action h ps b)])
  | .table h ks as d =>
    .enter (.table h ks as d) :: (ks.flatMap Key.visits ++ (Expr.walks as).map .expr
      ++ Expr.visits? d ++ [.leave (.table h ks as d)])
  | .control h tps ps cps ls b =>
    .enter (.control h tps ps cps ls b) :: (Decl.allVisits ls ++ b.visits
      ++ [.leave (.control h tps ps cps ls b)])
  | .inst h t as =>
    .enter (.inst h t as) :: ((Expr.walks as).map .expr ++ [.leave (.inst h t as)])
  | .var h t e => .enter (.var h t e) :: (Expr.visits? e ++ [.leave (.var h t e)])
  | .const h t e => .enter (.const h t e) :: (e.visits ++ [.leave (.const h t e)])
  | d => [.enter d, .leave d]
def Decl.allVisits : List Decl → List Visit
  | [] => []
  | d :: ds => d.visits ++ Decl.allVisits ds
end

theorem Stmt.allVisits_append (as bs : List Stmt) :
    Stmt.allVisits (as ++ bs) = Stmt.allVisits as ++ Stmt.allVisits bs := by
  induction as with
  | nil => rfl
  | cons a as ih => simp [Stmt.allVisits, ih]

theorem Decl.allVisits_append (as bs : List Decl) :
    Decl.allVisits (as ++ bs) = Decl.allVisits as ++ Decl.allVisits bs := by
  induction as with
  | nil => rfl
  | cons a as ih => simp [Decl.allVisits, ih]

theorem Decl.mem_allVisits {ds : List Decl} {v : Visit} :
    v ∈ Decl.allVisits ds ↔ ∃ d ∈ ds, v ∈ d.visits := by
  induction ds with
  | nil => simp [Decl.allVisits]
  | cons d ds ih => simp [Decl.allVisits, ih]

theorem Decl.enter_mem_visits (d : Decl) : .enter d ∈ d.visits := by
  cases d <;> exact .head _

def Program.visits (p : Program) : List Visit := Decl.allVisits p.decls

namespace Visit

def decl? : Visit → Option Decl
  | .enter d => some d
  | _ => none

def stmt? : Visit → Option Stmt
  | .stmt s => some s
  | _ => none

def expr? : Visit → Option Expr
  | .expr e => some e
  | _ => none

/-- The identity of the node listed; leaving a declaration lists nothing new. -/
def id? : Visit → Option NodeId
  | .enter d => some d.id
  | .leave _ => none
  | .block b => some b.id
  | .stmt s => some s.id
  | .key k => some k.id
  | .expr e => some e.id

end Visit

/-- The identities of the nodes listed. -/
def nodeIds (vs : List Visit) : List NodeId := vs.filterMap Visit.id?

@[simp] theorem nodeIds_append (vs ws : List Visit) :
    nodeIds (vs ++ ws) = nodeIds vs ++ nodeIds ws := List.filterMap_append

theorem nodeIds_subset {vs ws : List Visit} (h : vs ⊆ ws) : nodeIds vs ⊆ nodeIds ws := by
  intro i hi
  obtain ⟨v, hv, he⟩ := List.mem_filterMap.1 hi
  exact List.mem_filterMap.2 ⟨v, h hv, he⟩

/-- All declarations of a program, at any depth. -/
def Program.allDecls (p : Program) : List Decl := p.visits.filterMap Visit.decl?

/-- The declaration with that identity, at any depth. -/
def Program.declOf? (p : Program) (id : NodeId) : Option Decl := p.allDecls.find? (·.id == id)

/-- What a block declares by statements, at any depth. -/
def Block.declared (b : Block) : List Decl :=
  b.visits.filterMap fun
    | .stmt (.decl _ d) => some d
    | _ => none

end MatchAction
