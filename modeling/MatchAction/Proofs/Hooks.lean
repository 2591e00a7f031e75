import Mathlib.Data.List.Forall2
import MatchAction.Edit.Editor

/-!
Hook calls. Every call of a hook is recorded with the node it is made on and with what the hook made
of the node. Recording leaves a traversal as it is, and the calls of a traversal follow the tree: a
node is entered, what is below it is visited in source order, and the node is left.
-/

namespace MatchAction

open List

inductive Node
  | decl (decl : Decl)
  | block (block : Block)
  | stmt (stmt : Stmt)
  | key (key : Key)
  | expr (expr : Expr)

def Case.body? : Case → Option Block
  | .run _ b => some b
  | .fallThrough _ => none

def Expr.hole : Expr := .bool ⟨⟨0⟩, none⟩ false

def Case.shell : Case → Case
  | .run l _ => .run l (.mk ⟨0⟩ [])
  | .fallThrough l => .fallThrough l

namespace Node

def children : Node → List Node
  | .decl (.action _ _ b) => [.block b]
  | .decl (.table _ ks as d) => ks.map .key ++ (as.map .expr ++ d.toList.map .expr)
  | .decl (.control _ _ _ _ ls b) => ls.map .decl ++ [.block b]
  | .decl (.inst _ _ as) => as.map .expr
  | .decl (.var _ _ e) => e.toList.map .expr
  | .decl (.const _ _ e) => [.expr e]
  | .decl _ => []
  | .block b => b.stmts.map .stmt
  | .stmt (.block _ b) => [.block b]
  | .stmt (.assign _ l r) => [.expr l, .expr r]
  | .stmt (.call _ e) => [.expr e]
  | .stmt (.ifThen _ c a none) => [.expr c, .stmt a]
  | .stmt (.ifThen _ c a (some b)) => [.expr c, .stmt a, .stmt b]
  | .stmt (.switch _ e cs) => .expr e :: (cs.filterMap Case.body?).map .block
  | .stmt (.decl _ d) => [.decl d]
  | .stmt (.ret _ e) => e.toList.map .expr
  | .stmt _ => []
  | .key k => [.expr k.expr]
  | .expr (.member _ b _) => [.expr b]
  | .expr (.index _ b i) => [.expr b, .expr i]
  | .expr (.call _ c _ as) => .expr c :: as.map .expr
  | .expr (.construct _ _ as) => as.map .expr
  | .expr (.unary _ _ e) => [.expr e]
  | .expr (.binary _ _ l r) => [.expr l, .expr r]
  | .expr _ => []

/-- The node without what is below it: its kind, identity, position and all else that it says. -/
def shell : Node → Node
  | .decl (.action h ps _) => .decl (.action h ps (.mk ⟨0⟩ []))
  | .decl (.table h _ _ d) => .decl (.table h [] [] (d.map fun _ => .hole))
  | .decl (.control h tps ps cps _ _) => .decl (.control h tps ps cps [] (.mk ⟨0⟩ []))
  | .decl (.inst h ty _) => .decl (.inst h ty [])
  | .decl (.var h ty e) => .decl (.var h ty (e.map fun _ => .hole))
  | .decl (.const h ty _) => .decl (.const h ty .hole)
  | .decl d => .decl d
  | .block b => .block (.mk b.id [])
  | .stmt (.block t _) => .stmt (.block t (.mk ⟨0⟩ []))
  | .stmt (.assign t _ _) => .stmt (.assign t .hole .hole)
  | .stmt (.call t _) => .stmt (.call t .hole)
  | .stmt (.ifThen t _ _ none) => .stmt (.ifThen t .hole (.empty ⟨⟨0⟩, none⟩) none)
  | .stmt (.ifThen t _ _ (some _)) =>
    .stmt (.ifThen t .hole (.empty ⟨⟨0⟩, none⟩) (some (.empty ⟨⟨0⟩, none⟩)))
  | .stmt (.switch t _ cs) => .stmt (.switch t .hole (cs.map Case.shell))
  | .stmt (.decl t _) => .stmt (.decl t (.var ⟨⟨0⟩, "", none⟩ .bool none))
  | .stmt (.ret t e) => .stmt (.ret t (e.map fun _ => .hole))
  | .stmt s => .stmt s
  | .key k => .key { k with expr := .hole }
  | .expr (.member t _ n) => .expr (.member t .hole n)
  | .expr (.index t _ _) => .expr (.index t .hole .hole)
  | .expr (.call t _ ts _) => .expr (.call t .hole ts [])
  | .expr (.construct t ty _) => .expr (.construct t ty [])
  | .expr (.unary t op _) => .expr (.unary t op .hole)
  | .expr (.binary t op _ _) => .expr (.binary t op .hole .hole)
  | .expr e => .expr e

end Node

inductive Moment
  | entering
  | leaving

inductive Reply
  | same
  | pruned
  | into (node : Node)
  | swapped (node : Node)
  | became (nodes : Splice Node)

structure HookCall where
  moment : Moment
  node : Node
  reply : Reply

def Quiet (calls : List HookCall) : Prop := ∀ c ∈ calls, c.reply = .same ∨ c.reply = .pruned

def Node.entry : Node → List HookCall
  | .decl d => [⟨.entering, .decl d, .same⟩]
  | .stmt s => [⟨.entering, .stmt s, .same⟩]
  | .expr e => [⟨.entering, .expr e, .same⟩]
  | .block _ | .key _ => []

section

variable {α : Type}

def Entry.reply (node : α → Node) : Entry α → Reply
  | .descend => .same
  | .prune => .pruned
  | .into a => .into (node a)
  | .swap a => .swapped (node a)

def Splice.reply (node : α → Node) : Splice α → Reply
  | [.keep] => .same
  | xs => .became (xs.map (·.map node))

def Edit.reply (node : α → Node) (x : Edit α) : Reply := Splice.reply node [x]

def KeyEdit.reply (k : Key) (x : KeyEdit) : Reply :=
  if x.id = k.id ∧ x.matchKind = k.matchKind ∧ x.expr.isKeep then .same
  else .became [.put (.key ⟨x.id, x.expr.get k.expr, x.matchKind⟩)]

end

section

variable {σ α : Type}

def Editing.recorded (call : α → HookCall) (x : Editing σ α) : Editing (σ × List HookCall) α :=
  fun s n => let r := x s.1 n
    ((r.1.1, r.1.2, s.2 ++ [call r.1.1]), r.2)

namespace Editor

variable (w : Editor σ)

def recorded : Editor (σ × List HookCall) where
  enterDecl d := .recorded (fun x => ⟨.entering, .decl d, x.reply .decl⟩) (w.enterDecl d)
  leaveDecl d := .recorded (fun x => ⟨.leaving, .decl d, Splice.reply .decl x⟩) (w.leaveDecl d)
  enterStmt s := .recorded (fun x => ⟨.entering, .stmt s, x.reply .stmt⟩) (w.enterStmt s)
  leaveStmt s := .recorded (fun x => ⟨.leaving, .stmt s, Splice.reply .stmt x⟩) (w.leaveStmt s)
  leaveBlock b := .recorded (fun x => ⟨.leaving, .block b, x.reply .block⟩) (w.leaveBlock b)
  leaveKey k := .recorded (fun x => ⟨.leaving, .key k, x.reply k⟩) (w.leaveKey k)
  enterExpr e := .recorded (fun x => ⟨.entering, .expr e, x.reply .expr⟩) (w.enterExpr e)
  leaveExpr e := .recorded (fun x => ⟨.leaving, .expr e, x.reply .expr⟩) (w.leaveExpr e)

def Replies : HookCall → Prop
  | ⟨.entering, .decl d, r⟩ => ∃ s n, (w.enterDecl d s n).1.1.reply .decl = r
  | ⟨.leaving, .decl d, r⟩ => ∃ s n, Splice.reply .decl (w.leaveDecl d s n).1.1 = r
  | ⟨.entering, .stmt t, r⟩ => ∃ s n, (w.enterStmt t s n).1.1.reply .stmt = r
  | ⟨.leaving, .stmt t, r⟩ => ∃ s n, Splice.reply .stmt (w.leaveStmt t s n).1.1 = r
  | ⟨.leaving, .block b, r⟩ => ∃ s n, (w.leaveBlock b s n).1.1.reply .block = r
  | ⟨.leaving, .key k, r⟩ => ∃ s n, (w.leaveKey k s n).1.1.reply k = r
  | ⟨.entering, .expr e, r⟩ => ∃ s n, (w.enterExpr e s n).1.1.reply .expr = r
  | ⟨.leaving, .expr e, r⟩ => ∃ s n, (w.leaveExpr e s n).1.1.reply .expr = r
  | ⟨.entering, .block _, _⟩ | ⟨.entering, .key _, _⟩ => False

end Editor

end

def Splice.isKept {α : Type} : Splice α → Bool
  | [.keep] => true
  | _ => false

inductive Fills (s : Stmt) : Splice Stmt → Edit Stmt → Prop
  | one (x : Edit Stmt) : Fills s [x] x
  | none (t : Tag) : Fills s [] (.put (.empty t))
  | several (t : Tag) (i : NodeId) {xs : Splice Stmt} (h : 2 ≤ xs.length) :
    Fills s xs (.put (.block t (.mk i (xs.map (·.get s)))))

/-- What becomes of a statement whose declaration turns into none or several. The first takes over
the statement. -/
inductive Expands (t : Tag) (d : Decl) : Splice Decl → Splice Stmt → Prop
  | none : Expands t d [] []
  | several {x : Edit Decl} {xs : Splice Decl} {ys : Splice Stmt} (h : xs ≠ [])
    (hys : List.Forall₂ (fun x y => ∃ t', y = .put (.decl t' (x.get d))) xs ys) :
    Expands t d (x :: xs) (.put (.decl t (x.get d)) :: ys)

/-- What the hook at the end made of a node. -/
def HookCall.outcome (c : HookCall) : Splice Node :=
  match c.reply with
  | .became ms => ms
  | _ => [.keep]

/-- What nodes become that are left one after the other. -/
def leftAs (xs : Splice Node) (ends : List HookCall) : Splice Node :=
  (List.zipWith (fun x c => c.outcome.map x.andThen) xs ends).flatten

mutual
/-- A node is visited with these hook calls and becomes these, where replacements nest at most `k`
deep. -/
inductive Visited : Nat → Node → List HookCall → Splice Node → Prop
  | pruned (k : Nat) (n : Node) : Visited k n [⟨.entering, n, .pruned⟩] [.keep]
  | swapped (k : Nat) (n m : Node) : Visited k n [⟨.entering, n, .swapped m⟩] [.put m]
  | replaced {k : Nat} (n : Node) {m : Node} {calls : List HookCall} {ms : List Node}
    (h : GoneOn k m calls ms) : Visited k n (⟨.entering, n, .into m⟩ :: calls) (ms.map .put)
  | passed {k : Nat} {n : Node} {calls : List HookCall} {xs : Splice Node}
    (h : Passed k n calls xs) : Visited k n (n.entry ++ calls) xs
/-- A node that took the place of another is visited like it, unless it is nested too deep. -/
inductive GoneOn : Nat → Node → List HookCall → List Node → Prop
  | stop (m : Node) : GoneOn 0 m [] [m]
  | visit {k : Nat} {m : Node} {calls : List HookCall} {xs : Splice Node}
    (h : Passed k m calls xs) : GoneOn (k + 1) m calls (xs.map (·.get m))
/-- What is below a node is visited, and then the node is left. The hooks called at the end see what
the parts were put together to. A node that no hook changes anything about is shared. -/
inductive Passed : Nat → Node → List HookCall → Splice Node → Prop
  | mk {k : Nat} {n : Node} {calls : List HookCall} {xs : Splice Node} {ends : List HookCall}
    (h : Assembled k n calls xs)
    (hends : List.Forall₂ (fun x c => c.moment = .leaving ∧ c.node = x.get n) xs ends)
    (hshared : Quiet (calls ++ ends) → leftAs xs ends = [.keep]) :
    Passed k n (calls ++ ends) (leftAs xs ends)
/-- What is below the node is visited with these hook calls, and put together to these: a node that
differs only below, or the statements that take the place of a declaration. -/
inductive Assembled : Nat → Node → List HookCall → Splice Node → Prop
  | whole {k : Nat} {n : Node} {calls : List HookCall} {x : Edit Node}
    (hshell : (x.get n).shell = n.shell)
    (hbelow : VisitedAll k n.children calls (x.get n).children x.isKeep) : Assembled k n calls [x]
  | expanded {k : Nat} {t : Tag} {d : Decl} {calls : List HookCall} {ds : Splice Decl}
    {xs : Splice Stmt} (h : Visited k (.decl d) calls (ds.map (·.map .decl)))
    (hxs : Expands t d ds xs) : Assembled k (.stmt (.decl t d)) calls (xs.map (·.map .stmt))
inductive VisitedAll : Nat → List Node → List HookCall → List Node → Bool → Prop
  | nil (k : Nat) : VisitedAll k [] [] [] true
  | cons {k : Nat} {n : Node} {calls : List HookCall} {xs : Splice Node} {ns : List Node}
    {rest : List HookCall} {ms : List Node} {kept : Bool} (h : Visited k n calls xs)
    (hs : VisitedAll k ns rest ms kept) :
    VisitedAll k (n :: ns) (calls ++ rest) (xs.map (·.get n) ++ ms) (xs.isKept && kept)
  | slot {k : Nat} {s : Stmt} {calls : List HookCall} {xs : Splice Stmt} {x : Edit Stmt}
    {ns : List Node} {rest : List HookCall} {ms : List Node} {kept : Bool}
    (h : Visited k (.stmt s) calls (xs.map (·.map .stmt))) (hx : Fills s xs x)
    (hs : VisitedAll k ns rest ms kept) :
    VisitedAll k (.stmt s :: ns) (calls ++ rest) (.stmt (x.get s) :: ms) (x.isKeep && kept)
end

variable {depth : Nat}

theorem VisitedAll.append
    (h' : VisitedAll depth ns' calls' ms' kept') : {ns ms : List Node} → {calls : List HookCall} →
    {kept : Bool} → VisitedAll depth ns calls ms kept →
    VisitedAll depth (ns ++ ns') (calls ++ calls') (ms ++ ms') (kept && kept')
  | _, _, _, _, .nil _ => h'
  | _, _, _, _, .cons hn hs => by
    rw [append_assoc, append_assoc, Bool.and_assoc]
    exact .cons hn (VisitedAll.append h' hs)
  | _, _, _, _, .slot hn hx hs => by
    rw [append_assoc, Bool.and_assoc]
    exact .slot hn hx (VisitedAll.append h' hs)

theorem Edit.isKeep_map {α β : Type} (f : α → β) (x : Edit α) : (x.map f).isKeep = x.isKeep := by
  cases x <;> rfl

theorem Edit.eq_keep_of_isKeep {α : Type} {x : Edit α} (h : x.isKeep = true) : x = .keep := by
  cases x with
  | keep => rfl
  | put a => cases h

variable {xs : Splice Node}

theorem Visited.shared (h : Visited depth n calls xs) (hquiet : Quiet calls) : xs = [.keep] := by
  cases h with
  | pruned => rfl
  | swapped => exact ((hquiet _ (.head _)).elim nofun nofun)
  | replaced => exact ((hquiet _ (.head _)).elim nofun nofun)
  | passed h =>
    obtain ⟨h, hends, hshared⟩ := h
    exact hshared (forall_mem_append.1 hquiet).2

theorem VisitedAll.shared : {ns ms : List Node} → {calls : List HookCall} → {kept : Bool} →
    VisitedAll depth ns calls ms kept → Quiet calls → kept = true
  | _, _, _, _, .nil _, _ => rfl
  | _, _, _, _, .cons hn hs, hquiet => by
    obtain ⟨hquiet, hrest⟩ := forall_mem_append.1 hquiet
    rw [hn.shared hquiet, hs.shared hrest]
    rfl
  | _, _, _, _, @VisitedAll.slot _ _ _ xs _ _ _ _ _ hn hx hs, hquiet => by
    obtain ⟨hquiet, hrest⟩ := forall_mem_append.1 hquiet
    obtain ⟨x, rfl⟩ : ∃ x, xs = [x] := length_eq_one_iff.1 (by
      simpa using congrArg List.length (hn.shared hquiet))
    have hkeep : x.map Node.stmt = .keep := head_eq_of_cons_eq (hn.shared hquiet)
    cases hx with
    | one =>
      rw [← Edit.isKeep_map Node.stmt, hkeep, hs.shared hrest]
      rfl
    | several t i h => simp at h

theorem Assembled.shared {n : Node} {calls : List HookCall}
    (h : Assembled depth n calls xs) (hquiet : Quiet calls) : xs = [.keep] := by
  cases h with
  | whole hshell hbelow => rw [Edit.eq_keep_of_isKeep (hbelow.shared hquiet)]
  | expanded h hxs =>
    have hds := congrArg List.length (h.shared hquiet)
    cases hxs with
    | none => simp at hds
    | several h => simp_all

theorem outcome_of_quiet {c : HookCall} (h : c.reply = .same ∨ c.reply = .pruned) :
    c.outcome = [.keep] := by
  obtain ⟨moment, node, reply⟩ := c
  rcases h with h | h <;> cases h <;> rfl

theorem leftAs_of_quiet (h : List.Forall₂ R xs ends) (hquiet : Quiet ends) :
    leftAs xs ends = xs := by
  induction h with
  | nil => rfl
  | @cons x c xs ends _ _ ih =>
    obtain ⟨hc, hquiet⟩ := forall_mem_cons.1 hquiet
    have hcons : leftAs (x :: xs) (c :: ends) = c.outcome.map x.andThen ++ leftAs xs ends := rfl
    rw [hcons, outcome_of_quiet hc, ih hquiet]
    exact congrArg (· :: xs) (Edit.andThen_keep x)

theorem Passed.ofAssembled (h : Assembled depth n calls xs)
    (hends : List.Forall₂ (fun x c => c.moment = .leaving ∧ c.node = x.get n) xs ends)
    (hys : ys = leftAs xs ends) : Passed depth n (calls ++ ends) ys := by
  subst hys
  refine .mk h hends fun hquiet => ?_
  obtain ⟨hcalls, hquiet⟩ := forall_mem_append.1 hquiet
  rw [leftAs_of_quiet hends hquiet, h.shared hcalls]

theorem Edit.isKeep_map₂ {α β γ : Type} (f : α → β → γ) (a : α) (b : β) (x : Edit α) (y : Edit β) :
    (x.map₂ f a b y).isKeep = (x.isKeep && y.isKeep) := by
  cases x <;> cases y <;> rfl

theorem Splice.isKeep_toEdit {α : Type} (a : α) (xs : Splice α) :
    (Splice.toEdit a xs).isKeep = xs.isKept := by
  unfold Splice.toEdit
  split <;> simp_all [Splice.isKept, Edit.isKeep]

theorem Splice.map_andThen {α : Type} (node : α → Node) (n : Node) (x : Edit α) (ys : Splice α) :
    (ys.map x.andThen).map (·.map node) =
      (HookCall.outcome ⟨.leaving, n, Splice.reply node ys⟩).map (x.map node).andThen := by
  have hmap (y : Edit α) : (x.andThen y).map node = (x.map node).andThen (y.map node) := by
    cases y with
    | keep => rw [Edit.andThen_keep]; exact (Edit.andThen_keep _).symm
    | put b => cases x <;> rfl
  have hall : (ys.map x.andThen).map (·.map node) =
      (ys.map (·.map node)).map (x.map node).andThen := by
    rw [map_map, map_map]
    exact map_congr_left fun y _ => hmap y
  rw [hall]
  unfold Splice.reply HookCall.outcome
  split <;> rename_i h <;> split at h <;> simp_all

theorem leftAs_edit {α : Type} {node : α → Node} (n : Node) (x y : Edit α) :
    [(x.andThen y).map node] = leftAs [x.map node] [⟨.leaving, n, y.reply node⟩] :=
  (Splice.map_andThen node n x [y]).trans (append_nil _).symm

/-- A node is visited, or gone on with after its first hook. -/
def Edited (depth : Nat) : Bool → Node → List HookCall → Splice Node → Prop
  | true => Passed depth
  | false => Visited depth

/-- `y` does what `x` does and adds hook calls to the record, of which `P` holds together with what
is returned. -/
structure Editor.Traces {σ α : Type} (w : Editor σ) (y : Editing (σ × List HookCall) α)
    (x : Editing σ α) (P : List HookCall → α → Prop) : Prop where
  run : ∀ s record n, ∃ calls, y (s, record) n =
      (((x s n).1.1, (x s n).1.2, record ++ calls), (x s n).2) ∧
    (∀ c ∈ calls, w.Replies c) ∧ P calls (x s n).1.1

variable {s : Stmt}

namespace Editor

section

variable {σ α β : Type} {w : Editor σ}

namespace Traces

variable {y : Editing (σ × List HookCall) α} {x : Editing σ α} {P P' : List HookCall → α → Prop}
  {g : α → Editing (σ × List HookCall) β} {f : α → Editing σ β} {Q : List HookCall → β → Prop}

theorem pure (h : P [] a) : Traces w (Pure.pure a) (Pure.pure a) P :=
  ⟨fun _ _ _ => ⟨[], by simp, by simp, h⟩⟩

theorem bind (hx : Traces w y x P)
    (hf : ∀ a calls, P calls a → Traces w (g a) (f a) fun calls' b => Q (calls ++ calls') b) :
    Traces w (y >>= g) (x >>= f) Q := by
  refine ⟨fun s record n => ?_⟩
  obtain ⟨calls, hrun, hreal, hP⟩ := hx.run s record n
  obtain ⟨calls', hrun', hreal', hQ⟩ :=
    (hf _ calls hP).run (x s n).1.2 (record ++ calls) (x s n).2
  refine ⟨calls ++ calls', ?_, forall_mem_append.2 ⟨hreal, hreal'⟩, hQ⟩
  simp only [Supply.stateT_bind_apply, hrun, hrun', append_assoc]

theorem imp (hx : Traces w y x P) (h : ∀ calls a, P calls a → P' calls a) : Traces w y x P' := by
  refine ⟨fun s record n => ?_⟩
  obtain ⟨calls, hrun, hreal, hP⟩ := hx.run s record n
  exact ⟨calls, hrun, hreal, h _ _ hP⟩

theorem andReturn {g : α → β} (hx : Traces w y x P) (h : ∀ calls a, P calls a → Q calls (g a)) :
    Traces w (y >>= fun a => Pure.pure (g a)) (x >>= fun a => Pure.pure (g a)) Q :=
  hx.bind fun a calls ha => .pure (by simpa using h calls a ha)

theorem lift {x : Supply α} {R : α → Prop} (h : ∀ n, R (x n).1) :
    Traces w (liftM x) (liftM x) fun calls a => calls = [] ∧ R a :=
  ⟨fun _ _ n => ⟨[], by simp, by simp, rfl, h n⟩⟩

end Traces

end

section

variable {σ : Type} {w : Editor σ}

structure Follows (depth : Nat) (w : Editor σ) (k' : Continuation (σ × List HookCall))
    (k : Continuation σ) : Prop where
  decl : ∀ d, w.Traces (k'.decl d) (k.decl d) fun calls ds =>
    GoneOn depth (.decl d) calls (ds.map .decl)
  stmt : ∀ s, w.Traces (k'.stmt s) (k.stmt s) fun calls ss =>
    GoneOn depth (.stmt s) calls (ss.map .stmt)
  expr : ∀ e, w.Traces (k'.expr e) (k.expr e) fun calls e' => GoneOn depth (.expr e)
    calls [.expr e']

variable {k' : Continuation (σ × List HookCall)} {k : Continuation σ}

theorem traces_enterDecl (d : Decl) : w.Traces (w.recorded.enterDecl d) (w.enterDecl d)
    fun calls x => calls = [⟨.entering, .decl d, x.reply .decl⟩] :=
  ⟨fun s _ n => ⟨_, rfl, forall_mem_singleton.2 ⟨s, n, rfl⟩, rfl⟩⟩

theorem traces_leaveDecl (d : Decl) : w.Traces (w.recorded.leaveDecl d) (w.leaveDecl d)
    fun calls x => calls = [⟨.leaving, .decl d, Splice.reply .decl x⟩] :=
  ⟨fun s _ n => ⟨_, rfl, forall_mem_singleton.2 ⟨s, n, rfl⟩, rfl⟩⟩

theorem traces_enterStmt (t : Stmt) : w.Traces (w.recorded.enterStmt t) (w.enterStmt t)
    fun calls x => calls = [⟨.entering, .stmt t, x.reply .stmt⟩] :=
  ⟨fun s _ n => ⟨_, rfl, forall_mem_singleton.2 ⟨s, n, rfl⟩, rfl⟩⟩

theorem traces_leaveStmt (t : Stmt) : w.Traces (w.recorded.leaveStmt t) (w.leaveStmt t)
    fun calls x => calls = [⟨.leaving, .stmt t, Splice.reply .stmt x⟩] :=
  ⟨fun s _ n => ⟨_, rfl, forall_mem_singleton.2 ⟨s, n, rfl⟩, rfl⟩⟩

theorem traces_leaveBlock (b : Block) : w.Traces (w.recorded.leaveBlock b) (w.leaveBlock b)
    fun calls x => calls = [⟨.leaving, .block b, x.reply .block⟩] :=
  ⟨fun s _ n => ⟨_, rfl, forall_mem_singleton.2 ⟨s, n, rfl⟩, rfl⟩⟩

theorem traces_leaveKey (key : Key) : w.Traces (w.recorded.leaveKey key) (w.leaveKey key)
    fun calls x => calls = [⟨.leaving, .key key, x.reply key⟩] :=
  ⟨fun s _ n => ⟨_, rfl, forall_mem_singleton.2 ⟨s, n, rfl⟩, rfl⟩⟩

theorem traces_enterExpr (e : Expr) : w.Traces (w.recorded.enterExpr e) (w.enterExpr e)
    fun calls x => calls = [⟨.entering, .expr e, x.reply .expr⟩] :=
  ⟨fun s _ n => ⟨_, rfl, forall_mem_singleton.2 ⟨s, n, rfl⟩, rfl⟩⟩

theorem traces_leaveExpr (e : Expr) : w.Traces (w.recorded.leaveExpr e) (w.leaveExpr e)
    fun calls x => calls = [⟨.leaving, .expr e, x.reply .expr⟩] :=
  ⟨fun s _ n => ⟨_, rfl, forall_mem_singleton.2 ⟨s, n, rfl⟩, rfl⟩⟩

section

variable {α β : Type} {a : α} {n : Node} {v : β → Splice Node}

theorem traces_around {node : α → Node} (hnode : n.entry = [⟨.entering, n, .same⟩])
    {enter' : Editing (σ × List HookCall) (Entry α)} {enter : Editing σ (Entry α)}
    (henter : w.Traces enter' enter fun calls x => calls = [⟨.entering, n, x.reply node⟩])
    {then' : Entry α → Editing (σ × List HookCall) β} {then_ : Entry α → Editing σ β}
    (hdescend : w.Traces (then' .descend) (then_ .descend) fun calls b =>
      Passed depth n calls (v b))
    (hprune : w.Traces (then' .prune) (then_ .prune) fun calls b => calls = [] ∧ v b = [.keep])
    (hinto : ∀ a, w.Traces (then' (.into a)) (then_ (.into a)) fun calls b =>
      ∃ ms, GoneOn depth (node a) calls ms ∧ v b = ms.map .put)
    (hswap : ∀ a, w.Traces (then' (.swap a)) (then_ (.swap a)) fun calls b =>
      calls = [] ∧ v b = [.put (node a)]) (entered : Bool) :
    w.Traces (if entered then pure .descend >>= then' else enter' >>= then')
      (if entered then pure .descend >>= then_ else enter >>= then_) fun calls b =>
        Edited depth entered n calls (v b) := by
  cases entered with
  | true => exact hdescend
  | false =>
    refine henter.bind ?_
    rintro entry _ rfl
    cases entry with
    | descend => exact hdescend.imp fun _ _ hb => hnode ▸ Visited.passed hb
    | prune =>
      refine hprune.imp ?_
      rintro _ b ⟨rfl, hb⟩
      exact hb ▸ Visited.pruned depth n
    | into a =>
      refine (hinto a).imp ?_
      rintro calls b ⟨ms, hms, hb⟩
      exact hb ▸ Visited.replaced n hms
    | swap a =>
      refine (hswap a).imp ?_
      rintro _ b ⟨rfl, hb⟩
      exact hb ▸ Visited.swapped depth n (node a)

theorem traces_aroundExpr (hk : Follows depth w k' k) {e : Expr}
    {y : Editing (σ × List HookCall) (Edit Expr)} {x : Editing σ (Edit Expr)}
    (h : w.Traces y x fun calls a => Assembled depth (.expr e) calls [a.map .expr])
    (entered : Bool) :
    w.Traces (w.recorded.aroundExpr k' entered e y) (w.aroundExpr k entered e x) fun calls a =>
      Edited depth entered (.expr e) calls [a.map .expr] := by
  dsimp only [aroundExpr]
  refine traces_around rfl (traces_enterExpr e) ?_ ?_ ?_ ?_ entered
  · refine h.bind fun a calls ha => (traces_leaveExpr (a.get e)).andReturn ?_
    rintro _ b rfl
    exact .ofAssembled ha (.cons ⟨rfl, (Edit.get_map Node.expr e a).symm⟩ .nil) (leftAs_edit _ a b)
  · exact .pure ⟨rfl, rfl⟩
  · exact fun e' => (hk.expr e').andReturn fun _ _ he' => ⟨_, he', rfl⟩
  · exact fun e' => .pure ⟨rfl, rfl⟩

theorem traces_leaveEach {node : α → Node} {leave' : α → Editing (σ × List HookCall) (Splice α)}
    {leave : α → Editing σ (Splice α)}
    (hleave : ∀ a, w.Traces (leave' a) (leave a) fun calls xs =>
      calls = [⟨.leaving, node a, Splice.reply node xs⟩]) (old : α) (xs : Splice α) :
    w.Traces (leaveEach leave' old xs) (leaveEach leave old xs) fun ends ys =>
      List.Forall₂ (fun x c => c.moment = .leaving ∧ c.node = x.get (node old))
        (xs.map (·.map node)) ends ∧ ys.map (·.map node) = leftAs (xs.map (·.map node)) ends := by
  induction xs with
  | nil => exact .pure ⟨.nil, rfl⟩
  | cons x xs ih =>
    refine (hleave (x.get old)).bind ?_
    rintro ys _ rfl
    refine ih.andReturn ?_
    rintro ends zs ⟨hends, hzs⟩
    refine ⟨.cons ⟨rfl, (Edit.get_map node old x).symm⟩ hends, ?_⟩
    have hcons : leftAs (x.map node :: xs.map (·.map node))
        (⟨.leaving, node (x.get old), Splice.reply node ys⟩ :: ends) =
      (HookCall.outcome ⟨.leaving, node (x.get old), Splice.reply node ys⟩).map
        (x.map node).andThen ++ leftAs (xs.map (·.map node)) ends := rfl
    rw [map_append, hzs]
    exact (congrArg (· ++ _) (Splice.map_andThen node _ x ys)).trans hcons.symm

theorem traces_aroundStmt (hk : Follows depth w k' k)
    {y : Editing (σ × List HookCall) (Splice Stmt)} {x : Editing σ (Splice Stmt)}
    (h : w.Traces y x fun calls xs => Assembled depth (.stmt s) calls (xs.map (·.map .stmt)))
    (entered : Bool) :
    w.Traces (w.recorded.aroundStmt k' entered s y) (w.aroundStmt k entered s x) fun calls xs =>
      Edited depth entered (.stmt s) calls (xs.map (·.map .stmt)) := by
  dsimp only [aroundStmt]
  refine traces_around rfl (traces_enterStmt s) ?_ ?_ ?_ ?_ entered
  · refine h.bind fun xs calls hxs => (traces_leaveEach traces_leaveStmt s xs).imp ?_
    rintro ends ys ⟨hends, hys⟩
    exact .ofAssembled hxs hends hys
  · exact .pure ⟨rfl, rfl⟩
  · refine fun s' => (hk.stmt s').andReturn fun _ ss hss => ⟨_, hss, ?_⟩
    rw [map_map, map_map]
    rfl
  · exact fun s' => .pure ⟨rfl, rfl⟩

theorem traces_aroundDecl (hk : Follows depth w k' k) {d : Decl}
    {y : Editing (σ × List HookCall) (Edit Decl)} {x : Editing σ (Edit Decl)}
    (h : w.Traces y x fun calls a => Assembled depth (.decl d) calls [a.map .decl])
    (entered : Bool) :
    w.Traces (w.recorded.aroundDecl k' entered d y) (w.aroundDecl k entered d x) fun calls xs =>
      Edited depth entered (.decl d) calls (xs.map (·.map .decl)) := by
  dsimp only [aroundDecl]
  refine traces_around rfl (traces_enterDecl d) ?_ ?_ ?_ ?_ entered
  · refine h.bind fun a calls ha => (traces_leaveEach traces_leaveDecl d [a]).imp ?_
    rintro ends ys ⟨hends, hys⟩
    exact .ofAssembled ha hends hys
  · exact .pure ⟨rfl, rfl⟩
  · refine fun d' => (hk.decl d').andReturn fun _ ds hds => ⟨_, hds, ?_⟩
    rw [map_map, map_map]
    rfl
  · exact fun d' => .pure ⟨rfl, rfl⟩

end

end

end Editor

theorem VisitedAll.single {α : Type} {node : α → Node} {a : α} {calls : List HookCall} {x : Edit α}
    (h : Visited depth (node a) calls [x.map node]) :
    VisitedAll depth [node a] calls [node (x.get a)] x.isKeep := by
  have hall := VisitedAll.cons h (.nil depth)
  have hkept : Splice.isKept [x.map node] = x.isKeep := by cases x <;> rfl
  simpa [Edit.get_map, hkept] using hall

/-- What is below a part of a node is visited with these hook calls, and the part becomes `z`;
`shape` is what no visit changes about it. -/
structure Becomes (depth : Nat) {α δ : Type} (below : α → List Node) (shape : α → δ) (a : α)
    (calls : List HookCall) (z : Edit α) : Prop where
  shape : shape (z.get a) = shape a
  below : VisitedAll depth (below a) calls (below (z.get a)) z.isKeep

theorem Visited.becomes {α : Type} {node : α → Node} {a : α} {calls : List HookCall} {x : Edit α}
    (h : Visited depth (node a) calls [x.map node]) :
    Becomes depth (fun a => [node a]) (fun _ => ()) a calls x :=
  ⟨rfl, .single h⟩

section

variable {α β γ δ ε : Type} {a : α} {b : β} {below : α → List Node} {below' : β → List Node}
  {shape : α → δ} {shape' : β → ε} {calls calls' : List HookCall} {z : Edit α} {z' : Edit β}

theorem Becomes.map₂ {below'' : γ → List Node} {shape'' : γ → Unit} {g : α → β → γ}
    (h : Becomes depth below shape a calls z) (h' : Becomes depth below' shape' b calls' z')
    (hbelow : ∀ a b, below'' (g a b) = below a ++ below' b) :
    Becomes depth below'' shape'' (g a b) (calls ++ calls') (z.map₂ g a b z') := by
  refine ⟨rfl, ?_⟩
  rw [Edit.get_map₂, Edit.isKeep_map₂, hbelow, hbelow]
  exact h'.below.append h.below

theorem Becomes.pair (h : Becomes depth below shape a calls z)
    (h' : Becomes depth below' shape' b calls' z') :
    Becomes depth (fun p => below p.1 ++ below' p.2) (fun p => (shape p.1, shape' p.2)) (a, b)
      (calls ++ calls') (z.map₂ Prod.mk a b z') := by
  refine ⟨?_, ?_⟩
  · rw [Edit.get_map₂, h.shape, h'.shape]
  · rw [Edit.get_map₂, Edit.isKeep_map₂]
    exact h'.below.append h.below

theorem Becomes.assemble (h : Becomes depth below shape a calls z) (node : γ → Node)
    (hbelow : ∀ a, (node (g a)).children = below a)
    (hshell : ∀ a', shape a' = shape a → (node (g a')).shell = (node (g a)).shell) :
    Assembled depth (node (g a)) calls [(z.map g).map node] := by
  refine .whole ?_ ?_
  · rw [Edit.get_map, Edit.get_map]
    exact hshell _ h.shape
  · rw [Edit.get_map, Edit.get_map, hbelow, hbelow, Edit.isKeep_map, Edit.isKeep_map]
    exact h.below

theorem Becomes.assemble₂ (h : Becomes depth below shape a calls z)
    (h' : Becomes depth below' shape' b calls' z') (node : γ → Node)
    (hbelow : ∀ a b, (node (g a b)).children = below a ++ below' b)
    (hshell : ∀ a' b', shape a' = shape a → shape' b' = shape' b →
      (node (g a' b')).shell = (node (g a b)).shell) :
    Assembled depth (node (g a b)) (calls ++ calls') [(z.map₂ g a b z').map node] := by
  refine .whole ?_ ?_
  · rw [Edit.get_map, Edit.get_map₂]
    exact hshell _ _ h.shape h'.shape
  · rw [Edit.get_map, Edit.get_map₂, hbelow, hbelow, Edit.isKeep_map, Edit.isKeep_map₂]
    exact h'.below.append h.below

end

namespace Editor

section

variable {σ : Type} {w : Editor σ} {k' : Continuation (σ × List HookCall)} {k : Continuation σ}

theorem traces_leaf {α : Type} {node : α → Node} (a : α) (h : (node a).children = []) :
    w.Traces (pure (.keep : Edit α)) (pure .keep) fun calls z =>
      Assembled depth (node a) calls [z.map node] := by
  refine .pure (.whole rfl ?_)
  rw [Edit.map_keep, Edit.get_keep, h]
  exact .nil depth

theorem traces_leafStmt (h : (Node.stmt s).children = []) :
    w.Traces (pure ([.keep] : Splice Stmt)) (pure [.keep]) fun calls xs =>
      Assembled depth (.stmt s) calls (xs.map (·.map .stmt)) := by
  have hbelow : VisitedAll depth (Node.stmt s).children [] (Node.stmt s).children true := by
    rw [h]
    exact .nil depth
  exact .pure (.whole (x := .keep) rfl hbelow)

mutual
theorem traces_visitExpr (hk : Follows depth w k' k) (entered : Bool) : (e : Expr) →
    w.Traces (w.recorded.visitExpr k' entered e) (w.visitExpr k entered e) fun calls z =>
      Edited depth entered (.expr e) calls [z.map .expr]
  | .lit t v ty => traces_aroundExpr (e := .lit t v ty) hk (traces_leaf _ rfl) entered
  | .bool t b => traces_aroundExpr (e := .bool t b) hk (traces_leaf _ rfl) entered
  | .path t n => traces_aroundExpr (e := .path t n) hk (traces_leaf _ rfl) entered
  | .member t b n => traces_aroundExpr hk ((visits_expr hk b).andReturn fun _ _ hb =>
      hb.assemble .expr (fun _ => rfl) fun _ _ => rfl) entered
  | .index t b i => traces_aroundExpr hk ((visits_expr hk b).bind fun _ _ hb =>
      (visits_expr hk i).andReturn fun _ _ hi =>
        hb.assemble₂ hi .expr (fun _ _ => rfl) fun _ _ _ _ => rfl) entered
  | .call t c ts as => traces_aroundExpr hk ((visits_expr hk c).bind fun _ _ hc =>
      (visits_exprs hk as).andReturn fun _ _ has =>
        hc.assemble₂ has .expr (fun _ _ => rfl) fun _ _ _ _ => rfl) entered
  | .construct t ty as => traces_aroundExpr hk ((visits_exprs hk as).andReturn fun _ _ has =>
      has.assemble .expr (fun _ => rfl) fun _ _ => rfl) entered
  | .unary t op e => traces_aroundExpr hk ((visits_expr hk e).andReturn fun _ _ he =>
      he.assemble .expr (fun _ => rfl) fun _ _ => rfl) entered
  | .binary t op l r => traces_aroundExpr hk ((visits_expr hk l).bind fun _ _ hl =>
      (visits_expr hk r).andReturn fun _ _ hr =>
        hl.assemble₂ hr .expr (fun _ _ => rfl) fun _ _ _ _ => rfl) entered
theorem visits_expr (hk : Follows depth w k' k) (e : Expr) :
    w.Traces (w.recorded.visitExpr k' false e) (w.visitExpr k false e)
      (Becomes depth (fun e => [.expr e]) (fun _ => ()) e) :=
  (traces_visitExpr hk false e).imp fun _ _ h => h.becomes
theorem visits_exprs (hk : Follows depth w k' k) : (es : List Expr) →
    w.Traces (w.recorded.visitExprs k' es) (w.visitExprs k es)
      (Becomes depth (·.map .expr) (fun _ => ()) es)
  | [] => .pure ⟨rfl, .nil _⟩
  | e :: es => (visits_expr hk e).bind fun _ _ he => (visits_exprs hk es).andReturn fun _ _ hes =>
      he.map₂ hes fun _ _ => rfl
end

theorem visits_expr? (hk : Follows depth w k' k) (e : Option Expr) :
    w.Traces (w.recorded.visitExpr? k' e) (w.visitExpr? k e)
      (Becomes depth (fun e => e.toList.map .expr) Option.isSome e) := by
  cases e with
  | none => exact .pure ⟨rfl, .nil _⟩
  | some e =>
    refine (visits_expr hk e).andReturn fun _ z he => ⟨?_, ?_⟩
    · rw [Edit.get_map]
      rfl
    · rw [Edit.get_map, Edit.isKeep_map]
      exact he.below

theorem visitKey_leftAs (key : Key) (x : Edit Expr) (r : KeyEdit) :
    [(if r.id = key.id ∧ r.matchKind = key.matchKind ∧ (x.andThen r.expr).isKeep then .keep
      else .put ⟨r.id, (x.andThen r.expr).get key.expr, r.matchKind⟩ : Edit Key).map .key] =
    leftAs [(x.map fun e => { key with expr := e }).map .key]
      [⟨.leaving, .key { key with expr := x.get key.expr },
        r.reply { key with expr := x.get key.expr }⟩] := by
  obtain ⟨i, y, kind⟩ := r
  by_cases hsame : i = key.id ∧ kind = key.matchKind ∧ y.isKeep
  · obtain ⟨rfl, rfl, hy⟩ := hsame
    have hreply : KeyEdit.reply { key with expr := x.get key.expr } ⟨key.id, y, key.matchKind⟩ =
        .same :=
      if_pos ⟨rfl, rfl, hy⟩
    rw [hreply, Edit.eq_keep_of_isKeep hy]
    cases x <;> simp [leftAs, HookCall.outcome, Edit.isKeep, Edit.map]
  · have hreply : KeyEdit.reply { key with expr := x.get key.expr } ⟨i, y, kind⟩ =
        .became [.put (.key ⟨i, y.get (x.get key.expr), kind⟩)] := if_neg hsame
    have hchanged : ¬ (i = key.id ∧ kind = key.matchKind ∧ (x.andThen y).isKeep) := by
      rintro ⟨hi, hkind, hkeep⟩
      cases y with
      | keep => exact hsame ⟨hi, hkind, rfl⟩
      | put e => cases hkeep
    rw [hreply, if_neg hchanged, Edit.get_andThen]
    rfl

theorem traces_visitKey (hk : Follows depth w k' k) (key : Key) :
    w.Traces (w.recorded.visitKey k' key) (w.visitKey k key) fun calls y =>
      Visited depth (.key key) calls [y.map .key] := by
  have hreturn {σ' : Type} (c : Prop) [Decidable c] (a b : Edit Key) :
      (if c then pure a else pure b : Editing σ' (Edit Key)) = pure (if c then a else b) := by
    split <;> rfl
  dsimp only [visitKey]
  simp only [hreturn]
  refine (visits_expr hk key.expr).bind fun x calls hx => (traces_leaveKey _).andReturn ?_
  rintro _ r rfl
  have hpart :
      Assembled depth (.key key) calls [(x.map fun e => { key with expr := e }).map .key] :=
    hx.assemble (g := fun e => { key with expr := e }) .key (fun _ => rfl) fun _ _ => rfl
  refine .passed (.ofAssembled hpart (.cons ⟨rfl, ?_⟩ .nil) (visitKey_leftAs key x r))
  rw [Edit.get_map Node.key key]
  exact congrArg Node.key (Edit.get_map (fun e => { key with expr := e }) key.expr x).symm

theorem visits_keys (hk : Follows depth w k' k) : (ks : List Key) →
    w.Traces (w.recorded.visitKeys k' ks) (w.visitKeys k ks)
      (Becomes depth (·.map .key) (fun _ => ()) ks)
  | [] => .pure ⟨rfl, .nil _⟩
  | key :: ks => (traces_visitKey hk key).bind fun _ _ hkey => (visits_keys hk ks).andReturn
      fun _ _ hks => hkey.becomes.map₂ hks fun _ _ => rfl

theorem traces_single (xs : Splice Stmt) (s : Stmt) :
    w.Traces (single xs s) (single xs s) fun calls x => calls = [] ∧ Fills s xs x := by
  obtain _ | ⟨x, _ | ⟨y, xs⟩⟩ := xs
  · refine (Traces.lift (x := Tag.fresh none) (R := fun _ => True) fun _ => trivial).andReturn ?_
    rintro _ t ⟨rfl, -⟩
    exact ⟨rfl, .none t⟩
  · exact .pure ⟨rfl, .one x⟩
  · refine (Traces.lift (x := Tag.fresh none) (R := fun _ => True) fun _ => trivial).bind ?_
    rintro t _ ⟨rfl, -⟩
    refine (Traces.lift (x := freshId) (R := fun _ => True) fun _ => trivial).andReturn ?_
    rintro _ i ⟨rfl, -⟩
    exact ⟨rfl, .several t i (by simp)⟩

theorem traces_declares (d : Decl) (xs : Splice Decl) :
    w.Traces (xs.mapM fun y => return Edit.put (← Stmt.declare (y.get d)))
      (xs.mapM fun y => return Edit.put (← Stmt.declare (y.get d))) fun calls ys =>
      calls = [] ∧ List.Forall₂ (fun x y => ∃ t, y = .put (.decl t (x.get d))) xs ys := by
  induction xs with
  | nil => exact .pure ⟨rfl, .nil⟩
  | cons x xs ih =>
    rw [mapM_cons, mapM_cons]
    have hx : w.Traces (do return Edit.put (← Stmt.declare (x.get d)))
        (do return Edit.put (← Stmt.declare (x.get d))) fun calls y =>
          calls = [] ∧ ∃ t, y = .put (.decl t (x.get d)) :=
      (Traces.lift (R := fun s => ∃ t, s = .decl t (x.get d)) fun n => ⟨_, rfl⟩).andReturn
        fun _ _ h => ⟨h.1, h.2.imp fun _ => congrArg Edit.put⟩
    refine hx.bind ?_
    rintro y _ ⟨rfl, hy⟩
    exact ih.andReturn fun _ ys h => ⟨h.1, .cons hy h.2⟩

theorem traces_declared (t : Tag) (d : Decl) (ds : Splice Decl) :
    w.Traces (declared t d ds) (declared t d ds) fun calls xs => calls = [] ∧
      ((∃ x, ds = [x] ∧ xs = [x.map (.decl t)]) ∨ Expands t d ds xs) := by
  obtain _ | ⟨x, _ | ⟨x', xs⟩⟩ := ds
  · exact .pure ⟨rfl, .inr .none⟩
  · cases x with
    | keep => exact .pure ⟨rfl, .inl ⟨.keep, rfl, rfl⟩⟩
    | put d' => exact .pure ⟨rfl, .inl ⟨.put d', rfl, rfl⟩⟩
  · simp only [declared]
    exact (traces_declares d (x' :: xs)).andReturn fun _ ys h =>
      ⟨h.1, .inr (.several (cons_ne_nil _ _) h.2)⟩

theorem Traces.branch {β : Type} {y : Editing (σ × List HookCall) (Splice Stmt)}
    {x : Editing σ (Splice Stmt)} {g : Edit Stmt → Editing (σ × List HookCall) β}
    {f : Edit Stmt → Editing σ β} {Q : List HookCall → β → Prop}
    (h : w.Traces y x fun calls xs => Visited depth (.stmt s) calls (xs.map (·.map .stmt)))
    (hf : ∀ z calls, Becomes depth (fun s => [.stmt s]) (fun _ => ()) s calls z →
      w.Traces (g z) (f z) fun calls' b => Q (calls ++ calls') b) :
    w.Traces (y >>= fun xs => single xs s >>= g) (x >>= fun xs => single xs s >>= f) Q := by
  refine h.bind fun xs calls hxs => (traces_single xs s).bind ?_
  rintro z _ ⟨rfl, hz⟩
  have hslot := VisitedAll.slot hxs hz (.nil depth)
  rw [Bool.and_true, append_nil] at hslot
  exact hf z calls ⟨rfl, hslot⟩

theorem Becomes.cons_splice {α : Type} {node : α → Node} {a : α} {as : List α}
    {calls calls' : List HookCall} {xs : Splice α} {z : Edit (List α)}
    (h : Visited depth (node a) calls (xs.map (·.map node)))
    (hs : Becomes depth (·.map node) (fun _ => ()) as calls' z) :
    Becomes depth (·.map node) (fun _ => ()) (a :: as) (calls ++ calls')
      ((Splice.toEdit a xs).map₂ (· ++ ·) [a] as z) := by
  have hall := VisitedAll.cons h hs.below
  have hkept : Splice.isKept (xs.map (·.map node)) = Splice.isKept xs := by
    obtain _ | ⟨x, _ | ⟨y, xs⟩⟩ := xs
    · rfl
    · cases x <;> rfl
    · cases x <;> rfl
  have hget : ((Splice.toEdit a xs).map₂ (· ++ ·) [a] as z).get (a :: as) =
      xs.map (·.get a) ++ z.get as := by
    rw [← Splice.get_toEdit]
    exact Edit.get_map₂ (· ++ ·) [a] as _ _
  refine ⟨rfl, ?_⟩
  rw [hget, Edit.isKeep_map₂, Splice.isKeep_toEdit, ← hkept]
  simpa [Function.comp_def, Edit.get_map] using hall

theorem assembled_declared {t : Tag} {d : Decl} {calls calls' : List HookCall} {ds : Splice Decl}
    {xs : Splice Stmt} (hds : Visited depth (.decl d) calls (ds.map (·.map .decl)))
    (hxs : calls' = [] ∧ ((∃ x, ds = [x] ∧ xs = [x.map (.decl t)]) ∨ Expands t d ds xs)) :
    Assembled depth (.stmt (.decl t d)) (calls ++ calls') (xs.map (·.map .stmt)) := by
  obtain ⟨rfl, ⟨x, rfl, rfl⟩ | hxs⟩ := hxs
  · rw [append_nil]
    have hd : Visited depth (.decl d) calls [x.map .decl] := hds
    exact hd.becomes.assemble (g := Stmt.decl t) .stmt (fun _ => rfl) fun _ _ => rfl
  · rw [append_nil]
    exact .expanded hds hxs

theorem map_hole_congr {e e' : Option Expr} (h : e'.isSome = e.isSome) :
    (e'.map fun _ => Expr.hole) = e.map fun _ => Expr.hole := by
  cases e <;> cases e' <;> first | rfl | cases h

mutual
theorem traces_visitStmt (hk : Follows depth w k' k) (entered : Bool) : (s : Stmt) →
    w.Traces (w.recorded.visitStmt k' entered s) (w.visitStmt k entered s) fun calls xs =>
      Edited depth entered (.stmt s) calls (xs.map (·.map .stmt))
  | .block t b => traces_aroundStmt hk ((traces_visitBlock hk b).andReturn fun _ _ hb =>
      hb.becomes.assemble .stmt (fun _ => rfl) fun _ _ => rfl) entered
  | .assign t l r => traces_aroundStmt hk ((visits_expr hk l).bind fun _ _ hl =>
      (visits_expr hk r).andReturn fun _ _ hr =>
        hl.assemble₂ hr .stmt (fun _ _ => rfl) fun _ _ _ _ => rfl) entered
  | .call t e => traces_aroundStmt hk ((visits_expr hk e).andReturn fun _ _ he =>
      he.assemble .stmt (fun _ => rfl) fun _ _ => rfl) entered
  | .ifThen t c a none => traces_aroundStmt hk ((visits_expr hk c).bind fun _ _ hc =>
      (traces_visitStmt hk false a).branch fun _ _ ha => .pure (by
        rw [append_nil]
        exact hc.assemble₂ (g := (Stmt.ifThen t · · none)) ha .stmt (fun _ _ => rfl)
          fun _ _ _ _ => rfl))
      entered
  | .ifThen t c a (some b) => traces_aroundStmt hk ((visits_expr hk c).bind fun _ _ hc =>
      (traces_visitStmt hk false a).branch fun _ _ ha =>
        (traces_visitStmt hk false b).branch fun _ _ hb => .pure (by
          rw [append_nil]
          exact hc.assemble₂ (g := fun c ab => Stmt.ifThen t c ab.1 (some ab.2)) (ha.pair hb) .stmt
            (fun _ _ => rfl) fun _ _ _ _ => rfl)) entered
  | .switch t e cs => traces_aroundStmt hk ((visits_expr hk e).bind fun _ _ he =>
      (visits_cases hk cs).andReturn fun _ _ hcs =>
        he.assemble₂ (g := Stmt.switch t) hcs .stmt (fun _ _ => rfl)
          fun _ _ _ h => congrArg (fun cs => Node.stmt (.switch t .hole cs)) h) entered
  | .decl t d => traces_aroundStmt hk ((traces_visitDecl hk false d).bind fun ds _ hds =>
      (traces_declared t d ds).imp fun _ _ h => assembled_declared hds h) entered
  | .ret t e => traces_aroundStmt hk ((visits_expr? hk e).andReturn fun _ _ he =>
      he.assemble (g := Stmt.ret t) .stmt (fun _ => rfl)
        fun _ h => congrArg (fun e => Node.stmt (.ret t e)) (map_hole_congr h)) entered
  | .exit t => traces_aroundStmt (s := .exit t) hk (traces_leafStmt rfl) entered
  | .empty t => traces_aroundStmt (s := .empty t) hk (traces_leafStmt rfl) entered
theorem traces_visitBlock (hk : Follows depth w k' k) : (b : Block) →
    w.Traces (w.recorded.visitBlock k' b) (w.visitBlock k b) fun calls y =>
      Visited depth (.block b) calls [y.map .block]
  | .mk i ss => (visits_stmts hk ss).bind fun z _ hz => (traces_leaveBlock _).andReturn
      fun _ y hy => by
        subst hy
        exact .passed (.ofAssembled
          (hz.assemble (g := Block.mk i) .block (fun _ => rfl) fun _ _ => rfl)
          (.cons ⟨rfl, (Edit.get_map Node.block _ _).symm⟩ .nil) (leftAs_edit _ _ y))
theorem visits_stmts (hk : Follows depth w k' k) : (ss : List Stmt) →
    w.Traces (w.recorded.visitStmts k' ss) (w.visitStmts k ss)
      (Becomes depth (·.map .stmt) (fun _ => ()) ss)
  | [] => .pure ⟨rfl, .nil _⟩
  | s :: ss => (traces_visitStmt hk false s).bind fun _ _ hs =>
      (visits_stmts hk ss).andReturn fun _ _ hss => Becomes.cons_splice hs hss
theorem visits_cases (hk : Follows depth w k' k) : (cs : List Case) →
    w.Traces (w.recorded.visitCases k' cs) (w.visitCases k cs)
      (Becomes depth (fun cs => (cs.filterMap Case.body?).map .block) (·.map Case.shell) cs)
  | [] => .pure ⟨rfl, .nil _⟩
  | .run l b :: cs => (traces_visitBlock hk b).bind fun z _ hb => (visits_cases hk cs).andReturn
      fun _ z' hcs => by
        refine ⟨?_, ?_⟩
        · rw [Edit.get_map₂, Edit.get_map]
          exact congrArg (Case.run l (.mk ⟨0⟩ []) :: ·) hcs.shape
        · rw [Edit.get_map₂, Edit.get_map, Edit.isKeep_map₂, Edit.isKeep_map]
          exact hcs.below.append hb.becomes.below
  | .fallThrough l :: cs => (visits_cases hk cs).andReturn fun _ z hcs => by
      have hget : (z.map (Case.fallThrough l :: ·)).get (.fallThrough l :: cs) =
          .fallThrough l :: z.get cs := Edit.get_map (Case.fallThrough l :: ·) cs z
      refine ⟨?_, ?_⟩
      · rw [hget]
        exact congrArg (Case.fallThrough l :: ·) hcs.shape
      · rw [hget, Edit.isKeep_map]
        exact hcs.below
theorem traces_visitDecl (hk : Follows depth w k' k) (entered : Bool) : (d : Decl) →
    w.Traces (w.recorded.visitDecl k' entered d) (w.visitDecl k entered d) fun calls xs =>
      Edited depth entered (.decl d) calls (xs.map (·.map .decl))
  | .header h fs => traces_aroundDecl (d := .header h fs) hk (traces_leaf _ rfl) entered
  | .struct h fs => traces_aroundDecl (d := .struct h fs) hk (traces_leaf _ rfl) entered
  | .externType h tps cs ms =>
    traces_aroundDecl (d := .externType h tps cs ms) hk (traces_leaf _ rfl) entered
  | .externFn h m => traces_aroundDecl (d := .externFn h m) hk (traces_leaf _ rfl) entered
  | .action _ _ b => traces_aroundDecl hk ((traces_visitBlock hk b).andReturn fun _ _ hb =>
      hb.becomes.assemble .decl (fun _ => rfl) fun _ _ => rfl) entered
  | .table h ks as d => traces_aroundDecl hk ((visits_keys hk ks).bind fun _ _ hks =>
      (visits_exprs hk as).bind fun _ _ has => (visits_expr? hk d).andReturn fun _ _ hd =>
        hks.assemble₂ (g := fun ks ad => Decl.table h ks ad.1 ad.2) (has.pair hd) .decl
          (fun _ _ => rfl) fun _ _ _ hd => congrArg (fun d => Node.decl (.table h [] [] d))
            (map_hole_congr (congrArg Prod.snd hd))) entered
  | .control _ _ _ _ ls b => traces_aroundDecl hk ((visits_decls hk ls).bind fun _ _ hls =>
      (traces_visitBlock hk b).andReturn fun _ _ hb =>
        hls.assemble₂ hb.becomes .decl (fun _ _ => rfl) fun _ _ _ _ => rfl) entered
  | .package h tps ps => traces_aroundDecl (d := .package h tps ps) hk (traces_leaf _ rfl) entered
  | .inst _ _ as => traces_aroundDecl hk ((visits_exprs hk as).andReturn fun _ _ has =>
      has.assemble .decl (fun _ => rfl) fun _ _ => rfl) entered
  | .var h t e => traces_aroundDecl hk ((visits_expr? hk e).andReturn fun _ _ he =>
      he.assemble (g := Decl.var h t) .decl (fun _ => rfl)
        fun _ he => congrArg (fun e => Node.decl (.var h t e)) (map_hole_congr he)) entered
  | .const _ _ e => traces_aroundDecl hk ((visits_expr hk e).andReturn fun _ _ he =>
      he.assemble .decl (fun _ => rfl) fun _ _ => rfl) entered
theorem visits_decls (hk : Follows depth w k' k) : (ds : List Decl) →
    w.Traces (w.recorded.visitDecls k' ds) (w.visitDecls k ds)
      (Becomes depth (·.map .decl) (fun _ => ()) ds)
  | [] => .pure ⟨rfl, .nil _⟩
  | d :: ds => (traces_visitDecl hk false d).bind fun _ _ hd =>
      (visits_decls hk ds).andReturn fun _ _ hds => Becomes.cons_splice hd hds
end

end

end Editor

end MatchAction
