import MatchAction.Inline.Control
import MatchAction.Proofs.Resolution
import MatchAction.Proofs.Splice

namespace MatchAction

inductive Initialisation
  | onCreation
  | onApplication

structure World (S : Type) where
  ops : Ops S
  globals : Env
  initialisation : Initialisation

abbrev Instances (S : Type) := String → Option (Applied S)

/-- What creating an instance does, given the terms of its arguments, the first free location and
the state: the first free location and the state afterwards, and what applying it does. -/
abbrev Meaning (S : Type) := List Term → Nat → S → Nat × S × Applied S

def Env.setAll (ρ : Env) : List String → List Term → Env
  | n :: ns, t :: ts => (ρ.set n t).setAll ns ts
  | _, _ => ρ

section

variable {S : Type}

def Config.allot (I : Ops S) : List (Param × String) → Config S → Config S
  | [], m => m
  | (p, n) :: ps, m =>
    Config.allot I ps { m.bind n with state := I.create m.next p.type [] m.state }

def Ops.copyIn (I : Ops S) : List Param → List Term → Nat → S → S
  | p :: ps, t :: ts, k, st =>
    I.copyIn ps ts (k + 1) (if p.direction.copiesIn then I.assign (.loc k) t st else st)
  | _, _, _, st => st

def Ops.initialise (I : Ops S) (ρ : Env) : List Decl → S → S
  | .var h _ (some e) :: ds, st =>
    I.initialise ρ ds (I.assign ((ρ h.name).getD .unbound) (e.term ρ) st)
  | _ :: ds, st => I.initialise ρ ds st
  | [], st => st

namespace World

variable (W : World S)

def created (d : Decl) : Decl :=
  match W.initialisation, d with
  | .onApplication, .var h ty _ => .var h ty none
  | _, d => d

def restart (ρ : Env) (ds : List Decl) (st : S) : S :=
  match W.initialisation with
  | .onCreation => st
  | .onApplication => W.ops.initialise ρ ds st

/-- Declares a local of a control. Types with a meaning are those of the instances that are run;
such an instance has no location of its own. -/
def enterLocal (M : TypeExpr → Option (Meaning S)) (x : Config S × Instances S) (d : Decl) :
    Config S × Instances S :=
  match d with
  | .inst h ty as =>
    match M ty with
    | some f =>
      let r := f (Expr.terms x.1.env as) x.1.next x.1.state
      (⟨x.1.env, r.1, r.2.1⟩, fun n => if n = h.name then some r.2.2 else x.2 n)
    | none => (x.1.declare W.ops d, x.2)
  | d => (x.1.declare W.ops (W.created d), x.2)

def enter (M : TypeExpr → Option (Meaning S)) (ps cps : List Param) (ls : List Decl)
    (ts : List Term) (k : Nat) (st : S) : Config S × Instances S :=
  ls.foldl (W.enterLocal M) (Config.allot W.ops (ps.map fun p => (p, p.name))
    ⟨W.globals.setAll (cps.map (·.name)) ts, k, st⟩, fun _ => none)

def apply (ps : List Param) (ls : List Decl) (b : Block) (k : Nat) (x : Config S × Instances S) :
    Applied S := fun args next st =>
  let q := Stmt.execs (W.ops.machine x.2) b.stmts
    ⟨x.1.env, next, W.restart x.1.env ls (W.ops.copyIn ps args k st)⟩
  (q.1 == .exited, q.2.next, W.ops.writeBack ps args k q.2.state)

def meaning (M : TypeExpr → Option (Meaning S)) : Decl → Meaning S
  | .control _ _ ps cps ls b => fun ts k st =>
    let x := W.enter M ps cps ls ts k st
    (x.1.next, x.1.state, W.apply ps ls b k x)
  | _ => fun _ k st => (k, st, fun _ k st => (false, k, st))

end World

def Program.controlOf? (p : Program) (sources : SourceMap) : TypeExpr → Option Decl
  | .named n | .specialized n _ =>
    (p.find? n).filter fun d => d.isControl && !sources.isLibrary d.span
  | _ => none

def World.Models (W : World S) (sources : SourceMap) (M : String → Meaning S) (p : Program) :
    Prop :=
  ∀ d ∈ p.decls, d.isControl →
    M d.name = W.meaning (fun ty => (p.controlOf? sources ty).map fun d => M d.name) d

end

namespace ControlInlining

def successor : Decl :=
  .control ⟨⟨0⟩, "callee", none⟩ [] [⟨⟨1⟩, "v", .inout, .bits 8 false, none⟩] []
    [.var ⟨⟨2⟩, "t", none⟩ (.bits 8 false) (some (.path ⟨⟨3⟩, none⟩ "v"))]
    (.mk ⟨4⟩ [.assign ⟨⟨5⟩, none⟩ (.path ⟨⟨6⟩, none⟩ "v")
      (.binary ⟨⟨7⟩, none⟩ .add (.path ⟨⟨8⟩, none⟩ "t") (.lit ⟨⟨9⟩, none⟩ 1 (.bits 8 false)))])

def successorCaller : Decl :=
  .control ⟨⟨10⟩, "caller", none⟩ [] [⟨⟨11⟩, "x", .inout, .bits 8 false, none⟩] []
    [.inst ⟨⟨12⟩, "c", none⟩ (.named "callee") []]
    (.mk ⟨13⟩ [.call ⟨⟨14⟩, none⟩ (.call ⟨⟨15⟩, none⟩ (.member ⟨⟨16⟩, none⟩
      (.path ⟨⟨17⟩, none⟩ "c") "apply") [] [.path ⟨⟨18⟩, none⟩ "x"])])

def successors : Program := ⟨[successor, successorCaller]⟩

def numberOf (st : Nat → Int) : Term → Int
  | .lit v _ => v
  | .loc k => st k
  | .binary _ l r => numberOf st l + numberOf st r
  | _ => 0

def adding : Ops (Nat → Int) where
  assign l r st := match l with
    | .loc k => fun i => if i = k then numberOf st r else st i
    | _ => st
  call _ st := st
  create k _ ts st := match ts with
    | [t] => fun i => if i = k then numberOf st t else st i
    | _ => st
  test _ st := (true, st)
  select _ _ st := (none, st)

def addingWorld : World (Nat → Int) := ⟨adding, fun _ => none, .onApplication⟩

def onFive (f : Meaning (Nat → Int)) : Int :=
  let r := f [] 1 fun i => if i = 0 then 5 else 0
  (r.2.2 [.loc 0] r.1 r.2.1).2.2 0

def inlined? (style : InlineStyle) (sources : SourceMap) (p : Program) (n : Nat) :
    Option Program :=
  match discover p.check.refs sources p with
  | .ok w =>
    match ((p.inlineControls style sources w).run .empty n).1.1 with
    | .ok x => some (x.get p)
    | .error _ => none
  | .error _ => none

def successorMeaning (name : String) : Meaning (Nat → Int) :=
  let callee := addingWorld.meaning (fun _ => none) successor
  if name = "callee" then callee
  else addingWorld.meaning (fun ty => (successors.controlOf? .empty ty).map fun _ => callee)
    successorCaller

theorem models_successors : addingWorld.Models .empty successorMeaning successors :=
  List.forall_mem_cons.2 ⟨fun _ => rfl, List.forall_mem_singleton.2 fun _ => rfl⟩

/-- The variable of an inlined instance takes its initial value before the caller starts, and not
when the instance is applied. -/
theorem initialiser_not_run_by_inlined_application :
    successors.ids.Nodup ∧ (Names.ofProgram successors).used.Nodup ∧
    successors.check.errors = [] ∧ addingWorld.Models .empty successorMeaning successors ∧
    ∀ style, ∃ p', inlined? style .empty successors 19 = some p' ∧
      ¬ addingWorld.Models .empty successorMeaning p' := by
  refine ⟨by decide, by decide, List.isEmpty_iff.1 (by decide +kernel), models_successors, ?_⟩
  intro style
  have hrun : onFive (successorMeaning "caller") = 6 := by decide +kernel
  have hinl : ((inlined? style .empty successors 19).bind fun p' => p'.decls[1]?.map fun d =>
      (d.isControl, d.name, onFive (addingWorld.meaning
        (fun ty => (p'.controlOf? .empty ty).map fun d => successorMeaning d.name) d))) =
      some (true, "caller", 1) := by
    cases style <;> decide +kernel
  obtain ⟨p', hp', hd⟩ := Option.bind_eq_some_iff.1 hinl
  obtain ⟨d, hd, hres⟩ := Option.map_eq_some_iff.1 hd
  obtain ⟨hcontrol, hres⟩ := Prod.mk.inj hres
  obtain ⟨hname, hfive⟩ := Prod.mk.inj hres
  refine ⟨p', hp', fun hM => ?_⟩
  have h := hM d (List.mem_of_getElem? hd) hcontrol
  rw [hname] at h
  rw [← h, hrun] at hfive
  exact absurd hfive (by decide)

end ControlInlining

end MatchAction
