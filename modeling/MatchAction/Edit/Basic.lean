/-!
What becomes of a node: it stays the very node, or another is put in its place. Edits of the parts
of a node combine into an edit of the node, so that a node all of whose parts are kept is kept.
-/

namespace MatchAction

inductive Edit (α : Type)
  | keep
  | put (new : α)

namespace Edit

variable {α β γ : Type}

/-- The node there is afterwards. -/
def get (old : α) : Edit α → α
  | .keep => old
  | .put new => new

def isKeep : Edit α → Bool
  | .keep => true
  | .put _ => false

def map (f : α → β) : Edit α → Edit β
  | .keep => .keep
  | .put a => .put (f a)

/-- The edit of a node made of two parts. -/
def map₂ (f : α → β → γ) (a : α) (b : β) : Edit α → Edit β → Edit γ
  | .keep, .keep => .keep
  | x, y => .put (f (x.get a) (y.get b))

/-- One edit after another; the second is about what the first left. -/
def andThen : Edit α → Edit α → Edit α
  | x, .keep => x
  | _, .put a => .put a

@[simp] theorem get_keep (a : α) : (keep : Edit α).get a = a := rfl
@[simp] theorem get_put (a b : α) : (put b).get a = b := rfl
@[simp] theorem map_keep (f : α → β) : (keep : Edit α).map f = .keep := rfl
@[simp] theorem map₂_keep (f : α → β → γ) (a : α) (b : β) :
    map₂ f a b .keep .keep = .keep := rfl
@[simp] theorem andThen_keep (x : Edit α) : x.andThen .keep = x := by cases x <;> rfl
@[simp] theorem keep_andThen (x : Edit α) : keep.andThen x = x := by cases x <;> rfl

theorem get_of_isKeep {a : α} {x : Edit α} (h : x.isKeep = true) : x.get a = a := by
  cases x with
  | keep => rfl
  | put b => cases h

theorem get_map (f : α → β) (a : α) (x : Edit α) : (x.map f).get (f a) = f (x.get a) := by
  cases x <;> rfl

theorem get_andThen (a : α) (x y : Edit α) : (x.andThen y).get a = y.get (x.get a) := by
  cases x <;> cases y <;> rfl

theorem get_map₂ (f : α → β → γ) (a : α) (b : β) (x : Edit α) (y : Edit β) :
    (map₂ f a b x y).get (f a b) = f (x.get a) (y.get b) := by
  cases x <;> cases y <;> rfl

end Edit

/-- What stands where one node stood: nothing, the node itself, others, or several. -/
abbrev Splice (α : Type) := List (Edit α)

/-- The edit of the one-element list that held the node. -/
def Splice.toEdit {α : Type} (old : α) : Splice α → Edit (List α)
  | [.keep] => .keep
  | xs => .put (xs.map (·.get old))

theorem Splice.get_toEdit {α : Type} (old : α) (xs : Splice α) :
    (Splice.toEdit old xs).get [old] = xs.map (·.get old) := by
  unfold Splice.toEdit; split <;> simp

end MatchAction
