import MatchAction.Typing.Scopes

namespace MatchAction

/-- Entries newest first; an older entry of the same node is out of sight. -/
structure NodeMap (α : Type) where
  entries : List (NodeId × α)

namespace NodeMap

variable {α : Type}

def empty : NodeMap α := ⟨[]⟩

def get? (m : NodeMap α) (id : NodeId) : Option α := m.entries.lookup id

def insert (m : NodeMap α) (id : NodeId) (a : α) : NodeMap α := ⟨(id, a) :: m.entries⟩

/-- How many nodes have an entry. -/
def size (m : NodeMap α) : Nat := (m.entries.map (·.1)).eraseDups.length

@[simp] theorem get?_empty (id : NodeId) : (empty : NodeMap α).get? id = none := rfl

theorem get?_insert (m : NodeMap α) (id id' : NodeId) (a : α) :
    (m.insert id a).get? id' = if id' = id then some a else m.get? id' := by
  simp only [get?, insert, List.lookup_cons]
  split <;> simp_all

end NodeMap

/-- What paths, instances and constructor calls refer to, and what is referred to at all. -/
structure Refs where
  targets : NodeMap Referent
  used : List NodeId

namespace Refs

def empty : Refs := ⟨.empty, []⟩

def get? (r : Refs) (id : NodeId) : Option Referent := r.targets.get? id

def decl? (r : Refs) (id : NodeId) : Option Decl := (r.get? id).bind Referent.decl?

def set (r : Refs) (id : NodeId) (t : Referent) : Refs := ⟨r.targets.insert id t, t.id :: r.used⟩

/-- A use that has no node of its own, such as a type name. -/
def markUsed (r : Refs) (id : NodeId) : Refs := { r with used := id :: r.used }

def isUsed (r : Refs) (id : NodeId) : Bool := r.used.contains id

end Refs

/-- Types of expressions, declarations and parameters; which expressions can be written to; how
calls bound the type parameters of their callees. -/
structure Types where
  types : NodeMap Ty
  leftValues : List NodeId
  bindings : NodeMap Bindings

namespace Types

def empty : Types := ⟨.empty, [], .empty⟩

def get? (t : Types) (id : NodeId) : Option Ty := t.types.get? id

def set (t : Types) (id : NodeId) (ty : Ty) : Types := { t with types := t.types.insert id ty }

def isLeftValue (t : Types) (id : NodeId) : Bool := t.leftValues.contains id

def setLeftValue (t : Types) (id : NodeId) : Types := { t with leftValues := id :: t.leftValues }

def setBindings (t : Types) (id : NodeId) (b : Bindings) : Types :=
  { t with bindings := t.bindings.insert id b }

end Types

end MatchAction
