namespace MatchAction

/-- Bytes `start` up to `stop` of the file numbered `source`. -/
structure Span where
  source : Nat
  start : Nat
  stop : Nat
  ordered : start ≤ stop
deriving DecidableEq

namespace Span

def ofBounds? (source start stop : Nat) : Option Span :=
  if h : start ≤ stop then some ⟨source, start, stop, h⟩ else none

theorem ofBounds?_isSome_iff {source start stop : Nat} :
    (ofBounds? source start stop).isSome ↔ start ≤ stop := by
  unfold ofBounds?; split <;> simp_all

def text (s : Span) : String := s!"#{s.source}:{s.start}..{s.stop}"

/-- The smallest span around both. Spans of different files cannot be joined: the first one wins. -/
def cover (a b : Span) : Span :=
  if a.source = b.source then
    ⟨a.source, min a.start b.start, max a.stop b.stop, by have := a.ordered; omega⟩
  else a

end Span

/-- A library file describes the target and holds no user code. -/
structure SourceFile where
  name : String
  text : String
  library : Bool

/-- The files of one compilation, numbered from zero. -/
structure SourceMap where
  files : List SourceFile

namespace SourceMap

def empty : SourceMap := ⟨[]⟩

def get? (m : SourceMap) (source : Nat) : Option SourceFile := m.files[source]?

/-- Nodes without a position, or in no known file, are user code. -/
def isLibrary (m : SourceMap) : Option Span → Bool
  | none => false
  | some s => (m.get? s.source).any (·.library)

@[simp] theorem isLibrary_none (m : SourceMap) : m.isLibrary none = false := rfl

end SourceMap

end MatchAction
