import MatchAction.Edit.Editor
import MatchAction.Tree.Walk
import MatchAction.Typing.Check

namespace MatchAction

namespace Unused

/-- Whether a declaration stays; `toplevel` says where it stands. -/
def stays (refs : Refs) (sources : SourceMap) (toplevel : Bool) (d : Decl) : Bool :=
  refs.isUsed d.id || sources.isLibrary d.span ||
    match d with
    | .header .. | .struct .. | .externType .. | .externFn .. | .package .. => true
    | .inst .. => toplevel
    | .var _ _ init => init.any (·.hasCall)
    | .action .. | .table .. | .control .. | .const .. => false

/-- The state counts the declarations around the node. -/
def editor (refs : Refs) (sources : SourceMap) : Editor Nat where
  enterDecl _ := do
    modify (· + 1)
    return .descend
  leaveDecl d := do
    modify (· - 1)
    if stays refs sources ((← get) == 0) d then return [.keep] else return []

/-- One round. -/
def round (sources : SourceMap) (p : Program) : Supply (Edit Program) :=
  (·.1) <$> ((editor p.check.refs sources).program p).run 0

/-- A round that changes something removes a declaration, so `fuel` for one round more than there
are declarations is enough. -/
def rounds (sources : SourceMap) : Nat → Program → Supply (Edit Program)
  | 0, _ => return .keep
  | fuel + 1, p => do
    match ← round sources p with
    | .keep => return .keep
    | .put p' => return .put ((← rounds sources fuel p').get p')

end Unused

def Program.removeUnused (sources : SourceMap) (p : Program) : Supply (Edit Program) :=
  Unused.rounds sources (p.allDecls.length + 1) p

end MatchAction
