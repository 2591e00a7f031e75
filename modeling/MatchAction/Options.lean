import MatchAction.Settings

namespace MatchAction

/-- The revision of the language a program is written in. -/
inductive Dialect
  | legacy
  | current
deriving DecidableEq

def Dialect.ofName? : String → Option Dialect
  | "legacy" => some .legacy
  | "current" => some .current
  | _ => none

def Dialect.name : Dialect → String
  | .legacy => "legacy"
  | .current => "current"

structure Options where
  dialect : Dialect
  /-- Log the program after every pass. -/
  dumpPasses : Bool
  /-- What variables that hold table keys are called. -/
  keyName : String
deriving DecidableEq

namespace Options

def standard : Options := ⟨.current, false, "tmp"⟩

/-- Changes the option that the entry names. -/
def set? (o : Options) : Settings.Entry → Option Options
  | ⟨"dialect", .text s⟩ => (Dialect.ofName? s).map fun d => { o with dialect := d }
  | ⟨"dump_passes", .flag b⟩ => some { o with dumpPasses := b }
  | ⟨"key_temp_prefix", .text s⟩ => some { o with keyName := s }
  | _ => none

/-- No option may be given twice. -/
def ofEntries? (es : List Settings.Entry) : Option Options :=
  let keys := es.map (·.key)
  if keys.eraseDups.length = keys.length then es.foldlM set? standard else none

def parse? (text : String) : Option Options := (Settings.parse? text).bind ofEntries?

end Options

end MatchAction
