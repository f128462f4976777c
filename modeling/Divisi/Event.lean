/-
The log: what happened to a score on the way, in order.
-/
namespace Divisi

inductive Level where
  | warn | debug | trace
  deriving Repr, DecidableEq

def Level.name : Level → String
  | warn => "WARN"
  | debug => "DEBUG"
  | trace => "TRACE"

inductive Event where
  | tagDropped (name : String)
  | voiceErased (measure staff voice : Nat)
  | chordsBuilt (measure count : Nat)
  | pairTested (measure chord staff first second : Nat) (compatible : Bool)
  | pairDeclined (measure staff dest src : Nat)
  | mergeWithdrawn (staff dest src : Nat)
  | mergeMade (measure chord staff dest src : Nat)
  | handsCombined (count total : Nat)
  deriving Repr, DecidableEq

namespace Event

def level : Event → Level
  | tagDropped .. => .warn
  | voiceErased .. | chordsBuilt .. | handsCombined .. => .debug
  | pairTested .. | pairDeclined .. | mergeWithdrawn .. | mergeMade .. => .trace

def message : Event → String
  | tagDropped name => s!"tag '{name}' named a group of an invisible voice; dropped"
  | voiceErased measure staff voice =>
    s!"measure {measure}: staff {staff} voice {voice} is invisible, replaced by a space"
  | chordsBuilt measure count => s!"measure {measure}: {count} chords"
  | pairTested measure chord staff first second compatible =>
    s!"measure {measure} chord {chord} staff {staff}: voices {first} and {second} " ++
      (if compatible then "compatible" else "incompatible")
  | pairDeclined measure staff dest src =>
    s!"measure {measure} staff {staff}: voices {dest} and {src} disagree with a neighbor"
  | mergeWithdrawn staff dest src =>
    s!"staff {staff}: voice {src} no longer merges into voice {dest}, " ++
      "a linked hand keeps them apart"
  | mergeMade measure chord staff dest src =>
    s!"measure {measure} chord {chord} staff {staff}: voice {src} merged into voice {dest}"
  | handsCombined count total => s!"combined voices in {count} of {total} hands"

/-- One line of the log, `[DEBUG] measure 1: 2 chords`. -/
def line (e : Event) : String := "[" ++ e.level.name ++ "] " ++ e.message

end Event

end Divisi
