/-
Settings that change along a score.

A change names a scope (the whole score, a staff, a voice) and the settings it
sets there; it holds from its place on. `InForce` is what all changes so far
have left: each setting of each scope was set by the last change that named
it. Visibility is taken from the voice, and the voice of a hidden staff is
hidden; requests are taken from the staff, else from the score; the time
signature is the score's.
-/
import Divisi.Request
import Divisi.Signature

namespace Divisi

/-- Where a change applies. -/
inductive Scope where
  | score
  | staff (staff : Nat)
  | voice (staff voice : Nat)
  deriving Repr, DecidableEq

/-- Settings that are given, the others left as they are. -/
structure Settings where
  time : Option Signature := none
  visible : Option Bool := none
  request : Option Request := none
  deriving Repr, DecidableEq, Inhabited

namespace Settings

/-- The settings `new`, and those of `old` that `new` does not give. -/
def orElse (new old : Settings) : Settings :=
  { time := new.time <|> old.time
    visible := new.visible <|> old.visible
    request := new.request <|> old.request }

end Settings

structure Change where
  scope : Scope
  settings : Settings := {}
  deriving Repr, DecidableEq

/-- What every scope has been set to so far. -/
structure InForce where
  settings : Scope → Settings := fun _ => {}

namespace InForce

/-- At the top of a piece nothing has been set. -/
def start : InForce := {}

/-- A start at which the score as a whole is hidden. -/
def hidden : InForce :=
  { settings := fun scope => if scope = .score then { visible := false } else {} }

def apply (f : InForce) (c : Change) : InForce :=
  { settings := fun scope =>
      if scope = c.scope then c.settings.orElse (f.settings scope) else f.settings scope }

/-- What a sequence of changes leaves in force. -/
def after (changes : List Change) : InForce := changes.foldl apply start

def time (f : InForce) : Signature := (f.settings .score).time.getD {}

def staffVisible (f : InForce) (staff : Nat) : Bool :=
  ((f.settings (.staff staff)).visible <|> (f.settings .score).visible).getD true

def voiceVisible (f : InForce) (staff voice : Nat) : Bool :=
  f.staffVisible staff && (f.settings (.voice staff voice)).visible.getD true

/-- The request for a staff. One that names fewer than two voices asks for
nothing, and hides the score's. -/
def request (f : InForce) (staff : Nat) : Option Request :=
  ((f.settings (.staff staff)).request <|> (f.settings .score).request).filter Request.isActive

end InForce

end Divisi
