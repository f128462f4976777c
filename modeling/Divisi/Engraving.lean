/-
From a description to an engraved score.

A description is read and loaded, the score is checked, its chords are built,
and unless its options turn that off its voices are combined. The first step
that fails ends the work; what had happened to the score until then stays in
the log.
-/
import Divisi.Chording
import Divisi.Combination
import Divisi.Description.Decode
import Divisi.Loading
import Divisi.Report
import Divisi.Validation
import Divisi.Yaml.Reader

namespace Divisi

/-- A result, and what happened on the way to it. -/
structure Logged (α : Type) where
  events : List Event := []
  result : Except Fault α

namespace Score

/-- The score that a tree describes. -/
def ofNode (node : Yaml.Node) : Except Fault Score :=
  match Description.ofNode? node with
  | none => .error .unreadable
  | some d => (load d).mapError .invalid

/-- The score that a YAML document describes. -/
def ofText (text : String) : Except Fault Score :=
  match Yaml.Node.ofText? text with
  | none => .error .unreadable
  | some node => ofNode node

/-- Builds chords and, unless the options turn it off, combines voices. -/
def process (s : Score) : Logged Score :=
  let built := s.buildChords
  match built.fault with
  | some fault => { events := built.events, result := .error fault }
  | none =>
    if built.now.header.options.combine then
      match built.now.combineVoices with
      | .error fault => { events := built.events, result := .error fault }
      | .ok c => { events := built.events ++ c.events, result := .ok c.score }
    else { events := built.events, result := .ok built.now }

/-- Checks a score before it is processed. -/
def engrave (s : Score) : Logged Score :=
  match s.validate with
  | .error fault => { result := .error fault }
  | .ok () => s.process

def withOptions (s : Score) (options : Options) : Score :=
  { s with header := { s.header with options } }

end Score

/-- Goes on with a score that was read, or with the fault that kept it from
being read. -/
def Logged.after {α : Type} (read : Except Fault Score) (next : Score → Logged α) : Logged α :=
  match read with
  | .error fault => { result := .error fault }
  | .ok s => next s

/-- The report of the score that a document describes, once it is engraved. -/
def Report.ofText (text : String) : Except Fault Report :=
  (Logged.after (Score.ofText text) Score.engrave).result.map Report.ofScore

end Divisi
