/-
YAML documents as trees.

Of a scalar the tree keeps its text and whether it was written plain, without
quotes: only a plain scalar may stand for something else than text.
-/
namespace Divisi.Yaml

structure Scalar where
  text : String
  plain : Bool
  deriving Repr, DecidableEq

inductive Node where
  | scalar (value : Scalar)
  | list (items : List Node)
  | map (entries : List (Scalar × Node))
  deriving Repr, Inhabited

namespace Node

/-- A scalar that stands for itself. -/
def quoted (text : String) : Node := .scalar { text, plain := false }

/-- A scalar that stands for what its text resolves to. -/
def plain (text : String) : Node := .scalar { text, plain := true }

/-- What stands where nothing is written. -/
def empty : Node := plain ""

end Node

end Divisi.Yaml
