/-
Characters as YAML sorts them.
-/
namespace Divisi.Yaml

/-- The characters that end a line. -/
def isBreak (c : Char) : Bool := c.toNat ∈ [0x0A, 0x0D, 0x85, 0x2028, 0x2029]

/-- The characters that part words on one line. -/
def isSpace (c : Char) : Bool := c == ' ' || c == '\t'

/-- What may follow an indicator: a space, a tab or the end of a line. -/
def isGap (c : Char) : Bool := isSpace c || isBreak c

/-- The mark that may stand in front of a document. -/
def isByteOrderMark (c : Char) : Bool := c.toNat == 0xFEFF

/-- The characters that a document may hold. -/
def isAllowed (c : Char) : Bool :=
  let n := c.toNat
  c == '\t' || isBreak c || (0x20 ≤ n && n ≤ 0x7E) || (0xA0 ≤ n && n ≤ 0xFFFD) || 0x10000 ≤ n

/-- The brackets and the comma of flow collections. -/
def isFlowIndicator (c : Char) : Bool := c ∈ [',', '[', ']', '\x7b', '\x7d']

/-- The characters that no plain scalar begins with: the flow and node
indicators, both quotes, the percent sign, the at sign and the grave accent. -/
def isIndicator (c : Char) : Bool :=
  isFlowIndicator c || c ∈ ['#', '&', '*', '!', '|', '>', '\x27', '\x22', '%', '@', '\x60']

end Divisi.Yaml
