/-!
# Settings of the pipeline

Two switches: whether functions go through single assignment form, and whether flow graphs are
checked between passes. A text sets a switch, trimmed of white space and without regard to the case
of ASCII letters. A text that is no flag changes nothing.
-/

namespace Flowgraph

namespace Flag

/-- The characters that count as white space, as ranges of code points. -/
def blankRanges : List (Nat × Nat) :=
  [(0x9, 0xd), (0x20, 0x20), (0x85, 0x85), (0xa0, 0xa0), (0x1680, 0x1680), (0x2000, 0x200a),
    (0x2028, 0x2029), (0x202f, 0x202f), (0x205f, 0x205f), (0x3000, 0x3000)]

/-- Whether a character counts as white space. -/
def isBlank (c : Char) : Bool :=
  blankRanges.any fun range => range.1 ≤ c.toNat && c.toNat ≤ range.2

/-- Take white space away at both ends. -/
def trim (text : List Char) : List Char :=
  ((text.dropWhile isBlank).reverse.dropWhile isBlank).reverse

/-- Read a flag. -/
def read? (text : String) : Option Bool :=
  let word := String.ofList ((trim text.toList).map Char.toLower)
  if word = "1" ∨ word = "true" then
    some true
  else if word = "0" ∨ word = "false" then
    some false
  else
    none

end Flag

/-- The settings of the pipeline. -/
structure Settings where
  ssa : Bool := false
  verify : Bool := true
  deriving DecidableEq, Inhabited

namespace Settings

/-- The default settings, changed by the texts that are flags. -/
def ofTexts (ssa verify : Option String) : Settings :=
  let default : Settings := {}
  { ssa := (ssa.bind Flag.read?).getD default.ssa
    verify := (verify.bind Flag.read?).getD default.verify }

end Settings

end Flowgraph
