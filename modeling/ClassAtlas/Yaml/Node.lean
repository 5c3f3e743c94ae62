import ClassAtlas.Text.Utf8

/-!
# YAML documents

A document is a tree of mappings and sequences of scalars. A node may have a name, and a reference
stands for the node with that name.

A plain scalar may stand for something other than its text: for nothing, a truth value or a number.
A scalar in quotes always stands for its text. A tag before a scalar says what the scalar is.
-/

namespace ClassAtlas.Yaml

/-- How a scalar is written. -/
inductive Style where
  | plain
  | single
  | double
  /-- Lines below a bar, indented and otherwise unchanged. -/
  | literal
  /-- Lines below an angle bracket, indented and joined by spaces. -/
  | folded
  deriving DecidableEq

/-- The bytes of a tag. An escape in a tag names a byte, so that they need not be a text. -/
abbrev Tag := List UInt8

namespace Tag

/-- The tag that a text spells. -/
def ofText (text : String) : Tag := Text.utf8Encode text.toList

/-- The common start of the tags that the language itself defines. -/
def coreStart : Tag := ofText "tag:yaml.org,2002:"

/-- A tag that the language itself defines. -/
def core (name : String) : Tag := coreStart ++ ofText name

/-- What follows the exclamation mark of a tag that starts with one. -/
def localName? : Tag → Option String
  | 0x21 :: rest => String.ofList <$> Text.utf8Decode? rest
  | _ => none

end Tag

/-- A text in a document. -/
structure Scalar where
  style : Style
  text : String
  tag : Option Tag := none
  deriving DecidableEq

/-- The value at a place of a document. -/
inductive Node where
  | scalar (value : Scalar)
  | sequence (items : List Node)
  | mapping (entries : List (Node × Node))
  /-- Stands for the node with this number. -/
  | reference (number : Nat)

/-- What stands where nothing is written. -/
def Node.absent : Node := .scalar { style := .plain, text := "" }

/-- A node and the nodes to which references in it lead. -/
structure Document where
  root : Node
  /-- The nodes that have numbers. Of two with one number the earlier in this list counts. -/
  numbered : List (Nat × Node)

/-- The node for which a node stands. -/
def Document.follow (document : Document) : Node → Node
  | .reference number => (document.numbered.lookup number).getD .absent
  | node => node

end ClassAtlas.Yaml
