import ClassAtlas.Yaml.Node

/-!
# Tokens of a document

A document is read in two steps. The text is divided into tokens, and the tokens are put together to
nodes. Some tokens stand for what only the layout says: where a collection without brackets starts
and ends, and that a key comes next.
-/

namespace ClassAtlas.Yaml

/-- A token of a document. -/
inductive Token where
  /-- A directive with the version of the language. -/
  | version (major minor : Nat)
  /-- A directive that says with what the tags start that are written with a handle. -/
  | handle (name : String) (start : Tag)
  /-- Three dashes. -/
  | documentStart
  /-- Three dots. -/
  | documentEnd
  /-- A sequence without brackets starts. -/
  | sequenceStart
  /-- A mapping without brackets starts. -/
  | mappingStart
  /-- A collection without brackets ends. -/
  | collectionEnd
  | openBracket
  | closeBracket
  | openBrace
  | closeBrace
  | comma
  | dash
  /-- A key comes next. -/
  | key
  | colon
  /-- The next node gets a name. -/
  | anchor (name : String)
  /-- Stands for the node with this name. -/
  | reference (name : String)
  /-- The tag of the next node, after the handle with which it is written. -/
  | tag (handle : String) (rest : Tag)
  | scalar (style : Style) (text : String)
  deriving DecidableEq

end ClassAtlas.Yaml
