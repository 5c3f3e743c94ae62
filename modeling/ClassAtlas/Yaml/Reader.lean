import ClassAtlas.Yaml.Scan

/-!
# Reading documents

The tokens of a text are put together to the nodes of a document. Where a node is expected and none
is written, an empty plain scalar stands.

Every reader of a collection takes a bound on the number of its steps. Two steps read at least one
token, so `Document.ofTokens?` gives twice the number of tokens as the bound.

## Main definitions

* `NodeReader.node` reads a node.
* `Document.ofTokens?` puts tokens together.
* `Document.read?` reads a document.
-/

namespace ClassAtlas.Yaml

/-- The tokens that are left, and what has been said about names and handles. -/
structure TokenStream where
  tokens : List Token
  /-- The start of the tags with each handle. -/
  handles : List (String × Tag)
  /-- The number of the last node with each name. -/
  names : List (String × Nat)
  /-- The nodes with numbers, of which the last comes first. -/
  numbered : List (Nat × Node)

/-- A reader of nodes. -/
abbrev NodeReader (α : Type) := StateT TokenStream Option α

namespace NodeReader

/-- The next token, which stays unread. -/
def peek : NodeReader (Option Token) := return (← get).tokens.head?

/-- Passes over the next token. -/
def skip : NodeReader Unit := modify fun s => { s with tokens := s.tokens.drop 1 }

/-- Passes over the next token if it is `token`. -/
def eat (token : Token) : NodeReader Bool := do
  if (← peek) = some token then
    skip
    return true
  return false

/-- The next token is one of `tokens`. -/
def sees (tokens : List Token) : NodeReader Bool := return (← peek).any tokens.contains

/-! ## Names and tags -/

/-- Gives the next node a name. Its number is the number of names so far, so that a name that is
given again may share its number with a later one. -/
def enter (name : String) : NodeReader Nat := do
  let s ← get
  let number := s.names.length
  set { s with names := (name, number) :: s.names.filter (·.1 ≠ name) }
  return number

/-- Reads a node. If it has a number, it comes before the numbered nodes inside it. -/
def numbering (number : Option Nat) (reader : NodeReader Node) : NodeReader Node := do
  let earlier := (← get).numbered
  modify fun s => { s with numbered := [] }
  let node ← reader
  let own := number.toList.map (·, node)
  modify fun s => { s with numbered := s.numbered ++ own ++ earlier }
  return node

/-- The tag that is written with a handle. -/
def resolveTag (handle : String) (rest : Tag) : NodeReader Tag := do
  if handle.isEmpty then return rest
  return (← (← get).handles.lookup handle) ++ rest

/-- Reads the name of a node, if it has one. -/
def anchor? : NodeReader (Option String) := do
  match ← peek with
  | some (.anchor name) => do
    skip
    return some name
  | _ => return none

/-- Reads the tag of a node, if it has one. -/
def tag? : NodeReader (Option Tag) := do
  match ← peek with
  | some (.tag handle rest) => do
    skip
    return some (← resolveTag handle rest)
  | _ => return none

/-- Reads the name and the tag of a node, which come in either order. -/
def properties : NodeReader (Option String × Option Tag) := do
  match ← anchor? with
  | some name => return (some name, ← tag?)
  | none =>
    match ← tag? with
    | some tag => return (← anchor?, some tag)
    | none => return (none, none)

/-- A scalar with the tag that is written before it. A lone exclamation mark says nothing. -/
def taggedScalar (style : Style) (text : String) (tag : Option Tag) : Node :=
  .scalar { style, text, tag := tag.filter (· ≠ Tag.ofText "!") }

/-! ## Nodes -/

mutual

/-- Reads a node. A sequence without brackets that stands at the column of a key has no start of its
own; `shared` says that it may stand here. -/
def node (shared : Bool) : Nat → NodeReader Node
  | 0 => failure
  | fuel + 1 => do
    if let some (.reference name) ← peek then
      skip
      return .reference (← (← get).names.lookup name)
    let (name, tag) ← properties
    let number ← name.mapM enter
    numbering number do
      if shared && (← sees [.dash]) then return .sequence (← items true fuel)
      match ← peek with
      | some (.scalar style text) => do
        skip
        return taggedScalar style text tag
      | some .openBracket => do
        skip
        return .sequence (← bracketItems fuel)
      | some .openBrace => do
        skip
        return .mapping (← braceEntries fuel)
      | some .sequenceStart => do
        skip
        return .sequence (← items false fuel)
      | some .mappingStart => do
        skip
        return .mapping (← entries fuel)
      | _ =>
        if name.isNone && tag.isNone then failure
        return .scalar { style := .plain, text := "", tag }
termination_by structural fuel => fuel

/-- Reads the items of a sequence without brackets. -/
def items (shared : Bool) : Nat → NodeReader (List Node)
  | 0 => failure
  | fuel + 1 => do
    if ← eat .dash then
      let ends := [.dash, .collectionEnd] ++ if shared then [.key, .colon] else []
      let item ← if ← sees ends then pure .absent else node false fuel
      return item :: (← items shared fuel)
    if shared then return []
    if !(← eat .collectionEnd) then failure
    return []
termination_by structural fuel => fuel

/-- Reads the entries of a mapping without brackets. -/
def entries : Nat → NodeReader (List (Node × Node))
  | 0 => failure
  | fuel + 1 => do
    if ← eat .collectionEnd then return []
    if !(← eat .key) then failure
    let ends := [.key, .colon, .collectionEnd]
    let key ← if ← sees ends then pure .absent else node true fuel
    let marked ← eat .colon
    let value ← if !marked || (← sees ends) then pure .absent else node true fuel
    return (key, value) :: (← entries fuel)
termination_by structural fuel => fuel

/-- Reads the items up to the closing bracket. An entry without braces is no item. -/
def bracketItems : Nat → NodeReader (List Node)
  | 0 => failure
  | fuel + 1 => do
    if ← eat .closeBracket then return []
    let item ← node false fuel
    if ← eat .closeBracket then return [item]
    if !(← eat .comma) then failure
    return item :: (← bracketItems fuel)
termination_by structural fuel => fuel

/-- Reads the entries up to the closing brace. A node that is no key is an entry without a value. -/
def braceEntries : Nat → NodeReader (List (Node × Node))
  | 0 => failure
  | fuel + 1 => do
    if ← eat .closeBrace then return []
    let announced ← eat .key
    let ends := [.comma, .closeBrace]
    let key ← if announced && (← sees (.colon :: ends)) then pure .absent else node false fuel
    let marked ← if announced then eat .colon else pure false
    let value ← if !marked || (← sees ends) then pure .absent else node false fuel
    if ← eat .closeBrace then return [(key, value)]
    if !(← eat .comma) then failure
    return (key, value) :: (← braceEntries fuel)
termination_by structural fuel => fuel

end

/-! ## Documents -/

/-- The versions of the language that are read. -/
def languageVersions : List (Nat × Nat) := [(1, 1), (1, 2)]

/-- The handles that need no directive. -/
def standardHandles : List (String × Tag) := [("!", Tag.ofText "!"), ("!!", Tag.coreStart)]

/-- Reads directives, which do not repeat each other. Says whether there were any. -/
def directives (versioned : Bool) : Nat → NodeReader Bool
  | 0 => return false
  | fuel + 1 => do
    match ← peek with
    | some (.version major minor) => do
      if versioned || !languageVersions.contains (major, minor) then failure
      skip
      let _ ← directives true fuel
      return true
    | some (.handle name start) => do
      let s ← get
      if (s.handles.lookup name).isSome then failure
      set { s with handles := (name, start) :: s.handles }
      skip
      let _ ← directives versioned fuel
      return true
    | _ => return false

/-- Passes over the marks for the end of a document. -/
def endMarks : NodeReader Unit :=
  modify fun s => { s with tokens := s.tokens.dropWhile (· = .documentEnd) }

/-- Reads the only document. If three dashes mark its start, it may be empty. -/
def document (fuel : Nat) : NodeReader Node := do
  if (← peek).isNone then return .absent
  let directed ← directives false fuel
  modify fun s => { s with handles := s.handles ++ standardHandles }
  let marked ← eat .documentStart
  if directed && !marked then failure
  let empty := marked && ((← peek).isNone || (← sees [.documentStart, .documentEnd]))
  let root ← if empty then pure .absent else node false fuel
  endMarks
  if (← peek).isSome then failure
  return root

end NodeReader

/-- The document that tokens make up. -/
def Document.ofTokens? (tokens : List Token) : Option Document := do
  let (root, s) ← (NodeReader.document (2 * tokens.length + 2)).run ⟨tokens, [], [], []⟩
  return ⟨root, s.numbered⟩

/-- Writes every line break as a line feed, but for the two separators that only Unicode has. -/
def unifyBreaks : List Char → List Char
  | [] => []
  | '\r' :: '\n' :: rest => '\n' :: unifyBreaks rest
  | c :: rest => (if c = '\r' ∨ c = '\u0085' then '\n' else c) :: unifyBreaks rest

/-- A text without the mark for its byte order. -/
def dropByteOrderMark : List Char → List Char
  | '\ufeff' :: rest => rest
  | cs => cs

/-- The document that a text holds. -/
def Document.read? (text : String) : Option Document := do
  let cs := unifyBreaks (dropByteOrderMark text.toList)
  if !cs.all isAllowed then none
  Document.ofTokens? (← Token.scan? cs)

end ClassAtlas.Yaml
