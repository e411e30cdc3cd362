import TreePath.Yaml.Token

/-!
# The tree of a YAML document

Tokens form the tree that a document presents: scalars, sequences and mappings with their anchors and
tags, and aliases that stand for an anchored node.  A text holds at most one document here; nothing
but its end markers may follow it.

The functions recurse on fuel.  At most two calls in a row read no token, so fuel of three times the
number of tokens is enough.
-/

set_option autoImplicit false

namespace TreePath

namespace Yaml

/-- The anchor and the tag in front of a node. -/
structure Properties where
  anchor : Option String
  tag : Option String
  deriving Repr

/-- A node as a document presents it, with aliases that name their node by an `α`. -/
inductive Tree (α : Type) where
  | scalar (properties : Properties) (plain : Bool) (text : String)
  | sequence (properties : Properties) (items : List (Tree α))
  | mapping (properties : Properties) (entries : List (Tree α × Tree α))
  | alias (anchor : α)
  deriving Repr

/-- A node whose aliases are the names of anchors. -/
abbrev NamedTree := Tree String

/-- The node that an empty place stands for. -/
def NamedTree.empty : NamedTree := .scalar ⟨none, none⟩ true ""

/-- What the handles of tags stand for. -/
abbrev Handles := List (String × String)

/-- The handles that need no directive. -/
def standardHandles : Handles := [("!", "!"), ("!!", "tag:yaml.org,2002:")]

/-- The name of a tag; a handle that is not declared has none. -/
def TagText.name? (handles : Handles) (tag : TagText) : Option String :=
  if tag.handle.isEmpty then some tag.suffix
  else (handles.lookup tag.handle).map (· ++ tag.suffix)

/-- Reads the anchor and the tag in front of a node, in either order. -/
def properties? (handles : Handles) : List Token → Option (Properties × List Token)
  | .anchor name :: .tag tag :: rest => do
    return (⟨some name, some (← tag.name? handles)⟩, rest)
  | .tag tag :: .anchor name :: rest => do
    return (⟨some name, some (← tag.name? handles)⟩, rest)
  | .anchor name :: rest => some (⟨some name, none⟩, rest)
  | .tag tag :: rest => do return (⟨none, some (← tag.name? handles)⟩, rest)
  | rest => some (⟨none, none⟩, rest)

/-- Where a node stands. -/
inductive Place where
  /-- in a block collection -/
  | block
  /-- a key or a value of a block mapping, where a sequence needs no indentation of its own -/
  | entry
  /-- in a flow collection -/
  | flow
  deriving DecidableEq

/-- The tag of a scalar and whether its text is to be resolved.  The lone tag `!` says nothing of a
scalar that is written. -/
def scalarOf (properties : Properties) (plain : Bool) (text : String) : NamedTree :=
  if properties.tag == some "!" then .scalar { properties with tag := none } plain text
  else .scalar properties plain text

/-- A node of which only the anchor or the tag is written. -/
def parseMissing (properties : Properties) (rest : List Token) : Option (NamedTree × List Token) :=
  if properties.anchor.isSome || properties.tag.isSome then some (.scalar properties true "", rest)
  else none

mutual

/-- Reads a node. -/
def parseNode (handles : Handles) (place : Place) : Nat → List Token → Option (NamedTree × List Token)
  | 0, _ => none
  | _ + 1, .alias name :: rest => some (.alias name, rest)
  | fuel + 1, tokens => do
    let (properties, rest) ← properties? handles tokens
    match rest with
    | .scalar plain text :: rest => return (scalarOf properties plain text, rest)
    | .flowSequenceStart :: rest =>
      let (items, rest) ← parseFlowItems handles true fuel rest
      return (.sequence properties items, rest)
    | .flowMappingStart :: rest =>
      let (entries, rest) ← parseFlowEntries handles true fuel rest
      return (.mapping properties entries, rest)
    | .blockEntry :: _ =>
      if place == .entry then
        let (items, rest) ← parseFlatItems handles fuel rest
        return (.sequence properties items, rest)
      else parseMissing properties rest
    | .blockSequenceStart :: inner =>
      if place != .flow then
        let (items, rest) ← parseBlockItems handles fuel inner
        return (.sequence properties items, rest)
      else parseMissing properties rest
    | .blockMappingStart :: inner =>
      if place != .flow then
        let (entries, rest) ← parseBlockEntries handles fuel inner
        return (.mapping properties entries, rest)
      else parseMissing properties rest
    | rest => parseMissing properties rest

/-- Reads the items of an indented block sequence, up to its end. -/
def parseBlockItems (handles : Handles) : Nat → List Token → Option (List NamedTree × List Token)
  | 0, _ => none
  | fuel + 1, .blockEntry :: rest => do
    let (item, rest) ←
      match rest with
      | .blockEntry :: _ | .blockEnd :: _ => some (NamedTree.empty, rest)
      | _ => parseNode handles .block fuel rest
    let (items, rest) ← parseBlockItems handles fuel rest
    return (item :: items, rest)
  | _ + 1, .blockEnd :: rest => some ([], rest)
  | _ + 1, _ => none

/-- Reads the items of a block sequence without indentation of its own. -/
def parseFlatItems (handles : Handles) : Nat → List Token → Option (List NamedTree × List Token)
  | 0, _ => none
  | fuel + 1, .blockEntry :: rest => do
    let (item, rest) ←
      match rest with
      | .blockEntry :: _ | .key :: _ | .value :: _ | .blockEnd :: _ => some (NamedTree.empty, rest)
      | _ => parseNode handles .block fuel rest
    let (items, rest) ← parseFlatItems handles fuel rest
    return (item :: items, rest)
  | _ + 1, rest => some ([], rest)

/-- Reads a key or a value of a block mapping behind its indicator. -/
def parseBlockPart (handles : Handles) (fuel : Nat) (tokens : List Token) : Option (NamedTree × List Token) :=
  match tokens with
  | .key :: _ | .value :: _ | .blockEnd :: _ => some (NamedTree.empty, tokens)
  | _ => match fuel with
    | 0 => none
    | fuel + 1 => parseNode handles .entry fuel tokens

/-- Reads the entries of a block mapping, up to its end. -/
def parseBlockEntries (handles : Handles) : Nat → List Token → Option (List (NamedTree × NamedTree) × List Token)
  | 0, _ => none
  | fuel + 1, .key :: rest => do
    let (key, rest) ← parseBlockPart handles fuel rest
    let (value, rest) ←
      match rest with
      | .value :: rest => parseBlockPart handles fuel rest
      | _ => some (NamedTree.empty, rest)
    let (entries, rest) ← parseBlockEntries handles fuel rest
    return ((key, value) :: entries, rest)
  | _ + 1, .blockEnd :: rest => some ([], rest)
  | _ + 1, _ => none

/-- Reads the items of a flow sequence, up to its end; a comma precedes all but the first. -/
def parseFlowItems (handles : Handles) (first : Bool) : Nat → List Token → Option (List NamedTree × List Token)
  | 0, _ => none
  | _ + 1, .flowSequenceEnd :: rest => some ([], rest)
  | fuel + 1, tokens => do
    let tokens ←
      if first then some tokens
      else match tokens with
        | .flowEntry :: rest => some rest
        | _ => none
    match tokens with
    | .flowSequenceEnd :: rest => return ([], rest)
    | .key :: rest =>
      let (pair, rest) ← parseFlowPair handles fuel rest
      let (items, rest) ← parseFlowItems handles false fuel rest
      return (.mapping ⟨none, none⟩ [pair] :: items, rest)
    | tokens =>
      let (item, rest) ← parseNode handles .flow fuel tokens
      let (items, rest) ← parseFlowItems handles false fuel rest
      return (item :: items, rest)

/-- Reads the only entry of a mapping that is an item of a flow sequence, behind its key indicator.
What ends an empty key is read with it. -/
def parseFlowPair (handles : Handles) (fuel : Nat) (tokens : List Token) : Option ((NamedTree × NamedTree) × List Token) :=
  match fuel with
  | 0 => none
  | fuel + 1 => do
    let (key, rest) ←
      match tokens with
      | .value :: rest | .flowEntry :: rest | .flowSequenceEnd :: rest => some (NamedTree.empty, rest)
      | _ => parseNode handles .flow fuel tokens
    match rest with
    | .value :: rest =>
      match rest with
      | .flowEntry :: _ | .flowSequenceEnd :: _ => return ((key, NamedTree.empty), rest)
      | _ =>
        let (value, rest) ← parseNode handles .flow fuel rest
        return ((key, value), rest)
    | _ => return ((key, NamedTree.empty), rest)

/-- Reads a key or a value of a flow mapping behind its indicator. -/
def parseFlowPart (handles : Handles) (atEnd : Token → Bool) (fuel : Nat) (tokens : List Token) :
    Option (NamedTree × List Token) :=
  match tokens with
  | token :: _ =>
    if atEnd token then some (NamedTree.empty, tokens)
    else match fuel with
      | 0 => none
      | fuel + 1 => parseNode handles .flow fuel tokens
  | [] => none

/-- Reads the entries of a flow mapping, up to its end; a comma precedes all but the first. -/
def parseFlowEntries (handles : Handles) (first : Bool) : Nat → List Token → Option (List (NamedTree × NamedTree) × List Token)
  | 0, _ => none
  | _ + 1, .flowMappingEnd :: rest => some ([], rest)
  | fuel + 1, tokens => do
    let tokens ←
      if first then some tokens
      else match tokens with
        | .flowEntry :: rest => some rest
        | _ => none
    match tokens with
    | .flowMappingEnd :: rest => return ([], rest)
    | .key :: rest =>
      let (key, rest) ← parseFlowPart handles
        (fun t => t == .value || t == .flowEntry || t == .flowMappingEnd) fuel rest
      let (value, rest) ←
        match rest with
        | .value :: rest =>
          parseFlowPart handles (fun t => t == .flowEntry || t == .flowMappingEnd) fuel rest
        | _ => some (NamedTree.empty, rest)
      let (entries, rest) ← parseFlowEntries handles false fuel rest
      return ((key, value) :: entries, rest)
    | tokens =>
      let (key, rest) ← parseNode handles .flow fuel tokens
      let (entries, rest) ← parseFlowEntries handles false fuel rest
      return ((key, NamedTree.empty) :: entries, rest)

end

/-! ## Documents -/

/-- Reads the directives of a document.  A directive must not be repeated, and the version has to be
1.1 or 1.2. -/
def directives? (version : Bool) (handles : Handles) : List Token → Option (Handles × List Token)
  | .version major minor :: rest =>
    if version || major != 1 || (minor != 1 && minor != 2) then none
    else directives? true handles rest
  | .tagDirective handle name :: rest =>
    if (handles.lookup handle).isSome then none else directives? version ((handle, name) :: handles) rest
  | rest => some (handles, rest)

/-- Nothing follows the document but markers of its end. -/
def atStreamEnd (tokens : List Token) : Bool := tokens.dropWhile (· == .documentEnd) == [.streamEnd]

/-- The node of the only document of a text, nothing inside when the text has none. -/
def document? (tokens : List Token) : Option (Option NamedTree) :=
  match tokens with
  | [.streamEnd] => some none
  | first :: _ => do
    let (declared, rest) ← directives? false [] tokens
    let handles := declared ++ standardHandles
    let fuel := 3 * tokens.length + 3
    let (tree, rest) ←
      match rest with
      | .documentStart :: rest =>
        match rest with
        | .version .. :: _ | .tagDirective .. :: _ | .documentStart :: _ | .documentEnd :: _
        | .streamEnd :: _ => some (NamedTree.empty, rest)
        | _ => parseNode handles .block fuel rest
      | _ =>
        match first with
        | .version .. | .tagDirective .. => none
        | _ => parseNode handles .block fuel rest
    if atStreamEnd rest then return some tree else none
  | [] => none

end Yaml

end TreePath
