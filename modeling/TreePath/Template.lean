import TreePath.Access

/-!
# Templates

A template is a tree in which some strings are paths into a data tree.  A template that is a string
is read as a path as it stands.  In any other template the strings that begin with `$` are
placeholders; each is replaced by what its path addresses, or by null where nothing is there.  Keys
are left alone, and so is what was put in for a placeholder.
-/

set_option autoImplicit false

namespace TreePath

namespace Template

/-- True of the strings that are placeholders. -/
def isPlaceholder (text : String) : Bool := text.toList.head? == some '$'

/-- What a path text addresses in the data, null where nothing is there. -/
def lookup (data : Node) (text : String) : Except PathError Node := data.readTextOr text .null

mutual

/-- Fills the placeholders of a template, in document order. -/
def substitute (data : Node) : Node → Except PathError Node
  | .mapping entries => return .mapping (← substituteEntries data entries)
  | .sequence items => return .sequence (← substituteItems data items)
  | .scalar (.string text) =>
    if isPlaceholder text then lookup data text else .ok (.scalar (.string text))
  | .scalar value => .ok (.scalar value)

/-- Fills the placeholders in the values of entries. -/
def substituteEntries (data : Node) : List (String × Node) → Except PathError (List (String × Node))
  | [] => .ok []
  | (key, value) :: rest => do
    let filled ← substitute data value
    return (key, filled) :: (← substituteEntries data rest)

/-- Fills the placeholders in items. -/
def substituteItems (data : Node) : List Node → Except PathError (List Node)
  | [] => .ok []
  | item :: rest => do
    let filled ← substitute data item
    return filled :: (← substituteItems data rest)

end

/-- Fills a template from data. -/
def fill (template data : Node) : Except PathError Node :=
  match template with
  | .scalar (.string text) => lookup data text
  | other => substitute data other

end Template

end TreePath
