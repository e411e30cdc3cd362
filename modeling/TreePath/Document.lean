import TreePath.Config
import TreePath.Json.Reader
import TreePath.Yaml.Printer
import TreePath.Yaml.Reader

/-!
# Documents

A document is the text of a tree in one of two formats.  Loading goes through the values of the
format; fitting goes through content of unknown shape and accepts less of YAML.
-/

set_option autoImplicit false

namespace TreePath

/-- A text format of documents. -/
inductive Format where
  | json
  | yaml
  deriving DecidableEq, Repr

/-- Why a text is no document. -/
inductive SyntaxFault where
  | json
  | yaml
  | yamlKey
  deriving DecidableEq, Repr

/-- The words for the fault. -/
def SyntaxFault.message : SyntaxFault → String
  | json => "Failed to parse JSON"
  | yaml => "Failed to parse YAML"
  | yamlKey => "Unsupported YAML key: mapping keys must be scalars"

namespace Format

/-- Reads a document. -/
def load (format : Format) (text : String) : Except SyntaxFault Node :=
  match format with
  | .json =>
    match Json.read? text with
    | some value => .ok (Node.ofJson value)
    | none => .error .json
  | .yaml =>
    match Yaml.read? text with
    | some value =>
      if value.hasDistinctKeys then
        match Node.ofYaml? value with
        | some node => .ok node
        | none => .error .yamlKey
      else .error .yaml
    | none => .error .yaml

/-- Reads a document by fitting its content to the shapes of a tree. -/
def fit? (format : Format) (text : String) : Option Node :=
  match format with
  | .json => do Node.ofContent? (Content.ofJson (← Json.read? text))
  | .yaml => do Node.ofContent? (← Content.ofYaml? (← Yaml.read? text))

/-- The text of a tree. -/
def render (format : Format) (config : Config) (node : Node) : String :=
  match format with
  | .json => Json.render config.style node
  | .yaml => Yaml.render node

end Format

end TreePath
