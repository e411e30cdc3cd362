/-!
# Command lines

A command line has options, the name of a command, and the arguments of the command, of which the
first is a file.  Options come before the command.  A word with a minus in front is an option, unless
it is the minus alone or comes after two minuses alone.
-/

set_option autoImplicit false

namespace TreePath

/-- What is to be done with a document. -/
inductive Command where
  /-- shows a value -/
  | get (path : String)
  /-- stores a value, given as JSON -/
  | set (path value : String)
  /-- removes a value -/
  | delete (path : String)
  /-- fills a template, given as JSON -/
  | rewrite (template : String)
  deriving DecidableEq, Repr

/-- The options that a command line can give. -/
structure Options where
  /-- the file of settings -/
  settings : Option String := none
  /-- JSON is shown and saved without line breaks -/
  compact : Bool := false
  deriving DecidableEq, Repr

/-- A command on a file, with options. -/
structure Invocation where
  options : Options
  file : String
  command : Command
  deriving DecidableEq, Repr

/-- What a command line asks for. -/
inductive Request where
  | run (invocation : Invocation)
  | help
  | version
  /-- the words are no command line -/
  | misuse
  deriving DecidableEq, Repr

namespace Request

/-- The word can be a value or an argument: it does not look like an option. -/
def isPlain (word : String) : Bool :=
  match word.toList with
  | '-' :: _ :: _ => false
  | _ => true

/-- The number of arguments of a command, the file included. -/
def argumentCount? : String → Option Nat
  | "get" => some 2
  | "set" => some 3
  | "delete" => some 2
  | "rewrite" => some 2
  | _ => none

/-- The invocation of a command with its arguments. -/
def ofArguments (options : Options) (name : String) (arguments : List String) : Request :=
  match name, arguments with
  | "get", [file, path] => .run ⟨options, file, .get path⟩
  | "set", [file, path, value] => .run ⟨options, file, .set path value⟩
  | "delete", [file, path] => .run ⟨options, file, .delete path⟩
  | "rewrite", [file, template] => .run ⟨options, file, .rewrite template⟩
  | _, _ => .misuse

/-- Reads the arguments of a command, `missing` of which are still to come; the file must not be
empty. -/
def readArguments (options : Options) (name : String) :
    Nat → Bool → List String → List String → Request
  | missing, _, [], arguments =>
    if missing = 0 then ofArguments options name arguments.reverse else .misuse
  | missing, onlyArguments, word :: words, arguments =>
    if onlyArguments || isPlain word then
      match missing with
      | 0 => .misuse
      | missing + 1 =>
        if arguments.isEmpty && word.isEmpty then .misuse
        else readArguments options name missing onlyArguments words (word :: arguments)
    else if word = "--" then readArguments options name missing true words arguments
    else if word = "--help" || "-h".toList.isPrefixOf word.toList then .help
    else .misuse

/-- The help on a command. -/
def helpOn : List String → Request
  | [] => .help
  | [name] => if name = "help" || (argumentCount? name).isSome then .help else .misuse
  | _ => .misuse

/-- What is left to do with an option: go on, read a value from the next word, or stop. -/
inductive OptionStep where
  | done (options : Options)
  | needsValue (options : Options)
  | stopped (request : Request)

/-- Takes the file of settings, which is named at most once and is not empty. -/
def takeSettings (options : Options) (value : String) : Option Options :=
  if options.settings.isSome || value.isEmpty then none else some { options with settings := some value }

/-- An option with its value attached. -/
def attached (options : Options) (value : List Char) : OptionStep :=
  match takeSettings options (String.ofList value) with
  | some options => .done options
  | none => .stopped .misuse

/-- Reads an option of one word after two minuses. -/
def longOption (options : Options) (name : List Char) : OptionStep :=
  if name = "config".toList then
    if options.settings.isSome then .stopped .misuse else .needsValue options
  else if "config=".toList.isPrefixOf name then attached options (name.drop 7)
  else if name = "compact".toList then
    if options.compact then .stopped .misuse else .done { options with compact := true }
  else if name = "verbose".toList then .done options
  else if name = "help".toList then .stopped .help
  else if name = "version".toList then .stopped .version
  else .stopped .misuse

/-- Reads options of one letter after a minus. -/
def shortOptions (options : Options) : List Char → OptionStep
  | [] => .done options
  | 'v' :: letters => shortOptions options letters
  | 'h' :: _ => .stopped .help
  | 'V' :: _ => .stopped .version
  | ['c'] => if options.settings.isSome then .stopped .misuse else .needsValue options
  | 'c' :: '=' :: value => attached options value
  | 'c' :: value => attached options value
  | _ => .stopped .misuse

/-- Reads options, the name of a command and its arguments. -/
def read (options : Options) : List String → Request
  | [] => .misuse
  | word :: words =>
    let step : Option OptionStep :=
      match word.toList with
      | ['-', '-'] => some (.stopped .misuse)
      | '-' :: '-' :: name => some (longOption options name)
      | '-' :: c :: letters => some (shortOptions options (c :: letters))
      | _ => none
    match step with
    | some (.done options) => read options words
    | some (.needsValue options) =>
      match words with
      | value :: words =>
        if isPlain value then
          match takeSettings options value with
          | some options => read options words
          | none => .misuse
        else .misuse
      | [] => .misuse
    | some (.stopped request) => request
    | none =>
      match argumentCount? word with
      | some count => readArguments options word count false words []
      | none => if word = "help" then helpOn words else .misuse

/-- What the words of a command line ask for. -/
def ofWords (words : List String) : Request := read {} words

end Request

end TreePath
