import Rollup.Command.Console

/-!
# Command-line arguments

Reads the words of a command line.  Options have a long name and perhaps a letter; a value stands in
the same word or in the next one, and one in the next word does not begin with a dash.  Options
that do not repeat are given once.  The path and the verbosity may stand before or behind the
command.
-/

namespace Rollup

/-- How an option is used: without a value, with one, or with one any number of times. -/
inductive OptionUse where
  | flag
  | single
  | repeated
deriving DecidableEq, Repr

/-- What a value has to be. -/
inductive OptionValue where
  | text
  /-- The name of a file or directory: not empty. -/
  | path
  /-- A number that fits into 64 bits. -/
  | number
deriving DecidableEq, Repr

structure OptionRule where
  name : String
  letter : Option Char
  use : OptionUse
  value : OptionValue
deriving DecidableEq, Repr

/-- Why a command line runs no command: it is wrong, or it asks for help or the version. -/
inductive Stop where
  | refused
  | help
  | version
deriving DecidableEq, Repr

/-- The number that digits write, with or without a plus sign. -/
def readNumber? (text : String) : Option Nat :=
  let digits :=
    match text.toList with
    | '+' :: rest => rest
    | chars => chars
  if digits.isEmpty || !digits.all NumberText.isDigit then none
  else
    let n := NumberText.numberOf (NumberText.digitsOf digits)
    if n < Bytes.capacity 8 then some n else none

def OptionValue.accepts : OptionValue → String → Bool
  | .text, _ => true
  | .path, value => !value.isEmpty
  | .number, value => (readNumber? value).isSome

/-- The options read so far, each with its value, in order. -/
abbrev Options := List (String × String)

namespace Options

def isGiven (options : Options) (name : String) : Bool := options.any fun o => o.1 == name

def value? (options : Options) (name : String) : Option String :=
  (options.find? fun o => o.1 == name).map (·.2)

def values (options : Options) (name : String) : List String :=
  (options.filter fun o => o.1 == name).map (·.2)

/-- Adds an option.  Help and version stop at once. -/
def add (options : Options) (rule : OptionRule) (value : String) : Except Stop Options :=
  if rule.name = "help" then .error .help
  else if rule.name = "version" then .error .version
  else if rule.use ≠ .repeated ∧ options.isGiven rule.name then .error .refused
  else if rule.use ≠ .flag ∧ !rule.value.accepts value then .error .refused
  else .ok (options ++ [(rule.name, value)])

end Options

/-- An option that has its value, or still waits for it. -/
inductive OptionStep where
  | ready (options : Options)
  | waiting (options : Options) (rule : OptionRule)

/-- A word with a long name: `--name` or `--name=value`. -/
def readLong (rules : List OptionRule) (options : Options) (word : List Char) :
    Except Stop OptionStep :=
  let name := String.ofList (word.takeWhile (· ≠ '='))
  match rules.find? fun rule => rule.name == name, word.dropWhile (· ≠ '=') with
  | none, _ => .error .refused
  | some rule, [] =>
    if rule.use = .flag then .ready <$> options.add rule "" else .ok (.waiting options rule)
  | some rule, _ :: value =>
    if rule.use = .flag then .error .refused
    else .ready <$> options.add rule (String.ofList value)

/-- The letters of a word: flags, and at the end perhaps an option with its value behind it. -/
def readLetters (rules : List OptionRule) (options : Options) : List Char → Except Stop OptionStep
  | [] => .ok (.ready options)
  | c :: rest =>
    match rules.find? fun rule => rule.letter == some c with
    | none => .error .refused
    | some rule =>
      if rule.use = .flag then do readLetters rules (← options.add rule "") rest
      else
        match rest with
        | [] => .ok (.waiting options rule)
        | '=' :: value => .ready <$> options.add rule (String.ofList value)
        | value => .ready <$> options.add rule (String.ofList value)

/-- Reads options up to the first word that is none, and returns that word and the rest. -/
def readOptions (rules : List OptionRule) :
    OptionStep → List String → Except Stop (Options × Option (String × List String))
  | .ready options, [] => .ok (options, none)
  | .waiting _ _, [] => .error .refused
  | .waiting options rule, word :: words =>
    if word.toList.head? = some '-' ∧ word ≠ "-" then .error .refused
    else do readOptions rules (.ready (← options.add rule word)) words
  | .ready options, word :: words =>
    match word.toList with
    | ['-', '-'] => if words.isEmpty then .ok (options, none) else .error .refused
    | '-' :: '-' :: long => do readOptions rules (← readLong rules options long) words
    | '-' :: c :: letters => do readOptions rules (← readLetters rules options (c :: letters)) words
    | _ => .ok (options, some (word, words))

/-! ### The options of each command -/

namespace OptionRule

def pathRule : OptionRule := ⟨"path", some 'p', .single, .path⟩
def verboseRule : OptionRule := ⟨"verbose", some 'v', .flag, .text⟩
def helpRule : OptionRule := ⟨"help", some 'h', .flag, .text⟩
def versionRule : OptionRule := ⟨"version", some 'V', .flag, .text⟩
def nameRule : OptionRule := ⟨"name", some 'n', .single, .text⟩

/-- The options that may stand before the command. -/
def general : List OptionRule := [pathRule, verboseRule, helpRule, versionRule]

/-- The options of a command and those that may stand behind any. -/
def behind (rules : List OptionRule) : List OptionRule := rules ++ [pathRule, verboseRule, helpRule]

def create : List OptionRule :=
  [nameRule, ⟨"collection", some 'c', .single, .text⟩, ⟨"group-by", some 'g', .repeated, .text⟩,
    ⟨"sum", some 's', .repeated, .text⟩, ⟨"count", none, .repeated, .text⟩]

def map : List OptionRule :=
  [nameRule, ⟨"input", some 'i', .single, .path⟩, ⟨"batch-size", some 'b', .single, .number⟩]

def delete : List OptionRule := [nameRule, ⟨"key", some 'k', .repeated, .text⟩]

def inspect : List OptionRule :=
  [nameRule, ⟨"buckets", some 'b', .flag, .text⟩, ⟨"format", some 'f', .single, .text⟩]

def results : List OptionRule := [nameRule, ⟨"pretty", none, .flag, .text⟩]

/-- The options of the command that a word asks for. -/
def ofWord? (word : String) : Option (List OptionRule) :=
  if word = "create" then some create
  else if word = "map" then some map
  else if word = "delete" then some delete
  else if word = "inspect" then some inspect
  else if word = "results" then some results
  else if word = "version" then some []
  else none

end OptionRule

/-- An option that has to be given. -/
def Options.required (options : Options) (name : String) : Except Stop String :=
  match options.value? name with
  | some value => .ok value
  | none => .error .refused

/-- An option that has to be given at least once. -/
def Options.requiredValues (options : Options) (name : String) : Except Stop (List String) :=
  match options.values name with
  | [] => .error .refused
  | values => .ok values

/-- The command that a word and its options ask for. -/
def Command.ofOptions (word : String) (options : Options) : Except Stop Command :=
  if word = "create" then do
    let name ← options.required "name"
    let groupBy ← options.requiredValues "group-by"
    return .create name ((options.value? "collection").getD "") groupBy (options.values "sum")
      (options.values "count")
  else if word = "map" then do
    let name ← options.required "name"
    let input ← options.required "input"
    return .map name input (((options.value? "batch-size").bind readNumber?).getD 1024)
  else if word = "delete" then do
    let name ← options.required "name"
    return .delete name (← options.requiredValues "key")
  else if word = "inspect" then
    .ok (.inspect (options.value? "name") (options.isGiven "buckets")
      ((options.value? "format").getD "text"))
  else if word = "results" then do
    return .results (← options.required "name") (options.isGiven "pretty")
  else if word = "version" then .ok .version
  else .error .refused

/-- A command line that runs a command. -/
structure Invocation where
  path : Option String
  verbose : Bool
  command : Command
deriving DecidableEq, Repr

/-- The words behind `help`: nothing, or one command. -/
def helpAbout : List String → Stop
  | [] => .help
  | [word] => if (OptionRule.ofWord? word).isSome || word == "help" then .help else .refused
  | _ => .refused

/-- Reads a command line. -/
def Invocation.ofWords (words : List String) : Except Stop Invocation := do
  match ← readOptions OptionRule.general (.ready []) words with
  | (_, none) => throw .refused
  | (before, some (word, rest)) =>
    if word = "help" then throw (helpAbout rest)
    match OptionRule.ofWord? word with
    | none => throw .refused
    | some rules =>
      match ← readOptions (OptionRule.behind rules) (.ready []) rest with
      | (_, some _) => throw .refused
      | (options, none) =>
        let command ← Command.ofOptions word options
        let path := (options.value? "path").or (before.value? "path")
        return ⟨path, before.isGiven "verbose" || options.isGiven "verbose", command⟩

end Rollup
