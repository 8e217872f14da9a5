import StorageWeave.Text.Blank

/-!
# Command line arguments

The two commands and their options, each with a short and a long name. The value of an option is
the next argument, or stands after an equals sign in the same one.
-/

namespace StorageWeave.Command

/-- A command with its options. -/
inductive Invocation where
  | instrument (input output : String) (libraries : List String) (config : Option String)
  | inspect (input : String) (className : Option String)
  deriving DecidableEq, Repr

/-- Why arguments are refused. -/
inductive ArgumentError where
  | noCommand
  | unknownCommand (name : String)
  | unknownOption (name : String)
  | noValue (option : String)
  | missing (option : String)
  | repeated (option : String)
  deriving DecidableEq, Repr

/-- The wording of an error. -/
def ArgumentError.message : ArgumentError → String
  | .noCommand => "a command is required: instrument or inspect"
  | .unknownCommand name => "unknown command " ++ name
  | .unknownOption name => "unknown option " ++ name
  | .noValue option => "option " ++ option ++ " needs a value"
  | .missing option => "option " ++ option ++ " is required"
  | .repeated option => "option " ++ option ++ " is given twice"

/-- The names of an option. -/
structure OptionName where
  short : String
  long : String
  deriving DecidableEq, Repr

def inputOption : OptionName := ⟨"-i", "--input"⟩
def outputOption : OptionName := ⟨"-o", "--output"⟩
def libraryOption : OptionName := ⟨"-l", "--lib"⟩
def configOption : OptionName := ⟨"-c", "--config"⟩
def classOption : OptionName := ⟨"-c", "--class"⟩

/-- The options of a command line with their values. -/
abbrev Settings : Type := List (OptionName × String)

/-- An argument split at its first equals sign. -/
def splitArgument (argument : String) : String × Option String :=
  match Text.splitAt '=' argument.toList with
  | name :: first :: rest =>
    (String.ofList name, some ("=".intercalate ((first :: rest).map String.ofList)))
  | _ => (argument, none)

/-- The options in a list of arguments. -/
def readSettings (known : List OptionName) : List String → Except ArgumentError Settings
  | [] => .ok []
  | argument :: rest => do
    let (name, value) := splitArgument argument
    match known.find? fun o => o.short = name ∨ o.long = name with
    | none => throw (.unknownOption name)
    | some option =>
      match value, rest with
      | some value, rest => return (option, value) :: (← readSettings known rest)
      | none, value :: rest => return (option, value) :: (← readSettings known rest)
      | none, [] => throw (.noValue option.long)

/-- The values of an option. -/
def valuesOf (settings : Settings) (option : OptionName) : List String :=
  (settings.filter fun s => s.1 = option).map Prod.snd

/-- The value of an option that may be given once. -/
def optionalValue (settings : Settings) (option : OptionName) :
    Except ArgumentError (Option String) :=
  match valuesOf settings option with
  | [] => .ok none
  | [value] => .ok (some value)
  | _ => .error (.repeated option.long)

/-- The value of an option that must be given. -/
def requiredValue (settings : Settings) (option : OptionName) : Except ArgumentError String := do
  match ← optionalValue settings option with
  | some value => return value
  | none => throw (.missing option.long)

/-- Reads a command line. -/
def readArguments : List String → Except ArgumentError Invocation
  | [] => .error .noCommand
  | "instrument" :: rest => do
    let settings ← readSettings [inputOption, outputOption, libraryOption, configOption] rest
    let input ← requiredValue settings inputOption
    let output ← requiredValue settings outputOption
    let config ← optionalValue settings configOption
    return .instrument input output (valuesOf settings libraryOption) config
  | "inspect" :: rest => do
    let settings ← readSettings [inputOption, classOption] rest
    return .inspect (← requiredValue settings inputOption) (← optionalValue settings classOption)
  | name :: _ => .error (.unknownCommand name)

end StorageWeave.Command
