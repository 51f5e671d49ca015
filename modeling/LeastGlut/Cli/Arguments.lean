/-
# Command lines

A command line names a command, the paths it works on and its options.
Options may stand anywhere behind the command, each at most once: in long form
with the value behind `=` or as the next word, or in short form with the value
behind `=`, right behind the letter, or as the next word. A next word that is
a value does not start with a dash, unless it is one dash. Behind a word `--`
every word is a path. No path is empty.

Key definitions: `Cli.Command`, `Cli.parse`.
-/
import LeastGlut.Strategy

namespace LeastGlut
namespace Cli

/-- How solutions are printed. -/
inductive Format
  | text
  | json
  deriving DecidableEq

def Format.ofName? : String → Except NameError Format
  | "text" => .ok .text
  | "json" => .ok .json
  | _ => .error .unmatched

inductive Command
  | encode (path : String) (strategy : Strategy)
  | solve (paths : List String) (strategy : Strategy) (format : Format) (solver : String)
  | compare (paths : List String) (solver : String)
  deriving DecidableEq

def Command.paths : Command → List String
  | encode path _ => [path]
  | solve paths .. => paths
  | compare paths _ => paths

/-- Why a command line is refused. -/
inductive UsageError
  | noCommand
  | unknownCommand (word : String)
  | unknownOption (word : String)
  | repeatedOption (word : String)
  | missingValue (word : String)
  | invalidValue (value : String)
  | missingPath
  | emptyPath
  | extraPath (path : String)
  deriving DecidableEq

/-- An option of a command; each takes a value. -/
inductive Flag
  | strategy
  | format
  | clingo
  deriving DecidableEq

def Flag.long : Flag → String
  | strategy => "strategy"
  | format => "format"
  | clingo => "clingo"

def Flag.short? : Flag → Option Char
  | strategy => some 's'
  | format => some 'f'
  | clingo => none

/-- The form of a word; the value behind an option's name is kept with it. -/
inductive Word
  | separator
  | long (name : String) (value : Option String)
  | short (letter : Char) (value : Option String)
  | plain
  deriving DecidableEq

def Word.ofText (word : String) : Word :=
  match word.toList with
  | ['-', '-'] => .separator
  | '-' :: '-' :: rest =>
    let name := String.ofList (rest.takeWhile (· != '='))
    match rest.dropWhile (· != '=') with
    | [] => .long name none
    | _ :: value => .long name (some (String.ofList value))
  | ['-', letter] => .short letter none
  | '-' :: letter :: '=' :: value => .short letter (some (String.ofList value))
  | '-' :: letter :: value => .short letter (some (String.ofList value))
  | _ => .plain

/-- The option that a word names, with the value behind the name. -/
def Word.flag? (flags : List Flag) : Word → Option (Flag × Option String)
  | .long name value => (flags.find? fun f => f.long = name).map (·, value)
  | .short letter value => (flags.find? fun f => f.short? = some letter).map (·, value)
  | _ => none

/-- The options and the paths of a command line, each in order. -/
structure Words where
  options : List (Flag × String)
  paths : List String
  deriving DecidableEq

namespace Words

def addOption (flag : Flag) (value : String) (w : Words) : Words :=
  { w with options := (flag, value) :: w.options }

def addPath (path : String) (w : Words) : Words := { w with paths := path :: w.paths }

/-- Tells options from paths, where only some options are allowed. -/
def gather (flags : List Flag) : List String → Except UsageError Words
  | [] => .ok ⟨[], []⟩
  | word :: rest => match Word.ofText word with
    | .separator => .ok ⟨[], rest⟩
    | .plain => (gather flags rest).map (addPath word)
    | form => match form.flag? flags with
      | none => .error (.unknownOption word)
      | some (flag, some value) => (gather flags rest).map (addOption flag value)
      | some (flag, none) => match rest with
        | [] => .error (.missingValue word)
        | value :: rest =>
          if Word.ofText value = .plain then (gather flags rest).map (addOption flag value)
          else .error (.missingValue word)

/-- Refuses an option given twice and an empty path. -/
def check (w : Words) : Except UsageError Words :=
  match w.options.find? fun (flag, _) => 1 < w.options.countP fun (f, _) => f = flag with
  | some (flag, _) => .error (.repeatedOption flag.long)
  | none => if w.paths.contains "" then .error .emptyPath else .ok w

def strategy (w : Words) : Except UsageError Strategy :=
  match w.options.lookup .strategy with
  | none => .ok .naive
  | some value => (Strategy.ofName? value).mapError fun _ => .invalidValue value

def format (w : Words) : Except UsageError Format :=
  match w.options.lookup .format with
  | none => .ok .text
  | some value => (Format.ofName? value).mapError fun _ => .invalidValue value

/-- The path of the answer-set solver. -/
def solver (w : Words) : Except UsageError String :=
  match w.options.lookup .clingo with
  | none => .ok "clingo"
  | some value => if value.isEmpty then .error (.invalidValue value) else .ok value

def onePath (w : Words) : Except UsageError String :=
  match w.paths with
  | [] => .error .missingPath
  | [path] => .ok path
  | _ :: extra :: _ => .error (.extraPath extra)

def somePaths (w : Words) : Except UsageError (List String) :=
  if w.paths.isEmpty then .error .missingPath else .ok w.paths

end Words

/-- Reads the words behind the program's name. -/
def parse : List String → Except UsageError Command
  | [] => .error .noCommand
  | "encode" :: rest => do
    let w ← (← Words.gather [.strategy] rest).check
    return .encode (← w.onePath) (← w.strategy)
  | "solve" :: rest => do
    let w ← (← Words.gather [.strategy, .format, .clingo] rest).check
    return .solve (← w.somePaths) (← w.strategy) (← w.format) (← w.solver)
  | "compare" :: rest => do
    let w ← (← Words.gather [.clingo] rest).check
    return .compare (← w.somePaths) (← w.solver)
  | word :: _ => .error (.unknownCommand word)

end Cli
end LeastGlut
