/-! # Options of the command line

Arguments are read from the left. A word that begins with a hyphen is a flag, or several flags of
one letter; every other word is the file to run, and so is every word behind a lone double
hyphen. The first argument that does not fit decides. -/
set_option autoImplicit false
namespace MiniPascal

structure Options where
  input : String
  dot : Bool
  symbols : Bool
  verbose : Bool
deriving DecidableEq

/-- Why arguments are not carried out: they do not fit, or they ask for a text about the program
itself. -/
inductive Refusal where
  | unknownArgument
  | invalidValue
  | tooManyValues
  | argumentConflict
  | help
  | version
deriving DecidableEq

namespace Options

inductive Flag where
  | dot | symbols | verbose | help | version
deriving DecidableEq

/-- The flag of a long name. Names are not abbreviated. -/
def Flag.ofName? (name : String) : Option Flag :=
  [("dot", Flag.dot), ("symbols", .symbols), ("verbose", .verbose), ("help", .help),
    ("version", .version)].lookup name

def Flag.ofLetter? : Char → Option Flag
  | 'v' => some .verbose
  | 'h' => some .help
  | 'V' => some .version
  | _ => none

def defaultInput : String :=
  "main.pas"

structure Draft where
  input : Option String
  flags : List Flag

/-- A file name may not be empty. It is looked at when the next flag or the end is reached. -/
def Draft.checked (draft : Draft) : Except Refusal Draft :=
  if draft.input = some "" then .error .invalidValue else .ok draft

/-- Adds a flag. A flag may be given once. -/
def Draft.addFlag (draft : Draft) (flag : Flag) : Except Refusal Draft := do
  let draft ← draft.checked
  match flag with
  | .help => throw .help
  | .version => throw .version
  | flag =>
    if draft.flags.contains flag then throw .argumentConflict
    else return { draft with flags := flag :: draft.flags }

def Draft.addLetters (draft : Draft) : List Char → Except Refusal Draft
  | [] => .ok draft
  | letter :: rest =>
    match Flag.ofLetter? letter with
    | none => .error .unknownArgument
    | some flag =>
      match draft.addFlag flag with
      | .error refusal => .error refusal
      | .ok draft => draft.addLetters rest

/-- Adds a flag of a long name. Flags have no values. -/
def Draft.addNamed (draft : Draft) (text : List Char) : Except Refusal Draft :=
  match Flag.ofName? (String.ofList (text.takeWhile (· != '='))) with
  | none => .error .unknownArgument
  | some flag => if text.contains '=' then .error .tooManyValues else draft.addFlag flag

/-- Adds the file. There is one at most. -/
def Draft.addInput (draft : Draft) (input : String) : Except Refusal Draft :=
  if draft.input.isSome then .error .unknownArgument else .ok { draft with input := some input }

/-- Reads words none of which is a flag. -/
def Draft.readPlain (draft : Draft) : List String → Except Refusal Draft
  | [] => .ok draft
  | word :: rest =>
    match draft.addInput word with
    | .error refusal => .error refusal
    | .ok draft => draft.readPlain rest

def Draft.addWord (draft : Draft) (word : String) : Except Refusal Draft :=
  match word.toList with
  | '-' :: '-' :: name => draft.addNamed name
  | '-' :: letter :: letters => draft.addLetters (letter :: letters)
  | _ => draft.addInput word

def Draft.readAll (draft : Draft) : List String → Except Refusal Draft
  | [] => .ok draft
  | word :: rest =>
    if word = "--" then draft.readPlain rest
    else
      match draft.addWord word with
      | .error refusal => .error refusal
      | .ok draft => draft.readAll rest

def ofArguments (arguments : List String) : Except Refusal Options := do
  let draft ← Draft.readAll ⟨none, []⟩ arguments
  let draft ← draft.checked
  return ⟨draft.input.getD defaultInput, draft.flags.contains .dot, draft.flags.contains .symbols,
    draft.flags.contains .verbose⟩

end Options
end MiniPascal
