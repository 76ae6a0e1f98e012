import MiniPascal.CommandLine.Answer

/-! # The command line

Reads the file that is asked for, writes the answer to standard output and everything else to
standard error. -/
set_option autoImplicit false
namespace MiniPascal.CommandLine

def helpText : String :=
  "Usage: minipascal [OPTIONS] [INPUT]\n\n"
    ++ "Arguments:\n"
    ++ "  [INPUT]        Main input file [default: main.pas]\n\n"
    ++ "Options:\n"
    ++ "      --dot      Print the AST as a Graphviz digraph instead of running the program\n"
    ++ "      --symbols  Print the symbol table of every scope after running\n"
    ++ "  -v, --verbose  Print verbose log output\n"
    ++ "  -h, --help     Print help\n"
    ++ "  -V, --version  Print version\n"

def refusalText : Refusal → String
  | .unknownArgument => "error: unexpected argument\n"
  | .invalidValue => "error: the input file needs a name\n"
  | .tooManyValues => "error: an option takes no value\n"
  | .argumentConflict => "error: an option is given more than once\n"
  | .help => helpText
  | .version => "minipascal 0.1.0\n"

def readBytes (path : String) : IO (Except FileError ByteArray) := do
  try
    return .ok (← IO.FS.readBinFile path)
  catch
    | .noFileOrDirectory .. => return .error .missing
    | error => return .error (.unreadable error.toString)

def carryOut (options : Options) : IO UInt32 := do
  let (answer, failure) := answerFile options (← readBytes options.input)
  let level := if options.verbose then LogLevel.debug else .warn
  for record in LogRecord.upTo (some level) answer.log do
    IO.eprintln record.shown
  match failure with
  | none =>
    IO.print (answer.result.toOption.getD "")
    return 0
  | some message =>
    IO.eprintln message
    return 1

def answerCall (arguments : List String) : IO UInt32 := do
  match Options.ofArguments arguments with
  | .ok options => carryOut options
  | .error refusal =>
    if refusal = .help ∨ refusal = .version then
      IO.print (refusalText refusal)
      return 0
    else
      IO.eprint (refusalText refusal)
      return 2

end MiniPascal.CommandLine

/-- The program: reads a file, writes the answer and ends with zero if nothing failed. -/
def main (arguments : List String) : IO UInt32 :=
  MiniPascal.CommandLine.answerCall arguments
