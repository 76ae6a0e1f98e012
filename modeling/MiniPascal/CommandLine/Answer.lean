import MiniPascal.CommandLine.Options
import MiniPascal.Pipeline

/-! # The answer to a call

What the program writes for a file and options: the diagram of its program, or the frames of a run
in the order in which they were left, followed by the symbols if they are asked for. A failure
leaves nothing written. -/
set_option autoImplicit false
namespace MiniPascal

def decodeFile (bytes : Except FileError ByteArray) : Except FileError String :=
  match bytes with
  | .error error => .error error
  | .ok bytes =>
    match String.fromUTF8? bytes with
    | some source => .ok source
    | none => .error .notText

/-- How deeply the command line lets calls be nested. A program whose calls never end is given up
there, and nothing is said about it. -/
def callLimit : Nat :=
  10000

/-- What the command line makes of a text. -/
def interpret (source : String) : Logged Finished :=
  interpretWithin callLimit source

/-- The frames of a finished run as text, and the symbols of all scopes if they are asked for. -/
def Finished.shown (finished : Finished) (symbols : Bool) : String :=
  String.join (finished.outcome.completed.map Frame.shown)
    ++ if symbols then "\n" ++ finished.scopes.shown else ""

def answerText (options : Options) (source : String) : Logged String :=
  if options.dot then
    let read := readProgram source
    ⟨read.result.map Program.diagram, read.log⟩
  else
    let run := interpret source
    ⟨run.result.map (Finished.shown · options.symbols), run.log⟩

def answerFile (options : Options) (bytes : Except FileError ByteArray) :
    Logged String × Option String :=
  match decodeFile bytes with
  | .error error => (⟨.error (.unreadable error), []⟩, some error.message)
  | .ok source =>
    let answer := answerText options source
    match answer.result with
    | .ok _ => (answer, none)
    | .error failure => (answer, some (failure.message source))

end MiniPascal
