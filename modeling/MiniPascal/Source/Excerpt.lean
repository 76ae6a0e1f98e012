import MiniPascal.Source.Position

/-! # Excerpts

A message about a place shows the lines around it: at most two on each side, numbered, with a
marker line under the line that is meant. An excerpt is first a list of lines as data and then
a text, so that what is shown and how it is laid out stay apart. -/
set_option autoImplicit false
namespace MiniPascal

/-- A line from its characters in reverse, read up to its line feed: one carriage return in front
of the line feed belongs to the ending. -/
def endedLine : List Char → List Char
  | '\r' :: line => line.reverse
  | line => line.reverse

/-- The lines of a text, when the characters given first have been read of a line, in reverse. -/
def linesFrom : List Char → List Char → List (List Char)
  | line, [] => if line.isEmpty then [] else [line.reverse]
  | line, c :: rest =>
    if c = '\n' then endedLine line :: linesFrom [] rest else linesFrom (c :: line) rest

/-- The lines of a text without their endings. Nothing follows a final line feed, so a text that
ends in one has no empty last line. -/
def textLines (source : String) : List (List Char) :=
  linesFrom [] source.toList

/-- One line of an excerpt: a numbered line of the text, or a marker behind some dashes. -/
inductive ExcerptLine where
  | numbered (number : Int32) (text : List Char)
  | marker (dashes : Nat)
deriving DecidableEq

/-- Lines shown on each side of the line that is meant. -/
def excerptMargin : Int32 :=
  2

/-- Width of the line number and the bar in front of every shown line. -/
def gutterWidth : Nat :=
  7

/-- Whether a line is near enough to be shown. The distance is a 32-bit word. -/
def nearLine (position : Position) (number : Int32) : Bool :=
  decide ((position.line - number).abs ≤ excerptMargin)

/-- Dashes in front of the marker: the gutter and the columns before the one that is meant.
A column before the first one counts as the first. -/
def markerDashes (position : Position) : Nat :=
  gutterWidth + ((max position.column 1).toInt.toNat - 1)

/-- The excerpt of the given lines, the first of which has the given number. -/
def excerptFrom (position : Position) : Int32 → List (List Char) → List ExcerptLine
  | _, [] => []
  | number, line :: rest =>
    let later := excerptFrom position (number + 1) rest
    if nearLine position number then
      if number = position.line then
        .numbered number line :: .marker (markerDashes position) :: later
      else .numbered number line :: later
    else later

def excerptLines (source : String) (position : Position) : List ExcerptLine :=
  excerptFrom position 1 (textLines source)

def padLeft (width : Nat) (text : String) : String :=
  String.ofList (List.replicate (width - text.length) ' ') ++ text

def ExcerptLine.shown : ExcerptLine → String
  | .numbered number text => padLeft 6 number.toInt.repr ++ "|" ++ String.ofList text ++ "\n"
  | .marker dashes => String.ofList (List.replicate dashes '-') ++ "^\n"

/-- The text shown for a position: every line of the excerpt ends in a line feed. -/
def excerpt (source : String) (position : Position) : String :=
  String.join ((excerptLines source position).map ExcerptLine.shown)

end MiniPascal
