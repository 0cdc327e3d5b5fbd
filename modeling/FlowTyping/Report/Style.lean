import FlowTyping.Diagnostic.Basic
import FlowTyping.Terminal.Width

/-!
# Styled text

Pieces of a report are set off by weight and colour on terminals that show it. A tab inside a piece is
shown as four blanks. The plain text of a report is the styled one without its control sequences.
-/

namespace FlowTyping

/-- How a piece of text is set off: a colour is one of the 256 of a terminal's palette. -/
structure Style where
  bold : Bool := false
  color : Option Nat := none
  deriving DecidableEq, Repr

namespace Style

/-- The paths, headers and names that lines are about. -/
def subject : Style := { bold := true }

/-- Places and variables. -/
def location : Style := { color := some 245 }

/-- Codes of findings. -/
def code : Style := { color := some 241 }

/-- Remarks. -/
def dim : Style := { color := some 241 }

/-- Good news. -/
def good : Style := { color := some 42 }

/-- Errors and failures. -/
def error : Style := { bold := true, color := some 196 }

def warning : Style := { bold := true, color := some 214 }

def advisory : Style := { color := some 63 }

/-- The style of a severity. -/
def ofSeverity : Severity → Style
  | .error => error
  | .warning => warning
  | .advisory => advisory

/-- The numbers of the control sequence that switches a style on. -/
def codes (s : Style) : List String :=
  (if s.bold then ["1"] else []) ++
    match s.color with
    | some n => ["38;5;" ++ toString n]
    | none => []

/-- A line in a style: control sequences stand around it unless it is empty. -/
def line (s : Style) (text : Text) : Text :=
  if text.isEmpty then text
  else ("\x1b[" ++ ";".intercalate s.codes ++ "m" : String) ++ text ++ ("\x1b[m" : Text)

/-- A text with its tabs shown as blanks and its line ends as line feeds. -/
def tidy : Text.Bytes → Text.Bytes
  | [] => []
  | 0x09 :: rest => 0x20 :: 0x20 :: 0x20 :: 0x20 :: tidy rest
  | 0x0d :: 0x0a :: rest => 0x0a :: tidy rest
  | b :: rest => b :: tidy rest

/-- Lines of one width: the shorter ones are filled up with blanks. -/
def align (lines : List Text) : List Text :=
  let widths := lines.map Terminal.columns
  let widest := widths.foldl max 0
  lines.zipWith (fun line width => line ++ Text.ofList (List.replicate (widest - width) 0x20)) widths

/-- A piece of text in a style. One of several lines becomes a block of its own width. -/
def apply (s : Style) (text : Text) : Text :=
  match (Text.ofList (tidy text.toList)).lines with
  | [text] => s.line text
  | lines => Text.joinWith "\n" (align (lines.map s.line))

end Style
end FlowTyping
