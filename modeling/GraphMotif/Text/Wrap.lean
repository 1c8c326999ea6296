import GraphMotif.Text.Blank
import GraphMotif.Text.CellWidth

/-!
# Wrapping text

A label is laid out in lines of at most `width` cells. Lines break between words; only a word that
is wider than a whole line is cut. White space stays at the end of the line it follows, as far as
there is room for it.
-/

namespace GraphMotif

/-- The distance between two tab stops. -/
def tabStop : Nat := 8

/-- Whether a character would move the cursor instead of showing (bell, backspace, vertical tab,
form feed, carriage return). -/
def isCursorControl (c : Char) : Bool :=
  c == '\x07' || c == '\x08' || c == '\x0b' || c == '\x0c' || c == '\r'

/-- A line in which every tab is replaced by blanks up to the next tab stop; `column` cells stand
before it. -/
def expandTabs (column : Nat) : List Char → List Char
  | [] => []
  | c :: cs =>
    if c = '\t' then
      let blanks := tabStop - column % tabStop
      List.replicate blanks ' ' ++ expandTabs (column + blanks) cs
    else c :: expandTabs (column + cellWidth c) cs

/-- The lines of a text, without their line feeds. -/
def splitLines : List Char → List (List Char)
  | [] => [[]]
  | c :: cs =>
    if c = '\n' then [] :: splitLines cs
    else match splitLines cs with
      | [] => [[c]]
      | line :: lines => (c :: line) :: lines

/-- The first word of a line, with the white space around it, and the rest of the line. -/
def readWord (cs : List Char) : List Char × List Char :=
  let lead := cs.takeWhile isBlank
  let cs := cs.dropWhile isBlank
  let body := cs.takeWhile (!isBlank ·)
  let cs := cs.dropWhile (!isBlank ·)
  (lead ++ body ++ cs.takeWhile isBlank, cs.dropWhile isBlank)

theorem length_readWord (cs : List Char) :
    (readWord cs).1.length + (readWord cs).2.length = cs.length := by
  have split (p : Char → Bool) (l : List Char) :
      (l.takeWhile p).length + (l.dropWhile p).length = l.length := by
    rw [← List.length_append, List.takeWhile_append_dropWhile]
  simp only [readWord, List.length_append]
  have h₁ := split isBlank cs
  have h₂ := split (!isBlank ·) (cs.dropWhile isBlank)
  have h₃ := split isBlank ((cs.dropWhile isBlank).dropWhile (!isBlank ·))
  omega

/-- The words of a line, each with the white space after it and the first with that before it. A
line of nothing but white space has none. -/
def words (cs : List Char) : List (List Char) :=
  if cs.all isBlank then []
  else
    let next := readWord cs
    if next.2.length < cs.length then next.1 :: words next.2 else []
termination_by cs.length

/-- Cuts a word into pieces of at most `width` cells, each as long as possible. `piece` is the piece
being filled and `used` its cells. -/
def chop (width : Nat) (piece : List Char) (used : Nat) : List Char → List (List Char)
  | [] => [piece]
  | c :: cs =>
    if used + cellWidth c ≤ width then chop width (piece ++ [c]) (used + cellWidth c) cs
    else piece :: chop width [c] (cellWidth c) cs

/-- Lines under construction: those that are complete, the last one, and its cells. -/
structure Layout where
  done : List (List Char)
  line : List Char
  used : Nat

namespace Layout

/-- The layout before the first word. -/
def init : Layout := { done := [], line := [], used := 0 }

/-- The layout with a piece at the start of a line. -/
def breakBefore (l : Layout) (piece : List Char) : Layout :=
  if l.line.isEmpty then { l with line := piece, used := cells piece }
  else { done := l.done ++ [l.line], line := piece, used := cells piece }

/-- The layout with one more word: on the line where it fits, cut up where it fits on no line, and
else on a new line. -/
def add (width : Nat) (l : Layout) (word : List Char) : Layout :=
  let size := cells (trimEnd word)
  if l.used + size ≤ width then
    { l with line := l.line ++ word, used := l.used + cells word }
  else if width < size then (chop width [] 0 word).foldl breakBefore l
  else l.breakBefore word

/-- All lines. -/
def lines (l : Layout) : List (List Char) := l.done ++ [l.line]

end Layout

/-- The first `width` cells of a line; where that would split a character, a blank stands for it. -/
def cropCells : Nat → List Char → List Char
  | _, [] => []
  | width, c :: cs =>
    if cellWidth c ≤ width then c :: cropCells (width - cellWidth c) cs
    else List.replicate width ' '

/-- Fits a line into `width` cells: white space at the end of a line of more than `width` characters
is removed as far as needed, then the line is cropped. -/
def fitLine (width : Nat) (line : List Char) : List Char :=
  let blanks := (line.reverse.takeWhile isBlank).length
  let line := line.take (line.length - min blanks (line.length - width))
  if width < cells line then cropCells width line else line

/-- Wraps a line without line feeds. -/
def wrapLine (width : Nat) (line : List Char) : List (List Char) :=
  let line := expandTabs 0 line
  let lines := match words line with
    | [] => [line]
    | words => (words.foldl (Layout.add width) Layout.init).lines
  lines.map (fitLine width)

/-- Wraps a label into lines of at most `width` cells; without any room there are no lines. -/
def wrap (width : Nat) (label : List Char) : List (List Char) :=
  if width = 0 then []
  else (splitLines (label.filter (!isCursorControl ·))).flatMap (wrapLine width)

end GraphMotif
