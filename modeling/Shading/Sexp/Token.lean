/-
  Shading.Sexp.Token — the words of an S-expression's text, and where they stand.

  Space, tab, carriage return and line feed separate words; so does a comment, which runs from a
  semicolon to the end of its line; a parenthesis stands for itself.  Everything else is a word, and
  words are as long as they can be.  `scan` splits a text in one pass, `Word.ofChars?` says what a
  word is:

      digits, with or without a minus sign                      an integer
      digits with a point, an exponent or both                  a fractional number
      anything that does not begin like a number                a symbol
      the rest (`5x`, `1.5.`, `-.5e`)                           not a word of the language
-/
import Shading.Number.Decimal

namespace Shading

/-! ## §1. Positions -/

/-- A place in a text: line and column from one, counted in characters. -/
structure Pos where
  line : Nat
  column : Nat
deriving DecidableEq, Repr

namespace Pos

/-- The place of the first character. -/
def start : Pos := ⟨1, 1⟩

/-- The place after a character: only a line feed begins a line. -/
def next (p : Pos) (c : Char) : Pos :=
  if c = '\n' then ⟨p.line + 1, 1⟩ else ⟨p.line, p.column + 1⟩

/-- The place after a run of characters. -/
def after (p : Pos) (cs : List Char) : Pos := cs.foldl next p

/-- Line and column with a colon between them. -/
def text (p : Pos) : String := toString p.line ++ ":" ++ toString p.column

end Pos

/-! ## §2. Words -/

/-- What a word of the text is. -/
inductive Word where
  | symbol (name : String)
  | int (value : Int)
  | float (negative : Bool) (value : Decimal)
deriving DecidableEq, Repr

/-- Does the word begin with a digit, after an optional minus sign and an optional point? -/
def beginsLikeNumber (cs : List Char) : Bool :=
  let rest := (splitSign cs).2
  let rest := match rest with
    | '.' :: rest => rest
    | rest => rest
  match rest with
  | c :: _ => c.isDigit
  | [] => false

/-- The word that these characters spell, if they spell one. -/
def Word.ofChars? (cs : List Char) : Option Word :=
  match Decimal.signed? cs with
  | some (negative, value) => some (.float negative value)
  | none =>
    match integer? cs with
    | some value => some (.int value)
    | none => if beginsLikeNumber cs then none else some (.symbol (String.ofList cs))

/-! ## §3. Scanning -/

/-- A token: a parenthesis, or the characters of a word. -/
inductive Token where
  | open
  | close
  | word (chars : List Char)
deriving DecidableEq, Repr

/-- A token and the place of its first character. -/
structure Placed where
  pos : Pos
  token : Token
deriving DecidableEq, Repr

/-- Does the character separate words without being part of anything? -/
def isBlank (c : Char) : Bool := c = ' ' || c = '\t' || c = '\r' || c = '\n'

/-- Can the character be part of a word? -/
def isWordChar (c : Char) : Bool := !(isBlank c || c = '(' || c = ')' || c = ';')

/-- What the scanner is inside of. -/
inductive Scanner where
  /-- Between two words. -/
  | gap
  /-- In a comment. -/
  | comment
  /-- In a word that began at `start`; its characters so far, the last one first. -/
  | word (start : Pos) (reversed : List Char)

namespace Scanner

/-- The word that ends here, if the scanner is inside of one. -/
def flush : Scanner → List Placed
  | word start reversed => [⟨start, .word reversed.reverse⟩]
  | _ => []

/-- The scanner after one more character of a word. -/
def extend (pos : Pos) (c : Char) : Scanner → Scanner
  | word start reversed => word start (c :: reversed)
  | _ => word pos [c]

/-- The tokens of the rest of a text, which begins at `pos`. -/
def run (s : Scanner) (pos : Pos) : List Char → List Placed
  | [] => s.flush
  | c :: cs =>
    match s with
    | comment => if c = '\n' then run gap (pos.next c) cs else run comment (pos.next c) cs
    | s =>
      if isBlank c then s.flush ++ run gap (pos.next c) cs
      else if c = ';' then s.flush ++ run comment (pos.next c) cs
      else if c = '(' then s.flush ++ ⟨pos, .open⟩ :: run gap (pos.next c) cs
      else if c = ')' then s.flush ++ ⟨pos, .close⟩ :: run gap (pos.next c) cs
      else run (s.extend pos c) (pos.next c) cs

end Scanner

/-- The tokens of a text. -/
def scan (cs : List Char) : List Placed := Scanner.gap.run .start cs

end Shading
