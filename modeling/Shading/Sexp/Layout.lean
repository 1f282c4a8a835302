/-
  Shading.Sexp.Layout — S-expressions with their line breaks.

  Everything the library writes as an S-expression is a `Layout` first: the words and lists, and
  which lists go over several lines.  `Layout.render` is the only function that writes parentheses,
  blanks and line ends.

      line [a, b, c]                     (a b c)

      rows [a, b] [r, s] true            (a b
                                             r
                                             s
                                         )

      rows [a, b] [r, s] false           (a b
                                             r
                                             s)
-/

namespace Shading

/-- An S-expression as it is laid out. -/
inductive Layout where
  /-- A word, written as it is. -/
  | word (text : String)
  /-- A list whose items follow each other with one space between them. -/
  | line (items : List Layout)
  /-- A list that begins with `head` and has each item of `below` on a line of its own, one level
      deeper; if it is `closed`, its closing parenthesis has a line of its own too. -/
  | rows (head below : List Layout) (closed : Bool)
deriving Inhabited

namespace Layout

/-- A line end and the indentation of the next line: four spaces a level. -/
def newline (depth : Nat) : String := "\n" ++ String.ofList (List.replicate (4 * depth) ' ')

/-- Texts with one space between two. -/
def spaced (texts : List String) : String := " ".intercalate texts

/-- Texts that each begin a line indented by `depth` levels. -/
def stacked (depth : Nat) (texts : List String) : String :=
  String.join (texts.map (newline depth ++ ·))

mutual

/-- The text of a layout that begins on a line indented by `depth` levels. -/
def render (depth : Nat) : Layout → String
  | word text => text
  | line items => "(" ++ spaced (renderAll depth items) ++ ")"
  | rows head below closed =>
    "(" ++ spaced (renderAll depth head) ++ stacked (depth + 1) (renderAll (depth + 1) below)
      ++ (if closed then newline depth else "") ++ ")"
termination_by structural layout => layout

/-- The texts of the layouts, one by one. -/
def renderAll (depth : Nat) : List Layout → List String
  | [] => []
  | item :: rest => render depth item :: renderAll depth rest
termination_by structural items => items

end

/-- The text of a layout that begins at the margin. -/
def text (layout : Layout) : String := layout.render 0

end Layout

end Shading
