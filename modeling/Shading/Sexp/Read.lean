/-
  Shading.Sexp.Read — S-expressions from text.

  Reading has two stages, because a text that is ill-formed anywhere is reported as that, even if a
  number before the flaw is out of range:

    * `Grammar.flaw` finds the first place where the tokens stop being S-expressions: a word that is
      none, a parenthesis that closes nothing, a list that the end of the text leaves open, and,
      where a single expression is wanted, whatever stands in place of it or after it;
    * `Forest.build` makes the trees, and fails only on a number out of range.

  `readExpressions` reads a text as any number of S-expressions, `readExpression` as exactly one.
-/
import Shading.Sexp.Node
import Shading.Sexp.Token

namespace Shading

/-! ## §1. Errors -/

/-- Why a text cannot be read. -/
inductive SexpError where
  /-- The text is no S-expression; the place says where that shows. -/
  | grammar (pos : Pos)
  /-- A number is out of range. -/
  | literal (chars : List Char)
  /-- There is nothing to read. -/
  | empty
deriving DecidableEq, Repr

/-- The error in words. -/
def SexpError.message : SexpError → String
  | grammar pos => "There was a grammatical error in the S-expression: " ++ pos.text
  | literal chars => "The numeric literal '" ++ String.ofList chars ++ "' is out of range"
  | empty => "No S-expression was found"

/-! ## §2. The grammar -/

/-- How many S-expressions a text should hold. -/
inductive Extent where
  | one
  | many
deriving DecidableEq, Repr

namespace Grammar

/-- Where the grammar stands: how many lists are open, and whether an expression has begun. -/
structure Progress where
  depth : Nat
  begun : Bool
deriving DecidableEq, Repr

/-- Has the wanted single expression ended, so that nothing may follow? -/
def Progress.isOver (extent : Extent) (p : Progress) : Bool :=
  extent = .one && p.begun && p.depth = 0

/-- The progress after a token, if the token may stand there. -/
def Progress.step? (extent : Extent) (p : Progress) (token : Token) : Option Progress :=
  if p.isOver extent then none
  else
    match token with
    | .open => some ⟨p.depth + 1, true⟩
    | .close => if p.depth = 0 then none else some ⟨p.depth - 1, true⟩
    | .word chars => if (Word.ofChars? chars).isSome then some ⟨p.depth, true⟩ else none

/-- May the text end here? -/
def Progress.mayEnd (extent : Extent) (p : Progress) : Bool :=
  p.depth = 0 && (extent = .many || p.begun)

/-- The first place, `stop` being the end of the text, at which the tokens are not as they should
    be. -/
def flaw (extent : Extent) (stop : Pos) (p : Progress) : List Placed → Option Pos
  | [] => if p.mayEnd extent then none else some stop
  | t :: ts =>
    match p.step? extent t.token with
    | none => some t.pos
    | some p => flaw extent stop p ts

end Grammar

/-! ## §3. Building the trees -/

/-- The number of an integer word, if it fits into 64 bits. -/
def int64? (value : Int) : Option Int64 :=
  if Int64.minValue.toInt ≤ value ∧ value ≤ Int64.maxValue.toInt then some (.ofInt value) else none

/-- The node of a word.  An integer has to fit into 64 bits, and a fractional number must not round
    to infinity. -/
def nodeOfWord (chars : List Char) : Except SexpError Node :=
  match Word.ofChars? chars with
  | some (.symbol name) => .ok (.symbol name)
  | some (.int value) =>
    match int64? value with
    | some value => .ok (.int value)
    | none => .error (.literal chars)
  | some (.float negative value) =>
    let x := value.toBinary .double negative
    if x.isFinite then .ok (.float x) else .error (.literal chars)
  | none => .error (.literal chars)

/-- The lists that are open, innermost first, and the nodes met in each, the last one first. -/
structure Forest where
  done : List Node
  outer : List (List Node)

namespace Forest

/-- Nothing read yet. -/
def start : Forest := ⟨[], []⟩

/-- The forest after one more token.  The grammar admits a closing parenthesis only where a list is
    open. -/
def step (forest : Forest) : Token → Except SexpError Forest
  | .open => .ok ⟨[], forest.done :: forest.outer⟩
  | .close =>
    match forest.outer with
    | [] => .error .empty
    | enclosing :: outer => .ok ⟨.list forest.done.reverse :: enclosing, outer⟩
  | .word chars =>
    match nodeOfWord chars with
    | .ok node => .ok ⟨node :: forest.done, forest.outer⟩
    | .error e => .error e

/-- The nodes that the tokens spell after what the forest holds. -/
def build (forest : Forest) : List Placed → Except SexpError (List Node)
  | [] => .ok forest.done.reverse
  | t :: ts =>
    match forest.step t.token with
    | .ok forest => build forest ts
    | .error e => .error e

end Forest

/-! ## §4. Reading -/

/-- The S-expressions of a text of the wanted extent. -/
def readNodes (extent : Extent) (text : String) : Except SexpError (List Node) :=
  let cs := text.toList
  let tokens := scan cs
  match Grammar.flaw extent (Pos.start.after cs) ⟨0, false⟩ tokens with
  | some pos => .error (.grammar pos)
  | none => Forest.start.build tokens

/-- All S-expressions of a text. -/
def readExpressions (text : String) : Except SexpError (List Node) := readNodes .many text

/-- The one S-expression of a text. -/
def readExpression (text : String) : Except SexpError Node :=
  match readNodes .one text with
  | .ok (node :: _) => .ok node
  | .ok [] => .error .empty
  | .error e => .error e

end Shading
