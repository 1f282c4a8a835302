/-
  Shading.Sexp.Node — S-expressions.

  A `Node` is a tree of symbols, integers, fractional numbers and lists, with no meaning attached.
  `Node.text` writes one on a single line: the items of a list stand in parentheses with one space
  between them.
-/
import Shading.Number.Shortest
import Shading.Sexp.Layout

namespace Shading

/-- An S-expression. -/
inductive Node where
  | symbol (name : String)
  | int (value : Int64)
  | float (value : Double)
  | list (items : List Node)
deriving Inhabited

namespace Node

/-! ## §1. Views -/

/-- The name of a symbol. -/
def symbol? : Node → Option String
  | symbol name => some name
  | _ => none

/-- The items of a list. -/
def list? : Node → Option (List Node)
  | list items => some items
  | symbol _ | int _ | float _ => none

/-- The value of an integer. -/
def int? : Node → Option Int64
  | int value => some value
  | _ => none

/-- The value of an integer or a fractional number; an integer is rounded. -/
def number? : Node → Option Double
  | int value => some (.ofInt .double value.toInt)
  | float value => some value
  | _ => none

/-- The symbol that a list begins with. -/
def head? : Node → Option String
  | list (symbol name :: _) => some name
  | _ => none

/-- Is this the list without items? -/
def isEmptyList : Node → Bool
  | list [] => true
  | _ => false

/-! ## §2. Text -/

mutual

/-- The node as a layout without line breaks. -/
def layout : Node → Layout
  | symbol name => .word name
  | int value => .word (toString value.toInt)
  | float value => .word value.text
  | list items => .line (layouts items)
termination_by structural node => node

/-- The layouts of the nodes. -/
def layouts : List Node → List Layout
  | [] => []
  | node :: rest => layout node :: layouts rest
termination_by structural nodes => nodes

end

/-- The node on one line. -/
def text (node : Node) : String := node.layout.text

/-! ## §3. Equality -/

mutual

/-- Are the two nodes the same? -/
def decEq (a b : Node) : Decidable (a = b) :=
  match a, b with
  | symbol m, symbol n => decidable_of_iff (m = n) (by simp)
  | int m, int n => decidable_of_iff (m = n) (by simp)
  | float x, float y => decidable_of_iff (x = y) (by simp)
  | list as, list bs =>
    have := decEqList as bs
    decidable_of_iff (as = bs) (by simp)
  | symbol _, int _ | symbol _, float _ | symbol _, list _ => isFalse nofun
  | int _, symbol _ | int _, float _ | int _, list _ => isFalse nofun
  | float _, symbol _ | float _, int _ | float _, list _ => isFalse nofun
  | list _, symbol _ | list _, int _ | list _, float _ => isFalse nofun
termination_by structural a

/-- Are the nodes the same, one by one? -/
def decEqList (as bs : List Node) : Decidable (as = bs) :=
  match as, bs with
  | [], [] => isTrue rfl
  | [], _ :: _ => isFalse nofun
  | _ :: _, [] => isFalse nofun
  | a :: as, b :: bs =>
    match decEq a b with
    | isTrue h =>
      have := decEqList as bs
      decidable_of_iff (as = bs) (by simp [h])
    | isFalse h => isFalse (by simp [h])
termination_by structural as

end

instance : DecidableEq Node := decEq

/-! ## §4. Equality of values -/

mutual

/-- Are the trees of one shape, with equal names and numbers?  Fractional numbers are compared by
    value, so a not-a-number differs from itself and the two zeros are equal. -/
def sameValue : Node → Node → Bool
  | symbol a, symbol b => a == b
  | int a, int b => a == b
  | float a, float b => a.sameValue b
  | list as, list bs => sameValues as bs
  | _, _ => false
termination_by structural node => node

/-- Are the lists of one length, with equal nodes at each place? -/
def sameValues : List Node → List Node → Bool
  | [], [] => true
  | a :: as, b :: bs => sameValue a b && sameValues as bs
  | _, _ => false
termination_by structural nodes => nodes

end

end Node

end Shading
