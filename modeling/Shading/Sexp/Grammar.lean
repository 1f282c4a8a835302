/-
  Shading.Sexp.Grammar — the grammar of S-expressions, as parsing expressions.

  A parsing expression matches the front of a text or fails.  A choice takes the first alternative that
  matches and never goes back on it, a repetition takes as much as it can, and a look-ahead takes
  nothing.  Outside of atomic rules, blanks and comments are skipped between the parts of a sequence and
  between repetitions.  The rules:

      document      any number of expressions, to the end of the text
      single        one expression, to the end of the text
      expr          list, or else float, or else int, or else symbol
      float, int    numerals that no character of a word follows
      symbol        characters of words that do not begin like a numeral

  `Peg.Runs` is the meaning of parsing expressions; it says nothing about how a match is found.
-/
import Shading.Sexp.Read

namespace Shading

/-! ## §1. Parsing expressions -/

/-- The names of the rules, and of the end of the text. -/
inductive Rule where
  | whitespace
  | comment
  | document
  | single
  | expr
  | list
  | float
  | exponent
  | int
  | symbol
  | symbolChar
  | eoi
deriving DecidableEq, Repr

namespace Rule

/-- Is nothing skipped inside of the rule? -/
def isAtomic : Rule → Bool
  | whitespace | comment | float | int | symbol => true
  | _ => false

/-- Does the rule leave no trace in what is parsed? -/
def isSilent : Rule → Bool
  | whitespace | comment | expr | exponent | symbolChar => true
  | _ => false

end Rule

/-- A parsing expression. -/
inductive Peg where
  /-- One character of a class. -/
  | one (p : Char → Bool)
  /-- The start of the text. -/
  | soi
  /-- The end of the text. -/
  | eoi
  | rule (r : Rule)
  | seq (a b : Peg)
  /-- The second if the first one fails. -/
  | alt (a b : Peg)
  | opt (a : Peg)
  /-- As many times as possible. -/
  | many (a : Peg)
  /-- The rest of a repetition, after a match. -/
  | again (a : Peg)
  /-- What separates the parts of a sequence. -/
  | skip
  /-- A look-ahead: the expression must fail here. -/
  | no (a : Peg)

namespace Peg

/-- One character. -/
def char (c : Char) : Peg := one fun d => d = c

/-- Any character. -/
def any : Peg := one fun _ => true

/-- A decimal digit. -/
def digit : Peg := one Char.isDigit

/-- At least once, and as many times as possible. -/
def plus (a : Peg) : Peg := seq a (many a)

/-- Blanks and comments. -/
def blanks : Peg := seq (many (rule .whitespace)) (many (seq (rule .comment) (many (rule .whitespace))))

end Peg

open Peg in
/-- What a rule stands for. -/
def Rule.body : Rule → Peg
  | whitespace => alt (char ' ') (alt (char '\t') (alt (char '\r') (char '\n')))
  | comment => seq (char ';') (many (seq (no (char '\n')) any))
  | document => seq soi (seq (many (rule expr)) Peg.eoi)
  | single => seq soi (seq (rule expr) Peg.eoi)
  | expr => alt (rule list) (alt (rule float) (alt (rule int) (rule symbol)))
  | list => seq (char '(') (seq (many (rule expr)) (char ')'))
  | float =>
    seq (opt (char '-')) (seq
      (alt (seq (plus digit) (seq (char '.') (seq (many digit) (opt (rule exponent)))))
        (alt (seq (char '.') (seq (plus digit) (opt (rule exponent))))
          (seq (plus digit) (rule exponent))))
      (no (rule symbolChar)))
  | exponent => seq (alt (char 'e') (char 'E')) (seq (opt (alt (char '+') (char '-'))) (plus digit))
  | int => seq (opt (char '-')) (seq (plus digit) (no (rule symbolChar)))
  | symbol => seq (no (seq (opt (char '-')) (seq (opt (char '.')) digit))) (plus (rule symbolChar))
  | symbolChar => seq (no (alt (char '(') (alt (char ')') (alt (char ';') (rule whitespace))))) any
  | eoi => Peg.eoi

/-! ## §2. Matching -/

/-- What a rule has matched, and what the rules inside of it have matched. -/
inductive Pair where
  | mk (rule : Rule) (text : List Char) (inner : List Pair)

/-- The rule that has matched. -/
def Pair.rule : Pair → Rule
  | mk rule _ _ => rule

/-- What is matched by a rule that a text begins with, and the rest of the text.  Nothing inside of an
    atomic rule leaves a trace. -/
def Rule.found (r : Rule) (atomic : Bool) (cs : List Char) (m : List Pair × List Char) :
    List Pair × List Char :=
  if r.isSilent || atomic then m else ([.mk r (cs.take (cs.length - m.2.length)) m.1], m.2)

/-- The expression, in a text and inside of an atomic rule or not, matches the front of what is left of
    the text, with these pairs and this rest, or fails. -/
inductive Peg.Runs (whole : List Char) : Bool → Peg → List Char → Option (List Pair × List Char) → Prop
  | one {k p c cs} (h : p c = true) : Runs whole k (.one p) (c :: cs) (some ([], cs))
  | oneFails {k p cs} (h : ∀ c ∈ cs.head?, p c = false) : Runs whole k (.one p) cs none
  | soi {k} : Runs whole k .soi whole (some ([], whole))
  | soiFails {k cs} (h : cs ≠ whole) : Runs whole k .soi cs none
  | eoi {k} : Runs whole k .eoi [] (some ([.mk .eoi [] []], []))
  | eoiFails {k c cs} : Runs whole k .eoi (c :: cs) none
  | rule {k r cs o} (h : Runs whole (k || r.isAtomic) r.body cs o) :
      Runs whole k (.rule r) cs (o.map (r.found k cs))
  | seq {k a b cs ps ds qs es o} (ha : Runs whole k a cs (some (ps, ds)))
      (hskip : Runs whole k .skip ds (some (qs, es))) (hb : Runs whole k b es o) :
      Runs whole k (.seq a b) cs (o.map fun m => (ps ++ m.1, m.2))
  | seqFails {k a b cs} (ha : Runs whole k a cs none) : Runs whole k (.seq a b) cs none
  | first {k a b cs m} (ha : Runs whole k a cs (some m)) : Runs whole k (.alt a b) cs (some m)
  | second {k a b cs o} (ha : Runs whole k a cs none) (hb : Runs whole k b cs o) :
      Runs whole k (.alt a b) cs o
  | opt {k a cs o} (ha : Runs whole k a cs o) : Runs whole k (.opt a) cs (some (o.getD ([], cs)))
  | many {k a cs ps ds qs es} (ha : Runs whole k a cs (some (ps, ds)))
      (hmore : Runs whole k (.again a) ds (some (qs, es))) :
      Runs whole k (.many a) cs (some (ps ++ qs, es))
  | manyEnds {k a cs} (ha : Runs whole k a cs none) : Runs whole k (.many a) cs (some ([], cs))
  | again {k a cs qs ds ps es rs fs} (hskip : Runs whole k .skip cs (some (qs, ds)))
      (ha : Runs whole k a ds (some (ps, es))) (hmore : Runs whole k (.again a) es (some (rs, fs))) :
      Runs whole k (.again a) cs (some (ps ++ rs, fs))
  | againEnds {k a cs qs ds} (hskip : Runs whole k .skip cs (some (qs, ds)))
      (ha : Runs whole k a ds none) : Runs whole k (.again a) cs (some ([], cs))
  | skip {cs o} (h : Runs whole true .blanks cs o) : Runs whole false .skip cs o
  | skipNothing {cs} : Runs whole true .skip cs (some ([], cs))
  | no {k a cs} (ha : Runs whole k a cs none) : Runs whole k (.no a) cs (some ([], cs))
  | noFails {k a cs m} (ha : Runs whole k a cs (some m)) : Runs whole k (.no a) cs none

/-- The rule matches a text with these pairs, or fails. -/
def Parses (r : Rule) (text : String) (o : Option (List Pair)) : Prop :=
  ∃ m, Peg.Runs text.toList false (.rule r) text.toList m ∧ o = m.map (·.1)

/-! ## §3. Reading what is parsed -/

mutual

/-- The node of a pair.  A number has to be in range. -/
def Pair.node : Pair → Except SexpError Node
  | .mk .list _ inner => do
    let nodes ← Pair.nodes inner
    pure (.list nodes)
  | .mk .int text _ =>
    match (integer? text).bind int64? with
    | some value => .ok (.int value)
    | none => .error (.literal text)
  | .mk .float text _ =>
    match Decimal.signed? text with
    | some (negative, value) =>
      let x := value.toBinary .double negative
      if x.isFinite then .ok (.float x) else .error (.literal text)
    | none => .error (.literal text)
  | .mk .symbol text _ => .ok (.symbol (String.ofList text))
  | _ => .error .empty

/-- The nodes of pairs, from the first to the last. -/
def Pair.nodes : List Pair → Except SexpError (List Node)
  | [] => .ok []
  | p :: rest => do
    let node ← Pair.node p
    let nodes ← Pair.nodes rest
    pure (node :: nodes)

end

/-- The nodes of a document: of everything in it but its end. -/
def Pair.documentNodes : List Pair → Except SexpError (List Node)
  | .mk _ _ inner :: _ => Pair.nodes (inner.filter (·.rule ≠ .eoi))
  | [] => .error .empty

/-- The node of a document with a single expression. -/
def Pair.singleNode : List Pair → Except SexpError Node
  | .mk _ _ inner :: _ =>
    match inner.find? (·.rule ≠ .eoi) with
    | some p => p.node
    | none => .error .empty
  | [] => .error .empty

/-- The result of reading a text by a rule: what the pairs give, or a grammatical error at the place. -/
def ReadsBy {α : Type} (r : Rule) (read : List Pair → Except SexpError α) (pos : Pos) (text : String)
    (result : Except SexpError α) : Prop :=
  (Parses r text none ∧ result = .error (.grammar pos))
    ∨ ∃ pairs, Parses r text (some pairs) ∧ result = read pairs

end Shading
