/-
  Shading.Proofs.Sexp.Words — words and what they read as.

  Three kinds of words occur in what the library writes: symbols, integers and fractional numbers.
  The module says when a text is each of them, and that every node that was read is built from
  symbols and finite numbers (`readExpressions_readable`), so that it can be written again.
-/
import Shading.Proofs.Sexp.Layout

namespace Shading

open List

/-! ## §1. Symbols -/

/-- The name is written as one word that is no number. -/
def IsSymbol (name : String) : Prop :=
  IsRun name.toList ∧ Word.ofChars? name.toList = some (.symbol name)

instance (name : String) : Decidable (IsSymbol name) := inferInstanceAs (Decidable (_ ∧ _))

theorem Layout.node?_symbol {name : String} (h : IsSymbol name) :
    (word name).node? = some (.symbol name) := by
  rw [node?_word]
  exact ⟨h.1, by simp [nodeOfWord, h.2]⟩

variable {cs : List Char}

theorem isSymbol_of_nodeOfWord {name : String} (hrun : IsRun cs)
    (h : nodeOfWord cs = .ok (.symbol name)) : IsSymbol name := by
  have hword : Word.ofChars? cs = some (.symbol name) := by
    unfold nodeOfWord at h
    split at h
    next name' hw =>
      cases h
      exact hw
    next => split at h <;> cases h
    next =>
      dsimp only at h
      split at h <;> cases h
    next => cases h
  -- only the last way to take a word gives a symbol, and it keeps the characters
  have hname : name = String.ofList cs := by
    unfold Word.ofChars? at hword
    split at hword
    · cases hword
    · split at hword
      · cases hword
      · split at hword
        · cases hword
        · cases hword
          rfl
  subst hname
  exact ⟨by simpa using hrun, by simpa using hword⟩

/-! ## §2. Integers -/

theorem digitsValue_toDigits (n : Nat) : digitsValue (Nat.toDigits 10 n) = n :=
  Nat.ofDigitChars_toDigits (by decide) (by decide)

theorem isDigits_toDigits (n : Nat) : isDigits (Nat.toDigits 10 n) = true := by
  have hall : (Nat.toDigits 10 n).all Char.isDigit = true := by
    rw [all_eq_true]
    intro c hc
    exact Nat.isDigit_of_mem_toDigits (by decide) (by decide) hc
  simp [isDigits, hall, Nat.toDigits_ne_nil]

theorem Decimal.unsigned?_digits (h : isDigits cs = true) : Decimal.unsigned? cs = none := by
  simp only [isDigits, Bool.and_eq_true, all_eq_true] at h
  have hdrop : (cs ++ []).dropWhile Char.isDigit = [] := by
    rw [dropWhile_append_of_pos h.2, dropWhile_nil]
  rw [List.append_nil] at hdrop
  simp [unsigned?, hdrop, exponent?]

variable {c : Char}

theorem isDigit_ne_minus (h : c.isDigit = true) : c ≠ '-' := by
  rintro rfl
  revert h
  decide

theorem splitSign_digits (h : isDigits cs = true) : splitSign cs = (false, cs) := by
  cases cs with
  | nil => rfl
  | cons c cs =>
    simp only [isDigits, Bool.and_eq_true, all_eq_true] at h
    have hc := isDigit_ne_minus (h.2 c mem_cons_self)
    unfold splitSign
    split
    next heq =>
      cases heq
      exact absurd rfl hc
    next => rfl

theorem toList_toString_negSucc (m : Nat) :
    (toString (Int.negSucc m)).toList = '-' :: Nat.toDigits 10 (m + 1) := by
  show ("-" ++ (m + 1).repr).toList = _
  simp [Nat.toList_repr]

theorem ofChars?_toString (n : Int) : Word.ofChars? (toString n).toList = some (.int n) := by
  cases n with
  | ofNat m =>
    have htext : (toString (Int.ofNat m)).toList = Nat.toDigits 10 m := Nat.toList_repr
    have hdigits := isDigits_toDigits m
    rw [htext]
    simp [Word.ofChars?, Decimal.signed?, integer?, splitSign_digits hdigits,
      Decimal.unsigned?_digits hdigits, hdigits, digitsValue_toDigits]
  | negSucc m =>
    have hdigits := isDigits_toDigits (m + 1)
    rw [toList_toString_negSucc]
    simp only [Word.ofChars?, Decimal.signed?, integer?, splitSign,
      Decimal.unsigned?_digits hdigits, hdigits, digitsValue_toDigits]
    simp
    omega

theorem isWordChar_of_isDigit (h : c.isDigit = true) : isWordChar c = true := by
  -- every other character that the scanner tells apart is no digit
  have hne : ∀ d : Char, d.isDigit = false → c ≠ d := by
    rintro d hd rfl
    rw [h] at hd
    cases hd
  simp [isWordChar, isBlank, hne]

theorem isRun_toDigits (n : Nat) : IsRun (Nat.toDigits 10 n) := by
  refine ⟨Nat.toDigits_ne_nil, ?_⟩
  intro c hc
  exact isWordChar_of_isDigit (Nat.isDigit_of_mem_toDigits (by decide) (by decide) hc)

theorem isRun_toString (n : Int) : IsRun (toString n).toList := by
  cases n with
  | ofNat m =>
    show IsRun m.repr.toList
    rw [Nat.toList_repr]
    exact isRun_toDigits m
  | negSucc m =>
    show IsRun ("-" ++ (m + 1).repr).toList
    rw [String.toList_append, Nat.toList_repr]
    refine ⟨by simp, ?_⟩
    intro c hc
    rcases mem_append.mp hc with hc | hc
    · obtain rfl := mem_singleton.mp hc
      rfl
    · exact (isRun_toDigits _).2 c hc

theorem Layout.node?_int {n : Int} {value : Int64} (h : int64? n = some value) :
    (word (toString n)).node? = some (.int value) := by
  refine node?_word.mpr ⟨isRun_toString n, ?_⟩
  unfold nodeOfWord
  rw [ofChars?_toString]
  simp only [h]

theorem int64?_of_bounds {n : Int} (h1 : -2147483648 ≤ n) (h2 : n < 4294967296) :
    int64? n = some (.ofInt n) ∧ (Int64.ofInt n).toInt = n := by
  have hmin : Int64.minValue.toInt = -9223372036854775808 := by decide
  have hmax : Int64.maxValue.toInt = 9223372036854775807 := by decide
  refine ⟨?_, ?_⟩
  · unfold int64?
    rw [hmin, hmax, if_pos (by omega)]
  · exact Int64.toInt_ofInt_of_le (by omega) (by omega)

/-! ## §3. Fractional numbers -/

/-- The characters of numerals. -/
def isNumeralChar (c : Char) : Bool :=
  c.isDigit || c = '.' || c = 'e' || c = 'E' || c = '+' || c = '-'

theorem isWordChar_of_isNumeralChar (h : isNumeralChar c = true) : isWordChar c = true := by
  have hne : ∀ d : Char, isNumeralChar d = false → c ≠ d := by
    rintro d hd rfl
    rw [h] at hd
    cases hd
  simp (disch := decide) [isWordChar, isBlank, hne]

theorem isNumeralChar_of_isDigits (h : isDigits cs = true) : ∀ c ∈ cs, isNumeralChar c = true := by
  simp only [isDigits, Bool.and_eq_true, all_eq_true] at h
  intro c hc
  simp [isNumeralChar, h.2 c hc]

theorem mem_of_splitSign (h : c ∈ cs) : c = '-' ∨ c ∈ (splitSign cs).2 := by
  unfold splitSign
  split
  next => simpa using h
  next => exact .inr h

theorem isNumeralChar_of_exponent? {e : Int} (h : exponent? cs = some e) :
    ∀ c ∈ cs, isNumeralChar c = true := by
  unfold exponent? at h
  split at h
  next mark rest =>
    split at h
    next hmark =>
      dsimp only at h
      split at h
      next hdigits =>
        intro c hc
        rcases mem_cons.mp hc with rfl | hc
        · rcases hmark with rfl | rfl <;> rfl
        · have hsplit : c = '+' ∨ c = '-' ∨ c ∈ (splitAnySign rest).2 := by
            unfold splitAnySign
            split
            next => simpa using Or.imp_right .inr (mem_cons.mp hc)
            next => exact .inr (mem_of_splitSign hc)
          rcases hsplit with rfl | rfl | hc
          · rfl
          · rfl
          · exact isNumeralChar_of_isDigits hdigits c hc
      next => cases h
    next => cases h
  next => cases h

theorem isNumeralChar_of_takeWhile : ∀ c ∈ cs.takeWhile Char.isDigit, isNumeralChar c = true := by
  intro c hc
  have hdigit := all_eq_true.mp (all_takeWhile) c hc
  simp [isNumeralChar, hdigit]

variable {d : Decimal}

theorem isNumeralChar_of_unsigned? (h : Decimal.unsigned? cs = some d) :
    cs ≠ [] ∧ ∀ c ∈ cs, isNumeralChar c = true := by
  have hcs : cs = cs.takeWhile Char.isDigit ++ cs.dropWhile Char.isDigit :=
    takeWhile_append_dropWhile.symm
  unfold Decimal.unsigned? at h
  dsimp only at h
  split at h
  next rest hdrop =>
    have hrest : rest = rest.takeWhile Char.isDigit ++ rest.dropWhile Char.isDigit :=
      takeWhile_append_dropWhile.symm
    -- behind the digits of the fraction there is nothing or an exponent
    have htail : ∀ c ∈ rest.dropWhile Char.isDigit, isNumeralChar c = true := by
      split at h
      · cases h
      · split at h
        next hempty => simp [List.isEmpty_iff.mp hempty]
        next =>
          obtain ⟨e, he, -⟩ := Option.map_eq_some_iff.mp h
          exact isNumeralChar_of_exponent? he
    rw [hdrop] at hcs
    refine ⟨by rw [hcs]; simp, ?_⟩
    intro c hc
    rw [hcs] at hc
    rcases mem_append.mp hc with hc | hc
    · exact isNumeralChar_of_takeWhile c hc
    rcases mem_cons.mp hc with rfl | hc
    · rfl
    rw [hrest] at hc
    rcases mem_append.mp hc with hc | hc
    · exact isNumeralChar_of_takeWhile c hc
    · exact htail c hc
  next hdrop =>
    split at h
    · cases h
    next hwhole =>
      obtain ⟨e, he, -⟩ := Option.map_eq_some_iff.mp h
      refine ⟨?_, ?_⟩
      · rintro rfl
        simp at hwhole
      · intro c hc
        rw [hcs] at hc
        rcases mem_append.mp hc with hc | hc
        · exact isNumeralChar_of_takeWhile c hc
        · exact isNumeralChar_of_exponent? he c hc

theorem isRun_of_signed? {negative : Bool} (h : Decimal.signed? cs = some (negative, d)) :
    IsRun cs := by
  unfold Decimal.signed? at h
  obtain ⟨d', hd, -⟩ := Option.map_eq_some_iff.mp h
  obtain ⟨hne, hall⟩ := isNumeralChar_of_unsigned? hd
  refine ⟨?_, ?_⟩
  · rintro rfl
    exact hne rfl
  · intro c hc
    rcases mem_of_splitSign hc with rfl | hc
    · rfl
    · exact isWordChar_of_isNumeralChar (hall c hc)

variable {text : String}

theorem Layout.node?_float {negative : Bool} (h : Decimal.signed? text.toList = some (negative, d))
    (hfinite : (d.toBinary .double negative).isFinite = true) :
    (word text).node? = some (.float (d.toBinary .double negative)) := by
  refine node?_word.mpr ⟨isRun_of_signed? h, ?_⟩
  simp [nodeOfWord, Word.ofChars?, h, hfinite]

/-! ## §4. Nodes that were read -/

mutual

/-- The node can be written and read: its symbols are symbols, its numbers are finite. -/
def Node.Readable : Node → Prop
  | .symbol name => IsSymbol name
  | .int _ => True
  | .float value => value.isFinite = true
  | .list items => Node.AllReadable items

/-- Each of the nodes can be written and read. -/
def Node.AllReadable : List Node → Prop
  | [] => True
  | node :: rest => Node.Readable node ∧ Node.AllReadable rest

end

variable {nodes : List Node}

theorem Node.allReadable_iff : Node.AllReadable nodes ↔ ∀ node ∈ nodes, node.Readable := by
  induction nodes with
  | nil => simp [Node.AllReadable]
  | cons node rest ih => simp [Node.AllReadable, ih]

theorem Node.readable_list {items : List Node} :
    (Node.list items).Readable ↔ ∀ node ∈ items, node.Readable := by
  rw [Node.Readable, Node.allReadable_iff]

theorem readable_of_nodeOfWord {node : Node} (hrun : IsRun cs) (h : nodeOfWord cs = .ok node) :
    node.Readable := by
  cases node with
  | symbol name => exact isSymbol_of_nodeOfWord hrun h
  | int value => trivial
  | float value =>
    unfold nodeOfWord at h
    split at h
    next => cases h
    next => split at h <;> cases h
    next =>
      dsimp only at h
      split at h
      next hfinite =>
        cases h
        exact hfinite
      next => cases h
    next => cases h
  | list items =>
    unfold nodeOfWord at h
    split at h
    next => cases h
    next => split at h <;> cases h
    next =>
      dsimp only at h
      split at h <;> cases h
    next => cases h

mutual

/-- The node of a tree of words can be read again. -/
theorem Tree.readable_of_node : ∀ (t : Tree) {node : Node}, (∀ cs, .word cs ∈ t.tokens → IsRun cs) →
    t.node = .ok node → node.Readable
  | .word cs, node, hruns, h => readable_of_nodeOfWord (hruns cs mem_cons_self) h
  | .list items, node, hruns, h => by
    obtain ⟨nodes, hnodes, rfl⟩ := Tree.node_list_eq_ok.mp h
    refine Tree.allReadable_of_nodes items (fun cs hcs => hruns cs ?_) hnodes
    simp [Tree.tokens, hcs]

theorem Tree.allReadable_of_nodes : ∀ (trees : List Tree) {nodes : List Node},
    (∀ cs, .word cs ∈ Tree.tokensAll trees → IsRun cs) → Tree.nodes trees = .ok nodes →
    Node.AllReadable nodes
  | [], nodes, _, h => by
    cases h
    trivial
  | t :: rest, nodes, hruns, h => by
    obtain ⟨node, others, hnode, hothers, rfl⟩ := Tree.nodes_cons_eq_ok.mp h
    refine ⟨Tree.readable_of_node t (fun cs hcs => hruns cs (mem_append_left _ hcs)) hnode, ?_⟩
    exact Tree.allReadable_of_nodes rest (fun cs hcs => hruns cs (mem_append_right _ hcs)) hothers

end

/-- **Whatever was read can be written and read again.** -/
theorem readNodes_readable {extent : Extent} (h : readNodes extent text = .ok nodes) :
    ∀ node ∈ nodes, node.Readable := by
  obtain ⟨trees, hcuts, hnodes⟩ := exists_trees_of_readNodes h
  exact Node.allReadable_iff.mp (Tree.allReadable_of_nodes trees (fun cs hcs => hcuts.isRun hcs) hnodes)

theorem readExpressions_readable (h : readExpressions text = .ok nodes) :
    ∀ node ∈ nodes, node.Readable :=
  readNodes_readable h

end Shading
