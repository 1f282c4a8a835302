/-
  Shading.Proofs.Sexp.Inverse — writing a node and reading it again.

  A node comes back from its own text exactly if its fractional numbers are finite and its symbols are
  words that no number begins like.  `Node.Faithful` says that in terms of characters alone; that it is
  what the scanner and the grammar ask for is proved here.
-/
import Shading.Proofs.Number.Numeral

namespace Shading

open List

/-! ## §1. Names of symbols -/

/-- The characters begin with a digit, after an optional minus sign and an optional point. -/
def BeginsLikeNumeral (cs : List Char) : Prop :=
  ∃ sign ∈ [[], ['-']], ∃ point ∈ [[], ['.']], ∃ digit rest,
    digit.isDigit = true ∧ cs = sign ++ point ++ digit :: rest

/-- The name is a word, and no number begins like it. -/
structure PlainName (name : String) : Prop where
  nonempty : name ≠ ""
  unbroken : ∀ c ∈ name.toList, c ∉ [' ', '\t', '\r', '\n', '(', ')', ';']
  wordlike : ¬ BeginsLikeNumeral name.toList

theorem splitSign_eq (cs : List Char) : ∃ sign ∈ [[], ['-']], cs = sign ++ (splitSign cs).2 := by
  unfold splitSign
  split
  next rest => exact ⟨['-'], by simp, rfl⟩
  next => exact ⟨[], by simp, rfl⟩

variable {cs : List Char}

/-- The first characters that make a word look like a number. -/
theorem beginsLikeNumber_iff : beginsLikeNumber cs = true ↔ BeginsLikeNumeral cs := by
  constructor
  · intro h
    obtain ⟨sign, hsign, hcs⟩ := splitSign_eq cs
    unfold beginsLikeNumber at h
    dsimp only at h
    -- what follows the sign is a digit, or a point and a digit
    generalize (splitSign cs).2 = rest at h hcs
    split at h
    next digit tail heq =>
      split at heq
      next =>
        refine ⟨sign, hsign, ['.'], by simp, digit, tail, h, ?_⟩
        rw [hcs, heq, append_assoc]
        rfl
      next =>
        refine ⟨sign, hsign, [], by simp, digit, tail, h, ?_⟩
        rw [hcs, heq, List.append_nil]
    next => cases h
  · rintro ⟨sign, hsign, point, hpoint, digit, rest, hdigit, rfl⟩
    -- a digit is none of the marks that are skipped before it
    have hminus : digit ≠ '-' := isDigit_ne_minus hdigit
    have hdot : digit ≠ '.' := by
      rintro rfl
      cases hdigit
    simp only [mem_cons, not_mem_nil, or_false] at hsign hpoint
    rcases hsign with rfl | rfl
    · rcases hpoint with rfl | rfl
      · simp [beginsLikeNumber, splitSign, hminus, hdot, hdigit]
      · simp [beginsLikeNumber, splitSign, hdigit]
    · rcases hpoint with rfl | rfl
      · simp [beginsLikeNumber, splitSign, hdot, hdigit]
      · simp [beginsLikeNumber, splitSign, hdigit]

theorem Decimal.exists_digit_of_unsigned? {d : Decimal} (h : unsigned? cs = some d) :
    ∃ point ∈ [[], ['.']], ∃ digit rest, digit.isDigit = true ∧ cs = point ++ digit :: rest := by
  have hfirst : ∀ {cs : List Char}, cs.takeWhile Char.isDigit ≠ [] →
      ∃ digit rest, digit.isDigit = true ∧ cs = digit :: rest := by
    intro cs hne
    cases cs with
    | nil => exact absurd rfl hne
    | cons c rest =>
      refine ⟨c, rest, ?_, rfl⟩
      by_cases hc : c.isDigit = true
      · exact hc
      · exact absurd (takeWhile_cons_of_neg hc) hne
  by_cases hwhole : cs.takeWhile Char.isDigit = []
  · -- no digits stand before the point, so there have to be some behind it
    have hdrop : cs.dropWhile Char.isDigit = cs := by
      have hsplit := takeWhile_append_dropWhile (p := Char.isDigit) (l := cs)
      rwa [hwhole] at hsplit
    unfold unsigned? at h
    rw [hwhole, hdrop] at h
    split at h
    next rest =>
      have hfraction : rest.takeWhile Char.isDigit ≠ [] := by
        intro hnil
        simp [hnil] at h
      obtain ⟨digit, tail, hdigit, rfl⟩ := hfirst hfraction
      exact ⟨['.'], by simp, digit, tail, hdigit, rfl⟩
    next => cases h
  · obtain ⟨digit, rest, hdigit, rfl⟩ := hfirst hwhole
    exact ⟨[], by simp, digit, rest, hdigit, rfl⟩

theorem exists_digit_of_isDigits (h : isDigits cs = true) :
    ∃ digit rest, digit.isDigit = true ∧ cs = digit :: rest := by
  cases cs with
  | nil => cases h
  | cons c rest =>
    simp only [isDigits, Bool.and_eq_true, all_cons] at h
    exact ⟨c, rest, h.2.1, rfl⟩

/-- A word is a symbol if it does not begin like a number. -/
theorem ofChars?_eq_symbol_iff :
    Word.ofChars? cs = some (.symbol (String.ofList cs)) ↔ ¬ BeginsLikeNumeral cs := by
  obtain ⟨sign, hsign, hcs⟩ := splitSign_eq cs
  constructor
  · intro h hbegins
    unfold Word.ofChars? at h
    split at h
    · cases h
    · split at h
      · cases h
      · rw [if_pos (beginsLikeNumber_iff.mpr hbegins)] at h
        cases h
  · intro h
    -- both kinds of numerals are tried first, and each begins like a number
    have hfloat : Decimal.signed? cs = none := by
      cases hd : Decimal.unsigned? (splitSign cs).2 with
      | none => simp [Decimal.signed?, hd]
      | some d =>
        obtain ⟨point, hpoint, digit, rest, hdigit, hrest⟩ := Decimal.exists_digit_of_unsigned? hd
        refine absurd ⟨sign, hsign, point, hpoint, digit, rest, hdigit, ?_⟩ h
        rw [append_assoc, ← hrest]
        exact hcs
    have hint : integer? cs = none := by
      by_cases hd : isDigits (splitSign cs).2 = true
      · obtain ⟨digit, rest, hdigit, hrest⟩ := exists_digit_of_isDigits hd
        refine absurd ⟨sign, hsign, [], by simp, digit, rest, hdigit, ?_⟩ h
        rw [List.append_nil, ← hrest]
        exact hcs
      · simp [integer?, hd]
    unfold Word.ofChars?
    rw [hfloat, hint]
    dsimp only
    rw [if_neg fun hb => h (beginsLikeNumber_iff.mp hb)]

theorem isRun_iff {name : String} :
    IsRun name.toList
      ↔ name ≠ "" ∧ ∀ c ∈ name.toList, c ∉ [' ', '\t', '\r', '\n', '(', ')', ';'] := by
  have hempty : name.toList ≠ [] ↔ name ≠ "" := by
    rw [ne_eq, ne_eq, String.toList_eq_nil_iff]
  have hchar : ∀ c, isWordChar c = true ↔ c ∉ [' ', '\t', '\r', '\n', '(', ')', ';'] := by
    intro c
    simp [isWordChar, isBlank, and_assoc]
  unfold IsRun
  simp only [hempty, hchar]

/-- **The names of symbols**, character by character. -/
theorem isSymbol_iff {name : String} : IsSymbol name ↔ PlainName name := by
  have hword : Word.ofChars? name.toList = some (.symbol name)
      ↔ ¬ BeginsLikeNumeral name.toList := by
    rw [← ofChars?_eq_symbol_iff, String.ofList_toList]
  rw [IsSymbol, isRun_iff, hword]
  constructor
  · rintro ⟨⟨nonempty, unbroken⟩, wordlike⟩
    exact ⟨nonempty, unbroken, wordlike⟩
  · rintro ⟨nonempty, unbroken, wordlike⟩
    exact ⟨⟨nonempty, unbroken⟩, wordlike⟩

/-! ## §2. Nodes -/

mutual

/-- The symbols and numbers of a node. -/
def Node.leaves : Node → List Node
  | .list items => Node.leavesAll items
  | node => [node]

/-- The symbols and numbers of the nodes. -/
def Node.leavesAll : List Node → List Node
  | [] => []
  | node :: rest => Node.leaves node ++ Node.leavesAll rest

end

/-- The fractional numbers of the node are finite, and its symbols have plain names. -/
structure Node.Faithful (node : Node) : Prop where
  floats : ∀ x, .float x ∈ node.leaves → x.isFinite = true
  symbols : ∀ name, .symbol name ∈ node.leaves → PlainName name

mutual

theorem Node.readable_iff_leaves :
    ∀ node : Node, node.Readable ↔ ∀ leaf ∈ node.leaves, leaf.Readable
  | .symbol _ => (forall_mem_singleton (p := Node.Readable)).symm
  | .int _ => (forall_mem_singleton (p := Node.Readable)).symm
  | .float _ => (forall_mem_singleton (p := Node.Readable)).symm
  | .list items => Node.allReadable_iff_leaves items

theorem Node.allReadable_iff_leaves :
    ∀ nodes : List Node, Node.AllReadable nodes ↔ ∀ leaf ∈ Node.leavesAll nodes, leaf.Readable
  | [] => by simp [Node.AllReadable, Node.leavesAll]
  | node :: rest => by
    rw [Node.AllReadable, Node.leavesAll, forall_mem_append, Node.readable_iff_leaves node,
      Node.allReadable_iff_leaves rest]

end

mutual

theorem Node.not_list_of_mem_leaves {items : List Node} : ∀ node : Node, .list items ∉ node.leaves
  | .symbol _ => by simp [Node.leaves]
  | .int _ => by simp [Node.leaves]
  | .float _ => by simp [Node.leaves]
  | .list nodes => Node.not_list_of_mem_leavesAll nodes

theorem Node.not_list_of_mem_leavesAll {items : List Node} :
    ∀ nodes : List Node, .list items ∉ Node.leavesAll nodes
  | [] => not_mem_nil
  | node :: rest => by
    rw [Node.leavesAll, mem_append, not_or]
    exact ⟨Node.not_list_of_mem_leaves node, Node.not_list_of_mem_leavesAll rest⟩

end

variable {node : Node}

theorem Node.readable_iff_faithful : node.Readable ↔ node.Faithful := by
  rw [Node.readable_iff_leaves]
  constructor
  · intro h
    exact ⟨fun x hx => h _ hx, fun name hname => isSymbol_iff.mp (h _ hname)⟩
  · intro h leaf hleaf
    cases leaf with
    | symbol name => exact isSymbol_iff.mpr (h.symbols name hleaf)
    | int value => trivial
    | float x => exact h.floats x hleaf
    | list items => exact absurd hleaf (Node.not_list_of_mem_leaves node)

theorem int64?_toInt (value : Int64) : int64? value.toInt = some value := by
  unfold int64?
  rw [if_pos ⟨Int64.minValue_le_toInt value, Int64.toInt_le value⟩, Int64.ofInt_toInt]

mutual

/-- A readable node is spelled by its layout. -/
theorem Node.node?_layout : ∀ {node : Node}, node.Readable → node.layout.node? = some node
  | .symbol name, h => Layout.node?_symbol h
  | .int value, _ => Layout.node?_int (int64?_toInt value)
  | .float x, h => by
    obtain ⟨d, hd, hx⟩ := Binary.signed?_text Format.wide_double h
    have hnode := Layout.node?_float hd (by rw [hx]; exact h)
    rwa [hx] at hnode
  | .list items, h => Layout.node?_line_some (Node.nodes?_layouts h)

theorem Node.nodes?_layouts :
    ∀ {nodes : List Node}, Node.AllReadable nodes → Layout.nodes? (Node.layouts nodes) = some nodes
  | [], _ => rfl
  | _ :: _, h => Layout.nodes?_cons_some (Node.node?_layout h.1) (Node.nodes?_layouts h.2)

end

/-! ## §3. Equality of values -/

theorem Binary.sameValue_self {f : Format} {x : Binary f} (h : x.isFinite = true) :
    x.sameValue x = true := by
  have hfinite : x.magnitude < f.infinity := of_decide_eq_true h
  have hnumber : x.isNaN = false := decide_eq_false (Nat.not_lt_of_gt hfinite)
  simp [sameValue, hnumber]

theorem Binary.isFinite_of_sameValue {f : Format} {x y : Binary f} (h : x.sameValue y = true)
    (hx : x.isFinite = true) : y.isFinite = true := by
  have hmagnitude : x.magnitude = y.magnitude := by
    simp only [sameValue, Bool.and_eq_true, beq_iff_eq] at h
    exact h.2.1
  rw [isFinite, ← hmagnitude]
  exact hx

mutual

theorem Node.sameValue_self : ∀ {node : Node}, node.Readable → node.sameValue node = true
  | .symbol name, _ => beq_self_eq_true name
  | .int value, _ => beq_self_eq_true value
  | .float _, h => Binary.sameValue_self h
  | .list _, h => Node.sameValues_self h

theorem Node.sameValues_self :
    ∀ {nodes : List Node}, Node.AllReadable nodes → Node.sameValues nodes nodes = true
  | [], _ => rfl
  | _ :: _, h => by
    rw [Node.sameValues, Node.sameValue_self h.1, Node.sameValues_self h.2, Bool.and_self]

end

mutual

theorem Node.readable_of_sameValue :
    ∀ {m n : Node}, m.sameValue n = true → m.Readable → n.Readable
  | .symbol a, .symbol b, h, hm => by
    cases eq_of_beq h
    exact hm
  | .int _, .int _, _, _ => trivial
  | .float _, .float _, h, hm => Binary.isFinite_of_sameValue h hm
  | .list as, .list bs, h, hm => Node.allReadable_of_sameValues h hm

theorem Node.allReadable_of_sameValues :
    ∀ {ms ns : List Node}, Node.sameValues ms ns = true → Node.AllReadable ms → Node.AllReadable ns
  | [], [], _, _ => trivial
  | _ :: _, _ :: _, h, hms => by
    rw [Node.sameValues, Bool.and_eq_true] at h
    exact ⟨Node.readable_of_sameValue h.1 hms.1, Node.allReadable_of_sameValues h.2 hms.2⟩

end

/-! ## §4. Reading a text that was written -/

theorem readExpression_of_layout {layout : Layout} (h : layout.node? = some node) :
    readExpression layout.text = .ok node := by
  have hspells : Spells layout.text.toList (Tree.tokensAll (Layout.trees [layout])) := by
    simpa [Layout.trees, Tree.tokensAll, Layout.text] using Layout.spells_render 0 layout h
  have hlayouts := Layout.nodes?_cons_some h Layout.nodes?_nil
  have hnodes : readNodes .one layout.text = .ok [node] :=
    readNodes_of_spells hspells hlayouts fun _ => ⟨layout.tree, rfl⟩
  rw [readExpression, hnodes]

theorem readable_of_readExpression {text : String} (h : readExpression text = .ok node) :
    node.Readable := by
  unfold readExpression at h
  split at h
  next first rest hnodes =>
    cases h
    exact readNodes_readable hnodes _ mem_cons_self
  next => cases h
  next => cases h

/-- **Writing and reading are inverse on faithful nodes, and on no others.**  A node comes back from its
    text exactly if it is faithful, whether nodes are compared as they are or by the values of their
    numbers; and whatever is read from any text is faithful. -/
theorem readExpression_text_iff (node : Node) :
    (readExpression node.text = .ok node ↔ node.Faithful)
      ∧ ((∃ m, readExpression node.text = .ok m ∧ m.sameValue node = true) ↔ node.Faithful)
      ∧ (∀ text m, readExpression text = .ok m → m.Faithful)
      ∧ ∀ text nodes, readExpressions text = .ok nodes → ∀ m ∈ nodes, m.Faithful := by
  have hback : node.Faithful → readExpression node.text = .ok node := fun h =>
    readExpression_of_layout (Node.node?_layout (Node.readable_iff_faithful.mpr h))
  refine ⟨⟨fun h => ?_, hback⟩, ⟨?_, fun h => ?_⟩, fun text m h => ?_, fun text nodes h m hm => ?_⟩
  · exact Node.readable_iff_faithful.mp (readable_of_readExpression h)
  · rintro ⟨m, hm, hsame⟩
    exact Node.readable_iff_faithful.mp
      (Node.readable_of_sameValue hsame (readable_of_readExpression hm))
  · exact ⟨node, hback h, Node.sameValue_self (Node.readable_iff_faithful.mpr h)⟩
  · exact Node.readable_iff_faithful.mp (readable_of_readExpression h)
  · exact Node.readable_iff_faithful.mp (readExpressions_readable h m hm)

/-- A list with signs that are symbols, the least integer, a negative zero and an empty list. -/
def signsAndNumbers : Node :=
  .list [.symbol "-", .symbol "-.", .int Int64.minValue, .float (.make .double true 0), .list []]

theorem readExpression_text_iff_signsAndNumbers :
    readExpression signsAndNumbers.text = .ok signsAndNumbers
      ∧ ¬ readExpression (Node.symbol "-.5x").text = .ok (.symbol "-.5x") := by
  refine ⟨(readExpression_text_iff signsAndNumbers).1.mpr (Node.readable_iff_faithful.mp ?_), ?_⟩
  · have hminus : IsSymbol "-" := by decide +kernel
    have hpoint : IsSymbol "-." := by decide +kernel
    have hzero : (Binary.make .double true 0).isFinite = true := by decide +kernel
    exact ⟨hminus, hpoint, trivial, hzero, trivial, trivial⟩
  · intro h
    have hfaithful := (readExpression_text_iff (.symbol "-.5x")).1.mp h
    exact (hfaithful.symbols "-.5x" (mem_singleton.mpr rfl)).wordlike
      ⟨['-'], by simp, ['.'], by simp, '5', ['x'], rfl, rfl⟩

end Shading
