/-
  Shading.Proofs.Sexp.Language — which texts are S-expressions.

  The language of the readers, said without them.  Tokens are legal if the parentheses match and each run
  is a word; legal tokens whose numbers are all in range spell a forest (`SpellsAll`).  Legal tokens are
  those of trees (`legal_iff`), so what the readers make of trees is what the language asks for, and
  their errors tell the two ways to fail apart.
-/
import Shading.Proofs.Sexp.Spelling

namespace Shading

open List Tree

/-! ## §1. Legal tokens -/

/-- How much deeper a token nests what follows it. -/
def Token.rise : Token → Int
  | .open => 1
  | .close => -1
  | .word _ => 0

/-- How many lists the tokens leave open. -/
def rise : List Token → Int
  | [] => 0
  | t :: ts => t.rise + rise ts

@[simp] theorem rise_nil : rise [] = 0 := rfl

@[simp] theorem rise_cons (t : Token) (ts : List Token) : rise (t :: ts) = t.rise + rise ts := rfl

@[simp] theorem rise_append (ts us : List Token) : rise (ts ++ us) = rise ts + rise us := by
  induction ts with
  | nil => rw [nil_append, rise_nil, Int.zero_add]
  | cons t ts ih => rw [cons_append, rise_cons, rise_cons, ih, Int.add_assoc]

/-- The parentheses match: no list is closed that is not open, and none is left open. -/
structure Matched (ts : List Token) : Prop where
  closed : ∀ front, front <+: ts → 0 ≤ rise front
  balanced : rise ts = 0

/-- The tokens are not several expressions after each other, nor none at all: no list is open only at
    their two ends. -/
structure OneExpression (ts : List Token) : Prop where
  nonempty : ts ≠ []
  undivided : ∀ front, front <+: ts → front ≠ [] → front ≠ ts → rise front ≠ 0

/-- The tokens obey the grammar. -/
structure Legal (extent : Extent) (ts : List Token) : Prop where
  parentheses : Matched ts
  words : ∀ cs, .word cs ∈ ts → ∃ w, Word.Spells cs w
  single : extent = .one → OneExpression ts

/-- The number of a run, if it is one, is in range. -/
def RunInRange (cs : List Char) : Prop := ∀ w, Word.Spells cs w → w.InRange

/-- The leftmost run whose number is out of range. -/
def LeftmostOutOfRange (ts : List Token) (cs : List Char) : Prop :=
  ∃ before after, ts = before ++ .word cs :: after ∧ ¬ RunInRange cs
    ∧ ∀ run, .word run ∈ before → RunInRange run

variable {ts : List Token}

theorem ofWords_iff : OfWords ts ↔ ∀ cs, .word cs ∈ ts → ∃ w, Word.Spells cs w := by
  simp only [OfWords, Option.isSome_iff_exists, Word.ofChars?_eq_some_iff]

/-! ## §2. Legal tokens are those of trees -/

namespace Tree

mutual

/-- Inside of a tree a list is open. -/
theorem rise_tokens : ∀ t : Tree, rise t.tokens = 0
    ∧ ∀ front, front <+: t.tokens → front ≠ [] → front ≠ t.tokens → 0 < rise front
  | .word cs => by
    refine ⟨rfl, ?_⟩
    intro front hfront hne hne'
    rcases prefix_cons_iff.mp hfront with rfl | ⟨rest, rfl, hrest⟩
    · exact absurd rfl hne
    · rw [prefix_nil.mp hrest] at hne'
      exact absurd rfl hne'
  | .list items => by
    obtain ⟨hbalanced, hclosed⟩ := rise_tokensAll items
    refine ⟨by simp [tokens, hbalanced, Token.rise], ?_⟩
    intro front hfront hne hne'
    rcases prefix_cons_iff.mp hfront with rfl | ⟨rest, rfl, hrest⟩
    · exact absurd rfl hne
    · -- A front that stops before the closing parenthesis is one of the items.
      rcases prefix_concat_iff.mp hrest with rfl | hrest
      · exact absurd rfl hne'
      · have := hclosed rest hrest
        rw [rise_cons]
        show 0 < 1 + rise rest
        omega

/-- Between trees no list is open, and none is closed that was not opened. -/
theorem rise_tokensAll : ∀ trees : List Tree, rise (tokensAll trees) = 0
    ∧ ∀ front, front <+: tokensAll trees → 0 ≤ rise front
  | [] => by
    refine ⟨rfl, ?_⟩
    intro front hfront
    rw [prefix_nil.mp hfront]
    exact Int.le_refl 0
  | t :: rest => by
    obtain ⟨hzero, hinside⟩ := rise_tokens t
    obtain ⟨hzero', hinside'⟩ := rise_tokensAll rest
    refine ⟨by rw [tokensAll, rise_append, hzero, hzero']; rfl, ?_⟩
    intro front hfront
    rcases prefix_or_prefix_of_prefix hfront (prefix_append ..) with hshort | hlong
    · by_cases hnil : front = []
      · rw [hnil]
        exact Int.le_refl 0
      by_cases hall : front = t.tokens
      · exact Int.le_of_eq (by rw [hall, hzero])
      exact Int.le_of_lt (hinside front hshort hnil hall)
    · obtain ⟨back, rfl⟩ := hlong
      have := hinside' back ((prefix_append_right_inj t.tokens).mp hfront)
      rw [rise_append, hzero]
      omega

end

end Tree

/-- The tokens close the lists that are open, and none besides. -/
def Closes (d : Nat) (ts : List Token) : Prop :=
  (∀ front, front <+: ts → 0 ≤ d + rise front) ∧ d + rise ts = 0

theorem Closes.tail {d : Nat} {t : Token} (h : Closes d (t :: ts)) :
    ∃ e : Nat, (e : Int) = d + t.rise ∧ Closes e ts := by
  have hfront : ∀ front, front <+: ts → 0 ≤ d + (t.rise + rise front) :=
    fun front hfront => h.1 (t :: front) (cons_prefix_cons.mpr ⟨rfl, hfront⟩)
  have hopen : 0 ≤ d + t.rise := by simpa using hfront [] nil_prefix
  refine ⟨(d + t.rise).toNat, Int.toNat_of_nonneg hopen, ?_, ?_⟩
  · intro front hprefix
    have := hfront front hprefix
    omega
  · have := h.2
    rw [rise_cons] at this
    omega

theorem descends_closes : Descends Closes where
  done := by
    intro d h
    exact Int.ofNat_inj.mp (by simpa using h.2)
  opening := by
    intro d ts h
    obtain ⟨e, he, hrest⟩ := h.tail
    obtain rfl : e = d + 1 := Int.ofNat_inj.mp he
    exact hrest
  closing := by
    intro d ts h
    obtain ⟨e, he, hrest⟩ := h.tail
    exact ⟨e, by simp only [Token.rise] at he; omega, hrest⟩
  word := by
    intro d cs ts h
    obtain ⟨e, he, hrest⟩ := h.tail
    obtain rfl : e = d := by simp only [Token.rise] at he; omega
    exact hrest

/-- Tokens that are not divided are those of one tree. -/
theorem OneExpression.eq_singleton {trees : List Tree} (h : OneExpression (tokensAll trees)) :
    ∃ t, trees = [t] := by
  cases trees with
  | nil => exact absurd rfl h.nonempty
  | cons t rest =>
    cases rest with
    | nil => exact ⟨t, rfl⟩
    | cons t' rest =>
      obtain ⟨_, _, ht, -⟩ := head_tokens t
      obtain ⟨_, _, ht', -⟩ := head_tokens t'
      refine absurd (rise_tokens t).1 (h.undivided t.tokens (prefix_append ..) ?_ ?_)
      · rw [ht]
        nofun
      · simp [tokensAll, ht']

variable {extent : Extent}

/-- **Legal tokens are those of trees.** -/
theorem legal_iff : Legal extent ts ↔ ∃ trees, Grows extent ts trees := by
  constructor
  · intro h
    have hcloses : Closes 0 ts := by
      refine ⟨fun front hfront => ?_, ?_⟩
      · simpa using h.parentheses.closed front hfront
      · simpa using h.parentheses.balanced
    obtain ⟨trees, rfl⟩ := descends_closes.exists_tokensAll hcloses
    exact ⟨trees, rfl, ofWords_iff.mpr h.words, fun hone => (h.single hone).eq_singleton⟩
  · rintro ⟨trees, rfl, hwords, hsingle⟩
    obtain ⟨hbalanced, hclosed⟩ := rise_tokensAll trees
    refine ⟨⟨hclosed, hbalanced⟩, ofWords_iff.mp hwords, fun hone => ?_⟩
    obtain ⟨t, rfl⟩ := hsingle hone
    obtain ⟨_, _, ht, -⟩ := head_tokens t
    rw [tokensAll, tokensAll, append_nil]
    refine ⟨by rw [ht]; nofun, fun front hfront hne hne' => ?_⟩
    exact Int.ne_of_gt ((rise_tokens t).2 front hfront hne hne')

/-! ## §3. Forests -/

mutual

/-- The tokens spell one node. -/
inductive SpellsNode : List Token → Node → Prop
  | word {cs : List Char} {w : Word} {node : Node} (hspells : Word.Spells cs w)
      (hnode : w.Denotes node) : SpellsNode [.word cs] node
  | list {ts : List Token} {nodes : List Node} (h : SpellsAll ts nodes) :
      SpellsNode (.open :: (ts ++ [.close])) (.list nodes)

/-- The tokens spell nodes, one after the other. -/
inductive SpellsAll : List Token → List Node → Prop
  | nil : SpellsAll [] []
  | cons {ts us : List Token} {node : Node} {nodes : List Node} (hfirst : SpellsNode ts node)
      (hrest : SpellsAll us nodes) : SpellsAll (ts ++ us) (node :: nodes)

end

mutual

theorem SpellsNode.exists_tree : ∀ {ts : List Token} {node : Node}, SpellsNode ts node →
    ∃ t : Tree, t.tokens = ts ∧ t.node = .ok node
  | _, _, .word hspells hnode => ⟨.word _, rfl, nodeOfWord_of_denotes hspells hnode⟩
  | _, _, .list h => by
    obtain ⟨trees, rfl, hnodes⟩ := h.exists_trees
    exact ⟨.list trees, rfl, node_list_eq_ok.mpr ⟨_, hnodes, rfl⟩⟩

theorem SpellsAll.exists_trees : ∀ {ts : List Token} {nodes : List Node}, SpellsAll ts nodes →
    ∃ trees, tokensAll trees = ts ∧ Tree.nodes trees = .ok nodes
  | _, _, .nil => ⟨[], rfl, rfl⟩
  | _, _, .cons hfirst hrest => by
    obtain ⟨t, rfl, hnode⟩ := hfirst.exists_tree
    obtain ⟨trees, rfl, hnodes⟩ := hrest.exists_trees
    exact ⟨t :: trees, rfl, nodes_cons_eq_ok.mpr ⟨_, _, hnode, hnodes, rfl⟩⟩

end

mutual

theorem spellsNode_tokens : ∀ (t : Tree) {node : Node}, t.node = .ok node → SpellsNode t.tokens node
  | .word cs, node, h => by
    obtain ⟨w, hspells, hnode⟩ := nodeOfWord_eq_ok_iff.mp h
    exact .word hspells hnode
  | .list items, node, h => by
    obtain ⟨nodes, hnodes, rfl⟩ := node_list_eq_ok.mp h
    exact .list (spellsAll_tokensAll items hnodes)

theorem spellsAll_tokensAll : ∀ (trees : List Tree) {nodes : List Node},
    Tree.nodes trees = .ok nodes → SpellsAll (tokensAll trees) nodes
  | [], nodes, h => by
    cases h
    exact .nil
  | t :: rest, nodes, h => by
    obtain ⟨node, others, hnode, hothers, rfl⟩ := nodes_cons_eq_ok.mp h
    exact .cons (spellsNode_tokens t hnode) (spellsAll_tokensAll rest hothers)

end

/-- **Trees have the nodes that their tokens spell.** -/
theorem nodes_eq_ok_iff {trees : List Tree} {nodes : List Node} :
    Tree.nodes trees = .ok nodes ↔ SpellsAll (tokensAll trees) nodes := by
  refine ⟨spellsAll_tokensAll trees, fun h => ?_⟩
  obtain ⟨trees', htokens, hnodes⟩ := h.exists_trees
  obtain ⟨rfl, -⟩ := tokensAll_close_inj (congrArg (· ++ [Token.close]) htokens)
  exact hnodes

theorem node_eq_ok_iff {t : Tree} {node : Node} : t.node = .ok node ↔ SpellsNode t.tokens node := by
  refine ⟨spellsNode_tokens t, fun h => ?_⟩
  obtain ⟨t', htokens, hnode⟩ := h.exists_tree
  obtain ⟨rfl, -⟩ := tokens_append_inj (congrArg (· ++ ([] : List Token)) htokens)
  exact hnode

/-! ## §4. Both readers -/

/-- What a reader makes of the tokens of a text: a value that they spell if they are legal and in range, a
    grammatical error if they are not legal, and else the leftmost run out of range. -/
structure Obeys {α : Type} (extent : Extent) (ts : List Token) (spells : List Token → α → Prop)
    (result : Except SexpError α) : Prop where
  accepts : (∃ a, result = .ok a) ↔ Legal extent ts ∧ ∀ cs, .word cs ∈ ts → RunInRange cs
  spelled : ∀ a, result = .ok a ↔ spells ts a
  grammar : (∃ pos, result = .error (.grammar pos)) ↔ ¬ Legal extent ts
  literal : ∀ cs, result = .error (.literal cs) ↔ Legal extent ts ∧ LeftmostOutOfRange ts cs

theorem Word.Spells.unique {cs : List Char} {w w' : Word} (h : Word.Spells cs w)
    (h' : Word.Spells cs w') : w = w' := by
  have := (Word.ofChars?_eq_some_iff.mpr h).symm.trans (Word.ofChars?_eq_some_iff.mpr h')
  exact Option.some.inj this

/-- The only error of a run that is a word is that its number is out of range. -/
theorem Token.error?_eq_some_iff {t : Token} {e : SexpError}
    (hwords : ∀ cs, t = .word cs → ∃ w, Word.Spells cs w) :
    t.error? = some e ↔ ∃ cs, t = .word cs ∧ e = .literal cs ∧ ¬ RunInRange cs := by
  cases t with
  | «open» | close => simp [Token.error?]
  | word cs =>
    obtain ⟨w, hw⟩ := hwords cs rfl
    by_cases hrange : w.InRange
    · obtain ⟨node, hnode⟩ := Word.inRange_iff.mp hrange
      have hin : RunInRange cs := fun w' hw' => hw'.unique hw ▸ hrange
      simp [Token.error?, nodeOfWord_of_denotes hw hnode, errorOf?, hin]
    · have hout : ¬ RunInRange cs := fun h => hrange (h w hw)
      simp [Token.error?, nodeOfWord_of_not_inRange hw hrange, errorOf?, hout, eq_comm]

theorem forall_error?_eq_none_iff (hwords : ∀ cs, .word cs ∈ ts → ∃ w, Word.Spells cs w) :
    (∀ t ∈ ts, t.error? = none) ↔ ∀ cs, .word cs ∈ ts → RunInRange cs := by
  have herror : ∀ t ∈ ts, ∀ e, t.error? = some e
      ↔ ∃ cs, t = .word cs ∧ e = .literal cs ∧ ¬ RunInRange cs :=
    fun t ht e => Token.error?_eq_some_iff fun cs heq => hwords cs (heq ▸ ht)
  constructor
  · intro h cs hcs
    refine Classical.byContradiction fun hout => ?_
    have hsome := (herror _ hcs (.literal cs)).mpr ⟨cs, rfl, rfl, hout⟩
    rw [h _ hcs] at hsome
    cases hsome
  · intro h t ht
    refine Option.eq_none_iff_forall_ne_some.mpr fun e he => ?_
    obtain ⟨cs, rfl, -, hout⟩ := (herror t ht e).mp he
    exact hout (h cs ht)

section

variable {α : Type} {spells : List Token → α → Prop} {result : Except SexpError α}

/-- A result obeys if its error is that of the leftmost run with one, the tokens being legal. -/
theorem Obeys.of_legal (h : Legal extent ts) (herror : errorOf? result = ts.findSome? Token.error?)
    (hspells : ∀ a, result = .ok a ↔ spells ts a) : Obeys extent ts spells result := by
  have hresult : ∀ e, result = .error e
      ↔ ∃ cs, e = .literal cs ∧ LeftmostOutOfRange ts cs := by
    intro e
    rw [eq_error_iff_errorOf?, herror, findSome?_eq_some_iff]
    constructor
    · rintro ⟨before, t, after, rfl, ht, hbefore⟩
      obtain ⟨cs, rfl, rfl, hout⟩ :=
        (Token.error?_eq_some_iff fun cs heq => h.words cs (by simp [heq])).mp ht
      refine ⟨cs, rfl, before, after, rfl, hout, ?_⟩
      exact (forall_error?_eq_none_iff fun cs hcs => h.words cs (mem_append_left _ hcs)).mp hbefore
    · rintro ⟨cs, rfl, before, after, rfl, hout, hbefore⟩
      refine ⟨before, .word cs, after, rfl, ?_, ?_⟩
      · exact (Token.error?_eq_some_iff fun run heq => h.words run (by simp [heq])).mpr
          ⟨cs, rfl, rfl, hout⟩
      · exact (forall_error?_eq_none_iff fun cs hcs => h.words cs (mem_append_left _ hcs)).mpr hbefore
  refine ⟨?_, hspells, ⟨?_, fun hnot => absurd h hnot⟩, fun cs => ?_⟩
  · rw [eq_ok_iff_errorOf?, herror, findSome?_eq_none_iff, forall_error?_eq_none_iff h.words]
    exact ⟨fun hrange => ⟨h, hrange⟩, fun hrange => hrange.2⟩
  · rintro ⟨pos, hpos⟩
    obtain ⟨cs, heq, -⟩ := (hresult _).mp hpos
    cases heq
  · rw [hresult]
    constructor
    · rintro ⟨run, heq, hleft⟩
      cases heq
      exact ⟨h, hleft⟩
    · rintro ⟨-, hleft⟩
      exact ⟨cs, rfl, hleft⟩

theorem Obeys.of_not_legal (h : ¬ Legal extent ts) (hresult : ∃ pos, result = .error (.grammar pos))
    (hspells : ∀ a, ¬ spells ts a) : Obeys extent ts spells result := by
  obtain ⟨pos, rfl⟩ := hresult
  refine ⟨⟨nofun, fun hlegal => absurd hlegal.1 h⟩, fun a => ⟨nofun, fun ha => absurd ha (hspells a)⟩,
    ⟨fun _ => h, fun _ => ⟨pos, rfl⟩⟩, fun cs => ⟨nofun, fun hlegal => absurd hlegal.1 h⟩⟩

end

variable {text : String}

theorem readExpression_of_grows {t : Tree} (hts : Cuts text.toList ts) (h : Grows .one ts [t]) :
    readExpression text = t.node := by
  rw [readExpression, readNodes_of_grows hts h, Tree.nodes, Tree.nodes]
  cases t.node <;> rfl

/-- **All S-expressions of a text** are read as the language asks for. -/
theorem obeys_readExpressions (hts : Cuts text.toList ts) :
    Obeys .many ts SpellsAll (readExpressions text) := by
  by_cases h : Legal .many ts
  · obtain ⟨trees, hgrows⟩ := legal_iff.mp h
    have hread : readExpressions text = Tree.nodes trees := readNodes_of_grows hts hgrows
    refine .of_legal h ?_ fun nodes => ?_
    · rw [hread, errorOf?_nodes, hgrows.tokens]
    · rw [hread, nodes_eq_ok_iff, hgrows.tokens]
  · refine .of_not_legal h (readNodes_of_not_grows hts (fun hgrows => h (legal_iff.mpr hgrows))) fun nodes hnodes => ?_
    obtain ⟨trees, rfl, hok⟩ := hnodes.exists_trees
    exact h (legal_iff.mpr ⟨trees, rfl, .of_nodes hok, nofun⟩)

/-- **The one S-expression of a text** is read as the language asks for. -/
theorem obeys_readExpression (hts : Cuts text.toList ts) :
    Obeys .one ts SpellsNode (readExpression text) := by
  by_cases h : Legal .one ts
  · obtain ⟨trees, hgrows⟩ := legal_iff.mp h
    obtain ⟨t, rfl⟩ := hgrows.single rfl
    have htokens : t.tokens = ts := by simpa [tokensAll] using hgrows.tokens
    have hread := readExpression_of_grows hts hgrows
    refine .of_legal h ?_ fun nodes => ?_
    · rw [hread, errorOf?_node, htokens]
    · rw [hread, node_eq_ok_iff, htokens]
  · refine .of_not_legal h ?_ fun node hnode => ?_
    · obtain ⟨pos, hread⟩ := readNodes_of_not_grows hts (fun hgrows => h (legal_iff.mpr hgrows))
      exact ⟨pos, by simp only [readExpression, hread]⟩
    · obtain ⟨t, rfl, hok⟩ := hnode.exists_tree
      have hnodes : Tree.nodes [t] = .ok [node] := nodes_cons_eq_ok.mpr ⟨_, _, hok, rfl, rfl⟩
      have hwords := OfWords.of_nodes hnodes
      rw [tokensAll, tokensAll, append_nil] at hwords
      exact h (legal_iff.mpr ⟨[t], by simp [tokensAll], hwords, fun _ => ⟨t, rfl⟩⟩)

end Shading
