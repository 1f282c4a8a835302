/-
  Shading.Proofs.Sexp.Layout — what a laid-out S-expression reads as.

  `Layout.node?` is the node that a layout stands for, if each of its words is one word of the
  language.  The main result, `readExpressions_join`, says that the text of layouts reads as exactly
  those nodes, wherever the layout breaks its lines.
-/
import Shading.Proofs.Sexp.Trees
import Shading.Sexp.Layout

namespace Shading

open List Tree

/-! ## §1. Texts that spell tokens -/

/-- The characters are cut into these tokens, whatever follows them after a delimiter. -/
def Spells (cs : List Char) (ts : List Token) : Prop :=
  ∀ rest us, Delimited rest → Cuts rest us → Cuts (cs ++ rest) (ts ++ us)

variable {c : Char} {cs : List Char} {ts us : List Token}

namespace Spells

theorem nil : Spells [] [] := fun _ _ _ hus => hus

theorem word (h : IsRun cs) : Spells cs [.word cs] := by
  intro rest us hrest hus
  exact .word h.1 (fun c hc => isWordChar_iff_not_mem.mp (h.2 c hc)) hrest hus

theorem closing : Spells [')'] [.close] := fun _ _ _ hus => .closing hus

theorem cons_open (h : Spells cs ts) : Spells ('(' :: cs) (.open :: ts) :=
  fun rest us hrest hus => .opening (h rest us hrest hus)

theorem cons_blank (hc : isBlank c = true) (h : Spells cs ts) : Spells (c :: cs) ts :=
  fun rest us hrest hus => .blank (isBlank_iff_mem.mp hc) (h rest us hrest hus)

theorem blanks_append {bs : List Char} (hbs : ∀ c ∈ bs, isBlank c = true) (h : Spells cs ts) :
    Spells (bs ++ cs) ts := by
  induction bs with
  | nil => exact h
  | cons b bs ih =>
    have hrest := ih fun c hc => hbs c (mem_cons_of_mem _ hc)
    exact cons_blank (hbs b mem_cons_self) hrest

/-- Two texts after each other, if the second one ends a word that the first one ends with. -/
theorem append {ds : List Char} (h1 : Spells cs ts) (h2 : Spells ds us)
    (hd : ∀ rest, Delimited rest → Delimited (ds ++ rest)) : Spells (cs ++ ds) (ts ++ us) := by
  intro rest vs hrest hvs
  rw [append_assoc, append_assoc]
  exact h1 _ _ (hd rest hrest) (h2 rest vs hrest hvs)

theorem cuts (h : Spells cs ts) : Cuts cs ts := by
  have := h [] [] delimited_nil .done
  rwa [append_nil, append_nil] at this

end Spells

/-! ## §2. The tree and the node of a layout -/

variable {text : String} {node : Node} {nodes : List Node}

namespace Layout

mutual

/-- The words and lists of a layout. -/
def tree : Layout → Tree
  | word text => .word text.toList
  | line items => .list (trees items)
  | rows head below _ => .list (trees head ++ trees below)

/-- The words and lists of layouts. -/
def trees : List Layout → List Tree
  | [] => []
  | item :: rest => tree item :: trees rest

end

mutual

/-- The node that a layout stands for, if each of its words is a word of the language. -/
def node? : Layout → Option Node
  | word text => if IsRun text.toList then (nodeOfWord text.toList).toOption else none
  | line items => (nodes? items).map .list
  | rows head below _ =>
    (nodes? head).bind fun front => (nodes? below).map fun back => .list (front ++ back)

/-- The nodes that layouts stand for. -/
def nodes? : List Layout → Option (List Node)
  | [] => some []
  | item :: rest => (node? item).bind fun node => (nodes? rest).map (node :: ·)

end

theorem node?_word :
    (word text).node? = some node ↔ IsRun text.toList ∧ nodeOfWord text.toList = .ok node := by
  unfold node?
  split
  next hrun =>
    cases nodeOfWord text.toList with
    | ok n => simp [Except.toOption, hrun]
    | error e => simp [Except.toOption]
  next hrun => simp [hrun]

theorem node?_line {items : List Layout} :
    (line items).node? = some node ↔ ∃ nodes, nodes? items = some nodes ∧ .list nodes = node := by
  simp [node?]

theorem node?_rows {head below : List Layout} {closed : Bool} :
    (rows head below closed).node? = some node
      ↔ ∃ front back, nodes? head = some front ∧ nodes? below = some back
        ∧ .list (front ++ back) = node := by
  simp only [node?, Option.bind_eq_some_iff, Option.map_eq_some_iff]
  constructor
  · rintro ⟨front, hfront, back, hback, h⟩
    exact ⟨front, back, hfront, hback, h⟩
  · rintro ⟨front, back, hfront, hback, h⟩
    exact ⟨front, hfront, back, hback, h⟩

@[simp] theorem nodes?_nil : nodes? [] = some [] := rfl

theorem nodes?_cons {item : Layout} {rest : List Layout} :
    nodes? (item :: rest) = some nodes
      ↔ ∃ node others, item.node? = some node ∧ nodes? rest = some others
        ∧ node :: others = nodes := by
  simp only [nodes?, Option.bind_eq_some_iff, Option.map_eq_some_iff]
  constructor
  · rintro ⟨node, hnode, others, hothers, h⟩
    exact ⟨node, others, hnode, hothers, h⟩
  · rintro ⟨node, others, hnode, hothers, h⟩
    exact ⟨node, hnode, others, hothers, h⟩

theorem nodes?_cons_some {item : Layout} {rest : List Layout} {others : List Node}
    (h1 : item.node? = some node) (h2 : nodes? rest = some others) :
    nodes? (item :: rest) = some (node :: others) :=
  nodes?_cons.mpr ⟨node, others, h1, h2, rfl⟩

theorem node?_line_some {items : List Layout} (h : nodes? items = some nodes) :
    (line items).node? = some (.list nodes) :=
  node?_line.mpr ⟨nodes, h, rfl⟩

theorem nodes?_append {front back : List Layout} {ns ms : List Node} (h1 : nodes? front = some ns)
    (h2 : nodes? back = some ms) : nodes? (front ++ back) = some (ns ++ ms) := by
  induction front generalizing ns with
  | nil =>
    cases h1
    exact h2
  | cons item rest ih =>
    obtain ⟨node, others, hnode, hothers, rfl⟩ := nodes?_cons.mp h1
    exact nodes?_cons_some hnode (ih hothers)

mutual

/-- The node that a layout stands for is that of its tree. -/
theorem node_tree : ∀ (layout : Layout) {node : Node}, layout.node? = some node →
    layout.tree.node = .ok node
  | .word text, node, h => (node?_word.mp h).2
  | .line items, node, h => by
    obtain ⟨nodes, hnodes, rfl⟩ := node?_line.mp h
    exact node_list_eq_ok.mpr ⟨nodes, nodes_trees items hnodes, rfl⟩
  | .rows head below closed, node, h => by
    obtain ⟨front, back, hfront, hback, rfl⟩ := node?_rows.mp h
    have hnodes := nodes_append_ok (nodes_trees head hfront) (nodes_trees below hback)
    exact node_list_eq_ok.mpr ⟨_, hnodes, rfl⟩

theorem nodes_trees : ∀ (items : List Layout) {nodes : List Node}, nodes? items = some nodes →
    Tree.nodes (trees items) = .ok nodes
  | [], nodes, h => by
    cases h
    rfl
  | item :: rest, nodes, h => by
    obtain ⟨node, others, hnode, hothers, rfl⟩ := nodes?_cons.mp h
    exact nodes_cons_eq_ok.mpr ⟨node, others, node_tree item hnode, nodes_trees rest hothers, rfl⟩

end

/-! ## §3. The text of a layout spells its tokens -/

theorem isBlank_newline (depth : Nat) : ∀ c ∈ (newline depth).toList, isBlank c = true := by
  intro c hc
  simp only [newline, String.toList_append, String.toList_ofList, mem_append,
    mem_replicate] at hc
  rcases hc with hc | ⟨-, rfl⟩
  · simp only [show "\n".toList = ['\n'] from rfl, mem_singleton] at hc
    rw [hc]
    rfl
  · rfl

theorem delimited_newline (depth : Nat) (cs : List Char) :
    Delimited ((newline depth).toList ++ cs) := by
  simp only [newline, String.toList_append]
  exact delimited_cons _ (by decide)

theorem delimited_stacked (depth : Nat) (texts : List String) (cs : List Char)
    (h : Delimited cs) : Delimited ((stacked depth texts).toList ++ cs) := by
  cases texts with
  | nil => simpa [stacked, String.join] using h
  | cons text rest =>
    have hjoin : (stacked depth (text :: rest)).toList
        = (newline depth).toList ++ (text.toList ++ (stacked depth rest).toList) := by
      simp [stacked, String.toList_join, append_assoc]
    rw [hjoin, append_assoc]
    exact delimited_newline depth _

theorem spells_spaced_cons {texts : List String} (h1 : Spells text.toList ts)
    (h2 : Spells (spaced texts).toList us) (hne : texts ≠ []) :
    Spells (spaced (text :: texts)).toList (ts ++ us) := by
  obtain ⟨next, rest, rfl⟩ := exists_cons_of_ne_nil hne
  have hcons : (spaced (text :: next :: rest)).toList
      = text.toList ++ ' ' :: (spaced (next :: rest)).toList := by
    simp [spaced, String.intercalate_cons_cons]
  rw [hcons]
  refine h1.append (.cons_blank rfl h2) ?_
  intro cs _
  exact delimited_cons _ (by decide)

theorem spells_stacked_cons {depth : Nat} {texts : List String} (h1 : Spells text.toList ts)
    (h2 : Spells (stacked depth texts).toList us) :
    Spells (stacked depth (text :: texts)).toList (ts ++ us) := by
  have hcons : (stacked depth (text :: texts)).toList
      = (newline depth).toList ++ (text.toList ++ (stacked depth texts).toList) := by
    simp [stacked, String.toList_join]
  rw [hcons]
  refine .blanks_append (isBlank_newline depth) (h1.append h2 ?_)
  exact delimited_stacked depth texts

mutual

/-- A layout spells its own tree, at any depth. -/
theorem spells_render (depth : Nat) :
    ∀ (layout : Layout) {node : Node}, layout.node? = some node →
      Spells (layout.render depth).toList layout.tree.tokens
  | .word text, node, h => Spells.word (node?_word.mp h).1
  | .line items, node, h => by
    obtain ⟨nodes, hnodes, -⟩ := node?_line.mp h
    have htext : ((line items).render depth).toList
        = '(' :: ((spaced (renderAll depth items)).toList ++ [')']) := by
      simp [render]
    rw [htext]
    refine .cons_open ((spells_spaced depth items hnodes).append .closing ?_)
    intro rest _
    exact delimited_cons _ (by decide)
  | .rows head below closed, node, h => by
    obtain ⟨front, back, hfront, hback, -⟩ := node?_rows.mp h
    have htext : ((rows head below closed).render depth).toList
        = '(' :: ((spaced (renderAll depth head)).toList
            ++ ((stacked (depth + 1) (renderAll (depth + 1) below)).toList
              ++ ((if closed then newline depth else "").toList ++ [')']))) := by
      simp [render, append_assoc]
    -- the bracket stands on a line of its own if the block is closed
    have hclose : Spells ((if closed then newline depth else "").toList ++ [')']) [.close] := by
      cases closed with
      | false => exact .closing
      | true => exact .blanks_append (isBlank_newline depth) .closing
    have hend : ∀ rest, Delimited
        (((if closed then newline depth else "").toList ++ [')']) ++ rest) := by
      intro rest
      cases closed with
      | false => exact delimited_cons _ (by decide)
      | true =>
        rw [append_assoc]
        exact delimited_newline depth _
    have hback' : Spells _ (tokensAll (trees below) ++ [.close]) :=
      (spells_stacked (depth + 1) below hback).append hclose fun rest _ => hend rest
    rw [htext]
    -- what is below begins with a line break, which ends the last word of the head
    have hall := (spells_spaced depth head hfront).append hback' (by
      intro rest hrest
      rw [append_assoc]
      exact delimited_stacked _ _ _ (hend rest))
    simpa [tree, tokens, append_assoc] using hall.cons_open

theorem spells_spaced (depth : Nat) :
    ∀ (items : List Layout) {nodes : List Node}, nodes? items = some nodes →
      Spells (spaced (renderAll depth items)).toList (tokensAll (trees items))
  | [], nodes, h => Spells.nil
  | [item], nodes, h => by
    obtain ⟨node, others, hnode, -, -⟩ := nodes?_cons.mp h
    simpa [renderAll, spaced, trees, tokensAll] using spells_render depth item hnode
  | item :: next :: rest, nodes, h => by
    obtain ⟨node, others, hnode, hothers, -⟩ := nodes?_cons.mp h
    exact spells_spaced_cons (spells_render depth item hnode)
      (spells_spaced depth (next :: rest) hothers) nofun

theorem spells_stacked (depth : Nat) :
    ∀ (items : List Layout) {nodes : List Node}, nodes? items = some nodes →
      Spells (stacked depth (renderAll depth items)).toList (tokensAll (trees items))
  | [], nodes, h => Spells.nil
  | item :: rest, nodes, h => by
    obtain ⟨node, others, hnode, hothers, -⟩ := nodes?_cons.mp h
    exact spells_stacked_cons (spells_render depth item hnode) (spells_stacked depth rest hothers)

end

end Layout

/-! ## §4. Reading what was laid out -/

/-- A text that spells the tokens of layouts reads as their nodes. -/
theorem readNodes_of_spells {extent : Extent} {layouts : List Layout}
    (htext : Spells text.toList (tokensAll (Layout.trees layouts)))
    (hnodes : Layout.nodes? layouts = some nodes) (hone : extent = .one → ∃ t, Layout.trees layouts = [t]) :
    readNodes extent text = .ok nodes := by
  have hread := Layout.nodes_trees layouts hnodes
  rw [readNodes_of_grows htext.cuts ⟨rfl, .of_nodes hread, hone⟩, hread]

/-- **Layouts written one a line read as their nodes.** -/
theorem readExpressions_join {layouts : List Layout} (h : Layout.nodes? layouts = some nodes) :
    readExpressions (String.join (layouts.map fun layout => layout.text ++ "\n")) = .ok nodes := by
  refine readNodes_of_spells ?_ h nofun
  induction layouts generalizing nodes with
  | nil => exact .nil
  | cons layout rest ih =>
    obtain ⟨node, others, hnode, hothers, -⟩ := Layout.nodes?_cons.mp h
    have htext : (String.join ((layout :: rest).map fun layout => layout.text ++ "\n")).toList
        = layout.text.toList
          ++ '\n' :: (String.join (rest.map fun layout => layout.text ++ "\n")).toList := by
      simp [String.toList_join, append_assoc]
    rw [htext]
    refine (Layout.spells_render 0 layout hnode).append (.cons_blank rfl (ih hothers)) ?_
    intro cs _
    exact delimited_cons _ (by decide)

end Shading
