/-
  Shading.Proofs.Jump.Read — jumps that are read.

  The reader gives a jump the loop that its context has, which is the innermost one around it in its
  body; a function body begins without one.  So every jump that is read is correct, and a jump that has
  no loop around it in its body, a stray one, is never read.
-/
import Shading.Proofs.Jump.Innermost
import Shading.Proofs.Read.Origin
import Shading.Proofs.Read.Positions

namespace Shading

open List

/-! ## §1. What is read is correct -/

/-- What a part of the text gives, standing in the loop, is correct. -/
def Reading.JumpCorrectIn (enclosing : Option LoopId) : Reading → Prop
  | .instruction _ result => Shading.JumpCorrectIn enclosing result.toList
  | .instructions _ result => Shading.JumpCorrectIn enclosing result
  | _ => True

variable {cx : Context} {s s' : ReadState}

/-- **What is read is correct.** -/
theorem Reads.jumpCorrect {reading : Reading} (h : Reads cx reading s s') :
    reading.JumpCorrectIn cx.enclosing := by
  induction h with
  | jump mode enclosing =>
    intro j hj
    rw [mem_singleton.mp hj]
    exact enclosing
  | declare | assign | ret | rvalue | function | nil => exact nofun
  | branch value first second ih1 ih2 => exact forall_mem_append.mpr ⟨ih1, ih2⟩
  | loop header inner ih => exact ih
  | cons first others ih1 ih2 => exact jumpCorrectIn_append.mpr ⟨ih1, ih2⟩
  | overloads | noMore | more | prototype | definition => trivial

variable {nodes : List Node} {items : List Item}

/-- Jumps in a block that was read lead to the loop around them. -/
theorem Stems.jumpCorrect {T : String → Ty → Prop} {N : String → String → Prop}
    {table : SymbolTable} {block : List Instruction} (h : Stems T N table block) :
    JumpCorrectIn none block := by
  cases h with
  | intro reads outer readable names steady grows => exact outer ▸ reads.jumpCorrect

theorem jumpCorrectIn_function {name : String} {sigs : List Signature}
    (h : ∀ sig ∈ sigs, JumpCorrectIn none sig.body) : JumpCorrectIn none [.function name sigs] := by
  induction sigs with
  | nil => exact nofun
  | cons sig rest ih =>
    obtain ⟨hfirst, hrest⟩ := forall_mem_cons.mp h
    obtain ⟨returnType, parameters, body, isDefined⟩ := sig
    exact forall_mem_append.mpr ⟨hfirst, ih hrest⟩

theorem jumpCorrect_of_forall {is : List Instruction} (h : ∀ i ∈ is, JumpCorrectIn none [i]) :
    JumpCorrect is := by
  induction is with
  | nil => exact nofun
  | cons i rest ih =>
    obtain ⟨hfirst, hrest⟩ := forall_mem_cons.mp h
    exact (@jumpCorrectIn_append none [i] rest).mpr ⟨hfirst, ih hrest⟩

/-- Every jump in a module that was read leads to its innermost loop. -/
theorem jumpCorrect_readModule {scan : Bool} {u : CompilationUnit} {text : String}
    {ir : List Instruction} (h : (readModule scan u text).outcome = .ok ir) : JumpCorrect ir := by
  obtain ⟨nodes, s', hnodes, hdocument⟩ := readModule_eq_ok h
  have hstems := stems_of_readDocument (fun _ _ => trivial) hdocument
    (readable_documentNodes (readExpressions_readable hnodes))
    (CompilationUnit.collects_start u.symbols.names_any)
  refine jumpCorrect_of_forall ?_
  intro i hi
  obtain hblock | ⟨name, sigs, rfl, hbodies⟩ := hstems i hi
  · exact hblock.jumpCorrect
  · exact jumpCorrectIn_function fun sig hsig => (hbodies sig hsig).jumpCorrect

/-! ## §2. Stray jumps -/

/-- The place is that of a jump without a loop around it in its body. -/
def IsStray (place : Node × Bool) : Prop :=
  place.2 = false ∧ ∃ mode : JumpMode, place.1 = .symbol mode.name

variable {inLoop : Bool}

theorem Node.inside_of_tag {tag : String} {rest : List Node} (h : tag ∉ ["function", "if", "loop"])
    :
    (Node.list (.symbol tag :: rest)).inside inLoop = [] := by
  unfold Node.inside
  split
  any_goals
    rename_i heq
    cases heq
    simp at h
  rfl

theorem not_isStray_list : ¬ IsStray (.list nodes, inLoop) := by
  intro h
  obtain ⟨-, mode, hmode⟩ := h
  cases hmode

theorem forall_inside (h : ∀ place ∈ (Node.list nodes).inside inLoop, ¬ IsStray place) :
    ∀ place ∈ (Node.list nodes, inLoop) :: (Node.list nodes).inside inLoop, ¬ IsStray place :=
  forall_mem_cons.mpr ⟨not_isStray_list, h⟩

theorem not_isStray_of_tag {tag : String} {rest : List Node} (h : tag ∉ ["function", "if", "loop"])
    :
    ∀ place ∈ (Node.list (.symbol tag :: rest), inLoop)
      :: (Node.list (.symbol tag :: rest)).inside inLoop, ¬ IsStray place := by
  refine forall_inside ?_
  rw [Node.inside_of_tag h]
  exact nofun

/-- The places of instructions in a part of the text.  Scanning reads no instruction. -/
def Reading.places (inLoop : Bool) : Reading → List (Node × Bool)
  | .instruction node _ => (node, inLoop) :: node.inside inLoop
  | .instructions nodes _ => Node.positions inLoop nodes
  | .function false parts _ _ => Node.insideSignatures parts.tail
  | .signatures false _ _ nodes _ => Node.insideSignatures nodes
  | .signature false _ _ node _ => node.insideSignature
  | _ => []

/-- **What is read has no stray jump.** -/
theorem Reads.not_isStray {reading : Reading} (h : Reads cx reading s s') :
    ∀ place ∈ reading.places cx.enclosing.isSome, ¬ IsStray place := by
  induction h with
  | jump mode enclosing =>
    rw [enclosing]
    have hplaces : ∀ place ∈ [(Node.symbol mode.name, true)], ¬ IsStray place := by
      intro place hplace hstray
      rw [mem_singleton.mp hplace] at hstray
      cases hstray.1
    exact hplaces
  | declare declaration =>
    obtain ⟨qualifiers, ty, name, t, rfl, -, -⟩ := readVariable_eq_ok.mp declaration
    exact not_isStray_of_tag (by decide)
  | @function cx s s' parts slot entries inner ih =>
    refine forall_inside ?_
    cases inner with
    | overloads place inner => exact ih
  | assign assignment =>
    obtain ⟨condition, mask, lhs, rhs, -, -, -, -, rfl, -⟩ := readAssignment_eq_ok.mp assignment
    exact not_isStray_of_tag (by decide)
  | branch value first second ih1 ih2 =>
    exact forall_inside (forall_mem_append.mpr ⟨ih1, ih2⟩)
  | loop header inner ih => exact forall_inside ih
  | ret returned => exact not_isStray_of_tag (by decide)
  | rvalue value =>
    obtain ⟨tag, rest, rfl, htag⟩ := readRvalue_tag value
    have htags : ∀ tag ∈ rvalueTags, tag ∉ ["function", "if", "loop"] := by decide
    exact not_isStray_of_tag (htags tag htag)
  | nil => exact nofun
  | cons first others ih1 ih2 =>
    obtain ⟨hnode, hinside⟩ := forall_mem_cons.mp ih1
    exact forall_mem_cons.mpr ⟨hnode, forall_mem_append.mpr ⟨hinside, ih2⟩⟩
  | @overloads cx s s1 s' scan name first rest slot entries place inner ih =>
    cases scan with
    | false => exact ih
    | true => exact nofun
  | @noMore cx s scan slot name =>
    cases scan <;> exact nofun
  | @more cx s s1 s' scan slot name node rest entry entries first others ih1 ih2 =>
    cases scan with
    | false => exact forall_mem_append.mpr ⟨ih1, ih2⟩
    | true => exact nofun
  | @prototype cx s s1 s2 scan slot name ty declarations nodes returnType parameters index type
      declares registers silent =>
    cases scan with
    | true => exact nofun
    | false =>
      have hnodes : nodes = [] := silent.resolve_left Bool.false_ne_true
      subst hnodes
      exact nofun
  | definition type declares registers nonempty undefined inner bound ih => exact ih

/-- A module with a jump outside of all loops is not read. -/
theorem not_stray_of_readModule {scan : Bool} {u : CompilationUnit} {text : String}
    {ir : List Instruction} (hnodes : readExpressions text = .ok nodes)
    (h : (readModule scan u text).outcome = .ok ir) :
    ∀ place ∈ Node.positions false (Read.documentNodes nodes), ¬ IsStray place := by
  obtain ⟨nodes', s', hnodes', hdocument⟩ := readModule_eq_ok h
  rw [hnodes] at hnodes'
  cases hnodes'
  obtain ⟨s1, items, s2, -, hitems, -, -⟩ := yields_readDocument.mp hdocument
  exact (yields_readItems.mp hitems).reads.not_isStray

end Shading
