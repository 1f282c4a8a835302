/-
  Shading.Proofs.Read.Met — the functions that reading meets.

  Reading keeps the functions of a document in the order in which it first met them.  This order can
  be read off the document: a node names functions, itself or inside of it, and each new name goes
  behind those that are known.
-/
import Shading.Proofs.Read.Settled
import Shading.Proofs.Scan.Heads

namespace Shading

open List

/-! ## §1. First appearances -/

section
variable {α : Type} [BEq α] [LawfulBEq α]

theorem eraseDups_filter (p : α → Bool) (xs : List α) :
    (xs.filter p).eraseDups = xs.eraseDups.filter p := by
  cases xs with
  | nil => rfl
  | cons x xs =>
    have ih := eraseDups_filter p (xs.filter fun y => !y == x)
    rw [eraseDups_cons, filter_cons, filter_cons, ← ih]
    by_cases hx : p x = true
    · simp only [hx, if_true, eraseDups_cons, filter_filter]
      simp only [Bool.and_comm]
    · simp only [hx, Bool.false_eq_true, if_false, filter_filter]
      refine congrArg List.eraseDups (filter_congr ?_)
      intro y _
      by_cases hy : p y = true
      · have hne : (y == x) = false := by
          rw [beq_eq_false_iff_ne]
          exact fun heq => hx (heq ▸ hy)
        rw [hne, hy]
        rfl
      · simp [hy]
termination_by xs.length
decreasing_by
  have := length_filter_le (fun y => !y == x) xs
  simp only [length_cons]
  omega

theorem nodup_eraseDups (xs : List α) : xs.eraseDups.Nodup := by
  induction xs with
  | nil => exact nodup_nil
  | cons x xs ih =>
    rw [eraseDups_cons, nodup_cons, eraseDups_filter]
    refine ⟨?_, ih.filter _⟩
    rw [mem_filter]
    simp

theorem eraseDups_of_nodup {xs : List α} (h : xs.Nodup) : xs.eraseDups = xs := by
  induction xs with
  | nil => rfl
  | cons x xs ih =>
    rw [nodup_cons] at h
    have hkeep : xs.filter (fun y => !y == x) = xs := by
      rw [filter_eq_self]
      intro y hy
      simpa using fun heq : y = x => h.1 (heq ▸ hy)
    rw [eraseDups_cons, hkeep, ih h.2]

theorem eraseDups_append_eraseDups (xs ys : List α) :
    (xs ++ ys.eraseDups).eraseDups = (xs ++ ys).eraseDups := by
  rw [eraseDups_append, eraseDups_append, List.removeAll, List.removeAll,
    ← eraseDups_filter, eraseDups_of_nodup (nodup_eraseDups _)]

end

/-- The names that are known after more of them were met: new ones come behind, each of them once. -/
def meet (known names : List String) : List String :=
  known ++ (names.filter (· ∉ known)).eraseDups

theorem meet_nil (known : List String) : meet known [] = known := by
  simp [meet]

/-- Meeting names keeps the known and adds the rest. -/
theorem mem_meet {known names : List String} {name : String} :
    name ∈ meet known names ↔ name ∈ known ∨ name ∈ names := by
  rw [meet, mem_append, mem_eraseDups, mem_filter, decide_eq_true_eq]
  constructor
  · rintro (h | ⟨h, -⟩)
    · exact .inl h
    · exact .inr h
  · intro h
    by_cases hknown : name ∈ known
    · exact .inl hknown
    · exact .inr ⟨h.resolve_left hknown, hknown⟩

theorem nodup_meet {known : List String} (h : known.Nodup) (names : List String) :
    (meet known names).Nodup := by
  rw [meet, nodup_append]
  refine ⟨h, nodup_eraseDups _, ?_⟩
  intro a ha b hb heq
  rw [mem_eraseDups, mem_filter, decide_eq_true_eq] at hb
  exact hb.2 (heq ▸ ha)

/-- Names are met one list after the other. -/
theorem meet_append (known xs ys : List String) : meet known (xs ++ ys) = meet (meet known xs) ys := by
  have hrest : (ys.filter (· ∉ known)).removeAll (xs.filter (· ∉ known))
      = ys.filter (· ∉ meet known xs) := by
    rw [List.removeAll, filter_filter]
    refine filter_congr ?_
    intro y _
    rw [Bool.eq_iff_iff]
    simp only [Bool.and_eq_true, Bool.not_eq_true', elem_eq_mem, decide_eq_true_eq,
      decide_eq_false_iff_not, mem_filter, mem_meet]
    grind
  rw [meet, filter_append, eraseDups_append, hrest, ← append_assoc]
  rfl

theorem meet_singleton (known : List String) (name : String) :
    meet known [name] = if name ∈ known then known else known ++ [name] := by
  by_cases h : name ∈ known <;> simp [meet, h, eraseDups_cons]

/-! ## §2. What a reading meets -/

theorem ReadState.length_functionNames (s : ReadState) :
    s.functionNames.length = s.functions.length :=
  length_map _

theorem Node.functionNames_of_tag {tag : String} {rest : List Node}
    (h : tag ∉ ["function", "if", "loop"]) :
    (Node.list (.symbol tag :: rest)).functionNames = [] := by
  unfold Node.functionNames
  split <;> simp_all

/-- The functions that the reading meets, in the order of the text.  A scan leaves out bodies. -/
def Reading.met : Reading → List String
  | .instruction node _ => node.functionNames
  | .instructions nodes _ => Node.namesIn nodes
  | .function scan parts _ _ =>
    if scan then (Node.list (.symbol "function" :: parts)).functionName?.toList
    else (Node.list (.symbol "function" :: parts)).functionNames
  | .signatures scan _ _ nodes _ => if scan then [] else Node.namesInBodies nodes
  | .signature scan _ _ node _ => if scan then [] else node.bodyNames

variable {cx : Context} {s : ReadState}

theorem functionNames_header {declarations : List Node} {parameters : List Var} {slot : Nat}
    {name : String} {returnType : Ty} {index : Nat} {s1 s2 : ReadState}
    (hdecl : Declares cx declarations parameters s.opened s1)
    (hreg : Registers slot name returnType parameters index s1 s2) :
    s2.functionNames = s.functionNames := by
  rw [functionNames_registers hreg, ReadState.functionNames, functions_declares hdecl]
  rfl

/-- **Each reading meets the functions that its nodes name**, in the order of the text. -/
theorem Reads.functionNames_eq {reading : Reading} {s' : ReadState} (h : Reads cx reading s s') :
    s'.functionNames = meet s.functionNames reading.met := by
  induction h with
  | jump mode enclosing =>
    simp only [Reading.met, Node.functionNames]
    exact (meet_nil _).symm
  | declare declaration =>
    obtain ⟨qualifiers, ty, name, t, rfl, -, -⟩ := readVariable_eq_ok.mp declaration
    rw [Reading.met, Node.functionNames_of_tag (by decide)]
    exact (meet_nil _).symm
  | function inner ih => exact ih
  | assign assignment =>
    obtain ⟨condition, mask, lhs, rhs, -, -, -, -, rfl, -⟩ := readAssignment_eq_ok.mp assignment
    rw [Reading.met, Node.functionNames_of_tag (by decide)]
    exact (meet_nil _).symm
  | branch value first second ih1 ih2 =>
    simp only [Reading.met, Node.functionNames] at ih1 ih2 ⊢
    rw [ih2, ih1, meet_append]
  | loop header inner ih =>
    simp only [Reading.met, Node.functionNames] at ih ⊢
    exact ih
  | ret returned =>
    rw [Reading.met, Node.functionNames_of_tag (by decide)]
    exact (meet_nil _).symm
  | rvalue value =>
    obtain ⟨tag, rest, rfl, htag⟩ := readRvalue_tag value
    have hother : tag ∉ ["function", "if", "loop"] := by
      intro hmem
      simp only [rvalueTags, mem_cons, not_mem_nil, or_false] at htag hmem
      rcases hmem with rfl | rfl | rfl <;> simp at htag
    rw [Reading.met, Node.functionNames_of_tag hother]
    exact (meet_nil _).symm
  | nil => exact (meet_nil _).symm
  | cons first others ih1 ih2 =>
    simp only [Reading.met, Node.namesIn] at ih1 ih2 ⊢
    rw [ih2, ih1, meet_append]
  | @overloads cx s s1 s' scan name first rest slot entries place inner ih =>
    have hmeet : s1.functionNames = meet s.functionNames [name] := by
      have hnames := (slot_eq s cx name).2
      rwa [place, ← meet_singleton] at hnames
    rw [ih, hmeet, ← meet_append]
    cases scan with
    | true => rfl
    | false =>
      simp only [Reading.met, Bool.false_eq_true, if_false, Node.functionNames]
      rfl
  | noMore =>
    rw [Reading.met, Node.namesInBodies, ite_self]
    exact (meet_nil _).symm
  | @more cx s s1 s' scan slot name node rest entry entries first others ih1 ih2 =>
    rw [ih2, ih1, ← meet_append]
    cases scan with
    | true => rfl
    | false =>
      simp only [Reading.met, Bool.false_eq_true, if_false, Node.namesInBodies]
  | @prototype cx s s1 s2 scan slot name ty declarations nodes returnType parameters index type
      declares registers silent =>
    have hnone : (Reading.signature scan slot name (.list [.symbol "signature", ty,
        .list (.symbol "parameters" :: declarations), .list nodes])
        ⟨index, returnType, parameters, none⟩).met = [] := by
      rcases silent with rfl | rfl
      · rfl
      · simp [Reading.met, Node.bodyNames, Node.namesIn]
    have hclosed : s2.closed.functionNames = s2.functionNames := rfl
    rw [hnone, meet_nil, hclosed, functionNames_header declares registers]
  | @definition cx s s1 s2 s3 slot name ty declarations nodes returnType parameters index body type
      declares registers nonempty undefined inner bound ih =>
    have hclosed : (s3.complete slot name index body).closed.functionNames
        = (s3.complete slot name index body).functionNames := rfl
    rw [hclosed, ReadState.complete, functionNames_onFunction, ih,
      functionNames_header declares registers]
    simp only [Reading.met, Bool.false_eq_true, if_false, Node.bodyNames]

/-- The names of the functions on the top level. -/
def Node.topNames (nodes : List Node) : List String := nodes.filterMap (·.functionName?)

/-- The scan meets the functions at the top. -/
theorem Scans.functionNames_eq {nodes : List Node} {fs : List Function} {s' : ReadState}
    (h : Scans cx nodes fs s s') :
    s'.functionNames = meet s.functionNames (Node.topNames nodes) := by
  induction h with
  | nil s => exact (meet_nil _).symm
  | @skip node rest fs s s' other others ih =>
    have hnone : node.functionName? = none := by
      unfold Node.functionName?
      split
      · cases other
      · rfl
    have hskip : Node.topNames (node :: rest) = Node.topNames rest := by
      rw [Node.topNames, filterMap_cons, hnone]
      rfl
    rw [ih, hskip]
  | @function name signatures rest slot entries fs s s1 s' head others ih =>
    have hnames : s1.functionNames = meet s.functionNames [name] := head.functionNames_eq
    rw [ih, hnames, ← meet_append]
    rfl

end Shading
