/-
  Shading.Proofs.Read.Document — documents as sequences of readings.

  A document is scanned, if that is asked for, and then read node by node.  `Scans` and `Lists` say
  both as relations over the derivations of single nodes.
-/
import Shading.Proofs.Read.Derivation

namespace Shading

open ReadM

/-! ## §1. Nodes of the top level -/

/-- Is the node a function? -/
def Node.isFunction : Node → Bool
  | .list (.symbol "function" :: _) => true
  | _ => false

namespace Node

/-- The name of the function that the node is. -/
def functionName? : Node → Option String
  | .list (.symbol "function" :: .symbol name :: _) => some name
  | _ => none

/-- The signatures of the function that the node is. -/
def signatureNodes : Node → List Node
  | .list (.symbol "function" :: _ :: signatures) => signatures
  | _ => []

/-- The type that a declaration gives. -/
def declaredType : Node → Node
  | .list [_, _, ty, _] => ty
  | node => node

/-- The types of the parameters of a signature. -/
def parameterTypes : Node → List Node
  | .list [_, _, .list (_ :: declarations), _] => declarations.map declaredType
  | _ => []

end Node

variable {node : Node}

theorem Node.isFunction_iff :
    node.isFunction = true ↔ ∃ parts, node = .list (.symbol "function" :: parts) := by
  constructor
  · intro h
    unfold Node.isFunction at h
    split at h
    · exact ⟨_, rfl⟩
    · cases h
  · intro h
    obtain ⟨parts, rfl⟩ := h
    rfl

variable {cx : Context} {s s' : ReadState}

theorem Reads.exists_instruction {i : Option Instruction} (h : Reads cx (.instruction node i) s s')
    (hfun : node.isFunction = false) : ∃ j, i = some j := by
  cases h with
  | function inner => cases hfun
  | _ => exact ⟨_, rfl⟩

/-- Instructions are symbols or lists with a tag that is not `function`. -/
theorem Reads.tagged {i : Instruction} (h : Reads cx (.instruction node (some i)) s s') :
    (∃ name, node = .symbol name)
      ∨ ∃ tag rest, node = .list (.symbol tag :: rest) ∧ tag ≠ "function" := by
  cases h with
  | jump mode enclosing => exact .inl ⟨_, rfl⟩
  | declare declaration =>
    obtain ⟨qualifiers, ty, name, t, rfl, -, -⟩ := readVariable_eq_ok.mp declaration
    exact .inr ⟨_, _, rfl, by decide⟩
  | assign assignment =>
    obtain ⟨condition, mask, lhs, rhs, -, -, -, -, rfl, -⟩ := readAssignment_eq_ok.mp assignment
    exact .inr ⟨_, _, rfl, by decide⟩
  | branch | loop | ret => exact .inr ⟨_, _, rfl, by decide⟩
  | rvalue value =>
    obtain ⟨tag, rest, rfl, htag⟩ := readRvalue_tag value
    have htags : "function" ∉ rvalueTags := by decide
    exact .inr ⟨tag, rest, rfl, fun heq => htags (heq ▸ htag)⟩

theorem Reads.isFunction_eq_false {i : Instruction} (h : Reads cx (.instruction node (some i)) s s') :
    node.isFunction = false := by
  cases hfun : node.isFunction with
  | false => rfl
  | true =>
    obtain ⟨parts, rfl⟩ := Node.isFunction_iff.mp hfun
    rcases h.tagged with ⟨name, heq⟩ | ⟨tag, rest, heq, htag⟩
    · cases heq
    · cases heq
      exact absurd rfl htag

theorem readTop_other (h : node.isFunction = false) :
    Read.readTop cx node = (do
      let i ← readInstruction cx node
      pure (i, none)) := by
  rw [Read.readTop]
  intro parts heq
  rw [heq] at h
  cases h

/-! ## §2. The scan -/

/-- The overload that a signature makes of a new one. -/
def Entry.signature (e : Entry) : Signature :=
  ⟨e.returnType, e.parameters, e.body.getD [], e.body.isSome⟩

/-- A scan of the nodes meets these functions. -/
inductive Scans (cx : Context) : List Node → List Function → ReadState → ReadState → Prop
  | nil (s : ReadState) : Scans cx [] [] s s
  | skip {node : Node} {rest : List Node} {fs : List Function} {s s' : ReadState}
      (other : node.isFunction = false) (others : Scans cx rest fs s s') :
      Scans cx (node :: rest) fs s s'
  | function {name : String} {signatures rest : List Node} {slot : Nat} {entries : List Entry}
      {fs : List Function} {s s1 s' : ReadState}
      (first : Reads cx (.function true (.symbol name :: signatures) slot entries) s s1)
      (others : Scans cx rest fs s1 s') :
      Scans cx (.list (.symbol "function" :: .symbol name :: signatures) :: rest)
        (⟨name, entries.map (·.signature)⟩ :: fs) s s'

theorem scanPrototypes_skip {rest : List Node} (h : node.isFunction = false) :
    Read.scanPrototypes cx (node :: rest) = Read.scanPrototypes cx rest := by
  rw [Read.scanPrototypes]
  intro parts heq
  rw [heq] at h
  cases h

variable {nodes : List Node}

/-- The scan reads the heads of functions and skips all else. -/
theorem yields_scanPrototypes {u : Unit} :
    Yields (Read.scanPrototypes cx nodes) s u s' ↔ ∃ fs, Scans cx nodes fs s s' := by
  induction nodes generalizing s with
  | nil =>
    constructor
    · intro h
      obtain ⟨-, rfl⟩ := yields_pure.mp h
      exact ⟨[], .nil _⟩
    · intro h
      obtain ⟨fs, h⟩ := h
      cases h
      exact yields_pure.mpr ⟨rfl, rfl⟩
  | cons node rest ih =>
    cases hfun : node.isFunction with
    | false =>
      rw [scanPrototypes_skip hfun, ih]
      constructor
      · intro h
        obtain ⟨fs, h⟩ := h
        exact ⟨fs, .skip hfun h⟩
      · intro h
        obtain ⟨fs, h⟩ := h
        cases h with
        | skip other others => exact ⟨fs, others⟩
        | function first others => cases hfun
    | true =>
      obtain ⟨parts, rfl⟩ := Node.isFunction_iff.mp hfun
      simp only [Read.scanPrototypes, yields_bind, ih]
      constructor
      · intro h
        obtain ⟨slot, s1, hfirst, fs, hothers⟩ := h
        obtain ⟨entries, hentries⟩ := reads_function_iff.mpr hfirst
        cases hentries with
        | overloads place inner => exact ⟨_, .function (.overloads place inner) hothers⟩
      · intro h
        obtain ⟨fs, h⟩ := h
        cases h with
        | skip other others => cases other
        | function first others =>
          exact ⟨_, _, reads_function_iff.mp ⟨_, first⟩, _, others⟩

/-! ## §3. The reading after the scan -/

/-- A node of the top level is read: it gives an instruction, or it is a function that has the place. -/
inductive ReadsTop (cx : Context) :
    Node → Option Instruction → Option Nat → ReadState → ReadState → Prop
  | instruction {node : Node} {i : Instruction} {s s' : ReadState}
      (reads : Reads cx (.instruction node (some i)) s s') : ReadsTop cx node (some i) none s s'
  | function {name : String} {signatures : List Node} {slot : Nat} {entries : List Entry}
      {s s' : ReadState}
      (reads : Reads cx (.function false (.symbol name :: signatures) slot entries) s s') :
      ReadsTop cx (.list (.symbol "function" :: .symbol name :: signatures)) none (some slot) s s'

variable {i : Option Instruction} {top : Option Nat}

theorem ReadsTop.reads (h : ReadsTop cx node i top s s') : Reads cx (.instruction node i) s s' := by
  cases h with
  | instruction reads => exact reads
  | function reads => exact .function reads

/-- At the top a function gives its slot, anything else an instruction. -/
theorem yields_readTop :
    Yields (Read.readTop cx node) s (i, top) s' ↔ ReadsTop cx node i top s s' := by
  constructor
  · intro h
    cases hfun : node.isFunction with
    | false =>
      simp only [readTop_other hfun, yields_bind, yields_pure] at h
      obtain ⟨_, _, hfirst, heq, rfl⟩ := h
      obtain ⟨rfl, rfl⟩ := Prod.mk.inj heq
      have hreads := reads_instruction_iff.mpr hfirst
      obtain ⟨j, rfl⟩ := hreads.exists_instruction hfun
      exact .instruction hreads
    | true =>
      obtain ⟨parts, rfl⟩ := Node.isFunction_iff.mp hfun
      simp only [Read.readTop, yields_bind, yields_pure] at h
      obtain ⟨slot, _, hfirst, heq, rfl⟩ := h
      obtain ⟨rfl, rfl⟩ := Prod.mk.inj heq
      obtain ⟨entries, hreads⟩ := reads_function_iff.mpr hfirst
      cases hreads with
      | overloads place inner => exact .function (.overloads place inner)
  · intro h
    cases h with
    | instruction reads =>
      rw [readTop_other reads.isFunction_eq_false]
      exact yields_bind.mpr ⟨_, _, reads.runs, yields_pure.mpr ⟨rfl, rfl⟩⟩
    | function reads => exact yields_bind.mpr ⟨_, _, reads.runs _, yields_pure.mpr ⟨rfl, rfl⟩⟩

/-- Nodes of the top level are read one after the other and give these items.  The functions in
    `placed` have a place already, and `seen` functions were met before. -/
inductive Lists (cx : Context) :
    List Nat → Nat → List Node → List Item → ReadState → ReadState → Prop
  | nil {placed : List Nat} {seen : Nat} {s : ReadState} : Lists cx placed seen [] [] s s
  | cons {placed fresh : List Nat} {seen : Nat} {node : Node} {rest : List Node}
      {i : Option Instruction} {top : Option Nat} {items : List Item} {s s1 s' : ReadState}
      (first : ReadsTop cx node i top s s1)
      (met : fresh = Read.unplaced placed top seen s1.functions.length)
      (others : Lists cx (fresh ++ placed) s1.functions.length rest items s1 s') :
      Lists cx placed seen (node :: rest)
        (i.toList.map .instruction ++ fresh.map .function ++ items) s s'

variable {placed : List Nat} {seen : Nat} {items : List Item}

/-- Items are listed in the order of their nodes. -/
theorem yields_readItems :
    Yields (Read.readItems cx placed seen nodes) s items s'
      ↔ Lists cx placed seen nodes items s s' := by
  constructor
  · intro h
    induction nodes generalizing placed seen items s with
    | nil =>
      obtain ⟨rfl, rfl⟩ := yields_pure.mp h
      exact .nil
    | cons node rest ih =>
      simp only [Read.readItems, yields_bind, yields_get, yields_pure] at h
      obtain ⟨_, _, hfirst, _, _, ⟨rfl, rfl⟩, others, _, hothers, rfl, rfl⟩ := h
      exact .cons (yields_readTop.mp hfirst) rfl (ih hothers)
  · intro h
    induction h with
    | nil => exact yields_pure.mpr ⟨rfl, rfl⟩
    | cons first met others ih =>
      simp only [Read.readItems, yields_bind, yields_get, yields_pure]
      rw [met] at ih ⊢
      exact ⟨_, _, yields_readTop.mpr first, _, _, ⟨rfl, rfl⟩, _, _, ih, rfl, rfl⟩

/-- The instruction of an item; a function that is placed is none. -/
def Item.instruction? : Item → Option Instruction
  | .instruction i => some i
  | .function _ => none

theorem Item.filterMap_instruction? (i : Option Instruction) (slots : List Nat) (items : List Item) :
    (i.toList.map Item.instruction ++ slots.map Item.function ++ items).filterMap Item.instruction?
      = i.toList ++ items.filterMap Item.instruction? := by
  have hfunctions : (slots.map Item.function).filterMap Item.instruction? = [] :=
    List.filterMap_eq_nil_iff.mpr (List.forall_mem_map.mpr fun _ _ => rfl)
  rw [List.filterMap_append, List.filterMap_append, hfunctions, List.append_nil]
  cases i <;> rfl

theorem Item.instruction_mem {j : Instruction} {slots : List Nat} :
    Item.instruction j ∈ i.toList.map Item.instruction ++ slots.map Item.function ++ items
      ↔ i = some j ∨ Item.instruction j ∈ items := by
  simp

theorem Item.function_mem {slot : Nat} {slots : List Nat} :
    Item.function slot ∈ i.toList.map Item.instruction ++ slots.map Item.function ++ items
      ↔ slot ∈ slots ∨ Item.function slot ∈ items := by
  simp

/-- The nodes were read as a block, too. -/
theorem Lists.reads (h : Lists cx placed seen nodes items s s') :
    Reads cx (.instructions nodes (items.filterMap Item.instruction?)) s s' := by
  induction h with
  | nil => exact .nil
  | cons first met others ih =>
    rw [Item.filterMap_instruction?]
    exact .cons first.reads ih

/-- A list of items is split where its nodes are. -/
theorem Lists.exists_split {xs ys : List Node}
    (h : Lists cx placed seen (xs ++ ys) items s s') (hseen : seen = s.functions.length) :
    ∃ placed1 front back s1, items = front ++ back ∧ Lists cx placed seen xs front s s1
      ∧ Lists cx placed1 s1.functions.length ys back s1 s' := by
  induction xs generalizing placed seen items s with
  | nil => exact ⟨placed, [], items, s, rfl, .nil, hseen ▸ h⟩
  | cons node rest ih =>
    cases h with
    | cons first met others =>
      obtain ⟨placed1, front, back, s1, rfl, hfront, hback⟩ := ih others rfl
      exact ⟨placed1, _, back, s1, (List.append_assoc _ _ _).symm, .cons first met hfront, hback⟩

theorem mem_unplaced {count slot : Nat}
    (h : slot ∈ Read.unplaced placed top seen count) :
    slot ∈ top ∨ (seen ≤ slot ∧ slot < count) := by
  unfold Read.unplaced at h
  rw [List.mem_eraseDups, List.mem_filter, List.mem_append] at h
  rcases h.1 with htop | hrange
  · exact .inl (Option.mem_toList.mp htop)
  · rw [List.mem_range'_1] at hrange
    exact .inr ⟨hrange.1, by omega⟩

/-! ## §4. Documents and modules -/

/-- The state after a note. -/
def ReadState.noted (s : ReadState) (n : ReadNote) : ReadState := { s with notes := n :: s.notes }

variable {scan : Bool} {ir : List Instruction}

/-- A document is scanned, read and put in order. -/
theorem yields_readDocument :
    Yields (Read.readDocument scan nodes) s ir s'
      ↔ ∃ s1 items s2,
        (if scan then
          Yields (Read.scanPrototypes ⟨none, none, s.symbols.depth⟩ nodes)
            (s.noted (.scanning nodes.length)) () s1
        else s1 = s)
        ∧ Yields (Read.readItems ⟨none, none, s.symbols.depth⟩ [] s1.functions.length nodes)
            (s1.noted (.reading nodes.length)) items s2
        ∧ ir = items.filterMap (Read.resolve s2.functions)
        ∧ s' = s2.noted (.finished items.length s2.functions.length) := by
  unfold Read.readDocument
  cases scan with
  | false =>
    simp only [Bool.false_eq_true, if_false, yields_bind, yields_get, yields_note, yields_pure]
    constructor
    · rintro ⟨_, _, ⟨rfl, rfl⟩, -, _, rfl, _, _, ⟨rfl, rfl⟩, items, s2, hitems, _, _, ⟨rfl, rfl⟩, -, _,
        rfl, rfl, rfl⟩
      exact ⟨_, items, _, rfl, hitems, rfl, rfl⟩
    · rintro ⟨_, items, s2, rfl, hitems, rfl, rfl⟩
      exact ⟨_, _, ⟨rfl, rfl⟩, (), _, rfl, _, _, ⟨rfl, rfl⟩, items, s2, hitems, _, _, ⟨rfl, rfl⟩, (),
        _, rfl, rfl, rfl⟩
  | true =>
    simp only [if_true, yields_bind, yields_get, yields_note, yields_pure]
    constructor
    · rintro ⟨_, _, ⟨rfl, rfl⟩, -, _, rfl, u, s1, hscan, -, _, rfl, _, _, ⟨rfl, rfl⟩, items, s2,
        hitems, _, _, ⟨rfl, rfl⟩, -, _, rfl, rfl, rfl⟩
      exact ⟨s1, items, _, hscan, hitems, rfl, rfl⟩
    · rintro ⟨s1, items, s2, hscan, hitems, rfl, rfl⟩
      exact ⟨_, _, ⟨rfl, rfl⟩, (), _, rfl, (), s1, hscan, (), _, rfl, _, _, ⟨rfl, rfl⟩, items, s2,
        hitems, _, _, ⟨rfl, rfl⟩, (), _, rfl, rfl, rfl⟩

/-- The state in which a module is read. -/
def CompilationUnit.start (u : CompilationUnit) : ReadState := ⟨u.storage, u.symbols, [], []⟩

theorem readModule_of_yields {u : CompilationUnit} {text : String}
    (hnodes : readExpressions text = .ok nodes)
    (h : Yields (Read.readDocument scan (Read.documentNodes nodes)) u.start ir s') :
    readModule scan u text = ⟨.ok ir, ⟨s'.storage, s'.symbols⟩, s'.notes.reverse⟩ := by
  unfold Yields CompilationUnit.start at h
  simp only [readModule, hnodes, h]

theorem readModule_eq_ok {u : CompilationUnit} {text : String}
    (h : (readModule scan u text).outcome = .ok ir) :
    ∃ nodes s', readExpressions text = .ok nodes
      ∧ Yields (Read.readDocument scan (Read.documentNodes nodes)) u.start ir s' := by
  cases hnodes : readExpressions text with
  | error e => simp [readModule, hnodes] at h
  | ok nodes =>
    simp only [readModule, hnodes] at h
    exact ⟨nodes, _, rfl, Prod.ext h rfl⟩

end Shading
