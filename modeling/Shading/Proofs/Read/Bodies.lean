/-
  Shading.Proofs.Read.Bodies — the bodies of a module.

  A signature with a body completes its overload, and may do so only while the overload is not
  complete.  So a body that stands stays (`Completes.grows`), and of two signatures for one overload,
  one after the other, the second is refused.  The check is made before the body is read, though, and
  a body may hold further functions.  A signature inside of a body can complete the overload that the
  body is for, and is then overwritten when the body ends.
-/
import Shading.Proofs.Read.Placement

namespace Shading

open List

/-! ## §1. Complete overloads -/

/-- The body of the overload with these parameter types, if it is complete. -/
def definitionIn (sigs : List Signature) (types : List Ty) : Option (List Instruction) :=
  (sigs.find? (·.types = types)).bind fun sig => if sig.isDefined then some sig.body else none

variable {sigs : List Signature} {i : Nat}

theorem definitionIn_modify {f : Signature → Signature} (hf : ∀ sig, sigs[i]? = some sig →
      (f sig).types = sig.types ∧ (f sig).body = sig.body ∧ (f sig).isDefined = sig.isDefined)
    (types : List Ty) : definitionIn (sigs.modify i f) types = definitionIn sigs types := by
  induction sigs generalizing i with
  | nil => cases i <;> rfl
  | cons sig sigs ih =>
    cases i with
    | zero =>
      obtain ⟨htypes, hbody, hdefined⟩ := hf sig rfl
      simp only [definitionIn, modify_zero_cons, find?_cons, htypes]
      split
      · simp only [Option.bind_some, hbody, hdefined]
      · rfl
    | succ i =>
      have hrest := ih (i := i) fun other hother => hf other hother
      simp only [definitionIn, modify_succ_cons, find?_cons] at hrest ⊢
      split
      · rfl
      · exact hrest

theorem definitionIn_append_prototype (sigs : List Signature) {sig : Signature}
    (hsig : sig.isDefined = false) (types : List Ty) :
    definitionIn (sigs ++ [sig]) types = definitionIn sigs types := by
  unfold definitionIn
  rw [find?_append]
  cases sigs.find? (·.types = types) with
  | some known => rfl
  | none =>
    rw [Option.none_or, find?_singleton]
    split
    · simp [hsig]
    · rfl

/-- Completing an overload shows under its types only. -/
theorem definitionIn_complete {types : List Ty} (h : sigs.findIdx? (·.types = types) = some i)
    (body : List Instruction) (other : List Ty) :
    definitionIn (sigs.modify i ({ · with body, isDefined := true })) other
      = if other = types then some body else definitionIn sigs other := by
  induction sigs generalizing i with
  | nil => cases h
  | cons sig sigs ih =>
    rw [findIdx?_cons] at h
    split at h
    next hsig =>
      cases h
      have htypes : sig.types = types := of_decide_eq_true hsig
      have hnew : ({ sig with body, isDefined := true } : Signature).types = types := htypes
      simp only [definitionIn, modify_zero_cons, find?_cons, hnew, htypes]
      by_cases hother : other = types
      · simp [hother]
      · simp [hother, Ne.symm hother]
    next hsig =>
      obtain ⟨j, hj, rfl⟩ := Option.map_eq_some_iff.mp h
      have hrest := ih hj
      have htypes : sig.types ≠ types := fun heq => hsig (decide_eq_true heq)
      simp only [definitionIn, modify_succ_cons, find?_cons] at hrest ⊢
      by_cases hother : sig.types = other
      · subst hother
        simp [htypes]
      · simp only [hother, decide_false]
        exact hrest

/-- An overload that is not complete has no body yet. -/
theorem definitionIn_of_incomplete {types : List Ty} (h : sigs.findIdx? (·.types = types) = some i)
    (hdefined : (sigs[i]?.map (·.isDefined)).getD false = false) :
    definitionIn sigs types = none := by
  rw [definitionIn, find?_eq_bind_findIdx?_getElem?, h, Option.bind_some]
  cases hsig : sigs[i]? with
  | none => rfl
  | some sig =>
    rw [hsig] at hdefined
    have hdefined : sig.isDefined = false := hdefined
    simp [hdefined]

/-! ## §2. Overloads by name -/

namespace ReadState

variable {s s' : ReadState} {slot : Nat} {name : String}

theorem overloadsOf_of_functions (h : s'.functions = s.functions) (name : String) :
    s'.overloadsOf name = s.overloadsOf name := by
  unfold overloadsOf signatures functionNames
  rw [h]

theorem Places.overloadsOf (hplace : s.Places slot name) (hnodup : s.functionNames.Nodup) :
    s.overloadsOf name = s.signatures slot := by
  rw [ReadState.overloadsOf, hplace.idxOf hnodup]

theorem overloadsOf_of_not_mem (h : name ∉ s.functionNames) : s.overloadsOf name = [] := by
  rw [overloadsOf, idxOf_eq_length h, length_functionNames, signatures,
    getElem?_eq_none (Nat.le_refl _)]
  rfl

/-- Only the function in the slot changes its overloads. -/
theorem overloadsOf_onFunction (hplace : s.Places slot name) (hnodup : s.functionNames.Nodup)
    (f : Prototype → Prototype) (g : List Signature → List Signature) (other : String) :
    (s.onFunction slot name f g).overloadsOf other
      = if other = name then g (s.overloadsOf name) else s.overloadsOf other := by
  split
  next heq =>
    subst heq
    have hplace' := hplace.onFunction slot other f g
    have hnodup' : (s.onFunction slot other f g).functionNames.Nodup := by
      rwa [functionNames_onFunction]
    rw [hplace'.overloadsOf hnodup', hplace.overloadsOf hnodup, signatures_onFunction hplace]
  next hne =>
    have hslot : s.functionNames.idxOf other ≠ slot := by
      intro heq
      have hname := hplace.idxOf hnodup
      have hmem : name ∈ s.functionNames := by
        rw [← idxOf_lt_length_iff, hname, length_functionNames]
        exact hplace.lt_length
      have hmem' : other ∈ s.functionNames := by
        rw [← idxOf_lt_length_iff, heq, length_functionNames]
        exact hplace.lt_length
      exact hne (idxOf_injOn hmem' hmem (heq.trans hname.symm))
    unfold overloadsOf
    rw [functionNames_onFunction, signatures_onFunction_ne hslot]

/-- The body of the overload of that name and those parameter types, if it is complete. -/
def definition? (s : ReadState) (name : String) (types : List Ty) : Option (List Instruction) :=
  definitionIn (s.overloadsOf name) types

theorem mem_functionNames_of_definition? {types : List Ty} {body : List Instruction}
    (h : s.definition? name types = some body) : name ∈ s.functionNames := by
  by_cases hmem : name ∈ s.functionNames
  · exact hmem
  · rw [definition?, overloadsOf_of_not_mem hmem] at h
    cases h

theorem definition?_of_functions (h : s'.functions = s.functions) (name : String) (types : List Ty) :
    s'.definition? name types = s.definition? name types := by
  rw [definition?, overloadsOf_of_functions h, definition?]

theorem definition?_slot (cx : Context) (other : String) {types : List Ty}
    {body : List Instruction} (h : s.definition? name types = some body) :
    (s.slot cx other).2.definition? name types = some body := by
  have hmem := mem_functionNames_of_definition? h
  have hlt : s.functionNames.idxOf name < s.functions.length := by
    rw [← s.length_functionNames]
    exact idxOf_lt_length_of_mem hmem
  rcases functions_slot s cx other with hsame | ⟨sigs, -, hnew⟩
  · rwa [definition?_of_functions hsame]
  · have hnames : (s.slot cx other).2.functionNames = s.functionNames ++ [other] := by
      rw [functionNames, hnew, map_append]
      rfl
    have hsigs : (s.slot cx other).2.overloadsOf name = s.overloadsOf name := by
      unfold overloadsOf
      rw [hnames, idxOf_append, if_pos hmem, signatures, hnew,
        getElem?_append_left hlt, signatures]
    rwa [definition?, hsigs]

end ReadState

section
variable {slot : Nat} {name : String} {returnType : Ty} {parameters : List Var} {index : Nat}
  {s s' : ReadState}

/-- Registering a signature completes nothing. -/
theorem Registers.definition? (h : Registers slot name returnType parameters index s s')
    (hi : s.InStep) (hplace : s.Places slot name) (other : String) (types : List Ty) :
    s'.definition? other types = s.definition? other types := by
  cases h with
  | @repeated p index s bound known repeats =>
    unfold ReadState.definition? ReadState.setParameters
    rw [ReadState.overloadsOf_onFunction hplace hi.nodup]
    split
    next heq =>
      subst heq
      rw [hplace.overloadsOf hi.nodup]
      refine definitionIn_modify ?_ types
      intro sig hsig
      refine ⟨?_, rfl, rfl⟩
      obtain ⟨o, ho, htypes⟩ := Prototype.matching?_eq_some known
      rw [hi.overloads hplace bound, getElem?_map, hsig] at ho
      cases ho
      exact htypes.symm
    next => rfl
  | @added p s bound unknown =>
    have hplace' : (s.addOverload slot name returnType).Places slot name :=
      hplace.onFunction slot name _ _
    have hadded : ∀ other, (s.addOverload slot name returnType).overloadsOf other
        = if other = name then s.overloadsOf name ++ [.prototype returnType []]
          else s.overloadsOf other :=
      ReadState.overloadsOf_onFunction hplace hi.nodup _ _
    unfold ReadState.definition? ReadState.setParameters
    rw [ReadState.overloadsOf_onFunction hplace' (hi.addOverload hplace returnType).nodup]
    split
    next heq =>
      subst heq
      have hlast := modify_append_right (s.overloadsOf other) [.prototype returnType []] 0
        ({ · with parameters })
      rw [Nat.zero_add] at hlast
      rw [hadded, if_pos rfl, ← hplace.overloadsOf hi.nodup, hlast]
      exact definitionIn_append_prototype _ rfl types
    next hne => rw [hadded, if_neg hne]

theorem Registers.findIdx?_overloadsOf {s1 s2 s3 : ReadState}
    (h : Registers slot name returnType parameters index s1 s2) (hi : s1.InStep)
    (hplace : s1.Places slot name) (hleads : s2.symbols.Leads s3.symbols) (hi' : s3.InStep)
    (hplace' : s3.Places slot name) :
    (s3.overloadsOf name).findIdx? (·.types = parameters.map (·.ty)) = some index := by
  obtain ⟨p, p', -, hp', -, hfirst, -⟩ := h.first hi hplace
  obtain ⟨q, hq, hlead⟩ := hleads name p' hp'
  have hidx := (hfirst.mono hlead.heads).1
  rw [Head.types_of, Prototype.heads, hi'.overloads hplace' hq, map_map, findIdx?_map]
    at hidx
  rw [hplace'.overloadsOf hi'.nodup, ← hidx]
  refine congrArg (List.findIdx? · _) ?_
  funext sig
  have htypes : sig.overload.head.types = sig.types := Head.types_of _ _
  simp only [Function.comp_apply, htypes]

end

/-! ## §3. Definitions in a document -/

/-- A signature somewhere in a document: the places of the nodes that lead to it, from the top level
    down, and the function that it belongs to. -/
structure Located (α : Type) where
  address : List Nat
  function : String
  signature : α

/-- The same place with something else there. -/
def Located.map {α β : Type} (f : α → β) (l : Located α) : Located β :=
  ⟨l.address, l.function, f l.signature⟩

mutual

/-- The signatures with a body in a node, in the order of the text. -/
def Node.definitions (path : List Nat) : Node → List (Located Node)
  | .list (.symbol "function" :: .symbol name :: signatures) =>
    Node.definitionsOf path 0 name signatures
  | .list [.symbol "if", _, .list thenNodes, .list elseNodes] =>
    Node.definitionsIn (path ++ [0]) 0 thenNodes ++ Node.definitionsIn (path ++ [1]) 0 elseNodes
  | .list [.symbol "loop", _, _, _, _, .list nodes] => Node.definitionsIn path 0 nodes
  | _ => []

/-- The signatures with a body in nodes, the first of which is the `k`-th. -/
def Node.definitionsIn (path : List Nat) (k : Nat) : List Node → List (Located Node)
  | [] => []
  | node :: rest =>
    Node.definitions (path ++ [k]) node ++ Node.definitionsIn path (k + 1) rest

/-- Those among the signatures of a function, and in their bodies. -/
def Node.definitionsOf (path : List Nat) (k : Nat) (name : String) : List Node → List (Located Node)
  | [] => []
  | node :: rest =>
    Node.definitionsAt (path ++ [k]) name node ++ Node.definitionsOf path (k + 1) name rest

/-- The signature, if it has a body, and those in it. -/
def Node.definitionsAt (path : List Nat) (name : String) : Node → List (Located Node)
  | .list [.symbol "signature", ty, parameters, .list nodes] =>
    (if nodes.isEmpty then []
      else [⟨path, name, .list [.symbol "signature", ty, parameters, .list nodes]⟩])
      ++ Node.definitionsIn path 0 nodes
  | _ => []

end

mutual

/-- The signatures with a body in the node of a trace. -/
def Trace.definitions (path : List Nat) : Trace → List (Located SignatureTrace)
  | .plain _ _ => []
  | .declare _ _ => []
  | .branch _ _ thenPart elsePart =>
    Trace.definitionsIn (path ++ [0]) 0 thenPart ++ Trace.definitionsIn (path ++ [1]) 0 elsePart
  | .loop _ _ _ _ _ _ part => Trace.definitionsIn path 0 part
  | .function name sigs => SignatureTrace.definitionsOf path 0 name sigs

/-- The signatures with a body in the nodes of traces. -/
def Trace.definitionsIn (path : List Nat) (k : Nat) : List Trace → List (Located SignatureTrace)
  | [] => []
  | t :: rest => Trace.definitions (path ++ [k]) t ++ Trace.definitionsIn path (k + 1) rest

/-- Those among the signatures of a function, and in their bodies. -/
def SignatureTrace.definitionsOf (path : List Nat) (k : Nat) (name : String) :
    List SignatureTrace → List (Located SignatureTrace)
  | [] => []
  | sig :: rest =>
    SignatureTrace.definitionsAt (path ++ [k]) name sig
      ++ SignatureTrace.definitionsOf path (k + 1) name rest

/-- The signature, if it has a body, and those in it. -/
def SignatureTrace.definitionsAt (path : List Nat) (name : String) :
    SignatureTrace → List (Located SignatureTrace)
  | ⟨ty, declarations, returnType, parameters, part⟩ =>
    (if part.isEmpty then []
      else [⟨path, name, ⟨ty, declarations, returnType, parameters, part⟩⟩])
      ++ Trace.definitionsIn path 0 part

end

variable {path : List Nat}

theorem definitionsAt_of_ne_nil {name : String} {ty : Node} {declarations : List Node}
    {returnType : Ty} {parameters : List Var} {part : List Trace} (h : part ≠ []) :
    SignatureTrace.definitionsAt path name ⟨ty, declarations, returnType, parameters, part⟩
      = ⟨path, name, ⟨ty, declarations, returnType, parameters, part⟩⟩
        :: Trace.definitionsIn path 0 part := by
  rw [SignatureTrace.definitionsAt, isEmpty_eq_false_iff.mpr h]
  rfl

/-- The signatures with a body in a part of a trace that stands there. -/
def Passage.definitions (path : List Nat) (k : Nat) : Passage → List (Located SignatureTrace)
  | .item t => t.definitions path
  | .block ts => Trace.definitionsIn path k ts
  | .signatures _ name sigs => SignatureTrace.definitionsOf path k name sigs
  | .signature _ name sig => sig.definitionsAt path name

/-- The same, from the nodes. -/
def Passage.nodeDefinitions (path : List Nat) (k : Nat) : Passage → List (Located Node)
  | .item t => t.node.definitions path
  | .block ts => Node.definitionsIn path k (Trace.nodes ts)
  | .signatures _ name sigs => Node.definitionsOf path k name (SignatureTrace.nodes sigs)
  | .signature _ name sig => sig.node.definitionsAt path name

theorem Node.definitions_of_tag {tag : String} {rest : List Node}
    (h : tag ∉ ["function", "if", "loop"]) :
    (Node.list (.symbol tag :: rest)).definitions path = [] := by
  unfold Node.definitions
  split <;> simp_all

variable {cx : Context} {passage : Passage} {s s' : ReadState}

/-- The definitions in a trace are those of the nodes it was read from. -/
theorem Records.definitions_node (h : Records cx passage s s') (path : List Nat) (k : Nat) :
    (passage.definitions path k).map (·.map SignatureTrace.node) = passage.nodeDefinitions path k := by
  induction h generalizing path k with
  | plain reads simple =>
    rcases reads.plain_node simple with ⟨name, rfl⟩ | ⟨tag, rest, rfl, htag⟩
    · simp [Passage.definitions, Passage.nodeDefinitions, Trace.definitions, Trace.node,
        Node.definitions]
    · have hother : tag ∉ ["function", "if", "loop"] := fun hmem => htag (mem_cons_of_mem _ hmem)
      simp [Passage.definitions, Passage.nodeDefinitions, Trace.definitions, Trace.node,
        Node.definitions_of_tag hother]
  | declare declaration =>
    obtain ⟨qualifiers, ty, name, t, rfl, -, -⟩ := readVariable_eq_ok.mp declaration
    simp [Passage.definitions, Passage.nodeDefinitions, Trace.definitions, Trace.node,
      Node.definitions]
  | branch value first second ih1 ih2 =>
    have h1 := ih1 (path ++ [0]) 0
    have h2 := ih2 (path ++ [1]) 0
    simp only [Passage.definitions, Passage.nodeDefinitions, Trace.definitions, Trace.node,
      Node.definitions, map_append] at h1 h2 ⊢
    rw [h1, h2]
  | loop header inner ih =>
    have h := ih path 0
    simp only [Passage.definitions, Passage.nodeDefinitions, Trace.definitions, Trace.node,
      Node.definitions] at h ⊢
    exact h
  | function place inner ih =>
    have h := ih path 0
    simp only [Passage.definitions, Passage.nodeDefinitions, Trace.definitions, Trace.node,
      Node.definitions] at h ⊢
    exact h
  | nil | noMore => rfl
  | cons first others ih1 ih2 =>
    have h1 := ih1 (path ++ [k]) 0
    have h2 := ih2 path (k + 1)
    simp only [Passage.definitions, Passage.nodeDefinitions, Trace.definitionsIn, Trace.nodes,
      Node.definitionsIn, map_append] at h1 h2 ⊢
    rw [h1, h2]
  | more first others ih1 ih2 =>
    have h1 := ih1 (path ++ [k]) 0
    have h2 := ih2 path (k + 1)
    simp only [Passage.definitions, Passage.nodeDefinitions, SignatureTrace.definitionsOf,
      SignatureTrace.nodes, Node.definitionsOf, map_append] at h1 h2 ⊢
    rw [h1, h2]
  | prototype type declares registers =>
    simp [Passage.definitions, Passage.nodeDefinitions, SignatureTrace.definitionsAt,
      SignatureTrace.node, Node.definitionsAt, Trace.nodes, Trace.definitionsIn, Node.definitionsIn]
  | @definition cx s s1 s2 s3 slot name ty declarations returnType parameters index part type
      declares registers nonempty undefined inner bound ih =>
    have hpart : part.isEmpty = false := isEmpty_eq_false_iff.mpr nonempty
    have hnodes : (Trace.nodes part).isEmpty = false :=
      isEmpty_eq_false_iff.mpr (mt Trace.nodes_eq_nil.mp nonempty)
    have h := ih path 0
    simp only [Passage.definitions, Passage.nodeDefinitions, SignatureTrace.definitionsAt,
      SignatureTrace.node, Node.definitionsAt, map_append] at h ⊢
    rw [h, hpart, hnodes]
    rfl

/-! ## §4. What reading does to bodies -/

namespace Located

/-- The types of the parameters. -/
def types (l : Located SignatureTrace) : List Ty := l.signature.parameters.map (·.ty)

/-- The instructions that were read from the body. -/
def body (l : Located SignatureTrace) : List Instruction := Trace.instructions l.signature.part

/-- The two signatures are for the same overload. -/
def Rivals (l m : Located SignatureTrace) : Prop := l.function = m.function ∧ l.types = m.types

/-- The signature is not inside of another one for the same overload. -/
def Outermost (all : List (Located SignatureTrace)) (l : Located SignatureTrace) : Prop :=
  ∀ m ∈ all, m.Rivals l → m.address <+: l.address → m.address = l.address

theorem Outermost.mono {all all' : List (Located SignatureTrace)} {l : Located SignatureTrace}
    (h : l.Outermost all) (hsub : ∀ m ∈ all', m ∈ all) : l.Outermost all' :=
  fun m hm => h m (hsub m hm)

end Located

/-- The definitions were read one after the other, each completing its overload, and no other body
    has changed. -/
structure Completes (ds : List (Located SignatureTrace)) (s s' : ReadState) : Prop where
  grows : ∀ name types body, s.definition? name types = some body →
    s'.definition? name types = some body
  fresh : ∀ l ∈ ds, s.definition? l.function l.types = none
  done : ∀ l ∈ ds, (s'.definition? l.function l.types).isSome
  kept : ∀ l ∈ ds, l.Outermost ds → s'.definition? l.function l.types = some l.body
  nested : ∀ l ∈ ds, ∀ m ∈ ds, l.Rivals m → l.address <+: m.address ∨ m.address <+: l.address

namespace Completes

variable {ds es : List (Located SignatureTrace)} {s s1 s2 s3 s' : ReadState}

theorem of_grows (h : ∀ name types body, s.definition? name types = some body →
    s'.definition? name types = some body) : Completes [] s s' :=
  ⟨h, by simp, by simp, by simp, by simp⟩

/-- What one part completes the next one keeps. -/
theorem append (h1 : Completes ds s s1) (h2 : Completes es s1 s') : Completes (ds ++ es) s s' where
  grows := fun name types body h => h2.grows _ _ _ (h1.grows _ _ _ h)
  fresh := by
    intro l hl
    rcases mem_append.mp hl with hl | hl
    · exact h1.fresh l hl
    · cases hdef : s.definition? l.function l.types with
      | none => rfl
      | some body =>
        have hnone := h2.fresh l hl
        rw [h1.grows _ _ _ hdef] at hnone
        cases hnone
  done := by
    intro l hl
    rcases mem_append.mp hl with hl | hl
    · obtain ⟨body, hbody⟩ := Option.isSome_iff_exists.mp (h1.done l hl)
      rw [h2.grows _ _ _ hbody]
      rfl
    · exact h2.done l hl
  kept := by
    intro l hl houter
    rcases mem_append.mp hl with hl | hl
    · exact h2.grows _ _ _ (h1.kept l hl (houter.mono fun m => mem_append_left es))
    · exact h2.kept l hl (houter.mono fun m => mem_append_right ds)
  nested := by
    have hapart : ∀ l ∈ ds, ∀ m ∈ es, l.function = m.function → l.types = m.types → False := by
      intro l hl m hm hname htypes
      have hsome := h1.done l hl
      rw [hname, htypes, h2.fresh m hm] at hsome
      cases hsome
    intro l hl m hm hrivals
    rcases mem_append.mp hl with hl | hl <;> rcases mem_append.mp hm with hm | hm
    · exact h1.nested l hl m hm hrivals
    · exact absurd (hapart l hl m hm hrivals.1 hrivals.2) id
    · exact absurd (hapart m hm l hl hrivals.1.symm hrivals.2.symm) id
    · exact h2.nested l hl m hm hrivals

/-- **A body is kept if it was read inside of no other definition of its overload.** -/
theorem enclose {l : Located SignatureTrace} (h : Completes ds s2 s3)
    (hbefore : ∀ name types, s2.definition? name types = s.definition? name types)
    (hnone : s2.definition? l.function l.types = none)
    (hafter : ∀ name types, s'.definition? name types
      = if name = l.function ∧ types = l.types then some l.body else s3.definition? name types)
    (hinside : ∀ m ∈ ds, l.address <+: m.address ∧ l.address ≠ m.address) :
    Completes (l :: ds) s s' where
  grows := by
    intro name types body hbody
    rw [← hbefore] at hbody
    have hother : ¬ (name = l.function ∧ types = l.types) := by
      rintro ⟨rfl, rfl⟩
      rw [hnone] at hbody
      cases hbody
    rw [hafter, if_neg hother]
    exact h.grows _ _ _ hbody
  fresh := by
    intro m hm
    rw [← hbefore]
    rcases mem_cons.mp hm with rfl | hm
    · exact hnone
    · exact h.fresh m hm
  done := by
    intro m hm
    rw [hafter]
    split
    next => rfl
    next hother =>
      rcases mem_cons.mp hm with rfl | hm
      · exact absurd ⟨rfl, rfl⟩ hother
      · exact h.done m hm
  kept := by
    intro m hm houter
    rw [hafter]
    rcases mem_cons.mp hm with rfl | hm
    · rw [if_pos ⟨rfl, rfl⟩]
    · have hother : ¬ (m.function = l.function ∧ m.types = l.types) := by
        rintro ⟨hname, htypes⟩
        obtain ⟨hfront, hne⟩ := hinside m hm
        exact hne (houter l mem_cons_self ⟨hname.symm, htypes.symm⟩ hfront)
      rw [if_neg hother]
      exact h.kept m hm (houter.mono fun e => mem_cons_of_mem l)
  nested := by
    intro m hm e he hrivals
    rcases mem_cons.mp hm with rfl | hm'
    · rcases mem_cons.mp he with rfl | he'
      · exact .inl (prefix_refl _)
      · exact .inl (hinside e he').1
    · rcases mem_cons.mp he with rfl | he'
      · exact .inr (hinside m hm').1
      · exact h.nested m hm' e he' hrivals

end Completes

theorem prefix_of_append_singleton {address : List Nat} {k : Nat} (h : path ++ [k] <+: address) :
    path <+: address ∧ path ≠ address := by
  obtain ⟨rest, rfl⟩ := h
  rw [append_assoc]
  exact ⟨prefix_append _ _, by simp⟩

mutual

theorem Trace.prefix_definitions (path : List Nat) :
    ∀ t : Trace, ∀ l ∈ t.definitions path, path <+: l.address
  | .plain _ _ => fun l hl => by cases hl
  | .declare _ _ => fun l hl => by cases hl
  | .branch _ _ thenPart elsePart => by
    intro l hl
    rw [Trace.definitions, mem_append] at hl
    rcases hl with hl | hl
    · obtain ⟨j, hj⟩ := Trace.prefix_definitionsIn (path ++ [0]) 0 thenPart l hl
      exact (prefix_of_append_singleton (prefix_of_append_singleton hj).1).1
    · obtain ⟨j, hj⟩ := Trace.prefix_definitionsIn (path ++ [1]) 0 elsePart l hl
      exact (prefix_of_append_singleton (prefix_of_append_singleton hj).1).1
  | .loop _ _ _ _ _ _ part => by
    intro l hl
    rw [Trace.definitions] at hl
    obtain ⟨j, hj⟩ := Trace.prefix_definitionsIn path 0 part l hl
    exact (prefix_of_append_singleton hj).1
  | .function name sigs => by
    intro l hl
    rw [Trace.definitions] at hl
    exact SignatureTrace.prefix_definitionsOf path 0 name sigs l hl

theorem Trace.prefix_definitionsIn (path : List Nat) (k : Nat) :
    ∀ ts : List Trace, ∀ l ∈ Trace.definitionsIn path k ts, ∃ j, path ++ [j] <+: l.address
  | [] => fun l hl => by cases hl
  | t :: rest => by
    intro l hl
    rw [Trace.definitionsIn, mem_append] at hl
    rcases hl with hl | hl
    · exact ⟨k, Trace.prefix_definitions (path ++ [k]) t l hl⟩
    · exact Trace.prefix_definitionsIn path (k + 1) rest l hl

theorem SignatureTrace.prefix_definitionsOf (path : List Nat) (k : Nat) (name : String) :
    ∀ sigs : List SignatureTrace, ∀ l ∈ SignatureTrace.definitionsOf path k name sigs,
      path <+: l.address
  | [] => fun l hl => by cases hl
  | sig :: rest => by
    intro l hl
    rw [SignatureTrace.definitionsOf, mem_append] at hl
    rcases hl with hl | hl
    · exact (prefix_of_append_singleton (SignatureTrace.prefix_definitionsAt (path ++ [k]) name sig l hl)).1
    · exact SignatureTrace.prefix_definitionsOf path (k + 1) name rest l hl

theorem SignatureTrace.prefix_definitionsAt (path : List Nat) (name : String) :
    ∀ sig : SignatureTrace, ∀ l ∈ sig.definitionsAt path name, path <+: l.address
  | ⟨ty, declarations, returnType, parameters, part⟩ => by
    intro l hl
    rw [SignatureTrace.definitionsAt, mem_append] at hl
    rcases hl with hl | hl
    · split at hl
      · cases hl
      · obtain rfl := mem_singleton.mp hl
        exact prefix_refl _
    · obtain ⟨j, hj⟩ := Trace.prefix_definitionsIn path 0 part l hl
      exact (prefix_of_append_singleton hj).1

end

section
variable {cx : Context} {slot : Nat} {name : String} {ty : Node} {declarations : List Node}
  {returnType : Ty} {parameters : List Var} {index : Nat} {s s1 s2 s3 : ReadState}

theorem definition?_header (hplace : s.Places slot name) (hs : s.Steady cx.globalDepth)
    (type : readType (s.env cx) ty = .ok returnType)
    (declares : Declares cx declarations parameters s.opened s1)
    (registers : Registers slot name returnType parameters index s1 s2) :
    s1.InStep ∧ s2.Rooted cx.globalDepth ∧ s2.InStep ∧ s1.Places slot name ∧ s2.Places slot name
      ∧ ∀ other types, s2.definition? other types = s.definition? other types := by
  obtain ⟨hr, hi⟩ := hs.of_ne_nil (scopes_ne_nil_of_readType type)
  have hopened : s.opened.InStep := ⟨hi.nodup, hi.agree⟩
  have e1 := (evolves_frame cx.globalDepth).declares declares hr.opened hopened
  have hfunctions : s1.functions = s.functions := (functions_declares declares).trans rfl
  have hplace1 : s1.Places slot name := by
    unfold ReadState.Places
    rw [hfunctions]
    exact hplace
  have e2 := evolves_registers hplace1 registers e1.rooted e1.inStep
  have hplace2 : s2.Places slot name :=
    hplace1.of_prefix (functionNames_registers registers ▸ prefix_refl _)
  refine ⟨e1.inStep, e2.rooted, e2.inStep, hplace1, hplace2, ?_⟩
  intro other types
  rw [registers.definition? e1.inStep hplace1, ReadState.definition?_of_functions hfunctions]

end

/-- **Reading completes overloads and leaves complete ones alone.** -/
theorem Records.completes (h : Records cx passage s s') (hplaced : passage.Placed s)
    (hs : s.Steady cx.globalDepth) (path : List Nat) (k : Nat) :
    Completes (passage.definitions path k) s s' := by
  induction h generalizing path k with
  | plain | declare | nil | noMore => exact .of_grows fun _ _ _ h => h
  | branch value first second ih1 ih2 =>
    exact (ih1 trivial hs _ 0).append (ih2 trivial (first.steady trivial hs) _ 0)
  | @loop cx s s' _ _ _ _ _ _ _ header inner ih =>
    have hloop : Completes [] s s.takeLoop := .of_grows fun _ _ _ h => h
    exact hloop.append (ih trivial (hs.of_symbols rfl rfl) path 0)
  | @function cx s s1 s' name slot first rest place inner ih =>
    obtain ⟨rfl, rfl⟩ := Prod.mk.inj place
    obtain ⟨entries, hentries⟩ := inner.reads
    have hopen := scopes_ne_nil_of_overloads hentries
    obtain ⟨hr, hi⟩ := hs.of_ne_nil hopen
    have e := (evolves_frame cx.globalDepth).slot s cx name rfl hopen hr hi
    have hmet : Completes [] s (s.slot cx name).2 :=
      .of_grows fun _ _ _ h => ReadState.definition?_slot cx name h
    exact hmet.append (ih (places_slot s cx name) (.inr ⟨e.rooted, e.inStep⟩) path 0)
  | cons first others ih1 ih2 =>
    exact (ih1 trivial hs _ 0).append (ih2 trivial (first.steady trivial hs) path (k + 1))
  | more first others ih1 ih2 =>
    exact (ih1 hplaced hs _ 0).append
      (ih2 (hplaced.of_prefix first.functionNames_prefix) (first.steady hplaced hs) path (k + 1))
  | prototype type declares registers =>
    obtain ⟨-, -, -, -, -, hsame⟩ := definition?_header hplaced hs type declares registers
    refine .of_grows fun other types body hbody => ?_
    rw [← hsame] at hbody
    exact hbody
  | @definition cx s s1 s2 s3 slot name ty declarations returnType parameters index part type
      declares registers nonempty undefined inner bound ih =>
    obtain ⟨hi1, hr2, hi2, hplace1, hplace2, hsame⟩ :=
      definition?_header hplaced hs type declares registers
    have hinner : Reads { cx with function := some name, enclosing := none } _ s2 s3 := inner.reads
    obtain ⟨e, hleads⟩ := hinner.leads trivial hr2 hi2
    have hplace3 : s3.Places slot name := hplace2.of_prefix hinner.functionNames_prefix
    have hi3 : s3.InStep := e.inStep
    -- the overload is the first with its types, before its body is read and afterwards
    have hfirst2 := registers.findIdx?_overloadsOf hi1 hplace1 (.of_eq fun _ => rfl) hi2 hplace2
    have hfirst3 := registers.findIdx?_overloadsOf hi1 hplace1 hleads hi3 hplace3
    have hnone : s2.definition? name (parameters.map (·.ty)) = none := by
      refine definitionIn_of_incomplete hfirst2 ?_
      rw [hplace2.overloadsOf hi2.nodup]
      exact undefined
    have hafter : ∀ other types,
        (s3.complete slot name index (Trace.instructions part)).closed.definition? other types
          = if other = name ∧ types = parameters.map (·.ty) then some (Trace.instructions part)
            else s3.definition? other types := by
      intro other types
      show (s3.complete slot name index (Trace.instructions part)).definition? other types = _
      unfold ReadState.definition? ReadState.complete
      rw [ReadState.overloadsOf_onFunction hplace3 hi3.nodup]
      by_cases hother : other = name
      · subst hother
        rw [if_pos rfl, definitionIn_complete hfirst3]
        simp
      · simp [hother]
    rw [Passage.definitions, definitionsAt_of_ne_nil nonempty]
    refine (ih trivial (.inr ⟨hr2, hi2⟩) path 0).enclose hsame hnone hafter ?_
    intro m hm
    obtain ⟨j, hj⟩ := Trace.prefix_definitionsIn path 0 part m hm
    exact prefix_of_append_singleton hj

/-! ## §5. The bodies of a module -/

theorem Records.findType? (h : Records cx passage s s') (hplaced : passage.Placed s) (name : String)
    :
    s'.symbols.findType? name = s.symbols.findType? name := by
  obtain ⟨reading, hreads, hplace⟩ := h.exists_reads
  exact findType?_congr (hreads.typeScopes (hplace hplaced)) name

/-- The types of a signature are those its node names. -/
theorem Records.types_node {t : SymbolTable} (h : Records cx passage s s')
    (hplaced : passage.Placed s) (htypes : ∀ name, t.findType? name = s.symbols.findType? name)
    (path : List Nat) (k : Nat) :
    ∀ l ∈ passage.definitions path k, l.signature.node.typesIn t = l.types.map some := by
  induction h generalizing path k with
  | plain | declare | nil | noMore | prototype => exact fun l hl => nomatch hl
  | branch value first second ih1 ih2 =>
    intro l hl
    rcases mem_append.mp hl with hl | hl
    · exact ih1 trivial htypes _ 0 l hl
    · exact ih2 trivial (fun name => (htypes name).trans (first.findType? trivial name).symm) _ 0 l hl
  | loop header inner ih => exact ih trivial htypes path 0
  | @function cx s s1 s' name slot first rest place inner ih =>
    obtain ⟨rfl, rfl⟩ := Prod.mk.inj place
    have hslot := fun other => (htypes other).trans (findType?_slot s cx name other).symm
    exact ih (places_slot s cx name) hslot path 0
  | cons first others ih1 ih2 =>
    intro l hl
    rcases mem_append.mp hl with hl | hl
    · exact ih1 trivial htypes _ 0 l hl
    · exact ih2 trivial (fun name => (htypes name).trans (first.findType? trivial name).symm) path
        (k + 1) l hl
  | more first others ih1 ih2 =>
    intro l hl
    rcases mem_append.mp hl with hl | hl
    · exact ih1 hplaced htypes _ 0 l hl
    · exact ih2 (hplaced.of_prefix first.functionNames_prefix)
        (fun name => (htypes name).trans (first.findType? hplaced name).symm) path (k + 1) l hl
  | @definition cx s s1 s2 s3 slot name ty declarations returnType parameters index part type
      declares registers nonempty undefined inner bound ih =>
    have hopened : s.opened.Places slot name := hplaced
    have hheader := ((typeScopes_frame cx.globalDepth).header hopened declares registers).1
    intro l hl
    rcases mem_append.mp hl with hl | hl
    · split at hl
      · cases hl
      · rw [mem_singleton.mp hl]
        show (declarations.map Node.declaredType).map _ = (parameters.map (·.ty)).map some
        rw [map_map, map_map]
        exact types_of_declares_in declares htypes
    · exact ih trivial (fun other => (htypes other).trans (findType?_congr hheader other).symm) path 0
        l hl

/-- A trace starts where everything known is in step. -/
theorem Traced.start {scan : Bool} {u : CompilationUnit} {nodes : List Node} {ts : List Trace}
    {g : ReadState} (h : Traced scan u nodes ts g) :
    ∃ s, Records ⟨none, none, u.symbols.depth⟩ (.block ts) s g ∧ s.Steady u.symbols.depth
      ∧ s.Bodiless ∧ s.symbols.typeScopes = u.symbols.typeScopes
      ∧ s.symbols.varScopes = u.symbols.varScopes := by
  obtain ⟨s1, hscan, hrecords⟩ := h.pass
  refine ⟨_, hrecords, ?_⟩
  split at hscan
  · obtain ⟨fs, hfs⟩ := yields_scanPrototypes.mp hscan
    have hstart : (u.start.noted (.scanning nodes.length)).Steady u.symbols.depth :=
      (steady_start u).of_symbols rfl rfl
    obtain ⟨hs, hbodies, htypes, hvars⟩ := hfs.bodiless hstart fun f hf => nomatch hf
    exact ⟨hs.of_symbols rfl rfl, hbodies, htypes, hvars⟩
  · subst hscan
    exact ⟨(steady_start u).of_symbols rfl rfl, (fun f hf => nomatch hf), rfl, rfl⟩

section
variable {scan : Bool} {u : CompilationUnit} {nodes : List Node} {ts : List Trace} {g : ReadState}

theorem Traced.definitions_node (h : Traced scan u nodes ts g) :
    (Trace.definitionsIn [] 0 ts).map (·.map SignatureTrace.node) = Node.definitionsIn [] 0 nodes := by
  obtain ⟨s, hrecords, -⟩ := h.start
  have hnode := hrecords.definitions_node [] 0
  rw [Passage.nodeDefinitions, h.nodes_eq] at hnode
  exact hnode

theorem Traced.types_node (h : Traced scan u nodes ts g) :
    ∀ l ∈ Trace.definitionsIn [] 0 ts, l.signature.node.typesIn u.symbols = l.types.map some := by
  obtain ⟨s, hrecords, -, -, htypes, -⟩ := h.start
  exact hrecords.types_node trivial (findType?_congr htypes.symm) [] 0

theorem Traced.completes (h : Traced scan u nodes ts g) :
    ∃ s, Completes (Trace.definitionsIn [] 0 ts) s g := by
  obtain ⟨s, hrecords, hs, -⟩ := h.start
  exact ⟨s, hrecords.completes trivial hs [] 0⟩

/-- Of two definitions of an overload one stands inside of the other. -/
theorem Traced.nested (h : Traced scan u nodes ts g) {l m : Located Node}
    (hl : l ∈ Node.definitionsIn [] 0 nodes) (hm : m ∈ Node.definitionsIn [] 0 nodes)
    (hname : l.function = m.function)
    (htypes : l.signature.typesIn u.symbols = m.signature.typesIn u.symbols) :
    l.address <+: m.address ∨ m.address <+: l.address := by
  obtain ⟨s, hcompletes⟩ := h.completes
  rw [← h.definitions_node, mem_map] at hl hm
  obtain ⟨l, hl, rfl⟩ := hl
  obtain ⟨m, hm, rfl⟩ := hm
  have htypes : l.types.map some = m.types.map some :=
    (h.types_node l hl).symm.trans (htypes.trans (h.types_node m hm))
  have hrivals : l.Rivals m := ⟨hname, map_injective_iff.mpr (fun _ _ => Option.some.inj) htypes⟩
  exact hcompletes.nested l hl m hm hrivals

end

/-- **A body stays unless it is inside of another one for the same overload.**  The signatures with a
    body were read as they stand in the document.  Each that is not inside of another one for its
    overload has its body in the module, under the name of its function and the types of its
    parameters.  A document is refused that has two for one overload, neither inside of the other. -/
theorem readModule_keeps_bodies (scan : Bool) (u : CompilationUnit) (text : String)
    (nodes : List Node) (hnodes : readExpressions text = .ok nodes) :
    (∀ ir, (readModule scan u text).outcome = .ok ir →
      ∃ ts g, Traced scan u (Read.documentNodes nodes) ts g
        ∧ (Trace.definitionsIn [] 0 ts).map (·.map SignatureTrace.node)
          = Node.definitionsIn [] 0 (Read.documentNodes nodes)
        ∧ ∀ l ∈ Trace.definitionsIn [] 0 ts,
          l.signature.node.typesIn u.symbols = l.types.map some
            ∧ ∃ sigs, (∀ others, Instruction.function l.function others ∈ ir ↔ others = sigs)
              ∧ (l.Outermost (Trace.definitionsIn [] 0 ts) →
                definitionIn sigs l.types = some l.body))
    ∧ ∀ l ∈ Node.definitionsIn [] 0 (Read.documentNodes nodes),
      ∀ m ∈ Node.definitionsIn [] 0 (Read.documentNodes nodes), l.function = m.function →
      l.signature.typesIn u.symbols = m.signature.typesIn u.symbols →
      ¬ l.address <+: m.address → ¬ m.address <+: l.address →
      ∀ ir, (readModule scan u text).outcome ≠ .ok ir := by
  refine ⟨?_, ?_⟩
  · intro ir hread
    obtain ⟨ts, g, htraced, rfl, hnamed⟩ := exists_traced hnodes hread
    obtain ⟨s, hcompletes⟩ := htraced.completes
    refine ⟨ts, g, htraced, htraced.definitions_node, ?_⟩
    intro l hl
    refine ⟨htraced.types_node l hl, g.overloadsOf l.function, ?_, hcompletes.kept l hl⟩
    intro others
    obtain ⟨body, hbody⟩ := Option.isSome_iff_exists.mp (hcompletes.done l hl)
    have hmem : l.function ∈ Node.namesIn (Read.documentNodes nodes) :=
      (hnamed _).mp (ReadState.mem_functionNames_of_definition? hbody)
    rw [mem_module_iff fun t ht => (htraced.item ht).2, htraced.nodes_eq]
    exact ⟨fun h => h.2, fun h => ⟨hmem, h⟩⟩
  · intro l hl m hm hname htypes hlm hml ir hread
    obtain ⟨ts, g, htraced, -⟩ := exists_traced hnodes hread
    rcases htraced.nested hl hm hname htypes with h | h
    · exact hlm h
    · exact hml h

/-- The overloads that a document defines, each with its address. -/
def definedOverloads (t : SymbolTable) (nodes : List Node) :
    List (List Nat × String × List (Option Ty)) :=
  (Node.definitionsIn [] 0 nodes).map fun l => (l.address, l.function, l.signature.typesIn t)

/-- A function that is defined once more inside of its own body. -/
def redefinedInside : String :=
  "(function f(signature int(parameters)(" ++
  "(function f(signature int(parameters)((return(constant int(1))))))" ++
  "(return(constant int(2))))))"

/-- A function that is defined once more behind its body. -/
def redefinedBehind : String :=
  "(function f(signature int(parameters(declare()int x))((return(constant int(1))))))" ++
  "(if(constant bool(1))((function f(signature int(parameters(declare()int y))((return)))))())"

theorem definedOverloads_redefinedInside :
    ∃ nodes, readExpressions redefinedInside = .ok nodes
      ∧ definedOverloads CompilationUnit.fresh.symbols (Read.documentNodes nodes)
        = [([0, 0], "f", []), ([0, 0, 0, 0], "f", [])] :=
  exists_ok_of_decide (by decide +kernel)

theorem outcome_redefinedInside :
    ∃ ir, (readModule true .fresh redefinedInside).outcome = .ok ir
      ∧ printModule ir = "(function f\n    (signature int\n        (parameters)\n        (\n" ++
        "            (return (constant int (2)))\n        ))\n)\n" :=
  exists_ok_of_decide (by decide +kernel)

/-- The body of the outer definition stays, and the definition behind another one is refused. -/
theorem readModule_keeps_bodies_redefined :
    (∃ ir ts g, (readModule true .fresh redefinedInside).outcome = .ok ir
      ∧ (∃ nodes, Traced true .fresh (Read.documentNodes nodes) ts g)
      ∧ ∃ l ∈ Trace.definitionsIn [] 0 ts, l.address = [0, 0]
        ∧ ∃ sigs, Instruction.function "f" sigs ∈ ir ∧ definitionIn sigs [] = some l.body)
    ∧ ∀ ir, (readModule true .fresh redefinedBehind).outcome ≠ .ok ir := by
  constructor
  · obtain ⟨nodes, hnodes, hdefined⟩ := definedOverloads_redefinedInside
    obtain ⟨ir, hread, -⟩ := outcome_redefinedInside
    obtain ⟨ts, g, htraced, hdefinitions, hkept⟩ :=
      (readModule_keeps_bodies true .fresh redefinedInside nodes hnodes).1 ir hread
    rw [definedOverloads, ← hdefinitions, map_map] at hdefined
    obtain ⟨l, rest, hds, hl, -⟩ := map_eq_cons_iff.mp hdefined
    have hmem : l ∈ Trace.definitionsIn [] 0 ts := hds ▸ mem_cons_self
    obtain ⟨haddress, hoverload⟩ := Prod.mk.inj hl
    obtain ⟨hname, htypes⟩ := Prod.mk.inj hoverload
    have haddress : l.address = [0, 0] := haddress
    have hname : l.function = "f" := hname
    have houter : l.Outermost (Trace.definitionsIn [] 0 ts) := by
      intro m hm _ hfront
      have haddresses : (Trace.definitionsIn [] 0 ts).map (·.address) = [[0, 0], [0, 0, 0, 0]] := by
        have h := congrArg (List.map Prod.fst) hdefined
        rw [map_map] at h
        exact h
      have hm := mem_map_of_mem (f := (·.address)) hm
      rw [haddresses, mem_cons, mem_singleton] at hm
      rw [haddress] at hfront ⊢
      refine hm.resolve_right fun hlong => ?_
      rw [hlong] at hfront
      exact absurd hfront (by decide)
    obtain ⟨hnode, sigs, hsigs, hbody⟩ := hkept l hmem
    have htypes : l.types = [] := map_eq_nil_iff.mp (hnode.symm.trans htypes)
    refine ⟨ir, ts, g, hread, ⟨nodes, htraced⟩, l, hmem, haddress, sigs, ?_, ?_⟩
    · rw [← hname]
      exact (hsigs sigs).mpr rfl
    · rw [← htypes]
      exact hbody houter
  · obtain ⟨nodes, hnodes, hdefined⟩ : ∃ nodes, readExpressions redefinedBehind = .ok nodes
        ∧ definedOverloads CompilationUnit.fresh.symbols (Read.documentNodes nodes)
          = [([0, 0], "f", [some (.scalar .int)]), ([1, 0, 0, 0], "f", [some (.scalar .int)])] :=
      exists_ok_of_decide (by decide +kernel)
    obtain ⟨l, rest, hds, hl, hrest⟩ := map_eq_cons_iff.mp hdefined
    obtain ⟨m, rest, rfl, hm, -⟩ := map_eq_cons_iff.mp hrest
    obtain ⟨hladdress, hloverload⟩ := Prod.mk.inj hl
    obtain ⟨hmaddress, hmoverload⟩ := Prod.mk.inj hm
    obtain ⟨hlname, hltypes⟩ := Prod.mk.inj hloverload
    obtain ⟨hmname, hmtypes⟩ := Prod.mk.inj hmoverload
    refine (readModule_keeps_bodies true .fresh redefinedBehind nodes hnodes).2 l (by simp [hds]) m
      (by simp [hds]) (hlname.trans hmname.symm) (hltypes.trans hmtypes.symm) ?_ ?_
    · rw [hladdress, hmaddress]
      decide
    · rw [hladdress, hmaddress]
      decide

/-- **A body is overwritten by the one that it is inside of.**  Both definitions are for one overload,
    and only the outer one is in the module. -/
theorem redefinedInside_is_read :
    ∃ nodes ir, readExpressions redefinedInside = .ok nodes
      ∧ definedOverloads CompilationUnit.fresh.symbols (Read.documentNodes nodes)
        = [([0, 0], "f", []), ([0, 0, 0, 0], "f", [])]
      ∧ (readModule true .fresh redefinedInside).outcome = .ok ir
      ∧ printModule ir = "(function f\n    (signature int\n        (parameters)\n        (\n" ++
        "            (return (constant int (2)))\n        ))\n)\n" := by
  obtain ⟨nodes, hnodes, hdefined⟩ := definedOverloads_redefinedInside
  obtain ⟨ir, hread, htext⟩ := outcome_redefinedInside
  exact ⟨nodes, ir, hnodes, hdefined, hread, htext⟩

end Shading
