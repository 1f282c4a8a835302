/-
  Shading.Proofs.Read.WellScoped — modules whose order respects scopes.

  A module is listed in the order of its text, so what stands outside of functions uses only what was
  declared outside of functions before it.  The bodies of a function that is `Settled` use their own
  parameters, what they declare themselves, and what was declared outside of functions before it.
-/
import Shading.Proofs.Read.Settled

namespace Shading

open List

/-! ## §1. Well-scoped modules -/

/-- The variables that an instruction declares outside of functions. -/
def Instruction.outerDeclared : Instruction → List Var
  | .function _ _ => []
  | i => declaredIn (i.walk 0)

/-- The instruction uses known variables and those that it has declared; a body of a function also
    uses its own parameters.  Functions that are not in question may use anything. -/
def Instruction.UsesKnown (asked : String → Prop) (known : List Var) : Instruction → Prop
  | .function name signatures => asked name → ∀ sig ∈ signatures,
    Scoped (known ++ sig.parameters) (Instruction.walkAll 0 sig.body)
  | i => Scoped known (i.walk 0)

/-- Each instruction uses what is known and what those before it have declared outside of functions.
    -/
def WellScoped (asked : String → Prop) (known : List Var) : List Instruction → Prop
  | [] => True
  | i :: rest => i.UsesKnown asked known ∧ WellScoped asked (known ++ i.outerDeclared) rest

instance Instruction.UsesKnown.decidable (asked : String → Prop) [DecidablePred asked]
    (known : List Var) : ∀ i : Instruction, Decidable (i.UsesKnown asked known)
  | .function name signatures => inferInstanceAs (Decidable (asked name → ∀ sig ∈ signatures, _))
  | .declare _ | .assign _ | .ret _ | .branch _ _ _ | .loop _ _ _ | .jump _ _ | .rvalue _ =>
    inferInstanceAs (Decidable (Scoped known _))

instance WellScoped.decidable (asked : String → Prop) [DecidablePred asked] :
    ∀ (known : List Var) (ir : List Instruction), Decidable (WellScoped asked known ir)
  | _, [] => isTrue trivial
  | known, i :: rest =>
    have := WellScoped.decidable asked (known ++ i.outerDeclared) rest
    inferInstanceAs (Decidable (_ ∧ _))

variable {known : List Var}

theorem wellScoped_append {asked : String → Prop} {is js : List Instruction} :
    WellScoped asked known (is ++ js)
      ↔ WellScoped asked known is ∧ WellScoped asked (known ++ is.flatMap (·.outerDeclared)) js := by
  induction is generalizing known with
  | nil =>
    show WellScoped asked known js ↔ True ∧ WellScoped asked (known ++ []) js
    rw [true_and, List.append_nil]
  | cons i is ih =>
    show _ ∧ WellScoped asked _ (is ++ js) ↔ (_ ∧ WellScoped asked _ is) ∧ _
    rw [ih, flatMap_cons, append_assoc, and_assoc]

/-- Scoping, instruction by instruction. -/
theorem wellScoped_iff {asked : String → Prop} {ir : List Instruction} :
    WellScoped asked known ir
      ↔ ∀ before i after, ir = before ++ i :: after →
        i.UsesKnown asked (known ++ before.flatMap (·.outerDeclared)) := by
  constructor
  · intro h before i after hir
    rw [hir] at h
    exact (wellScoped_append.mp h).2.1
  · intro h
    induction ir generalizing known with
    | nil => trivial
    | cons i rest ih =>
      refine ⟨?_, ih ?_⟩
      · have hfirst := h [] i rest rfl
        rw [flatMap_nil, List.append_nil] at hfirst
        exact hfirst
      · intro before j after hrest
        have hlater := h (i :: before) j after (by rw [hrest]; rfl)
        rw [flatMap_cons, ← append_assoc] at hlater
        exact hlater

/-! ## §2. Items -/

/-- The variables that an item declares outside of functions. -/
def Item.declared : Item → List Var
  | .instruction i => i.outerDeclared
  | .function _ => []

theorem outerDeclared_resolve (fs : List Function) (items : List Item) :
    (items.filterMap (Read.resolve fs)).flatMap (·.outerDeclared) = items.flatMap (·.declared) := by
  induction items with
  | nil => rfl
  | cons item rest ih =>
    cases item with
    | instruction i => exact congrArg (i.outerDeclared ++ ·) ih
    | function slot =>
      have hresolve : Read.resolve fs (.function slot) = fs[slot]?.map (·.toInstruction) := rfl
      rw [filterMap_cons, hresolve]
      cases fs[slot]? with
      | none | some => exact ih

variable {cx : Context} {s s' : ReadState}

theorem Reads.usesKnown {node : Node} {i : Instruction}
    (h : Reads cx (.instruction node (some i)) s s') (hknown : ∀ v ∈ s.symbols.visible, v ∈ known)
    (asked : String → Prop) : i.UsesKnown asked known := by
  have hscoped : Scoped known (Instruction.walkAll 0 [i]) := h.isScoped hknown 0
  rw [walkAll_singleton] at hscoped
  cases h <;> exact hscoped

theorem Reads.outerDeclared {node : Node} {i : Instruction}
    (h : Reads cx (.instruction node (some i)) s s') :
    i.outerDeclared = (Reading.instruction node (some i)).declared 0 := by
  show _ = declaredIn (Instruction.walkAll 0 [i])
  rw [walkAll_singleton]
  cases h <;> rfl

theorem ReadsTop.declared_eq {node : Node} {i : Option Instruction} {top : Option Nat}
    (h : ReadsTop cx node i top s s') :
    (i.toList.map Item.instruction).flatMap (·.declared)
      = declaredIn (Instruction.walkAll 0 i.toList) := by
  cases h with
  | instruction reads => exact (List.append_nil _).trans reads.outerDeclared
  | function reads => rfl

theorem exists_prefix_of_append_eq {α : Type} {as bs front back : List α} {x : α}
    (h : as ++ x :: bs = front ++ back) (hx : x ∉ front) :
    ∃ middle, as = front ++ middle ∧ back = middle ++ x :: bs := by
  rcases append_eq_append_iff.mp h with ⟨middle, rfl, hback⟩ | ⟨middle, rfl, hback⟩
  · cases middle with
    | nil => exact ⟨[], by simp, hback.symm⟩
    | cons y rest =>
      obtain ⟨rfl, -⟩ := cons.inj hback
      exact absurd (mem_append_right _ mem_cons_self) hx
  · exact ⟨middle, rfl, hback⟩

theorem instruction_not_mem_functions (slots : List Nat) (i : Instruction) :
    Item.instruction i ∉ slots.map Item.function := by
  simp

variable {name : String} {slot : Nat}

theorem Reads.places_function {scan : Bool} {parts : List Node} {entries : List Entry}
    (h : Reads cx (.function scan (.symbol name :: parts) slot entries) s s') :
    s'.Places slot name := by
  cases h with
  | @overloads _ _ s1 _ _ _ first rest _ _ place inner =>
    have hplace := places_slot s cx name
    rw [place] at hplace
    exact ReadState.Places.of_prefix hplace inner.functionNames_prefix

theorem ReadState.Places.lt_length (h : s.Places slot name) : slot < s.functions.length := by
  obtain ⟨f, hf, -⟩ := h.exists_function
  exact (List.getElem?_eq_some_iff.mp hf).1

variable {t : SymbolTable}

namespace Lists

variable {cx : Context} {placed : List Nat} {seen : Nat} {nodes : List Node} {items : List Item}
  {s s' : ReadState}

theorem flatMap_declared_functions (slots : List Nat) :
    (slots.map Item.function).flatMap (·.declared) = [] := by
  simp [Item.declared]

/-- What the items declare is what the block declares that was read. -/
theorem declared_eq (h : Lists cx placed seen nodes items s s') :
    items.flatMap (·.declared)
      = declaredIn (Instruction.walkAll 0 (items.filterMap Item.instruction?)) := by
  induction h with
  | nil => rfl
  | cons first met others ih =>
    rw [Item.filterMap_instruction?, walkAll_append, declaredIn_append, ← ih, ← first.declared_eq,
      flatMap_append, flatMap_append, flatMap_declared_functions, List.append_nil]

/-- Variables in sight were known or declared by the items. -/
theorem visible_known (h : Lists cx placed seen nodes items s s')
    (hknown : ∀ v ∈ s.symbols.visible, v ∈ known) :
    ∀ v ∈ s'.symbols.visible, v ∈ known ++ items.flatMap (·.declared) := by
  rw [h.declared_eq]
  exact (h.reads.binds 0).visible_known hknown

/-- **What stands outside of functions uses what was declared there before it.** -/
theorem usesKnown (h : Lists cx placed seen nodes items s s')
    (hknown : ∀ v ∈ s.symbols.visible, v ∈ known) (asked : String → Prop) :
    ∀ front i back, items = front ++ .instruction i :: back →
      i.UsesKnown asked (known ++ front.flatMap (·.declared)) := by
  induction h generalizing known with
  | nil =>
    intro front i back hitems
    cases front <;> cases hitems
  | @cons placed fresh seen node rest j top items s s1 s' first met others ih =>
    intro front i back hitems
    have hknown1 := (first.reads.binds 0).visible_known hknown
    cases first with
    | instruction reads =>
      cases front with
      | nil =>
        cases hitems
        rw [flatMap_nil, List.append_nil]
        exact reads.usesKnown hknown asked
      | cons item front =>
        obtain ⟨rfl, hrest⟩ := cons.inj hitems
        have hrest : fresh.map Item.function ++ items = front ++ .instruction i :: back := hrest
        obtain ⟨front, rfl, hlater⟩ :=
          exists_prefix_of_append_eq hrest.symm (instruction_not_mem_functions fresh i)
        rw [← reads.outerDeclared] at hknown1
        rw [flatMap_cons, flatMap_append, flatMap_declared_functions, nil_append, ← append_assoc]
        exact ih hknown1 front i back hlater
    | function reads =>
      have hitems : fresh.map Item.function ++ items = front ++ .instruction i :: back := hitems
      obtain ⟨front, rfl, hlater⟩ :=
        exists_prefix_of_append_eq hitems.symm (instruction_not_mem_functions fresh i)
      have hknown1 : ∀ v ∈ s1.symbols.visible, v ∈ known ++ [] := hknown1
      rw [List.append_nil] at hknown1
      rw [flatMap_append, flatMap_declared_functions, nil_append]
      exact ih hknown1 front i back hlater

/-- **The function has no place among nodes that do not mention it.** -/
theorem untouched (h : Lists cx placed seen nodes items s s') (hseen : seen = s.functions.length)
    (hname : ∀ node ∈ nodes, name ∉ node.functionNames) :
    ReadState.Untouched name s s'
      ∧ ∀ slot, Item.function slot ∈ items → ∃ other, other ≠ name ∧ s'.Places slot other := by
  -- a function that is first met in a node was not there before it
  have hmet : ∀ {s s1 : ReadState} {slot : Nat}, ReadState.Untouched name s s1 →
      s.functions.length ≤ slot → slot < s1.functions.length →
      ∃ other, other ≠ name ∧ s1.Places slot other := by
    intro s s1 slot huntouched hle hlt
    refine ⟨(s1.functions.get ⟨slot, hlt⟩).name, ?_, ?_⟩
    · intro heq
      have hplace : s1.Places slot name := by
        unfold ReadState.Places
        rw [getElem?_eq_getElem hlt]
        exact congrArg some heq
      exact absurd (huntouched.places.mp hplace).lt_length (Nat.not_lt.mpr hle)
    · unfold ReadState.Places
      rw [getElem?_eq_getElem hlt]
      rfl
  induction h with
  | nil => exact ⟨.of_eq rfl, fun slot hslot => by cases hslot⟩
  | @cons placed fresh seen node rest j top items s s1 s' first met others ih =>
    have hfirst : ReadState.Untouched name s s1 :=
      first.reads.untouched trivial (hname node mem_cons_self)
    obtain ⟨hrest, hitems⟩ := ih rfl fun n hn => hname n (mem_cons_of_mem _ hn)
    refine ⟨hfirst.trans hrest, fun slot hslot => ?_⟩
    rcases Item.function_mem.mp hslot with hmem | hslot
    · rw [met] at hmem
      rcases mem_unplaced hmem with htop | ⟨hle, hlt⟩
      · cases first with
        | instruction reads => cases htop
        | @function other signatures _ entries _ _ reads =>
          cases htop
          have hne : other ≠ name := fun heq =>
            hname _ mem_cons_self (by simp [Node.functionNames, heq])
          exact ⟨other, hne, reads.places_function.of_prefix others.reads.functionNames_prefix⟩
      · obtain ⟨x, hx, hplace⟩ := hmet hfirst (hseen ▸ hle) hlt
        exact ⟨x, hx, hplace.of_prefix others.reads.functionNames_prefix⟩
    · exact hitems slot hslot

theorem keeps (h : Lists cx placed seen nodes items s s') {done : List Node}
    (hs : s.Steady cx.globalDepth) (htypes : s.symbols.typeScopes = t.typeScopes)
    (hnested : ∀ node ∈ Node.outerIn nodes, name ∉ Node.namesInBodies node.signatureNodes)
    (hpair : (done ++ (Node.outerIn nodes).flatMap (·.signaturesFor name)).Pairwise (Node.Spares t))
    (hknown : ∀ v ∈ s.symbols.visible, v ∈ known) (hk : s.Keeps t name done known) :
    s'.Keeps t name (done ++ (Node.outerIn nodes).flatMap (·.signaturesFor name))
      (known ++ items.flatMap (·.declared)) := by
  rw [h.declared_eq]
  exact h.reads.keeps trivial hs htypes hnested hpair hknown hk 0

theorem declared_eq_nil (h : Lists cx placed seen nodes items s s')
    (hnone : ∀ node ∈ Node.outerIn nodes, node.isDeclaration = false) :
    items.flatMap (·.declared) = [] := by
  rw [h.declared_eq]
  exact h.reads.declared_eq_nil hnone 0

end Lists

/-! ## §3. Modules -/

/-- The overloads have no bodies yet. -/
def ReadState.Bodiless (s : ReadState) : Prop := s.Overloads fun _ sig => sig.body = []

variable {nodes : List Node}

theorem Reads.bodiless {entries : List Entry}
    (h : Reads cx (.signatures true slot name nodes entries) s s') (hs : s.Bodiless) :
    s'.Bodiless := by
  induction nodes generalizing entries s with
  | nil =>
    cases h
    exact hs
  | cons node rest ih =>
    cases h with
    | @more _ _ s1 _ _ _ _ _ _ _ _ first others =>
      refine ih others ?_
      cases first with
      | @prototype _ _ s2 s3 _ _ _ _ _ _ _ _ _ type declares registers silent =>
        have hs2 : s2.Bodiless := by
          unfold ReadState.Bodiless ReadState.Overloads
          rw [functions_declares declares]
          exact hs
        have hs3 : s3.Bodiless :=
          ReadState.Overloads.registers hs2 registers (fun _ _ hsig => hsig) fun _ => rfl
        exact hs3

/-- The scan completes no bodies. -/
theorem Scans.bodiless {fs : List Function} (h : Scans cx nodes fs s s')
    (hs : s.Steady cx.globalDepth) (hbodies : s.Bodiless) :
    s'.Steady cx.globalDepth ∧ s'.Bodiless ∧ s'.symbols.typeScopes = s.symbols.typeScopes
      ∧ s'.symbols.varScopes = s.symbols.varScopes := by
  induction h with
  | nil s => exact ⟨hs, hbodies, rfl, rfl⟩
  | skip other others ih => exact ih hs hbodies
  | @function name signatures rest slot entries fs s s1 s' first others ih =>
    have hbodies1 : s1.Bodiless := by
      cases first with
      | @overloads _ _ s0 _ _ _ _ _ _ _ place inner =>
        obtain ⟨rfl, rfl⟩ := Prod.mk.inj place
        exact inner.bodiless (ReadState.Overloads.slot hbodies cx name fun _ hbody => hbody)
    obtain ⟨hs', hbodies', htypes, hvars⟩ := ih (first.steady trivial hs).1 hbodies1
    refine ⟨hs', hbodies', htypes.trans (first.typeScopes trivial), hvars.trans ?_⟩
    have hbinds : s1.symbols.varScopes = s.symbols.varScopes.modifyHead (·.bindAll []) :=
      first.binds 0
    rw [hbinds]
    cases s.symbols.varScopes <;> rfl

theorem Node.outerIn_append (xs ys : List Node) :
    Node.outerIn (xs ++ ys) = Node.outerIn xs ++ Node.outerIn ys := by
  induction xs with
  | nil => rfl
  | cons x xs ih => rw [cons_append, Node.outerIn, Node.outerIn, ih, append_assoc]

theorem Lists.keeps_between {placed : List Nat} {between after : List Node} {items : List Item}
    {done : List Node} (h : Lists cx placed s.functions.length (between ++ after) items s s')
    (hs : s.Steady cx.globalDepth) (htypes : s.symbols.typeScopes = t.typeScopes)
    (hnested : ∀ node ∈ Node.outerIn between, name ∉ Node.namesInBodies node.signatureNodes)
    (hpair : (done ++ (Node.outerIn between).flatMap (·.signaturesFor name)).Pairwise
      (Node.Spares t)) (hbetween : ∀ node ∈ Node.outerIn between, node.isDeclaration = false)
    (hafter : ∀ node ∈ after, name ∉ node.functionNames)
    (hknown : ∀ v ∈ s.symbols.visible, v ∈ known) (hk : s.Keeps t name done known) :
    s'.Keeps t name (done ++ (Node.outerIn between).flatMap (·.signaturesFor name)) known := by
  obtain ⟨placed1, front, back, s1, rfl, hfront, hback⟩ := h.exists_split rfl
  have hk1 := hfront.keeps hs htypes hnested hpair hknown hk
  rw [hfront.declared_eq_nil hbetween, List.append_nil] at hk1
  exact (hback.untouched rfl hafter).1.overloads hk1

/-- **A settled function comes behind all that its bodies use.** -/
theorem Lists.settled {items : List Item} (h : Lists cx [] s.functions.length nodes items s s')
    (hs : s.Steady cx.globalDepth) (htypes : s.symbols.typeScopes = t.typeScopes)
    (hbodies : s.Bodiless) (hknown : ∀ v ∈ s.symbols.visible, v ∈ known)
    (hsettled : Settled t nodes name) :
    ∃ front back, items = front ++ back
      ∧ (∀ slot, Item.function slot ∈ front → ¬ s'.Places slot name)
      ∧ ∃ done, s'.Keeps t name done (known ++ front.flatMap (·.declared)) := by
  obtain ⟨hnested, hpair, before, first, between, after, rfl, hbefore, hbetween, hafter⟩ := hsettled
  simp only [Node.outerIn_append, Node.outerIn, forall_mem_append] at hnested
  obtain ⟨-, hnestedFirst, hnestedBetween, -⟩ := hnested
  simp only [Node.outerIn_append, Node.outerIn, flatMap_append] at hpair
  have hpair' := (pairwise_append.mp hpair).2.1
  rw [← append_assoc] at hpair'
  have hpair'' := (pairwise_append.mp hpair').1
  obtain ⟨placed1, front, back, s1, rfl, hfront, hback⟩ := h.exists_split rfl
  -- before the first node that mentions it, the function has no body and no place
  obtain ⟨huntouched, hplaces⟩ := hfront.untouched rfl hbefore
  have hk : s.Keeps t name [] known := hbodies.mono fun _ _ hbody _ => .of_nil hbody
  have hk1 : s1.Keeps t name [] (known ++ front.flatMap (·.declared)) :=
    ReadState.Keeps.mono (huntouched.overloads hk) (fun n hn => hn)
      fun v hv => mem_append_left _ hv
  obtain ⟨hs1, -⟩ := hfront.reads.steady trivial hs
  have htypes1 := (hfront.reads.typeScopes trivial).trans htypes
  have hknown1 := hfront.visible_known hknown
  have hoff : ∀ slot, Item.function slot ∈ front → ¬ s'.Places slot name := by
    intro slot hslot hplace
    obtain ⟨other, hne, hother⟩ := hplaces slot hslot
    have hother' := hother.of_prefix hback.reads.functionNames_prefix
    unfold ReadState.Places at hother' hplace
    exact hne (Option.some.inj (hother'.symm.trans hplace))
  cases hback with
  | @cons _ fresh _ _ _ i _ items _ s2 _ hread met hrest =>
    refine ⟨front ++ i.toList.map .instruction, fresh.map .function ++ items, by simp, ?_, ?_⟩
    · intro slot hslot
      exact hoff slot (by simpa using hslot)
    · have hk2 := hread.reads.keeps trivial hs1 htypes1 hnestedFirst (pairwise_append.mp hpair'').1
        hknown1 hk1 0
      have hknown2 := (hread.reads.binds 0).visible_known hknown1
      rw [flatMap_append, hread.declared_eq, ← append_assoc]
      exact ⟨_, hrest.keeps_between (hread.reads.steady trivial hs1).1
        ((hread.reads.typeScopes trivial).trans htypes1) hnestedBetween hpair'' hbetween hafter
        hknown2 hk2⟩

theorem SymbolTable.visible_eq_nil (h : ∀ name, t.findVariable? name = Option.none) :
    t.visible = [] := by
  unfold visible
  rw [flatMap_eq_nil_iff]
  intro b hb
  cases b with
  | nil => rfl
  | cons entry rest =>
    have hnone := h entry.1
    rw [findVariable?_eq, findSome?_eq_none_iff] at hnone
    have hfound := hnone _ hb
    rw [Bindings.find?, lookup_cons_self] at hfound
    cases hfound

/-- **A document is well scoped**, except for what is asked about. -/
theorem wellScoped_of_readDocument {scan : Bool} {ir : List Instruction}
    (h : ReadM.Yields (Read.readDocument scan nodes) s ir s') (hs : s.Steady s.symbols.depth)
    (hbodies : s.Bodiless) (hvisible : s.symbols.visible = []) :
    WellScoped (Settled s.symbols nodes) [] ir := by
  obtain ⟨s1, items, s2, hscan, hitems, rfl, rfl⟩ := yields_readDocument.mp h
  obtain ⟨hs1, hbodies1, htypes1, hvars1⟩ : s1.Steady s.symbols.depth ∧ s1.Bodiless
      ∧ s1.symbols.typeScopes = s.symbols.typeScopes
      ∧ s1.symbols.varScopes = s.symbols.varScopes := by
    cases scan with
    | false =>
      obtain rfl : s1 = s := hscan
      exact ⟨hs, hbodies, rfl, rfl⟩
    | true =>
      obtain ⟨fs, hfs⟩ := yields_scanPrototypes.mp hscan
      exact hfs.bodiless (hs.of_symbols rfl rfl) hbodies
  have hlists : Lists ⟨none, none, s.symbols.depth⟩ []
      (s1.noted (.reading nodes.length)).functions.length nodes items
      (s1.noted (.reading nodes.length)) s2 := yields_readItems.mp hitems
  have hs2 : (s1.noted (.reading nodes.length)).Steady s.symbols.depth := hs1.of_symbols rfl rfl
  have hknown : ∀ v ∈ (s1.noted (.reading nodes.length)).symbols.visible, v ∈ ([] : List Var) := by
    show ∀ v ∈ s1.symbols.varScopes.flatMap (·.map (·.2)), v ∈ ([] : List Var)
    rw [hvars1]
    show ∀ v ∈ s.symbols.visible, v ∈ ([] : List Var)
    rw [hvisible]
    exact fun v hv => hv
  rw [wellScoped_iff]
  intro before i after hir
  obtain ⟨front, rest, rfl, rfl, hrest⟩ := filterMap_eq_append_iff.mp hir
  obtain ⟨skipped, item, back, rfl, hskipped, hitem, -⟩ := filterMap_eq_cons_iff.mp hrest
  -- what is skipped declares nothing
  have hbefore : front.filterMap (Read.resolve s2.functions)
      = (front ++ skipped).filterMap (Read.resolve s2.functions) := by
    rw [filterMap_append, filterMap_eq_nil_iff.mpr hskipped, List.append_nil]
  rw [hbefore, outerDeclared_resolve]
  rw [← append_assoc] at hlists
  cases item with
  | instruction j =>
    cases hitem
    exact hlists.usesKnown hknown _ (front ++ skipped) _ back rfl
  | function slot =>
    obtain ⟨f, hf, rfl⟩ := Option.map_eq_some_iff.mp hitem
    intro hsettled sig hsig
    obtain ⟨front', back', hsplit, hoff, done, hkeeps⟩ :=
      hlists.settled hs2 htypes1 hbodies1 hknown hsettled
    have hplace : s2.Places slot f.name := by
      unfold ReadState.Places
      rw [hf]
      rfl
    obtain ⟨middle, hmiddle, -⟩ :=
      exists_prefix_of_append_eq hsplit fun hslot => hoff slot hslot hplace
    cases hbody : sig.body with
    | nil => trivial
    | cons first others =>
      have hkept := hkeeps f (mem_of_getElem? hf) sig hsig rfl (by rw [hbody]; exact nofun)
      rw [hbody] at hkept
      refine hkept.2.mono ?_
      intro v hv
      rw [nil_append] at hv
      rw [hmiddle, flatMap_append, nil_append]
      rcases mem_append.mp hv with hv | hv
      · exact mem_append_left _ (mem_append_left _ hv)
      · exact mem_append_right _ hv

/-- **The order of a module respects scopes.**  Whatever text is read where no variable is bound,
    with a scan or without one: walking through the module, every variable used outside of functions
    has been declared outside of functions before; and every variable used in a body of a settled
    function is a parameter of that very overload, has been declared in that body before, or has been
    declared outside of functions before the function. -/
theorem readModule_wellScoped (scan : Bool) (u : CompilationUnit) (text : String)
    (nodes : List Node) (ir : List Instruction)
    (hvars : ∀ name, u.symbols.findVariable? name = none)
    (hnodes : readExpressions text = .ok nodes)
    (hread : (readModule scan u text).outcome = .ok ir) :
    WellScoped (Settled u.symbols (Read.documentNodes nodes)) [] ir := by
  obtain ⟨nodes', s', hnodes', hyields⟩ := readModule_eq_ok hread
  cases hnodes.symm.trans hnodes'
  have hbodies : u.start.Bodiless := by
    intro f hf
    cases hf
  exact wellScoped_of_readDocument hyields (steady_start u) hbodies
    (SymbolTable.visible_eq_nil hvars)

/-- A function that returns a variable declared before it. -/
def globalRead : String := "(declare()int g)(function f(signature int(parameters)((return(var_ref g)))))"

/-- The nodes of the text. -/
def globalReadNodes : List Node :=
  [.list [.symbol "declare", .list [], .symbol "int", .symbol "g"],
    .list [.symbol "function", .symbol "f", .list [.symbol "signature", .symbol "int",
      .list [.symbol "parameters"],
      .list [.list [.symbol "return", .list [.symbol "var_ref", .symbol "g"]]]]]]

/-- No variable is bound at first, the text is read, and its function is settled. -/
theorem readModule_wellScoped_globalRead :
    ∃ ir, (readModule true .fresh globalRead).outcome = .ok ir
      ∧ Settled CompilationUnit.fresh.symbols globalReadNodes "f"
      ∧ WellScoped (Settled CompilationUnit.fresh.symbols globalReadNodes) [] ir := by
  have hvars : ∀ name, CompilationUnit.fresh.symbols.findVariable? name = none := by
    have hscopes : CompilationUnit.fresh.symbols.varScopes = [[]] := by decide +kernel
    intro name
    rw [SymbolTable.findVariable?_eq, hscopes]
    rfl
  have hcheck : (match readExpressions globalRead with
      | .ok nodes => decide (nodes = globalReadNodes)
      | .error _ => false) = true := by decide +kernel
  have hnodes : readExpressions globalRead = .ok globalReadNodes := by
    cases hread : readExpressions globalRead with
    | error e =>
      rw [hread] at hcheck
      cases hcheck
    | ok nodes =>
      rw [hread] at hcheck
      exact congrArg Except.ok (of_decide_eq_true hcheck)
  have hok : (readModule true .fresh globalRead).outcome.isOk = true := by decide +kernel
  have hsettled : Settled CompilationUnit.fresh.symbols globalReadNodes "f" := by
    refine ⟨by decide, ?_, [], _, [_], [], rfl, ?_, ?_, ?_⟩
    · exact pairwise_singleton _ _
    · exact fun node hnode => by cases hnode
    · decide
    · exact fun node hnode => by cases hnode
  cases hread : (readModule true .fresh globalRead).outcome with
  | error e =>
    rw [hread] at hok
    cases hok
  | ok ir => exact ⟨ir, rfl, hsettled, readModule_wellScoped true .fresh globalRead globalReadNodes ir
      hvars hnodes hread⟩

/-- A signature with a body, and another one with the same types and another name for the parameter.
    -/
def repeatedSignature : String :=
  "(function f(signature int(parameters(declare()int x))((return(var_ref x))))" ++
  "(signature int(parameters(declare()int y))()))"

/-- **A repeated signature takes the parameters away from a body that uses them.**  The function is
    not settled, and its body uses a variable that nothing in the module declares. -/
theorem not_wellScoped_repeatedSignature :
    ∃ ir, (readModule true .fresh repeatedSignature).outcome = .ok ir
      ∧ ¬ WellScoped (fun _ => True) [] ir := by
  have hcheck : (match (readModule true .fresh repeatedSignature).outcome with
      | .ok ir => decide (¬ WellScoped (fun _ => True) [] ir)
      | .error _ => false) = true := by decide +kernel
  cases hread : (readModule true .fresh repeatedSignature).outcome with
  | error e =>
    rw [hread] at hcheck
    cases hcheck
  | ok ir =>
    rw [hread] at hcheck
    exact ⟨ir, rfl, of_decide_eq_true hcheck⟩

end Shading
