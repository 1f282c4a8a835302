/-
  Shading.Proofs.Read.Incremental — a text can be read in two parts.

  Reading a text and then another one does what reading both at once does, as long as the two name
  different functions.  Three facts come together.
-/
import Mathlib.Data.List.Basic
import Shading.Proofs.Read.Beside
import Shading.Proofs.Read.WellScoped
import Shading.Proofs.Sexp.Trees

namespace Shading

open List ReadM

/-! ## §1. Joined texts -/

theorem Cuts.append_line {ds : List Char} {us : List Token} (hds : Cuts ds us) {cs : List Char}
    {ts : List Token} (h : Cuts cs ts) : Cuts (cs ++ '\n' :: ds) (ts ++ us) := by
  induction h with
  | done => exact .blank (by decide) hds
  | blank hc _ ih => exact .blank hc ih
  | @comment body cs ts hbody hend _ ih =>
    rw [cons_append, append_assoc]
    refine .comment hbody (.inr ?_) ih
    rcases hend with rfl | hend
    · rfl
    · rw [head?_append, hend]
      rfl
  | opening _ ih => exact .opening ih
  | closing _ ih => exact .closing ih
  | @word run cs ts hne hrun hend _ ih =>
    rw [append_assoc]
    refine .word hne hrun ?_ ih
    intro c hc
    cases cs with
    | nil =>
      cases hc
      decide
    | cons d cs => exact hend c hc

variable {ns ms : List Node}

/-- Two texts on separate lines have the nodes of both. -/
theorem readExpressions_append_line {a b : String} (ha : readExpressions a = .ok ns)
    (hb : readExpressions b = .ok ms) : readExpressions (a ++ "\n" ++ b) = .ok (ns ++ ms) := by
  have htext : (a ++ "\n" ++ b).toList = a.toList ++ '\n' :: b.toList := by
    simp
  obtain ⟨front, hfront, hns⟩ := exists_trees_of_readNodes ha
  obtain ⟨back, hback, hms⟩ := exists_trees_of_readNodes hb
  have hcuts : Cuts (a ++ "\n" ++ b).toList (Tree.tokensAll (front ++ back)) := by
    rw [htext, Tree.tokensAll_append]
    exact hback.append_line hfront
  have hnodes := Tree.nodes_append_ok hns hms
  have hgrows : Grows .many (Tree.tokensAll (front ++ back)) (front ++ back) :=
    ⟨rfl, .of_nodes hnodes, nofun⟩
  rw [readExpressions, readNodes_of_grows hcuts hgrows, hnodes]

/-- Is the document one list in place of its instructions, an empty one or one without a tag? -/
def Read.isWrapped : List Node → Bool
  | [.list items] => (Node.list items).head?.isNone
  | _ => false

variable {nodes : List Node}

theorem Read.documentNodes_eq (h : Read.isWrapped nodes = false) :
    Read.documentNodes nodes = nodes := by
  unfold Read.documentNodes
  split
  next => cases h
  next => rfl
  next node rest hnode =>
    cases node with
    | symbol name => exact absurd rfl (hnode name)
    | int | float | list => cases h
  next => rfl

theorem Read.isWrapped_append (hns : Read.isWrapped ns = false) (hms : Read.isWrapped ms = false) :
    Read.isWrapped (ns ++ ms) = false := by
  cases ns with
  | nil => exact hms
  | cons first rest =>
    cases ms with
    | nil =>
      rw [List.append_nil]
      exact hns
    | cons other others =>
      -- with two nodes there is no single list
      cases rest with
      | nil | cons => cases first <;> rfl

/-! ## §2. The functions of a document -/

theorem namesAt_append (ps qs : List (Node × Bool)) :
    namesAt (ps ++ qs) = namesAt ps ++ namesAt qs := filterMap_append

variable {node : Node} {name : String}

theorem mem_namesAt_cons {inLoop : Bool} {ps : List (Node × Bool)} (h : name ∈ namesAt ps) :
    name ∈ namesAt ((node, inLoop) :: ps) := by
  rw [← singleton_append, namesAt_append]
  exact mem_append_right _ h

/-- The names of functions stand at positions of the nodes. -/
theorem functionNames_named :
    (∀ node : Node, ∀ inLoop, ∀ name ∈ node.functionNames,
      name ∈ namesAt ((node, inLoop) :: node.inside inLoop))
    ∧ (∀ nodes : List Node, ∀ inLoop, ∀ name ∈ Node.namesIn nodes,
      name ∈ namesAt (Node.positions inLoop nodes))
    ∧ (∀ nodes : List Node, ∀ name ∈ Node.namesInBodies nodes,
      name ∈ namesAt (Node.insideSignatures nodes))
    ∧ (∀ node : Node, ∀ name ∈ node.bodyNames, name ∈ namesAt node.insideSignature) := by
  apply Node.functionNames.mutual_induct
  -- functions
  · intro name signatures ih inLoop other hother
    rw [Node.functionNames] at hother
    rcases mem_cons.mp hother with rfl | hother
    · exact mem_cons_self
    · exact mem_namesAt_cons (ih other hother)
  -- branches
  · intro condition thenNodes elseNodes ih1 ih2 inLoop name hname
    rw [Node.functionNames] at hname
    refine mem_namesAt_cons ?_
    show name ∈ namesAt (Node.positions inLoop thenNodes ++ Node.positions inLoop elseNodes)
    rw [namesAt_append, mem_append]
    exact (mem_append.mp hname).imp (ih1 inLoop name) (ih2 inLoop name)
  -- loops
  · intro counter start stop increment nodes ih inLoop name hname
    rw [Node.functionNames] at hname
    exact mem_namesAt_cons (ih true name hname)
  -- other instructions
  · intro node h1 h2 h3 inLoop name hname
    rw [Node.functionNames] at hname
    · cases hname
    all_goals assumption
  -- signatures
  · intro ty parameters nodes ih name hname
    exact ih false name hname
  · intro node h name hname
    rw [Node.bodyNames] at hname
    · cases hname
    all_goals assumption
  -- lists
  · intro inLoop name hname
    cases hname
  · intro node rest ih1 ih2 inLoop name hname
    rw [Node.namesIn] at hname
    rw [Node.positions, ← cons_append, namesAt_append, mem_append]
    exact (mem_append.mp hname).imp (ih1 inLoop name) (ih2 inLoop name)
  · intro name hname
    cases hname
  · intro node rest ih1 ih2 name hname
    rw [Node.namesInBodies] at hname
    rw [Node.insideSignatures, namesAt_append, mem_append]
    exact (mem_append.mp hname).imp (ih1 name) (ih2 name)

theorem mem_namesIn (hnode : node ∈ nodes) (h : name ∈ node.functionNames) :
    name ∈ Node.namesIn nodes := by
  induction nodes with
  | nil => cases hnode
  | cons first rest ih =>
    rw [Node.namesIn, mem_append]
    rcases mem_cons.mp hnode with rfl | hnode
    · exact .inl h
    · exact .inr (ih hnode)

variable {cx : Context} {s : ReadState}

theorem Reads.length_functions_le {reading : Reading} {s' : ReadState} (h : Reads cx reading s s') :
    s.functions.length ≤ s'.functions.length := by
  have := h.functionNames_prefix.length_le
  simpa [ReadState.functionNames] using this

variable {s1 : ReadState}

namespace Lists

variable {cx : Context} {placed : List Nat} {seen : Nat} {nodes : List Node} {items : List Item}
  {s s' : ReadState}

/-- A new function was named by one of the nodes. -/
theorem mem_functionNames (h : Lists cx placed seen nodes items s s')
    (hseen : seen = s.functions.length) (hname : name ∈ s'.functionNames) :
    name ∈ s.functionNames ∨ name ∈ Node.namedFunctions nodes := by
  by_cases hnamed : name ∈ Node.namedFunctions nodes
  · exact .inr hnamed
  · have hunnamed : ∀ node ∈ nodes, name ∉ node.functionNames := by
      intro node hnode hmem
      exact hnamed (functionNames_named.2.1 nodes false name (mem_namesIn hnode hmem))
    obtain ⟨slot, hslot⟩ := mem_iff_getElem?.mp hname
    unfold ReadState.functionNames at hslot
    rw [getElem?_map] at hslot
    have hplace : s.Places slot name := (h.untouched hseen hunnamed).1.places.mp hslot
    unfold ReadState.Places at hplace
    rw [← getElem?_map] at hplace
    exact .inl (mem_of_getElem? hplace)

/-- What is placed after a node is a function that was met. -/
theorem fresh_lt {node : Node} {i : Option Instruction} {top : Option Nat} {slot : Nat}
    (first : ReadsTop cx node i top s s1)
    (h : slot ∈ Read.unplaced placed top seen s1.functions.length) :
    slot < s1.functions.length := by
  rcases mem_unplaced h with htop | h
  · cases first with
    | instruction reads => cases htop
    | function reads =>
      cases htop
      exact reads.places_function.lt_length
  · exact h.2

theorem slot_lt (h : Lists cx placed seen nodes items s s') {slot : Nat}
    (hslot : .function slot ∈ items) : slot < s'.functions.length := by
  induction h with
  | nil => cases hslot
  | cons first met others ih =>
    rcases Item.function_mem.mp hslot with hfresh | hrest
    · rw [met] at hfresh
      exact Nat.lt_of_lt_of_le (fresh_lt first hfresh) others.reads.length_functions_le
    · exact ih hrest

theorem depth_eq (h : Lists cx placed seen nodes items s s') :
    s'.symbols.depth = s.symbols.depth := by
  have hlength : ∀ t : SymbolTable, t.depth = t.typeScopes.length := by
    intro t
    simp [SymbolTable.depth, SymbolTable.typeScopes]
  rw [hlength, hlength, h.reads.typeScopes trivial]

end Lists

/-! ## §3. Two parts of a document -/

/-- The run of a computation whose answer is put behind these items. -/
def behind (front : List Item) (run : Except ReadError (List Item) × ReadState) :
    Except ReadError (List Item) × ReadState :=
  (run.1.map (front ++ ·), run.2)

variable {placed : List Nat} {seen : Nat}

theorem run_readItems_cons {rest : List Node} {i : Option Instruction} {top : Option Nat}
    (h : Yields (Read.readTop cx node) s (i, top) s1) :
    (Read.readItems cx placed seen (node :: rest)).run.run s
      = behind (i.toList.map .instruction
          ++ (Read.unplaced placed top seen s1.functions.length).map .function)
        ((Read.readItems cx (Read.unplaced placed top seen s1.functions.length ++ placed)
          s1.functions.length rest).run.run s1) := by
  rw [Read.readItems, run_bind, h]
  dsimp only
  rw [run_bind]
  show ((Read.readItems cx (Read.unplaced placed top seen s1.functions.length ++ placed)
    s1.functions.length rest) >>= fun items => _).run.run s1 = _
  rw [run_bind]
  unfold behind
  generalize (Read.readItems cx _ _ rest).run.run s1 = run
  obtain ⟨result, s2⟩ := run
  cases result with
  | error | ok => rfl

theorem run_readItems_cons_error {rest : List Node} {e : ReadError}
    (h : (Read.readTop cx node).run.run s = (.error e, s1)) :
    (Read.readItems cx placed seen (node :: rest)).run.run s = (.error e, s1) := by
  rw [Read.readItems, run_bind, h]

theorem run_readItems_append_error {xs ys : List Node} {e : ReadError} {s' : ReadState}
    (h : (Read.readItems cx placed seen xs).run.run s = (.error e, s')) :
    (Read.readItems cx placed seen (xs ++ ys)).run.run s = (.error e, s') := by
  induction xs generalizing placed seen s with
  | nil => cases h
  | cons node rest ih =>
    rw [cons_append]
    rcases htop : (Read.readTop cx node).run.run s with ⟨e' | r, s1⟩
    · rw [run_readItems_cons_error htop] at h ⊢
      exact h
    · rw [run_readItems_cons htop] at h ⊢
      -- The rest fails, since all that is done behind it is to put items in front.
      rcases hrest : (Read.readItems cx (Read.unplaced placed r.2 seen s1.functions.length ++ placed)
        s1.functions.length rest).run.run s1 with ⟨e' | items, s2⟩
      · rw [hrest] at h
        cases h
        rw [ih hrest]
        rfl
      · rw [hrest] at h
        cases h

theorem behind_append (front back : List Item) (run : Except ReadError (List Item) × ReadState) :
    behind front (behind back run) = behind (front ++ back) run := by
  rcases run with ⟨e | items, s⟩
  · rfl
  · simp [behind, Except.map]

/-- Reading goes on where the first text ended. -/
theorem run_readItems_append {xs : List Node} (ys : List Node) {front : List Item}
    (h : Lists cx placed seen xs front s s1) (hseen : seen = s.functions.length)
    (hplaced : ∀ slot ∈ placed, slot < s.functions.length) :
    ∃ placed1, (∀ slot ∈ placed1, slot < s1.functions.length)
      ∧ (Read.readItems cx placed seen (xs ++ ys)).run.run s
        = behind front ((Read.readItems cx placed1 s1.functions.length ys).run.run s1) := by
  induction h with
  | @nil placed seen s =>
    refine ⟨placed, hplaced, ?_⟩
    rw [nil_append, hseen]
    rcases (Read.readItems cx placed s.functions.length ys).run.run s with ⟨e | items, s1⟩
    · rfl
    · rfl
  | @cons placed fresh seen node rest i top items s s1 s' first met others ih =>
    have hfresh : ∀ slot ∈ fresh ++ placed, slot < s1.functions.length := by
      intro slot hslot
      rcases mem_append.mp hslot with hslot | hslot
      · rw [met] at hslot
        exact Lists.fresh_lt first hslot
      · exact Nat.lt_of_lt_of_le (hplaced slot hslot) first.reads.length_functions_le
    obtain ⟨placed1, hlt, hrun⟩ := ih rfl hfresh
    refine ⟨placed1, hlt, ?_⟩
    rw [cons_append, run_readItems_cons (yields_readTop.mpr first), ← met, hrun, behind_append]

/-! ## §4. Modules -/

/-- The run that the items of a document come from. -/
def documentRun (u : CompilationUnit) (nodes : List Node) :
    Except ReadError (List Item) × ReadState :=
  (Read.readItems ⟨none, none, u.symbols.depth⟩ [] 0 nodes).run.run u.start

theorem apart_nil (places : List (Node × Bool)) : Apart [] places := fun _ _ => not_mem_nil

theorem map_move_zero (items : List Item) : items.map (Item.move 0) = items := by
  have hmove : Item.move 0 = id := by
    funext item
    cases item <;> rfl
  rw [hmove, map_id]

theorem run_readItems_noted (u : CompilationUnit) (nodes : List Node) (old : List ReadNote) :
    (Read.readItems ⟨none, none, u.symbols.depth⟩ [] 0 nodes).run.run
        ⟨u.storage, u.symbols, [], old⟩
      = ((documentRun u nodes).1, (documentRun u nodes).2.beside [] old) := by
  have hrun := beside_readItems old ⟨none, none, u.symbols.depth⟩ 0
    (apart_nil (Node.positions false nodes)) (fun slot => iff_of_false not_mem_nil not_mem_nil)
    u.start
  have hid : (documentRun u nodes).1.map (List.map (Item.move 0)) = (documentRun u nodes).1 := by
    cases (documentRun u nodes).1 with
    | error e => rfl
    | ok items => exact congrArg Except.ok (map_move_zero items)
  exact hrun.trans (Prod.ext hid rfl)

/-- A module is read as its items are. -/
theorem readModule_eq_documentRun {u : CompilationUnit} {text : String}
    (hnodes : readExpressions text = .ok nodes) (hwrapped : Read.isWrapped nodes = false) :
    (readModule false u text).outcome
        = (documentRun u nodes).1.map
          (·.filterMap (Read.resolve (documentRun u nodes).2.functions))
      ∧ (readModule false u text).after
        = ⟨(documentRun u nodes).2.storage, (documentRun u nodes).2.symbols⟩ := by
  have hrun := run_readItems_noted u nodes [.reading nodes.length]
  have hdocument : (Read.readDocument false nodes).run.run u.start
      = ((Read.readItems ⟨none, none, u.symbols.depth⟩ [] 0 nodes) >>= fun items => (do
          let s ← get
          ReadM.note (.finished items.length s.functions.length)
          pure (items.filterMap (Read.resolve s.functions)))).run.run
        ⟨u.storage, u.symbols, [], [.reading nodes.length]⟩ := rfl
  rw [run_bind, hrun] at hdocument
  unfold CompilationUnit.start at hdocument
  simp only [readModule, hnodes, Read.documentNodes_eq hwrapped]
  rw [hdocument]
  cases (documentRun u nodes).1 with
  | error | ok => exact ⟨rfl, rfl⟩

theorem resolve_append_left {fs gs : List Function} {items : List Item}
    (h : ∀ slot, .function slot ∈ items → slot < fs.length) :
    items.filterMap (Read.resolve (fs ++ gs)) = items.filterMap (Read.resolve fs) := by
  refine filterMap_congr ?_
  intro item hitem
  cases item with
  | instruction i => rfl
  | function slot =>
    show (fs ++ gs)[slot]?.map _ = fs[slot]?.map _
    rw [getElem?_append_left (h slot hitem)]

theorem resolve_append_right (fs gs : List Function) (items : List Item) :
    (items.map (Item.move fs.length)).filterMap (Read.resolve (fs ++ gs))
      = items.filterMap (Read.resolve gs) := by
  rw [filterMap_map]
  refine filterMap_congr ?_
  intro item _
  cases item with
  | instruction i => rfl
  | function slot =>
    show (fs ++ gs)[slot + fs.length]?.map _ = gs[slot]?.map _
    rw [getElem?_append_add]

/-- **The back of a document is read as a document of its own**, in the unit that the front left. -/
theorem documentRun_append {u : CompilationUnit} {front : List Item}
    (hfront : documentRun u ns = (.ok front, s1))
    (hnames : ∀ name ∈ Node.namedFunctions ns, name ∉ Node.namedFunctions ms) :
    documentRun u (ns ++ ms)
      = behind front (((documentRun ⟨s1.storage, s1.symbols⟩ ms).1.map
          (List.map (Item.move s1.functions.length))),
        (documentRun ⟨s1.storage, s1.symbols⟩ ms).2.beside s1.functions s1.notes) := by
  have hlists := yields_readItems.mp hfront
  obtain ⟨placed, hplaced, hrun⟩ := run_readItems_append ms hlists rfl nofun
  have hapart : Apart s1.functions (Node.positions false ms) := by
    intro name hname hmet
    rcases hlists.mem_functionNames rfl hmet with hstart | hnamed
    · cases hstart
    · exact hnames name hnamed hname
  have hmoved : ∀ slot, slot + s1.functions.length ∈ placed ↔ slot ∈ ([] : List Nat) := by
    intro slot
    refine iff_of_false ?_ not_mem_nil
    intro hmem
    have := hplaced _ hmem
    omega
  have hback := beside_readItems s1.notes ⟨none, none, u.symbols.depth⟩ 0 hapart hmoved
    (CompilationUnit.start ⟨s1.storage, s1.symbols⟩)
  have hstate : (CompilationUnit.start ⟨s1.storage, s1.symbols⟩).beside s1.functions s1.notes
      = s1 := by
    simp [CompilationUnit.start, ReadState.beside]
  have hdepth : s1.symbols.depth = u.symbols.depth := hlists.depth_eq
  rw [hstate, Nat.zero_add, ← hdepth] at hback
  unfold documentRun
  rw [hrun, ← hdepth, hback]

/-- **Reading is incremental.**  Two texts that are read one after the other are read as their joined
    text, if neither is one list in place of its instructions and no function of the one is named in
    the other.  If the first fails, so does the joined text, with the same error and in the same unit.  If
    it is read, the joined text ends as the second, read in the unit that the first left: with the same
    error, or with the instructions of both, and in the same unit. -/
theorem readModule_append_line (u : CompilationUnit) {a b : String} {ns ms : List Node}
    (ha : readExpressions a = .ok ns) (hb : readExpressions b = .ok ms)
    (hns : Read.isWrapped ns = false) (hms : Read.isWrapped ms = false)
    (hnames : ∀ name ∈ Node.namedFunctions ns, name ∉ Node.namedFunctions ms) :
    (∀ e, (readModule false u a).outcome = .error e →
      (readModule false u (a ++ "\n" ++ b)).outcome = .error e
        ∧ (readModule false u (a ++ "\n" ++ b)).after = (readModule false u a).after)
    ∧ ∀ ir, (readModule false u a).outcome = .ok ir →
      (readModule false u (a ++ "\n" ++ b)).outcome
          = (readModule false (readModule false u a).after b).outcome.map (ir ++ ·)
        ∧ (readModule false u (a ++ "\n" ++ b)).after
          = (readModule false (readModule false u a).after b).after := by
  obtain ⟨hfirst, hunit⟩ := readModule_eq_documentRun (u := u) ha hns
  obtain ⟨hboth, hboth'⟩ := readModule_eq_documentRun (u := u) (readExpressions_append_line ha hb)
    (Read.isWrapped_append hns hms)
  rcases hrun : documentRun u ns with ⟨e | front, s₁⟩
  · have hjoined : documentRun u (ns ++ ms) = (.error e, s₁) := run_readItems_append_error hrun
    rw [hrun] at hfirst hunit
    rw [hjoined] at hboth hboth'
    rw [hfirst, hunit, hboth, hboth']
    exact ⟨fun e' he => ⟨he, rfl⟩, nofun⟩
  · have hjoined := documentRun_append hrun hnames
    obtain ⟨hsecond, hsecond'⟩ := readModule_eq_documentRun (u := ⟨s₁.storage, s₁.symbols⟩) hb hms
    rw [hrun] at hfirst hunit
    rw [hjoined] at hboth hboth'
    rw [hfirst, hunit, hboth, hboth', hsecond, hsecond']
    refine ⟨nofun, ?_⟩
    intro ir hir
    cases hir
    refine ⟨?_, rfl⟩
    have hslots : ∀ slot, .function slot ∈ front → slot < s₁.functions.length :=
      fun slot => (yields_readItems.mp hrun).slot_lt
    rcases documentRun ⟨s₁.storage, s₁.symbols⟩ ms with ⟨e | back, s₂⟩
    · rfl
    · show Except.ok ((front ++ back.map (Item.move s₁.functions.length)).filterMap
        (Read.resolve (s₁.functions ++ s₂.functions))) = Except.ok (_ ++ _)
      rw [filterMap_append, resolve_append_left hslots, resolve_append_right]

/-- A variable and a function that returns it. -/
def firstPart : String := "(declare()int x)(function f(signature int(parameters)((return(var_ref x)))))"

/-- A function that calls the one of the first part. -/
def secondPart : String := "(function g(signature int(parameters)((return(call f())))))"

/-- Both parts are read, and the joined text gives the instructions of both. -/
theorem readModule_append_line_laterCall :
    ∃ ir jr, (readModule false .fresh firstPart).outcome = .ok ir
      ∧ (readModule false (readModule false .fresh firstPart).after secondPart).outcome = .ok jr
      ∧ (readModule false .fresh (firstPart ++ "\n" ++ secondPart)).outcome = .ok (ir ++ jr) := by
  have hcheck : ((readExpressions firstPart).toOption.any fun ns =>
      (readExpressions secondPart).toOption.any fun ms =>
        !Read.isWrapped ns && (!Read.isWrapped ms
          && decide (∀ name ∈ Node.namedFunctions ns, name ∉ Node.namedFunctions ms))) = true := by
    decide +kernel
  obtain ⟨ns, ha, hrest⟩ := exists_ok_of_any hcheck
  obtain ⟨ms, hb, hrest⟩ := exists_ok_of_any hrest
  obtain ⟨hns, hrest⟩ := Bool.and_eq_true_iff.mp hrest
  obtain ⟨hms, hnames⟩ := Bool.and_eq_true_iff.mp hrest
  obtain ⟨ir, hir, -⟩ := exists_ok_of_any (p := fun _ => true)
    (show (readModule false .fresh firstPart).outcome.toOption.any _ = true by decide +kernel)
  obtain ⟨jr, hjr, -⟩ := exists_ok_of_any (p := fun _ => true)
    (show (readModule false (readModule false .fresh firstPart).after
      secondPart).outcome.toOption.any _ = true by decide +kernel)
  have hboth := (readModule_append_line .fresh ha hb ((Bool.not_eq_true' _).mp hns)
    ((Bool.not_eq_true' _).mp hms) (of_decide_eq_true hnames)).2
  have hread := (hboth ir hir).1
  rw [hjr] at hread
  exact ⟨ir, jr, hir, hjr, hread⟩

end Shading
