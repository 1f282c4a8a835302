/-
  Shading.Proofs.RoundTrip.Module — modules read from their own text.

  Reading undoes printing: a module that was read from an orderly document, printed and read again
  is the same module, down to the numbers of its variables and loops (`readModule_printModule`).
-/
import Shading.Proofs.RoundTrip.Functions

namespace Shading

open List Layout

/-! ## §1. Orderly documents -/

/-- No function stands inside of another instruction, no two nodes are functions of one name, and no
    two signatures of one function have the same parameter types. -/
structure Orderly (nodes : List Node) : Prop where
  flat : ∀ node ∈ nodes, node.isFlat = true
    ∧ ∀ sig ∈ node.signatureNodes, sig.isFlatSignature = true
  names : (nodes.filterMap (·.functionName?)).Nodup
  overloads : ∀ node ∈ nodes, (node.signatureNodes.map (·.parameterTypes)).Nodup

instance (nodes : List Node) : Decidable (Orderly nodes) :=
  decidable_of_iff
    ((∀ node ∈ nodes, node.isFlat = true ∧ ∀ sig ∈ node.signatureNodes, sig.isFlatSignature = true)
      ∧ (nodes.filterMap (·.functionName?)).Nodup
      ∧ ∀ node ∈ nodes, (node.signatureNodes.map (·.parameterTypes)).Nodup)
    ⟨fun ⟨flat, names, overloads⟩ => ⟨flat, names, overloads⟩,
      fun ⟨flat, names, overloads⟩ => ⟨flat, names, overloads⟩⟩

theorem Orderly.tail {node : Node} {rest : List Node} (h : Orderly (node :: rest)) :
    Orderly rest := by
  refine ⟨fun n hn => h.flat n (mem_cons_of_mem _ hn), ?_,
    fun n hn => h.overloads n (mem_cons_of_mem _ hn)⟩
  have hnames := h.names
  rw [filterMap_cons] at hnames
  split at hnames
  · exact hnames
  · exact (nodup_cons.mp hnames).2

variable {cx : Context} {nodes : List Node} {s s' : ReadState}

theorem types_of_declares {vs : List Var} (h : Declares cx nodes vs s s')
    (hnodes : ∀ node ∈ nodes, node.Readable) (hs : s.symbols.SelfNamed) :
    vs.map (fun v => v.ty.layout.node?) = nodes.map fun node => some node.declaredType := by
  induction h with
  | nil s => rfl
  | @cons node rest v vs s s' first others ih =>
    have hnode := hnodes node mem_cons_self
    have henv : (s.env cx).symbols.SelfNamed := hs
    obtain ⟨qualifiers, ty, name, t, rfl, ht, hv⟩ := readVariable_eq_ok.mp first
    have hs' : (s.declare v).symbols.SelfNamed :=
      hs.addVariable (isSymbol_of_readVariable hnode first) (scopes_ne_nil_of_readType ht)
    have hty : (s.nextVar v).ty = t := (Variable.qualifyAll?_keeps hv).2
    rw [map_cons, map_cons, ih (fun n hn => hnodes n (mem_cons_of_mem _ hn)) hs',
      hty, layout_of_readType henv ht]
    rfl

variable {scan : Bool} {slot : Nat} {name : String} {entries : List Entry}

theorem Reads.types_of_signatures (h : Reads cx (.signatures scan slot name nodes entries) s s')
    (hr : IsSymbol name ∧ ∀ node ∈ nodes, node.Readable) (hs : s.symbols.SelfNamed) :
    entries.map (fun e => e.types.map fun ty => ty.layout.node?)
      = nodes.map fun node => node.parameterTypes.map some := by
  induction nodes generalizing entries s with
  | nil =>
    cases h
    rfl
  | cons node rest ih =>
    cases h with
    | @more _ _ s1 _ _ _ _ _ _ e es first others =>
      have hr1 : (Reading.signature scan slot name node e).Readable :=
        ⟨hr.1, hr.2 node mem_cons_self⟩
      rw [map_cons, map_cons,
        ih others ⟨hr.1, fun n hn => hr.2 n (mem_cons_of_mem _ hn)⟩
          (first.selfNamed hr1 hs)]
      congr 1
      cases first with
      | prototype type declares =>
        simpa [Entry.types, Node.parameterTypes, Function.comp_def] using
          types_of_declares declares (readable_signature hr1.2).1 hs.push
      | definition type declares =>
        simpa [Entry.types, Node.parameterTypes, Function.comp_def] using
          types_of_declares declares (readable_signature hr1.2).1 hs.push

theorem Reads.nodup_types (h : Reads cx (.signatures scan slot name nodes entries) s s')
    (hr : IsSymbol name ∧ ∀ node ∈ nodes, node.Readable) (hs : s.symbols.SelfNamed)
    (hnodup : (nodes.map (·.parameterTypes)).Nodup) : (entries.map (·.types)).Nodup := by
  have hsome : (nodes.map fun node => node.parameterTypes.map some).Nodup := by
    rw [show (fun node : Node => node.parameterTypes.map some)
      = (fun types : List Node => types.map some) ∘ (·.parameterTypes) from rfl, ← map_map]
    refine List.Pairwise.map _ (fun a b hne heq => hne ?_) hnodup
    exact (List.map_inj_right fun _ _ => Option.some.inj).mp heq
  rw [← h.types_of_signatures hr hs] at hsome
  refine List.Pairwise.of_map (fun types : List Ty => types.map fun ty => ty.layout.node?) ?_ ?_
    (S := (· ≠ ·))
  · intro a b hne heq
    exact hne (heq ▸ rfl)
  · rw [map_map]
    exact hsome

/-! ## §2. The state between two nodes -/

/-- What holds between two nodes of the top level. -/
structure Ready (cx : Context) (s : ReadState) : Prop where
  selfNamed : s.symbols.SelfNamed
  rooted : s.Rooted cx.globalDepth
  inStep : s.InStep
  met : s.Met

theorem Ready.reads {reading : Reading} (h : Ready cx s) (hreads : Reads cx reading s s')
    (hr : reading.Readable) (hplaced : reading.Placed s) : Ready cx s' := by
  have hevolves := reads_grow hreads hplaced h.rooted h.inStep
  exact ⟨hreads.selfNamed hr h.selfNamed, hevolves.rooted, hevolves.inStep,
    hreads.met hplaced h.met⟩

variable {done : List Function}

theorem Ready.functions {signatures : List Node} {pending : List Function} (h : Ready cx s)
    (hreads : Reads cx (.function scan (.symbol name :: signatures) slot entries) s s')
    (hr : ∀ node ∈ Node.symbol name :: signatures, node.Readable)
    (hflat : ∀ node ∈ signatures, node.isFlatSignature = true)
    (htypes : (signatures.map (·.parameterTypes)).Nodup) (hf : s.functions = done ++ pending)
    (hnew : name ∉ done.map (·.name))
    (hpending : pending = [] ∨ ∃ sigs rest, pending = ⟨name, sigs⟩ :: rest
      ∧ Awaits sigs (entries.map (·.types))) :
    slot = done.length
      ∧ s'.functions = done ++ ⟨name, entries.map (·.signature)⟩ :: pending.tail := by
  refine hreads.functions_of_function hflat h.rooted h.inStep h.met hf hnew ?_ hpending
  have hname : IsSymbol name := hr (.symbol name) mem_cons_self
  have hsignatures : ∀ node ∈ signatures, node.Readable := fun node hnode =>
    hr node (mem_cons_of_mem _ hnode)
  cases hreads with
  | @overloads _ _ s1 _ _ _ _ _ _ _ place inner =>
    have hs1 : (s.slot cx name).2 = s1 := by rw [place]
    have hselfNamed : s1.symbols.SelfNamed :=
      hs1 ▸ ReadState.selfNamed_slot h.selfNamed hname h.rooted.ne_nil
    exact inner.nodup_types ⟨hname, hsignatures⟩ hselfNamed htypes

/-! ## §3. The scan -/

open ReadM

/-- The scan collects one function for each node. -/
theorem Scans.functions {fs : List Function} (h : Scans cx nodes fs s s') (hs : Ready cx s)
    (hnodes : Orderly nodes) (hr : ∀ node ∈ nodes, node.Readable)
    (hnew : ∀ name ∈ nodes.filterMap (·.functionName?), name ∉ s.functionNames) :
    s'.functions = s.functions ++ fs ∧ Ready cx s'
      ∧ s'.symbols.typeScopes = s.symbols.typeScopes := by
  induction h with
  | nil s => exact ⟨(List.append_nil _).symm, hs, rfl⟩
  | @skip node rest fs s s' other others ih =>
    refine ih hs hnodes.tail (fun n hn => hr n (mem_cons_of_mem _ hn)) ?_
    intro name hname
    refine hnew name ?_
    rw [filterMap_cons]
    split
    · exact hname
    · exact mem_cons_of_mem _ hname
  | @function name signatures rest slot entries fs s s1 s' first others ih =>
    have hparts : ∀ node ∈ Node.symbol name :: signatures, node.Readable := fun node hnode =>
      Node.readable_list.mp (hr _ mem_cons_self) node (mem_cons_of_mem _ hnode)
    have hnames : (name :: rest.filterMap (·.functionName?)).Nodup := hnodes.names
    obtain ⟨-, hfunctions⟩ := hs.functions first hparts (hnodes.flat _ mem_cons_self).2
      (hnodes.overloads _ mem_cons_self) (List.append_nil _).symm
      (hnew name mem_cons_self) (.inl rfl)
    have hnew1 : ∀ other ∈ rest.filterMap (·.functionName?), other ∉ s1.functionNames := by
      intro other hother hmem
      rw [ReadState.functionNames, hfunctions, map_append] at hmem
      rcases mem_append.mp hmem with hmem | hmem
      · exact hnew other (mem_cons_of_mem _ hother) hmem
      · obtain rfl := mem_singleton.mp hmem
        exact (nodup_cons.mp hnames).1 hother
    obtain ⟨hrest, hready, htypes⟩ := ih (hs.reads first hparts trivial) hnodes.tail
      (fun n hn => hr n (mem_cons_of_mem _ hn)) hnew1
    refine ⟨?_, hready, htypes.trans (first.typeScopes trivial)⟩
    rw [hrest, hfunctions, append_assoc]
    rfl

/-! ## §4. The reading after the scan -/

/-- What a node of the top level gives. -/
inductive Top where
  | instruction (i : Instruction)
  | function (name : String) (entries : List Entry)

namespace Top

/-- The function that it is. -/
def function? : Top → Option Function
  | instruction _ => none
  | function name entries => some ⟨name, entries.map (·.signature)⟩

/-- The instruction that it is. -/
def toInstruction : Top → Instruction
  | instruction i => i
  | function name entries => .function name (entries.map (·.signature))

/-- Where everything stands, if functions stand behind `slot` others. -/
def items : Nat → List Top → List Item
  | _, [] => []
  | slot, instruction i :: rest => .instruction i :: items slot rest
  | slot, function _ _ :: rest => .function slot :: items (slot + 1) rest

theorem resolve_items (done : List Function) (tops : List Top) :
    (items done.length tops).filterMap (Read.resolve (done ++ tops.filterMap function?))
      = tops.map toInstruction := by
  induction tops generalizing done with
  | nil => rfl
  | cons top rest ih =>
    cases top with
    | instruction i => exact congrArg (i :: ·) (ih done)
    | function name entries =>
      have hfunctions : done ++ (function name entries :: rest).filterMap function?
          = (done ++ [⟨name, entries.map (·.signature)⟩]) ++ rest.filterMap function? := by
        rw [append_assoc]
        rfl
      have hresolve : Read.resolve (done ++ (function name entries :: rest).filterMap function?)
          (.function done.length) = some (function name entries).toInstruction := by
        simp [Read.resolve, hfunctions, Function.toInstruction, toInstruction]
      have hrest := ih (done ++ [⟨name, entries.map (·.signature)⟩])
      rw [length_append, length_singleton, ← hfunctions] at hrest
      rw [items, filterMap_cons_some hresolve, map_cons, hrest]

end Top

/-- The nodes of the top level are read one after the other, each behind the functions `done`.  A
    function is new or the first of those that only a scan has met. -/
inductive Passes (cx : Context) :
    List Function → List Node → List Top → ReadState → ReadState → Prop
  | nil {done : List Function} {s : ReadState} (all : s.functions = done) :
      Passes cx done [] [] s s
  | instruction {done : List Function} {node : Node} {rest : List Node} {i : Instruction}
      {tops : List Top} {s s1 s' : ReadState} (first : Reads cx (.instruction node (some i)) s s1)
      (kept : s1.functions = s.functions) (others : Passes cx done rest tops s1 s') :
      Passes cx done (node :: rest) (.instruction i :: tops) s s'
  | function {done pending : List Function} {name : String} {signatures rest : List Node}
      {entries : List Entry} {tops : List Top} {s s1 s' : ReadState}
      (first : Reads cx (.function false (.symbol name :: signatures) done.length entries) s s1)
      (before : s.functions = done ++ pending)
      (after : s1.functions = done ++ ⟨name, entries.map (·.signature)⟩ :: pending.tail)
      (others : Passes cx (done ++ [⟨name, entries.map (·.signature)⟩]) rest tops s1 s') :
      Passes cx done (.list (.symbol "function" :: .symbol name :: signatures) :: rest)
        (.function name entries :: tops) s s'

variable {placed : List Nat}

theorem unplaced_function {seen count : Nat} (hplaced : ∀ k ∈ placed, k < slot)
    (hcount : count = seen ∨ (seen = slot ∧ count = slot + 1)) :
    Read.unplaced placed (some slot) seen count = [slot] := by
  have hslot : slot ∉ placed := fun hmem => Nat.lt_irrefl _ (hplaced slot hmem)
  rcases hcount with rfl | ⟨rfl, rfl⟩
  · simp [Read.unplaced, hslot, eraseDups_cons]
  · simp [Read.unplaced, hslot, eraseDups_cons]

variable {tops : List Top}

/-- Passing the nodes in order lists their items. -/
theorem Passes.lists (h : Passes cx done nodes tops s s') (hplaced : ∀ k ∈ placed, k < done.length)
    :
    Lists cx placed s.functions.length nodes (Top.items done.length tops) s s' := by
  induction h generalizing placed with
  | nil all => exact .nil
  | @instruction done node rest i tops s s1 s' first kept others ih =>
    have hfresh : [] = Read.unplaced placed none s.functions.length s1.functions.length := by
      simp [Read.unplaced, kept]
    exact .cons (.instruction first) hfresh (ih hplaced)
  | @function done pending name signatures rest entries tops s s1 s' first before after others ih =>
    have hfresh : [done.length]
        = Read.unplaced placed (some done.length) s.functions.length s1.functions.length := by
      refine (unplaced_function hplaced ?_).symm
      rw [before, after]
      cases pending with
      | nil => exact .inr ⟨by simp, by simp⟩
      | cons f fs => exact .inl (by simp)
    rw [length_append] at ih
    refine .cons (.function first) hfresh (ih ?_)
    intro k hk
    rcases mem_append.mp hk with hk | hk
    · obtain rfl := mem_singleton.mp hk
      exact Nat.lt_succ_self _
    · exact Nat.lt_succ_of_lt (hplaced k hk)

theorem Passes.functions (h : Passes cx done nodes tops s s') :
    s'.functions = done ++ tops.filterMap (·.function?) := by
  induction h with
  | nil all => rw [all, filterMap_nil, List.append_nil]
  | instruction first kept others ih => exact ih
  | function first before after others ih =>
    rw [ih, append_assoc]
    rfl

theorem Passes.length_eq (h : Passes cx done nodes tops s s') : nodes.length = tops.length := by
  induction h with
  | nil all => rfl
  | instruction first kept others ih => simp [ih]
  | function first before after others ih => simp [ih]

theorem Reads.body_of_scan (h : Reads cx (.signatures true slot name nodes entries) s s') :
    ∀ e ∈ entries, e.body = none := by
  induction nodes generalizing entries s with
  | nil =>
    cases h
    simp
  | cons node rest ih =>
    cases h with
    | more first others =>
      intro e he
      rcases mem_cons.mp he with rfl | he
      · cases first
        rfl
      · exact ih others e he

theorem awaits_of_scan {cx' : Context} {slot' : Nat} {parts : List Node} {es fs : List Entry}
    {t t' : ReadState} (hscan : Reads cx' (.function true parts slot' fs) t t')
    (h : Reads cx (.function false parts slot es) s s')
    (htypes : t.symbols.typeScopes = s.symbols.typeScopes) :
    Awaits (fs.map (·.signature)) (es.map (·.types)) := by
  refine .inr ⟨?_, ?_⟩
  · rw [Entry.types_of_head (h.function_heads_eq hscan htypes), map_map]
    rfl
  · intro sig hsig
    obtain ⟨e, he, rfl⟩ := mem_map.mp hsig
    have hbody : e.body = none := by
      cases hscan with
      | overloads place inner => exact inner.body_of_scan e he
    simp [Entry.signature, Signature.prototype, hbody]

/-- Every listing passes the nodes in order. -/
theorem passes_of_lists {seen : Nat} {items : List Item} {pending : List Function}
    (h : Lists cx placed seen nodes items s s') (hs : Ready cx s) (hnodes : Orderly nodes)
    (hr : ∀ node ∈ nodes, node.Readable) (hf : s.functions = done ++ pending)
    (hnew : ∀ name ∈ nodes.filterMap (·.functionName?), name ∉ done.map (·.name))
    (hpending : pending = [] ∨ ∃ t t', Scans cx nodes pending t t'
      ∧ t.symbols.typeScopes = s.symbols.typeScopes) : ∃ tops, Passes cx done nodes tops s s' := by
  induction h generalizing done pending with
  | nil =>
    obtain rfl : pending = [] := by
      obtain rfl | ⟨t, t', hscan, -⟩ := hpending
      · rfl
      · cases hscan
        rfl
    exact ⟨[], .nil (hf.trans (List.append_nil _))⟩
  | @cons placed fresh seen node rest i top items s s1 s' first met others ih =>
    have hrest : ∀ n ∈ rest, n.Readable := fun n hn => hr n (mem_cons_of_mem _ hn)
    cases first with
    | @instruction _ i _ _ first =>
      have hkept : s1.functions = s.functions :=
        first.keepsFunctions ⟨first.isFunction_eq_false, (hnodes.flat node mem_cons_self).1⟩
      have hnew1 : ∀ name ∈ rest.filterMap (·.functionName?), name ∉ done.map (·.name) := by
        intro name hname
        refine hnew name ?_
        rw [filterMap_cons]
        split
        · exact hname
        · exact mem_cons_of_mem _ hname
      -- the scan has skipped the node
      have hpending1 : pending = [] ∨ ∃ t t', Scans cx rest pending t t'
          ∧ t.symbols.typeScopes = s1.symbols.typeScopes := by
        refine hpending.imp_right ?_
        intro hscanned
        obtain ⟨t, t', hscan, htypes⟩ := hscanned
        cases hscan with
        | skip other others => exact ⟨t, t', others, htypes.trans (first.typeScopes trivial).symm⟩
        | function first1 others => cases first.isFunction_eq_false
      obtain ⟨tops, htops⟩ := ih (hs.reads first (hr node mem_cons_self) trivial) hnodes.tail
        hrest (hkept.trans hf) hnew1 hpending1
      exact ⟨.instruction i :: tops, .instruction first hkept htops⟩
    | @function name signatures _ entries _ _ first =>
      have hparts : ∀ n ∈ Node.symbol name :: signatures, n.Readable := fun n hn =>
        Node.readable_list.mp (hr _ mem_cons_self) n (mem_cons_of_mem _ hn)
      have hnames : (name :: rest.filterMap (·.functionName?)).Nodup := hnodes.names
      have hawaits : pending = [] ∨ ∃ sigs rest, pending = ⟨name, sigs⟩ :: rest
          ∧ Awaits sigs (entries.map (·.types)) := by
        refine hpending.imp_right ?_
        intro hscanned
        obtain ⟨t, t', hscan, htypes⟩ := hscanned
        cases hscan with
        | skip other others => cases other
        | function first1 others => exact ⟨_, _, rfl, awaits_of_scan first1 first htypes⟩
      obtain ⟨rfl, hafter⟩ := hs.functions first hparts (hnodes.flat _ mem_cons_self).2
        (hnodes.overloads _ mem_cons_self) hf (hnew name mem_cons_self) hawaits
      have hnew1 : ∀ other ∈ rest.filterMap (·.functionName?),
          other ∉ (done ++ [Function.mk name (entries.map (·.signature))]).map (·.name) := by
        intro other hother hmem
        rw [map_append] at hmem
        rcases mem_append.mp hmem with hmem | hmem
        · exact hnew other (mem_cons_of_mem _ hother) hmem
        · obtain rfl := mem_singleton.mp hmem
          exact (nodup_cons.mp hnames).1 hother
      have hafter' : s1.functions = (done ++ [Function.mk name (entries.map (·.signature))])
          ++ pending.tail := by
        rw [hafter, append_assoc]
        rfl
      have hpending1 : pending.tail = [] ∨ ∃ t t', Scans cx rest pending.tail t t'
          ∧ t.symbols.typeScopes = s1.symbols.typeScopes := by
        obtain rfl | ⟨t, t', hscan, htypes⟩ := hpending
        · exact .inl rfl
        · cases hscan with
          | skip other others => cases other
          | function first1 others =>
            exact .inr ⟨_, _, others, (first1.typeScopes trivial).trans
              (htypes.trans (first.typeScopes trivial).symm)⟩
      obtain ⟨tops, htops⟩ := ih (hs.reads first hparts trivial) hnodes.tail hrest hafter' hnew1
        hpending1
      exact ⟨.function name entries :: tops, .function first hf hafter htops⟩

/-! ## §5. The second reading -/

theorem function_layout_node? (hname : IsSymbol name) {sigs : List Signature}
    (h : nodes? (Signature.layouts sigs) = some nodes) :
    (Instruction.function name sigs).layout.node?
      = some (.list (.symbol "function" :: .symbol name :: nodes)) := by
  have hhead : nodes? [.word "function", .word name]
      = some [.symbol "function", .symbol name] :=
    nodes?_cons_some node?_keyword (nodes?_cons_some (node?_symbol hname) rfl)
  exact node?_rows.mpr ⟨_, nodes, hhead, h, rfl⟩

theorem mem_walk_function {depth : Nat} {e : Entry} (he : e ∈ entries) {step : Step}
    (hstep : step ∈ Instruction.walkAll (depth + 3) (e.body.getD [])) :
    step ∈ (Top.function name entries).toInstruction.walk depth := by
  have hall : step ∈ Signature.walkAll (depth + 1) name (entries.map (·.signature)) := by
    induction entries with
    | nil => cases he
    | cons first rest ih =>
      rw [map_cons, Signature.walkAll, mem_append]
      rcases mem_cons.mp he with rfl | he
      · left
        simp [Entry.signature, Signature.walk, hstep]
      · exact .inr (ih he)
  rw [Top.toInstruction, Instruction.walk]
  exact mem_cons_of_mem _ hall

/-- **Nodes are read from what they gave.** -/
theorem Passes.reread (h : Passes cx done nodes tops s s') (hs : Ready cx s)
    (hnodes : Orderly nodes) (hr : ∀ node ∈ nodes, node.Readable)
    (hfloats : ∀ step ∈ walkModule (tops.map (·.toInstruction)), step.visit.Survives) :
    ∃ nodes', nodes? (tops.map (·.toInstruction.layout)) = some nodes'
      ∧ Passes cx done nodes' tops s s' := by
  induction h with
  | nil all => exact ⟨[], rfl, .nil all⟩
  | @instruction done node rest i tops s s1 s' first kept others ih =>
    have hr1 := hr node mem_cons_self
    have hflat : (Reading.instruction node (some i)).Flat :=
      ⟨first.isFunction_eq_false, (hnodes.flat node mem_cons_self).1⟩
    simp only [walkModule, map_cons, Instruction.walkAll, mem_append] at hfloats
    obtain ⟨node', hnode', hread⟩ := first.reread hr1 hflat
      ⟨0, fun step hstep => hfloats step (.inl (by
        simpa [Instruction.walkAll, Top.toInstruction] using hstep))⟩
      hs.selfNamed i rfl
    obtain ⟨nodes', hnodes', hpasses⟩ := ih (hs.reads first hr1 trivial) hnodes.tail
      (fun n hn => hr n (mem_cons_of_mem _ hn)) fun step hstep => hfloats step (.inr hstep)
    exact ⟨node' :: nodes', nodes?_cons_some hnode' hnodes', .instruction hread kept hpasses⟩
  | @function done pending name signatures rest entries tops s s1 s' first before after others ih =>
    have hparts : ∀ node ∈ Node.symbol name :: signatures, node.Readable := fun node hnode =>
      Node.readable_list.mp (hr _ mem_cons_self) node (mem_cons_of_mem _ hnode)
    have hname : IsSymbol name := hparts (.symbol name) mem_cons_self
    have hflat : (Reading.function false (.symbol name :: signatures) done.length entries).Flat := by
      intro node hnode
      rcases mem_cons.mp hnode with rfl | hnode
      · rfl
      · exact (hnodes.flat _ mem_cons_self).2 node hnode
    simp only [walkModule, map_cons, Instruction.walkAll, mem_append] at hfloats
    obtain ⟨parts', hparts', hread⟩ := first.reread hparts hflat
      (fun e he => ⟨3, fun step hstep => hfloats step (.inl (mem_walk_function he hstep))⟩)
      hs.selfNamed rfl name signatures rfl
    obtain ⟨nodes', hnodes', hpasses⟩ := ih (hs.reads first hparts trivial) hnodes.tail
      (fun n hn => hr n (mem_cons_of_mem _ hn)) fun step hstep => hfloats step (.inr hstep)
    exact ⟨_, nodes?_cons_some (function_layout_node? hname hparts') hnodes',
      .function hread before after hpasses⟩

/-- **A scan meets the same functions in what the nodes gave.** -/
theorem Scans.rescan {done' : List Function} {nodes' : List Node} {fs : List Function}
    {t t' u u' : ReadState} (h : Scans cx nodes fs s s') (hs : Ready cx s)
    (hr : ∀ node ∈ nodes, node.Readable) (hpasses : Passes cx done nodes tops t t')
    (htypes : t.symbols.typeScopes = s.symbols.typeScopes)
    (hpasses' : Passes cx done' nodes' tops u u')
    (hnodes' : nodes? (tops.map (·.toInstruction.layout)) = some nodes') :
    Scans cx nodes' fs s s' := by
  induction h generalizing done done' nodes' tops t u with
  | nil s =>
    cases hpasses
    cases hpasses'
    exact .nil s
  | @skip node rest fs s s' other others ih =>
    cases hpasses with
    | instruction first kept rest1 =>
      cases hpasses' with
      | instruction first' kept' rest2 =>
        obtain ⟨_, _, -, htail, heq⟩ := nodes?_cons.mp hnodes'
        obtain ⟨-, rfl⟩ := cons.inj heq
        exact .skip first'.isFunction_eq_false
          (ih hs (fun n hn => hr n (mem_cons_of_mem _ hn)) rest1
            ((first.typeScopes trivial).trans htypes) rest2 htail)
    | function first before after rest1 => cases other
  | @function name signatures rest slot entries fs s s1 s' first others ih =>
    have hparts : ∀ node ∈ Node.symbol name :: signatures, node.Readable := fun node hnode =>
      Node.readable_list.mp (hr _ mem_cons_self) node (mem_cons_of_mem _ hnode)
    have hname : IsSymbol name := hparts (.symbol name) mem_cons_self
    cases hpasses with
    | instruction first1 kept rest1 => cases first1.isFunction_eq_false
    | @function _ _ _ _ _ es _ _ _ _ first1 before after rest1 =>
      cases hpasses' with
      | function first2 before2 after2 rest2 =>
        obtain ⟨_, _, hnode, htail, heq⟩ := nodes?_cons.mp hnodes'
        obtain ⟨rfl, rfl⟩ := cons.inj heq
        -- the node is written from the overloads, which begin as the signatures of the scan
        obtain ⟨front, back, hfront, hback, hlist⟩ := node?_rows.mp hnode
        cases hfront.symm.trans (nodes?_cons_some node?_keyword
          (nodes?_cons_some (node?_symbol hname) nodes?_nil))
        obtain rfl : back = _ := by simpa using hlist
        have hheads : (es.map (·.signature)).map (·.head) = entries.map (·.head) := by
          rw [map_map]
          exact (first.function_heads_eq first1 htypes).symm
        have hfirst := first.rescan_function
          ⟨hname, fun n hn => hparts n (mem_cons_of_mem _ hn)⟩ hs.selfNamed hheads hback
        exact .function hfirst (ih (hs.reads first hparts trivial)
          (fun n hn => hr n (mem_cons_of_mem _ hn)) rest1
          ((first1.typeScopes trivial).trans (htypes.trans (first.typeScopes trivial).symm))
          rest2 htail)

/-! ## §6. Modules -/

theorem documentNodes_cons_cons (first second : Node) (rest : List Node) :
    Read.documentNodes (first :: second :: rest) = first :: second :: rest := by
  simp [Read.documentNodes]

theorem Passes.documentNodes_eq (h : Passes cx done nodes tops s s') :
    Read.documentNodes nodes = nodes := by
  cases h with
  | nil all => rfl
  | @instruction _ node rest i tops s s1 s' first kept others =>
    cases rest with
    | nil =>
      rcases first.tagged with ⟨name, rfl⟩ | ⟨tag, rest, rfl, -⟩
      · rfl
      · rfl
    | cons second rest => exact documentNodes_cons_cons _ _ _
  | @function _ _ name signatures rest entries tops s s1 s' first before after others =>
    cases rest with
    | nil => rfl
    | cons second rest => exact documentNodes_cons_cons _ _ _

theorem Ready.noted (h : Ready cx s) (n : ReadNote) : Ready cx (s.noted n) :=
  ⟨h.selfNamed, h.rooted.of_eq rfl rfl, ⟨h.inStep.nodup, h.inStep.agree⟩, h.met⟩

/-- **A document is read back from its layout.** -/
theorem readDocument_reread {ir : List Instruction}
    (h : Yields (Read.readDocument scan nodes) s ir s') (hs : Ready ⟨none, none, s.symbols.depth⟩ s)
    (hempty : s.functions = []) (hnodes : Orderly nodes) (hr : ∀ node ∈ nodes, node.Readable)
    (hfloats : ∀ step ∈ walkModule ir, step.visit.Survives) :
    ∃ nodes', nodes? (ir.map (·.layout)) = some nodes' ∧ Read.documentNodes nodes' = nodes'
      ∧ Yields (Read.readDocument scan nodes') s ir s' := by
  obtain ⟨s1, items, s2, hscan, hitems, rfl, rfl⟩ := yields_readDocument.mp h
  -- what a scan has met awaits the reading
  have hscans : ∀ fs, Scans ⟨none, none, s.symbols.depth⟩ nodes fs
      (s.noted (.scanning nodes.length)) s1 → s1.functions = fs
        ∧ Ready ⟨none, none, s.symbols.depth⟩ s1
        ∧ s1.symbols.typeScopes = s.symbols.typeScopes := by
    intro fs hfs
    have hnone : (s.noted (.scanning nodes.length)).functions = [] := hempty
    have hnew : ∀ name ∈ nodes.filterMap (·.functionName?),
        name ∉ (s.noted (.scanning nodes.length)).functionNames := by
      simp [ReadState.functionNames, hnone]
    obtain ⟨hfunctions, hready, htypes⟩ := hfs.functions (hs.noted _) hnodes hr hnew
    rw [hnone, nil_append] at hfunctions
    exact ⟨hfunctions, hready, htypes⟩
  obtain ⟨hs1, hpending⟩ : Ready ⟨none, none, s.symbols.depth⟩ s1
      ∧ (s1.functions = [] ∨ ∃ t t', Scans ⟨none, none, s.symbols.depth⟩ nodes s1.functions t t'
        ∧ t.symbols.typeScopes = s1.symbols.typeScopes) := by
    cases scan with
    | false =>
      obtain rfl : s1 = s := hscan
      exact ⟨hs, .inl hempty⟩
    | true =>
      obtain ⟨fs, hfs⟩ := yields_scanPrototypes.mp hscan
      obtain ⟨rfl, hready, htypes⟩ := hscans fs hfs
      exact ⟨hready, .inr ⟨_, _, hfs, htypes.symm⟩⟩
  have hbefore : (s1.noted (.reading nodes.length)).functions = [] ++ s1.functions := rfl
  obtain ⟨tops, hpasses⟩ := passes_of_lists (yields_readItems.mp hitems) (hs1.noted _) hnodes hr
    hbefore (fun _ _ hmem => by cases hmem) hpending
  have hplaced : ∀ k ∈ ([] : List Nat), k < ([] : List Function).length := fun k hk => by cases hk
  obtain ⟨rfl, -⟩ := hitems.unique (yields_readItems.mpr (hpasses.lists hplaced))
  have hir : (Top.items 0 tops).filterMap (Read.resolve s2.functions)
      = tops.map (·.toInstruction) := by
    rw [hpasses.functions]
    exact Top.resolve_items [] tops
  rw [length_nil, hir] at hfloats ⊢
  obtain ⟨nodes', hnodes', hpasses'⟩ := hpasses.reread (hs1.noted _) hnodes hr hfloats
  have hlength : nodes'.length = nodes.length := hpasses'.length_eq.trans hpasses.length_eq.symm
  refine ⟨nodes', by rw [map_map]; exact hnodes', hpasses'.documentNodes_eq,
    yields_readDocument.mpr ⟨s1, Top.items 0 tops, s2, ?_, ?_, hir.symm, rfl⟩⟩
  · cases scan with
    | false => exact hscan
    | true =>
      obtain ⟨fs, hfs⟩ := yields_scanPrototypes.mp hscan
      rw [hlength]
      exact yields_scanPrototypes.mpr ⟨fs, hfs.rescan (hs.noted _) hr hpasses
        (hscans fs hfs).2.2 hpasses' hnodes'⟩
  · rw [hlength]
    exact yields_readItems.mpr (hpasses'.lists hplaced)

theorem readModule_reread {u : CompilationUnit} {text : String} {ir : List Instruction}
    (hu : Ready ⟨none, none, u.symbols.depth⟩ u.start)
    (hread : (readModule scan u text).outcome = .ok ir)
    (horderly : ∀ nodes, readExpressions text = .ok nodes → Orderly (Read.documentNodes nodes))
    (hfloats : ∀ step ∈ walkModule ir, step.visit.Survives) :
    readModule scan u (printModule ir) = readModule scan u text := by
  obtain ⟨nodes, s', hnodes, hyields⟩ := readModule_eq_ok hread
  have hreadable := readable_documentNodes (readExpressions_readable hnodes)
  obtain ⟨nodes', hnodes', hdocument, hyields'⟩ := readDocument_reread hyields hu rfl
    (horderly nodes hnodes) hreadable hfloats
  have hprinted : readExpressions (printModule ir) = .ok nodes' := by
    have hjoin := readExpressions_join hnodes'
    rw [map_map] at hjoin
    exact hjoin
  have hagain : Yields (Read.readDocument scan (Read.documentNodes nodes')) u.start ir s' := by
    rw [hdocument]
    exact hyields'
  rw [readModule_of_yields hprinted hagain, readModule_of_yields hnodes hyields]

theorem ready_start {u : CompilationUnit} (hnamed : u.symbols.SelfNamed)
    (hdepth : 1 ≤ u.symbols.depth) (hfunctions : ∀ b ∈ u.symbols.functionScopes, b = []) :
    Ready ⟨none, none, u.symbols.depth⟩ u.start := by
  have hopen : u.start.symbols.scopes ≠ [] := ne_nil_of_length_pos hdepth
  obtain ⟨hroot, hin⟩ := (steady_start u).of_ne_nil hopen
  refine ⟨hnamed, hroot, hin, ?_⟩
  intro name hname
  rw [SymbolTable.findFunction?_eq, findSome?_isSome_iff] at hname
  obtain ⟨b, hb, hfound⟩ := hname
  rw [hfunctions b hb] at hfound
  cases hfound

/-- **Reading undoes printing.**  If the floats of a module that was read from an orderly document
    survive being written, the text of the module gives the module back, with the same numbers of
    variables and loops, and leaves the unit in the same state and with the same notes. -/
theorem readModule_printModule (scan : Bool) (text : String) (ir : List Instruction)
    (hread : (readModule scan .fresh text).outcome = .ok ir)
    (horderly : ∀ nodes, readExpressions text = .ok nodes → Orderly (Read.documentNodes nodes))
    (hfloats : ∀ step ∈ walkModule ir, step.visit.Survives) :
    (readModule scan .fresh (printModule ir)).outcome = .ok ir
      ∧ readModule scan .fresh (printModule ir) = readModule scan .fresh text := by
  have hdepth : 1 ≤ CompilationUnit.fresh.symbols.depth := by decide +kernel
  have hfunctions : ∀ b ∈ CompilationUnit.fresh.symbols.functionScopes, b = [] := by decide +kernel
  have hnamed : CompilationUnit.fresh.symbols.SelfNamed := by
    dsimp only [CompilationUnit.fresh]
    exact SymbolTable.selfNamed_withBuiltins
  have hready := ready_start hnamed hdepth hfunctions
  have hsame := readModule_reread hready hread horderly hfloats
  exact ⟨by rw [hsame, hread], hsame⟩

/-- A function that calls another, which is defined further down, and a fraction that is written
    as an integer. -/
def forwardCall : String :=
  "(function f(signature float(parameters)((return(call g())))))" ++
  "(function g(signature float(parameters)((return(constant float(2))))))"

/-- The document is orderly, it is read with a scan, and its floats survive. -/
theorem readModule_printModule_forwardCall :
    ∃ ir, (readModule true .fresh forwardCall).outcome = .ok ir
      ∧ (readModule true .fresh (printModule ir)).outcome = .ok ir := by
  have hcheck : (match readExpressions forwardCall with
      | .ok nodes => decide (Orderly (Read.documentNodes nodes))
        && match ((Read.readDocument true (Read.documentNodes nodes)).run.run
              CompilationUnit.fresh.start).1 with
          | .ok ir => decide (∀ step ∈ walkModule ir, step.visit.Survives)
          | .error _ => false
      | .error _ => false) = true := by decide +kernel
  cases hnodes : readExpressions forwardCall with
  | error e =>
    rw [hnodes] at hcheck
    cases hcheck
  | ok nodes =>
    simp only [hnodes, Bool.and_eq_true, decide_eq_true_eq] at hcheck
    obtain ⟨horderly, hfloats⟩ := hcheck
    cases hrun : ((Read.readDocument true (Read.documentNodes nodes)).run.run
        CompilationUnit.fresh.start).1 with
    | error e =>
      rw [hrun] at hfloats
      cases hfloats
    | ok ir =>
      have hread : (readModule true .fresh forwardCall).outcome = .ok ir := by
        simp only [readModule, hnodes]
        exact hrun
      rw [hrun] at hfloats
      refine ⟨ir, hread, (readModule_printModule true forwardCall ir hread ?_
        (of_decide_eq_true hfloats)).1⟩
      intro nodes' hnodes'
      cases hnodes.symm.trans hnodes'
      exact horderly

end Shading
