/-
  Shading.Proofs.Read.Origin — where the blocks of a module come from.

  The bodies of functions are collected while other parts of the text are read, and stand in the
  module as they were collected.  Each of them, and each instruction of the top level, was read as a
  block of its own, and the overloads that were known then are there at the end.  So what holds of
  every block that is read holds all over a module, whatever was read in between.
-/
import Shading.Proofs.Read.Prototypes
import Shading.Proofs.RoundTrip.Names

namespace Shading

open List

variable {T : String → Ty → Prop} {N : String → String → Prop}

/-! ## §1. Blocks and the states they were read in -/

/-- The block was read outside of loops, where names were as `T` and `N` say, and the table has only
    grown since. -/
inductive Stems (T : String → Ty → Prop) (N : String → String → Prop) (table : SymbolTable)
    (block : List Instruction) : Prop
  | intro {cx : Context} {nodes : List Node} {s s' : ReadState}
      (reads : Reads cx (.instructions nodes block) s s') (outer : cx.enclosing = none)
      (readable : ∀ node ∈ nodes, node.Readable) (names : s.symbols.Names T N)
      (steady : s.Steady cx.globalDepth) (grows : s'.symbols.Grows table) :
      Stems T N table block

theorem Stems.grown {t u : SymbolTable} {block : List Instruction} (h : Stems T N t block)
    (hgrows : t.Grows u) : Stems T N u block := by
  cases h with
  | intro reads outer readable names steady grows =>
    exact .intro reads outer readable names steady (grows.trans hgrows)

/-- All bodies that were collected were read. -/
def ReadState.Bodies (T : String → Ty → Prop) (N : String → String → Prop) (s : ReadState) : Prop :=
  s.Overloads fun _ sig => Stems T N s.symbols sig.body

/-- The state is one that reading comes to: functions and prototypes are in step, names are as `T`
    and `N` say, and all bodies were read. -/
structure ReadState.Collects (T : String → Ty → Prop) (N : String → String → Prop) (d : Nat)
    (s : ReadState) : Prop where
  steady : s.Steady d
  names : s.symbols.Names T N
  bodies : s.Bodies T N

variable {cx : Context} {s s' : ReadState} {d : Nat}

/-- The empty block can be read anywhere. -/
theorem ReadState.Collects.nil (hs : s.Collects T N d) : Stems T N s.symbols [] :=
  @Stems.intro T N _ _ ⟨none, none, d⟩ [] s s .nil rfl (by simp) hs.names hs.steady (.refl _)

theorem CompilationUnit.collects_start {u : CompilationUnit} (hu : u.symbols.Names T N) :
    u.start.Collects T N u.symbols.depth :=
  ⟨steady_start u, hu, nofun⟩

theorem grows_closed (hs : s.Rooted d) (h : Evolves d s.opened s') :
    s'.symbols.Grows s'.closed.symbols :=
  .of_eq (h.rooted.findFunction?_closed h.length hs)

namespace ReadState.Bodies

theorem grown {t : SymbolTable} (h : s.Bodies T N) (hgrows : s.symbols.Grows t) :
    s.Overloads fun _ sig => Stems T N t sig.body :=
  ReadState.Overloads.mono h fun _ _ hsig => hsig.grown hgrows

theorem mono (h : s.Bodies T N) (hfunctions : s'.functions = s.functions)
    (hgrows : s.symbols.Grows s'.symbols) : s'.Bodies T N := by
  unfold Bodies Overloads
  rw [hfunctions]
  exact h.grown hgrows

theorem slot (hs : s.Collects T N d) (cx : Context) (name : String)
    (hgrows : s.symbols.Grows (s.slot cx name).2.symbols) : (s.slot cx name).2.Bodies T N := by
  refine (hs.bodies.grown hgrows).slot cx name ?_
  intro sig hbody
  rw [hbody]
  exact hs.nil.grown hgrows

variable {slot index : Nat} {name : String}

/-- The head of a signature leaves all bodies as they are. -/
theorem header {declarations : List Node} {parameters : List Var} {returnType : Ty}
    {s1 s2 : ReadState} (hs : s.Collects T N cx.globalDepth) (hplace : s.Places slot name)
    (hroot : s.Rooted cx.globalDepth) (hin : s.InStep)
    (hdecl : Declares cx declarations parameters s.opened s1)
    (hreg : Registers slot name returnType parameters index s1 s2) :
    s2.Bodies T N ∧ Evolves cx.globalDepth s.opened s2 ∧ s2.Places slot name := by
  have hopened : s.opened.Places slot name := hplace
  obtain ⟨hevolves, hplace2⟩ := (evolves_frame cx.globalDepth).header hopened hdecl hreg
  have hevolves2 := hevolves hroot.opened ⟨hin.nodup, hin.agree⟩
  have hgrows : s.symbols.Grows s2.symbols :=
    SymbolTable.Grows.trans (.of_eq fun _ => rfl) hevolves2.grows
  have hdeclared : s1.Overloads fun _ sig => Stems T N s2.symbols sig.body := by
    unfold Overloads
    rw [functions_declares hdecl]
    exact hs.bodies.grown hgrows
  exact ⟨hdeclared.registers hreg (fun _ _ hsig => hsig) fun _ => hs.nil.grown hgrows, hevolves2,
    hplace2⟩

theorem complete {body : List Instruction} (h : s.Bodies T N)
    (hgrows : s.symbols.Grows (s.complete slot name index body).symbols)
    (hbody : Stems T N s.symbols body) : (s.complete slot name index body).Bodies T N := by
  refine (h.grown hgrows).onFunction ?_
  intro other sigs hsigs sig hsig
  obtain hsig | ⟨old, -, rfl⟩ := mem_modify hsig
  · exact hsigs sig hsig
  · exact hbody.grown hgrows

end ReadState.Bodies

/-! ## §2. Reading collects what it reads -/

variable {reading : Reading} (hN : ∀ name, IsSymbol name → N name name)

include hN

theorem Reads.collects_of (h : Reads cx reading s s') (hr : reading.Readable)
    (hplaced : reading.Placed s) (hs : s.Collects T N cx.globalDepth) (hbodies : s'.Bodies T N) :
    s'.Collects T N cx.globalDepth :=
  ⟨(h.steady hplaced hs.steady).1, h.names hN hr hs.names, hbodies⟩

/-- **Every body stems from the text**, by induction over the derivation. -/
theorem Reads.bodies (h : Reads cx reading s s') (hr : reading.Readable)
    (hplaced : reading.Placed s) (hs : s.Collects T N cx.globalDepth) : s'.Bodies T N := by
  induction h with
  | declare declaration =>
    exact hs.bodies.mono rfl ((Reads.declare declaration).steady trivial hs.steady).2
  | function inner ih =>
    have hparts := Node.readable_list.mp hr
    exact ih (forall_mem_cons.mp hparts).2 trivial hs
  | branch value first second ih1 ih2 =>
    simp only [Reading.Readable, Node.readable_list, forall_mem_cons] at hr
    obtain ⟨-, -, hthen, helse, -⟩ := hr
    exact ih2 helse trivial (first.collects_of hN hthen trivial hs (ih1 hthen trivial hs))
  | loop header inner ih =>
    simp only [Reading.Readable, Node.readable_list, forall_mem_cons] at hr
    obtain ⟨-, -, -, -, -, hnodes, -⟩ := hr
    exact ih hnodes trivial ⟨hs.steady.of_symbols rfl rfl, hs.names, hs.bodies⟩
  | jump | assign | ret | rvalue | nil | noMore => exact hs.bodies
  | cons first others ih1 ih2 =>
    obtain ⟨hnode, hrest⟩ := forall_mem_cons.mp hr
    exact ih2 hrest trivial (first.collects_of hN hnode trivial hs (ih1 hnode trivial hs))
  | @overloads cx s s1 s' scan name first rest slot entries place inner ih =>
    obtain ⟨rfl, rfl⟩ := Prod.mk.inj place
    obtain ⟨hname, hnodes⟩ := forall_mem_cons.mp hr
    have hopen := scopes_ne_nil_of_overloads inner
    obtain ⟨hroot, hin⟩ := hs.steady.of_ne_nil hopen
    have hevolves := (evolves_frame cx.globalDepth).slot s cx name rfl hopen hroot hin
    exact ih ⟨hname, hnodes⟩ (places_slot s cx name) ⟨.inr ⟨hevolves.rooted, hevolves.inStep⟩,
      ReadState.names_slot hN hs.names hname hopen, .slot hs cx name hevolves.grows⟩
  | more first others ih1 ih2 =>
    obtain ⟨hname, hnodes⟩ := hr
    obtain ⟨hnode, hrest⟩ := forall_mem_cons.mp hnodes
    have hs1 := first.collects_of hN ⟨hname, hnode⟩ hplaced hs (ih1 ⟨hname, hnode⟩ hplaced hs)
    exact ih2 ⟨hname, hrest⟩ (ReadState.Places.of_prefix hplaced first.functionNames_prefix) hs1
  | prototype type declares registers silent =>
    obtain ⟨hroot, hin⟩ := hs.steady.of_ne_nil (scopes_ne_nil_of_readType type)
    obtain ⟨hbodies2, hevolves, -⟩ :=
      ReadState.Bodies.header hs hplaced hroot hin declares registers
    exact hbodies2.mono rfl (grows_closed hroot hevolves)
  | @definition cx s s1 s2 s3 slot name ty declarations nodes returnType parameters index body type
      declares registers nonempty undefined inner bound ih =>
    obtain ⟨hdeclarations, hnodes⟩ := readable_signature hr.2
    obtain ⟨hroot, hin⟩ := hs.steady.of_ne_nil (scopes_ne_nil_of_readType type)
    obtain ⟨hbodies2, hevolves2, hplace2⟩ :=
      ReadState.Bodies.header hs hplaced hroot hin declares registers
    have hsteady2 : s2.Steady cx.globalDepth := .inr ⟨hevolves2.rooted, hevolves2.inStep⟩
    have hnames2 : s2.symbols.Names T N := ReadState.names_registers registers
      (ReadState.names_declares hN declares hdeclarations hs.names.push)
    have hbodies3 := ih hnodes trivial ⟨hsteady2, hnames2, hbodies2⟩
    have hbody : Stems T N s3.symbols body := .intro inner rfl hnodes hnames2 hsteady2 (.refl _)
    have hevolves3 := reads_grow inner trivial hevolves2.rooted hevolves2.inStep
    have hplace3 := hplace2.of_prefix inner.functionNames_prefix
    have hevolves4 := (evolves_frame cx.globalDepth).complete s3 slot name index body hplace3 bound
      hevolves3.rooted hevolves3.inStep
    have hall : Evolves cx.globalDepth s.opened (s3.complete slot name index body) :=
      ⟨hevolves4.rooted, hevolves4.length.trans (hevolves3.length.trans hevolves2.length),
        hevolves4.inStep, (hevolves2.grows.trans hevolves3.grows).trans hevolves4.grows⟩
    exact (hbodies3.complete hevolves4.grows hbody).mono rfl (grows_closed hroot hall)

theorem Reads.collects (h : Reads cx reading s s') (hr : reading.Readable)
    (hplaced : reading.Placed s) (hs : s.Collects T N cx.globalDepth) :
    s'.Collects T N cx.globalDepth :=
  h.collects_of hN hr hplaced hs (h.bodies hN hr hplaced hs)

/-! ## §3. Modules -/

variable {nodes : List Node}

theorem Scans.collects {fs : List Function} (h : Scans cx nodes fs s s')
    (hnodes : ∀ node ∈ nodes, node.Readable) (hs : s.Collects T N cx.globalDepth) :
    s'.Collects T N cx.globalDepth := by
  induction h with
  | nil s => exact hs
  | skip other others ih => exact ih (forall_mem_cons.mp hnodes).2 hs
  | function first others ih =>
    obtain ⟨hnode, hrest⟩ := forall_mem_cons.mp hnodes
    have hparts := (forall_mem_cons.mp (Node.readable_list.mp hnode)).2
    exact ih hrest (first.collects hN hparts trivial hs)

theorem Lists.stems {placed : List Nat} {seen : Nat} {items : List Item}
    (h : Lists cx placed seen nodes items s s') (houter : cx.enclosing = none)
    (hnodes : ∀ node ∈ nodes, node.Readable) (hs : s.Collects T N cx.globalDepth) :
    s.symbols.Grows s'.symbols ∧ s'.Collects T N cx.globalDepth
      ∧ ∀ i, Item.instruction i ∈ items → Stems T N s'.symbols [i] := by
  induction h with
  | nil => exact ⟨.refl _, hs, nofun⟩
  | @cons placed fresh seen node rest i top items s s1 s' first met others ih =>
    obtain ⟨hnode, hrest⟩ := forall_mem_cons.mp hnodes
    obtain ⟨hgrows, hs', hitems⟩ := ih hrest (first.reads.collects hN hnode trivial hs)
    refine ⟨(first.reads.steady trivial hs.steady).2.trans hgrows, hs', fun j hj => ?_⟩
    rcases Item.instruction_mem.mp hj with rfl | hj
    · have hblock : Reads cx (.instructions [node] [j]) s s1 := Reads.cons first.reads .nil
      exact .intro hblock houter (forall_mem_singleton.mpr hnode) hs.names hs.steady hgrows
    · exact hitems j hj

/-- **Every instruction of a module is a block that was read, or a function whose bodies are.** -/
theorem stems_of_readDocument {scan : Bool} {ir : List Instruction}
    (h : ReadM.Yields (Read.readDocument scan nodes) s ir s')
    (hnodes : ∀ node ∈ nodes, node.Readable) (hs : s.Collects T N s.symbols.depth) :
    ∀ i ∈ ir, Stems T N s'.symbols [i] ∨ ∃ name sigs, i = .function name sigs
      ∧ ∀ sig ∈ sigs, Stems T N s'.symbols sig.body := by
  obtain ⟨s1, items, s2, hscan, hitems, rfl, rfl⟩ := yields_readDocument.mp h
  have hnoted : ∀ (t : ReadState) (note : ReadNote), t.Collects T N s.symbols.depth →
      (t.noted note).Collects T N s.symbols.depth :=
    fun t note ht => ⟨ht.steady.of_symbols rfl rfl, ht.names, ht.bodies⟩
  have hs1 : s1.Collects T N s.symbols.depth := by
    cases scan with
    | false => exact hscan ▸ hs
    | true =>
      obtain ⟨fs, hfs⟩ := yields_scanPrototypes.mp hscan
      exact hfs.collects hN hnodes (hnoted s _ hs)
  obtain ⟨-, hs2, hinstructions⟩ :=
    (yields_readItems.mp hitems).stems hN rfl hnodes (hnoted s1 _ hs1)
  intro i hi
  obtain ⟨item, hitem, hresolve⟩ := mem_filterMap.mp hi
  cases item with
  | instruction j =>
    cases hresolve
    exact .inl (hinstructions _ hitem)
  | function slot =>
    obtain ⟨f, hf, rfl⟩ := Option.map_eq_some_iff.mp hresolve
    exact .inr ⟨f.name, f.signatures, rfl, hs2.bodies f (mem_of_getElem? hf)⟩

end Shading
