/-
  Shading.Proofs.Scan.Agreement — a scan only makes calls known in advance.

  A module whose functions stand at its top level and that is read without a scan is also read with
  one.  The scan makes variables of its own, for the parameters that it meets, so the variables of
  the module are numbered higher; everything else is the same.
-/
import Shading.Proofs.Scan.Columns
import Shading.Proofs.Scan.Owned

namespace Shading

open List

/-! ## §1. Prototypes with replaced variables -/

/-- The overload with its parameters replaced. -/
def Overload.substitute (f : Var → Var) (o : Overload) : Overload :=
  { o with parameters := o.parameters.map f }

/-- The prototype with its parameters replaced. -/
def Prototype.substitute (f : Var → Var) (p : Prototype) : Prototype :=
  { p with overloads := p.overloads.map (·.substitute f) }

theorem Prototype.length_heads (p : Prototype) : p.heads.length = p.overloads.length :=
  length_map _

section

variable {f : Var → Var} {t u : SymbolTable} {name : String}

/-- A prototype ahead is the one behind, renumbered. -/
theorem findFunction?_substitute (hkey : u.key? name = t.key? name)
    (hdefined : ∀ i, u.definedAt name i = t.definedAt name i)
    (hparameters : ∀ i, u.parametersAt name i = (t.parametersAt name i).map f) :
    u.findFunction? name = (t.findFunction? name).map (·.substitute f) := by
  cases hp : t.findFunction? name with
  | none =>
    rw [SymbolTable.key?, SymbolTable.key?, hp] at hkey
    exact Option.map_eq_none_iff.mp hkey
  | some p =>
    obtain ⟨q, hq, hname, hheads⟩ := SymbolTable.exists_of_key? hkey hp
    have hlen : q.overloads.length = p.overloads.length := by
      rw [← q.length_heads, hheads, p.length_heads]
    have hat : ∀ i, t.overloadAt? name i = p.overloads[i]? := fun i => by
      rw [SymbolTable.overloadAt?, hp]
      rfl
    have hat' : ∀ i, u.overloadAt? name i = q.overloads[i]? := fun i => by
      rw [SymbolTable.overloadAt?, hq]
      rfl
    have hoverloads : q.overloads = p.overloads.map (·.substitute f) := by
      apply ext_getElem?
      intro i
      rw [getElem?_map]
      cases ho : p.overloads[i]? with
      | none =>
        have hge := List.getElem?_eq_none_iff.mp ho
        rw [getElem?_eq_none (by omega)]
        rfl
      | some o =>
        have hlt : i < q.overloads.length := by
          rw [hlen]
          exact (List.getElem?_eq_some_iff.mp ho).1
        have ho' := getElem?_eq_getElem hlt
        have hhead : q.heads[i]? = p.heads[i]? := by rw [hheads]
        have hdef := hdefined i
        have hpar := hparameters i
        rw [Prototype.heads, Prototype.heads, getElem?_map, getElem?_map, ho, ho']
          at hhead
        rw [SymbolTable.definedAt, SymbolTable.definedAt, hat, hat', ho, ho'] at hdef
        rw [SymbolTable.parametersAt, SymbolTable.parametersAt, hat, hat', ho, ho'] at hpar
        have hreturn := congrArg Head.returnType (Option.some.inj hhead)
        rw [ho']
        refine congrArg some ?_
        cases hcases : q.overloads[i] with
        | mk returnType parameters isDefined =>
          rw [hcases] at hreturn hdef hpar
          cases hreturn
          cases hdef
          cases hpar
          rfl
    rw [hq, Option.map_some]
    refine congrArg some ?_
    cases q with
    | mk name' overloads =>
      cases hname
      cases hoverloads
      rfl

end

/-! ## §2. Where both readings end -/

/-- The function with its variables replaced. -/
def Function.substitute (f : Var → Var) (k : Function) : Function :=
  ⟨k.name, Signature.substituteAll f id k.signatures⟩

theorem Signature.substituteAll_eq_map (f : Var → Var) (g : LoopId → LoopId)
    (sigs : List Signature) :
    Signature.substituteAll f g sigs = sigs.map (·.substitute f g) := by
  induction sigs with
  | nil => rfl
  | cons sig rest ih => exact congrArg (sig.substitute f g :: ·) ih

theorem Signature.eq_substitute {f : Var → Var} {sig sig' : Signature}
    (hoverload : sig'.overload = sig.overload.substitute f)
    (hbody : sig'.body = Instruction.substituteAll f id sig.body) :
    sig' = sig.substitute f id := by
  cases sig with
  | mk returnType parameters body isDefined =>
    cases sig' with
    | mk returnType' parameters' body' isDefined' =>
      cases hoverload
      cases hbody
      rfl

variable {name : String}

section

variable {d first ahead : Nat} {g b : ReadState}

theorem Tracks.findFunction? (h : Tracks d first ahead g g b) (name : String) :
    b.symbols.findFunction? name
      = (g.symbols.findFunction? name).map (·.substitute (Var.shift first ahead)) :=
  findFunction?_substitute (h.trails.keys name) (h.trails.defined name) fun i =>
    (h.trails.parameters name i).resolve_right fun hne => hne rfl

/-- Signatures ahead are those behind, renumbered. -/
theorem Tracks.signatures_eq (h : Tracks d first ahead g g b) {slot : Nat}
    (hplace : g.Places slot name) (hplace' : b.Places slot name) :
    b.signatures slot = Signature.substituteAll (Var.shift first ahead) id (g.signatures slot) := by
  obtain ⟨p, hp⟩ := h.inStep.exists_prototype hplace
  have hp' := h.findFunction? name
  rw [hp, Option.map_some] at hp'
  rw [Signature.substituteAll_eq_map]
  apply ext_getElem?
  intro i
  have hoverloads := h.inStep'.getElem? hplace' hp' i
  have hbodies := h.trails.bodies slot i
  rw [Prototype.substitute, getElem?_map, h.inStep.getElem? hplace hp i] at hoverloads
  rw [ReadState.bodyAt, ReadState.bodyAt] at hbodies
  rw [getElem?_map]
  cases hsig : (g.signatures slot)[i]? with
  | none =>
    rw [hsig] at hoverloads
    exact Option.map_eq_none_iff.mp hoverloads.symm
  | some sig =>
    rw [hsig] at hoverloads hbodies
    obtain ⟨sig', hsig', hoverload⟩ := Option.map_eq_some_iff.mp hoverloads.symm
    rw [hsig'] at hbodies ⊢
    exact congrArg some (Signature.eq_substitute hoverload hbodies)

theorem Tracks.functions (h : Tracks d first ahead g g b) :
    b.functions = g.functions.map (·.substitute (Var.shift first ahead)) := by
  apply ext_getElem?
  intro slot
  have hnames : b.functions[slot]?.map (·.name) = g.functions[slot]?.map (·.name) := by
    rw [← getElem?_map, ← getElem?_map]
    exact congrArg (·[slot]?) h.trails.names
  rw [getElem?_map]
  cases hk : g.functions[slot]? with
  | none =>
    rw [hk] at hnames
    exact Option.map_eq_none_iff.mp hnames
  | some k =>
    rw [hk] at hnames
    obtain ⟨k', hk', hname⟩ := Option.map_eq_some_iff.mp hnames
    have hplace : g.Places slot k.name := by rw [ReadState.Places, hk, Option.map_some]
    have hplace' : b.Places slot k.name := by
      rw [ReadState.Places, hk', Option.map_some, hname]
    have hsigs := h.signatures_eq hplace hplace'
    rw [ReadState.signatures, ReadState.signatures, hk, hk'] at hsigs
    rw [hk']
    refine congrArg some ?_
    cases k' with
    | mk name' signatures' =>
      cases hname
      cases hsigs
      rfl

end

theorem resolve_substitute (f : Var → Var) (fs : List Function) (item : Item) :
    Read.resolve (fs.map (·.substitute f)) (item.substitute f)
      = (Read.resolve fs item).map (·.substitute f id) := by
  cases item with
  | instruction i => rfl
  | function slot =>
    show (fs.map (·.substitute f))[slot]?.map (·.toInstruction)
      = (fs[slot]?.map (·.toInstruction)).map (·.substitute f id)
    rw [getElem?_map, Option.map_map, Option.map_map]
    rfl

theorem filterMap_resolve_substitute (f : Var → Var) (fs : List Function) (items : List Item) :
    (items.map (·.substitute f)).filterMap (Read.resolve (fs.map (·.substitute f)))
      = Instruction.substituteAll f id (items.filterMap (Read.resolve fs)) := by
  induction items with
  | nil => rfl
  | cons item rest ih =>
    rw [map_cons, filterMap_cons, filterMap_cons, ih, resolve_substitute]
    cases Read.resolve fs item with
    | none | some => rfl

/-! ## §3. Tables that bind the same names -/

/-- The second scope binds the names that the first one binds, to the same types, and to variables and
    functions with variables replaced. -/
structure Scope.Alike (f : Var → Var) (a b : Scope) : Prop where
  types : ∀ name, b.types.find? name = a.types.find? name
  vars : ∀ name, b.vars.find? name = (a.vars.find? name).map f
  functions : ∀ name, b.functions.find? name = (a.functions.find? name).map (·.substitute f)

/-- The tables have as many scopes, and these bind the same names. -/
structure SymbolTable.Alike (f : Var → Var) (t u : SymbolTable) : Prop where
  depth : u.depth = t.depth
  scopes : ∀ (i : Nat) (a b : Scope), t.scopes[i]? = some a → u.scopes[i]? = some b → a.Alike f b

theorem Pinned.eq_map {d : Nat} {col col1 col2 : List (Option Prototype)} (h1 : Pinned d col col1)
    (h2 : Pinned d col col2) {f : Prototype → Prototype} (hold : ∀ o ∈ col, o.map f = o)
    (hseen : col2.findSome? id = (col1.findSome? id).map f) : col2 = col1.map (·.map f) := by
  apply ext_getElem?
  intro i
  rw [getElem?_map]
  by_cases hi : i = pin d col
  · rw [findSome?_eq_pin d, findSome?_eq_pin d, h1.place, h2.place, ← hi] at hseen
    cases hget : col1[i]? with
    | none =>
      rw [List.getElem?_eq_none_iff] at hget
      have hle : col2.length ≤ i := by rw [h2.length, ← h1.length]; exact hget
      rw [getElem?_eq_none hle]
      rfl
    | some o =>
      have hlt : i < col2.length := by
        rw [h2.length, ← h1.length]
        exact (List.getElem?_eq_some_iff.mp hget).1
      have hget' := getElem?_eq_getElem hlt
      rw [hget, hget'] at hseen
      rw [hget']
      exact congrArg some hseen
  · rw [h1.others i hi, h2.others i hi]
    cases hget : col[i]? with
    | none => rfl
    | some o => exact congrArg some (hold o (mem_of_getElem? hget)).symm

/-- Tables with alike columns are alike. -/
theorem SymbolTable.alike_of_columns {f : Var → Var} {t u : SymbolTable}
    (htypes : u.typeScopes = t.typeScopes)
    (hvars : u.varScopes = t.varScopes.map (·.mapValues f))
    (hcolumns : ∀ name, u.column name = (t.column name).map (·.map (·.substitute f))) :
    t.Alike f u := by
  refine ⟨?_, ?_⟩
  · show u.scopes.length = t.scopes.length
    rw [← length_typeScopes, htypes, length_typeScopes]
  · intro i a b ha hb
    refine ⟨?_, ?_, ?_⟩
    · have htype : u.typeScopes[i]? = t.typeScopes[i]? := by rw [htypes]
      rw [typeScopes, typeScopes, getElem?_map, getElem?_map, ha, hb] at htype
      exact fun name => congrArg (·.find? name) (Option.some.inj htype)
    · intro name
      have hvar : u.varScopes[i]? = t.varScopes[i]?.map (·.mapValues f) := by
        rw [hvars, getElem?_map]
      rw [varScopes, varScopes, getElem?_map, getElem?_map, ha, hb] at hvar
      have heq : b.vars = a.vars.mapValues f := Option.some.inj hvar
      rw [heq, Bindings.find?_mapValues]
    · intro name
      have hcolumn : (u.column name)[i]? = (t.column name)[i]?.map (·.map (·.substitute f)) := by
        rw [hcolumns, getElem?_map]
      rw [column, column, getElem?_map, getElem?_map, ha, hb] at hcolumn
      exact Option.some.inj hcolumn

/-! ## §4. Variables made before -/

variable {ahead : Nat}

theorem Var.shift_of_lt {first : Nat} {v : Var} (h : v.id < first) : v.shift first ahead = v := by
  show (⟨shifted first ahead v.id, v.value⟩ : Var) = v
  rw [shifted_of_lt h]

theorem map_shift_of_lt {first : Nat} {vs : List Var} (h : ∀ v ∈ vs, v.id < first) :
    vs.map (Var.shift first ahead) = vs := by
  rw [map_congr_left fun v hv => Var.shift_of_lt (h v hv), map_id']

namespace CompilationUnit.Owned

variable {u : CompilationUnit}

theorem varScopes (h : u.Owned) (ahead : Nat) :
    u.symbols.varScopes.map (·.mapValues (Var.shift u.storage.vars.issued ahead))
      = u.symbols.varScopes := by
  refine (map_congr_left fun b hb => ?_).trans (map_id _)
  refine (map_congr_left fun entry hentry => ?_).trans (map_id _)
  rw [Var.shift_of_lt (h.vars b hb entry hentry)]
  rfl

theorem of_column (h : u.Owned) {p : Prototype} (hp : some p ∈ u.symbols.column name) :
    p.Below u.storage.vars.issued := by
  rw [column_eq] at hp
  obtain ⟨b, hb, hfind⟩ := mem_map.mp hp
  exact h.functions b hb _ (Bindings.mem_of_find? hfind)

theorem column (h : u.Owned) (ahead : Nat) (name : String) :
    ∀ o ∈ u.symbols.column name,
      o.map (·.substitute (Var.shift u.storage.vars.issued ahead)) = o := by
  intro o ho
  cases o with
  | none => rfl
  | some p =>
    have hoverloads : p.overloads.map (·.substitute (Var.shift u.storage.vars.issued ahead))
        = p.overloads := by
      refine (map_congr_left fun o hmem => ?_).trans (map_id _)
      rw [Overload.substitute, map_shift_of_lt (h.of_column ho o hmem)]
      rfl
    rw [Option.map_some, Prototype.substitute, hoverloads]

theorem parametersAt (h : u.Owned) (name : String) (i : Nat) :
    ∀ v ∈ u.symbols.parametersAt name i, v.id < u.storage.vars.issued := by
  intro v hv
  rw [SymbolTable.parametersAt] at hv
  cases ho : u.symbols.overloadAt? name i with
  | none =>
    rw [ho] at hv
    exact absurd hv not_mem_nil
  | some o =>
    rw [ho] at hv
    obtain ⟨p, hp, hget⟩ := Option.bind_eq_some_iff.mp ho
    rw [SymbolTable.findFunction?_eq_column] at hp
    obtain ⟨o', hmem, hid⟩ := exists_of_findSome?_eq_some hp
    cases hid
    exact h.of_column hmem o (mem_of_getElem? hget) v hv

end CompilationUnit.Owned

/-! ## §5. After the scan -/

variable {cx : Context} {nodes : List Node} {s s' : ReadState}

theorem Declares.loops {vs : List Var} (h : Declares cx nodes vs s s') :
    s'.storage.loops = s.storage.loops := by
  induction h with
  | nil s => rfl
  | cons head others ih => exact ih

theorem Reads.loops_scan {slot : Nat} {entries : List Entry}
    (h : Reads cx (.signatures true slot name nodes entries) s s') :
    s'.storage.loops = s.storage.loops := by
  induction nodes generalizing entries s with
  | nil =>
    cases h
    rfl
  | cons node rest ih =>
    cases h with
    | more head others =>
      rw [ih others]
      cases head with
      | prototype type declares registers silent =>
        show _ = s.opened.storage.loops
        rw [← declares.loops, ← registers.data.1]
        rfl

theorem Scans.storage {fs : List Function} (h : Scans cx nodes fs s s') :
    s'.storage.loops = s.storage.loops ∧ s.storage.vars.issued ≤ s'.storage.vars.issued := by
  induction h with
  | nil s => exact ⟨rfl, Nat.le_refl _⟩
  | skip other others ih => exact ih
  | @function name signatures rest slot entries fs s s1 s' head others ih =>
    refine ⟨ih.1.trans ?_, Nat.le_trans (head.issued_le trivial) ih.2⟩
    cases head with
    | @overloads _ _ s0 _ _ _ _ _ _ _ place inner =>
      have hs0 : (s.slot cx name).2 = s0 := by rw [place]
      rw [inner.loops_scan, ← hs0, storage_slot]

theorem ReadState.Bodiless.bodyAt (h : s.Bodiless) (slot i : Nat) : s.bodyAt slot i = [] := by
  unfold ReadState.bodyAt ReadState.signatures
  cases hk : s.functions[slot]? with
  | none => rfl
  | some k =>
    show ((k.signatures[i]?).map (·.body)).getD [] = []
    cases hsig : k.signatures[i]? with
    | none => rfl
    | some sig => exact h k (mem_of_getElem? hk) sig (mem_of_getElem? hsig)

section

variable {u : CompilationUnit} {g s : ReadState}

theorem steady_noted (hopen : u.symbols.scopes ≠ []) (n : ReadNote) :
    (u.start.noted n).Rooted u.symbols.depth ∧ (u.start.noted n).InStep := by
  have hsteady : (u.start.noted n).Steady u.symbols.depth :=
    (steady_start u).of_symbols rfl rfl
  exact hsteady.of_ne_nil hopen

theorem abreast_start (hopen : u.symbols.scopes ≠ []) (howned : u.Owned) (n n' : ReadNote) :
    Abreast u.symbols.depth u.storage.vars.issued u.symbols (u.start.noted n)
      (u.start.noted n') := by
  obtain ⟨hrooted, hin⟩ := steady_noted hopen n
  obtain ⟨hrooted', hin'⟩ := steady_noted hopen n'
  exact ⟨⟨rfl, fun _ => rfl, fun _ _ => rfl, fun _ _ => .inl rfl⟩, rfl, Nat.le_refl _, hrooted, hin,
    hrooted', hin', howned.parametersAt⟩

/-- Both readings start from tables that track each other. -/
theorem tracks_start (hopen : u.symbols.scopes ≠ []) (howned : u.Owned) (n n' : ReadNote)
    (habreast : Abreast u.symbols.depth u.storage.vars.issued u.symbols g s) (hbodies : s.Bodiless)
    (htypes : s.symbols.typeScopes = u.symbols.typeScopes)
    (hvars : s.symbols.varScopes = u.symbols.varScopes)
    (hloops : s.storage.loops = u.storage.loops)
    (hissued : u.storage.vars.issued ≤ s.storage.vars.issued) :
    Tracks u.symbols.depth u.storage.vars.issued
      (s.storage.vars.issued - u.storage.vars.issued) g (u.start.noted n) (s.noted n') := by
  obtain ⟨hrooted, hin⟩ := steady_noted hopen n
  refine ⟨⟨habreast.shadows.names, habreast.shadows.keys, habreast.shadows.defined, ?_, ?_⟩,
    ⟨Nat.le_refl _, ?_, hloops, htypes, ?_⟩, hrooted, hin, habreast.rooted'.of_eq rfl rfl,
    ⟨habreast.inStep'.nodup, habreast.inStep'.agree⟩⟩
  · intro name i
    rcases habreast.shadows.parameters name i with heq | hne
    · refine .inl (heq.trans ?_)
      exact (map_shift_of_lt (howned.parametersAt name i)).symm
    · exact .inr hne.symm
  · exact hbodies.bodyAt
  · show s.storage.vars.issued = u.storage.vars.issued + _
    omega
  · exact hvars.trans (howned.varScopes _).symm

end

/-! ## §6. Modules -/

/-- No function stands in another instruction of the document. -/
def FlatDocument (nodes : List Node) : Prop :=
  ∀ node ∈ nodes, node.isFlat = true ∧ ∀ sig ∈ node.signatureNodes, sig.isFlatSignature = true

instance (nodes : List Node) : Decidable (FlatDocument nodes) :=
  inferInstanceAs (Decidable (∀ node ∈ nodes, _ ∧ _))

theorem flatDocument_of_check {text : String}
    (h : ((readExpressions text).toOption.any fun nodes =>
      decide (FlatDocument (Read.documentNodes nodes))) = true) (nodes : List Node)
    (hnodes : readExpressions text = .ok nodes) : FlatDocument (Read.documentNodes nodes) := by
  rw [hnodes] at h
  exact of_decide_eq_true h

section

variable {u : CompilationUnit} {nodes : List Node} {items : List Item} {g : ReadState}

theorem exists_scanned_reading (hopen : u.symbols.scopes ≠ []) (howned : u.Owned)
    (hflat : FlatDocument nodes) {n : ReadNote}
    (hlists : Lists ⟨none, none, u.symbols.depth⟩ [] 0 nodes items (u.start.noted n) g)
    (n' n'' : ReadNote) :
    ∃ fs s ahead b, Scans ⟨none, none, u.symbols.depth⟩ nodes fs (u.start.noted n') s
      ∧ Lists ⟨none, none, u.symbols.depth⟩ [] s.functions.length nodes
        (items.map (·.substitute (Var.shift u.storage.vars.issued ahead))) (s.noted n'') b
      ∧ Tracks u.symbols.depth u.storage.vars.issued ahead g g b
      ∧ ∀ name, Pinned u.symbols.depth (u.symbols.column name) (b.symbols.column name) := by
  obtain ⟨fs, s, hscans, habreast⟩ := hlists.scans hflat (abreast_start hopen howned n n')
  obtain ⟨hrooted, hin⟩ := steady_noted hopen n'
  have hbodies : (u.start.noted n').Bodiless := nofun
  obtain ⟨-, hbodies, htypes, hvars⟩ := hscans.bodiless (.inr ⟨hrooted, hin⟩) hbodies
  obtain ⟨hloops, hissued⟩ := hscans.storage
  have hstart := tracks_start hopen howned n n'' habreast hbodies htypes hvars hloops hissued
  obtain ⟨b, hlists', hend⟩ := hlists.tracks rfl hflat hstart
  refine ⟨fs, s, _, b, hscans, hlists', hend, ?_⟩
  intro name
  have hpinned := (hlists'.reads.pinned trivial hstart.rooted' hstart.inStep').2
  exact (hscans.pinned hrooted hin name).trans (hpinned name)

theorem Tracks.alike (howned : u.Owned) {b : ReadState}
    (h : Tracks u.symbols.depth u.storage.vars.issued ahead g g b)
    (hcolumns : ∀ name, Pinned u.symbols.depth (u.symbols.column name) (g.symbols.column name))
    (hcolumns' : ∀ name, Pinned u.symbols.depth (u.symbols.column name) (b.symbols.column name)) :
    g.symbols.Alike (Var.shift u.storage.vars.issued ahead) b.symbols := by
  refine SymbolTable.alike_of_columns h.ahead.types h.ahead.bound fun name => ?_
  refine (hcolumns name).eq_map (hcolumns' name) (howned.column ahead name) ?_
  rw [← SymbolTable.findFunction?_eq_column, ← SymbolTable.findFunction?_eq_column]
  exact h.findFunction? name

end

/-- **A scan only makes calls known in advance.**  A module that is read without a scan, and in which
    no function stands in another instruction, is also read with one.  There is a renumbering of
    variables, which keeps the variables that the unit had made before, that takes the one result to
    the other: the instructions are the same, in the same order and with the same loops and overloads,
    and so are their text and what the names of the unit stand for. -/
theorem readModule_scan_agrees (u : CompilationUnit) (text : String) (ir : List Instruction)
    (hopen : u.symbols.scopes ≠ []) (howned : u.Owned)
    (hflat : ∀ nodes, readExpressions text = .ok nodes → FlatDocument (Read.documentNodes nodes))
    (h : (readModule false u text).outcome = .ok ir) :
    ∃ number : Nat → Nat, number.Injective ∧ (∀ n < u.storage.vars.issued, number n = n)
      ∧ (readModule true u text).outcome
        = .ok (Instruction.substituteAll (Var.renumber number) id ir)
      ∧ printModule (Instruction.substituteAll (Var.renumber number) id ir) = printModule ir
      ∧ (readModule false u text).after.symbols.Alike (Var.renumber number)
        (readModule true u text).after.symbols
      ∧ (readModule true u text).after.storage.loops
        = (readModule false u text).after.storage.loops := by
  obtain ⟨nodes, s', hnodes, hyields⟩ := readModule_eq_ok h
  let count := (Read.documentNodes nodes).length
  have hread := readModule_of_yields hnodes hyields
  obtain ⟨_, items, g, rfl, hitems, rfl, rfl⟩ := yields_readDocument.mp hyields
  have hlists := yields_readItems.mp hitems
  obtain ⟨fs, s, ahead, b, hscans, hlists', hend, hcolumns'⟩ :=
    exists_scanned_reading hopen howned (hflat nodes hnodes) hlists (.scanning count) (.reading count)
  obtain ⟨hrooted, hin⟩ := steady_noted hopen (.reading (Read.documentNodes nodes).length)
  have hcolumns := (hlists.reads.pinned trivial hrooted hin).2
  have hyields' : ReadM.Yields (Read.readDocument true (Read.documentNodes nodes)) u.start _ _ :=
    yields_readDocument.mpr ⟨s, _, b, yields_scanPrototypes.mpr ⟨fs, hscans⟩,
      yields_readItems.mpr hlists', rfl, rfl⟩
  have hread' := readModule_of_yields hnodes hyields'
  rw [hend.functions, filterMap_resolve_substitute] at hread'
  rw [hread, hread']
  exact ⟨shifted u.storage.vars.issued ahead, shifted_injective _ _, fun n => shifted_of_lt, rfl,
    printModule_substituteAll id (renumbers_renumber _) _, hend.alike howned hcolumns hcolumns',
    hend.ahead.loops⟩

/-- A text with a prototype. -/
def prototypeText : String := "(function f(signature int(parameters(declare()int a))()))"

/-- A unit that has the prototype from an earlier text. -/
def inherited : CompilationUnit := (readModule false .fresh prototypeText).after

/-- The function is split over two nodes: the first one adds an overload, the second one completes the
    prototype from the earlier text.  Between them it is called. -/
def splitText : String :=
  "(function f(signature int(parameters)()))(function g(signature int(parameters)((return(call f())))))"
    ++ "(function f(signature int(parameters(declare()int b))((return(var_ref b)))))"

/-- The split function is read with a scan as it is without one. -/
theorem readModule_scan_agrees_split :
    ∃ ir number, (readModule false inherited splitText).outcome = .ok ir
      ∧ inherited.symbols.scopes ≠ [] ∧ inherited.Owned
      ∧ (∀ nodes, readExpressions splitText = .ok nodes → FlatDocument (Read.documentNodes nodes))
      ∧ (readModule true inherited splitText).outcome
        = .ok (Instruction.substituteAll (Var.renumber number) id ir)
      ∧ printModule (Instruction.substituteAll (Var.renumber number) id ir) = printModule ir := by
  obtain ⟨ir, hir, -⟩ := exists_ok_of_any (p := fun _ => true)
    (show (readModule false inherited splitText).outcome.toOption.any _ = true by decide +kernel)
  have hflat : ∀ nodes, readExpressions splitText = .ok nodes →
      FlatDocument (Read.documentNodes nodes) := flatDocument_of_check (by decide +kernel)
  have hopen : inherited.symbols.scopes ≠ [] := by decide +kernel
  have howned : inherited.Owned := owned_readModule false prototypeText (by decide +kernel) owned_fresh
  obtain ⟨number, -, -, hread, hprint, -⟩ :=
    readModule_scan_agrees inherited splitText ir hopen howned hflat hir
  exact ⟨ir, number, hir, hopen, howned, hflat, hread, hprint⟩

end Shading
