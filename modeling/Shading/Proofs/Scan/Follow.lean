/-
  Shading.Proofs.Scan.Follow — a reading that follows a scan.

  The reading after a scan finds all functions and all their overloads where the scan has put them.
  `Trails g a b` relates the state `a` of a reading without a scan, which will end in the state `g`,
  and the state `b` of the reading after the scan: `b` has the functions and heads of `g` all along,
  and of every overload it knows what `a` knows, or `a` has still to learn it.
-/
import Shading.Proofs.Scan.Lockstep

namespace Shading

open List

/-! ## §1. Functions known in advance -/

theorem SymbolTable.Leads.of_keys {t g u : SymbolTable} (h : t.Leads g)
    (hkeys : ∀ name, u.key? name = g.key? name) : t.Leads u := by
  intro name p hp
  obtain ⟨q, hq, hleads⟩ := h name p hp
  obtain ⟨r, hr, hname, hheads⟩ := exists_of_key? (hkeys name) hq
  exact ⟨r, hr, hname.trans hleads.name, hheads ▸ hleads.heads⟩

/-- The second state has the functions and the heads that the first one will have in the end, and
    knows of every overload what the first one knows.  Parameters may differ as long as the first
    state does not have those that it ends with. -/
structure Trails (f : Var → Var) (g a b : ReadState) : Prop where
  names : b.functionNames = g.functionNames
  keys : ∀ name, b.symbols.key? name = g.symbols.key? name
  defined : ∀ name i, b.symbols.definedAt name i = a.symbols.definedAt name i
  parameters : ∀ name i, b.symbols.parametersAt name i = (a.symbols.parametersAt name i).map f
    ∨ a.symbols.parametersAt name i ≠ g.symbols.parametersAt name i
  bodies : ∀ slot i, b.bodyAt slot i = Instruction.substituteAll f id (a.bodyAt slot i)

namespace Trails

variable {f : Var → Var} {g a a' b b' : ReadState}

theorem congr (h : Trails f g a b) (hfunctions : a'.functions = a.functions)
    (hfunctions' : b'.functions = b.functions)
    (hfind : ∀ name, a'.symbols.findFunction? name = a.symbols.findFunction? name)
    (hfind' : ∀ name, b'.symbols.findFunction? name = b.symbols.findFunction? name) :
    Trails f g a' b' where
  names := by
    rw [ReadState.functionNames, hfunctions']
    exact h.names
  keys := fun name => by rw [SymbolTable.key?_congr (hfind' name), h.keys]
  defined := fun name i => by
    rw [definedAt_of_eq (overloadAt?_congr hfind name i),
      definedAt_of_eq (overloadAt?_congr hfind' name i), h.defined]
  parameters := fun name i => by
    rw [parametersAt_of_eq (overloadAt?_congr hfind name i),
      parametersAt_of_eq (overloadAt?_congr hfind' name i)]
    exact h.parameters name i
  bodies := fun slot i => by
    simp only [ReadState.bodyAt, ReadState.signatures, hfunctions, hfunctions']
    exact h.bodies slot i

theorem slot (h : Trails f g a b) (hi : a.InStep) (cx : Context) (name : String)
    (hopen : a.symbols.scopes ≠ []) : Trails f g (a.slot cx name).2 b where
  names := h.names
  keys := h.keys
  defined := fun other i => by
    rw [definedAt_of_eq (overloadAt?_slot hi cx name hopen other i), h.defined]
  parameters := fun other i => by
    rw [parametersAt_of_eq (overloadAt?_slot hi cx name hopen other i)]
    exact h.parameters other i
  bodies := fun slot i => by rw [bodyAt_slot, h.bodies]

variable {slot : Nat} {name : String} {returnType : Ty} {index : Nat} {vs : List Var}

/-- Registering keeps the trail. -/
theorem registers (h : Trails f g a b) (hi : a.InStep) (hi' : b.InStep)
    (hplace : a.Places slot name) (hplace' : b.Places slot name)
    (hreg : Registers slot name returnType vs index a a')
    (hreg' : Registers slot name returnType (vs.map f) index b b') {q : Prototype}
    (hq : b.symbols.findFunction? name = some q)
    (hfirst : FirstAt q.heads (.of returnType (vs.map f)) index) : Trails f g a' b' where
  names := by rw [functionNames_registers hreg', h.names]
  keys := fun other => by
    rw [hreg'.key? hi' hplace', ← h.keys]
    by_cases hname : other = name
    · subst hname
      rw [SymbolTable.key?, hq]
      simp only [Option.map_some, if_true, Prototype.key, registered, hfirst.1]
    · simp only [if_neg hname, Option.map_id']
  defined := fun other i => by
    rw [hreg.definedAt hi hplace, hreg'.definedAt hi' hplace', h.defined]
  parameters := fun other i => by
    rw [hreg.parametersAt hi hplace, hreg'.parametersAt hi' hplace']
    split
    next => exact .inl rfl
    next => exact h.parameters other i
  bodies := fun slot' i => by rw [hreg.bodyAt, hreg'.bodyAt, h.bodies]

theorem complete (h : Trails f g a b) (hplace : a.Places slot name) (hplace' : b.Places slot name)
    {sig sig' : Signature} (hsig : (a.signatures slot)[index]? = some sig)
    (hsig' : (b.signatures slot)[index]? = some sig')
    (hsome : (a.symbols.overloadAt? name index).isSome)
    (hsome' : (b.symbols.overloadAt? name index).isSome) (body : List Instruction) :
    Trails f g (a.complete slot name index body)
      (b.complete slot name index (Instruction.substituteAll f id body)) where
  names := by
    rw [ReadState.complete, functionNames_onFunction]
    exact h.names
  keys := fun other => by rw [key?_complete, h.keys]
  defined := fun other i => by
    rw [definedAt_complete, definedAt_complete, h.defined]
    by_cases hat : other = name ∧ i = index
    · rw [hat.1, hat.2, hsome, hsome']
    · have hno : ∀ p : Prop, ¬(other = name ∧ i = index ∧ p) := fun p hand => hat ⟨hand.1, hand.2.1⟩
      rw [decide_eq_false (hno _), decide_eq_false (hno _)]
  parameters := fun other i => by
    rw [parametersAt_complete, parametersAt_complete]
    exact h.parameters other i
  bodies := fun slot' i => by
    rw [bodyAt_complete hplace hsig, bodyAt_complete hplace' hsig']
    split
    next => rfl
    next => exact h.bodies slot' i

end Trails

/-! ## §2. Signatures and functions -/

section

variable {slot : Nat} {name : String} {returnType : Ty} {parameters : List Var} {index : Nat}
  {s s' : ReadState}

theorem Registers.data (h : Registers slot name returnType parameters index s s') :
    s'.storage = s.storage ∧ s'.symbols.typeScopes = s.symbols.typeScopes
      ∧ s'.symbols.varScopes = s.symbols.varScopes := by
  cases h with
  | repeated =>
    refine ⟨rfl, ?_, ?_⟩
    · exact SymbolTable.typeScopes_modifyFunction _ _ _
    · exact SymbolTable.varScopes_modifyFunction _ _ _
  | added =>
    refine ⟨rfl, ?_, ?_⟩
    · exact (SymbolTable.typeScopes_modifyFunction _ _ _).trans
        (SymbolTable.typeScopes_modifyFunction _ _ _)
    · exact (SymbolTable.varScopes_modifyFunction _ _ _).trans
        (SymbolTable.varScopes_modifyFunction _ _ _)

theorem Registers.isSome_overloadAt? (h : Registers slot name returnType parameters index s s')
    (hi : s.InStep) (hplace : s.Places slot name) :
    (s'.symbols.overloadAt? name index).isSome := by
  rw [h.overloadAt? hi hplace, if_pos ⟨rfl, rfl⟩]
  rfl

theorem ReadState.InStep.exists_signature (hi : s.InStep) (hplace : s.Places slot name)
    (h : (s.symbols.overloadAt? name index).isSome) :
    ∃ sig, (s.signatures slot)[index]? = some sig := by
  obtain ⟨o, ho⟩ := Option.isSome_iff_exists.mp h
  obtain ⟨p, hp, ho⟩ := Option.bind_eq_some_iff.mp ho
  rw [hi.getElem? hplace hp] at ho
  obtain ⟨sig, hsig, -⟩ := Option.map_eq_some_iff.mp ho
  exact ⟨sig, hsig⟩

end

variable {s : ReadState} {slot : Nat} {name : String}

theorem slot_of_places (hi : s.InStep) (hplace : s.Places slot name) (cx : Context) :
    s.slot cx name = (slot, s) := by
  obtain ⟨k, hk, rfl, -⟩ := hplace.exists_function
  obtain ⟨hlt, rfl⟩ := List.getElem?_eq_some_iff.mp hk
  have hidx : s.functions.findIdx? (·.name == s.functions[slot].name) = some slot := by
    refine findIdx?_eq_some_iff_getElem.mpr ⟨hlt, by simp, ?_⟩
    intro j hj
    have hlt' : slot < s.functionNames.length := by
      rw [ReadState.functionNames, length_map]
      exact hlt
    have hne := pairwise_iff_getElem.mp hi.nodup j slot (by omega) hlt' hj
    simpa [ReadState.functionNames] using hne
  unfold ReadState.slot
  rw [hidx]

/-- The reading after the scan has come to the same point as the reading without one, which will end
    in the state `g`. -/
structure Tracks (d first ahead : Nat) (g a b : ReadState) : Prop where
  trails : Trails (Var.shift first ahead) g a b
  ahead : Ahead first ahead a b
  rooted : a.Rooted d
  inStep : a.InStep
  rooted' : b.Rooted d
  inStep' : b.InStep

variable {nodes : List Node} {entries : List Entry}

namespace Tracks

variable {cx : Context} {first ahead : Nat} {g a a' b b' : ReadState}

theorem step (h : Tracks cx.globalDepth first ahead g a b) {reading reading' : Reading}
    (hreads : Reads cx reading a a') (hplaced : reading.Placed a) (hreads' : Reads cx reading' b b')
    (hplaced' : reading'.Placed b) (htrails : Trails (Var.shift first ahead) g a' b')
    (hahead : Ahead first ahead a' b') : Tracks cx.globalDepth first ahead g a' b' := by
  have e := (hreads.leads hplaced h.rooted h.inStep).1
  have e' := (hreads'.leads hplaced' h.rooted' h.inStep').1
  exact ⟨htrails, hahead, e.rooted, e.inStep, e'.rooted, e'.inStep⟩

variable {slot : Nat} {name : String}

/-- The head of a signature is tracked. -/
theorem header (h : Tracks cx.globalDepth first ahead g a b) (hplace : a.Places slot name)
    (hplace' : b.Places slot name) {declarations : List Node} {vs : List Var} {returnType : Ty}
    {index : Nat} {a1 a2 : ReadState} (hdecl : Declares cx declarations vs a.opened a1)
    (hreg : Registers slot name returnType vs index a1 a2) (hleads : a2.symbols.Leads g.symbols) :
    ∃ b1 b2, Declares cx declarations (vs.map (Var.shift first ahead)) b.opened b1
      ∧ Registers slot name returnType (vs.map (Var.shift first ahead)) index b1 b2
      ∧ Trails (Var.shift first ahead) g a2 b2 ∧ Ahead first ahead a2 b2
      ∧ (a2.symbols.overloadAt? name index).isSome ∧ (b2.symbols.overloadAt? name index).isSome := by
  have hframe := evolves_frame cx.globalDepth
  have hopened : a.opened.InStep := ⟨h.inStep.nodup, h.inStep.agree⟩
  have hopened' : b.opened.InStep := ⟨h.inStep'.nodup, h.inStep'.agree⟩
  obtain ⟨b1, hdecl', hahead1⟩ := h.ahead.opened.declares hdecl
  have hi1 := (hframe.declares hdecl h.rooted.opened hopened).inStep
  have hi1' := (hframe.declares hdecl' h.rooted'.opened hopened').inStep
  have hplace1 := hdecl.places_opened hplace
  have hplace1' := hdecl'.places_opened hplace'
  have htrails1 : Trails (Var.shift first ahead) g a1 b1 :=
    h.trails.congr hdecl.functions_opened hdecl'.functions_opened hdecl.findFunction?_opened
      hdecl'.findFunction?_opened
  -- the head is known in the end, so it is known here
  obtain ⟨-, p', -, hp', -, hfirst, -⟩ := hreg.first hi1 hplace1
  obtain ⟨r, hr, hpr⟩ := hleads name p' hp'
  obtain ⟨q, hq, -, hheads⟩ := SymbolTable.exists_of_key? (htrails1.keys name) hr
  have hfirst' : FirstAt q.heads (.of returnType (vs.map (Var.shift first ahead))) index := by
    rw [Head.of_map (renumbers_shift first ahead), hheads]
    exact hfirst.mono hpr.heads
  obtain ⟨b2, hreg'⟩ :=
    exists_registers hi1' hplace1' hq (hfirst'.mono (prefix_append q.heads [_]))
  refine ⟨b1, b2, hdecl', hreg', ?_, ?_, hreg.isSome_overloadAt? hi1 hplace1,
    hreg'.isSome_overloadAt? hi1' hplace1'⟩
  · exact htrails1.registers hi1 hi1' hplace1 hplace1' hreg hreg' hq hfirst'
  · obtain ⟨hstorage, htypes, hvars⟩ := hreg.data
    obtain ⟨hstorage', htypes', hvars'⟩ := hreg'.data
    exact hahead1.of_eq hstorage hstorage' htypes htypes' hvars hvars'

/-- A signature with its body is tracked. -/
theorem signature (h : Tracks cx.globalDepth first ahead g a b) (hplace : a.Places slot name)
    (hplace' : b.Places slot name) {node : Node} {entry : Entry}
    (hreads : Reads cx (.signature false slot name node entry) a a')
    (hflat : node.isFlatSignature = true) (hleads : a'.symbols.Leads g.symbols) :
    ∃ entry' b', Reads cx (.signature false slot name node entry') b b'
      ∧ Tracks cx.globalDepth first ahead g a' b' := by
  have hframe := leads_frame cx.globalDepth
  have hopened : a.opened.InStep := ⟨h.inStep.nodup, h.inStep.agree⟩
  have hopened' : b.opened.InStep := ⟨h.inStep'.nodup, h.inStep'.agree⟩
  have hplace0 : a.opened.Places slot name := hplace
  have hplace0' : b.opened.Places slot name := hplace'
  suffices hfollow : ∃ entry' b', Reads cx (.signature false slot name node entry') b b'
      ∧ Trails (Var.shift first ahead) g a' b' ∧ Ahead first ahead a' b' by
    obtain ⟨entry', b', hreads', htrails, hahead⟩ := hfollow
    exact ⟨entry', b', hreads', h.step hreads hplace hreads' hplace' htrails hahead⟩
  cases hreads with
  | @prototype _ _ a1 a2 _ _ _ ty declarations nodes _ _ _ type declares registers silent =>
    have e := ((hframe.header hplace0 declares registers).1 h.rooted.opened hopened).1
    have hclosed := e.rooted.findFunction?_closed e.length h.rooted
    have hleads2 : a2.symbols.Leads g.symbols :=
      (SymbolTable.Leads.of_eq hclosed).trans hleads
    obtain ⟨b1, b2, hdecl', hreg', htrails, hahead, -, -⟩ :=
      h.header hplace hplace' declares registers hleads2
    have e' := ((hframe.header hplace0' hdecl' hreg').1 h.rooted'.opened hopened').1
    refine ⟨_, b2.closed, .prototype (readType_congr (findType?_congr h.ahead.types) type) hdecl'
      hreg' silent, ?_, hahead.closed⟩
    exact htrails.congr rfl rfl hclosed (e'.rooted.findFunction?_closed e'.length h.rooted')
  | @definition _ _ a1 a2 a3 _ _ ty declarations nodes _ vs index body type declares registers
      nonempty undefined inner bound =>
    obtain ⟨hheader, hplace2⟩ := hframe.header hplace0 declares registers
    obtain ⟨e2, -⟩ := hheader h.rooted.opened hopened
    obtain ⟨e3, l3⟩ := inner.leads trivial e2.rooted e2.inStep
    have hplace3 := hplace2.of_prefix inner.functionNames_prefix
    obtain ⟨e4, l4⟩ := hframe.complete a3 slot name index body hplace3 bound e3.rooted e3.inStep
    have hclosed := e4.rooted.findFunction?_closed
      (e4.length.trans (e3.length.trans e2.length)) h.rooted
    have hleads2 : a2.symbols.Leads g.symbols :=
      l3.trans (l4.trans ((SymbolTable.Leads.of_eq hclosed).trans hleads))
    obtain ⟨b1, b2, hdecl', hreg', htrails2, hahead2, hsome, hsome'⟩ :=
      h.header hplace hplace' declares registers hleads2
    obtain ⟨hheader', hplace2'⟩ := hframe.header hplace0' hdecl' hreg'
    obtain ⟨e2', -⟩ := hheader' h.rooted'.opened hopened'
    -- the body calls functions that are known after the scan too
    have hgrows := (hleads2.of_keys htrails2.keys).grows
    obtain ⟨b3, inner', hahead3⟩ := inner.follows hflat hahead2 hgrows
    have hfind3 := findFunction?_congr (inner.keepsBound hflat)
    have hfind3' := findFunction?_congr (inner'.keepsBound hflat)
    have htrails3 := htrails2.congr (inner.keepsFunctions hflat) (inner'.keepsFunctions hflat)
      hfind3 hfind3'
    have hplace3' := hplace2'.of_prefix inner'.functionNames_prefix
    obtain ⟨e3', -⟩ := inner'.leads trivial e2'.rooted e2'.inStep
    obtain ⟨q, hq⟩ := e3'.inStep.exists_prototype hplace3'
    have bound' : (b3.symbols.findFunction? name).isSome := by
      rw [hq]
      rfl
    have undefined' : b2.isDefined slot index = false := by
      rw [e2'.inStep.isDefined hplace2', htrails2.defined, ← e2.inStep.isDefined hplace2]
      exact undefined
    -- both complete the overload
    rw [← overloadAt?_congr hfind3] at hsome
    rw [← overloadAt?_congr hfind3'] at hsome'
    obtain ⟨sig, hsig⟩ := e3.inStep.exists_signature hplace3 hsome
    obtain ⟨sig', hsig'⟩ := e3'.inStep.exists_signature hplace3' hsome'
    have htrails4 := htrails3.complete hplace3 hplace3' hsig hsig' hsome hsome' body
    obtain ⟨e4', -⟩ := hframe.complete b3 slot name index
      (Instruction.substituteAll (Var.shift first ahead) id body) hplace3' bound' e3'.rooted
      e3'.inStep
    have hclosed' := e4'.rooted.findFunction?_closed
      (e4'.length.trans (e3'.length.trans e2'.length)) h.rooted'
    refine ⟨_, _, .definition (readType_congr (findType?_congr h.ahead.types) type) hdecl' hreg'
      nonempty undefined' inner' bound', ?_, ?_⟩
    · exact htrails4.congr rfl rfl hclosed hclosed'
    · exact (hahead3.onFunction _ _ _ _ _ _ _).closed

theorem signatures (h : Tracks cx.globalDepth first ahead g a b) (hplace : a.Places slot name)
    (hplace' : b.Places slot name)
    (hreads : Reads cx (.signatures false slot name nodes entries) a a')
    (hflat : ∀ node ∈ nodes, node.isFlatSignature = true) (hleads : a'.symbols.Leads g.symbols) :
    ∃ entries' b', Reads cx (.signatures false slot name nodes entries') b b'
      ∧ Tracks cx.globalDepth first ahead g a' b' := by
  induction nodes generalizing entries a b with
  | nil =>
    cases hreads
    exact ⟨[], b, .noMore, h⟩
  | cons node rest ih =>
    cases hreads with
    | @more _ _ a1 _ _ _ _ _ _ _ _ head others =>
      have hrest : ∀ node ∈ rest, node.isFlatSignature = true := fun node hnode =>
        hflat node (mem_cons_of_mem _ hnode)
      have hplace1 := hplace.of_prefix head.functionNames_prefix
      have e1 := (head.leads hplace h.rooted h.inStep).1
      have hleads1 : a1.symbols.Leads g.symbols :=
        (others.leads hplace1 e1.rooted e1.inStep).2.trans hleads
      obtain ⟨entry', b1, head', h1⟩ :=
        h.signature hplace hplace' head (hflat node mem_cons_self) hleads1
      obtain ⟨entries', b', others', h'⟩ :=
        ih h1 hplace1 (hplace'.of_prefix head'.functionNames_prefix) others hrest
      exact ⟨_, b', .more head' others', h'⟩

/-- A function is tracked. -/
theorem function (h : Tracks cx.globalDepth first ahead g a b) {signatures : List Node}
    {entries : List Entry}
    (hreads : Reads cx (.function false (.symbol name :: signatures) slot entries) a a')
    (hflat : ∀ node ∈ signatures, node.isFlatSignature = true)
    (hleads : a'.symbols.Leads g.symbols) (hnames : a'.functionNames <+: g.functionNames) :
    ∃ entries' b', Reads cx (.function false (.symbol name :: signatures) slot entries') b b'
      ∧ Tracks cx.globalDepth first ahead g a' b' := by
  cases hreads with
  | overloads place inner =>
    obtain ⟨rfl, rfl⟩ := Prod.mk.inj place
    have hopen := scopes_ne_nil_of_overloads inner
    have hplace := places_slot a cx name
    have hplace' : b.Places (a.slot cx name).1 name :=
      hplace.of_prefix (h.trails.names ▸ inner.functionNames_prefix.trans hnames)
    have e := (evolves_frame cx.globalDepth).slot a cx name rfl hopen h.rooted h.inStep
    have h1 : Tracks cx.globalDepth first ahead g (a.slot cx name).2 b := by
      refine ⟨h.trails.slot h.inStep cx name hopen, ?_, e.rooted, e.inStep, h.rooted', h.inStep'⟩
      exact h.ahead.of_eq (storage_slot a cx name) rfl (typeScopes_slot a cx name hopen) rfl
        (varScopes_slot a cx name hopen) rfl
    obtain ⟨entries', b', inner', h'⟩ := h1.signatures hplace hplace' inner hflat hleads
    exact ⟨entries', b', .overloads (slot_of_places h.inStep' hplace' cx) inner', h'⟩

end Tracks

/-! ## §3. Documents -/

variable {cx : Context} {scan : Bool} {s' : ReadState}

theorem Reads.functionNames_signature {node : Node} {entry : Entry}
    (h : Reads cx (.signature scan slot name node entry) s s') (hflat : node.isFlatSignature = true) :
    s'.functionNames = s.functionNames := by
  have hheader : ∀ {declarations : List Node} {vs : List Var} {returnType : Ty} {index : Nat}
      {s1 s2 : ReadState}, Declares cx declarations vs s.opened s1 →
      Registers slot name returnType vs index s1 s2 → s2.functionNames = s.functionNames := by
    intro declarations vs returnType index s1 s2 hdecl hreg
    rw [functionNames_registers hreg]
    exact congrArg (List.map _) hdecl.functions_opened
  cases h with
  | prototype type declares registers silent =>
    have hnames := hheader declares registers
    exact hnames
  | @definition _ _ s1 s2 s3 _ _ _ _ _ _ _ index body type declares registers nonempty undefined
      inner bound =>
    show (s3.complete slot name index body).functionNames = _
    rw [ReadState.complete, functionNames_onFunction, ← hheader declares registers]
    exact congrArg (List.map _) (inner.keepsFunctions hflat)

theorem Reads.functionNames_signatures
    (h : Reads cx (.signatures scan slot name nodes entries) s s')
    (hflat : ∀ node ∈ nodes, node.isFlatSignature = true) : s'.functionNames = s.functionNames := by
  induction nodes generalizing entries s with
  | nil =>
    cases h
    rfl
  | cons node rest ih =>
    cases h with
    | more head others =>
      rw [ih others fun other hother => hflat other (mem_cons_of_mem _ hother),
        head.functionNames_signature (hflat node mem_cons_self)]

theorem Reads.length_functions_function {signatures : List Node}
    (h : Reads cx (.function scan (.symbol name :: signatures) slot entries) s s')
    (hflat : ∀ node ∈ signatures, node.isFlatSignature = true) :
    s'.functions.length = s.functions.length
      ∨ (s'.functions.length = s.functions.length + 1 ∧ slot = s.functions.length) := by
  cases h with
  | @overloads _ _ s1 _ _ _ _ _ _ _ place inner =>
    obtain ⟨hslot, hnames⟩ := slot_eq s cx name
    rw [place] at hslot hnames
    have hlen : s'.functions.length = s1.functionNames.length := by
      rw [← inner.functionNames_signatures hflat, ReadState.functionNames, length_map]
    have hold : s.functionNames.length = s.functions.length := length_map _
    rw [hlen, hnames, show slot = _ from hslot]
    by_cases hmet : name ∈ s.functionNames
    · rw [if_pos hmet, hold]
      exact .inl rfl
    · rw [if_neg hmet, length_append, idxOf_eq_length hmet, hold]
      exact .inr ⟨rfl, rfl⟩

theorem unplaced_none (placed : List Nat) (k : Nat) : Read.unplaced placed none k k = [] := by
  simp [Read.unplaced]

variable {placed : List Nat} {seen : Nat}

theorem unplaced_some {count : Nat} (h : count = seen ∨ (count = seen + 1 ∧ slot = seen)) (k : Nat)
    :
    Read.unplaced placed (some slot) seen count = Read.unplaced placed (some slot) k k := by
  rcases h with rfl | ⟨rfl, rfl⟩
  · simp [Read.unplaced]
  · by_cases hmem : slot ∈ placed
    · simp [Read.unplaced, hmem]
    · simp [Read.unplaced, hmem, eraseDups_cons]

/-- The item with its variables replaced. -/
def Item.substitute (f : Var → Var) : Item → Item
  | .instruction i => .instruction (i.substitute f id)
  | .function slot => .function slot

theorem map_substitute_function (f : Var → Var) (slots : List Nat) :
    (slots.map Item.function).map (·.substitute f) = slots.map .function := by
  rw [map_map]
  rfl

/-- **What is read without a scan is read after one**, with variables shifted, and the functions get
    the same places. -/
theorem Lists.tracks {first ahead : Nat} {items : List Item} {a g b : ReadState}
    (hlists : Lists cx placed seen nodes items a g) (hseen : seen = a.functions.length)
    (hflat : ∀ node ∈ nodes, node.isFlat = true
      ∧ ∀ sig ∈ node.signatureNodes, sig.isFlatSignature = true)
    (h : Tracks cx.globalDepth first ahead g a b) :
    ∃ b', Lists cx placed b.functions.length nodes
        (items.map (·.substitute (Var.shift first ahead))) b b'
      ∧ Tracks cx.globalDepth first ahead g g b' := by
  induction hlists generalizing b with
  | nil => exact ⟨b, .nil, h⟩
  | @cons placed fresh seen node rest i top items a a1 g first met others ih =>
    have hrest := (forall_mem_cons.mp hflat).2
    cases first with
    | instruction head =>
      have hnode : node.isFunction = false ∧ node.isFlat = true :=
        ⟨head.isFunction_eq_false, (hflat node mem_cons_self).1⟩
      have hall := (Lists.cons (.instruction head) met others).reads
      have hgrows := ((hall.leads trivial h.rooted h.inStep).2.of_keys h.trails.keys).grows
      obtain ⟨b1, head', hahead1⟩ := head.follows hnode h.ahead hgrows
      have hsame : a1.functions = a.functions := head.keepsFunctions hnode
      have hsame' : b1.functions = b.functions := head'.keepsFunctions hnode
      have htrails1 := h.trails.congr hsame hsame' (findFunction?_congr (head.keepsBound hnode))
        (findFunction?_congr (head'.keepsBound hnode))
      obtain ⟨b', others', h'⟩ :=
        ih rfl hrest (h.step head trivial head' trivial htrails1 hahead1)
      have hfresh : fresh = [] := by rw [met, hsame, hseen, unplaced_none]
      have met' : fresh = Read.unplaced placed none b.functions.length b1.functions.length := by
        rw [hfresh, hsame', unplaced_none]
      refine ⟨b', ?_, h'⟩
      rw [map_append, map_append, map_substitute_function]
      exact .cons (.instruction head') met' others'
    | @function name signatures slot entries _ _ head =>
      have hsigs : ∀ sig ∈ signatures, sig.isFlatSignature = true := (hflat _ mem_cons_self).2
      have e := (head.leads trivial h.rooted h.inStep).1
      have hleads := (others.reads.leads trivial e.rooted e.inStep).2
      obtain ⟨entries', b1, head', h1⟩ :=
        h.function head hsigs hleads others.reads.functionNames_prefix
      obtain ⟨b', others', h'⟩ := ih rfl hrest h1
      -- the function is new in the first reading, or it is not; in the second it never is
      have hlen : b1.functions.length = b.functions.length := by
        have heq : b1.functionNames = b.functionNames := h1.trails.names.trans h.trails.names.symm
        simpa [ReadState.functionNames] using congrArg List.length heq
      have hcount := head.length_functions_function hsigs
      rw [← hseen] at hcount
      have met' : fresh = Read.unplaced placed (some slot) b.functions.length b1.functions.length := by
        rw [hlen, met, unplaced_some hcount]
      refine ⟨b', ?_, h'⟩
      rw [map_append, map_append, map_substitute_function]
      exact .cons (.function head') met' others'

end Shading
