/-
  Shading.Proofs.Scan.Lockstep — a scan beside a reading.

  A document without functions inside of other instructions is read without a scan, and beside that
  it is scanned.  Both meet the same signatures in the same order, so they register the same
  overloads at the same places: `Shadows t a s` relates the state `a` of the reading and the state
  `s` of the scan, where `t` is the table that both have begun with.
-/
import Shading.Proofs.Read.WellScoped
import Shading.Proofs.Scan.Heads

namespace Shading

open List

/-! ## §1. Heads under names -/

/-- The name of a function and its heads. -/
def Prototype.key (p : Prototype) : String × List Head := (p.name, p.heads)

/-- The heads, and a new one behind them unless its types are there already. -/
def registered (heads : List Head) (h : Head) : List Head :=
  match heads.findIdx? (·.types = h.types) with
  | some _ => heads
  | none => heads ++ [h]

/-- The name and the heads that the name of a function stands for. -/
def SymbolTable.key? (t : SymbolTable) (name : String) : Option (String × List Head) :=
  (t.findFunction? name).map (·.key)

variable {t : SymbolTable} {name : String}

theorem SymbolTable.key?_congr {u : SymbolTable} (h : u.findFunction? name = t.findFunction? name) :
    u.key? name = t.key? name := by
  rw [SymbolTable.key?, h, SymbolTable.key?]

theorem SymbolTable.exists_of_key? {u : SymbolTable} {p : Prototype} (h : u.key? name = t.key? name)
    (hp : t.findFunction? name = some p) :
    ∃ q, u.findFunction? name = some q ∧ q.name = p.name ∧ q.heads = p.heads := by
  unfold SymbolTable.key? at h
  rw [hp] at h
  obtain ⟨q, hq, hkey⟩ := Option.map_eq_some_iff.mp h
  exact ⟨q, hq, congrArg Prod.fst hkey, congrArg Prod.snd hkey⟩

section

variable {slot : Nat} {name : String} {returnType : Ty} {parameters : List Var} {index : Nat}
  {s s' : ReadState}

theorem Registers.key? (h : Registers slot name returnType parameters index s s') (hi : s.InStep)
    (hplace : s.Places slot name) (other : String) :
    s'.symbols.key? other = (s.symbols.key? other).map fun k =>
      if other = name then (k.1, registered k.2 (.of returnType parameters)) else k := by
  obtain ⟨p, p', hp, hfind, hcases⟩ := h.inversion hi hplace
  unfold SymbolTable.key?
  rw [hfind]
  by_cases hname : other = name
  · subst hname
    rw [if_pos rfl, hp]
    simp only [Option.map_some, if_true, Prototype.key, registered]
    rcases hcases with ⟨⟨hsome, -⟩, rfl, hheads⟩ | ⟨hnone, -, rfl⟩
    · rw [hheads, hsome]
      rfl
    · rw [hnone, Prototype.heads_add]
      rfl
  · simp only [if_neg hname, Option.map_map]
    rfl

theorem key?_complete (body : List Instruction) (other : String) :
    (s.complete slot name index body).symbols.key? other = s.symbols.key? other := by
  unfold SymbolTable.key?
  rw [ReadState.complete, ReadState.onFunction, SymbolTable.findFunction?_modifyFunction]
  split
  next =>
    rw [Option.map_map]
    congr 1
    funext p
    show (p.name, (p.modify index ({ · with isDefined := true })).heads) = (p.name, p.heads)
    rw [p.heads_completed]
  next => rfl

theorem key?_slot (hi : s.InStep) (cx : Context) (name other : String)
    (hopen : s.symbols.scopes ≠ []) :
    (s.slot cx name).2.symbols.key? other
      = (s.symbols.key? other).or (if other = name then some (name, []) else none) := by
  unfold SymbolTable.key?
  rw [findFunction?_slot hi cx name other hopen]
  cases s.symbols.findFunction? other with
  | some p => rfl
  | none => split <;> rfl

end

/-! ## §2. The two states -/

/-- The reading and the scan have met the same functions, with the same heads.  The scan completes
    none of them, and has changed no parameters that the reading has not. -/
structure Shadows (t : SymbolTable) (a s : ReadState) : Prop where
  names : s.functionNames = a.functionNames
  keys : ∀ name, s.symbols.key? name = a.symbols.key? name
  defined : ∀ name i, s.symbols.definedAt name i = t.definedAt name i
  parameters : ∀ name i, s.symbols.parametersAt name i = t.parametersAt name i
    ∨ a.symbols.parametersAt name i ≠ t.parametersAt name i

namespace Shadows

variable {t : SymbolTable} {a a' s s' : ReadState}

theorem congr (h : Shadows t a s) (hnames : a'.functionNames = a.functionNames)
    (hnames' : s'.functionNames = s.functionNames)
    (hfind : ∀ name, a'.symbols.findFunction? name = a.symbols.findFunction? name)
    (hfind' : ∀ name, s'.symbols.findFunction? name = s.symbols.findFunction? name) :
    Shadows t a' s' where
  names := by rw [hnames, hnames', h.names]
  keys := fun name => by
    rw [SymbolTable.key?_congr (hfind name), SymbolTable.key?_congr (hfind' name), h.keys]
  defined := fun name i => by
    rw [definedAt_of_eq (overloadAt?_congr hfind' name i)]
    exact h.defined name i
  parameters := fun name i => by
    rw [parametersAt_of_eq (overloadAt?_congr hfind name i),
      parametersAt_of_eq (overloadAt?_congr hfind' name i)]
    exact h.parameters name i

theorem slot (h : Shadows t a s) (hi : a.InStep) (hi' : s.InStep) (cx : Context) (name : String)
    (hopen : a.symbols.scopes ≠ []) (hopen' : s.symbols.scopes ≠ []) :
    Shadows t (a.slot cx name).2 (s.slot cx name).2 where
  names := by rw [(slot_eq a cx name).2, (slot_eq s cx name).2, h.names]
  keys := fun other => by
    rw [key?_slot hi cx name other hopen, key?_slot hi' cx name other hopen', h.keys]
  defined := fun other i => by
    rw [definedAt_of_eq (overloadAt?_slot hi' cx name hopen' other i)]
    exact h.defined other i
  parameters := fun other i => by
    rw [parametersAt_of_eq (overloadAt?_slot hi cx name hopen other i),
      parametersAt_of_eq (overloadAt?_slot hi' cx name hopen' other i)]
    exact h.parameters other i

theorem complete (h : Shadows t a s) (slot : Nat) (name : String) (index : Nat)
    (body : List Instruction) : Shadows t (a.complete slot name index body) s where
  names := by
    rw [ReadState.complete, functionNames_onFunction]
    exact h.names
  keys := fun other => by rw [key?_complete, h.keys]
  defined := h.defined
  parameters := fun other i => by
    rw [parametersAt_complete]
    exact h.parameters other i

variable {slot : Nat} {name : String} {returnType : Ty} {index : Nat} {vs ws : List Var}

/-- **A signature is registered in both states.**  Its parameters are new in the reading, so where it
    has them the table has others. -/
theorem registers (h : Shadows t a s) (hi : a.InStep) (hi' : s.InStep)
    (hplace : a.Places slot name) (hplace' : s.Places slot name)
    (hreg : Registers slot name returnType vs index a a')
    (hreg' : Registers slot name returnType ws index s s')
    (hvalues : ws.map (·.value) = vs.map (·.value)) {first : Nat} (hnew : ∀ v ∈ vs, first ≤ v.id)
    (hold : ∀ name i, ∀ v ∈ t.parametersAt name i, v.id < first) : Shadows t a' s' where
  names := by rw [functionNames_registers hreg, functionNames_registers hreg', h.names]
  keys := fun other => by
    rw [hreg.key? hi hplace, hreg'.key? hi' hplace', h.keys, Head.of_congr hvalues]
  defined := fun other i => by
    rw [hreg'.definedAt hi' hplace']
    exact h.defined other i
  parameters := fun other i => by
    rw [hreg.parametersAt hi hplace, hreg'.parametersAt hi' hplace']
    split
    next =>
      cases vs with
      | nil =>
        -- both signatures have no parameters, so neither has been told from the table's
        rw [map_nil, map_eq_nil_iff] at hvalues
        rw [hvalues]
        by_cases hnil : t.parametersAt other i = []
        · exact .inl hnil.symm
        · exact .inr (Ne.symm hnil)
      | cons v vs =>
        refine .inr fun heq => ?_
        have hge := hnew v mem_cons_self
        have hlt := hold other i v (heq ▸ mem_cons_self)
        omega
    next => exact h.parameters other i

end Shadows

/-! ## §3. Signatures -/

section

variable {cx : Context} {nodes : List Node} {vs : List Var} {s s' : ReadState}

theorem Declares.functionScopes (h : Declares cx nodes vs s s') :
    s'.symbols.functionScopes = s.symbols.functionScopes := by
  induction h with
  | nil s => rfl
  | cons head others ih =>
    obtain ⟨-, ty, -, t, -, ht, -⟩ := readVariable_eq_ok.mp head
    rw [ih, functionScopes_declare (scopes_ne_nil_of_readType ht)]

theorem Declares.findFunction?_opened (h : Declares cx nodes vs s.opened s') (name : String) :
    s'.symbols.findFunction? name = s.symbols.findFunction? name :=
  findFunction?_congr h.functionScopes name

theorem Declares.functions_opened (h : Declares cx nodes vs s.opened s') :
    s'.functions = s.functions :=
  (functions_declares h).trans rfl

theorem Declares.places_opened {slot : Nat} (h : Declares cx nodes vs s.opened s')
    (hplace : s.Places slot name) : s'.Places slot name := by
  rw [ReadState.Places, h.functions_opened]
  exact hplace

theorem Declares.new (h : Declares cx nodes vs s s') : ∀ v ∈ vs, s.storage.vars.issued ≤ v.id := by
  induction h with
  | nil s => exact nofun
  | @cons node rest v vs s s' head others ih =>
    intro w hw
    rcases mem_cons.mp hw with rfl | hw
    · exact Nat.le_refl s.storage.vars.issued
    · have hlater : s.storage.vars.issued + 1 ≤ w.id := ih w hw
      omega

/-- Declarations replay where the types are the same. -/
theorem Declares.replay (h : Declares cx nodes vs s s') {u : ReadState}
    (htypes : u.symbols.typeScopes = s.symbols.typeScopes) :
    ∃ ws u', Declares cx nodes ws u u' ∧ ws.map (·.value) = vs.map (·.value) := by
  induction h generalizing u with
  | nil s => exact ⟨[], u, .nil u, rfl⟩
  | @cons node rest v vs s s' head others ih =>
    have hread : readVariable (u.env cx) node = .ok v := readVariable_congr htypes head
    have htypes' : (u.declare v).symbols.typeScopes = (s.declare v).symbols.typeScopes := by
      rw [typeScopes_declare hread, typeScopes_declare head, htypes]
    obtain ⟨ws, u', hothers, hvalues⟩ := ih htypes'
    exact ⟨_, u', .cons hread hothers, congrArg (v :: ·) hvalues⟩

end

theorem issued_frame (d : Nat) :
    Frame d fun s s' => s.storage.vars.issued ≤ s'.storage.vars.issued where
  refl := fun _ => Nat.le_refl _
  trans := fun _ _ _ => Nat.le_trans
  takeLoop := fun _ => Nat.le_refl _
  declare := fun s v _ => Nat.le_succ s.storage.vars.issued
  slot := fun s cx name _ _ => (storage_slot s cx name).symm ▸ Nat.le_refl _
  registers := by
    intro slot name returnType parameters index s s' _ _ h
    cases h with
    | repeated | added => exact Nat.le_refl _
  complete := fun s slot name index body _ _ => Nat.le_refl _
  scope := fun _ _ _ h => h

theorem Reads.issued_le {cx : Context} {reading : Reading} {s s' : ReadState}
    (h : Reads cx reading s s') (hplaced : reading.Placed s) :
    s.storage.vars.issued ≤ s'.storage.vars.issued :=
  (issued_frame cx.globalDepth).reads h rfl hplaced

/-- The reading and the scan have come to the same point, from a table whose parameters have been
    numbered below `first`. -/
structure Abreast (d first : Nat) (t : SymbolTable) (a s : ReadState) : Prop where
  shadows : Shadows t a s
  types : s.symbols.typeScopes = a.symbols.typeScopes
  le : first ≤ a.storage.vars.issued
  rooted : a.Rooted d
  inStep : a.InStep
  rooted' : s.Rooted d
  inStep' : s.InStep
  old : ∀ name i, ∀ v ∈ t.parametersAt name i, v.id < first

namespace Abreast

variable {cx : Context} {first : Nat} {t : SymbolTable} {a a' s s' : ReadState}

theorem step (h : Abreast cx.globalDepth first t a s) {reading reading' : Reading}
    (hreads : Reads cx reading a a') (hplaced : reading.Placed a) (hreads' : Reads cx reading' s s')
    (hplaced' : reading'.Placed s) (hshadows : Shadows t a' s') :
    Abreast cx.globalDepth first t a' s' := by
  have hevolves := (hreads.leads hplaced h.rooted h.inStep).1
  have hevolves' := (hreads'.leads hplaced' h.rooted' h.inStep').1
  refine ⟨hshadows, ?_, Nat.le_trans h.le (hreads.issued_le hplaced), hevolves.rooted,
    hevolves.inStep, hevolves'.rooted, hevolves'.inStep, h.old⟩
  rw [hreads.typeScopes hplaced, hreads'.typeScopes hplaced', h.types]

theorem places (h : Abreast cx.globalDepth first t a s) {slot : Nat} (hplace : a.Places slot name) :
    s.Places slot name :=
  hplace.of_prefix (h.shadows.names ▸ prefix_refl _)

variable {slot : Nat} {name : String}

/-- The head of a signature keeps both abreast. -/
theorem header (h : Abreast cx.globalDepth first t a s) (hplace : a.Places slot name)
    {ty : Node} {declarations : List Node} {vs : List Var} {returnType : Ty} {index : Nat}
    {a1 a2 : ReadState} (type : readType (a.env cx) ty = .ok returnType)
    (hdecl : Declares cx declarations vs a.opened a1)
    (hreg : Registers slot name returnType vs index a1 a2) (nodes : List Node) :
    ∃ entry s', Reads cx (.signature true slot name
        (.list [.symbol "signature", ty, .list (.symbol "parameters" :: declarations), .list nodes])
        entry) s s'
      ∧ Shadows t a2 s' := by
  have hframe := evolves_frame cx.globalDepth
  have hopened : a.opened.InStep := ⟨h.inStep.nodup, h.inStep.agree⟩
  have hopened' : s.opened.InStep := ⟨h.inStep'.nodup, h.inStep'.agree⟩
  have htypes : s.opened.symbols.typeScopes = a.opened.symbols.typeScopes :=
    congrArg ([] :: ·) h.types
  obtain ⟨ws, s1, hdecl', hvalues⟩ := hdecl.replay htypes
  have hi1 := (hframe.declares hdecl h.rooted.opened hopened).inStep
  have hi1' := (hframe.declares hdecl' h.rooted'.opened hopened').inStep
  have hplace1 := hdecl.places_opened hplace
  have hplace1' := hdecl'.places_opened (h.places hplace)
  have hshadows : Shadows t a1 s1 :=
    h.shadows.congr (congrArg (List.map _) hdecl.functions_opened)
      (congrArg (List.map _) hdecl'.functions_opened) hdecl.findFunction?_opened
      hdecl'.findFunction?_opened
  -- the heads are the same, so the place is
  obtain ⟨p, -, hp, -, hfirst, -, -⟩ := hreg.first hi1 hplace1
  obtain ⟨q, hq, -, hheads⟩ := SymbolTable.exists_of_key? (hshadows.keys name) hp
  rw [← hheads, ← Head.of_congr hvalues] at hfirst
  obtain ⟨s2, hreg'⟩ := exists_registers hi1' hplace1' hq hfirst
  refine ⟨_, _, .prototype (readType_congr (findType?_congr h.types) type) hdecl' hreg' (.inl rfl), ?_⟩
  have hshadows2 : Shadows t a2 s2 :=
    hshadows.registers hi1 hi1' hplace1 hplace1' hreg hreg' hvalues
      (fun v hv => Nat.le_trans h.le (hdecl.new v hv)) h.old
  have hplace' : s.opened.Places slot name := h.places hplace
  have e := (hframe.header hplace' hdecl' hreg').1 h.rooted'.opened hopened'
  exact hshadows2.congr rfl rfl (fun _ => rfl) (e.rooted.findFunction?_closed e.length h.rooted')

/-- A scanned signature keeps abreast of one that is read. -/
theorem signature (h : Abreast cx.globalDepth first t a s) (hplace : a.Places slot name)
    {node : Node} {entry : Entry} (hreads : Reads cx (.signature false slot name node entry) a a')
    (hflat : node.isFlatSignature = true) :
    ∃ entry' s', Reads cx (.signature true slot name node entry') s s'
      ∧ Abreast cx.globalDepth first t a' s' := by
  have hframe := evolves_frame cx.globalDepth
  have hopened : a.opened.InStep := ⟨h.inStep.nodup, h.inStep.agree⟩
  have hplace' : a.opened.Places slot name := hplace
  suffices hscan : ∃ entry' s', Reads cx (.signature true slot name node entry') s s'
      ∧ Shadows t a' s' by
    obtain ⟨entry', s', hreads', hshadows⟩ := hscan
    exact ⟨entry', s', hreads', h.step hreads hplace hreads' (h.places hplace) hshadows⟩
  cases hreads with
  | @prototype _ _ a1 a2 _ _ _ ty declarations nodes _ _ _ type declares registers silent =>
    obtain ⟨entry', s', hreads', hshadows⟩ := h.header hplace type declares registers nodes
    refine ⟨entry', s', hreads', ?_⟩
    have e := (hframe.header hplace' declares registers).1 h.rooted.opened hopened
    exact hshadows.congr rfl rfl (e.rooted.findFunction?_closed e.length h.rooted) fun _ => rfl
  | @definition _ _ a1 a2 a3 _ _ ty declarations nodes _ _ index body type declares registers nonempty
      undefined inner bound =>
    obtain ⟨entry', s', hreads', hshadows⟩ := h.header hplace type declares registers nodes
    refine ⟨entry', s', hreads', ?_⟩
    obtain ⟨hheader, hplace2⟩ := hframe.header hplace' declares registers
    have hplace3 := hplace2.of_prefix inner.functionNames_prefix
    -- the body meets no function
    have hshadows3 : Shadows t a3 s' :=
      hshadows.congr (congrArg (List.map _) (inner.keepsFunctions hflat)) rfl
        (findFunction?_congr (inner.keepsBound hflat)) fun _ => rfl
    have e := hframe.trans _ _ _ (hframe.trans _ _ _ hheader (hframe.reads inner rfl trivial))
      (hframe.complete a3 slot name index body hplace3 bound) h.rooted.opened hopened
    exact (hshadows3.complete slot name index body).congr rfl rfl
      (e.rooted.findFunction?_closed e.length h.rooted) fun _ => rfl

theorem signatures (h : Abreast cx.globalDepth first t a s) (hplace : a.Places slot name)
    {nodes : List Node} {entries : List Entry}
    (hreads : Reads cx (.signatures false slot name nodes entries) a a')
    (hflat : ∀ node ∈ nodes, node.isFlatSignature = true) :
    ∃ entries' s', Reads cx (.signatures true slot name nodes entries') s s'
      ∧ Abreast cx.globalDepth first t a' s' := by
  induction nodes generalizing entries a s with
  | nil =>
    cases hreads
    exact ⟨[], s, .noMore, h⟩
  | cons node rest ih =>
    cases hreads with
    | more head others =>
      have hrest : ∀ node ∈ rest, node.isFlatSignature = true := fun node hnode =>
        hflat node (mem_cons_of_mem _ hnode)
      obtain ⟨entry', s1, hhead', h1⟩ := h.signature hplace head (hflat node mem_cons_self)
      obtain ⟨entries', s', hothers', h'⟩ :=
        ih h1 (hplace.of_prefix head.functionNames_prefix) others hrest
      exact ⟨_, s', .more hhead' hothers', h'⟩

theorem function (h : Abreast cx.globalDepth first t a s) {signatures : List Node}
    {entries : List Entry}
    (hreads : Reads cx (.function false (.symbol name :: signatures) slot entries) a a')
    (hflat : ∀ node ∈ signatures, node.isFlatSignature = true) :
    ∃ entries' s', Reads cx (.function true (.symbol name :: signatures) slot entries') s s'
      ∧ Abreast cx.globalDepth first t a' s' := by
  cases hreads with
  | overloads place inner =>
    obtain ⟨rfl, rfl⟩ := Prod.mk.inj place
    have hopen := scopes_ne_nil_of_overloads inner
    have hopen' : s.symbols.scopes ≠ [] := h.rooted'.ne_nil
    have hframe := evolves_frame cx.globalDepth
    have e := hframe.slot a cx name rfl hopen h.rooted h.inStep
    have e' := hframe.slot s cx name rfl hopen' h.rooted' h.inStep'
    have hplace : (s.slot cx name).1 = (a.slot cx name).1 := by
      rw [(slot_eq a cx name).1, (slot_eq s cx name).1, h.shadows.names]
    have h1 : Abreast cx.globalDepth first t (a.slot cx name).2 (s.slot cx name).2 := by
      refine ⟨h.shadows.slot h.inStep h.inStep' cx name hopen hopen', ?_, ?_, e.rooted, e.inStep,
        e'.rooted, e'.inStep, h.old⟩
      · rw [typeScopes_slot a cx name hopen, typeScopes_slot s cx name hopen', h.types]
      · rw [storage_slot]
        exact h.le
    obtain ⟨entries', s', hinner, h'⟩ := h1.signatures (places_slot a cx name) inner hflat
    have hslot : s.slot cx name = ((a.slot cx name).1, (s.slot cx name).2) := Prod.ext hplace rfl
    exact ⟨entries', s', .overloads hslot hinner, h'⟩

end Abreast

/-! ## §4. Documents -/

/-- **What can be read without a scan can be scanned.**  The scan meets the functions that the reading
    meets, and registers the same overloads. -/
theorem Lists.scans {cx : Context} {first : Nat} {placed : List Nat} {seen : Nat}
    {nodes : List Node} {items : List Item} {a a' s : ReadState}
    (hlists : Lists cx placed seen nodes items a a') (hflat : ∀ node ∈ nodes, node.isFlat = true
      ∧ ∀ sig ∈ node.signatureNodes, sig.isFlatSignature = true)
    (h : Abreast cx.globalDepth first t a s) :
    ∃ fs s', Scans cx nodes fs s s' ∧ Abreast cx.globalDepth first t a' s' := by
  induction hlists generalizing s with
  | nil => exact ⟨[], s, .nil s, h⟩
  | @cons placed fresh seen node rest i top items a a1 a' first met others ih =>
    have hrest := (forall_mem_cons.mp hflat).2
    cases first with
    | instruction head =>
      have hnode : node.isFunction = false ∧ node.isFlat = true :=
        ⟨head.isFunction_eq_false, (hflat node mem_cons_self).1⟩
      have hevolves := (head.leads trivial h.rooted h.inStep).1
      have h1 : Abreast cx.globalDepth first t a1 s := by
        refine ⟨?_, ?_, Nat.le_trans h.le (head.issued_le trivial), hevolves.rooted, hevolves.inStep,
          h.rooted', h.inStep', h.old⟩
        · exact h.shadows.congr (congrArg (List.map _) (head.keepsFunctions hnode)) rfl
            (findFunction?_congr (head.keepsBound hnode)) fun _ => rfl
        · rw [head.typeScopes trivial, h.types]
      obtain ⟨fs, s', hscans, h'⟩ := ih hrest h1
      exact ⟨fs, s', .skip hnode.1 hscans, h'⟩
    | function head =>
      obtain ⟨entries', s1, hhead, h1⟩ := h.function head (hflat _ mem_cons_self).2
      obtain ⟨fs, s', hscans, h'⟩ := ih hrest h1
      exact ⟨_, s', .function hhead hscans, h'⟩

end Shading
