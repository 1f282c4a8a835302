/-
  Shading.Proofs.Read.Table — what reading a text changes in the symbol table.

  A caller goes on with the table that reading left, whether it succeeded or not.  What may have
  changed in it is little.
-/
import Shading.Proofs.Read.InStep
import Shading.Proofs.Read.Overlay
import Shading.Proofs.Scan.Columns

namespace Shading

open ReadM

/-! ## §1. Overloads stay complete -/

/-- What is defined stays defined. -/
theorem defined_frame (d : Nat) :
    Frame d fun s s' => s.Rooted d → s.InStep →
      Evolves d s s' ∧ ∀ name i, s.symbols.definedAt name i = true →
        s'.symbols.definedAt name i = true where
  refl := fun s hr hi => ⟨(evolves_frame d).refl s hr hi, fun _ _ => id⟩
  trans := by
    intro s1 s2 s3 h1 h2 hr hi
    obtain ⟨e1, hdefined1⟩ := h1 hr hi
    obtain ⟨e2, hdefined2⟩ := h2 e1.rooted e1.inStep
    exact ⟨(evolves_frame d).trans _ _ _ (fun _ _ => e1) (fun _ _ => e2) hr hi,
      fun name i => hdefined2 name i ∘ hdefined1 name i⟩
  takeLoop := fun s hr hi => ⟨(evolves_frame d).takeLoop s hr hi, fun _ _ => id⟩
  declare := by
    intro s v hopen hr hi
    refine ⟨(evolves_frame d).declare s v hopen hr hi, fun name i h => ?_⟩
    rw [definedAt_of_eq (overloadAt?_congr (findFunction?_congr (functionScopes_declare hopen v))
      name i)]
    exact h
  slot := by
    intro s cx name hd hopen hr hi
    refine ⟨(evolves_frame d).slot s cx name hd hopen hr hi, fun other i h => ?_⟩
    rw [definedAt_of_eq (overloadAt?_slot hi cx name hopen other i)]
    exact h
  registers := by
    intro slot name returnType parameters index s s' hplace hmade hreg hr hi
    refine ⟨(evolves_frame d).registers _ _ _ _ _ _ _ hplace hmade hreg hr hi, fun other i h => ?_⟩
    rw [hreg.definedAt hi hplace]
    exact h
  complete := by
    intro s slot name index body hplace hbound hr hi
    refine ⟨(evolves_frame d).complete _ _ _ _ _ hplace hbound hr hi, fun other i h => ?_⟩
    rw [definedAt_complete, h, Bool.true_or]
  scope := by
    intro s s' hopen h hr hi
    obtain ⟨e, hdefined⟩ := h hr.opened ⟨hi.nodup, hi.agree⟩
    refine ⟨(evolves_frame d).scope _ _ hopen (fun _ _ => e) hr hi, fun name i hold => ?_⟩
    rw [definedAt_of_eq (overloadAt?_congr (e.rooted.findFunction?_closed e.length hr) name i)]
    exact hdefined name i hold

/-! ## §2. Functions stay where they are bound -/

/-- The second prototype has every overload of the first at its place, with the types it had, and
    complete if it was. -/
structure Prototype.Retains (p q : Prototype) : Prop extends p.Grows q where
  defined : ∀ (i : Nat) (o o' : Overload), p.overloads[i]? = some o → q.overloads[i]? = some o' →
    o.isDefined = true → o'.isDefined = true

theorem Prototype.Retains.refl (p : Prototype) : p.Retains p where
  toGrows := .refl p
  defined := by
    intro i o o' ho ho' hdefined
    obtain rfl : o = o' := Option.some.inj (ho.symm.trans ho')
    exact hdefined

/-- What a scope of the first table binds a function to, the same scope of the second binds it to,
    with no overload taken away or changed; and only the innermost scope binds new functions. -/
structure SymbolTable.Extends (t u : SymbolTable) : Prop where
  kept : ∀ (name : String) (i : Nat) (p : Prototype), (t.column name)[i]? = some (some p) →
    ∃ q, (u.column name)[i]? = some (some q) ∧ p.Retains q
  new : ∀ (name : String) (i : Nat) (q : Prototype), (u.column name)[i]? = some (some q) →
    (t.column name)[i]? = some Option.none → i = 0

theorem pin_of_unbound {d : Nat} {col : List (Option Prototype)}
    (h : col[pin d col]? = some none) : pin d col = col.length - d := by
  unfold pin at h ⊢
  cases hidx : col.findIdx? (·.isSome) with
  | none => rfl
  | some k =>
    rw [hidx, Option.getD_some] at h
    obtain ⟨hlt, hsome, -⟩ := List.findIdx?_eq_some_iff_getElem.mp hidx
    rw [List.getElem?_eq_getElem hlt] at h
    rw [Option.some.inj h] at hsome
    cases hsome

theorem Prototype.Grows.retains {t u : SymbolTable} {name : String} {p q : Prototype}
    (h : p.Grows q) (hp : t.findFunction? name = some p) (hq : u.findFunction? name = some q)
    (hdefined : ∀ i, t.definedAt name i = true → u.definedAt name i = true) : p.Retains q where
  toGrows := h
  defined := by
    intro i o o' ho ho' hcomplete
    have hold : t.overloadAt? name i = some o := by
      rw [SymbolTable.overloadAt?, hp, Option.bind_some, ho]
    have hnew : u.overloadAt? name i = some o' := by
      rw [SymbolTable.overloadAt?, hq, Option.bind_some, ho']
    have hkept := hdefined i
    simp only [SymbolTable.definedAt, hold, hnew, Option.any_some] at hkept
    exact hkept hcomplete

/-- Columns that stay pinned extend the table. -/
theorem extends_of_pinned {t u : SymbolTable} (hgrows : t.Grows u)
    (hpinned : ∀ name, Pinned t.depth (t.column name) (u.column name))
    (hdefined : ∀ name i, t.definedAt name i = true → u.definedAt name i = true) : t.Extends u where
  kept := by
    intro name i p hp
    by_cases hi : i = pin t.depth (t.column name)
    · -- the place that callers see
      subst hi
      have hfind : t.findFunction? name = some p := by
        rw [t.findFunction?_eq_column, findSome?_eq_pin t.depth, hp]
        rfl
      obtain ⟨q, hq, hpq⟩ := hgrows name p hfind
      refine ⟨q, ?_, hpq.retains hfind hq (hdefined name)⟩
      rw [u.findFunction?_eq_column, findSome?_eq_pin t.depth, (hpinned name).place] at hq
      exact Option.join_eq_some_iff.mp hq
    · exact ⟨p, ((hpinned name).others i hi).trans hp, .refl p⟩
  new := by
    intro name i q hq hnone
    obtain rfl : i = pin t.depth (t.column name) := by
      by_contra hi
      rw [(hpinned name).others i hi, hnone] at hq
      cases hq
    rw [pin_of_unbound hnone, t.length_column]
    exact Nat.sub_self _

/-! ## §3. Documents -/

/-- The state in which the nodes of a document are read: it was scanned, if that is asked for. -/
def Scanned (scan : Bool) (u : CompilationUnit) (nodes : List Node) (s : ReadState) : Prop :=
  if scan then
    Yields (Read.scanPrototypes ⟨none, none, u.symbols.depth⟩ nodes)
      (u.start.noted (.scanning nodes.length)) () s
  else s = u.start

variable {u : CompilationUnit} {s : ReadState}

theorem readDocument_read {scan : Bool} {nodes : List Node} {ir : List Instruction}
    (h : Yields (Read.readDocument scan nodes) u.start ir s) :
    ∃ s1 is s2 n, Scanned scan u nodes s1
      ∧ Yields (readInstructions ⟨none, none, u.symbols.depth⟩ nodes)
        (s1.noted (.reading nodes.length)) is s2
      ∧ s = s2.noted n := by
  obtain ⟨s1, items, s2, hscan, hitems, -, hs⟩ := yields_readDocument.mp h
  obtain ⟨is, his⟩ := (alike_readItems _ _ _ _ _).yields hitems
  exact ⟨s1, is, s2, _, hscan, his, hs⟩

/-- Where a document fails: in the scan or in an item. -/
theorem readDocument_fails {scan : Bool} {nodes : List Node} {e : ReadError}
    (h : (Read.readDocument scan nodes).run.run u.start = (.error e, s)) :
    (scan = true ∧ (Read.scanPrototypes ⟨none, none, u.symbols.depth⟩ nodes).run.run
        (u.start.noted (.scanning nodes.length)) = (.error e, s))
      ∨ ∃ s1, Scanned scan u nodes s1
        ∧ (readInstructions ⟨none, none, u.symbols.depth⟩ nodes).run.run
          (s1.noted (.reading nodes.length)) = (.error e, s) := by
  -- what comes behind the scan fails where the block does
  have hrest : ∀ s1 : ReadState, (do
      note (.reading nodes.length)
      let t ← get
      let items ← Read.readItems ⟨none, none, u.symbols.depth⟩ [] t.functions.length nodes
      let t ← get
      note (.finished items.length t.functions.length)
      pure (items.filterMap (Read.resolve t.functions)) : ReadM (List Instruction)).run.run s1
        = (.error e, s) →
      (readInstructions ⟨none, none, u.symbols.depth⟩ nodes).run.run
        (s1.noted (.reading nodes.length)) = (.error e, s) := by
    intro s1 hrun
    rw [run_bind_eq_error] at hrun
    rcases hrun with hrun | ⟨_, s2, hnote, hrun⟩
    · cases hrun
    obtain rfl : s2 = s1.noted (.reading nodes.length) := yields_note.mp hnote
    rw [run_bind_eq_error] at hrun
    rcases hrun with hrun | ⟨t, s3, hget, hrun⟩
    · cases hrun
    obtain ⟨rfl, rfl⟩ := yields_get.mp hget
    rw [run_bind_eq_error] at hrun
    rcases hrun with hrun | ⟨items, s4, -, hrun⟩
    · exact (alike_readItems _ _ _ _ _).error hrun
    · cases hrun
  unfold Read.readDocument at h
  rw [run_bind_eq_error] at h
  rcases h with h | ⟨t, _, hget, h⟩
  · cases h
  obtain ⟨rfl, rfl⟩ := yields_get.mp hget
  cases scan with
  | false => exact .inr ⟨_, rfl, hrest _ h⟩
  | true =>
    rw [if_pos rfl, run_bind_eq_error] at h
    rcases h with h | ⟨_, s1, hnote, h⟩
    · cases h
    obtain rfl : s1 = u.start.noted (.scanning nodes.length) := yields_note.mp hnote
    rw [run_bind_eq_error] at h
    rcases h with h | ⟨_, s2, hscan, h⟩
    · exact .inl ⟨rfl, h⟩
    · exact .inr ⟨s2, hscan, hrest s2 h⟩

/-- What reading keeps of functions, where a scope is open and functions are in step. -/
def KeepsFunctions (d : Nat) (s s' : ReadState) : Prop :=
  (s.Rooted d → s.InStep →
    Evolves d s s' ∧ ∀ name, Pinned d (s.symbols.column name) (s'.symbols.column name))
  ∧ (s.Rooted d → s.InStep →
    Evolves d s s' ∧ ∀ name i, s.symbols.definedAt name i = true →
      s'.symbols.definedAt name i = true)

theorem keepsFunctions_frame (d : Nat) : Frame d (KeepsFunctions d) :=
  (pinned_frame d).and (defined_frame d)

theorem keepsFunctions_noted (d : Nat) (s : ReadState) (n : ReadNote) :
    KeepsFunctions d s (s.noted n) := by
  have hevolves : s.Rooted d → s.InStep → Evolves d s (s.noted n) := fun hr hi =>
    ⟨⟨hr.pos, hr.le, hr.inner⟩, rfl, ⟨hi.nodup, hi.agree⟩, .refl _⟩
  exact ⟨fun hr hi => ⟨hevolves hr hi, fun _ => .of_eq rfl⟩,
    fun hr hi => ⟨hevolves hr hi, fun _ _ => id⟩⟩

theorem KeepsFunctions.extends (h : KeepsFunctions u.symbols.depth u.start s)
    (hopen : u.symbols.scopes ≠ []) : u.symbols.Extends s.symbols := by
  obtain ⟨hr, hi⟩ := (steady_start u).of_ne_nil hopen
  obtain ⟨e, hpinned⟩ := h.1 hr hi
  obtain ⟨-, hdefined⟩ := h.2 hr hi
  exact extends_of_pinned e.grows hpinned hdefined

section

variable {scan : Bool} {u : CompilationUnit} {nodes : List Node}

theorem keepsFunctions_clamped (hopen : u.symbols.scopes ≠ []) :
    Frame (max 1 u.symbols.depth) (KeepsFunctions u.symbols.depth) := by
  have hdepth : 1 ≤ u.symbols.depth := List.length_pos_iff.mpr hopen
  rw [Nat.max_eq_right hdepth]
  exact keepsFunctions_frame _

/-- The scan leaves variables and types alone. -/
theorem keeps_scan (hopen : u.symbols.scopes ≠ [])
    (hs : ((Read.scanPrototypes ⟨none, none, u.symbols.depth⟩ nodes).run.run
      (u.start.noted (.scanning nodes.length))).2 = s) :
    s.Held u.symbols.depth ∧ Overlays [] [] u s.unit
      ∧ KeepsFunctions u.symbols.depth u.start s := by
  subst hs
  have hheld : (u.start.noted (.scanning nodes.length)).Held u.symbols.depth :=
    (held_start u).of_symbols rfl rfl
  have hframe := keepsFunctions_clamped hopen
  let cx : Context := ⟨none, none, u.symbols.depth⟩
  have hdepth : cx.globalDepth = u.symbols.depth := rfl
  have hscan : ∀ {R T : ReadState → ReadState → Prop}, Frame (max 1 u.symbols.depth) R →
      Seals (max 1 u.symbols.depth) R T → Proceeds u.symbols.depth T _ _ := fun hR hT =>
    (mirrors_scan hR hT (S := fun _ => True) hdepth (fun node (_ : node ∈ nodes) _ _ => trivial) _
      hheld trivial).ends.related
  have hvars := hscan (inner_frame _) (overlays_seals _)
  exact ⟨hvars.held, hvars.related hopen,
    hframe.trans _ _ _ (keepsFunctions_noted _ _ _) ((hscan hframe hframe.seals).related hopen)⟩

theorem Scanned.keeps (h : Scanned scan u nodes s) (hopen : u.symbols.scopes ≠ []) :
    s.Held u.symbols.depth ∧ Overlays [] [] u s.unit
      ∧ KeepsFunctions u.symbols.depth u.start s := by
  cases scan with
  | false =>
    obtain rfl : s = u.start := h
    exact ⟨held_start u, .refl u, (keepsFunctions_frame _).refl _⟩
  | true =>
    have hrun : (Read.scanPrototypes ⟨none, none, u.symbols.depth⟩ nodes).run.run
        (u.start.noted (.scanning nodes.length)) = (.ok (), s) := h
    exact keeps_scan hopen (congrArg Prod.snd hrun)

theorem Scanned.meets (h : Scanned scan u nodes s) (hopen : u.symbols.scopes ≠ []) :
    (readInstructions ⟨none, none, u.symbols.depth⟩ nodes).Meets (s.noted (.reading nodes.length))
      (Node.globalsIn nodes)
      (Stops ⟨none, none, u.symbols.depth⟩ nodes (s.noted (.reading nodes.length))) := by
  obtain ⟨hs, o, -⟩ := h.keeps hopen
  exact meets_readInstructions _ _ _ (hs.of_symbols rfl rfl) (o.ne_nil hopen)

theorem Scanned.keepsFunctions {s' : ReadState} (h : Scanned scan u nodes s)
    (hopen : u.symbols.scopes ≠ [])
    (hs' : ((readInstructions ⟨none, none, u.symbols.depth⟩ nodes).run.run
      (s.noted (.reading nodes.length))).2 = s') : KeepsFunctions u.symbols.depth u.start s' := by
  subst hs'
  obtain ⟨hs, o, k⟩ := h.keeps hopen
  have hheld : (s.noted (.reading nodes.length)).Held u.symbols.depth := hs.of_symbols rfl rfl
  have hframe := keepsFunctions_clamped hopen
  have hread := ((mirrors_read hframe hframe.seals (S := fun _ => True)).2.2.1
    ⟨none, none, u.symbols.depth⟩ nodes rfl (.all fun _ _ _ _ => trivial) _ hheld
    trivial).ends.related
  exact hframe.trans _ _ _ (hframe.trans _ _ _ k (keepsFunctions_noted _ _ _))
    (hread.related (o.ne_nil hopen))

end

/-! ## §4. Texts -/

/-- The declarations outside of functions that were read of a text, given what came out of it. -/
inductive Declared (scan : Bool) (u : CompilationUnit) (text : String) :
    Except ReadError (List Instruction) → List Node → Prop
  /-- All of them, if the text was read. -/
  | all {nodes : List Node} {ir : List Instruction} (parsed : readExpressions text = .ok nodes) :
      Declared scan u text (.ok ir) (Node.globalsIn (Read.documentNodes nodes))
  /-- None, if the text is not made of S-expressions. -/
  | unparsed {e : SexpError} (parsed : readExpressions text = .error e) :
      Declared scan u text (.error ⟨.sexp e, none, none⟩) []
  /-- None, if the prototypes cannot be scanned. -/
  | unscanned {nodes : List Node} {e : ReadError} (parsed : readExpressions text = .ok nodes)
      (asked : scan = true)
      (fails : Fails (Read.scanPrototypes ⟨none, none, u.symbols.depth⟩ (Read.documentNodes nodes))
        (u.start.noted (.scanning (Read.documentNodes nodes).length)) e) :
      Declared scan u text (.error e) []
  /-- Those before the node that cannot be read. -/
  | stopped {nodes before : List Node} {e : ReadError} {s : ReadState}
      (parsed : readExpressions text = .ok nodes)
      (scanned : Scanned scan u (Read.documentNodes nodes) s)
      (stops : Stops ⟨none, none, u.symbols.depth⟩ (Read.documentNodes nodes)
        (s.noted (.reading (Read.documentNodes nodes).length)) before e) :
      Declared scan u text (.error e) before

/-- **What reading a text changes in the symbol table**, whether it succeeds or fails.

    As many scopes are open, and every scope binds the types that it bound.  The declarations
    outside of functions that were read lie over the variables of the innermost scope, in the order
    of the text, and the other scopes bind the variables that they bound.  Every scope binds the
    functions that it bound, with their overloads at their places; an overload keeps its return type
    and the types of its parameters, and stays complete if it was.  Only the innermost scope binds new
    functions. -/
theorem readModule_changes_table (scan : Bool) (u : CompilationUnit) (text : String)
    (hopen : u.symbols.scopes ≠ []) :
    (readModule scan u text).after.symbols.depth = u.symbols.depth
      ∧ (readModule scan u text).after.symbols.typeScopes = u.symbols.typeScopes
      ∧ (∃ nodes vs, Declared scan u text (readModule scan u text).outcome nodes
        ∧ Overlays nodes vs u (readModule scan u text).after)
      ∧ u.symbols.Extends (readModule scan u text).after.symbols := by
  suffices h : ∃ nodes vs, Declared scan u text (readModule scan u text).outcome nodes
      ∧ Overlays nodes vs u (readModule scan u text).after
      ∧ u.symbols.Extends (readModule scan u text).after.symbols by
    obtain ⟨nodes, vs, hdeclared, o, hextends⟩ := h
    exact ⟨o.length_eq, o.types, ⟨nodes, vs, hdeclared, o⟩, hextends⟩
  cases hparsed : readExpressions text with
  | error e =>
    simp only [readModule, hparsed]
    exact ⟨[], [], .unparsed hparsed, .refl u,
      ((keepsFunctions_frame _).refl u.start).extends hopen⟩
  | ok nodes =>
    rw [readModule_eq hparsed]
    rcases hrun : (Read.readDocument scan (Read.documentNodes nodes)).run.run u.start
      with ⟨e | ir, s⟩
    · rcases readDocument_fails hrun with ⟨hasked, hscan⟩ | ⟨s₁, hscanned, hread⟩
      · obtain ⟨-, o, k⟩ := keeps_scan hopen (congrArg Prod.snd hscan)
        exact ⟨[], [], .unscanned hparsed hasked (congrArg Prod.fst hscan), o, k.extends hopen⟩
      · obtain ⟨-, o₁, -⟩ := hscanned.keeps hopen
        obtain ⟨before, vs, hstops, o₂⟩ := (hscanned.meets hopen).stopped e s hread
        exact ⟨before, vs, .stopped hparsed hscanned hstops, o₁.append o₂,
          (hscanned.keepsFunctions hopen (congrArg Prod.snd hread)).extends hopen⟩
    · obtain ⟨s₁, is, s₂, n, hscanned, hread, rfl⟩ := readDocument_read hrun
      obtain ⟨-, o₁, -⟩ := hscanned.keeps hopen
      obtain ⟨vs, o₂⟩ := (hscanned.meets hopen).read is s₂ hread
      exact ⟨_, vs, .all hparsed, o₁.append o₂,
        (hscanned.keepsFunctions hopen (congrArg Prod.snd hread)).extends hopen⟩

/-- A unit with a scope inside of that of a module, which has declared a variable and a function. -/
def unitInside : CompilationUnit :=
  let u := (readModule true .fresh
    ("(declare () int a)" ++
      "(function f (signature int (parameters (declare (in) int p)) ()))")).after
  ⟨u.storage, u.symbols.push⟩

/-- A text that completes the function, declares two variables outside of functions, and fails in a
    function of its own, before a third. -/
def failsInside : String :=
  "(declare () int x)" ++
  "(function f (signature int (parameters (declare (in) int q)) ((declare () int hidden))))" ++
  "(if (constant bool (1)) ((declare () float y)) ())" ++
  "(function g (signature void (parameters) ((declare () int z) (break))))" ++
  "(declare () int late)"

/-- The outer scope keeps its variable and has its function completed; the inner one has the two
    variables before the failure, and the new function. -/
theorem readModule_changes_table_failsInside :
    unitInside.symbols.scopes ≠ []
      ∧ (readModule true unitInside failsInside).after.symbols.depth = unitInside.symbols.depth
      ∧ (∃ nodes vs, Declared true unitInside failsInside
          (readModule true unitInside failsInside).outcome nodes
        ∧ Overlays nodes vs unitInside (readModule true unitInside failsInside).after)
      ∧ unitInside.symbols.Extends (readModule true unitInside failsInside).after.symbols
      ∧ (readModule true unitInside failsInside).outcome.toOption.isNone = true
      ∧ (readModule true unitInside failsInside).after.symbols.varScopes.map (·.map (·.1))
        = [["y", "x"], ["a"]]
      ∧ ((readModule true unitInside failsInside).after.symbols.column "f").map
          (·.map (·.overloads.map (·.isDefined))) = [none, some [true]]
      ∧ ((readModule true unitInside failsInside).after.symbols.column "g").map
          (·.map (·.overloads.map (·.isDefined))) = [some [false], none] := by
  have hopen : unitInside.symbols.scopes ≠ [] := List.cons_ne_nil _ _
  obtain ⟨hdepth, -, hvars, hfunctions⟩ := readModule_changes_table true unitInside failsInside hopen
  refine ⟨hopen, hdepth, hvars, hfunctions, ?_⟩
  decide +kernel

end Shading
