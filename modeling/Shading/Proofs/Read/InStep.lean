/-
  Shading.Proofs.Read.InStep — functions and prototypes are in step at every call of the reader.

  Each function has two faces while a module is read, and the reader changes them one after the
  other, with bodies read in between that may hold the same function again.  A watched reading logs
  the states in which calls begin and end, of readings that fail too.  It is shown to do what the
  reader does, call by call (`Mirrors`), so what holds of its log holds of the reader.
-/
import Shading.Proofs.Read.Calls
import Shading.Proofs.Read.Safe

namespace Shading

open List ReadM

variable {nodes : List Node}

/-! ## §1. Watched computations that do what the reader does -/

variable {slot : Nat} {name : String} {d : Nat} {R T : ReadState → ReadState → Prop}
  {S : Site → Prop}

section

variable {α β : Type} {s : ReadState}

/-- From the state, the watched computation ends as the reader's does, and all that it logs is in
    step. -/
def WatchM.Logs (x : WatchM α) (y : ReadM α) (s : ReadState) : Prop :=
  ∀ seen, ∃ more, x.run.run ⟨s, seen⟩
      = ((y.run.run s).1.mapError Stop.failed, ⟨(y.run.run s).2, more ++ seen⟩)
    ∧ ∀ t ∈ more, t.InStep

/-- The reader's computation ends in a state that comes after the first, loses no function, and fails
    at a site if it fails; and the watched one does what it does. -/
structure Mirrors (d : Nat) (T : ReadState → ReadState → Prop) (S : Site → Prop) (x : WatchM α)
    (y : ReadM α) (s : ReadState) (Q : α → ReadState → Prop) : Prop where
  ends : y.Ends (Proceeds d T) (ReadError.Fits S) s Q
  logs : x.Logs y s

namespace Mirrors

variable {x : WatchM α} {y : ReadM α} {P Q : α → ReadState → Prop}

theorem step (h : y.Ends (Proceeds d T) (ReadError.Fits S) s Q) : Mirrors d T S (WatchM.step y) y s Q :=
  ⟨h, fun _ => ⟨[], rfl, nofun⟩⟩

theorem pure (hs : s.Held d) (hT : T s s) {a : α} (hQ : Q a s) :
    Mirrors d T S (Pure.pure a : WatchM α) (Pure.pure a) s Q :=
  ⟨ends_pure (.refl hs hT) hQ, fun _ => ⟨[], rfl, nofun⟩⟩

/-- Watching a sequence watches its parts. -/
theorem bind {f : α → WatchM β} {g : α → ReadM β} {P' : β → ReadState → Prop}
    (hx : Mirrors d T S x y s P) (htrans : ∀ s1 s2 s3, T s1 s2 → T s2 s3 → T s1 s3)
    (hf : ∀ a s', P a s' → Proceeds d T s s' → Mirrors d T S (f a) (g a) s' P') :
    Mirrors d T S (x >>= f) (y >>= g) s P' := by
  refine ⟨hx.ends.bind (Proceeds.trans htrans) fun a s' ha k => (hf a s' ha k).ends, ?_⟩
  intro seen
  obtain ⟨more, hrun, hmore⟩ := hx.logs seen
  rw [run_bind x, run_bind y, hrun]
  cases hresult : (y.run.run s).1 with
  | error e => exact ⟨more, rfl, hmore⟩
  | ok a =>
    have ha := hf a _ (hx.ends.answer a hresult) hx.ends.related
    obtain ⟨more', hrun', hmore'⟩ := ha.logs (more ++ seen)
    refine ⟨more' ++ more, ?_, ?_⟩
    · rw [append_assoc]
      exact hrun'
    · intro t ht
      rcases mem_append.mp ht with ht | ht
      · exact hmore' t ht
      · exact hmore t ht

theorem passes {c : WatchM β} {b : β} {f : β → WatchM α}
    (hc : ∀ seen, c.run.run ⟨s, seen⟩ = (.ok b, ⟨s, seen⟩)) (h : Mirrors d T S (f b) y s Q) :
    Mirrors d T S (c >>= f) y s Q := by
  refine ⟨h.ends, fun seen => ?_⟩
  rw [run_bind, hc]
  exact h.logs seen

/-- Whatever a call does, the states before and after are seen. -/
theorem call (hs : s.Held d) (h : Mirrors d T S x y s Q) : Mirrors d T S (WatchM.call x) y s Q := by
  refine ⟨h.ends, fun seen => ?_⟩
  obtain ⟨more, hrun, hmore⟩ := h.logs (s :: seen)
  refine ⟨(y.run.run s).2 :: (more ++ [s]), ?_, ?_⟩
  · show ((x.run.run ⟨s, s :: seen⟩).1, Watched.mk (x.run.run ⟨s, s :: seen⟩).2.state
      ((x.run.run ⟨s, s :: seen⟩).2.state :: (x.run.run ⟨s, s :: seen⟩).2.seen)) = _
    rw [hrun]
    simp
  · intro t ht
    simp only [mem_cons, mem_append, not_mem_nil, or_false] at ht
    rcases ht with rfl | ht | rfl
    · exact h.ends.related.held.inStep
    · exact hmore t ht
    · exact hs.inStep

/-- A scope is opened and closed around what is watched. -/
theorem inScope (hT : Seals (max 1 d) R T) (hs : s.Held d) (hopen : s.symbols.scopes ≠ [])
    (h : Mirrors d R S x y s.opened P) :
    Mirrors d T S (WatchM.inScope x) (ReadM.inScope y) s fun _ _ => True := by
  refine ⟨ends_inScope h.ends fun t k => ⟨?_, fun _ => hT.scope s t hopen (k.related (cons_ne_nil _ _))⟩,
    fun seen => ?_⟩
  · exact (continues_frame d).scope s t hopen (fun _ _ => k.toContinues) (hs.rooted hopen) hs.inStep
  · obtain ⟨more, hlog, hmore⟩ := h.logs seen
    refine ⟨more, ?_, hmore⟩
    show ((x.run.run ⟨s.opened, seen⟩).1, Watched.mk (x.run.run ⟨s.opened, seen⟩).2.state.closed
      (x.run.run ⟨s.opened, seen⟩).2.seen) = _
    rw [hlog]
    rfl

end Mirrors

theorem held_opened (hs : s.Held d) (hopen : s.symbols.scopes ≠ []) : s.opened.Held d :=
  ⟨⟨hs.inStep.nodup, hs.inStep.agree⟩, .inl (hs.rooted hopen).opened⟩

theorem run_inRange {index : Nat} (h : s.hasOverload slot name index = true) (seen : List ReadState)
    :
    (WatchM.inRange slot name index).run.run ⟨s, seen⟩ = (.ok (), ⟨s, seen⟩) := by
  show (if s.hasOverload slot name index then Except.ok () else .error Stop.outOfRange,
    Watched.mk s seen) = _
  rw [if_pos h]

variable {cx : Context} {node : Node}

theorem mirrors_reading (hs : s.Held d) (hT : T s s) {f : Env → Except ReadError α}
    (hf : FailsAt S (f (s.env cx))) :
    Mirrors d T S (WatchM.step (reading cx f)) (reading cx f) s fun a s' =>
      f (s.env cx) = .ok a ∧ s' = s :=
  .step (ends_reading (.refl hs hT) hf)

theorem mirrors_functionSlot (hT : Seals (max 1 d) R T) (hs : s.Held d) (hd : cx.globalDepth = d)
    (name : String) :
    Mirrors d T S (WatchM.step (functionSlot cx name)) (functionSlot cx name) s fun slot s' =>
      s'.Places slot name := by
  refine .step (ends_functionSlot ⟨continues_slot hs hd name, fun hopen => ?_⟩)
  rw [← slot_clamped]
  exact hT.slot s _ name (by rw [← hd]) hopen

theorem mirrors_readDeclarations (hR : Frame (max 1 d) R) (hs : s.Held d)
    (hopen : s.symbols.scopes ≠ [])
    (h : ∀ node ∈ nodes, Covers S cx.function node) :
    Mirrors d R S (WatchM.step (readDeclarations cx nodes)) (readDeclarations cx nodes) s fun vs s' =>
      Declares cx nodes vs s s' :=
  .step (ends_readDeclarations (fun _ _ _ hdecl => hR.proceeds hs hopen fun hT => hT.declares hdecl)
    fun node hnode _ => failsAt_readVariable (h node hnode))

theorem ends_register_held (hR : Frame (max 1 d) R) (hs : s.Held d) (hplace : s.Places slot name)
    (hS : S ⟨cx.function, node⟩) (returnType : Ty) {parameters : List Var}
    (hmade : ∀ v ∈ parameters, v.id < s.storage.vars.issued) :
    (register cx node slot name returnType parameters).Ends (Proceeds d R) (ReadError.Fits S) s
      fun index s' => s'.hasOverload slot name index = true := by
  have hstep : ∀ index s', Registers slot name returnType parameters index s s' →
      Proceeds d R s s' := fun _ _ hreg =>
    hR.proceeds hs (hs.ne_nil hplace) fun hT => hT.registers _ _ _ _ _ _ _ hplace hmade hreg
  -- the function is bound, so it is not lost
  have hbound : ∀ p : Problem, (p.isLost = true → s.symbols.findFunction? name = none) →
      p.isLost = false := by
    intro p hlost
    obtain ⟨q, hq, -⟩ := hs.exists_prototype hplace
    cases hp : p.isLost with
    | false => rfl
    | true =>
      rw [hlost hp] at hq
      cases hq
  exact (ends_register (.refl hs (hR.refl s)) hstep fun p hp => ⟨hbound p hp, node, rfl, hS⟩).mono
    (fun _ k => k) fun index s' hreg =>
      hasOverload_registers hs hplace hreg (hstep index s' hreg).toContinues

/-- Registering a signature never loses the prototype. -/
theorem mirrors_register (hR : Frame (max 1 d) R) (hs : s.Held d) (hplace : s.Places slot name)
    (hS : S ⟨cx.function, node⟩) (returnType : Ty) {parameters : List Var}
    (hmade : ∀ v ∈ parameters, v.id < s.storage.vars.issued) :
    Mirrors d R S (WatchM.register cx node slot name returnType parameters)
      (register cx node slot name returnType parameters) s fun index s' =>
        s'.hasOverload slot name index = true := by
  obtain ⟨p, hp, hlen⟩ := hs.exists_prototype hplace
  -- the two checks before the overload is registered leave the state alone
  have hprototype : ∀ seen, (WatchM.step (prototype cx node name)).run.run ⟨s, seen⟩
      = (.ok p, ⟨s, seen⟩) := by
    intro seen
    have hyields : (prototype cx node name).run.run s = (.ok p, s) :=
      yields_prototype.mpr ⟨hp, rfl⟩
    show (((prototype cx node name).run.run s).1.mapError _,
      Watched.mk ((prototype cx node name).run.run s).2 seen) = _
    rw [hyields]
    rfl
  have hmatched : ∀ seen,
      ((p.matching? (parameters.map (·.ty))).forM (WatchM.inRange slot name)).run.run ⟨s, seen⟩
        = (.ok (), ⟨s, seen⟩) := by
    intro seen
    cases hm : p.matching? (parameters.map (·.ty)) with
    | none => rfl
    | some index =>
      obtain ⟨o, ho, -⟩ := Prototype.matching?_eq_some hm
      have hlt := (List.getElem?_eq_some_iff.mp ho).1
      exact run_inRange (hs.hasOverload hplace (by omega)) seen
  have hregister : Mirrors d R S (do
        let index ← WatchM.step (register cx node slot name returnType parameters)
        WatchM.inRange slot name index
        pure index)
      (register cx node slot name returnType parameters >>= pure) s fun index s' =>
        s'.hasOverload slot name index = true := by
    refine (Mirrors.step (ends_register_held hR hs hplace hS returnType hmade)).bind hR.trans ?_
    intro index s' hhas k
    exact .passes (run_inRange hhas) (.pure k.held (hR.refl s') hhas)
  rw [bind_pure] at hregister
  exact .passes hprototype (.passes hmatched hregister)

theorem mirrors_define (hR : Frame (max 1 d) R) (hs : s.Held d) (hplace : s.Places slot name)
    (index : Nat) (body : List Instruction) :
    Mirrors d R S (WatchM.step (define cx node slot index name body))
      (define cx node slot index name body) s fun _ _ => True := by
  refine .step (ends_define (.refl hs (hR.refl s)) (fun hbound => ?_) fun hnone => ?_)
  · exact hR.proceeds hs (hs.ne_nil hplace) fun hT =>
      hT.complete s slot name index body hplace hbound
  · obtain ⟨p, hp, -⟩ := hs.exists_prototype hplace
    rw [hnone] at hp
    cases hp

/-! ## §2. The watched reader does what the reader does -/

/-- The computations mirror each other from every state that reading has kept. -/
def MirrorsFrom (d : Nat) (T : ReadState → ReadState → Prop) (S : Site → Prop)
    (P : ReadState → Prop) (x : WatchM α) (y : ReadM α) : Prop :=
  ∀ s : ReadState, s.Held d → P s → Mirrors d T S x y s fun _ _ => True

theorem ends_simple (hs : s.Held d) (hT : T s s)
    (htrans : ∀ s1 s2 s3, T s1 s2 → T s2 s3 → T s1 s3) {f : Env → Except ReadError α}
    (g : α → Instruction) (hf : FailsAt S (f (s.env cx))) :
    (do let a ← reading cx f; pure (some (g a)) : ReadM (Option Instruction)).Ends (Proceeds d T)
      (ReadError.Fits S) s fun _ _ => True := by
  refine (ends_reading (.refl hs hT) hf).bind (Proceeds.trans htrans) ?_
  rintro a s ⟨-, rfl⟩ -
  exact ends_pure (.refl hs hT) trivial

end

variable {s : ReadState} {cx : Context} {node : Node}

theorem watchInstruction_tagged (cx : Context) {tag : String} (tail : List Node)
    (htag : tag ∉ ["function", "if", "loop"]) :
    watchInstruction cx (.list (.symbol tag :: tail))
      = WatchM.call (WatchM.step (readInstruction cx (.list (.symbol tag :: tail)))) := by
  rw [watchInstruction]
  · intro parts h
    cases h
    simp at htag
  · intro condition thenBody elseBody h
    cases h
    simp at htag
  · intro counter start stop increment body h
    cases h
    simp at htag

theorem mirrors_simple (hs : s.Held d)
    (hwatch : watchInstruction cx node = WatchM.call (WatchM.step (readInstruction cx node)))
    (h : (readInstruction cx node).Ends (Proceeds d T) (ReadError.Fits S) s fun _ _ => True) :
    Mirrors d T S (watchInstruction cx node) (readInstruction cx node) s fun _ _ => True := by
  rw [hwatch]
  exact .call hs (.step h)

theorem watchScan_skip {rest : List Node} (h : node.isFunction = false) :
    watchScan cx (node :: rest) = watchScan cx rest := by
  rw [watchScan]
  intro parts heq
  rw [heq] at h
  cases h

theorem watchTop_other (h : node.isFunction = false) :
    watchTop cx node = (do
      let i ← watchInstruction cx node
      pure (i, none)) := by
  rw [watchTop]
  intro parts heq
  rw [heq] at h
  cases h

section

variable (hR : Frame (max 1 d) R) (hT : Seals (max 1 d) R T)

include hR

theorem ends_jump (hs : s.Held d) (mode : JumpMode) (hS : S ⟨cx.function, node⟩) :
    (reading cx fun env => some <$> env.check node (Instruction.mkJump mode cx.enclosing)).Ends
      (Proceeds d R) (ReadError.Fits S) s fun _ _ => True :=
  (mirrors_reading hs (hR.refl s) ((failsAt_check hS _).map some)).ends.mono (fun _ k => k)
    fun _ _ _ => trivial

include hT

/-- A signature is watched with its body. -/
theorem mirrors_signature {scan : Bool} {ty parameters body : Node}
    (h : HeadCovers S cx.function (.list [.symbol "signature", ty, parameters, body]))
    (hbody : ∀ nodes, body = .list nodes → MirrorsFrom d R S (fun _ => True)
      (watchBlock { cx with function := some name, enclosing := none } body)
      (readBlock { cx with function := some name, enclosing := none } body)) :
    MirrorsFrom d T S (·.Places slot name)
      (watchSignature cx scan slot name (.list [.symbol "signature", ty, parameters, body]))
      (readSignature cx scan slot name (.list [.symbol "signature", ty, parameters, body])) := by
  intro s hs hplace
  obtain ⟨hty, hparameters⟩ := h.parts ty parameters body rfl
  rw [watchSignature, readSignature]
  refine .call hs ((mirrors_reading hs (hT.refl s)
    (failsAt_readSignatureHead h.self hty hparameters.self)).bind hT.trans ?_)
  rintro ⟨returnType, declarations⟩ s ⟨hhead, rfl⟩ -
  -- the head has been read, so parameters and body are lists
  obtain ⟨-, rfl, nodes, rfl⟩ := readSignatureHead_eq_ok.mp hhead
  have hopen := hs.ne_nil hplace
  have hopened : s.opened.symbols.scopes ≠ [] := cons_ne_nil _ _
  have hplace' : s.opened.Places slot name := hplace
  refine .inScope (P := fun _ _ => True) hT hs hopen ?_
  refine (mirrors_readDeclarations hR (held_opened hs hopen) hopened
    (hparameters.tagged (by decide))).bind hR.trans fun ps s1 hdecl k1 => ?_
  refine (mirrors_register hR k1.held (k1.places hplace') h.self returnType
    (made_of_declares hdecl).2).bind hR.trans fun index s2 hhas k2 => ?_
  have hplace2 := k2.places (k1.places hplace')
  split
  · exact .pure k2.held (hR.refl s2) trivial
  · refine (Mirrors.step (ends_signatures (.refl k2.held (hR.refl s2)) slot)).bind hR.trans ?_
    rintro known s2 rfl -
    refine .passes (run_inRange hhas) ?_
    split
    · exact .step (ends_fail (.refl k2.held (hR.refl s2)) ⟨rfl, _, rfl, h.self⟩)
    · refine (hbody nodes rfl s2 k2.held trivial).bind hR.trans fun is s3 _ k3 => ?_
      -- the body may have extended the function, but its overloads stay where they are
      refine .passes (run_inRange (k3.hasOverload hplace2 hhas)) ?_
      exact mirrors_define hR k3.held (k3.places hplace2) index is

/-- **The watched reader does what the reader does, and logs only states in step.**  The reader keeps
    what each of its steps keeps, also if it fails, and it fails at a site of its node. -/
theorem mirrors_read :
    (∀ cx node, cx.globalDepth = d → Within S cx.function none node →
      MirrorsFrom d R S (fun _ => True) (watchInstruction cx node) (readInstruction cx node))
    ∧ (∀ cx node, cx.globalDepth = d → BlockWithin S cx.function node →
      MirrorsFrom d R S (fun _ => True) (watchBlock cx node) (readBlock cx node))
    ∧ (∀ cx nodes, cx.globalDepth = d →
      Front (Within S cx.function none) (S ⟨cx.function, .symbol "function"⟩) nodes →
      MirrorsFrom d R S (fun _ => True) (watchInstructions cx nodes) (readInstructions cx nodes))
    ∧ (∀ cx scan whole parts, cx.globalDepth = d → S ⟨cx.function, whole⟩ →
      (∀ name rest, parts = .symbol name :: rest →
        ∀ node ∈ rest, Within S cx.function (some name) node) →
      MirrorsFrom d T S (fun _ => True) (watchFunction cx scan whole parts)
        (readFunction cx scan whole parts))
    ∧ (∀ cx scan slot name nodes, cx.globalDepth = d →
      (∀ node ∈ nodes, Within S cx.function (some name) node) →
      MirrorsFrom d T S (·.Places slot name) (watchSignatures cx scan slot name nodes)
        (readSignatures cx scan slot name nodes))
    ∧ (∀ cx scan slot name node, cx.globalDepth = d → Within S cx.function (some name) node →
      MirrorsFrom d T S (·.Places slot name) (watchSignature cx scan slot name node)
        (readSignature cx scan slot name node)) := by
  apply readInstruction.mutual_induct
  -- `break`
  · intro cx hd h s hs _
    exact mirrors_simple hs (by simp only [watchInstruction]) (ends_jump hR hs .break h.covers.self)
  -- `continue`
  · intro cx hd h s hs _
    exact mirrors_simple hs (by simp only [watchInstruction]) (ends_jump hR hs .continue h.covers.self)
  -- declarations
  · intro cx tail hd h s hs _
    refine mirrors_simple hs (watchInstruction_tagged cx tail (by decide)) ?_
    rw [readInstruction]
    refine (mirrors_reading hs (hR.refl s) (failsAt_readVariable h.covers)).ends.bind
      (Proceeds.trans hR.trans) ?_
    rintro v s ⟨hv, rfl⟩ -
    obtain ⟨-, ty, -, t, -, ht, -⟩ := readVariable_eq_ok.mp hv
    have hopen := scopes_ne_nil_of_readType ht
    have k := hR.proceeds hs hopen fun hT => hT.declare s v hopen
    exact ends_of_yields (yields_bind.mpr ⟨_, _, yields_declare.mpr ⟨rfl, rfl⟩, rfl⟩) k trivial
  -- functions
  · intro cx parts ih hd h s hs _
    rw [watchInstruction, readInstruction]
    have hfunction := ih hd h.covers.self h.parts s hs trivial
    refine .call hs (Mirrors.bind ⟨hfunction.ends.mono (fun s' k => ⟨k.toContinues, fun hopen =>
      hT.inner s s' (k.related hopen)⟩) fun _ _ h => h, hfunction.logs⟩ hR.trans ?_)
    exact fun slot s1 _ k1 => .pure k1.held (hR.refl s1) trivial
  -- assignments
  · intro cx tail hd h s hs _
    refine mirrors_simple hs (watchInstruction_tagged cx tail (by decide)) ?_
    rw [readInstruction]
    exact ends_simple hs (hR.refl s) hR.trans .assign (failsAt_readAssignment h.covers)
  -- branches
  · intro cx condition thenBody elseBody ih1 ih2 hd h s hs _
    have hitems := h.list (by simp)
    rw [watchInstruction, readInstruction]
    refine .call hs ((mirrors_reading hs (hR.refl s)
      (failsAt_readRvalue (hitems condition (by simp)).covers)).bind hR.trans ?_)
    rintro c s ⟨-, rfl⟩ -
    refine (ih1 hd (hitems thenBody (by simp)).block s hs trivial).bind hR.trans fun _ s1 _ k1 => ?_
    refine (ih2 hd (hitems elseBody (by simp)).block s1 k1.held trivial).bind hR.trans ?_
    exact fun _ s2 _ k2 => .pure k2.held (hR.refl s2) trivial
  -- loops
  · intro cx counter start stop increment body ih hd h s hs _
    have hitems := h.list (by simp)
    have hcontrols : ∀ node ∈ [counter, start, stop, increment], Covers S cx.function node := by
      intro node hnode
      refine (hitems node ?_).covers
      rw [show [Node.symbol "loop", counter, start, stop, increment, body]
        = .symbol "loop" :: ([counter, start, stop, increment] ++ [body]) from rfl]
      exact mem_cons_of_mem _ (mem_append_left _ hnode)
    rw [watchInstruction, readInstruction]
    refine .call hs ((mirrors_reading hs (hR.refl s)
      (failsAt_readControls h.covers.self hcontrols)).bind hR.trans ?_)
    rintro controls s ⟨-, rfl⟩ -
    have k : Proceeds d R s s.takeLoop := ⟨.of_symbols hs rfl rfl, fun _ => hR.takeLoop s⟩
    refine (Mirrors.step (Q := fun _ _ => True) (ends_of_yields (yields_newLoop.mpr ⟨rfl, rfl⟩) k
      trivial)).bind hR.trans fun id s1 _ k1 => ?_
    refine (ih id hd (hitems body (by simp)).block s1 k1.held trivial).bind hR.trans ?_
    exact fun _ s2 _ k2 => .pure k2.held (hR.refl s2) trivial
  -- returns
  · intro cx tail hd h s hs _
    refine mirrors_simple hs (watchInstruction_tagged cx tail (by decide)) ?_
    rw [readInstruction]
    exact ends_simple hs (hR.refl s) hR.trans .ret (failsAt_readReturn h.covers)
  -- what is no instruction
  · intro cx node h1 h2 h3 h4 h5 h6 h7 h8 p hp hd h s hs _
    have hwatch : watchInstruction cx node
        = WatchM.call (WatchM.step (readInstruction cx node)) := by
      rw [watchInstruction]
      all_goals assumption
    refine mirrors_simple hs hwatch ?_
    rw [readInstruction, hp]
    · exact ends_fail (.refl hs (hR.refl s))
        ⟨isLost_instructionProblem hp, node, rfl, h.covers.self⟩
    all_goals assumption
  -- rvalues
  · intro cx node h1 h2 h3 h4 h5 h6 h7 h8 hp hd h s hs _
    have hwatch : watchInstruction cx node
        = WatchM.call (WatchM.step (readInstruction cx node)) := by
      rw [watchInstruction]
      all_goals assumption
    refine mirrors_simple hs hwatch ?_
    rw [readInstruction, hp]
    · exact ends_simple hs (hR.refl s) hR.trans .rvalue (failsAt_readRvalue h.covers)
    all_goals assumption
  -- blocks
  · intro cx nodes ih hd h
    exact ih hd (h.items nodes rfl)
  · intro cx node hnode hd h s hs _
    rw [watchBlock, readBlock]
    · exact .step (ends_fail (.refl hs (hR.refl s)) ⟨rfl, node, rfl, h.self hnode⟩)
    all_goals exact hnode
  -- signatures
  · intro cx scan slot name ty parameters body ih hd h
    refine mirrors_signature hR hT h.headCovers ?_
    rintro nodes rfl
    refine ih hd ⟨?_, fun hne => absurd rfl (hne nodes)⟩
    rintro _ ⟨⟩
    exact .all h.body
  · intro cx scan slot name tail htail hd h s hs hplace
    rw [watchSignature]
    · refine .call hs (.step ?_)
      rw [readSignature]
      · exact ends_fail (.refl hs (hT.refl s)) ⟨rfl, _, rfl, h.headCovers.self⟩
      · exact htail
    · intro ty parameters body heq
      cases heq
      exact htail _ _ _ rfl
  · intro cx scan slot name node h1 h2 hd h s hs hplace
    rw [watchSignature]
    · refine .call hs (.step ?_)
      rw [readSignature]
      · exact ends_fail (.refl hs (hT.refl s)) ⟨rfl, _, rfl, h.headCovers.self⟩
      all_goals assumption
    · exact h1
  -- lists of instructions
  · intro cx hd h s hs _
    exact .pure hs (hR.refl s) trivial
  · intro cx node rest ih1 ih2 hd h s hs _
    rw [watchInstructions, readInstructions]
    cases h with
    | all items =>
      obtain ⟨hnode, hrest⟩ := forall_mem_cons.mp items
      refine (ih1 hd hnode s hs trivial).bind hR.trans fun i s1 _ k1 => ?_
      refine (ih2 hd (.all hrest) s1 k1.held trivial).bind hR.trans fun is s2 _ k2 => ?_
      exact .pure k2.held (hR.refl s2) trivial
    | tag here =>
      -- the tag of a function is no instruction
      refine Mirrors.bind (P := fun _ _ => False) ?_ hR.trans fun _ _ h => h.elim
      rw [watchInstruction, readInstruction]
      · exact .call hs (.step (ends_fail (.refl hs (hR.refl s)) ⟨rfl, _, rfl, here⟩))
      all_goals simp
  -- functions by what follows their tag
  · intro cx scan whole name signature rest ih1 ih2 hd hS h s hs _
    obtain ⟨hsignature, hrest⟩ := forall_mem_cons.mp (h name _ rfl)
    rw [watchFunction, readFunction]
    refine .call hs ((mirrors_functionSlot hT hs hd name).bind hT.trans fun slot s1 hplace k1 => ?_)
    refine (ih1 slot hd hsignature s1 k1.held hplace).bind hT.trans fun _ s2 _ k2 => ?_
    refine (ih2 slot hd hrest s2 k2.held (k2.places hplace)).bind hT.trans fun _ s3 _ k3 => ?_
    exact .pure k3.held (hT.refl s3) trivial
  · intro cx scan whole parts hparts hd hS h s hs _
    rw [watchFunction, readFunction]
    · exact .call hs (.step (ends_fail (.refl hs (hT.refl s))
        ⟨isLost_functionProblem parts, whole, rfl, hS⟩))
    all_goals exact hparts
  -- lists of signatures
  · intro cx scan slot name hd h s hs _
    exact .pure hs (hT.refl s) trivial
  · intro cx scan slot name node rest ih1 ih2 hd h s hs hplace
    obtain ⟨hnode, hrest⟩ := forall_mem_cons.mp h
    rw [watchSignatures, readSignatures]
    refine (ih1 hd hnode s hs hplace).bind hT.trans fun _ s1 _ k1 => ?_
    exact ih2 hd hrest s1 k1.held (k1.places hplace)

/-! ## §3. Documents -/

theorem mirrors_scan (hd : cx.globalDepth = d)
    (h : ∀ node ∈ nodes, Within S cx.function none node) :
    MirrorsFrom d T S (fun _ => True) (watchScan cx nodes) (Read.scanPrototypes cx nodes) := by
  induction nodes with
  | nil => exact fun s hs _ => .pure hs (hT.refl s) trivial
  | cons node rest ih =>
    obtain ⟨hnode, hrest⟩ := forall_mem_cons.mp h
    cases hfun : node.isFunction with
    | false =>
      rw [watchScan_skip hfun, scanPrototypes_skip hfun]
      exact ih hrest
    | true =>
      obtain ⟨parts, rfl⟩ := Node.isFunction_iff.mp hfun
      intro s hs _
      rw [watchScan, Read.scanPrototypes]
      refine ((mirrors_read hR hT).2.2.2.1 cx true _ parts hd hnode.covers.self hnode.parts s hs
        trivial).bind hT.trans fun _ s1 _ k1 => ?_
      exact ih hrest s1 k1.held trivial

omit hT

theorem mirrors_top (hd : cx.globalDepth = d) (h : Within S cx.function none node) :
    MirrorsFrom d R S (fun _ => True) (watchTop cx node) (Read.readTop cx node) := by
  intro s hs _
  have hread := mirrors_read hR hR.seals (S := S)
  cases hfun : node.isFunction with
  | false =>
    rw [watchTop_other hfun, readTop_other hfun]
    exact (hread.1 cx node hd h s hs trivial).bind hR.trans fun _ s1 _ k1 =>
      .pure k1.held (hR.refl s1) trivial
  | true =>
    obtain ⟨parts, rfl⟩ := Node.isFunction_iff.mp hfun
    rw [watchTop, Read.readTop]
    exact (hread.2.2.2.1 cx false _ parts hd h.covers.self h.parts s hs trivial).bind hR.trans
      fun _ s1 _ k1 => .pure k1.held (hR.refl s1) trivial

theorem mirrors_get (hs : s.Held d) : Mirrors d R S (WatchM.step get) get s fun t s' =>
    t = s ∧ s' = s :=
  .step (ends_of_yields (yields_get.mpr ⟨rfl, rfl⟩) (.refl hs (hR.refl s)) ⟨rfl, rfl⟩)

theorem mirrors_items (hd : cx.globalDepth = d)
    (h : ∀ node ∈ nodes, Within S cx.function none node) (placed : List Nat) (seen : Nat) :
    MirrorsFrom d R S (fun _ => True) (watchItems cx placed seen nodes)
      (Read.readItems cx placed seen nodes) := by
  induction nodes generalizing placed seen with
  | nil => exact fun s hs _ => .pure hs (hR.refl s) trivial
  | cons node rest ih =>
    obtain ⟨hnode, hrest⟩ := forall_mem_cons.mp h
    intro s hs _
    rw [watchItems, Read.readItems]
    refine (mirrors_top hR hd hnode s hs trivial).bind hR.trans fun top s1 _ k1 => ?_
    refine (mirrors_get hR k1.held).bind hR.trans ?_
    rintro _ s1 ⟨rfl, rfl⟩ -
    refine (ih hrest _ _ _ k1.held trivial).bind hR.trans fun items s2 _ k2 => ?_
    exact .pure k2.held (hR.refl s2) trivial

end

theorem ReadState.Held.readInstruction {i : Option Instruction} {s' : ReadState}
    (hs : s.Held cx.globalDepth) (h : Yields (readInstruction cx node) s i s') :
    s'.Held cx.globalDepth := by
  have hframe := typeScopes_frame (max 1 cx.globalDepth)
  have hread := (mirrors_read hframe hframe.seals (S := fun _ => True)).1 cx node rfl
    (fun _ _ => trivial) s hs trivial
  exact (hread.ends.of_yields h).1.held

theorem ReadState.Held.readInstructions {is : List Instruction} {s' : ReadState}
    (hs : s.Held cx.globalDepth) (h : Yields (readInstructions cx nodes) s is s') :
    s'.Held cx.globalDepth := by
  have hframe := typeScopes_frame (max 1 cx.globalDepth)
  have hread := (mirrors_read hframe hframe.seals (S := fun _ => True)).2.2.1 cx nodes rfl
    (.all fun _ _ _ _ => trivial) s hs trivial
  exact (hread.ends.of_yields h).1.held

theorem mirrors_note (hnote : ∀ (s : ReadState) n, R s (s.noted n)) (hs : s.Held d) (n : ReadNote) :
    Mirrors d R S (WatchM.step (note n)) (note n) s fun _ _ => True :=
  .step (ends_of_yields (a := ()) (yields_note.mpr rfl)
    ⟨.of_symbols hs rfl rfl, fun _ => hnote s n⟩ trivial)

/-- **Watching a document reads the document.** -/
theorem mirrors_document (hR : Frame (max 1 s.symbols.depth) R)
    (hnote : ∀ (s : ReadState) n, R s (s.noted n))
    (h : ∀ node ∈ nodes, Within S none none node) (scan : Bool) (hs : s.Held s.symbols.depth) :
    Mirrors s.symbols.depth R S (watchDocument scan nodes) (Read.readDocument scan nodes) s
      fun _ _ => True := by
  unfold watchDocument Read.readDocument
  refine (mirrors_get hR hs).bind hR.trans ?_
  rintro _ s ⟨rfl, rfl⟩ -
  -- what follows the scan, whatever state the scan leaves
  have hrest : ∀ s1 : ReadState, s1.Held s.symbols.depth →
      Mirrors s.symbols.depth R S
        (do
          WatchM.step (note (.reading nodes.length))
          let t ← WatchM.step get
          let items ← watchItems ⟨none, none, s.symbols.depth⟩ [] t.functions.length nodes
          let t ← WatchM.step get
          WatchM.step (note (.finished items.length t.functions.length))
          pure (items.filterMap (Read.resolve t.functions)))
        (do
          note (.reading nodes.length)
          let t ← get
          let items ← Read.readItems ⟨none, none, s.symbols.depth⟩ [] t.functions.length nodes
          let t ← get
          note (.finished items.length t.functions.length)
          pure (items.filterMap (Read.resolve t.functions)))
        s1 fun _ _ => True := by
    intro s1 hs1
    refine (mirrors_note hnote hs1 _).bind hR.trans fun _ s2 _ k2 => ?_
    refine (mirrors_get hR k2.held).bind hR.trans ?_
    rintro _ s2 ⟨rfl, rfl⟩ -
    refine (mirrors_items hR rfl h _ _ _ k2.held trivial).bind hR.trans fun items s3 _ k3 => ?_
    refine (mirrors_get hR k3.held).bind hR.trans ?_
    rintro _ s3 ⟨rfl, rfl⟩ -
    exact (mirrors_note hnote k3.held _).bind hR.trans fun _ s4 _ k4 =>
      .pure k4.held (hR.refl s4) trivial
  cases scan with
  | false => exact hrest s hs
  | true =>
    refine (mirrors_note hnote hs _).bind hR.trans fun _ s1 _ k1 => ?_
    refine (mirrors_scan hR hR.seals rfl h s1 k1.held trivial).bind hR.trans fun _ s2 _ k2 => ?_
    exact hrest s2 k2.held

/-! ## §4. Modules -/

variable {scan : Bool} {s' : ReadState}

theorem Reads.ne_function {i : Instruction} (h : Reads cx (.instruction node (some i)) s s')
    (name : String) (sigs : List Signature) : i ≠ .function name sigs := by
  cases h with
  | jump | declare | assign | branch | loop | ret | rvalue => exact nofun

variable {nodes : List Node}

theorem Lists.ne_function {placed : List Nat} {seen : Nat} {items : List Item}
    (h : Lists cx placed seen nodes items s s') (name : String) (sigs : List Signature) :
    Item.instruction (.function name sigs) ∉ items := by
  induction h with
  | nil => exact nofun
  | cons first met others ih =>
    intro hmem
    rcases Item.instruction_mem.mp hmem with rfl | hmem
    · exact first.reads.ne_function name sigs rfl
    · exact ih hmem

variable {ir : List Instruction} {sigs : List Signature}

/-- A function in the result was collected in a slot. -/
theorem mem_functions_of_readDocument (h : Yields (Read.readDocument scan nodes) s ir s')
    (hmem : Instruction.function name sigs ∈ ir) : (⟨name, sigs⟩ : Function) ∈ s'.functions := by
  obtain ⟨s1, items, s2, -, hitems, rfl, rfl⟩ := yields_readDocument.mp h
  obtain ⟨item, hitem, hresolve⟩ := mem_filterMap.mp hmem
  cases item with
  | instruction i =>
    cases hresolve
    exact absurd hitem ((yields_readItems.mp hitems).ne_function name sigs)
  | function slot =>
    obtain ⟨f, hf, hinstruction⟩ := Option.map_eq_some_iff.mp hresolve
    cases hinstruction
    exact mem_of_getElem? hf

theorem held_start (u : CompilationUnit) : u.start.Held u.start.symbols.depth := by
  rcases steady_start u with hnil | ⟨hroot, hin⟩
  · have hdepth : u.symbols.depth = 0 := by
      show u.symbols.scopes.length = 0
      exact length_eq_zero_iff.mpr hnil
    exact ⟨⟨nodup_nil, nofun⟩, .inr ⟨hdepth, hnil⟩⟩
  · have hmax : max 1 u.symbols.depth = u.symbols.depth := by
      have hpos := hroot.pos
      omega
    exact ⟨hin, .inl (hmax.symm ▸ hroot)⟩

variable {u : CompilationUnit} {text : String}

/-- Reading a module runs the document and keeps the unit. -/
theorem readModule_eq (hnodes : readExpressions text = .ok nodes) :
    readModule scan u text
      = (fun run : Except ReadError (List Instruction) × ReadState =>
          ⟨run.1, ⟨run.2.storage, run.2.symbols⟩, run.2.notes.reverse⟩)
        ((Read.readDocument scan (Read.documentNodes nodes)).run.run u.start) := by
  simp only [readModule, hnodes]
  rfl

theorem mirrors_start (u : CompilationUnit)
    (h : ∀ node ∈ nodes, Within S none none node) (scan : Bool) :
    Mirrors u.symbols.depth (fun s s' => s'.symbols.typeScopes = s.symbols.typeScopes) S
      (watchDocument scan nodes) (Read.readDocument scan nodes) u.start fun _ _ => True :=
  mirrors_document (s := u.start) (typeScopes_frame _) (fun _ _ => rfl) h scan (held_start u)

theorem mirrors_anywhere (u : CompilationUnit) (nodes : List Node) (scan : Bool) :
    Mirrors u.symbols.depth (fun s s' => s'.symbols.typeScopes = s.symbols.typeScopes)
      (fun _ => True) (watchDocument scan nodes) (Read.readDocument scan nodes) u.start
      fun _ _ => True :=
  mirrors_start u (fun _ _ _ _ => trivial) scan

/-- Watching a module changes nothing about it. -/
theorem watchModule_eq (scan : Bool) (u : CompilationUnit) (text : String) :
    ∃ seen, watchModule scan u text
        = ⟨(readModule scan u text).outcome.mapError .failed, (readModule scan u text).after,
          (readModule scan u text).notes, seen⟩
      ∧ ∀ s ∈ seen, s.InStep := by
  cases hnodes : readExpressions text with
  | error e =>
    refine ⟨[], ?_, fun s hs => by cases hs⟩
    simp only [watchModule, readModule, hnodes]
    rfl
  | ok nodes =>
    obtain ⟨seen, hrun, hseen⟩ := (mirrors_anywhere u (Read.documentNodes nodes) scan).logs []
    refine ⟨seen, ?_, hseen⟩
    rw [List.append_nil] at hrun
    simp only [readModule_eq hnodes, watchModule, hnodes]
    change (fun run : Except Stop (List Instruction) × Watched => WatchResult.mk run.1
      ⟨run.2.state.storage, run.2.state.symbols⟩ run.2.state.notes.reverse run.2.seen)
      ((watchDocument scan (Read.documentNodes nodes)).run.run ⟨u.start, []⟩) = _
    rw [hrun]

/-- No prototype is ever lost on the way. -/
theorem readModule_losesNone (scan : Bool) (u : CompilationUnit) (text : String) {e : ReadError}
    (he : (readModule scan u text).outcome = .error e) : e.problem.isLost = false := by
  cases hnodes : readExpressions text with
  | error e' =>
    simp only [readModule, hnodes] at he
    cases he
    rfl
  | ok nodes =>
    rw [readModule_eq hnodes] at he
    exact ((mirrors_anywhere u (Read.documentNodes nodes) scan).ends.fails e he).1

theorem named_readModule (scan : Bool) (text : String) (hnamed : u.symbols.Named) :
    (readModule scan u text).after.symbols.Named := by
  cases hnodes : readExpressions text with
  | error e =>
    simp only [readModule, hnodes]
    exact hnamed
  | ok nodes =>
    rw [readModule_eq hnodes]
    exact (mirrors_anywhere u (Read.documentNodes nodes) scan).ends.related.named hnamed

theorem overloads_of_readModule (hread : (readModule scan u text).outcome = .ok ir)
    (hmem : Instruction.function name sigs ∈ ir) :
    ∃ p, (readModule scan u text).after.symbols.findFunction? name = some p
      ∧ p.overloads = sigs.map (·.overload) := by
  obtain ⟨nodes, s', hnodes, hyields⟩ := readModule_eq_ok hread
  have hcontinues := ((mirrors_anywhere u (Read.documentNodes nodes) scan).ends.of_yields hyields).1
  rw [readModule_of_yields hnodes hyields]
  exact hcontinues.held.inStep.agree _ (mem_functions_of_readDocument hyields hmem)

/-- Every call is of an overload that the function has. -/
theorem call_lt_of_readModule (hread : (readModule scan u text).outcome = .ok ir)
    (hnamed : u.symbols.Named) (hmem : Instruction.function name sigs ∈ ir) {index : Nat}
    (hcalled : (name, index) ∈ calledOverloads ir) : index < sigs.length := by
  obtain ⟨nodes, s', hnodes, hyields⟩ := readModule_eq_ok hread
  obtain ⟨p, hp, hoverloads⟩ := overloads_of_readModule hread hmem
  have hafter := named_readModule scan text hnamed
  rw [readModule_of_yields hnodes hyields] at hp hafter
  have hwell := wellFormed_of_readDocument hnodes hyields
  obtain ⟨step, hstep, hvisit⟩ := mem_filterMap.mp hcalled
  obtain ⟨other, q, hq, hname, hlt⟩ :=
    Instruction.callsMean_walkAll (fun i hi => (hwell i hi).callsMean) 0 step hstep _ hvisit
  -- the call found the function under its own name, so it is the one of the module
  obtain rfl : other = name := (hafter.functions.of_find hq).symm.trans hname
  obtain rfl : q = p := Option.some.inj (hq.symm.trans hp)
  rwa [hoverloads, length_map] at hlt

/-- **Functions and prototypes are in step whenever the reader makes a call.**  Whatever text is
    read in whatever unit, with a scan or without one: all states before and after calls are in
    step, and the overloads that the reader uses are there, since watching for both changes nothing.
    So no function is ever lost, each function of the module has the overloads of its prototype, and
    each call to it means one of them.  For the last, functions have to be bound to their own names,
    which reading keeps so. -/
theorem readModule_inStep (scan : Bool) (u : CompilationUnit) (text : String) :
    (∃ seen, watchModule scan u text
        = ⟨(readModule scan u text).outcome.mapError .failed, (readModule scan u text).after,
          (readModule scan u text).notes, seen⟩
      ∧ ∀ s ∈ seen, s.InStep)
    ∧ (∀ e, (readModule scan u text).outcome = .error e → ∀ name, e.problem ≠ .notInScope name)
    ∧ (∀ ir, (readModule scan u text).outcome = .ok ir →
        ∀ name sigs, Instruction.function name sigs ∈ ir →
          ∃ p, (readModule scan u text).after.symbols.findFunction? name = some p
            ∧ p.overloads = sigs.map (·.overload)
            ∧ (u.symbols.Named → ∀ index, (name, index) ∈ calledOverloads ir → index < sigs.length))
    ∧ (u.symbols.Named → (readModule scan u text).after.symbols.Named) := by
  refine ⟨watchModule_eq scan u text, ?_, ?_, named_readModule scan text⟩
  · intro e he name hproblem
    have hlost := readModule_losesNone scan u text he
    rw [hproblem] at hlost
    cases hlost
  · intro ir hread name sigs hmem
    obtain ⟨p, hp, hoverloads⟩ := overloads_of_readModule hread hmem
    refine ⟨p, hp, hoverloads, ?_⟩
    intro hnamed index hcalled
    exact call_lt_of_readModule hread hnamed hmem hcalled

/-- A function whose body extends the function and calls what it added. -/
def nestedOverload : String :=
  "(function f(signature void(parameters)(" ++
  "(function f(signature void(parameters(declare()int x))()))" ++
  "(call f((constant int(1)))))))"

/-- Eight calls are made, three of them for the overload inside, and the call in the body means the
    second overload of the function in both. -/
theorem readModule_inStep_nestedOverload :
    (watchModule true .fresh nestedOverload).seen.length = 16
      ∧ (∀ s ∈ (watchModule true .fresh nestedOverload).seen, s.InStep)
      ∧ ∃ ir sigs p, (readModule true .fresh nestedOverload).outcome = .ok ir
        ∧ Instruction.function "f" sigs ∈ ir ∧ ("f", 1) ∈ calledOverloads ir ∧ 1 < sigs.length
        ∧ (readModule true .fresh nestedOverload).after.symbols.findFunction? "f" = some p
        ∧ p.overloads = sigs.map (·.overload) := by
  have hnamed : CompilationUnit.fresh.symbols.Named := by
    unfold SymbolTable.Named
    decide +kernel
  -- one evaluation of the reader for the function and for the calls
  have hread : (readModule true .fresh nestedOverload).outcome.toOption.any (fun ir =>
      calledOverloads ir == [("f", 1)] && ir.head?.any fun i => i.casesOn (fun _ => false)
        (fun name _ => name == "f") (fun _ => false) (fun _ => false) (fun _ _ _ => false)
        (fun _ _ _ => false) (fun _ _ => false) fun _ => false) = true := by decide +kernel
  obtain ⟨⟨seen, hwatch, hseen⟩, -, hmodule, -⟩ := readModule_inStep true .fresh nestedOverload
  refine ⟨by decide +kernel, by rw [hwatch]; exact hseen, ?_⟩
  cases hir : (readModule true .fresh nestedOverload).outcome with
  | error e =>
    rw [hir] at hread
    cases hread
  | ok ir =>
    rw [hir] at hread
    obtain ⟨hcalls, hfunction⟩ := Bool.and_eq_true_iff.mp hread
    obtain ⟨i, hi, hmatch⟩ := (Option.any_eq_true _ _).mp hfunction
    have hmem : i ∈ ir := mem_of_mem_head? hi
    cases i with
    | function name sigs =>
      obtain rfl : name = "f" := eq_of_beq hmatch
      obtain ⟨p, hp, hoverloads, hrange⟩ := hmodule ir hir "f" sigs hmem
      have hindex : ("f", 1) ∈ calledOverloads ir := by
        rw [eq_of_beq hcalls]
        exact mem_singleton_self _
      exact ⟨ir, sigs, p, rfl, hmem, hindex, hrange hnamed 1 hindex, hp, hoverloads⟩
    | _ => cases hmatch

end Shading
