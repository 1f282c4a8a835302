/-
  Shading.Proofs.Read.Prototypes — functions and their prototypes.

  While a module is read, each function has two faces: the overloads collected under its name, and
  the prototype that callers find in the symbol table.  The module proves that reading
-/
import Shading.Proofs.Read.Document
import Shading.Proofs.Read.Frame
import Shading.Proofs.Read.Made

namespace Shading

open List

variable {s : ReadState} {name : String} {p : Prototype} {returnType : Ty} {parameters : List Var}
  {index : Nat}

/-! ## §1. The two faces of a function -/

/-- What callers know of the overload. -/
def Signature.overload (s : Signature) : Overload := ⟨s.returnType, s.parameters, s.isDefined⟩

/-- Every function that was met is bound, and has in the table the overloads that it has among the
    functions met. -/
structure ReadState.InStep (s : ReadState) : Prop where
  nodup : s.functionNames.Nodup
  agree : ∀ f ∈ s.functions, ∃ p, s.symbols.findFunction? f.name = some p
    ∧ p.overloads = f.signatures.map (·.overload)

theorem ReadState.Places.exists_function {slot : Nat} (h : s.Places slot name) :
    ∃ f, s.functions[slot]? = some f ∧ f.name = name ∧ s.signatures slot = f.signatures := by
  unfold ReadState.Places at h
  obtain ⟨f, hf, hname⟩ := Option.map_eq_some_iff.mp h
  exact ⟨f, hf, hname, by simp [ReadState.signatures, hf]⟩

theorem ReadState.InStep.overloads (h : s.InStep) {slot : Nat}
    (hplace : s.Places slot name) (hp : s.symbols.findFunction? name = some p) :
    p.overloads = (s.signatures slot).map (·.overload) := by
  obtain ⟨f, hf, rfl, hsigs⟩ := hplace.exists_function
  obtain ⟨q, hq, hoverloads⟩ := h.agree f (mem_of_getElem? hf)
  obtain rfl : q = p := Option.some.inj (hq.symm.trans hp)
  rw [hsigs, hoverloads]

variable {f : Prototype → Prototype} {g : List Signature → List Signature}

/-- Changing a function and its prototype alike keeps them in step. -/
theorem ReadState.InStep.onFunction (h : s.InStep) {slot : Nat} (hplace : s.Places slot name)
    (hfg : ∀ p sigs, p.overloads = sigs.map Signature.overload →
      (f p).overloads = (g sigs).map Signature.overload) : (s.onFunction slot name f g).InStep := by
  refine ⟨by simpa using h.nodup, ?_⟩
  intro h' hmem
  obtain ⟨i, hi⟩ := mem_iff_getElem?.mp hmem
  obtain ⟨k, hk, hname, -⟩ := hplace.exists_function
  simp only [ReadState.onFunction, getElem?_modify] at hi
  simp only [ReadState.onFunction, SymbolTable.findFunction?_modifyFunction]
  by_cases his : slot = i
  · subst his
    simp only [if_true, hk, Option.map_eq_map, Option.map_some, Option.some.injEq] at hi
    subst hi
    obtain ⟨p, hp, hoverloads⟩ := h.agree k (mem_of_getElem? hk)
    rw [hname] at hp
    exact ⟨f p, by simp [hname, hp], hfg p _ hoverloads⟩
  · simp only [his, if_false, Option.map_eq_map, Option.map_id'] at hi
    -- another place has another name
    have hne : h'.name ≠ name := by
      intro heq
      have hi' : s.functionNames[i]? = some name := by
        simp [ReadState.functionNames, hi, heq]
      have hk' : s.functionNames[slot]? = some name := by
        simp [ReadState.functionNames, hk, hname]
      have hlt : slot < s.functionNames.length := (List.getElem?_eq_some_iff.mp hk').1
      exact his ((getElem?_inj hlt h.nodup).mp (hk'.trans hi'.symm))
    rw [if_neg hne]
    exact h.agree h' (mem_of_getElem? hi)

/-- A new slot takes its signatures from the prototype. -/
theorem ReadState.InStep.slot (h : s.InStep) (cx : Context) (name : String)
    (hopen : s.symbols.scopes ≠ []) : (s.slot cx name).2.InStep := by
  unfold ReadState.slot
  split
  next => exact h
  next hnew =>
    have hfresh : name ∉ s.functionNames := by
      intro hmem
      obtain ⟨f, hf, hname⟩ := mem_map.mp hmem
      have hnone := findIdx?_eq_none_iff.mp hnew f hf
      simp [hname] at hnone
    have hnodup : ∀ sigs : List Signature,
        ((s.functions ++ [Function.mk name sigs]).map (·.name)).Nodup := by
      intro sigs
      rw [map_append, nodup_append]
      refine ⟨h.nodup, by simp, ?_⟩
      rintro a ha b hb rfl
      obtain rfl := mem_singleton.mp hb
      exact hfresh ha
    split
    next p hp =>
      refine ⟨hnodup _, ?_⟩
      intro f hf
      rcases mem_append.mp hf with hf | hf
      · exact h.agree f hf
      · obtain rfl := mem_singleton.mp hf
        exact ⟨p, hp, by simp [Signature.overload, Function.comp_def]⟩
    next hnone =>
      refine ⟨hnodup _, ?_⟩
      intro f hf
      rw [SymbolTable.findFunction?_addFunctionAt _ hopen hnone]
      rcases mem_append.mp hf with hf | hf
      · have hne : f.name ≠ name := fun heq => hfresh (heq ▸ mem_map_of_mem hf)
        rw [show (Prototype.empty name).name = name from rfl, if_neg hne]
        exact h.agree f hf
      · obtain rfl := mem_singleton.mp hf
        exact ⟨.empty name, by simp [Prototype.empty], rfl⟩

/-! ## §2. Prototypes only grow -/

/-- The second prototype has every overload of the first at its place, with the types it had. -/
structure Prototype.Grows (p q : Prototype) : Prop where
  name : q.name = p.name
  overload : ∀ (i : Nat) (o : Overload), p.overloads[i]? = some o →
    ∃ o' : Overload, q.overloads[i]? = some o' ∧ o'.types = o.types ∧ o'.returnType = o.returnType

namespace Prototype.Grows

theorem refl (p : Prototype) : p.Grows p := ⟨rfl, fun _ o h => ⟨o, h, rfl, rfl⟩⟩

theorem trans {q r : Prototype} (h1 : p.Grows q) (h2 : q.Grows r) : p.Grows r := by
  refine ⟨h2.name.trans h1.name, ?_⟩
  intro i o ho
  obtain ⟨o1, ho1, htypes1, hreturn1⟩ := h1.overload i o ho
  obtain ⟨o2, ho2, htypes2, hreturn2⟩ := h2.overload i o1 ho1
  exact ⟨o2, ho2, htypes2.trans htypes1, hreturn2.trans hreturn1⟩

theorem modify {i : Nat} {f : Overload → Overload}
    (hf : ∀ o, p.overloads[i]? = some o → (f o).types = o.types ∧ (f o).returnType = o.returnType) :
    p.Grows (p.modify i f) := by
  refine ⟨rfl, ?_⟩
  intro j o ho
  by_cases hij : i = j
  · subst hij
    exact ⟨f o, by simp [Prototype.modify, ho], hf o ho⟩
  · exact ⟨o, by simp [Prototype.modify, hij, ho], rfl, rfl⟩

end Prototype.Grows

/-- Every function that is bound stays bound, to a prototype that has grown. -/
def SymbolTable.Grows (t u : SymbolTable) : Prop :=
  ∀ name p, t.findFunction? name = some p → ∃ q, u.findFunction? name = some q ∧ p.Grows q

variable {t : SymbolTable}

namespace SymbolTable.Grows

theorem of_eq {u : SymbolTable} (h : ∀ name, u.findFunction? name = t.findFunction? name) :
    t.Grows u := by
  intro name p hp
  exact ⟨p, by rw [h, hp], .refl p⟩

theorem refl (t : SymbolTable) : t.Grows t := of_eq fun _ => rfl

theorem trans {u w : SymbolTable} (h1 : t.Grows u) (h2 : u.Grows w) : t.Grows w := by
  intro name p hp
  obtain ⟨q, hq, hpq⟩ := h1 name p hp
  obtain ⟨r, hr, hqr⟩ := h2 name q hq
  exact ⟨r, hr, hpq.trans hqr⟩

theorem modifyFunction (hf : ∀ p, t.findFunction? name = some p → p.Grows (f p)) :
    t.Grows (t.modifyFunction name f) := by
  intro other p hp
  rw [SymbolTable.findFunction?_modifyFunction]
  by_cases ho : other = name
  · subst ho
    exact ⟨f p, by simp [hp], hf p hp⟩
  · exact ⟨p, by simp [ho, hp], .refl p⟩

theorem modifyFunction_twice {g : Prototype → Prototype}
    (hfg : ∀ p, t.findFunction? name = some p → p.Grows (g (f p))) :
    t.Grows ((t.modifyFunction name f).modifyFunction name g) := by
  intro other p hp
  rw [SymbolTable.findFunction?_modifyFunction, SymbolTable.findFunction?_modifyFunction]
  by_cases ho : other = name
  · subst ho
    exact ⟨g (f p), by simp [hp], hfg p hp⟩
  · exact ⟨p, by simp [ho, hp], .refl p⟩

end SymbolTable.Grows

/-! ## §3. Functions are bound in the scope of the module -/

/-- At least `d` scopes are open, and those inside of them bind no function. -/
structure ReadState.Rooted (d : Nat) (s : ReadState) : Prop where
  pos : 1 ≤ d
  le : d ≤ s.symbols.scopes.length
  inner : ∀ i, i < s.symbols.scopes.length - d → s.symbols.functionScopes[i]? = some []

namespace ReadState.Rooted

variable {d : Nat} {s s' : ReadState}

theorem of_eq (h : s.Rooted d) (hlen : s'.symbols.scopes.length = s.symbols.scopes.length)
    (hscopes : s'.symbols.functionScopes = s.symbols.functionScopes) : s'.Rooted d := by
  refine ⟨h.pos, by rw [hlen]; exact h.le, ?_⟩
  rw [hlen, hscopes]
  exact h.inner

theorem ne_nil (h : s.Rooted d) : s.symbols.scopes ≠ [] := by
  intro hnil
  have hle := h.le
  have hpos := h.pos
  rw [hnil] at hle
  simp at hle
  omega

theorem opened (h : s.Rooted d) : s.opened.Rooted d := by
  have hlen : s.opened.symbols.scopes.length = s.symbols.scopes.length + 1 := rfl
  have hle := h.le
  refine ⟨h.pos, by omega, ?_⟩
  intro i hi
  cases i with
  | zero => rfl
  | succ i => exact h.inner i (by omega)

/-- Closing a scope hides no function: none is bound in it. -/
theorem findFunction?_closed (h : s'.Rooted d)
    (hlen : s'.symbols.scopes.length = s.symbols.scopes.length + 1) (hs : s.Rooted d)
    (name : String) : s'.closed.symbols.findFunction? name = s'.symbols.findFunction? name := by
  have hle := hs.le
  have hhead := h.inner 0 (by omega)
  rw [SymbolTable.findFunction?_eq, SymbolTable.findFunction?_eq]
  show (s'.symbols.pop.functionScopes).findSome? _ = _
  rw [SymbolTable.functionScopes_pop]
  cases hf : s'.symbols.functionScopes with
  | nil => rfl
  | cons b bs =>
    rw [hf] at hhead
    obtain rfl : b = [] := Option.some.inj hhead
    rfl

theorem closed (h : s'.Rooted d)
    (hlen : s'.symbols.scopes.length = s.symbols.scopes.length + 1) (hs : s.Rooted d) :
    s'.closed.Rooted d := by
  have hlen' : s'.closed.symbols.scopes.length = s.symbols.scopes.length := by
    show s'.symbols.scopes.tail.length = _
    rw [length_tail, hlen, Nat.add_sub_cancel]
  have hle := hs.le
  refine ⟨h.pos, by omega, ?_⟩
  intro i hi
  show s'.symbols.pop.functionScopes[i]? = _
  rw [SymbolTable.functionScopes_pop, getElem?_tail]
  exact h.inner (i + 1) (by omega)

theorem declare (h : s.Rooted d) (v : Variable) : (s.declare v).Rooted d :=
  h.of_eq (s.symbols.length_scopes_addVariable _ h.ne_nil)
    (s.symbols.functionScopes_addVariable _ h.ne_nil)

/-- A new prototype is bound in the scope of the module. -/
theorem slot (h : s.Rooted d) (cx : Context) (name : String) (hd : cx.globalDepth = d) :
    (s.slot cx name).2.Rooted d ∧
      (s.slot cx name).2.symbols.scopes.length = s.symbols.scopes.length := by
  unfold ReadState.slot
  split
  · exact ⟨h, rfl⟩
  · split
    · exact ⟨h.of_eq rfl rfl, rfl⟩
    · have hlen := s.symbols.length_scopes_addFunctionAt cx.globalDepth (.empty name)
      rw [SymbolTable.opened_of_ne_nil _ h.ne_nil] at hlen
      refine ⟨⟨h.pos, by rw [hlen]; exact h.le, ?_⟩, hlen⟩
      intro i hi
      have hpos := h.pos
      have hle := h.le
      have hi' : i < s.symbols.scopes.length - d := by rw [← hlen]; exact hi
      -- the scope that the function is bound in is outside of the ones looked at
      have hplace : s.symbols.scopes.length - max 1 (min cx.globalDepth s.symbols.scopes.length)
          ≠ i := by
        rw [hd]
        omega
      show (s.symbols.addFunctionAt cx.globalDepth (.empty name)).2.functionScopes[i]? = _
      rw [SymbolTable.functionScopes_addFunctionAt, SymbolTable.opened_of_ne_nil _ h.ne_nil,
        getElem?_modify, h.inner i hi']
      simp [hplace]

theorem onFunction (h : s.Rooted d) (slot : Nat) (name : String) (f : Prototype → Prototype)
    (g : List Signature → List Signature) : (s.onFunction slot name f g).Rooted d := by
  have hlen : (s.onFunction slot name f g).symbols.scopes.length = s.symbols.scopes.length :=
    s.symbols.length_scopes_modifyFunction name f
  refine ⟨h.pos, by rw [hlen]; exact h.le, ?_⟩
  intro i hi
  rw [hlen] at hi
  have hinner := h.inner i hi
  show (s.symbols.modifyFunction name f).functionScopes[i]? = _
  rcases s.symbols.functionScopes_modifyFunction name f i with heq | heq
  · rw [heq, hinner]
  · rw [heq, hinner]
    rfl

end ReadState.Rooted

/-! ## §4. What reading does to functions -/

/-- Reading goes from one state to the other: no scope is lost, functions and prototypes stay in
    step, and prototypes only grow. -/
structure Evolves (d : Nat) (s s' : ReadState) : Prop where
  rooted : s'.Rooted d
  length : s'.symbols.scopes.length = s.symbols.scopes.length
  inStep : s'.InStep
  grows : s.symbols.Grows s'.symbols

theorem map_modify {α β : Type} {f : α → α} {g : β → β} {h : α → β} (hfg : ∀ a, h (f a) = g (h a))
    (as : List α) (i : Nat) : (as.modify i f).map h = (as.map h).modify i g := by
  apply ext_getElem?
  intro j
  simp only [getElem?_map, getElem?_modify, Option.map_eq_map, Option.map_map]
  congr 1
  funext a
  by_cases hij : i = j
  · simp [hij, hfg]
  · simp [hij]

theorem ReadState.InStep.modify (h : s.InStep) {slot : Nat} (hplace : s.Places slot name)
    (index : Nat) {f : Overload → Overload} {g : Signature → Signature}
    (hfg : ∀ sig, (g sig).overload = f sig.overload) :
    (s.onFunction slot name (·.modify index f) (·.modify index g)).InStep := by
  refine h.onFunction hplace ?_
  intro p sigs hp
  rw [map_modify hfg, ← hp]
  rfl

theorem ReadState.InStep.addOverload (h : s.InStep) {slot : Nat} (hplace : s.Places slot name)
    (returnType : Ty) : (s.addOverload slot name returnType).InStep := by
  refine h.onFunction hplace ?_
  intro p sigs hp
  simp [Prototype.add, hp, Signature.overload, Signature.prototype]

theorem ReadState.Places.onFunction {slot : Nat} (h : s.Places slot name) (i : Nat) (other : String)
    (f : Prototype → Prototype) (g : List Signature → List Signature) :
    (s.onFunction i other f g).Places slot name :=
  h.of_prefix (by simp)

variable {d : Nat} {s' : ReadState}

/-- Registering a signature is a step of the evolution. -/
theorem evolves_registers {slot : Nat}
    (hplace : s.Places slot name) (h : Registers slot name returnType parameters index s s')
    (hr : s.Rooted d) (hi : s.InStep) : Evolves d s s' := by
  cases h with
  | @repeated p _ _ bound known repeats =>
    refine ⟨hr.onFunction _ _ _ _, by simp [ReadState.setParameters, ReadState.onFunction],
      hi.modify hplace _ fun _ => rfl, .modifyFunction ?_⟩
    intro q hq
    obtain rfl : q = p := Option.some.inj (hq.symm.trans bound)
    refine .modify ?_
    intro o ho
    obtain ⟨o', ho', htypes⟩ := Prototype.matching?_eq_some known
    obtain rfl : o' = o := Option.some.inj (ho'.symm.trans ho)
    exact ⟨htypes.symm, rfl⟩
  | @added p _ bound unknown =>
    have hadd := hi.addOverload hplace returnType
    have hplace' : (s.addOverload slot name returnType).Places slot name :=
      hplace.onFunction _ _ _ _
    refine ⟨(hr.onFunction _ _ _ _).onFunction _ _ _ _,
      by simp [ReadState.setParameters, ReadState.addOverload, ReadState.onFunction],
      hadd.modify hplace' _ fun _ => rfl, .modifyFunction_twice ?_⟩
    intro q hq
    -- the new overload stands behind the others, so setting its parameters changes no other
    have hlen : (s.signatures slot).length = q.overloads.length := by
      rw [hi.overloads hplace hq, length_map]
    refine ⟨rfl, ?_⟩
    intro i o ho
    have hlt := (List.getElem?_eq_some_iff.mp ho).1
    refine ⟨o, ?_, rfl, rfl⟩
    have hne : (s.signatures slot).length ≠ i := by omega
    simp [Prototype.modify, Prototype.add, hne, getElem?_append_left hlt, ho]

/-- **Every step of reading evolves the table.** -/
theorem evolves_frame (d : Nat) : Frame d fun s s' => s.Rooted d → s.InStep → Evolves d s s' where
  refl := fun s hr hi => ⟨hr, rfl, hi, .refl _⟩
  trans := by
    intro s1 s2 s3 h1 h2 hr hi
    have e1 := h1 hr hi
    have e2 := h2 e1.rooted e1.inStep
    exact ⟨e2.rooted, e2.length.trans e1.length, e2.inStep, e1.grows.trans e2.grows⟩
  takeLoop := fun s hr hi => ⟨hr.of_eq rfl rfl, rfl, ⟨hi.nodup, hi.agree⟩, .refl _⟩
  declare := by
    intro s v hopen hr hi
    have hfind : ∀ name, (s.declare v).symbols.findFunction? name = s.symbols.findFunction? name := by
      intro name
      rw [SymbolTable.findFunction?_eq, SymbolTable.findFunction?_eq]
      show ((s.symbols.addVariable (s.nextVar v)).2.functionScopes).findSome? _ = _
      rw [SymbolTable.functionScopes_addVariable _ _ hopen]
    refine ⟨hr.declare v, s.symbols.length_scopes_addVariable _ hopen, ⟨hi.nodup, ?_⟩,
      .of_eq hfind⟩
    intro f hf
    rw [hfind]
    exact hi.agree f hf
  slot := by
    intro s cx name hd hopen hr hi
    obtain ⟨hrooted, hlen⟩ := hr.slot cx name hd
    refine ⟨hrooted, hlen, hi.slot cx name hopen, ?_⟩
    unfold ReadState.slot
    split
    · exact .refl _
    · split
      · exact .refl _
      next hnone =>
        intro other p hp
        have hne : other ≠ name := by
          rintro rfl
          rw [hnone] at hp
          cases hp
        refine ⟨p, ?_, .refl p⟩
        show (s.symbols.addFunctionAt cx.globalDepth (.empty name)).2.findFunction? other = some p
        rw [SymbolTable.findFunction?_addFunctionAt _ hopen hnone,
          show (Prototype.empty name).name = name from rfl, if_neg hne, hp]
  registers := fun _ _ _ _ _ _ _ hplace _ h hr hi => evolves_registers hplace h hr hi
  complete := by
    intro s slot name index body hplace hbound hr hi
    refine ⟨hr.onFunction _ _ _ _, by simp [ReadState.complete, ReadState.onFunction],
      hi.modify hplace _ fun _ => rfl, .modifyFunction ?_⟩
    intro p _
    exact .modify fun o _ => ⟨rfl, rfl⟩
  scope := by
    intro s s' hopen h hr hi
    have e := h hr.opened ⟨hi.nodup, hi.agree⟩
    have hlen : s'.symbols.scopes.length = s.symbols.scopes.length + 1 := e.length
    have hfind := e.rooted.findFunction?_closed hlen hr
    refine ⟨e.rooted.closed hlen hr, ?_, ⟨e.inStep.nodup, ?_⟩, ?_⟩
    · show s'.symbols.scopes.tail.length = _
      rw [length_tail, hlen, Nat.add_sub_cancel]
    · intro f hf
      rw [hfind]
      exact e.inStep.agree f hf
    · exact SymbolTable.Grows.trans e.grows (.of_eq hfind)

/-- **Functions and prototypes stay in step, and prototypes only grow.** -/
theorem reads_grow {cx : Context} {reading : Reading} (h : Reads cx reading s s')
    (hplaced : reading.Placed s) (hr : s.Rooted cx.globalDepth) (hi : s.InStep) :
    Evolves cx.globalDepth s s' :=
  (evolves_frame cx.globalDepth).reads h rfl hplaced hr hi

/-- No scope is open, so that nothing can be bound or found; or functions are bound in the scope of
    the module and are in step with their prototypes. -/
def ReadState.Steady (d : Nat) (s : ReadState) : Prop :=
  s.symbols.scopes = [] ∨ (s.Rooted d ∧ s.InStep)

theorem ReadState.Steady.of_ne_nil (h : s.Steady d) (hopen : s.symbols.scopes ≠ []) :
    s.Rooted d ∧ s.InStep :=
  h.resolve_left hopen

theorem ReadState.Steady.of_symbols (h : s.Steady d) (hsymbols : s'.symbols = s.symbols)
    (hfunctions : s'.functions = s.functions) : s'.Steady d := by
  rcases h with hnil | ⟨hroot, hin⟩
  · exact .inl (hsymbols ▸ hnil)
  · refine .inr ⟨hroot.of_eq (by rw [hsymbols]) (by rw [hsymbols]), ⟨?_, ?_⟩⟩
    · unfold ReadState.functionNames
      rw [hfunctions]
      exact hin.nodup
    · rw [hfunctions, hsymbols]
      exact hin.agree

theorem scopes_ne_nil_of_findFunction? (h : (t.findFunction? name).isSome) : t.scopes ≠ [] := by
  intro hnil
  simp [SymbolTable.findFunction?, hnil] at h

theorem unopened_frame (d : Nat) :
    Frame d fun s s' => s.symbols.scopes = [] → s'.symbols.scopes = [] where
  refl := fun s h => h
  trans := fun s1 s2 s3 h1 h2 h => h2 (h1 h)
  takeLoop := fun s h => h
  declare := fun s v hopen h => absurd h hopen
  slot := fun s cx name hd hopen h => absurd h hopen
  registers := by
    intro slot name returnType parameters index s s' hplace _ hreg h
    have hbound : (s.symbols.findFunction? name).isSome := by
      cases hreg with
      | repeated bound => rw [bound]; rfl
      | added bound => rw [bound]; rfl
    exact absurd h (scopes_ne_nil_of_findFunction? hbound)
  complete := fun s slot name index body hplace hbound h =>
    absurd h (scopes_ne_nil_of_findFunction? hbound)
  scope := fun s s' hopen hinner h => absurd h hopen

/-- Reading keeps the functions in step with their prototypes. -/
theorem Reads.steady {cx : Context} {reading : Reading} (h : Reads cx reading s s')
    (hplaced : reading.Placed s) (hs : s.Steady cx.globalDepth) :
    s'.Steady cx.globalDepth ∧ s.symbols.Grows s'.symbols := by
  obtain hnil | ⟨hroot, hin⟩ := hs
  · refine ⟨.inl ((unopened_frame cx.globalDepth).reads h rfl hplaced hnil), ?_⟩
    intro name p hp
    have hbound : (s.symbols.findFunction? name).isSome := by rw [hp]; rfl
    exact absurd hnil (scopes_ne_nil_of_findFunction? hbound)
  · have hevolves := reads_grow h hplaced hroot hin
    exact ⟨.inr ⟨hevolves.rooted, hevolves.inStep⟩, hevolves.grows⟩

theorem steady_start (u : CompilationUnit) : u.start.Steady u.symbols.depth := by
  cases hscopes : u.symbols.scopes with
  | nil => exact .inl hscopes
  | cons b rest =>
    have hdepth : u.symbols.depth = rest.length + 1 := by
      unfold SymbolTable.depth
      rw [hscopes]
      rfl
    refine .inr ⟨⟨by omega, Nat.le_refl _, ?_⟩, ⟨nodup_nil, ?_⟩⟩
    · intro i hi
      exact absurd hi (by simp [SymbolTable.depth, CompilationUnit.start])
    · intro f hf
      cases hf

/-! ## §5. The overloads of all functions -/

/-- The signatures in a slot change with the function. -/
theorem ReadState.signatures_onFunction {slot : Nat} (hplace : s.Places slot name)
    (f : Prototype → Prototype) (g : List Signature → List Signature) :
    (s.onFunction slot name f g).signatures slot = g (s.signatures slot) := by
  obtain ⟨old, hold, -, hsigs⟩ := hplace.exists_function
  have hmodify : (s.onFunction slot name f g).functions[slot]?
      = s.functions[slot]?.map fun k => { k with signatures := g k.signatures } := by
    show (s.functions.modify slot _)[slot]? = _
    rw [getElem?_modify]
    simp
  rw [hsigs]
  unfold ReadState.signatures
  rw [hmodify, hold]
  rfl

/-- All overloads of all functions that were met have the property, each under its name. -/
def ReadState.Overloads (s : ReadState) (P : String → Signature → Prop) : Prop :=
  ∀ f ∈ s.functions, ∀ sig ∈ f.signatures, P f.name sig

theorem mem_modify {α : Type} {l : List α} {i : Nat} {f : α → α} {a : α} (h : a ∈ l.modify i f) :
    a ∈ l ∨ ∃ b, l[i]? = some b ∧ a = f b := by
  obtain ⟨j, hj⟩ := mem_iff_getElem?.mp h
  rw [getElem?_modify, Option.map_eq_map, Option.map_eq_some_iff] at hj
  obtain ⟨b, hb, rfl⟩ := hj
  by_cases hij : i = j
  · rw [if_pos hij]
    exact .inr ⟨b, hij ▸ hb, rfl⟩
  · rw [if_neg hij]
    exact .inl (mem_of_getElem? hb)

namespace ReadState.Overloads

variable {s s' : ReadState} {P Q : String → Signature → Prop}

theorem mono (h : s.Overloads P) (hPQ : ∀ name sig, P name sig → Q name sig) : s.Overloads Q :=
  fun f hf sig hsig => hPQ _ _ (h f hf sig hsig)

theorem slot_of_table (h : s.Overloads P) (cx : Context) (name : String)
    (hnew : ∀ p, s.symbols.findFunction? name = some p →
      ∀ o ∈ p.overloads, P name ⟨o.returnType, o.parameters, [], o.isDefined⟩) :
    (s.slot cx name).2.Overloads P := by
  intro f hf sig hsig
  unfold ReadState.slot at hf
  split at hf
  · exact h f hf sig hsig
  · split at hf
    next p hp =>
      rcases mem_append.mp hf with hf | hf
      · exact h f hf sig hsig
      · rw [mem_singleton.mp hf] at hsig ⊢
        obtain ⟨o, ho, rfl⟩ := mem_map.mp hsig
        exact hnew p hp o ho
    next =>
      rcases mem_append.mp hf with hf | hf
      · exact h f hf sig hsig
      · rw [mem_singleton.mp hf] at hsig
        cases hsig

theorem slot (h : s.Overloads P) (cx : Context) (name : String)
    (hnew : ∀ sig : Signature, sig.body = [] → P name sig) : (s.slot cx name).2.Overloads P :=
  h.slot_of_table cx name fun _ _ _ _ => hnew _ rfl

theorem onFunction (h : s.Overloads P) {slot : Nat}
    (hg : ∀ other sigs, (∀ sig ∈ sigs, P other sig) → ∀ sig ∈ g sigs, P other sig) :
    (s.onFunction slot name f g).Overloads P := by
  intro k hk sig hsig
  obtain hk | ⟨old, hold, rfl⟩ := mem_modify hk
  · exact h k hk sig hsig
  · exact hg old.name old.signatures (h old (mem_of_getElem? hold)) sig hsig

theorem onFunction_at (h : s.Overloads P) {slot : Nat} (hplace : s.Places slot name)
    (hg : ∀ sig ∈ g (s.signatures slot), P name sig) :
    (s.onFunction slot name f g).Overloads P := by
  intro k hk sig hsig
  obtain hk | ⟨old, hold, rfl⟩ := mem_modify hk
  · exact h k hk sig hsig
  · obtain ⟨f, hf, rfl, hsigs⟩ := hplace.exists_function
    cases hold.symm.trans hf
    rw [hsigs] at hg
    exact hg sig hsig

theorem registers (h : s.Overloads P) {slot : Nat} (hreg : Registers slot name returnType parameters index s s')
    (hset : ∀ name sig, P name sig → P name { sig with parameters })
    (hnew : ∀ name, P name (.prototype returnType [])) : s'.Overloads P := by
  have hmodify : ∀ (i : Nat) (other : String) (sigs : List Signature),
      (∀ sig ∈ sigs, P other sig) → ∀ sig ∈ sigs.modify i ({ · with parameters }), P other sig := by
    intro i other sigs hsigs sig hsig
    obtain hsig | ⟨old, hold, rfl⟩ := mem_modify hsig
    · exact hsigs sig hsig
    · exact hset other old (hsigs old (mem_of_getElem? hold))
  cases hreg with
  | repeated bound known repeats => exact h.onFunction (hmodify index)
  | added bound unknown =>
    refine Overloads.onFunction (Overloads.onFunction h ?_) (hmodify _)
    intro other sigs hsigs sig hsig
    rcases mem_append.mp hsig with hsig | hsig
    · exact hsigs sig hsig
    · rw [mem_singleton.mp hsig]
      exact hnew other

end ReadState.Overloads

/-! ## §6. The prototypes of a table -/

/-- All functions that the table binds have the property, each under the name it is bound to. -/
def SymbolTable.Functions (t : SymbolTable) (P : String → Prototype → Prop) : Prop :=
  ∀ b ∈ t.functionScopes, ∀ entry ∈ b, P entry.1 entry.2

namespace SymbolTable.Functions

variable {t : SymbolTable} {P : String → Prototype → Prop}

theorem of_find (h : t.Functions P)
    (hp : t.findFunction? name = some p) : P name p := by
  rw [findFunction?_eq] at hp
  obtain ⟨b, hb, hfind⟩ := exists_of_findSome?_eq_some hp
  exact h b hb (name, p) (Bindings.mem_of_find? hfind)

theorem push (h : t.Functions P) : t.push.Functions P :=
  forall_mem_cons.mpr ⟨fun _ hentry => absurd hentry not_mem_nil, h⟩

theorem pop (h : t.Functions P) : t.pop.Functions P := by
  intro b hb
  rw [functionScopes_pop] at hb
  exact h b (mem_of_mem_tail hb)

theorem opened (h : t.Functions P) : t.opened.Functions P := by
  unfold SymbolTable.opened
  split
  · exact push nofun
  · exact h

theorem addFunctionAt (h : t.Functions P) (depth : Nat) (hp : P p.name p) :
    (t.addFunctionAt depth p).2.Functions P := by
  intro b hb entry hentry
  rw [functionScopes_addFunctionAt] at hb
  obtain hb | ⟨old, hold, rfl⟩ := mem_modify hb
  · exact h.opened b hb entry hentry
  · have hentries := h.opened old (mem_of_getElem? hold)
    unfold Bindings.bindNew at hentry
    split at hentry
    · exact hentries entry hentry
    · rcases mem_cons.mp hentry with rfl | hentry
      · exact hp
      · exact hentries entry hentry

theorem modifyFunction (h : t.Functions P) (name : String) {f : Prototype → Prototype}
    (hf : ∀ p, P name p → P name (f p)) : (t.modifyFunction name f).Functions P := by
  intro b hb entry hentry
  obtain ⟨i, hi⟩ := mem_iff_getElem?.mp hb
  rcases t.functionScopes_modifyFunction name f i with heq | heq
  · rw [heq] at hi
    exact h b (mem_of_getElem? hi) entry hentry
  · rw [heq] at hi
    obtain ⟨old, hold, rfl⟩ := Option.map_eq_some_iff.mp hi
    obtain ⟨⟨n, p⟩, hp, rfl⟩ := mem_map.mp hentry
    have hprototype : P n p := h old (mem_of_getElem? hold) (n, p) hp
    show P (if n = name then (n, f p) else (n, p)).1 (if n = name then (n, f p) else (n, p)).2
    by_cases hn : n = name
    · subst hn
      rw [if_pos rfl]
      exact hf p hprototype
    · rw [if_neg hn]
      exact hprototype

theorem slot (h : s.symbols.Functions P) (cx : Context)
    (hnew : P name (.empty name)) : (s.slot cx name).2.symbols.Functions P := by
  unfold ReadState.slot
  split
  · exact h
  · split
    · exact h
    · exact h.addFunctionAt cx.globalDepth hnew

theorem registers {s' : ReadState} (h : s.symbols.Functions P) {slot : Nat}
    (hreg : Registers slot name returnType parameters index s s')
    (hset : ∀ p, P name p → P name (p.modify index ({ · with parameters })))
    (hadd : ∀ p, P name p → P name (p.add ⟨returnType, [], false⟩)) : s'.symbols.Functions P := by
  cases hreg with
  | repeated => exact h.modifyFunction name hset
  | added => exact (h.modifyFunction name hadd).modifyFunction name hset

end SymbolTable.Functions

end Shading
