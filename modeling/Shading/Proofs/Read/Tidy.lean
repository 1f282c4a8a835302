/-
  Shading.Proofs.Read.Tidy — what is read is made on the way.

  The reader numbers each variable and each loop where it meets it, and finds a variable only after it
  was bound.  So the events of a block that is read are about what the storage has made; what the block
  brings along was not there before it, and nothing comes along after it has been met.
-/
import Shading.Proofs.Read.Lexical
import Shading.Proofs.Scan.Lockstep
import Shading.Proofs.Scan.Owned
import Shading.Proofs.Unroll.Independence

namespace Shading

open List Instruction

/-! ## §1. Events between two states of the storage -/

/-- The events of something that is made while the storage changes from one state to another: what they
    bring along is new, the rest is there, and nothing comes along after it has been met. -/
structure Arises (s s' : Storage) (es : List Event) : Prop where
  grows : s'.Extends s
  fresh : ∀ a, .brings a ∈ es → ¬ s.Has a
  issued : Issued s' es
  tidy : Tidy es

namespace Arises

variable {s s1 s' : Storage} {es fs : List Event}

theorem nil (h : s'.Extends s) : Arises s s' [] := ⟨h, nofun, nofun, .nil⟩

theorem uses {vs : List Var} (h : ∀ v ∈ vs, v.id < s.vars.issued) : Arises s s (mentions vs) where
  grows := .refl s
  fresh := fun a ha => absurd ha (brings_notMem_mentions a vs)
  issued := forall_mem_map.mpr h
  tidy := tidy_of_uses fun a => brings_notMem_mentions a vs

/-- Events that arise in two steps arise in one. -/
theorem append (h : Arises s s1 es) (h1 : Arises s1 s' fs) : Arises s s' (es ++ fs) where
  grows := h1.grows.trans h.grows
  fresh := fun a ha hs => by
    rcases mem_append.mp ha with ha | ha
    · exact h.fresh a ha hs
    · exact h1.fresh a ha (h.grows a hs)
  issued := forall_mem_append.mpr ⟨h.issued.later h1.grows, h1.issued⟩
  -- the first piece was there before the second one
  tidy := tidy_append.mpr ⟨h.tidy, h1.tidy, fun e he hbrings => h1.fresh _ hbrings (h.issued e he)⟩

theorem single {a : Identity} (hgrows : s'.Extends s) (hfresh : ¬ s.Has a) (hissued : s'.Has a) :
    Arises s s' [.brings a] where
  grows := hgrows
  fresh := fun b hb => by
    cases mem_singleton.mp hb
    exact hfresh
  issued := forall_mem_singleton.mpr hissued
  tidy := pairwise_singleton _ _

theorem declare (s : Storage) (v : Variable) :
    Arises s (s.declare v).2 [.brings (.var (s.declare v).1.id)] := by
  refine single (fun a ha => ?_) (Nat.lt_irrefl _) (Nat.lt_succ_self _)
  cases a with
  | var number => exact Nat.lt_succ_of_lt ha
  | loop id => exact ha

theorem newLoop (s : Storage) : Arises s s.newLoop.2 [.brings (.loop s.newLoop.1)] := by
  refine single (fun a ha => ?_) (Nat.lt_irrefl _) (Nat.lt_succ_self _)
  cases a with
  | var number => exact ha
  | loop id => exact Nat.lt_succ_of_lt ha

end Arises

/-! ## §2. States of the reader -/

variable {cx : Context} {nodes : List Node} {s s' : ReadState}

theorem Declares.arises {vs : List Var} (h : Declares cx nodes vs s s') :
    Arises s.storage s'.storage (vs.map fun v => .brings (.var v.id)) := by
  induction h with
  | nil s => exact .nil (.refl _)
  | @cons node rest v vs s s' first others ih => exact (Arises.declare s.storage v).append ih

variable {parameters : List Var} {name : String} {returnType : Ty} {index : Nat}

namespace ReadState.Owned

variable {s : ReadState}

theorem id_lt (h : s.Owned) {v : Var} (hv : v ∈ s.symbols.visible) : v.id < s.storage.vars.issued := by
  obtain ⟨b, hb, hmem⟩ := mem_flatMap.mp hv
  obtain ⟨entry, hentry, rfl⟩ := mem_map.mp hmem
  exact h.vars b hb entry hentry

theorem arises (h : s.Owned) {steps : List Step} (hquiet : Quiet s.symbols.visible steps) :
    Arises s.storage s.storage (mentions (usedIn steps)) := by
  refine .uses fun v hv => ?_
  obtain ⟨step, hstep, hused⟩ := mem_filterMap.mp hv
  exact h.id_lt ((hquiet step hstep).2 v hused)

end ReadState.Owned

theorem Reads.owned {reading : Reading} (h : Reads cx reading s s') (hplaced : reading.Placed s)
    (hs : s.Owned) : s'.Owned :=
  (owned_frame cx.globalDepth).reads h rfl hplaced hs

/-- The overloads that were met are about what was made, and their bodies are tidy. -/
def ReadState.Tidy (s : ReadState) : Prop :=
  s.Overloads fun _ sig => Issued s.storage (sig.parameters.map fun v => .brings (.var v.id))
    ∧ Issued s.storage (eventsAll sig.body)
    ∧ Shading.Tidy (eventsAll sig.body)

namespace ReadState.Tidy

variable {s s' : ReadState}

theorem of_functions (h : s.Tidy) (hfunctions : s'.functions = s.functions)
    (hgrows : s'.storage.Extends s.storage) : s'.Tidy := by
  intro f hf sig hsig
  rw [hfunctions] at hf
  obtain ⟨hparameters, hbody, htidy⟩ := h f hf sig hsig
  exact ⟨hparameters.later hgrows, hbody.later hgrows, htidy⟩

theorem slot (h : s.Tidy) (howned : s.Owned) (cx : Context) (name : String) :
    (s.slot cx name).2.Tidy := by
  unfold ReadState.Tidy
  rw [storage_slot]
  refine Overloads.slot_of_table h cx name fun p hp o ho => ⟨?_, nofun, .nil⟩
  exact forall_mem_map.mpr (howned.prototypes.of_find hp o ho)

theorem registers (h : s.Tidy) {slot : Nat}
    (hreg : Registers slot name returnType parameters index s s')
    (hmade : Issued s.storage (parameters.map fun v => .brings (.var v.id))) : s'.Tidy := by
  unfold ReadState.Tidy
  rw [storage_registers hreg]
  exact Overloads.registers h hreg (fun _ _ hsig => ⟨hmade, hsig.2⟩) fun _ => ⟨nofun, nofun, .nil⟩

theorem header (h : s.Tidy) {declarations : List Node} {slot : Nat} {s1 s2 : ReadState}
    (hdecl : Declares cx declarations parameters s.opened s1)
    (hreg : Registers slot name returnType parameters index s1 s2) :
    s2.storage.Extends s.storage ∧ s2.Tidy := by
  have hparameters := hdecl.arises
  have hs1 : s1.Tidy := h.of_functions hdecl.functions_opened hparameters.grows
  refine ⟨?_, hs1.registers hreg hparameters.issued⟩
  rw [storage_registers hreg]
  exact hparameters.grows

/-- A body that has arisen may be completed. -/
theorem complete (h : s.Tidy) {body : List Instruction} {old : Storage}
    (hbody : Arises old s.storage (eventsAll body)) (slot : Nat) (name : String)
    (index : Nat) : (s.complete slot name index body).Tidy := by
  refine Overloads.onFunction h ?_
  intro other sigs hsigs sig hsig
  obtain hsig | ⟨met, hmet, rfl⟩ := mem_modify hsig
  · exact hsigs sig hsig
  · exact ⟨(hsigs met (mem_of_getElem? hmet)).1, hbody.issued, hbody.tidy⟩

end ReadState.Tidy

/-! ## §3. What is read -/

/-- What the instructions do that a part of the text gives. -/
def Reading.events : Reading → List Event
  | .instruction _ i => eventsAll i.toList
  | .instructions _ is => eventsAll is
  | _ => []

/-- **What is read is made on the way**, and so are the overloads that were met. -/
theorem Reads.arises {reading : Reading} (h : Reads cx reading s s') (hplaced : reading.Placed s)
    (howned : s.Owned) (hs : s.Tidy) :
    Arises s.storage s'.storage reading.events ∧ s'.Tidy := by
  induction h with
  | jump | nil | noMore => exact ⟨.nil (.refl _), hs⟩
  | @declare cx s node v declaration =>
    have hnew := Arises.declare s.storage v
    exact ⟨hnew, hs.of_functions rfl hnew.grows⟩
  | function inner ih => exact ih trivial howned hs
  | assign assignment =>
    exact ⟨howned.arises (Assignment.quiet_walk assignment 0), hs⟩
  | branch value first second ih1 ih2 =>
    obtain ⟨hthen, hs1⟩ := ih1 trivial howned hs
    obtain ⟨helse, hs'⟩ := ih2 trivial (first.owned trivial howned) hs1
    exact ⟨((howned.arises ((readRvalue_made value).quiet 0)).append hthen).append helse, hs'⟩
  | @loop cx s s' whole counter start stop increment nodes controls body header inner ih =>
    have hnew := Arises.newLoop s.storage
    have hcontrols := ReadState.Owned.arises (s := s.takeLoop) howned
      (Controls.quiet_walk header 0)
    obtain ⟨hbody, hs'⟩ := ih trivial howned (hs.of_functions rfl hnew.grows)
    exact ⟨hnew.append (hcontrols.append hbody), hs'⟩
  | ret returned =>
    exact ⟨howned.arises (readReturn_quiet returned 0), hs⟩
  | rvalue value =>
    exact ⟨howned.arises ((readRvalue_made value).quiet 0), hs⟩
  | @cons cx s s1 s' node rest i is first others ih1 ih2 =>
    obtain ⟨hfirst, hs1⟩ := ih1 trivial howned hs
    obtain ⟨hothers, hs'⟩ := ih2 trivial (first.owned trivial howned) hs1
    refine ⟨?_, hs'⟩
    rw [Reading.events, eventsAll_append]
    exact hfirst.append hothers
  | @overloads cx s s1 s' scan name first rest slot entries place inner ih =>
    have hplace := places_of_slot place
    obtain rfl : (s.slot cx name).2 = s1 := by rw [place]
    have howned' := (owned_frame _).slot s cx name rfl (scopes_ne_nil_of_overloads inner) howned
    obtain ⟨harises, hs'⟩ := ih hplace howned' (hs.slot howned cx name)
    rw [storage_slot] at harises
    exact ⟨harises, hs'⟩
  | more first others ih1 ih2 =>
    have hplace := ReadState.Places.of_prefix hplaced first.functionNames_prefix
    obtain ⟨hfirst, hs1⟩ := ih1 hplaced howned hs
    obtain ⟨hothers, hs'⟩ := ih2 hplace (first.owned hplaced howned) hs1
    exact ⟨hfirst.append hothers, hs'⟩
  | prototype type declares registers silent =>
    obtain ⟨hgrows, hs2⟩ := hs.header declares registers
    exact ⟨.nil hgrows, hs2.of_functions rfl (.refl _)⟩
  | @definition cx s s1 s2 s3 slot name ty declarations nodes returnType parameters index body type
      declares registers nonempty undefined inner bound ih =>
    obtain ⟨hgrows, hs2⟩ := hs.header declares registers
    have hopened : s.opened.Places slot name := hplaced
    have howned2 := ((owned_frame cx.globalDepth).header hopened declares registers).1 howned.push
    obtain ⟨hbody, hs3⟩ := ih trivial howned2 hs2
    exact ⟨.nil (hbody.grows.trans hgrows),
      (hs3.complete hbody slot name index).of_functions rfl (.refl _)⟩

/-! ## §4. Modules -/

theorem Scans.tidy {fs : List Function} (h : Scans cx nodes fs s s') (howned : s.Owned)
    (hs : s.Tidy) : s'.Owned ∧ s'.Tidy := by
  induction h with
  | nil s => exact ⟨howned, hs⟩
  | skip other others ih => exact ih howned hs
  | function first others ih => exact ih (first.owned trivial howned) (first.arises trivial howned hs).2

/-- The instruction of an item is about what was made, and tidy. -/
def Item.Arose (s : Storage) : Item → Prop
  | .instruction i => Issued s (eventsAll [i]) ∧ Tidy (eventsAll [i])
  | .function _ => True

/-- Items arise in order. -/
theorem Lists.arises {placed : List Nat} {seen : Nat} {items : List Item}
    (h : Lists cx placed seen nodes items s s') (howned : s.Owned) (hs : s.Tidy) :
    (∀ item ∈ items, item.Arose s'.storage) ∧ s'.storage.Extends s.storage ∧ s'.Tidy := by
  induction h with
  | nil => exact ⟨nofun, .refl _, hs⟩
  | @cons placed fresh seen node rest i top items s s1 s' first met others ih =>
    obtain ⟨hfirst, hs1⟩ := first.reads.arises trivial howned hs
    obtain ⟨hitems, hgrows, hs'⟩ := ih (first.reads.owned trivial howned) hs1
    refine ⟨fun item hitem => ?_, hgrows.trans hfirst.grows, hs'⟩
    cases item with
    | function slot => trivial
    | instruction j =>
      rcases Item.instruction_mem.mp hitem with rfl | hitem
      · exact ⟨hfirst.issued.later hgrows, hfirst.tidy⟩
      · exact hitems _ hitem

theorem arises_resolve {items : List Item} (hitems : ∀ item ∈ items, item.Arose s.storage)
    (hs : s.Tidy) :
    ∀ i ∈ items.filterMap (Read.resolve s.functions),
      Issued s.storage (eventsAll [i]) ∧ TidyBodies (loopBodiesAll [i]) := by
  intro i hi
  obtain ⟨item, hitem, hresolve⟩ := mem_filterMap.mp hi
  cases item with
  | instruction j =>
    cases hresolve
    obtain ⟨hissued, htidy⟩ := hitems _ hitem
    exact ⟨hissued, tidy_loopBodiesAll [i] htidy⟩
  | function slot =>
    obtain ⟨f, hf, rfl⟩ := Option.map_eq_some_iff.mp hresolve
    have hsigs := hs f (mem_of_getElem? hf)
    refine ⟨?_, ?_⟩
    · show Issued s.storage (Signature.gatherAll .events () f.signatures)
      rw [Signature.gatherAll_eq_flatMap]
      refine forall_mem_flatMap.mpr fun sig hsig => ?_
      obtain ⟨hparameters, hbody, -⟩ := hsigs sig hsig
      obtain ⟨returnType, parameters, body, isDefined⟩ := sig
      exact forall_mem_append.mpr ⟨hparameters, hbody⟩
    · show TidyBodies (Signature.gatherAll .loopBodies () f.signatures)
      rw [Signature.gatherAll_eq_flatMap]
      refine forall_mem_flatMap.mpr fun sig hsig => ?_
      have hbody := (hsigs sig hsig).2.2
      obtain ⟨returnType, parameters, body, isDefined⟩ := sig
      exact tidy_loopBodiesAll body hbody

/-- **A module that was read is about what the unit has made, and the bodies of its loops are tidy.** -/
theorem tidyBodies_readModule {scan : Bool} {u : CompilationUnit} {text : String}
    {ir : List Instruction} (howned : u.Owned) (h : (readModule scan u text).outcome = .ok ir) :
    Issued (readModule scan u text).after.storage (eventsAll ir)
      ∧ TidyBodies (loopBodiesAll ir) := by
  obtain ⟨nodes, s', hnodes, hdocument⟩ := readModule_eq_ok h
  rw [readModule_of_yields hnodes hdocument]
  obtain ⟨s1, items, s2, hscan, hitems, rfl, rfl⟩ := yields_readDocument.mp hdocument
  have hstart : u.start.Tidy := nofun
  have hs1 : s1.Owned ∧ s1.Tidy := by
    cases scan with
    | false => exact hscan ▸ ⟨howned, hstart⟩
    | true =>
      obtain ⟨fs, hscans⟩ := yields_scanPrototypes.mp hscan
      exact hscans.tidy howned (hstart.of_functions rfl (.refl _))
  obtain ⟨harose, -, hs2⟩ := (yields_readItems.mp hitems).arises hs1.1
    (hs1.2.of_functions rfl (.refl _))
  have hresolved := arises_resolve harose hs2
  unfold eventsAll loopBodiesAll
  rw [gatherAll_eq_flatMap, gatherAll_eq_flatMap]
  exact ⟨forall_mem_flatMap.mpr fun i hi => (hresolved i hi).1,
    forall_mem_flatMap.mpr fun i hi => (hresolved i hi).2⟩

end Shading
