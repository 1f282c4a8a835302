/-
  Shading.Proofs.Read.Location — where the reading of a module fails.

  The reader keeps the function whose body it reads beside it, takes another one for the body of a
  nested function and goes back to the first behind it.  Errors leave it at any level.
-/
import Shading.Proofs.Read.InStep

namespace Shading

open List ReadM

/-! ## §1. The scan -/

section

variable {S : Site → Prop} {cx : Context} {node : Node} {nodes : List Node}

/-- From every state, the computation fails at a site in the body that is being read, if it fails. -/
def ReadM.FailsHere {α : Type} (S : Site → Prop) (cx : Context) (x : ReadM α) : Prop :=
  ∀ s : ReadState, x.Ends (fun _ _ => True)
    (ReadError.At fun site => site.function = cx.function ∧ S site) s fun _ _ => True

theorem FailsAt.here {α : Type} {x : Except ReadError α} (hx : FailsAt S x) :
    ∀ e, x = .error e → e.At S := fun e he => (hx e he).2

theorem ReadM.FailsHere.bind {α β : Type} {x : ReadM α} {f : α → ReadM β} (hx : x.FailsHere S cx)
    (hf : ∀ a, (f a).FailsHere S cx) : (x >>= f).FailsHere S cx :=
  fun s => (hx s).bind (fun _ _ _ _ _ => trivial) fun a s' _ _ => hf a s'

theorem failsHere_pure {α : Type} (a : α) : (pure a : ReadM α).FailsHere S cx :=
  fun _ => ends_pure trivial trivial

theorem failsHere_fail {α : Type} (h : S ⟨cx.function, node⟩) (p : Problem) :
    (fail cx node p : ReadM α).FailsHere S cx :=
  fun _ => ends_fail trivial ⟨node, rfl, rfl, h⟩

/-- A scanned signature fails at one of its own nodes. -/
theorem failsHere_scanSignature {slot : Nat} {name : String}
    (h : Within S cx.function (some name) node) :
    (readSignature cx true slot name node).FailsHere S cx := by
  have hhead : HeadCovers (fun site => site.function = cx.function ∧ S site) cx.function node :=
    h.headCovers.imp fun n hn => ⟨rfl, hn⟩
  unfold readSignature
  split
  next ty parameters body =>
    intro s
    obtain ⟨hty, hparameters⟩ := hhead.parts ty parameters body rfl
    have hvalue : FailsAt _ (readSignatureHead (s.env cx) _ ty parameters body) :=
      failsAt_readSignatureHead hhead.self hty hparameters.self
    refine (ends_reading trivial hvalue.here).bind (fun _ _ _ _ _ => trivial) ?_
    rintro ⟨returnType, declarations⟩ s ⟨hread, rfl⟩ -
    -- the head has been read, so the parameters are a list
    obtain ⟨-, rfl, nodes, rfl⟩ := readSignatureHead_eq_ok.mp hread
    have hdeclarations : ∀ node ∈ declarations, ∀ s : ReadState,
        FailsAt _ (readVariable (s.env cx) node) := fun node hnode s =>
      failsAt_readVariable (hparameters.tagged (by decide) node hnode)
    refine ends_inScope (T := fun _ _ => True) (Q := fun _ _ => True) ?_ fun _ _ => trivial
    refine (ends_readDeclarations (fun _ _ _ _ => trivial) fun node hnode s =>
      (hdeclarations node hnode s).here).bind (fun _ _ _ _ _ => trivial) fun ps s1 _ _ => ?_
    refine (ends_register trivial (fun _ _ _ => trivial) fun _ _ => ⟨_, rfl, hhead.self⟩).bind
      (fun _ _ _ _ _ => trivial) fun index s2 _ _ => ?_
    exact ends_pure trivial trivial
  · exact failsHere_fail h.headCovers.self _
  · exact failsHere_fail h.headCovers.self _

theorem failsHere_scanSignatures {slot : Nat} {name : String}
    (h : ∀ node ∈ nodes, Within S cx.function (some name) node) :
    (readSignatures cx true slot name nodes).FailsHere S cx := by
  induction nodes with
  | nil => exact failsHere_pure ()
  | cons node rest ih =>
    obtain ⟨hnode, hrest⟩ := forall_mem_cons.mp h
    rw [readSignatures]
    exact (failsHere_scanSignature hnode).bind fun _ => ih hrest

/-- **Whatever state it starts in, the scan fails at a site in no body.** -/
theorem failsHere_scanPrototypes (h : ∀ node ∈ nodes, Within S cx.function none node) :
    (Read.scanPrototypes cx nodes).FailsHere S cx := by
  induction nodes with
  | nil => exact failsHere_pure ()
  | cons node rest ih =>
    obtain ⟨hnode, hrest⟩ := forall_mem_cons.mp h
    cases hfun : node.isFunction with
    | false =>
      rw [scanPrototypes_skip hfun]
      exact ih hrest
    | true =>
      obtain ⟨parts, rfl⟩ := Node.isFunction_iff.mp hfun
      rw [Read.scanPrototypes]
      refine ReadM.FailsHere.bind ?_ fun _ => ih hrest
      unfold readFunction
      split
      next name signature more =>
        obtain ⟨hfirst, hmore⟩ := forall_mem_cons.mp hnode.function
        have hslot : (functionSlot cx name).FailsHere S cx := fun s =>
          (ends_functionSlot (T := fun _ _ => True) trivial).mono (fun _ h => h) fun _ _ _ => trivial
        exact hslot.bind fun slot => (failsHere_scanSignature hfirst).bind fun _ =>
          (failsHere_scanSignatures hmore).bind fun _ => failsHere_pure _
      · exact failsHere_fail hnode.covers.self _

/-! ## §2. Modules -/

/-- The nodes of a document lie within the text. -/
theorem within_documentNodes (nodes : List Node) :
    ∀ node ∈ Read.documentNodes nodes, Within (· ∈ Node.sitesIn none none nodes) none none node := by
  intro node hnode site hsite
  unfold Read.documentNodes at hnode
  split at hnode
  · cases hnode
  · exact mem_sitesIn.mpr ⟨node, hnode, hsite⟩
  next first rest hfirst =>
    refine mem_sitesIn.mpr ⟨_, mem_singleton_self _, ?_⟩
    rw [Node.sites]
    · exact mem_cons_of_mem _ (mem_sitesIn.mpr ⟨node, hnode, hsite⟩)
    · rintro name more ⟨⟩
      exact hfirst "function" rfl
    · rintro _ _ _ _ ⟨⟩
  · exact mem_sitesIn.mpr ⟨node, hnode, hsite⟩

end

/-- **Errors name their place.**  If the text of a module is made of S-expressions, an error names a
    node of the text, and the function whose body is the innermost around that node, if it is in the
    body of one.  What the scan finds is in no body. -/
theorem readModule_fails_at_site (scan : Bool) (u : CompilationUnit) {text : String}
    {nodes : List Node} (hnodes : readExpressions text = .ok nodes) :
    (∀ e, (readModule scan u text).outcome = .error e →
      ∃ n, e.context = some n ∧ ⟨e.function, n⟩ ∈ Node.sitesIn none none nodes)
    ∧ ∀ s e, ((Read.scanPrototypes ⟨none, none, u.symbols.depth⟩
        (Read.documentNodes nodes)).run.run s).1 = .error e →
      e.function = none ∧ ∃ n, e.context = some n ∧ ⟨none, n⟩ ∈ Node.sitesIn none none nodes := by
  have hwithin := within_documentNodes nodes
  constructor
  · intro e he
    rw [readModule_eq hnodes] at he
    exact ((mirrors_start u hwithin scan).ends.fails e he).2
  · intro s e he
    have hscan : (Read.scanPrototypes ⟨none, none, u.symbols.depth⟩
        (Read.documentNodes nodes)).FailsHere _ _ := failsHere_scanPrototypes hwithin
    obtain ⟨n, hcontext, hfunction, hsite⟩ := (hscan s).fails e he
    dsimp only at hfunction
    rw [hfunction] at hsite
    exact ⟨hfunction, n, hcontext, hsite⟩

/-- A function in the body of another one, with an unknown return type. -/
def unknownInside : String :=
  "(function f (signature int (parameters) ((declare () int x)" ++
  "(function g (signature nowhere (parameters) ((return (var_ref x))))) (return (var_ref x)))))"

/-- The site that an error names. -/
def ReadError.site? (e : ReadError) : Option Site := e.context.map fun n => ⟨e.function, n⟩

/-- The return type of the inner function stands in the body of the outer one. -/
theorem readModule_fails_at_site_unknownInside :
    ∃ nodes e, readExpressions unknownInside = .ok nodes
      ∧ (readModule true .fresh unknownInside).outcome = .error e
      ∧ e.site? = some ⟨some "f", .symbol "nowhere"⟩
      ∧ ∃ n, e.context = some n ∧ ⟨e.function, n⟩ ∈ Node.sitesIn none none nodes := by
  obtain ⟨nodes, hnodes, -⟩ := exists_ok_of_any (x := readExpressions unknownInside)
    (p := fun _ => true) (by decide +kernel)
  have hsite : (((readModule true .fresh unknownInside).outcome.map fun _ => none).tryCatch
      fun e => .ok e.site?).toOption = some (some ⟨some "f", .symbol "nowhere"⟩) := by decide +kernel
  cases hout : (readModule true .fresh unknownInside).outcome with
  | ok ir =>
    rw [hout] at hsite
    cases hsite
  | error e =>
    rw [hout] at hsite
    exact ⟨nodes, e, hnodes, rfl, Option.some.inj hsite,
      (readModule_fails_at_site true .fresh hnodes).1 e hout⟩

end Shading
