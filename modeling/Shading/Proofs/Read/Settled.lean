/-
  Shading.Proofs.Read.Settled — functions that keep their place and their parameters.

  Functions are where the order of reading and the order of a module part.
-/
import Shading.Proofs.Read.Prototypes
import Shading.Proofs.Read.Scoped

namespace Shading

open List

/-! ## §1. Where functions stand in a document -/

mutual

/-- The names of all functions in an instruction, also of those in the bodies of others. -/
def Node.functionNames : Node → List String
  | .list (.symbol "function" :: .symbol name :: signatures) =>
    name :: Node.namesInBodies signatures
  | .list [.symbol "if", _, .list thenNodes, .list elseNodes] =>
    Node.namesIn thenNodes ++ Node.namesIn elseNodes
  | .list [.symbol "loop", _, _, _, _, .list nodes] => Node.namesIn nodes
  | _ => []

/-- The names of all functions in a block. -/
def Node.namesIn : List Node → List String
  | [] => []
  | node :: rest => Node.functionNames node ++ Node.namesIn rest

/-- The names of all functions in the body of a signature. -/
def Node.bodyNames : Node → List String
  | .list [.symbol "signature", _, _, .list nodes] => Node.namesIn nodes
  | _ => []

/-- The names of all functions in the bodies of signatures. -/
def Node.namesInBodies : List Node → List String
  | [] => []
  | node :: rest => Node.bodyNames node ++ Node.namesInBodies rest

end

mutual

/-- The simple instructions and functions that an instruction consists of, those in the blocks of
    branches and loops included, those in the bodies of functions not. -/
def Node.outer : Node → List Node
  | .list [.symbol "if", _, .list thenNodes, .list elseNodes] =>
    Node.outerIn thenNodes ++ Node.outerIn elseNodes
  | .list [.symbol "loop", _, _, _, _, .list nodes] => Node.outerIn nodes
  | node => [node]

/-- The same for a block. -/
def Node.outerIn : List Node → List Node
  | [] => []
  | node :: rest => Node.outer node ++ Node.outerIn rest

end

namespace Node

/-- Is the node a declaration? -/
def isDeclaration : Node → Bool
  | .list (.symbol "declare" :: _) => true
  | _ => false

/-- The signatures of the node, if it is a function of that name. -/
def signaturesFor (name : String) (node : Node) : List Node :=
  if node.functionName? = some name then node.signatureNodes else []

/-- Has the signature a body? -/
def hasBody : Node → Bool
  | .list [_, _, _, .list (_ :: _)] => true
  | _ => false

/-- The types of the parameters of a signature, as the table knows them. -/
def typesIn (t : SymbolTable) (node : Node) : List (Option Ty) :=
  node.parameterTypes.map fun ty => (readType ⟨t, none⟩ ty).toOption

/-- A signature that comes after another leaves the body of the other its parameters. -/
def Spares (t : SymbolTable) (first second : Node) : Prop :=
  first.hasBody = true → first.typesIn t ≠ second.typesIn t

end Node

/-- In this document the function keeps its place and its parameters. -/
structure Settled (t : SymbolTable) (nodes : List Node) (name : String) : Prop where
  /-- It stands in the body of no function. -/
  unnested : ∀ node ∈ Node.outerIn nodes, name ∉ Node.namesInBodies node.signatureNodes
  /-- No signature has the parameter types of one before it that has a body. -/
  overloads : ((Node.outerIn nodes).flatMap (·.signaturesFor name)).Pairwise (Node.Spares t)
  /-- From the first node in which it stands to the last one, nothing is declared but in the first.
      -/
  together : ∃ before first between after, nodes = before ++ first :: (between ++ after)
    ∧ (∀ node ∈ before, name ∉ node.functionNames)
    ∧ (∀ node ∈ Node.outerIn between, node.isDeclaration = false)
    ∧ ∀ node ∈ after, name ∉ node.functionNames

/-! ## §2. Functions that are not mentioned -/

/-- The names of all functions in what is read. -/
def Reading.functionNames : Reading → List String
  | .instruction node _ => node.functionNames
  | .instructions nodes _ => Node.namesIn nodes
  | .function _ parts _ _ => (Node.list (.symbol "function" :: parts)).functionNames
  | .signatures _ _ name nodes _ => name :: Node.namesInBodies nodes
  | .signature _ _ name node _ => name :: node.bodyNames

/-- The functions of that name are the same, at the same places. -/
def ReadState.Untouched (name : String) (s s' : ReadState) : Prop :=
  ∀ (slot : Nat) (f : Function), f.name = name → (s'.functions[slot]? = some f ↔ s.functions[slot]? = some f)

variable {other : String} {returnType : Ty} {parameters : List Var} {index : Nat}

namespace ReadState.Untouched

variable {name : String} {s s1 s' : ReadState}

theorem of_eq (h : s'.functions = s.functions) : Untouched name s s' := by
  intro slot f hf
  rw [h]

theorem trans (h1 : Untouched name s s1) (h2 : Untouched name s1 s') : Untouched name s s' :=
  fun slot f hf => (h2 slot f hf).trans (h1 slot f hf)

theorem onFunction {slot : Nat} {f : Prototype → Prototype} {g : List Signature → List Signature}
    (hplace : s.Places slot other) (hne : other ≠ name) :
    Untouched name s (s.onFunction slot other f g) := by
  intro i k hk
  obtain ⟨old, hold, hname, -⟩ := hplace.exists_function
  show (s.functions.modify slot _)[i]? = some k ↔ _
  rw [getElem?_modify]
  by_cases hi : slot = i
  · -- the place of the other function, before and after
    subst hi
    rw [hold]
    constructor
    · intro h
      simp only [if_true, Option.map_eq_map, Option.map_some, Option.some.injEq] at h
      rw [← h] at hk
      exact absurd (hname.symm.trans hk) hne
    · intro h
      cases h
      exact absurd (hname.symm.trans hk) hne
  · simp only [if_neg hi, Option.map_eq_map, Option.map_id_fun', id_eq]

/-- A new slot touches no other function. -/
theorem slot (cx : Context) (hne : other ≠ name) : Untouched name s (s.slot cx other).2 := by
  have happend : ∀ new : Function, new.name = other →
      ∀ (i : Nat) (k : Function), k.name = name →
        ((s.functions ++ [new])[i]? = some k ↔ s.functions[i]? = some k) := by
    intro new hnew i k hk
    by_cases hi : i < s.functions.length
    · rw [getElem?_append_left hi]
    · have hnone : s.functions[i]? = none := getElem?_eq_none (by omega)
      rw [getElem?_append_right (by omega), hnone, getElem?_singleton]
      constructor
      · intro h
        split at h
        · cases h
          exact absurd (hnew.symm.trans hk) hne
        · cases h
      · exact nofun
  intro i k hk
  unfold ReadState.slot
  split
  · rfl
  · split
    · exact happend _ rfl i k hk
    · exact happend _ rfl i k hk

theorem registers {slot : Nat} (hplace : s.Places slot other) (hne : other ≠ name)
    (h : Registers slot other returnType parameters index s s') : Untouched name s s' := by
  cases h with
  | repeated bound known repeats => exact onFunction hplace hne
  | added bound unknown =>
    exact (onFunction hplace hne).trans (onFunction (hplace.onFunction _ _ _ _) hne)

theorem places {slot : Nat} (h : Untouched name s s') :
    s'.Places slot name ↔ s.Places slot name := by
  unfold Places
  rw [Option.map_eq_some_iff, Option.map_eq_some_iff]
  constructor
  · intro hf
    obtain ⟨f, hf, hname⟩ := hf
    exact ⟨f, (h slot f hname).mp hf, hname⟩
  · intro hf
    obtain ⟨f, hf, hname⟩ := hf
    exact ⟨f, (h slot f hname).mpr hf, hname⟩

theorem signatures {slot : Nat} (h : Untouched name s s') (hplace : s.Places slot name) :
    s'.signatures slot = s.signatures slot := by
  obtain ⟨f, hf, hname, hsigs⟩ := hplace.exists_function
  have hf' := (h slot f hname).mpr hf
  rw [hsigs]
  unfold ReadState.signatures
  rw [hf']
  rfl

theorem overloads (h : Untouched name s s') {P : Signature → Prop}
    (hs : s.Overloads fun other sig => other = name → P sig) :
    s'.Overloads fun other sig => other = name → P sig := by
  intro f hf sig hsig hname
  obtain ⟨slot, hslot⟩ := mem_iff_getElem?.mp hf
  exact hs f (mem_of_getElem? ((h slot f hname).mp hslot)) sig hsig hname

end ReadState.Untouched

variable {cx : Context} {name : String} {s : ReadState}

theorem untouched_header {declarations : List Node} {slot : Nat} {s1 s2 : ReadState}
    (hplace : s.Places slot other) (hne : other ≠ name)
    (hdecl : Declares cx declarations parameters s.opened s1)
    (hreg : Registers slot other returnType parameters index s1 s2) :
    ReadState.Untouched name s s2 ∧ s2.Places slot other := by
  have hfunctions : s1.functions = s.functions := (functions_declares hdecl).trans rfl
  have hplace1 : s1.Places slot other := by
    unfold ReadState.Places
    rw [hfunctions]
    exact hplace
  have hdeclared : ReadState.Untouched name s s1 := .of_eq hfunctions
  exact ⟨hdeclared.trans (.registers hplace1 hne hreg),
    hplace1.of_prefix (functionNames_registers hreg ▸ prefix_refl _)⟩

variable {reading : Reading} {s' : ReadState}

/-- **Reading leaves alone the functions that it does not mention.** -/
theorem Reads.untouched (h : Reads cx reading s s') (hplaced : reading.Placed s)
    (hname : name ∉ reading.functionNames) : ReadState.Untouched name s s' := by
  induction h with
  | jump | declare | assign | ret | rvalue | nil | noMore => exact .of_eq rfl
  | function inner ih => exact ih trivial hname
  | branch value first second ih1 ih2 =>
    simp only [Reading.functionNames, Node.functionNames, mem_append, not_or] at hname
    exact (ih1 trivial hname.1).trans (ih2 trivial hname.2)
  | loop header inner ih =>
    simp only [Reading.functionNames, Node.functionNames] at hname
    exact ih trivial hname
  | cons first others ih1 ih2 =>
    simp only [Reading.functionNames, Node.namesIn, mem_append, not_or] at hname
    exact (ih1 trivial hname.1).trans (ih2 trivial hname.2)
  | @overloads cx s s1 s' scan other first rest slot entries place inner ih =>
    obtain ⟨rfl, rfl⟩ := Prod.mk.inj place
    simp only [Reading.functionNames, Node.functionNames] at hname
    have hne : other ≠ name := fun heq => hname (heq ▸ mem_cons_self)
    exact (ReadState.Untouched.slot cx hne).trans (ih (places_slot s cx other) hname)
  | @more cx s s1 s' scan slot other node rest entry entries first others ih1 ih2 =>
    have hplaced1 := ReadState.Places.of_prefix hplaced first.functionNames_prefix
    simp only [Reading.functionNames, Node.namesInBodies, mem_cons, mem_append,
      not_or] at hname ih1 ih2
    exact (ih1 hplaced ⟨hname.1, hname.2.1⟩).trans (ih2 hplaced1 ⟨hname.1, hname.2.2⟩)
  | @prototype cx s s1 s2 scan slot other ty declarations nodes returnType parameters index type
      declares registers silent =>
    have hne : other ≠ name := fun heq => hname (heq ▸ mem_cons_self)
    exact (untouched_header hplaced hne declares registers).1.trans (.of_eq rfl)
  | @definition cx s s1 s2 s3 slot other ty declarations nodes returnType parameters index body type
      declares registers nonempty undefined inner bound ih =>
    have hne : other ≠ name := fun heq => hname (heq ▸ mem_cons_self)
    obtain ⟨hheader, hplace2⟩ := untouched_header hplaced hne declares registers
    have hbody : name ∉ Node.namesIn nodes := by
      intro hmem
      refine hname (mem_cons_of_mem _ ?_)
      simpa [Node.bodyNames] using hmem
    have hcomplete : ReadState.Untouched name s3 (s3.complete slot other index body) :=
      .onFunction (hplace2.of_prefix inner.functionNames_prefix) hne
    exact ((hheader.trans (ih trivial hbody)).trans hcomplete).trans (.of_eq rfl)

/-! ## §3. The function in question -/

/-- If the overload has a body, that belongs to one of the signatures that are done, and uses what is
    known and the parameters of the overload. -/
def Signature.Kept (t : SymbolTable) (done : List Node) (known : List Var) (sig : Signature) : Prop :=
  sig.body ≠ [] → (∃ node ∈ done, node.hasBody = true
      ∧ node.typesIn t = sig.parameters.map fun v => some v.ty)
    ∧ Scoped (known ++ sig.parameters) (Instruction.walkAll 0 sig.body)

variable {t : SymbolTable} {done : List Node} {known : List Var}

theorem Signature.Kept.of_nil {sig : Signature} (h : sig.body = []) : sig.Kept t done known :=
  fun hbody => absurd h hbody

/-- All overloads of the function are kept. -/
def ReadState.Keeps (s : ReadState) (t : SymbolTable) (name : String) (done : List Node)
    (known : List Var) : Prop :=
  s.Overloads fun other sig => other = name → sig.Kept t done known

namespace ReadState.Keeps

variable {t : SymbolTable} {name : String} {done done' : List Node} {known known' : List Var}
  {s s' : ReadState}

theorem mono (h : s.Keeps t name done known) (hdone : ∀ node ∈ done, node ∈ done')
    (hknown : ∀ v ∈ known, v ∈ known') : s.Keeps t name done' known' := by
  refine Overloads.mono h ?_
  intro other sig hsig hother hbody
  obtain ⟨⟨node, hnode, htypes⟩, hscoped⟩ := hsig hother hbody
  refine ⟨⟨node, hdone node hnode, htypes⟩, hscoped.mono ?_⟩
  intro v hv
  rcases mem_append.mp hv with hv | hv
  · exact mem_append_left _ (hknown v hv)
  · exact mem_append_right _ hv

theorem of_eq (h : s.Keeps t name done known) (hfunctions : s'.functions = s.functions) :
    s'.Keeps t name done known := by
  unfold Keeps Overloads
  rw [hfunctions]
  exact h

theorem slot (h : s.Keeps t name done known) (cx : Context) (other : String) :
    (s.slot cx other).2.Keeps t name done known :=
  Overloads.slot h cx other fun _ hbody _ => .of_nil hbody

theorem setParameters (h : s.Keeps t name done known) {slot : Nat} (hplace : s.Places slot name)
    (hempty : ∀ old, (s.signatures slot)[index]? = some old → old.body = []) :
    (s.setParameters slot name index parameters).Keeps t name done known := by
  refine Overloads.onFunction_at h hplace ?_
  intro sig hsig _
  obtain hsig | ⟨old, hold, rfl⟩ := mem_modify hsig
  · obtain ⟨f, hf, hname, hsigs⟩ := hplace.exists_function
    rw [hsigs] at hsig
    exact h f (mem_of_getElem? hf) sig hsig hname
  · exact .of_nil (hempty old hold)

theorem addOverload (h : s.Keeps t name done known) {slot : Nat} :
    (s.addOverload slot name returnType).Keeps t name done known := by
  refine Overloads.onFunction h ?_
  intro other sigs hsigs sig hsig
  rcases mem_append.mp hsig with hsig | hsig
  · exact hsigs sig hsig
  · rw [mem_singleton.mp hsig]
    exact fun _ => .of_nil rfl

end ReadState.Keeps

/-- Registering sets the parameters of the overload. -/
theorem Registers.parameters_eq {slot : Nat} (hplace : s.Places slot name)
    (h : Registers slot name returnType parameters index s s') :
    ∀ sig, (s'.signatures slot)[index]? = some sig → sig.parameters = parameters := by
  have hset : ∀ (s : ReadState) (i : Nat), s.Places slot name →
      ∀ sig, ((s.setParameters slot name i parameters).signatures slot)[i]? = some sig →
        sig.parameters = parameters := by
    intro s i hplace sig hsig
    rw [ReadState.setParameters, ReadState.signatures_onFunction hplace, getElem?_modify] at hsig
    simp only [if_true, Option.map_eq_map, Option.map_eq_some_iff] at hsig
    obtain ⟨old, -, rfl⟩ := hsig
    rfl
  cases h with
  | repeated bound known repeats => exact hset s index hplace
  | added bound unknown => exact hset _ _ (hplace.onFunction _ _ _ _)

theorem types_of_declares_in {nodes : List Node} {vs : List Var} (h : Declares cx nodes vs s s')
    (htypes : ∀ name, t.findType? name = s.symbols.findType? name) :
    nodes.map (fun node => (readType ⟨t, none⟩ node.declaredType).toOption)
      = vs.map fun v => some v.ty := by
  induction h with
  | nil s => rfl
  | @cons node rest v vs s s' first others ih =>
    have hdeclare := findType?_congr (typeScopes_declare first)
    obtain ⟨qualifiers, ty, name, u, rfl, hu, hv⟩ := readVariable_eq_ok.mp first
    have hread : readType ⟨t, none⟩ ty = .ok u := readType_congr htypes hu
    have hty : (s.nextVar v).ty = u := (Variable.qualifyAll?_keeps hv).2
    rw [map_cons, map_cons, ih fun name => (htypes name).trans (hdeclare name).symm, hty]
    show (readType ⟨t, none⟩ ty).toOption :: _ = _
    rw [hread]
    rfl

variable {node : Node}

/-- An overload that has a body is spared, so registering keeps it. -/
theorem ReadState.Keeps.registers {slot : Nat} (h : s.Keeps t name done known)
    (hplace : s.Places slot name) (hin : s.InStep)
    (hreg : Registers slot name returnType parameters index s s')
    (htypes : node.typesIn t = parameters.map fun v => some v.ty)
    (hpair : (done ++ [node]).Pairwise (Node.Spares t)) : s'.Keeps t name done known := by
  obtain ⟨f, hf, hname, hsigs⟩ := hplace.exists_function
  cases hreg with
  | @repeated p _ _ bound matched repeats =>
    refine h.setParameters hplace ?_
    intro old hold
    -- the overload has the types of the signature, so its body would belong to one of `done`
    obtain ⟨o, ho, hmatch⟩ := Prototype.matching?_eq_some matched
    rw [hin.overloads hplace bound, getElem?_map, hold, Option.map_some,
      Option.some.injEq] at ho
    subst ho
    apply Classical.byContradiction
    intro hbody
    rw [hsigs] at hold
    obtain ⟨⟨first, hfirst, hfirstBody, hfirstTypes⟩, -⟩ :=
      h f (mem_of_getElem? hf) old (mem_of_getElem? hold) hname hbody
    refine (pairwise_append.mp hpair).2.2 first hfirst node mem_cons_self hfirstBody ?_
    have hsame : old.parameters.map (fun v => some v.ty) = parameters.map fun v => some v.ty := by
      have hmapped := congrArg (List.map some) hmatch
      simpa [Overload.types, Signature.overload, Function.comp_def] using hmapped
    rw [hfirstTypes, htypes, hsame]
  | @added p _ bound unknown =>
    refine h.addOverload.setParameters (hplace.onFunction _ _ _ _) ?_
    intro old hold
    rw [ReadState.addOverload, ReadState.signatures_onFunction hplace,
      getElem?_append_right (Nat.le_refl _), Nat.sub_self] at hold
    cases hold
    rfl

/-- **A signature of the function leaves the bodies before it their parameters, and its own body uses
    its own parameters.** -/
theorem Reads.keeps_signature {scan : Bool} {slot : Nat} {entry : Entry}
    (h : Reads cx (.signature scan slot name node entry) s s') (hplace : s.Places slot name)
    (hs : s.Steady cx.globalDepth) (htypes : s.symbols.typeScopes = t.typeScopes)
    (hnested : name ∉ node.bodyNames) (hpair : (done ++ [node]).Pairwise (Node.Spares t))
    (hknown : ∀ v ∈ s.symbols.visible, v ∈ known) (hk : s.Keeps t name done known) :
    s'.Keeps t name (done ++ [node]) known := by
  -- up to the body, both kinds of signature do the same
  have header : ∀ {ty : Node} {declarations nodes : List Node} {returnType : Ty}
      {parameters : List Var} {index : Nat} {s1 s2 : ReadState},
      readType (s.env cx) ty = .ok returnType → Declares cx declarations parameters s.opened s1 →
      Registers slot name returnType parameters index s1 s2 →
      node = .list [.symbol "signature", ty, .list (.symbol "parameters" :: declarations),
        .list nodes] →
      node.typesIn t = parameters.map (fun v => some v.ty) ∧ s2.Keeps t name done known
        ∧ s1.Places slot name := by
    intro ty declarations nodes returnType parameters index s1 s2 type declares registers hnode
    obtain ⟨hroot, hin⟩ := hs.of_ne_nil (scopes_ne_nil_of_readType type)
    have hopened : ∀ other, t.findType? other = s.opened.symbols.findType? other := fun other =>
      (findType?_congr htypes.symm other).trans rfl
    have hfunctions : s1.functions = s.functions := (functions_declares declares).trans rfl
    have hplace1 : s1.Places slot name := by
      unfold ReadState.Places
      rw [hfunctions]
      exact hplace
    have hin1 := ((evolves_frame cx.globalDepth).declares declares hroot.opened
      ⟨hin.nodup, hin.agree⟩).inStep
    have hnodeTypes : node.typesIn t = parameters.map fun v => some v.ty := by
      rw [← types_of_declares_in declares hopened, hnode]
      simp [Node.typesIn, Node.parameterTypes, Function.comp_def]
    exact ⟨hnodeTypes, (hk.of_eq hfunctions).registers hplace1 hin1 registers hnodeTypes hpair,
      hplace1⟩
  have hmore : ∀ n ∈ done, n ∈ done ++ [node] := fun n hn => mem_append_left _ hn
  cases h with
  | @prototype _ _ s1 s2 _ _ _ ty declarations nodes returnType parameters index type declares
      registers silent =>
    obtain ⟨-, hkept, -⟩ := header type declares registers rfl
    exact (hkept.mono hmore fun v hv => hv).of_eq rfl
  | @definition _ _ s1 s2 s3 _ _ ty declarations nodes returnType parameters index body type declares
      registers nonempty undefined inner bound =>
    obtain ⟨hnodeTypes, hkept, hplace1⟩ := header type declares registers rfl
    have hplace2 : s2.Places slot name :=
      hplace1.of_prefix (functionNames_registers registers ▸ prefix_refl _)
    have hbodyNames : name ∉ Node.namesIn nodes := by
      simpa [Node.bodyNames] using hnested
    have huntouched : ReadState.Untouched name s2 s3 := inner.untouched trivial hbodyNames
    have hkept3 : s3.Keeps t name (done ++ [_]) known :=
      ReadState.Keeps.mono (huntouched.overloads hkept) hmore fun v hv => hv
    have hscoped := inner.isScoped ((binds_header declares registers).visible_known hknown)
    have hplace3 := huntouched.places.mpr hplace2
    suffices hcomplete : (s3.complete slot name index body).Keeps t name (done ++ [_]) known from
      hcomplete.of_eq rfl
    refine ReadState.Overloads.onFunction_at hkept3 hplace3 ?_
    intro sig hsig _
    rw [huntouched.signatures hplace2] at hsig
    obtain hsig | ⟨old, hold, rfl⟩ := mem_modify hsig
    · -- another overload
      obtain ⟨f, hf, hname, hsigs⟩ := hplace2.exists_function
      rw [hsigs] at hsig
      have hf3 := (huntouched slot f hname).mpr hf
      exact hkept3 f (mem_of_getElem? hf3) sig hsig hname
    · intro _
      have hparameters := registers.parameters_eq hplace1 old hold
      refine ⟨⟨_, mem_append_right _ mem_cons_self, ?_, ?_⟩, ?_⟩
      · cases nodes with
        | nil => exact absurd rfl nonempty
        | cons first rest => rfl
      · rw [hnodeTypes, hparameters]
      · rw [hparameters]
        exact hscoped 0

/-- The signatures of the function in what is read, bodies of functions left out. -/
def Reading.signaturesFor (name : String) : Reading → List Node
  | .instruction node _ => node.outer.flatMap (·.signaturesFor name)
  | .instructions nodes _ => (Node.outerIn nodes).flatMap (·.signaturesFor name)
  | .function _ parts _ _ => (Node.list (.symbol "function" :: parts)).signaturesFor name
  | .signatures _ _ other nodes _ => if other = name then nodes else []
  | .signature _ _ other node _ => if other = name then [node] else []

/-- The function stands in no body of a function that is read. -/
def Reading.Unnested (name : String) : Reading → Prop
  | .instruction node _ => ∀ n ∈ node.outer, name ∉ Node.namesInBodies n.signatureNodes
  | .instructions nodes _ => ∀ n ∈ Node.outerIn nodes, name ∉ Node.namesInBodies n.signatureNodes
  | .function _ parts _ _ =>
    name ∉ Node.namesInBodies (Node.list (.symbol "function" :: parts)).signatureNodes
  | .signatures _ _ _ nodes _ => name ∉ Node.namesInBodies nodes
  | .signature _ _ _ node _ => name ∉ node.bodyNames

theorem Node.outer_function (parts : List Node) :
    (Node.list (.symbol "function" :: parts)).outer = [.list (.symbol "function" :: parts)] := by
  simp [Node.outer]

theorem Reads.keeps_other_signature {scan : Bool} {slot : Nat} {entry : Entry}
    (h : Reads cx (.signature scan slot other node entry) s s') (hplace : s.Places slot other)
    (hs : s.Steady cx.globalDepth) (htypes : s.symbols.typeScopes = t.typeScopes)
    (hnested : name ∉ node.bodyNames)
    (hpair : (done ++ if other = name then [node] else []).Pairwise (Node.Spares t))
    (hknown : ∀ v ∈ s.symbols.visible, v ∈ known) (hk : s.Keeps t name done known) :
    s'.Keeps t name (done ++ if other = name then [node] else []) known := by
  by_cases hother : other = name
  · subst hother
    rw [if_pos rfl] at hpair ⊢
    exact h.keeps_signature hplace hs htypes hnested hpair hknown hk
  · rw [if_neg hother, List.append_nil]
    have huntouched : ReadState.Untouched name s s' := by
      refine h.untouched hplace ?_
      intro hmem
      rcases mem_cons.mp hmem with heq | hmem
      · exact hother heq.symm
      · exact hnested hmem
    exact huntouched.overloads hk

/-- **Reading keeps the bodies of the function**, as long as the function stands in no body and no
    signature has the parameter types of one before it that has a body. -/
theorem Reads.keeps (h : Reads cx reading s s') (hplaced : reading.Placed s)
    (hs : s.Steady cx.globalDepth) (htypes : s.symbols.typeScopes = t.typeScopes)
    (hnested : reading.Unnested name)
    (hpair : (done ++ reading.signaturesFor name).Pairwise (Node.Spares t))
    (hknown : ∀ v ∈ s.symbols.visible, v ∈ known) (hk : s.Keeps t name done known) (depth : Nat) :
    s'.Keeps t name (done ++ reading.signaturesFor name) (known ++ reading.declared depth) := by
  have hgrow : ∀ {s : ReadState} {done more : List Node} {known others : List Var},
      s.Keeps t name done known → s.Keeps t name (done ++ more) (known ++ others) := by
    intro s done more known others hk
    exact hk.mono (fun n hn => mem_append_left _ hn) fun v hv => mem_append_left _ hv
  induction h generalizing done known depth with
  | jump | assign | ret | rvalue | nil | noMore => exact hgrow hk
  | declare declaration => exact hgrow (hk.of_eq rfl)
  | @function cx s s' parts slot entries inner ih =>
    simp only [Reading.Unnested, Reading.signaturesFor, Node.outer_function, mem_singleton,
      forall_eq, flatMap_cons, flatMap_nil, List.append_nil] at hnested hpair ih ⊢
    exact ih trivial hs htypes hnested hpair hknown hk depth
  | @branch cx s s1 s' node thenNodes elseNodes condition thenBody elseBody value first second
      ih1 ih2 =>
    have hquiet := (readRvalue_made value).quiet (depth + 1)
    have hdeclared : (Reading.instruction (.list [.symbol "if", node, .list thenNodes,
          .list elseNodes]) (some (.branch condition thenBody elseBody))).declared depth
        = declaredIn (Instruction.walkAll (depth + 2) thenBody)
          ++ declaredIn (Instruction.walkAll (depth + 2) elseBody) :=
      declaredIn_branch depth hquiet
    simp only [Reading.Unnested, Reading.signaturesFor, Node.outer, forall_mem_append,
      flatMap_append, ← append_assoc] at hnested hpair ih1 ih2 ⊢
    obtain ⟨hs1, -⟩ := first.steady trivial hs
    have htypes1 := (first.typeScopes trivial).trans htypes
    have hknown1 := (first.binds (depth + 2)).visible_known hknown
    have hk1 := ih1 trivial hs htypes hnested.1 (pairwise_append.mp hpair).1 hknown hk
      (depth + 2)
    have hk2 := ih2 trivial hs1 htypes1 hnested.2 hpair hknown1 hk1 (depth + 2)
    rw [hdeclared, ← append_assoc]
    exact hk2
  | @loop cx s s' whole counter start stop increment nodes controls body header inner ih =>
    have hquiet := Controls.quiet_walk header (depth + 1)
    have hdeclared : (Reading.instruction (.list [.symbol "loop", counter, start, stop, increment,
          .list nodes]) (some (.loop s.nextLoop controls body))).declared depth
        = declaredIn (Instruction.walkAll (depth + 2) body) :=
      declaredIn_loop depth hquiet
    simp only [Reading.Unnested, Reading.signaturesFor, Node.outer] at hnested hpair ih ⊢
    have htaken : s.takeLoop.Steady cx.globalDepth := hs.of_symbols rfl rfl
    rw [hdeclared]
    exact ih trivial htaken htypes hnested hpair hknown (hk.of_eq rfl) (depth + 2)
  | @cons cx s s1 s' node rest i is first others ih1 ih2 =>
    have hdeclared : (Reading.instructions (node :: rest) (i.toList ++ is)).declared depth
        = declaredIn (Instruction.walkAll depth i.toList)
          ++ declaredIn (Instruction.walkAll depth is) := by
      show declaredIn (Instruction.walkAll depth (i.toList ++ is)) = _
      rw [walkAll_append, declaredIn_append]
    simp only [Reading.Unnested, Reading.signaturesFor, Node.outerIn, forall_mem_append,
      flatMap_append, ← append_assoc] at hnested hpair ih1 ih2 ⊢
    obtain ⟨hs1, -⟩ := first.steady trivial hs
    have htypes1 := (first.typeScopes trivial).trans htypes
    have hknown1 := (first.binds depth).visible_known hknown
    have hk1 := ih1 trivial hs htypes hnested.1 (pairwise_append.mp hpair).1 hknown hk depth
    have hk2 := ih2 trivial hs1 htypes1 hnested.2 hpair hknown1 hk1 depth
    rw [hdeclared, ← append_assoc]
    exact hk2
  | @overloads cx s s1 s' scan other first rest slot entries place inner ih =>
    obtain ⟨rfl, rfl⟩ : (s.slot cx other).1 = slot ∧ (s.slot cx other).2 = s1 := by simp [place]
    have hopen := scopes_ne_nil_of_overloads inner
    obtain ⟨hroot, hin⟩ := hs.of_ne_nil hopen
    have hevolves := (evolves_frame cx.globalDepth).slot s cx other rfl hopen hroot hin
    have hvisible : (s.slot cx other).2.symbols.visible = s.symbols.visible := by
      unfold SymbolTable.visible
      rw [varScopes_slot s cx other hopen]
    have hsignatures : (Reading.function scan (.symbol other :: first :: rest)
          (s.slot cx other).1 entries).signaturesFor name
        = if other = name then first :: rest else [] := by
      simp [Reading.signaturesFor, Node.signaturesFor, Node.functionName?, Node.signatureNodes]
    rw [hsignatures] at hpair ⊢
    exact ih (places_slot s cx other) (.inr ⟨hevolves.rooted, hevolves.inStep⟩)
      ((typeScopes_slot s cx other hopen).trans htypes) hnested hpair (hvisible ▸ hknown)
      (hk.slot cx other) depth
  | @more cx s s1 s' scan slot other node rest entry entries first others ih1 ih2 =>
    have hplaced1 := ReadState.Places.of_prefix hplaced first.functionNames_prefix
    have hsignatures : (Reading.signatures scan slot other (node :: rest)
          (entry :: entries)).signaturesFor name
        = (Reading.signature scan slot other node entry).signaturesFor name
          ++ (Reading.signatures scan slot other rest entries).signaturesFor name := by
      show (if other = name then node :: rest else [])
        = (if other = name then [node] else []) ++ if other = name then rest else []
      split <;> rfl
    rw [hsignatures, ← append_assoc] at hpair ⊢
    simp only [Reading.Unnested, Node.namesInBodies, mem_append, not_or] at hnested ih1 ih2
    obtain ⟨hs1, -⟩ := first.steady hplaced hs
    have hk1 := ih1 hplaced hs htypes hnested.1 (pairwise_append.mp hpair).1 hknown hk depth
    have hknown1 := (first.binds depth).visible_known hknown
    have hk2 := ih2 hplaced1 hs1 ((first.typeScopes hplaced).trans htypes) hnested.2 hpair hknown1
      hk1 depth
    exact hk2.mono (fun n hn => hn) fun v hv => by simpa [Reading.declared] using hv
  | prototype type declares registers silent =>
    have hk' := (Reads.prototype type declares registers silent).keeps_other_signature hplaced hs
      htypes hnested hpair hknown hk
    exact hk'.mono (fun n hn => hn) fun v hv => mem_append_left _ hv
  | definition type declares registers nonempty undefined inner bound ih =>
    have hk' := (Reads.definition type declares registers nonempty undefined inner
      bound).keeps_other_signature hplaced hs htypes hnested hpair hknown hk
    exact hk'.mono (fun n hn => hn) fun v hv => mem_append_left _ hv

/-! ## §4. Nodes that declare nothing -/

/-- Nothing is declared in what is read, but for the bodies of functions. -/
def Reading.DeclaresNothing : Reading → Prop
  | .instruction node _ => ∀ n ∈ node.outer, n.isDeclaration = false
  | .instructions nodes _ => ∀ n ∈ Node.outerIn nodes, n.isDeclaration = false
  | _ => True

/-- Nodes without declarations declare nothing. -/
theorem Reads.declared_eq_nil (h : Reads cx reading s s') (hnone : reading.DeclaresNothing)
    (depth : Nat) : reading.declared depth = [] := by
  induction h generalizing depth with
  | jump | function | nil | overloads | noMore | more | prototype | definition => rfl
  | declare declaration =>
    obtain ⟨qualifiers, ty, name, t, rfl, -, -⟩ := readVariable_eq_ok.mp declaration
    have hself := hnone (.list [.symbol "declare", .list qualifiers, ty, .symbol name])
      (by simp [Node.outer])
    cases hself
  | assign assignment =>
    exact declaredIn_assign depth (Assignment.quiet_walk assignment (depth + 1))
  | branch value first second ih1 ih2 =>
    simp only [Reading.DeclaresNothing, Node.outer, forall_mem_append] at hnone
    refine (declaredIn_branch depth ((readRvalue_made value).quiet (depth + 1))).trans ?_
    exact append_eq_nil_iff.mpr ⟨ih1 hnone.1 (depth + 2), ih2 hnone.2 (depth + 2)⟩
  | loop header inner ih =>
    simp only [Reading.DeclaresNothing, Node.outer] at hnone
    exact (declaredIn_loop depth (Controls.quiet_walk header (depth + 1))).trans
      (ih hnone (depth + 2))
  | ret returned => exact declaredIn_ret depth (readReturn_quiet returned (depth + 1))
  | rvalue value => exact declaredIn_rvalue depth ((readRvalue_made value).quiet depth)
  | @cons cx s s1 s' node rest i is first others ih1 ih2 =>
    simp only [Reading.DeclaresNothing, Node.outerIn, forall_mem_append] at hnone
    show declaredIn (Instruction.walkAll depth (i.toList ++ is)) = []
    rw [walkAll_append, declaredIn_append]
    exact append_eq_nil_iff.mpr ⟨ih1 hnone.1 depth, ih2 hnone.2 depth⟩

end Shading
