/-
  Shading.Proofs.RoundTrip.Functions — the functions of a document, one node each.

  Where no function stands inside of another instruction, every function has a node of its own, and
  no two of its signatures have the same parameter types, reading collects exactly what the nodes
  say, in their order.
-/
import Shading.Proofs.Read.Prototypes
import Shading.Proofs.RoundTrip.Instruction

namespace Shading

open List Layout

/-! ## §1. Blocks meet no function -/

/-- What is read in blocks leaves this part of the state as it is. -/
def Reading.Keeps {α : Type} (part : ReadState → α) (s s' : ReadState) : Reading → Prop
  | .instruction _ _ | .instructions _ _ => part s' = part s
  | _ => True

variable {cx : Context} {s s' : ReadState} {reading : Reading}

/-- Blocks without functions change the variables, and number loops. -/
theorem Reads.keeps_of_flat {α : Type} {part : ReadState → α}
    (hdeclare : ∀ s v, s.symbols.scopes ≠ [] → part (s.declare v) = part s)
    (hloop : ∀ s, part s.takeLoop = part s) (h : Reads cx reading s s') (hflat : reading.Flat) :
    reading.Keeps part s s' := by
  induction h with
  | declare declaration =>
    obtain ⟨-, ty, -, t, -, ht, -⟩ := readVariable_eq_ok.mp declaration
    exact hdeclare _ _ (scopes_ne_nil_of_readType ht)
  | function inner ih => cases hflat.1
  | branch value first second ih1 ih2 =>
    obtain ⟨hflat1, hflat2⟩ := Node.isFlat_branch.mp hflat.2
    exact (ih2 hflat2).trans (ih1 hflat1)
  | loop header inner ih => exact (ih hflat.2).trans (hloop _)
  | cons first others ih1 ih2 =>
    obtain ⟨hfun, hnode, hrest⟩ := Node.isFlatBlock_cons.mp hflat
    exact (ih2 hrest).trans (ih1 ⟨hfun, hnode⟩)
  | overloads | noMore | more | prototype | definition => trivial
  | jump | assign | ret | rvalue | nil => rfl

theorem Reads.keepsFunctions (h : Reads cx reading s s') (hflat : reading.Flat) :
    reading.Keeps (·.functions) s s' :=
  h.keeps_of_flat (fun _ _ _ => rfl) (fun _ => rfl) hflat

/-! ## §2. Bound functions were met -/

/-- Every function that is bound is among those met. -/
def ReadState.Met (s : ReadState) : Prop :=
  ∀ name, (s.symbols.findFunction? name).isSome → name ∈ s.functionNames

theorem ReadState.Met.of_eq (h : s.Met) (hsymbols : ∀ name, (s'.symbols.findFunction? name).isSome →
      (s.symbols.findFunction? name).isSome) (hnames : s'.functionNames = s.functionNames) :
    s'.Met := by
  intro name hname
  rw [hnames]
  exact h name (hsymbols name hname)

theorem ReadState.Met.onFunction (h : s.Met) (slot : Nat) (name : String)
    (f : Prototype → Prototype) (g : List Signature → List Signature) :
    (s.onFunction slot name f g).Met := by
  refine h.of_eq ?_ (functionNames_onFunction s slot name f g)
  intro other hother
  rw [ReadState.onFunction, SymbolTable.findFunction?_modifyFunction] at hother
  split at hother
  next heq =>
    subst heq
    simpa using hother
  next => exact hother

/-- A function is met when it gets its slot. -/
theorem ReadState.Met.slot (h : s.Met) (cx : Context) (name : String)
    (hopen : s.symbols.scopes ≠ []) : (s.slot cx name).2.Met := by
  have hnew : ∀ (sigs : List Signature) (other : String),
      other ∈ s.functionNames ∨ other = name →
      other ∈ (s.functions ++ [Function.mk name sigs]).map (·.name) := by
    intro sigs other hother
    rw [map_append]
    exact mem_append.mpr (hother.imp_right mem_singleton.mpr)
  unfold ReadState.slot
  split
  · exact h
  · split
    next => exact fun other hother => hnew _ other (.inl (h other hother))
    next hnone =>
      intro other hother
      refine hnew _ other ?_
      by_cases hne : other = name
      · exact .inr hne
      · refine .inl (h other ?_)
        have hfind : (s.symbols.addFunctionAt cx.globalDepth (.empty name)).2.findFunction? other
            = s.symbols.findFunction? other := by
          rw [SymbolTable.findFunction?_addFunctionAt _ hopen hnone]
          exact if_neg hne
        rw [← hfind]
        exact hother

theorem Reads.met {reading : Reading} (h : Reads cx reading s s') (hplaced : reading.Placed s)
    (hs : s.Met) : s'.Met := by
  have hframe : Frame cx.globalDepth fun s s' => s.Met → s'.Met := by
    refine ⟨fun _ h => h, fun _ _ _ h1 h2 h => h2 (h1 h), fun _ h => h, ?_, ?_, ?_, ?_, ?_⟩
    · intro s v hopen h
      refine h.of_eq ?_ rfl
      intro name hname
      rw [SymbolTable.findFunction?_eq] at hname ⊢
      exact (s.symbols.functionScopes_addVariable (s.nextVar v) hopen) ▸ hname
    · intro s cx name _ hopen h
      exact h.slot cx name hopen
    · intro slot name returnType parameters index s s' _ _ hreg h
      cases hreg with
      | repeated => exact h.onFunction _ _ _ _
      | added => exact (h.onFunction _ _ _ _).onFunction _ _ _ _
    · intro s slot name index body _ _ h
      exact h.onFunction _ _ _ _
    · intro s s' _ hinner h
      refine (hinner h).of_eq ?_ rfl
      intro name hname
      rw [SymbolTable.findFunction?_eq, findSome?_isSome_iff] at hname ⊢
      obtain ⟨b, hb, hfound⟩ := hname
      have htail : b ∈ s'.symbols.functionScopes.tail := by
        rw [← SymbolTable.functionScopes_pop]
        exact hb
      exact ⟨b, mem_of_mem_tail htail, hfound⟩
  exact hframe.reads h rfl hplaced hs

/-! ## §3. Overloads in the order of their signatures -/

/-- The types of the parameters. -/
def Entry.types (e : Entry) : List Ty := e.parameters.map (·.ty)

/-- The overloads that are still to be met: none, or a prototype for each of the signatures to
    come, known from a scan. -/
def Awaits (pending : List Signature) (types : List (List Ty)) : Prop :=
  pending = []
    ∨ (pending.map (·.types) = types
      ∧ ∀ sig ∈ pending, sig = .prototype sig.returnType sig.parameters)

variable {pending : List Signature} {types : List (List Ty)}

theorem Awaits.tail {ts : List Ty} (h : Awaits pending (ts :: types)) :
    Awaits pending.tail types := by
  obtain rfl | ⟨hmap, hproto⟩ := h
  · exact .inl rfl
  · cases pending with
    | nil => cases hmap
    | cons sig rest =>
      exact .inr ⟨(cons.inj hmap).2, fun other hother =>
        hproto other (mem_cons_of_mem _ hother)⟩

variable {slot : Nat} {name : String} {sigs : List Signature}

theorem functions_onFunction {other : String} (h : s.functions[slot]? = some ⟨other, sigs⟩)
    (f : Prototype → Prototype) (g : List Signature → List Signature) :
    (s.onFunction slot name f g).functions = s.functions.set slot ⟨other, g sigs⟩ := by
  rw [ReadState.onFunction, modify_eq_set, h]
  rfl

theorem modify_append_length {α : Type} [Inhabited α] (front back : List α) (a : α) (f : α → α) :
    (front ++ a :: back).modify front.length f = front ++ f a :: back := by
  rw [modify_eq_set, set_append]
  simp

theorem getElem?_set_self {f g : Function} (h : s.functions[slot]? = some f) :
    (s.functions.set slot g)[slot]? = some g := by
  rw [getElem?_set, if_pos rfl, if_pos (List.getElem?_eq_some_iff.mp h).1]

variable {done : List Signature}

/-- How registering changes the functions. -/
theorem functions_of_registers {returnType : Ty} {parameters : List Var} {index : Nat}
    (h : Registers slot name returnType parameters index s s') (hin : s.InStep)
    (hf : s.functions[slot]? = some ⟨name, done ++ pending⟩)
    (hnew : ∀ sig ∈ done, sig.types ≠ parameters.map (·.ty))
    (hpending : Awaits pending (parameters.map (·.ty) :: types)) :
    index = done.length
      ∧ s'.functions
        = s.functions.set slot ⟨name, done ++ .prototype returnType parameters :: pending.tail⟩ := by
  have hplace : s.Places slot name := by simp [ReadState.Places, hf]
  have hsigs : s.signatures slot = done ++ pending := by simp [ReadState.signatures, hf]
  -- the place of an overload in the prototype is its place among the overloads met
  have hmatch : ∀ p, s.symbols.findFunction? name = some p →
      p.matching? (parameters.map (·.ty))
        = (pending.findIdx? (·.types = parameters.map (·.ty))).map (· + done.length) := by
    intro p hp
    have hnone : done.findIdx? (fun sig => decide (sig.types = parameters.map (·.ty))) = none :=
      findIdx?_eq_none_iff.mpr fun sig hsig => by simp [hnew sig hsig]
    rw [Prototype.matching?, hin.overloads hplace hp, hsigs, findIdx?_map, Function.comp_def]
    show (done ++ pending).findIdx? (fun sig => decide (sig.types = parameters.map (·.ty))) = _
    rw [findIdx?_append, hnone, Option.none_or]
  cases h with
  | @repeated p _ _ bound known repeats =>
    rw [hmatch p bound] at known
    obtain rfl | ⟨hmap, hproto⟩ := hpending
    · cases known
    · cases pending with
      | nil => cases known
      | cons sig rest =>
        have htypes : sig.types = parameters.map (·.ty) := (cons.inj hmap).1
        simp only [findIdx?_cons, htypes, decide_true, if_true, Option.map_some,
          Nat.zero_add, Option.some.injEq] at known
        subst known
        have hreturn : sig.returnType = returnType := by
          have := repeats.2
          rwa [hsigs, getElem?_append_right (Nat.le_refl _), Nat.sub_self,
            getElem?_cons_zero, Option.getD_some] at this
        refine ⟨rfl, ?_⟩
        rw [ReadState.setParameters, functions_onFunction hf, modify_append_length,
          hproto sig mem_cons_self, hreturn]
        rfl
  | @added p _ bound unknown =>
    rw [hmatch p bound] at unknown
    obtain rfl | ⟨hmap, hproto⟩ := hpending
    · rw [List.append_nil] at hsigs hf
      have hadd : (s.addOverload slot name returnType).functions
          = s.functions.set slot ⟨name, done ++ [.prototype returnType []]⟩ :=
        functions_onFunction hf _ _
      refine ⟨by rw [hsigs], ?_⟩
      rw [ReadState.setParameters, functions_onFunction (hadd ▸ getElem?_set_self hf), hadd,
        set_set, hsigs, modify_append_length]
      rfl
    · cases pending with
      | nil => cases hmap
      | cons sig rest =>
        have htypes : sig.types = parameters.map (·.ty) := (cons.inj hmap).1
        simp [htypes] at unknown

variable {scan : Bool} {node : Node}

theorem Reads.functions_of_signature {e : Entry}
    (h : Reads cx (.signature scan slot name node e) s s') (hflat : node.isFlatSignature = true)
    (hroot : s.Rooted cx.globalDepth) (hin : s.InStep)
    (hf : s.functions[slot]? = some ⟨name, done ++ pending⟩)
    (hnew : ∀ sig ∈ done, sig.types ≠ e.types) (hpending : Awaits pending (e.types :: types)) :
    e.index = done.length
      ∧ s'.functions = s.functions.set slot ⟨name, done ++ e.signature :: pending.tail⟩ := by
  have hin' : s.opened.InStep := ⟨hin.nodup, hin.agree⟩
  cases h with
  | prototype type declares registers silent =>
    have hevolves := (evolves_frame cx.globalDepth).declares declares hroot.opened hin'
    have hfunctions := functions_declares declares
    obtain ⟨hindex, hset⟩ := functions_of_registers registers hevolves.inStep
      (hfunctions ▸ hf) hnew hpending
    exact ⟨hindex, hset.trans (by rw [hfunctions]; rfl)⟩
  | @definition _ _ s1 s2 s3 _ _ ty declarations nodes returnType parameters index body type declares
      registers nonempty undefined inner bound =>
    have hevolves := (evolves_frame cx.globalDepth).declares declares hroot.opened hin'
    have hfunctions := functions_declares declares
    obtain ⟨hindex, hset⟩ := functions_of_registers registers hevolves.inStep
      (hfunctions ▸ hf) hnew hpending
    have hbody : s3.functions = s2.functions := inner.keepsFunctions hflat
    have hf3 : s3.functions[slot]?
        = some ⟨name, done ++ .prototype returnType parameters :: pending.tail⟩ := by
      rw [hbody, hset]
      exact getElem?_set_self (hfunctions ▸ hf)
    refine ⟨hindex, ?_⟩
    show (s3.complete slot name index body).functions = _
    rw [ReadState.complete, functions_onFunction hf3, hindex, modify_append_length, hbody, hset,
      set_set, hfunctions]
    rfl

variable {nodes : List Node}

/-- The overloads of a function, from what was pending and done. -/
theorem Reads.functions_of_signatures {entries : List Entry}
    (h : Reads cx (.signatures scan slot name nodes entries) s s')
    (hflat : ∀ node ∈ nodes, node.isFlatSignature = true) (hroot : s.Rooted cx.globalDepth)
    (hin : s.InStep) (hf : s.functions[slot]? = some ⟨name, done ++ pending⟩)
    (hnodup : (done.map (·.types) ++ entries.map (·.types)).Nodup)
    (hpending : Awaits pending (entries.map (·.types))) :
    s'.functions = s.functions.set slot ⟨name, done ++ entries.map (·.signature)⟩ := by
  induction nodes generalizing entries s done pending with
  | nil =>
    cases h with
    | noMore =>
      obtain rfl : pending = [] := by
        rcases hpending with hnil | ⟨hmap, -⟩
        · exact hnil
        · exact map_eq_nil_iff.mp hmap
      obtain ⟨hlt, hget⟩ := List.getElem?_eq_some_iff.mp hf
      rw [List.append_nil] at hget
      rw [map_nil, List.append_nil, ← hget, set_getElem_self]
  | cons node rest ih =>
    cases h with
    | @more _ _ s1 _ _ _ _ _ _ e es first others =>
      have hplace : s.Places slot name := by simp [ReadState.Places, hf]
      have hevolves := reads_grow first hplace hroot hin
      have hnew : ∀ sig ∈ done, sig.types ≠ e.types := fun sig hsig =>
        (nodup_append.mp hnodup).2.2 _ (mem_map_of_mem hsig) _ mem_cons_self
      obtain ⟨-, hset⟩ := first.functions_of_signature (hflat node mem_cons_self) hroot hin
        hf hnew hpending
      have hf1 : s1.functions[slot]? = some ⟨name, (done ++ [e.signature]) ++ pending.tail⟩ := by
        rw [hset, append_assoc]
        exact getElem?_set_self hf
      have hnodup1 : ((done ++ [e.signature]).map (·.types) ++ es.map (·.types)).Nodup := by
        rw [map_append, append_assoc]
        exact hnodup
      rw [ih others (fun n hn => hflat n (mem_cons_of_mem _ hn)) hevolves.rooted
        hevolves.inStep hf1 hnodup1 hpending.tail, hset, set_set, append_assoc]
      rfl

/-- **A function has one overload for each of its signatures, in their order.**  It stands behind
    the functions that were met before; `pending` are those that only a scan has met. -/
theorem Reads.functions_of_function {entries : List Entry} {done pending : List Function}
    (h : Reads cx (.function scan (.symbol name :: nodes) slot entries) s s')
    (hflat : ∀ node ∈ nodes, node.isFlatSignature = true) (hroot : s.Rooted cx.globalDepth)
    (hin : s.InStep) (hmet : s.Met) (hf : s.functions = done ++ pending)
    (hnew : name ∉ done.map (·.name)) (hnodup : (entries.map (·.types)).Nodup)
    (hpending : pending = [] ∨ ∃ sigs rest, pending = ⟨name, sigs⟩ :: rest
      ∧ Awaits sigs (entries.map (·.types))) :
    slot = done.length
      ∧ s'.functions = done ++ ⟨name, entries.map (·.signature)⟩ :: pending.tail := by
  cases h with
  | @overloads _ _ s1 _ _ _ first rest _ _ place inner =>
    have hs1 : (s.slot cx name).2 = s1 := by rw [place]
    have hroot1 : s1.Rooted cx.globalDepth := hs1 ▸ (hroot.slot cx name rfl).1
    have hin1 : s1.InStep := hs1 ▸ hin.slot cx name hroot.ne_nil
    have hnone : done.findIdx? (fun f : Function => f.name == name) = none := by
      refine findIdx?_eq_none_iff.mpr fun f hmem => ?_
      have hne : f.name ≠ name := fun heq => hnew (heq ▸ mem_map_of_mem hmem)
      simp [hne]
    have hnil : ([] : List Signature).map (·.types) ++ entries.map (·.types)
        = entries.map (·.types) := rfl
    obtain rfl | ⟨sigs, others, rfl, hawaits⟩ := hpending
    · -- the function is new
      rw [List.append_nil] at hf
      have hunbound : s.symbols.findFunction? name = none := by
        cases hfind : s.symbols.findFunction? name with
        | none => rfl
        | some p =>
          have hmem := hmet name (by simp [hfind])
          rw [ReadState.functionNames, hf] at hmem
          exact absurd hmem hnew
      have hplace : (s.slot cx name).1 = done.length
          ∧ (s.slot cx name).2.functions = done ++ [⟨name, []⟩] := by
        simp [ReadState.slot, hf, hnone, hunbound]
      obtain ⟨rfl, hfs⟩ : slot = done.length ∧ s1.functions = done ++ [⟨name, []⟩] := by
        rw [place] at hplace
        exact hplace
      have hf1 : s1.functions[done.length]? = some ⟨name, [] ++ []⟩ := by
        simp [hfs]
      refine ⟨rfl, ?_⟩
      rw [inner.functions_of_signatures hflat hroot1 hin1 hf1 (hnil ▸ hnodup) (.inl rfl), hfs,
        set_append]
      simp
    · -- the function is known from a scan
      have hplace : (s.slot cx name) = (done.length, s) := by
        simp [ReadState.slot, hf, findIdx?_append, hnone, findIdx?_cons]
      obtain ⟨rfl, rfl⟩ := Prod.mk.inj (place.symm.trans hplace)
      have hf1 : s1.functions[done.length]? = some ⟨name, [] ++ sigs⟩ := by
        simp [hf]
      refine ⟨rfl, ?_⟩
      rw [inner.functions_of_signatures hflat hroot1 hin1 hf1 (hnil ▸ hnodup) hawaits, hf,
        set_append]
      simp

/-! ## §4. Heads of signatures -/

/-- What a signature says before its body. -/
def Entry.head (e : Entry) : Ty × List Variable := (e.returnType, e.parameters.map (·.value))

/-- What an overload says before its body. -/
def Signature.head (sig : Signature) : Ty × List Variable :=
  (sig.returnType, sig.parameters.map (·.value))

variable {es fs : List Entry}

theorem Entry.types_of_head (h : es.map (·.head) = fs.map (·.head)) :
    es.map (·.types) = fs.map (·.types) := by
  have htypes : ∀ e : Entry, e.types = e.head.2.map (·.ty) := by
    intro e
    simp [Entry.types, Entry.head, Var.ty, Function.comp_def]
  have hcomp : ∀ gs : List Entry, gs.map (·.types) = (gs.map (·.head)).map (·.2.map (·.ty)) := by
    intro gs
    simp [htypes, Function.comp_def]
  rw [hcomp, hcomp, h]

variable {cx' : Context} {t t' : ReadState}

theorem declares_values_eq {vs ws : List Var} (h1 : Declares cx nodes vs s s')
    (h2 : Declares cx' nodes ws t t') (h : t.symbols.typeScopes = s.symbols.typeScopes) :
    vs.map (·.value) = ws.map (·.value) := by
  induction h1 generalizing ws t with
  | nil s =>
    cases h2
    rfl
  | @cons node rest v vs s s' first others ih =>
    cases h2 with
    | @cons _ _ w ws _ _ first' others' =>
      have hv : readVariable (t.env cx') node = .ok v := readVariable_congr h first
      obtain rfl : v = w := Except.ok.inj (hv.symm.trans first')
      have hscopes : (t.declare v).symbols.typeScopes = (s.declare v).symbols.typeScopes := by
        rw [typeScopes_declare first', typeScopes_declare first, h]
      rw [map_cons, map_cons, ih others' hscopes]
      rfl

variable {scan' : Bool} {slot' : Nat}

/-- A signature has the same head wherever it is read. -/
theorem Reads.head_eq {e f : Entry} (h1 : Reads cx (.signature scan slot name node e) s s')
    (h2 : Reads cx' (.signature scan' slot' name node f) t t')
    (h : t.symbols.typeScopes = s.symbols.typeScopes) : e.head = f.head := by
  -- both begin alike, whatever becomes of the body
  have hhead : ∀ {cx : Context} {scan : Bool} {slot : Nat} {e : Entry} {s s' : ReadState},
      Reads cx (.signature scan slot name node e) s s' →
      ∃ ty declarations nodes s1,
        node = .list [.symbol "signature", ty, .list (.symbol "parameters" :: declarations),
          .list nodes]
        ∧ readType (s.env cx) ty = .ok e.returnType
        ∧ Declares cx declarations e.parameters s.opened s1 := by
    intro cx scan slot e s s' h
    cases h with
    | prototype type declares => exact ⟨_, _, _, _, rfl, type, declares⟩
    | definition type declares => exact ⟨_, _, _, _, rfl, type, declares⟩
  obtain ⟨ty, declarations, nodes, s1, rfl, htype, hdecl⟩ := hhead h1
  obtain ⟨_, _, _, t1, heq, htype', hdecl'⟩ := hhead h2
  cases heq
  have hreturn : readType (t.env cx') ty = .ok e.returnType :=
    readType_congr (findType?_congr h) htype
  have hopened : t.opened.symbols.typeScopes = s.opened.symbols.typeScopes := by
    simp [ReadState.opened, h]
  exact Prod.ext (Except.ok.inj (hreturn.symm.trans htype'))
    (declares_values_eq hdecl hdecl' hopened)

/-- **The heads of signatures are the same wherever the same types are bound.** -/
theorem Reads.heads_eq (h1 : Reads cx (.signatures scan slot name nodes es) s s')
    (hs : s.Places slot name) (h2 : Reads cx' (.signatures scan' slot' name nodes fs) t t')
    (ht : t.Places slot' name) (h : t.symbols.typeScopes = s.symbols.typeScopes) :
    es.map (·.head) = fs.map (·.head) := by
  induction nodes generalizing es fs s t with
  | nil =>
    cases h1
    cases h2
    rfl
  | cons node rest ih =>
    cases h1 with
    | more first1 others1 =>
      cases h2 with
      | more first2 others2 =>
        have hscopes := (first2.typeScopes ht).trans (h.trans (first1.typeScopes hs).symm)
        rw [map_cons, map_cons, first1.head_eq first2 h,
          ih others1 (hs.of_prefix first1.functionNames_prefix) others2
            (ht.of_prefix first2.functionNames_prefix) hscopes]

theorem Reads.function_heads_eq {parts : List Node}
    (h1 : Reads cx (.function scan parts slot es) s s')
    (h2 : Reads cx' (.function scan' parts slot' fs) t t')
    (h : t.symbols.typeScopes = s.symbols.typeScopes) : es.map (·.head) = fs.map (·.head) := by
  cases h1 with
  | @overloads _ _ s1 _ _ name _ _ _ _ place1 inner1 =>
    cases h2 with
    | @overloads _ _ t1 _ _ _ _ _ _ _ place2 inner2 =>
      obtain ⟨rfl, hs1⟩ : (s.slot cx name).1 = slot ∧ (s.slot cx name).2 = s1 := by simp [place1]
      obtain ⟨rfl, ht1⟩ : (t.slot cx' name).1 = slot' ∧ (t.slot cx' name).2 = t1 := by
        simp [place2]
      subst hs1 ht1
      have hs := typeScopes_slot s cx name (scopes_ne_nil_of_overloads inner1)
      have ht := typeScopes_slot t cx' name (scopes_ne_nil_of_overloads inner2)
      exact inner1.heads_eq (places_slot s cx name) inner2 (places_slot t cx' name)
        (ht.trans (h.trans hs.symm))

/-! ## §5. Scans of what is written -/

/-- The layout of a signature gives back its parts. -/
theorem Signature.exists_of_layout_node? {sig : Signature} (h : sig.layout.node? = some node) :
    ∃ ty declarations nodes,
      node = .list [.symbol "signature", ty, .list (.symbol "parameters" :: declarations),
        .list nodes]
      ∧ sig.head.1.layout.node? = some ty
      ∧ nodes? (sig.head.2.map (·.layout)) = some declarations := by
  obtain ⟨returnType, parameters, body, isDefined⟩ := sig
  obtain ⟨head, below, hhead, hbelow, rfl⟩ := node?_rows.mp h
  obtain ⟨tag, _, htag, hrest, rfl⟩ := nodes?_cons.mp hhead
  obtain ⟨ty, _, hty, hnil, rfl⟩ := nodes?_cons.mp hrest
  obtain ⟨ps, _, hps, hrest, rfl⟩ := nodes?_cons.mp hbelow
  obtain ⟨block, _, hblock, hnil', rfl⟩ := nodes?_cons.mp hrest
  obtain ⟨front, declarations, hfront, hdeclarations, rfl⟩ := node?_rows.mp hps
  cases hnil
  cases hnil'
  cases hfront.symm.trans (nodes?_cons_some node?_keyword nodes?_nil)
  cases htag.symm.trans node?_keyword
  obtain ⟨nodes, rfl⟩ : ∃ nodes, block = .list nodes := by
    cases hbody : Instruction.layouts body with
    | nil =>
      rw [hbody] at hblock
      cases hblock
      exact ⟨[], rfl⟩
    | cons row rows =>
      rw [hbody] at hblock
      obtain ⟨_, nodes, -, -, rfl⟩ := node?_rows.mp hblock
      exact ⟨_, rfl⟩
  refine ⟨ty, declarations, nodes, rfl, hty, ?_⟩
  simpa [Signature.head, Function.comp_def] using hdeclarations

/-- **A scan reads the text of an overload like a signature with the same head.** -/
theorem Reads.rescan {nodes' : List Node} (h : Reads cx (.signatures true slot name nodes es) s s')
    (hr : IsSymbol name ∧ ∀ node ∈ nodes, node.Readable) (hs : s.symbols.SelfNamed)
    (hheads : sigs.map (·.head) = es.map (·.head))
    (hnodes' : nodes? (Signature.layouts sigs) = some nodes') :
    Reads cx (.signatures true slot name nodes' es) s s' := by
  induction nodes generalizing es sigs s nodes' with
  | nil =>
    cases h with
    | noMore =>
      obtain rfl := map_eq_nil_iff.mp hheads
      cases hnodes'
      exact .noMore
  | cons node rest ih =>
    cases h with
    | @more _ _ s1 _ _ _ _ _ _ e es first others =>
      cases sigs with
      | nil => cases hheads
      | cons sig sigs =>
        obtain ⟨hhead, hheads⟩ := cons.inj hheads
        obtain ⟨node', rest', hnode', hrest', rfl⟩ := nodes?_cons.mp hnodes'
        have hr1 : (Reading.signature true slot name node e).Readable :=
          ⟨hr.1, hr.2 node mem_cons_self⟩
        refine .more ?_ (ih others ⟨hr.1, fun n hn => hr.2 n (mem_cons_of_mem _ hn)⟩
          (first.selfNamed hr1 hs) hheads hrest')
        cases first with
        | @prototype _ _ _ _ _ _ _ ty declarations body returnType parameters index type
            declares registers silent =>
          have henv : (s.env cx).symbols.SelfNamed := hs
          obtain ⟨declarations', hlayouts, hdeclares⟩ :=
            declares_reread declares (readable_signature hr1.2).1 hs.push
          obtain ⟨ty', ds, body', rfl, hty', hds⟩ := sig.exists_of_layout_node? hnode'
          rw [show sig.head = _ from hhead] at hty' hds
          cases hty'.symm.trans (layout_of_readType henv type)
          have hds' : nodes? (parameters.map (·.value.layout)) = some ds := by
            simpa [Entry.head, Function.comp_def] using hds
          cases hds'.symm.trans hlayouts
          exact .prototype type hdeclares registers (.inl rfl)

theorem Reads.rescan_function {nodes' : List Node}
    (h : Reads cx (.function true (.symbol name :: nodes) slot es) s s')
    (hr : IsSymbol name ∧ ∀ node ∈ nodes, node.Readable) (hs : s.symbols.SelfNamed)
    (hheads : sigs.map (·.head) = es.map (·.head))
    (hnodes' : nodes? (Signature.layouts sigs) = some nodes') :
    Reads cx (.function true (.symbol name :: nodes') slot es) s s' := by
  cases h with
  | @overloads _ _ s1 _ _ _ _ _ _ _ place inner =>
    obtain ⟨rfl, rfl⟩ := Prod.mk.inj place
    have hselfNamed : (s.slot cx name).2.symbols.SelfNamed :=
      ReadState.selfNamed_slot hs hr.1 (scopes_ne_nil_of_overloads inner)
    have hinner := inner.rescan hr hselfNamed hheads hnodes'
    cases hinner with
    | noMore => cases inner
    | more head tail => exact .overloads place (.more head tail)

end Shading
