/-
  Shading.Proofs.RoundTrip.Names — names that stand for what is called so.

  Printing writes the name that a type, variable or function has; reading looks up what a name
  stands for.  The two fit together in a symbol table in which every name stands for something of
  that name (`SymbolTable.SelfNamed`).  The table of built-in types is one, and reading a text keeps
  a table one: new names are symbols of the text, whatever is asked of the old ones (`Reads.names`).
-/
import Shading.Proofs.Read.Frame
import Shading.Proofs.Sexp.Words

namespace Shading

open List

variable {t : SymbolTable} {v : Var} {nodes : List Node}

/-! ## §1. Tables -/

/-- Every name is one word and stands for a type, variable or function of that name. -/
structure SymbolTable.SelfNamed (t : SymbolTable) : Prop where
  types : ∀ b ∈ t.typeScopes, ∀ e ∈ b, e.2.layout = .word e.1 ∧ IsSymbol e.1
  vars : ∀ b ∈ t.varScopes, ∀ e ∈ b, e.2.name = e.1 ∧ IsSymbol e.1
  functions : ∀ b ∈ t.functionScopes, ∀ e ∈ b, e.2.name = e.1 ∧ IsSymbol e.1

/-- Every name stands for a type as `T` says, or for a variable or function with a name as `N` says.
    -/
structure SymbolTable.Names (T : String → Ty → Prop) (N : String → String → Prop)
    (t : SymbolTable) : Prop where
  types : ∀ b ∈ t.typeScopes, ∀ e ∈ b, T e.1 e.2
  vars : ∀ b ∈ t.varScopes, ∀ e ∈ b, N e.1 e.2.name
  functions : ∀ b ∈ t.functionScopes, ∀ e ∈ b, N e.1 e.2.name

variable {name : String} {ty : Ty} {T : String → Ty → Prop} {N : String → String → Prop}

theorem SymbolTable.names_any (t : SymbolTable) : t.Names (fun _ _ => True) fun _ _ => True :=
  ⟨fun _ _ _ _ => trivial, fun _ _ _ _ => trivial, fun _ _ _ _ => trivial⟩

theorem SymbolTable.selfNamed_iff :
    t.SelfNamed ↔ t.Names (fun name ty => ty.layout = .word name ∧ IsSymbol name)
      fun name own => own = name ∧ IsSymbol name :=
  ⟨fun h => ⟨h.types, h.vars, h.functions⟩, fun h => ⟨h.types, h.vars, h.functions⟩⟩

namespace SymbolTable.Names

variable {t : SymbolTable}

theorem findType? (h : t.Names T N) (hty : t.findType? name = some ty) : T name ty := by
  rw [findType?_eq] at hty
  obtain ⟨b, hb, he⟩ := exists_of_findSome?_eq_some hty
  exact h.types b hb _ (Bindings.mem_of_find? he)

theorem findVariable? (h : t.Names T N) (hv : t.findVariable? name = some v) :
    N name v.name := by
  rw [findVariable?_eq] at hv
  obtain ⟨b, hb, he⟩ := exists_of_findSome?_eq_some hv
  exact h.vars b hb _ (Bindings.mem_of_find? he)

theorem findFunction? (h : t.Names T N) {p : Prototype} (hp : t.findFunction? name = some p) :
    N name p.name := by
  rw [findFunction?_eq] at hp
  obtain ⟨b, hb, he⟩ := exists_of_findSome?_eq_some hp
  exact h.functions b hb _ (Bindings.mem_of_find? he)

theorem push (h : t.Names T N) : t.push.Names T N := by
  refine ⟨?_, ?_, ?_⟩
  · simpa using h.types
  · simpa using h.vars
  · simpa using h.functions

theorem pop (h : t.Names T N) : t.pop.Names T N := by
  refine ⟨?_, ?_, ?_⟩
  · intro b hb
    exact h.types b (mem_of_mem_tail (by simpa using hb))
  · intro b hb
    exact h.vars b (mem_of_mem_tail (by simpa using hb))
  · intro b hb
    exact h.functions b (mem_of_mem_tail (by simpa using hb))

/-- A new variable goes by its own name. -/
theorem addVariable (h : t.Names T N) (hv : N v.name v.name) (hopen : t.scopes ≠ []) :
    (t.addVariable v).2.Names T N := by
  refine ⟨?_, ?_, ?_⟩
  · rw [typeScopes_addVariable _ _ hopen]
    exact h.types
  · rw [varScopes_addVariable _ _ hopen]
    have hvars := h.vars
    cases hscopes : t.varScopes with
    | nil => simp
    | cons b bs =>
      rw [hscopes] at hvars
      intro b' hb' e he
      rcases mem_cons.mp hb' with rfl | hb'
      · rcases mem_cons.mp he with rfl | he
        · exact hv
        · exact hvars b mem_cons_self e he
      · exact hvars b' (mem_cons_of_mem _ hb') e he
  · rw [functionScopes_addVariable _ _ hopen]
    exact h.functions

theorem addFunctionAt (h : t.Names T N) {depth : Nat} {p : Prototype} (hp : N p.name p.name)
    (hopen : t.scopes ≠ []) : (t.addFunctionAt depth p).2.Names T N := by
  refine ⟨?_, ?_, ?_⟩
  · rw [typeScopes_addFunctionAt, t.opened_of_ne_nil hopen]
    exact h.types
  · rw [varScopes_addFunctionAt, t.opened_of_ne_nil hopen]
    exact h.vars
  · rw [functionScopes_addFunctionAt, t.opened_of_ne_nil hopen]
    intro b hb e he
    obtain ⟨i, hi⟩ := mem_iff_getElem?.mp hb
    rw [getElem?_modify, Option.map_eq_map, Option.map_eq_some_iff] at hi
    obtain ⟨b', hb', rfl⟩ := hi
    have hold := h.functions b' (mem_of_getElem? hb')
    split at he
    · unfold Bindings.bindNew at he
      split at he
      · exact hold e he
      · rcases mem_cons.mp he with rfl | he
        · exact hp
        · exact hold e he
    · exact hold e he

theorem modifyFunction (h : t.Names T N) {f : Prototype → Prototype} (hf : ∀ p, (f p).name = p.name) :
    (t.modifyFunction name f).Names T N := by
  refine ⟨by simpa using h.types, by simpa using h.vars, ?_⟩
  intro b hb e he
  obtain ⟨i, hi⟩ := mem_iff_getElem?.mp hb
  rcases t.functionScopes_modifyFunction name f i with heq | heq
  · rw [heq] at hi
    exact h.functions b (mem_of_getElem? hi) e he
  · rw [heq, Option.map_eq_some_iff] at hi
    obtain ⟨b', hb', rfl⟩ := hi
    obtain ⟨⟨n, p⟩, hmem, rfl⟩ := mem_map.mp he
    have hold := h.functions b' (mem_of_getElem? hb') (n, p) hmem
    dsimp only
    split
    · exact (hf p).symm ▸ hold
    · exact hold

/-- A new type goes by its own name. -/
theorem addType (h : t.Names T N) (hty : T name ty) :
    (t.addType name ty).2.Names T N := by
  have hbind : ∀ b : Bindings Ty, (∀ e ∈ b, T e.1 e.2) →
      ∀ e ∈ (b.bindNew name ty).2, T e.1 e.2 := by
    intro b hb e he
    unfold Bindings.bindNew at he
    split at he
    · exact hb e he
    · rcases mem_cons.mp he with rfl | he
      · exact hty
      · exact hb e he
  unfold SymbolTable.addType onInnermost
  split
  · refine ⟨?_, by simp [varScopes], by simp [functionScopes]⟩
    intro b hb
    obtain rfl := mem_singleton.mp hb
    exact hbind [] (by simp)
  next scope outer hscopes =>
    obtain ⟨htypes, hvars, hfunctions⟩ := h
    simp only [typeScopes, varScopes, functionScopes, hscopes, map_cons] at *
    refine ⟨?_, hvars, hfunctions⟩
    intro b hb
    rcases mem_cons.mp hb with rfl | hb
    · exact hbind _ (htypes _ mem_cons_self)
    · exact htypes b (mem_cons_of_mem _ hb)

end SymbolTable.Names

theorem SymbolTable.SelfNamed.push (h : t.SelfNamed) : t.push.SelfNamed :=
  selfNamed_iff.mpr (selfNamed_iff.mp h).push

theorem SymbolTable.SelfNamed.addVariable (h : t.SelfNamed)
    (hv : IsSymbol v.name) (hopen : t.scopes ≠ []) : (t.addVariable v).2.SelfNamed :=
  selfNamed_iff.mpr ((selfNamed_iff.mp h).addVariable ⟨rfl, hv⟩ hopen)

/-! ## §2. The built-in types -/

theorem Ty.layout_eq_word (h : ty.name? = some name) : ty.layout = .word name := by
  cases ty with
  | array | function => cases h
  | struct serial name' fields =>
    cases name' with
    | none => cases h
    | some n =>
      cases h
      rfl
  | _ =>
    cases h
    rfl

theorem Ty.isSymbol_of_builtin : ∀ ty ∈ Ty.builtins, ∀ name ∈ ty.name?, IsSymbol name := by decide

theorem SymbolTable.names_withBuiltins (h : ∀ ty ∈ Ty.builtins, ∀ name ∈ ty.name?, T name ty) :
    SymbolTable.withBuiltins.Names T N := by
  have hempty : SymbolTable.empty.Names T N := by
    refine ⟨?_, ?_, ?_⟩
    · simp [SymbolTable.empty, SymbolTable.typeScopes]
    · simp [SymbolTable.empty, SymbolTable.varScopes]
    · simp [SymbolTable.empty, SymbolTable.functionScopes]
  -- the built-in types are bound one after the other
  refine List.foldlRecOn (motive := SymbolTable.Names T N) Ty.builtins _ hempty ?_
  intro t ht ty hty
  split
  next name hname => exact ht.addType (h ty hty name hname)
  next => exact ht

theorem SymbolTable.selfNamed_withBuiltins : SymbolTable.withBuiltins.SelfNamed := by
  refine selfNamed_iff.mpr (names_withBuiltins ?_)
  intro ty hty name hname
  exact ⟨Ty.layout_eq_word hname, Ty.isSymbol_of_builtin ty hty name hname⟩

/-! ## §3. Types read from their own text -/

variable {node : Node}

theorem arrayLength?_eq_some {n : UInt32} (h : arrayLength? node = some n) :
    ∃ m : Int64, node = .int m ∧ m.toInt = (n.toNat : Int) := by
  unfold arrayLength? at h
  split at h
  next m =>
    split at h
    next hbounds =>
      cases h
      refine ⟨m, rfl, ?_⟩
      have hsize : UInt32.size = 4294967296 := rfl
      rw [UInt32.toNat_ofNat_of_lt' (by omega)]
      omega
    next => cases h
  next => cases h

theorem Layout.node?_natWord {n : Nat} {m : Int64} (h : m.toInt = (n : Int)) :
    (Layout.word (toString n)).node? = some (.int m) := by
  have hword : toString n = toString (n : Int) := rfl
  have hmin : Int64.minValue.toInt ≤ m.toInt := Int64.minValue_le_toInt m
  have hmax : m.toInt ≤ Int64.maxValue.toInt := Int64.toInt_le m
  rw [hword]
  refine Layout.node?_int ?_
  unfold int64?
  rw [← h, if_pos ⟨hmin, hmax⟩, Int64.ofInt_toInt]

/-- The layout of a type spells the node it was read from. -/
theorem layout_of_readType {env : Env} (henv : env.symbols.SelfNamed)
    (h : readType env node = .ok ty) : ty.layout.node? = some node := by
  induction node using readType.induct generalizing ty with
  | case1 name =>
    rw [readType, Env.require_eq_ok] at h
    obtain ⟨hlayout, hname⟩ := (SymbolTable.selfNamed_iff.mp henv).findType? h
    rw [hlayout, Layout.node?_symbol hname]
  | case2 element length ih =>
    simp only [readType, except_bind_eq_ok, Env.require_eq_ok] at h
    obtain ⟨t, ht, n, hn, h⟩ := h
    cases h
    obtain ⟨m, rfl, hm⟩ := arrayLength?_eq_some hn
    have hword := Layout.node?_symbol (show IsSymbol "array" by decide)
    exact Layout.node?_line_some (Layout.nodes?_cons_some hword
      (Layout.nodes?_cons_some (ih ht) (Layout.nodes?_cons_some (Layout.node?_natWord hm) rfl)))
  | case3 node h1 h2 =>
    rw [readType] at h
    · exact absurd h Env.fail_ne_ok
    all_goals assumption

/-! ## §4. Reading keeps names -/

/-- What a reading looks at can be written. -/
def Reading.Readable : Reading → Prop
  | .instruction node _ => node.Readable
  | .instructions nodes _ => ∀ node ∈ nodes, node.Readable
  | .function _ parts _ _ => ∀ node ∈ parts, node.Readable
  | .signatures _ _ name nodes _ => IsSymbol name ∧ ∀ node ∈ nodes, node.Readable
  | .signature _ _ name node _ => IsSymbol name ∧ node.Readable

theorem isSymbol_of_readVariable {env : Env} {v : Variable} (hnode : node.Readable)
    (h : readVariable env node = .ok v) : IsSymbol v.name := by
  obtain ⟨qualifiers, ty, name, t, rfl, -, hv⟩ := readVariable_eq_ok.mp h
  rw [(Variable.qualifyAll?_keeps hv).1]
  rw [Node.readable_list] at hnode
  exact hnode (.symbol name) (by simp)

variable {cx : Context}

namespace ReadState

variable {s s' : ReadState} (hN : ∀ name, IsSymbol name → N name name)

include hN in
/-- Declarations keep the names of everything else. -/
theorem names_declares {vs : List Var} (h : Declares cx nodes vs s s')
    (hnodes : ∀ node ∈ nodes, node.Readable) (hs : s.symbols.Names T N) : s'.symbols.Names T N := by
  induction h with
  | nil s => exact hs
  | cons first others ih =>
    refine ih (forall_mem_cons.mp hnodes).2 ?_
    have hname := isSymbol_of_readVariable (hnodes _ mem_cons_self) first
    obtain ⟨-, ty, -, t, -, ht, -⟩ := readVariable_eq_ok.mp first
    exact hs.addVariable (hN _ hname) (scopes_ne_nil_of_readType ht)

include hN in
theorem names_slot (hs : s.symbols.Names T N) (hname : IsSymbol name)
    (hopen : s.symbols.scopes ≠ []) : (s.slot cx name).2.symbols.Names T N := by
  unfold ReadState.slot
  split
  · exact hs
  · split
    · exact hs
    · exact hs.addFunctionAt (hN _ hname) hopen

theorem selfNamed_slot (hs : s.symbols.SelfNamed) (hname : IsSymbol name)
    (hopen : s.symbols.scopes ≠ []) : (s.slot cx name).2.symbols.SelfNamed :=
  SymbolTable.selfNamed_iff.mpr
    (names_slot (fun _ h => ⟨rfl, h⟩) (SymbolTable.selfNamed_iff.mp hs) hname hopen)

theorem names_registers {slot : Nat} {returnType : Ty} {parameters : List Var} {index : Nat}
    (h : Registers slot name returnType parameters index s s') (hs : s.symbols.Names T N) :
    s'.symbols.Names T N := by
  cases h with
  | repeated => exact hs.modifyFunction fun _ => rfl
  | added =>
    have hadd : (s.addOverload slot name returnType).symbols.Names T N :=
      hs.modifyFunction fun _ => rfl
    exact hadd.modifyFunction fun _ => rfl

end ReadState

theorem readable_documentNodes (h : ∀ node ∈ nodes, node.Readable) :
    ∀ node ∈ Read.documentNodes nodes, node.Readable := by
  unfold Read.documentNodes
  split
  · simp
  · exact h
  next node rest _ =>
    exact Node.readable_list.mp (h _ mem_cons_self)
  · exact h

theorem readable_signature {ty : Node} {declarations : List Node}
    (h : (Node.list [.symbol "signature", ty, .list (.symbol "parameters" :: declarations),
      .list nodes]).Readable) :
    (∀ node ∈ declarations, node.Readable) ∧ ∀ node ∈ nodes, node.Readable := by
  rw [Node.readable_list] at h
  have hparameters := h (.list (.symbol "parameters" :: declarations)) (by simp)
  have hnodes := h (.list nodes) (by simp)
  rw [Node.readable_list] at hparameters hnodes
  exact ⟨(forall_mem_cons.mp hparameters).2, hnodes⟩

/-- **New names are symbols, and the old ones stand for what they did.** -/
theorem Reads.names {reading : Reading} {s s' : ReadState} (hN : ∀ name, IsSymbol name → N name name)
    (h : Reads cx reading s s') (hr : reading.Readable) (hs : s.symbols.Names T N) : s'.symbols.Names T N := by
  induction h with
  | jump | assign | ret | rvalue | nil | noMore => exact hs
  | declare declaration =>
    obtain ⟨-, ty, -, t, -, ht, -⟩ := readVariable_eq_ok.mp declaration
    exact hs.addVariable (hN _ (isSymbol_of_readVariable hr declaration)) (scopes_ne_nil_of_readType ht)
  | function inner ih =>
    refine ih ?_ hs
    intro node hnode
    exact Node.readable_list.mp hr node (mem_cons_of_mem _ hnode)
  | @branch _ _ _ _ _ thenNodes elseNodes _ _ _ value first second ih1 ih2 =>
    have hparts := Node.readable_list.mp hr
    have hthen := Node.readable_list.mp (hparts (.list thenNodes) (by simp))
    have helse := Node.readable_list.mp (hparts (.list elseNodes) (by simp))
    exact ih2 helse (ih1 hthen hs)
  | @loop _ _ _ _ _ _ _ _ nodes _ _ header inner ih =>
    have hparts := Node.readable_list.mp hr
    have hbody := Node.readable_list.mp (hparts (.list nodes) (by simp))
    exact ih hbody hs
  | cons first others ih1 ih2 =>
    refine ih2 (forall_mem_cons.mp hr).2 ?_
    exact ih1 (hr _ mem_cons_self) hs
  | @overloads cx s s1 _ _ name _ _ _ _ place inner ih =>
    obtain ⟨rfl, rfl⟩ := Prod.mk.inj place
    have hname : IsSymbol name := hr (.symbol name) mem_cons_self
    refine ih ⟨hname, (forall_mem_cons.mp hr).2⟩ ?_
    exact ReadState.names_slot hN hs hname (scopes_ne_nil_of_overloads inner)
  | more first others ih1 ih2 =>
    refine ih2 ⟨hr.1, fun node hnode => hr.2 node (mem_cons_of_mem _ hnode)⟩ ?_
    exact ih1 ⟨hr.1, hr.2 _ mem_cons_self⟩ hs
  | prototype type declares registers silent =>
    obtain ⟨hdeclarations, -⟩ := readable_signature hr.2
    have hdecl := ReadState.names_declares hN declares hdeclarations hs.push
    exact (ReadState.names_registers registers hdecl).pop
  | definition type declares registers nonempty undefined inner bound ih =>
    obtain ⟨hdeclarations, hbody⟩ := readable_signature hr.2
    have hdecl := ReadState.names_declares hN declares hdeclarations hs.push
    have hin := ih hbody (ReadState.names_registers registers hdecl)
    refine SymbolTable.Names.pop ?_
    exact hin.modifyFunction fun _ => rfl

theorem Reads.selfNamed {reading : Reading} {s s' : ReadState} (h : Reads cx reading s s')
    (hr : reading.Readable) (hs : s.symbols.SelfNamed) : s'.symbols.SelfNamed :=
  SymbolTable.selfNamed_iff.mpr
    (h.names (fun _ hname => ⟨rfl, hname⟩) hr (SymbolTable.selfNamed_iff.mp hs))

end Shading
