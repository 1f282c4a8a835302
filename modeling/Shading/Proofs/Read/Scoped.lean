/-
  Shading.Proofs.Read.Scoped — what is read uses variables in scope.

  The reader finds a variable by its name, in the scopes that are open when the name is read.  What
  it returns has no names to find any more, only variables, but it is still scoped.
-/
import Shading.Proofs.Read.Frame
import Shading.Proofs.Read.Made
import Shading.Proofs.Walk

namespace Shading

open List Instruction

/-! ## §1. Values use what is bound -/

/-- The variables that some open scope binds, also those that others hide. -/
def SymbolTable.visible (t : SymbolTable) : List Var := t.varScopes.flatMap (·.map (·.2))

variable {name : String}

theorem SymbolTable.mem_visible_of_findVariable? {t : SymbolTable} {v : Var}
    (h : t.findVariable? name = some v) : v ∈ t.visible := by
  rw [findVariable?_eq] at h
  obtain ⟨b, hb, hfound⟩ := exists_of_findSome?_eq_some h
  exact mem_flatMap.mpr ⟨b, hb, mem_map.mpr ⟨_, Bindings.mem_of_find? hfound, rfl⟩⟩

variable {depth : Nat}

variable {env : Env}

/-- **A value uses variables that are bound where it was made, and declares none.** -/
theorem Rvalue.Made.quiet {r : Rvalue} (h : r.Made env) (depth : Nat) :
    Quiet env.symbols.visible (r.walk depth) := by
  refine Rvalue.of_mem_walk (S := Rvalue.Made env) (fun _ h => h.parts) (fun r h depth => ?_) h depth
  match r with
  | .constant c => exact Constant.of_mem_walk (fun _ _ _ => ⟨rfl, nofun⟩) depth c
  | .dereference (.var v) =>
    refine forall_mem_cons.mpr ⟨⟨rfl, nofun⟩, forall_mem_singleton.mpr ⟨rfl, ?_⟩⟩
    rintro w ⟨⟩
    cases h with
    | var bound made =>
      obtain ⟨⟨⟩, -⟩ := mkVariable_eq_ok made
      exact SymbolTable.mem_visible_of_findVariable? bound
    | index part place made => obtain ⟨-, -, -, ⟨⟩⟩ := mkIndex_eq_ok made
    | expression type parts made => obtain ⟨-, ⟨⟩⟩ := mkExpression_eq_ok.mp made
    | swizzle part made => obtain ⟨-, -, -, ⟨⟩⟩ := mkSwizzle_eq_ok made
  | .expression _ _ _ | .call _ _ _ _ | .swizzle _ _ _ | .dereference (.index _ _ _)
  | .dereference (.field _ _ _) | .texture _ => exact forall_mem_singleton.mpr ⟨rfl, nofun⟩

theorem quiet_walkOption {o : Option Rvalue} (h : ∀ r ∈ o, r.Made env) :
    Quiet env.symbols.visible (Rvalue.walkOption depth o) :=
  Rvalue.of_mem_walkOption fun r hr => (h r hr).quiet depth

theorem Assignment.quiet_walk {node : Node} {a : Assignment} (h : readAssignment env node = .ok a)
    (depth : Nat) : Quiet env.symbols.visible (a.walk depth) := by
  obtain ⟨hcondition, hlhs, hrhs, -⟩ := readAssignment_made h
  unfold Assignment.walk
  simp only [quiet_append]
  exact ⟨⟨quiet_walkOption hcondition, hlhs.quiet depth⟩, hrhs.quiet depth⟩

/-- The controls use variables in sight only. -/
theorem Controls.quiet_walk {whole counter start stop increment : Node} {c : Controls}
    (h : readControls env whole counter start stop increment = .ok c) (depth : Nat) :
    Quiet env.symbols.visible (c.walk depth) := by
  obtain ⟨hcounter, hstart, hstop, hincrement⟩ := readControls_made h
  have huse : Quiet env.symbols.visible
      (c.counter.map fun v => (⟨depth, .use v⟩ : Step)).toList := by
    intro step hstep
    obtain ⟨v, hv, rfl⟩ := Option.map_eq_some_iff.mp (Option.mem_toList.mp hstep)
    refine ⟨rfl, ?_⟩
    intro w hw
    cases hw
    obtain ⟨name, hname⟩ := hcounter v hv
    exact SymbolTable.mem_visible_of_findVariable? hname
  unfold Controls.walk
  simp only [quiet_append]
  exact ⟨⟨⟨huse, quiet_walkOption hstart⟩, quiet_walkOption hstop⟩, quiet_walkOption hincrement⟩

/-! ## §2. What reading binds -/

/-- The bindings with the variables, each under its name. -/
def Bindings.bindAll (vs : List Var) (b : Bindings Var) : Bindings Var :=
  vs.foldl (fun b v => b.bind v.name v) b

theorem Bindings.bindAll_append (vs ws : List Var) (b : Bindings Var) :
    b.bindAll (vs ++ ws) = (b.bindAll vs).bindAll ws :=
  foldl_append

/-- The variables are bound in the innermost scope, and nothing else is. -/
def ReadState.Binds (s s' : ReadState) (vs : List Var) : Prop :=
  s'.symbols.varScopes = s.symbols.varScopes.modifyHead (·.bindAll vs)

variable {known : List Var}

namespace ReadState.Binds

variable {s s1 s' : ReadState} {vs ws : List Var}

theorem of_eq (h : s'.symbols.varScopes = s.symbols.varScopes) : s.Binds s' [] := by
  unfold Binds
  rw [h]
  cases s.symbols.varScopes <;> rfl

theorem trans (h1 : s.Binds s1 vs) (h2 : s1.Binds s' ws) : s.Binds s' (vs ++ ws) := by
  unfold Binds at *
  rw [h2, h1, modifyHead_modifyHead]
  congr 1
  funext b
  exact (Bindings.bindAll_append vs ws b).symm

theorem declare {v : Variable} (hopen : s.symbols.scopes ≠ []) :
    s.Binds (s.declare v) [s.nextVar v] :=
  s.symbols.varScopes_addVariable _ hopen

theorem closed (h : s.opened.Binds s' vs) : s'.closed.symbols.varScopes = s.symbols.varScopes := by
  unfold Binds at h
  show s'.symbols.pop.varScopes = _
  rw [SymbolTable.varScopes_pop, h]
  rfl

/-- What is in sight was known or has been bound. -/
theorem visible_known (h : s.Binds s' vs) (hknown : ∀ v ∈ s.symbols.visible, v ∈ known) :
    ∀ v ∈ s'.symbols.visible, v ∈ known ++ vs := by
  have hbind : ∀ (vs : List Var) (b : Bindings Var), ∀ v ∈ (b.bindAll vs).map (·.2),
      v ∈ b.map (·.2) ∨ v ∈ vs := by
    intro vs
    induction vs with
    | nil => exact fun b v hv => .inl hv
    | cons w ws ih =>
      intro b v hv
      rcases ih (b.bind w.name w) v hv with hv | hv
      · rcases mem_cons.mp hv with rfl | hv
        · exact .inr mem_cons_self
        · exact .inl hv
      · exact .inr (mem_cons_of_mem _ hv)
  intro v hv
  unfold Binds at h
  unfold SymbolTable.visible at hv hknown
  rw [h] at hv
  cases hscopes : s.symbols.varScopes with
  | nil =>
    rw [hscopes] at hv
    cases hv
  | cons b outer =>
    rw [hscopes, flatMap_cons] at hknown
    rw [hscopes, modifyHead_cons, flatMap_cons] at hv
    rcases mem_append.mp hv with hv | hv
    · rcases hbind vs b v hv with hv | hv
      · exact mem_append_left _ (hknown v (mem_append_left _ hv))
      · exact mem_append_right _ hv
    · exact mem_append_left _ (hknown v (mem_append_right _ hv))

end ReadState.Binds

theorem varScopes_slot (s : ReadState) (cx : Context) (name : String)
    (hopen : s.symbols.scopes ≠ []) :
    (s.slot cx name).2.symbols.varScopes = s.symbols.varScopes := by
  unfold ReadState.slot
  split
  · rfl
  · split
    · rfl
    · show (s.symbols.addFunctionAt _ _).2.varScopes = _
      rw [SymbolTable.varScopes_addFunctionAt, s.symbols.opened_of_ne_nil hopen]

variable {s s' : ReadState}

theorem varScopes_registers {slot : Nat} {returnType : Ty} {parameters : List Var} {index : Nat}
    (h : Registers slot name returnType parameters index s s') :
    s'.symbols.varScopes = s.symbols.varScopes := by
  cases h with
  | repeated => simp [ReadState.setParameters, ReadState.onFunction]
  | added => simp [ReadState.setParameters, ReadState.addOverload, ReadState.onFunction]

variable {cx : Context}

/-- Declarations are bound in order. -/
theorem Declares.binds {nodes : List Node} {vs : List Var} (h : Declares cx nodes vs s s') :
    s.Binds s' vs := by
  induction h with
  | nil s => exact .of_eq rfl
  | cons first others ih =>
    obtain ⟨-, ty, -, t, -, ht, -⟩ := readVariable_eq_ok.mp first
    exact (ReadState.Binds.declare (scopes_ne_nil_of_readType ht)).trans ih

/-- The variables that a reading leaves bound: those that its instructions declare. -/
def Reading.declared (depth : Nat) : Reading → List Var
  | .instruction _ i => declaredIn (walkAll depth i.toList)
  | .instructions _ is => declaredIn (walkAll depth is)
  | _ => []

section

variable {known : List Var} (depth : Nat)

theorem declaredIn_assign {a : Assignment} (h : Quiet known (a.walk (depth + 1))) :
    declaredIn (walkAll depth [.assign a]) = [] := by
  rw [walkAll_singleton, walk, declaredIn_cons, h.declaredIn_eq]
  rfl

theorem declaredIn_ret {value : Option Rvalue}
    (h : Quiet known (Rvalue.walkOption (depth + 1) value)) :
    declaredIn (walkAll depth [.ret value]) = [] := by
  rw [walkAll_singleton, walk, declaredIn_cons, h.declaredIn_eq]
  rfl

theorem declaredIn_rvalue {r : Rvalue} (h : Quiet known (r.walk depth)) :
    declaredIn (walkAll depth [.rvalue r]) = [] := by
  rw [walkAll_singleton, walk, h.declaredIn_eq]

theorem declaredIn_branch {condition : Rvalue} {thenBody elseBody : List Instruction}
    (h : Quiet known (condition.walk (depth + 1))) :
    declaredIn (walkAll depth [.branch condition thenBody elseBody])
      = declaredIn (walkAll (depth + 2) thenBody)
        ++ declaredIn (walkAll (depth + 2) elseBody) := by
  rw [walkAll_singleton, walk]
  simp only [declaredIn_cons, declaredIn_append, h.declaredIn_eq, Visit.declared?, Option.toList,
    nil_append]

theorem declaredIn_loop {id : LoopId} {controls : Controls} {body : List Instruction}
    (h : Quiet known (controls.walk (depth + 1))) :
    declaredIn (walkAll depth [.loop id controls body])
      = declaredIn (walkAll (depth + 2) body) := by
  rw [walkAll_singleton, walk]
  simp only [declaredIn_cons, declaredIn_append, h.declaredIn_eq, Visit.declared?, Option.toList,
    nil_append]

end

theorem readReturn_quiet {parts : List Node} {value : Option Rvalue}
    (h : readReturn env (.list (.symbol "return" :: parts)) = .ok value) (depth : Nat) :
    Quiet env.symbols.visible (Rvalue.walkOption depth value) :=
  quiet_walkOption (readReturn_made h)

theorem binds_header {declarations : List Node} {parameters : List Var} {slot : Nat}
    {returnType : Ty} {index : Nat} {s1 s2 : ReadState}
    (hdecl : Declares cx declarations parameters s.opened s1)
    (hreg : Registers slot name returnType parameters index s1 s2) :
    s.opened.Binds s2 parameters := by
  have hbinds := hdecl.binds.trans (.of_eq (varScopes_registers hreg))
  rw [List.append_nil] at hbinds
  exact hbinds

/-- **Reading binds the variables that it declares in the innermost scope, and no others.** -/
theorem Reads.binds {reading : Reading} (h : Reads cx reading s s') (depth : Nat) :
    s.Binds s' (reading.declared depth) := by
  induction h generalizing depth with
  | jump | nil | noMore => exact .of_eq rfl
  | declare declaration =>
    obtain ⟨-, ty, -, t, -, ht, -⟩ := readVariable_eq_ok.mp declaration
    exact .declare (scopes_ne_nil_of_readType ht)
  | function inner ih => exact ih depth
  | @assign cx s node a assignment =>
    show s.Binds s (declaredIn (walkAll depth [.assign a]))
    rw [declaredIn_assign depth (Assignment.quiet_walk assignment (depth + 1))]
    exact .of_eq rfl
  | @branch cx s s1 s' node thenNodes elseNodes condition thenBody elseBody value first second
      ih1 ih2 =>
    show s.Binds s' (declaredIn (walkAll depth [.branch condition thenBody elseBody]))
    rw [declaredIn_branch depth ((readRvalue_made value).quiet (depth + 1))]
    exact (ih1 (depth + 2)).trans (ih2 (depth + 2))
  | @loop cx s s' whole counter start stop increment nodes controls body header inner ih =>
    show s.Binds s' (declaredIn (walkAll depth [.loop s.nextLoop controls body]))
    rw [declaredIn_loop depth (Controls.quiet_walk header (depth + 1))]
    exact ih (depth + 2)
  | @ret cx s parts value returned =>
    show s.Binds s (declaredIn (walkAll depth [.ret value]))
    rw [declaredIn_ret depth (readReturn_quiet returned (depth + 1))]
    exact .of_eq rfl
  | @rvalue cx s node r value =>
    show s.Binds s (declaredIn (walkAll depth [.rvalue r]))
    rw [declaredIn_rvalue depth ((readRvalue_made value).quiet depth)]
    exact .of_eq rfl
  | @cons cx s s1 s' node rest i is first others ih1 ih2 =>
    show s.Binds s' (declaredIn (walkAll depth (i.toList ++ is)))
    rw [walkAll_append, declaredIn_append]
    exact (ih1 depth).trans (ih2 depth)
  | @overloads cx s s1 s' scan name first rest slot entries place inner ih =>
    obtain ⟨rfl, rfl⟩ := Prod.mk.inj place
    have hslot := varScopes_slot s cx name (scopes_ne_nil_of_overloads inner)
    exact (ReadState.Binds.of_eq hslot).trans (ih depth)
  | more first others ih1 ih2 => exact (ih1 depth).trans (ih2 depth)
  | prototype type declares registers silent =>
    exact .of_eq (binds_header declares registers).closed
  | @definition cx s s1 s2 s3 slot name ty declarations nodes returnType parameters index body type
      declares registers nonempty undefined inner bound ih =>
    have hcomplete : (s3.complete slot name index body).symbols.varScopes = s3.symbols.varScopes :=
      SymbolTable.varScopes_modifyFunction _ _ _
    exact .of_eq (((binds_header declares registers).trans (ih depth)).trans
      (.of_eq hcomplete)).closed

/-! ## §3. What is read is scoped -/

/-- The instructions that were read are scoped, at whatever depth they stand. -/
def Reading.IsScoped (known : List Var) : Reading → Prop
  | .instruction _ i => ∀ depth, Scoped known (walkAll depth i.toList)
  | .instructions _ is => ∀ depth, Scoped known (walkAll depth is)
  | _ => True

theorem scoped_cons_quiet (step : Step) {rest : List Step}
    (hquiet : step.visit.declared? = none ∧ step.visit.used? = none) (h : Scoped known rest) :
    Scoped known (step :: rest) := by
  refine ⟨?_, ?_⟩
  · intro v hv
    rw [hquiet.2] at hv
    cases hv
  · rw [hquiet.1]
    exact h.mono fun v hv => mem_append_left _ hv

/-- **Instructions use variables that were in scope where they were read, or that they declare
    first.** -/
theorem Reads.isScoped {reading : Reading} (h : Reads cx reading s s')
    (hknown : ∀ v ∈ s.symbols.visible, v ∈ known) : reading.IsScoped known := by
  induction h generalizing known with
  | jump | declare => exact fun depth => ⟨nofun, trivial⟩
  | function | nil => exact fun depth => trivial
  | @assign cx s node a assignment =>
    intro depth
    show Scoped known (walkAll depth [.assign a])
    rw [walkAll_singleton, walk]
    exact scoped_cons_quiet _ ⟨rfl, rfl⟩
      ((Assignment.quiet_walk assignment (depth + 1)).mono hknown).isScoped
  | @branch cx s s1 s' node thenNodes elseNodes condition thenBody elseBody value first second
      ih1 ih2 =>
    intro depth
    have hquiet := ((readRvalue_made value).quiet (depth + 1)).mono hknown
    -- what is visible after the first block was so before it, or is declared in it
    have hknown1 := (first.binds (depth + 2)).visible_known hknown
    have hthen := scoped_cons_quiet ⟨depth + 1, .block thenBody.length⟩ ⟨rfl, rfl⟩
      (ih1 hknown (depth + 2))
    have helse := scoped_cons_quiet ⟨depth + 1, .block elseBody.length⟩ ⟨rfl, rfl⟩
      (ih2 hknown1 (depth + 2))
    show Scoped known (walkAll depth [.branch condition thenBody elseBody])
    rw [walkAll_singleton, walk]
    refine scoped_cons_quiet _ ⟨rfl, rfl⟩ ?_
    rw [scoped_append, scoped_append, declaredIn_append, hquiet.declaredIn_eq, List.append_nil,
      nil_append, declaredIn_cons]
    exact ⟨⟨hquiet.isScoped, hthen⟩, helse⟩
  | @loop cx s s' whole counter start stop increment nodes controls body header inner ih =>
    intro depth
    have hquiet := (Controls.quiet_walk header (depth + 1)).mono hknown
    have hbody := scoped_cons_quiet ⟨depth + 1, .block body.length⟩ ⟨rfl, rfl⟩
      (ih hknown (depth + 2))
    show Scoped known (walkAll depth [.loop s.nextLoop controls body])
    rw [walkAll_singleton, walk]
    refine scoped_cons_quiet _ ⟨rfl, rfl⟩ ?_
    rw [scoped_append, hquiet.declaredIn_eq, List.append_nil]
    exact ⟨hquiet.isScoped, hbody⟩
  | @ret cx s parts value returned =>
    intro depth
    have hquiet := readReturn_quiet returned (depth + 1)
    show Scoped known (walkAll depth [.ret value])
    rw [walkAll_singleton, walk]
    exact scoped_cons_quiet _ ⟨rfl, rfl⟩ (hquiet.mono hknown).isScoped
  | @rvalue cx s node r value =>
    intro depth
    show Scoped known (walkAll depth [.rvalue r])
    rw [walkAll_singleton, walk]
    exact (((readRvalue_made value).quiet depth).mono hknown).isScoped
  | @cons cx s s1 s' node rest i is first others ih1 ih2 =>
    intro depth
    have hknown1 := (first.binds depth).visible_known hknown
    rw [walkAll_append, scoped_append]
    exact ⟨ih1 hknown depth, ih2 hknown1 depth⟩
  | overloads | noMore | more | prototype | definition => trivial

end Shading
