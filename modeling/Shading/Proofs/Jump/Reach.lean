/-
  Shading.Proofs.Jump.Reach — the instructions that the reader comes to.

  `Reaches cx nodes s cx' node s'` says that reading the nodes, from the first to the last and into the
  blocks and bodies that they have, comes to the instruction `node` in the state `s'`: everything before
  it could be read.  If that instruction cannot be read, then its error is the error of the whole.
-/
import Shading.Proofs.Jump.Read
import Shading.Proofs.Jump.Unroll
import Shading.Proofs.Read.Kept

namespace Shading

open List

/-! ## §1. Failure -/

variable {cx : Context}

namespace ReadM

/-- The computation fails with that error. -/
def Fails {α : Type} (x : ReadM α) (s : ReadState) (e : ReadError) : Prop :=
  (x.run.run s).1 = .error e

variable {α β : Type} {s : ReadState} {e : ReadError}

theorem fails_iff {x : ReadM α} : Fails x s e ↔ ∃ s', x.run.run s = (.error e, s') := by
  constructor
  · intro h
    exact ⟨_, Prod.ext h rfl⟩
  · rintro ⟨s', h⟩
    exact congrArg Prod.fst h

/-- A sequence fails in its first part, or in the second from where the first one ended. -/
theorem fails_bind {x : ReadM α} {f : α → ReadM β} :
    Fails (x >>= f) s e ↔ Fails x s e ∨ ∃ a s1, Yields x s a s1 ∧ Fails (f a) s1 e := by
  simp only [fails_iff, run_bind_eq_error]
  constructor
  · rintro ⟨s', h | ⟨a, s1, ha, h⟩⟩
    · exact .inl ⟨s', h⟩
    · exact .inr ⟨a, s1, ha, s', h⟩
  · rintro (⟨s', h⟩ | ⟨a, s1, ha, s', h⟩)
    · exact ⟨s', .inl h⟩
    · exact ⟨s', .inr ⟨a, s1, ha, h⟩⟩

theorem Fails.bind {x : ReadM α} (h : Fails x s e) (f : α → ReadM β) : Fails (x >>= f) s e :=
  fails_bind.mpr (.inl h)

theorem Yields.bind_fails {x : ReadM α} {f : α → ReadM β} {a : α} {s1 : ReadState}
    (h : Yields x s a s1) (hf : Fails (f a) s1 e) : Fails (x >>= f) s e :=
  fails_bind.mpr (.inr ⟨a, s1, h, hf⟩)

theorem Fails.inScope {x : ReadM α} (h : Fails x s.opened e) : Fails (inScope x) s e := h

theorem fails_reading {f : Env → Except ReadError α} (h : f (s.env cx) = .error e) :
    Fails (reading cx f) s e :=
  congrArg Prod.fst (run_reading_of_error h)

end ReadM

open ReadM

/-- What is wrong with a jump that stands in no loop. -/
def strayError (mode : JumpMode) (function : Option String) : ReadError :=
  ⟨.fault (.noEnclosingLoop mode), function, some (.symbol mode.name)⟩

/-- A jump outside of all loops is an error. -/
theorem fails_jump (hnone : cx.enclosing = none) (mode : JumpMode) (s : ReadState) :
    Fails (readInstruction cx (.symbol mode.name)) s (strayError mode cx.function) := by
  cases mode with
  | «break» =>
    show Fails (readInstruction cx (.symbol "break")) s _
    rw [readInstruction]
    refine fails_reading ?_
    rw [hnone]
    rfl
  | «continue» =>
    show Fails (readInstruction cx (.symbol "continue")) s _
    rw [readInstruction]
    refine fails_reading ?_
    rw [hnone]
    rfl

/-! ## §2. Reaching an instruction -/

/-- Reading the nodes in the first context and state comes to the node in the second ones. -/
inductive Reaches : Context → List Node → ReadState → Context → Node → ReadState → Prop
  | here {cx : Context} {node : Node} {rest : List Node} {s : ReadState} :
      Reaches cx (node :: rest) s cx node s
  | later {cx cx' : Context} {node target : Node} {rest : List Node} {i : Option Instruction}
      {s s1 s' : ReadState} (first : Reads cx (.instruction node i) s s1)
      (others : Reaches cx rest s1 cx' target s') :
      Reaches cx (node :: rest) s cx' target s'
  | thenBody {cx cx' : Context} {node elseNode target : Node} {thenNodes rest : List Node}
      {condition : Rvalue} {s s' : ReadState} (value : readRvalue (s.env cx) node = .ok condition)
      (inner : Reaches cx thenNodes s cx' target s') :
      Reaches cx (.list [.symbol "if", node, .list thenNodes, elseNode] :: rest) s cx' target s'
  | elseBody {cx cx' : Context} {node target : Node} {thenNodes elseNodes rest : List Node}
      {condition : Rvalue} {thenBody : List Instruction} {s s1 s' : ReadState}
      (value : readRvalue (s.env cx) node = .ok condition)
      (first : Reads cx (.instructions thenNodes thenBody) s s1)
      (inner : Reaches cx elseNodes s1 cx' target s') :
      Reaches cx (.list [.symbol "if", node, .list thenNodes, .list elseNodes] :: rest) s cx' target
        s'
  | loopBody {cx cx' : Context} {counter start stop increment target : Node}
      {nodes rest : List Node} {controls : Controls} {s s' : ReadState}
      (header : readControls (s.env cx)
        (.list [.symbol "loop", counter, start, stop, increment, .list nodes]) counter start stop
        increment = .ok controls)
      (inner : Reaches { cx with enclosing := some s.nextLoop } nodes s.takeLoop cx' target s') :
      Reaches cx (.list [.symbol "loop", counter, start, stop, increment, .list nodes] :: rest) s cx'
        target s'
  /-- A body of a function.  The signatures before it could be read, and so could its own head. -/
  | body {cx cx' : Context} {name : String} {before after declarations nodes rest : List Node}
      {ty target : Node} {slot index : Nat} {entries : List Entry} {returnType : Ty}
      {parameters : List Var} {s s1 s2 s3 s4 s' : ReadState}
      (place : s.slot cx name = (slot, s1))
      (earlier : Reads cx (.signatures false slot name before entries) s1 s2)
      (type : readType (s2.env cx) ty = .ok returnType)
      (declares : Declares cx declarations parameters s2.opened s3)
      (registers : Registers slot name returnType parameters index s3 s4)
      (undefined : s4.isDefined slot index = false)
      (inner : Reaches { cx with function := some name, enclosing := none } nodes s4 cx' target s') :
      Reaches cx
        (.list (.symbol "function" :: .symbol name :: (before
          ++ .list [.symbol "signature", ty, .list (.symbol "parameters" :: declarations), .list nodes]
            :: after)) :: rest) s cx' target s'

section

variable {cx cx' : Context} {nodes : List Node} {node : Node} {s s' : ReadState} {e : ReadError}

theorem Reaches.ne_nil (h : Reaches cx nodes s cx' node s') : nodes ≠ [] := by
  cases h <;> exact cons_ne_nil _ _

/-- A signature that fails makes the whole function fail. -/
theorem fails_readSignatures {slot : Nat} {name : String} {before after : List Node}
    {entries : List Entry} {s1 : ReadState}
    (h : Reads cx (.signatures false slot name before entries) s s1)
    (hfails : Fails (readSignature cx false slot name node) s1 e) :
    Fails (readSignatures cx false slot name (before ++ node :: after)) s e := by
  induction before generalizing s entries with
  | nil =>
    cases h
    rw [nil_append, readSignatures]
    exact hfails.bind _
  | cons first rest ih =>
    cases h with
    | more head others =>
      rw [cons_append, readSignatures]
      exact head.runs.bind_fails (ih others)

theorem fails_readFunction {slot : Nat} {name : String} {parts : List Node} {whole : Node}
    {s1 : ReadState} (hplace : s.slot cx name = (slot, s1)) (hparts : parts ≠ [])
    (hfails : Fails (readSignatures cx false slot name parts) s1 e) :
    Fails (readFunction cx false whole (.symbol name :: parts)) s e := by
  cases parts with
  | nil => exact absurd rfl hparts
  | cons first rest =>
    rw [readFunction]
    refine (yields_functionSlot.mpr hplace.symm).bind_fails ?_
    rw [readSignatures, fails_bind] at hfails
    rcases hfails with hfirst | ⟨u, s2, hfirst, hrest⟩
    · exact hfirst.bind _
    · exact hfirst.bind_fails (hrest.bind _)

/-- **The error of an instruction that is reached is the error of the whole.** -/
theorem Reaches.fails (h : Reaches cx nodes s cx' node s')
    (hfails : Fails (readInstruction cx' node) s' e) : Fails (readInstructions cx nodes) s e := by
  induction h with
  | here =>
    rw [readInstructions]
    exact hfails.bind _
  | later first others ih =>
    rw [readInstructions]
    exact first.runs.bind_fails ((ih hfails).bind _)
  | thenBody value inner ih =>
    rw [readInstructions, readInstruction]
    refine Fails.bind ?_ _
    exact (yields_reading.mpr ⟨value, rfl⟩).bind_fails ((ih hfails).bind _)
  | elseBody value first inner ih =>
    rw [readInstructions, readInstruction]
    refine Fails.bind ?_ _
    refine (yields_reading.mpr ⟨value, rfl⟩).bind_fails ?_
    exact (yields_readBlock.mpr ⟨_, rfl, first.runs⟩).bind_fails ((ih hfails).bind _)
  | loopBody header inner ih =>
    rw [readInstructions, readInstruction]
    refine Fails.bind ?_ _
    refine (yields_reading.mpr ⟨header, rfl⟩).bind_fails ?_
    exact (yields_newLoop.mpr ⟨rfl, rfl⟩).bind_fails ((ih hfails).bind _)
  | @body cx cx' name before after declarations nodes rest ty target slot index entries returnType
      parameters s s1 s2 s3 s4 s' place earlier type declares registers undefined inner ih =>
    have hbody : (false || (Node.list nodes).isEmptyList) = false := by
      cases nodes with
      | nil => exact absurd rfl inner.ne_nil
      | cons node rest => rfl
    have hsignature : Fails (readSignature cx false slot name
        (.list [.symbol "signature", ty, .list (.symbol "parameters" :: declarations),
          .list nodes])) s2 e := by
      rw [readSignature]
      refine (yields_reading.mpr
        ⟨readSignatureHead_eq_ok.mpr ⟨type, rfl, nodes, rfl⟩, rfl⟩).bind_fails ?_
      refine Fails.inScope ?_
      refine (yields_readDeclarations.mpr declares).bind_fails ?_
      refine (yields_register_iff.mpr registers).bind_fails ?_
      unfold ReadState.isDefined at undefined
      rw [hbody, if_neg Bool.false_ne_true]
      refine (yields_signatures.mpr ⟨rfl, rfl⟩).bind_fails ?_
      rw [undefined, if_neg Bool.false_ne_true]
      exact (ih hfails).bind _
    rw [readInstructions, readInstruction]
    refine Fails.bind (Fails.bind (fails_readFunction place ?_ ?_) _) _
    · exact append_ne_nil_of_right_ne_nil _ (cons_ne_nil _ _)
    · exact fails_readSignatures earlier hsignature

/-- An instruction that is reached stands at one of the positions of its block. -/
theorem Reaches.mem_positions (h : Reaches cx nodes s cx' node s') :
    (node, cx'.enclosing.isSome) ∈ Node.positions cx.enclosing.isSome nodes := by
  induction h with
  | here => exact mem_cons_self
  | later first others ih => exact mem_cons_of_mem _ (mem_append_right _ ih)
  | thenBody value inner ih =>
    exact mem_cons_of_mem _ (mem_append_left _ (mem_append_left _ ih))
  | elseBody value first inner ih =>
    exact mem_cons_of_mem _ (mem_append_left _ (mem_append_right _ ih))
  | loopBody header inner ih => exact mem_cons_of_mem _ (mem_append_left _ ih)
  | @body cx cx' name before after declarations nodes rest ty target slot index entries returnType
      parameters s s1 s2 s3 s4 s' place earlier type declares registers undefined inner ih =>
    refine mem_cons_of_mem _ (mem_append_left _ ?_)
    show _ ∈ Node.insideSignatures (before ++ _ :: after)
    clear earlier
    induction before with
    | nil => exact mem_append_left _ ih
    | cons first others ihBefore => exact mem_append_right _ ihBefore

end

/-! ## §3. Documents -/

/-- Reading a document comes to the node: it could be scanned, if that is asked for, and everything
    before the node could be read. -/
def Reached (scan : Bool) (u : CompilationUnit) (nodes : List Node) (cx : Context) (node : Node)
    (s : ReadState) : Prop :=
  ∃ s1,
    (if scan then
      Yields (Read.scanPrototypes ⟨none, none, u.symbols.depth⟩ nodes)
        (u.start.noted (.scanning nodes.length)) () s1
    else s1 = u.start)
    ∧ Reaches ⟨none, none, u.symbols.depth⟩ nodes (s1.noted (.reading nodes.length)) cx node s

theorem Reached.mem_positions {scan : Bool} {u : CompilationUnit} {nodes : List Node} {node : Node}
    {s : ReadState} (h : Reached scan u nodes cx node s) :
    (node, cx.enclosing.isSome) ∈ Node.positions false nodes := by
  obtain ⟨s1, -, hreaches⟩ := h
  exact hreaches.mem_positions

/-- **An instruction that is reached and fails makes the module fail**, with the same error. -/
theorem outcome_of_reached {scan : Bool} {u : CompilationUnit} {text : String} {nodes : List Node}
    {cx : Context} {node : Node} {s : ReadState} {e : ReadError}
    (hnodes : readExpressions text = .ok nodes)
    (hreached : Reached scan u (Read.documentNodes nodes) cx node s)
    (hfails : Fails (readInstruction cx node) s e) :
    (readModule scan u text).outcome = .error e := by
  obtain ⟨s1, hscan, hreaches⟩ := hreached
  have hitems : Fails (Read.readItems _ [] s1.functions.length (Read.documentNodes nodes)) _ e :=
    congrArg Prod.fst ((alike_readItems _ _ _ _ _).symm.error (Prod.ext (hreaches.fails hfails) rfl))
  have hnote : ∀ n (t : ReadState), Yields (note n) t () (t.noted n) := fun _ _ => rfl
  have hdocument : Fails (Read.readDocument scan (Read.documentNodes nodes)) u.start e := by
    unfold Read.readDocument
    refine (yields_get.mpr ⟨rfl, rfl⟩).bind_fails ?_
    cases scan with
    | false =>
      have hstart : s1 = u.start := hscan
      rw [hstart] at hitems
      simp only [Bool.false_eq_true, if_false]
      refine (hnote _ _).bind_fails ?_
      exact (yields_get.mpr ⟨rfl, rfl⟩).bind_fails (hitems.bind _)
    | true =>
      have hscanned : Yields (Read.scanPrototypes ⟨none, none, u.symbols.depth⟩
          (Read.documentNodes nodes)) _ () s1 := hscan
      simp only [if_true]
      refine (hnote _ _).bind_fails (hscanned.bind_fails ?_)
      refine (hnote _ _).bind_fails ?_
      exact (yields_get.mpr ⟨rfl, rfl⟩).bind_fails (hitems.bind _)
  unfold readModule
  rw [hnodes]
  exact hdocument

/-! ## §4. Every operation keeps jumps innermost -/

/-- **Jumps go to the innermost loop around them, and every operation keeps it so.**

    A module that was read is correct.  A document with a stray jump is never read, and where the reader
    comes to such a jump, it reports a violated invariant there.  Copying a correct list gives a correct list, if
    no loop stands in it twice.  Unrolling a correct module whose loops differ and come from the storage
    succeeds and gives a correct module, if every loop has an entry and a jump is counted for each that
    one goes to. -/
theorem jumps_to_innermost_loop :
    (∀ (scan : Bool) (u : CompilationUnit) (text : String) (ir : List Instruction),
        (readModule scan u text).outcome = .ok ir → JumpCorrect ir)
    ∧ (∀ (scan : Bool) (u : CompilationUnit) (text : String) (nodes : List Node)
          (place : Node × Bool),
        readExpressions text = .ok nodes →
        place ∈ Node.positions false (Read.documentNodes nodes) → IsStray place →
        ∀ ir, (readModule scan u text).outcome ≠ .ok ir)
    ∧ (∀ (scan : Bool) (u : CompilationUnit) (text : String) (nodes : List Node) (cx : Context)
          (mode : JumpMode) (s : ReadState),
        readExpressions text = .ok nodes →
        Reached scan u (Read.documentNodes nodes) cx (.symbol mode.name) s → cx.enclosing = none →
        (.symbol mode.name, false) ∈ Node.positions false (Read.documentNodes nodes)
          ∧ (readModule scan u text).outcome = .error (strayError mode cx.function)
          ∧ (strayError mode cx.function).kind = .invariantViolation)
    ∧ (∀ (is : List Instruction) (s : CloneState),
        JumpCorrect is → (loopIds is).Nodup → JumpCorrect ((Instruction.cloneAll is).run s).1)
    ∧ (∀ (plan : UnrollPlan) (s : Storage) (ir : List Instruction),
        JumpCorrect ir → (loopIds ir).Nodup → (∀ id ∈ loopIds ir, s.Has (.loop id)) →
        (∀ id ∈ loopIds ir, (plan.analysis.find? id).isSome) →
        (∀ j ∈ Instruction.jumpsAll none ir, plan.Counts j.target) →
        ∃ out, (unrollLoops plan s ir).outcome = .ok out ∧ JumpCorrect out) := by
  refine ⟨fun scan u text ir => jumpCorrect_readModule, ?_, ?_, ?_, ?_⟩
  · intro scan u text nodes place hnodes hplace hstray ir hir
    exact not_stray_of_readModule hnodes hir place hplace hstray
  · intro scan u text nodes cx mode s hnodes hreached hnone
    have hplace := hreached.mem_positions
    rw [hnone] at hplace
    exact ⟨hplace, outcome_of_reached hnodes hreached (fails_jump hnone mode s), rfl⟩
  · intro is s hcorrect hnodup
    rw [loopIds_eq] at hnodup
    exact Instruction.jumpCorrectIn_cloneAll is none s hcorrect hnodup fun _ hid => by cases hid
  · intro plan s ir hcorrect hnodup hissued hentries hcounted
    obtain ⟨out, hout, hjumps, -⟩ :=
      jumpCorrect_unrollLoops hcorrect hnodup hissued hentries hcounted
    exact ⟨out, hout, hjumps⟩

/-- A loop in a loop, each with its own jump. -/
def jumpsInLoops : String :=
  "(loop () () () () (break (loop () () () () (continue))))"

/-- A jump whose function stands in a loop. -/
def strayJump : String :=
  "(loop () () () () ((function f (signature void (parameters) (break)))))"

/-- The document of the stray jump. -/
def strayNodes : List Node :=
  [.list [.symbol "loop", .list [], .list [], .list [], .list [],
    .list [.list [.symbol "function", .symbol "f",
      .list [.symbol "signature", .symbol "void", .list [.symbol "parameters"],
        .list [.symbol "break"]]]]]]

set_option maxRecDepth 2000 in
theorem reached_strayJump :
    ∃ cx s, Reached false .fresh (Read.documentNodes strayNodes) cx (.symbol JumpMode.break.name) s
      ∧ cx.enclosing = none ∧ cx.function = some "f" := by
  let start : ReadState :=
    CompilationUnit.fresh.start.noted (.reading (Read.documentNodes strayNodes).length)
  let inLoop : ReadState := start.takeLoop
  let cx : Context := ⟨none, some start.nextLoop, CompilationUnit.fresh.symbols.depth⟩
  let slot : Nat := (inLoop.slot cx "f").1
  let met : ReadState := (inLoop.slot cx "f").2
  let registered : ReadState :=
    (met.opened.addOverload slot "f" .void).setParameters slot "f" (met.opened.signatures slot).length
      []
  have hplace : inLoop.slot cx "f" = (slot, met) := (Prod.eta _).symm
  have htype : readType (met.env cx) (.symbol "void") = .ok .void := by
    obtain ⟨ty, hty, hvoid⟩ := exists_ok_of_any (p := (· = .void))
      (show (readType (met.env cx) (.symbol "void")).toOption.any _ = true by decide +kernel)
    rw [hty, of_decide_eq_true hvoid]
  have hbound : met.opened.symbols.findFunction? "f" = some (.empty "f") := by decide +kernel
  have hregisters : Registers slot "f" .void [] (met.opened.signatures slot).length met.opened
      registered := .added hbound rfl
  have hundefined : registered.isDefined slot (met.opened.signatures slot).length = false := by
    decide +kernel
  have hbody := @Reaches.body cx _ "f" [] [] [] [.symbol "break"] [] (.symbol "void") _ slot _ [] _ _
    inLoop met met _ _ _ hplace .noMore htype (.nil _) hregisters hundefined .here
  have hloop : Reaches ⟨none, none, CompilationUnit.fresh.symbols.depth⟩ strayNodes start
      ⟨some "f", none, CompilationUnit.fresh.symbols.depth⟩ (.symbol "break") registered :=
    .loopBody rfl hbody
  exact ⟨_, _, ⟨CompilationUnit.fresh.start, rfl, hloop⟩, rfl, rfl⟩

/-- Loops in loops are read, copied and unrolled with their jumps; the stray jump is reported. -/
theorem jumps_to_innermost_loop_nested :
    (∃ ir, (readModule true .fresh jumpsInLoops).outcome = .ok ir ∧ JumpCorrect ir)
    ∧ (∀ ir, (readModule false .fresh strayJump).outcome ≠ .ok ir)
    ∧ (readModule false .fresh strayJump).outcome = .error (strayError .break (some "f"))
    ∧ JumpCorrect ((Instruction.cloneAll nestedLoops).run ⟨⟨⟨2⟩, ⟨3⟩, ⟨0⟩⟩, .empty⟩).1
    ∧ ∃ out, (unrollLoops nestedPlan ⟨⟨2⟩, ⟨3⟩, ⟨0⟩⟩ nestedLoops).outcome = .ok out
      ∧ JumpCorrect out := by
  obtain ⟨hread, hstray, hreported, hclone, hunroll⟩ := jumps_to_innermost_loop
  have hnodes : readExpressions strayJump = .ok strayNodes := rfl
  have hplace : (Node.symbol JumpMode.break.name, false) ∈ Node.positions false strayNodes :=
    mem_cons_of_mem _ (mem_append_left _ (mem_cons_of_mem _ mem_cons_self))
  have hcorrect : JumpCorrect nestedLoops := by decide
  have hnodup : (loopIds nestedLoops).Nodup := by decide
  refine ⟨?_, ?_, ?_, ?_, ?_⟩
  · obtain ⟨ir, hir, -⟩ := exists_ok_of_any (p := fun _ => true)
      (show (readModule true .fresh jumpsInLoops).outcome.toOption.any _ = true by decide +kernel)
    exact ⟨ir, hir, hread true .fresh jumpsInLoops ir hir⟩
  · exact hstray false .fresh strayJump strayNodes _ hnodes hplace ⟨rfl, .break, rfl⟩
  · obtain ⟨cx, s, hreached, hnone, hfunction⟩ := reached_strayJump
    have hreport :=
      (hreported false .fresh strayJump strayNodes cx .break s hnodes hreached hnone).2.1
    rw [hfunction] at hreport
    exact hreport
  · exact hclone nestedLoops _ hcorrect hnodup
  · exact hunroll nestedPlan ⟨⟨2⟩, ⟨3⟩, ⟨0⟩⟩ nestedLoops hcorrect hnodup (by decide) (by decide)
      (by decide)

end Shading
