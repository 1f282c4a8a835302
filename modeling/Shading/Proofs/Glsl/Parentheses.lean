/-
  Shading.Proofs.Glsl.Parentheses — conditions come in exactly one pair of parentheses.

  Whether a condition needs parentheses is decided from the expression and not from its text, so the
  printer's test has to agree with what is printed.  It does for every expression of a module that
  was read where names are legible: those in the text are symbols, which have no parentheses, and
  the others are in the symbol table.
-/
import Shading.Proofs.Glsl.Legible
import Shading.Proofs.Read.Origin
import Shading.Proofs.Read.Spoken

namespace Shading

open List

variable {env : Env} {r : Rvalue} {ty : Ty} {text : String}

/-! ## §1. Where values stand in a module -/

/-- The value is the other one or stands somewhere in it. -/
inductive Rvalue.PartOf (x : Rvalue) : Rvalue → Prop
  | self : PartOf x x
  | inner {part whole : Rvalue} (mem : part ∈ whole.parts) (rest : PartOf x part) : PartOf x whole

/-- The values of an instruction that are not in a block of it. -/
def Instruction.values : Instruction → List Rvalue
  | .assign a => .dereference a.lhs :: a.rhs :: a.condition.toList
  | .ret value => value.toList
  | .branch condition _ _ => [condition]
  | .loop _ controls _ =>
    controls.start.toList ++ controls.stop.toList ++ controls.increment.toList
  | .rvalue r => [r]
  | .declare _ | .function _ _ | .jump _ _ => []

/-- The blocks of an instruction. -/
def Instruction.blocks : Instruction → List (List Instruction)
  | .function _ signatures => signatures.map (·.body)
  | .branch _ thenBody elseBody => [thenBody, elseBody]
  | .loop _ _ body => [body]
  | .declare _ | .assign _ | .ret _ | .jump _ _ | .rvalue _ => []

/-- The value stands in a block, at any depth. -/
inductive Rvalue.StandsIn (x : Rvalue) : List Instruction → Prop
  | value {i : Instruction} {block : List Instruction} {whole : Rvalue} (here : i ∈ block)
      (mem : whole ∈ i.values) (part : x.PartOf whole) : StandsIn x block
  | block {i : Instruction} {block inner : List Instruction} (here : i ∈ block)
      (mem : inner ∈ i.blocks) (rest : StandsIn x inner) : StandsIn x block

/-- The value was made where all names are legible. -/
def Rvalue.Spoken (r : Rvalue) : Prop := ∃ env : Env, env.symbols.AllLegible ∧ r.Made env

/-- The parts of a value were made where the value was. -/
theorem Rvalue.Spoken.partOf {x : Rvalue} (h : r.Spoken) (hx : x.PartOf r) : x.Spoken := by
  induction hx with
  | self => exact h
  | inner mem rest ih =>
    obtain ⟨env, henv, hmade⟩ := h
    exact ih ⟨env, henv, hmade.parts _ mem⟩

/-- All values in the block were made where names are legible. -/
def BlockSpoken (block : List Instruction) : Prop := ∀ x : Rvalue, x.StandsIn block → x.Spoken

theorem blockSpoken_nil : BlockSpoken [] := by
  intro x hx
  cases hx with
  | value here => cases here
  | block here => cases here

theorem blockSpoken_append {xs ys : List Instruction} (hxs : BlockSpoken xs) (hys : BlockSpoken ys) :
    BlockSpoken (xs ++ ys) := by
  intro x hx
  cases hx with
  | value here mem part =>
    rcases mem_append.mp here with here | here
    · exact hxs x (.value here mem part)
    · exact hys x (.value here mem part)
  | block here mem rest =>
    rcases mem_append.mp here with here | here
    · exact hxs x (.block here mem rest)
    · exact hys x (.block here mem rest)

theorem blockSpoken_singleton {i : Instruction} (hvalues : ∀ r ∈ i.values, r.Spoken)
    (hblocks : ∀ block ∈ i.blocks, BlockSpoken block) : BlockSpoken [i] := by
  intro x hx
  cases hx with
  | value here mem part =>
    obtain rfl := mem_singleton.mp here
    exact (hvalues _ mem).partOf part
  | block here mem rest =>
    obtain rfl := mem_singleton.mp here
    exact hblocks _ mem x rest

/-! ## §2. Reading -/

/-- Variables and functions are bound under their own names, and every type that a text can name is
    written legibly. -/
def SymbolTable.IsLegible : SymbolTable → Prop :=
  SymbolTable.Names (fun name ty => IsSymbol name → ty.IsLegible) fun name own => own = name

/-- What a text can name is legible, if all that has a name is. -/
theorem SymbolTable.IsLegible.spoken {t : SymbolTable} (h : t.IsLegible) : t.spoken.AllLegible := by
  have hmem : ∀ {α : Type} {f : Scope → Bindings α} {g : Scope → Scope}, (∀ c, f (g c) = (f c).spoken) →
      ∀ b ∈ (t.scopes.map g).map f, ∀ e ∈ b, IsSymbol e.1 ∧ ∃ b' ∈ t.scopes.map f, e ∈ b' := by
    intro α f g hf b hb e he
    obtain ⟨c, hc, rfl⟩ := mem_map.mp hb
    obtain ⟨scope, hscope, rfl⟩ := mem_map.mp hc
    rw [hf, Bindings.spoken, mem_filter] at he
    exact ⟨of_decide_eq_true he.2, _, mem_map_of_mem hscope, he.1⟩
  refine ⟨?_, ?_, ?_⟩
  · intro b hb e he
    obtain ⟨hname, b', hb', he'⟩ := hmem (fun _ => rfl) b hb e he
    exact h.types b' hb' e he' hname
  · intro b hb e he
    obtain ⟨hname, b', hb', he'⟩ := hmem (fun _ => rfl) b hb e he
    exact h.vars b' hb' e he' ▸ legible_of_isRun hname.1
  · intro b hb e he
    obtain ⟨hname, b', hb', he'⟩ := hmem (fun _ => rfl) b hb e he
    exact h.functions b' hb' e he' ▸ legible_of_isRun hname.1

/-- What was read was made where names are legible. -/
def Reading.Spoken : Reading → Prop
  | .instruction _ i => BlockSpoken i.toList
  | .instructions _ is => BlockSpoken is
  | _ => True

variable {cx : Context} {s s' : ReadState}

/-- **Whatever is read was made where names are legible.** -/
theorem Reads.spoken {reading : Reading} (h : Reads cx reading s s') (hr : reading.Readable)
    (hs : s.symbols.IsLegible) : reading.Spoken := by
  have hnone : ∀ block ∈ ([] : List (List Instruction)), BlockSpoken block := by simp
  induction h with
  | jump | declare => exact blockSpoken_singleton (by simp [Instruction.values]) hnone
  | function | nil => exact blockSpoken_nil
  | assign assignment =>
    obtain ⟨hcondition, hlhs, hrhs, -⟩ :=
      (Env.gives_spoken _).readAssignment hr assignment
    refine blockSpoken_singleton ?_ hnone
    simp only [Instruction.values, forall_mem_cons, Option.mem_toList]
    exact ⟨⟨_, hs.spoken, hlhs⟩, ⟨_, hs.spoken, hrhs⟩, fun r hr => ⟨_, hs.spoken, hcondition r hr⟩⟩
  | branch value first second ih1 ih2 =>
    simp only [Reading.Readable, Node.readable_list, forall_mem_cons] at hr
    obtain ⟨-, hnode, hthen, helse, -⟩ := hr
    have hs1 : SymbolTable.IsLegible _ := first.names (fun _ _ => rfl) hthen hs
    refine blockSpoken_singleton ?_ ?_
    · simpa [Instruction.values] using
        ⟨_, hs.spoken, (Env.gives_spoken _).value hnode value⟩
    · exact forall_mem_cons.mpr ⟨ih1 hthen hs, forall_mem_singleton.mpr (ih2 helse hs1)⟩
  | loop header inner ih =>
    simp only [Reading.Readable, Node.readable_list, forall_mem_cons] at hr
    obtain ⟨-, -, hstart, hstop, hincrement, hnodes, -⟩ := hr
    obtain ⟨-, hmade1, hmade2, hmade3⟩ := (Env.gives_spoken _).readControls
      (by simpa using ⟨hstart, hstop, hincrement⟩) header
    refine blockSpoken_singleton ?_ (forall_mem_singleton.mpr (ih hnodes hs))
    simp only [Instruction.values, forall_mem_append, Option.mem_toList]
    exact ⟨⟨fun r hr => ⟨_, hs.spoken, hmade1 r hr⟩, fun r hr => ⟨_, hs.spoken, hmade2 r hr⟩⟩,
      fun r hr => ⟨_, hs.spoken, hmade3 r hr⟩⟩
  | ret returned =>
    have hmade := (Env.gives_spoken _).readReturn hr returned
    refine blockSpoken_singleton ?_ hnone
    simp only [Instruction.values, Option.mem_toList]
    exact fun r hr => ⟨_, hs.spoken, hmade r hr⟩
  | rvalue value =>
    refine blockSpoken_singleton ?_ hnone
    simpa [Instruction.values] using
      ⟨_, hs.spoken, (Env.gives_spoken _).value hr value⟩
  | cons first others ih1 ih2 =>
    obtain ⟨hnode, hrest⟩ := forall_mem_cons.mp hr
    have hs1 : SymbolTable.IsLegible _ := first.names (fun _ _ => rfl) hnode hs
    exact blockSpoken_append (ih1 hnode hs) (ih2 hrest hs1)
  | overloads | noMore | more | prototype | definition => trivial

theorem blockSpoken_of_stems {table : SymbolTable} {block : List Instruction}
    (h : Stems (fun name ty => IsSymbol name → ty.IsLegible) (fun name own => own = name) table block) :
    BlockSpoken block := by
  cases h with
  | intro reads outer readable names steady grows => exact reads.spoken readable names

theorem blockSpoken_of_forall {block : List Instruction} (h : ∀ i ∈ block, BlockSpoken [i]) :
    BlockSpoken block := by
  induction block with
  | nil => exact blockSpoken_nil
  | cons i rest ih =>
    obtain ⟨hi, hrest⟩ := forall_mem_cons.mp h
    exact blockSpoken_append hi (ih hrest)

/-- Every value of a module that was read was made where names are legible. -/
theorem readModule_spoken {scan : Bool} {u : CompilationUnit} {text : String}
    {ir : List Instruction} (hu : u.symbols.IsLegible)
    (hread : (readModule scan u text).outcome = .ok ir) : BlockSpoken ir := by
  obtain ⟨nodes, s', hnodes, hyields⟩ := readModule_eq_ok hread
  have hstems := stems_of_readDocument (N := fun name own => own = name) (fun _ _ => rfl) hyields
    (readable_documentNodes (readExpressions_readable hnodes)) (CompilationUnit.collects_start hu)
  refine blockSpoken_of_forall ?_
  intro i hi
  obtain hblock | ⟨name, sigs, rfl, hbodies⟩ := hstems i hi
  · exact blockSpoken_of_stems hblock
  · refine blockSpoken_singleton nofun ?_
    intro block hblock
    obtain ⟨sig, hsig, rfl⟩ := mem_map.mp hblock
    exact blockSpoken_of_stems (hbodies sig hsig)

/-! ## §3. Conditions -/

theorem Rvalue.Made.of_expression {op : Operator} {operands : List Rvalue} (h : r.Made env)
    (hr : r = .expression op ty operands) : operands.length = op.arity ∧ Typed env ty := by
  cases h with
  | expression type parts made =>
    obtain ⟨harity, rfl⟩ := mkExpression_eq_ok.mp made
    cases hr
    exact ⟨harity, type⟩
  | swizzle part made =>
    obtain ⟨kind, -, -, rfl⟩ := mkSwizzle_eq_ok made
    cases hr
  | _ => cases hr

/-- The text of an expression that was read has the shape of its spelling. -/
theorem Rvalue.Spoken.shaped {op : Operator} {operands : List Rvalue}
    (h : (Rvalue.expression op ty operands).Spoken) (s : SourceState) :
    Shaped op ((SourceM.typeName ty).run s).1 (Rvalue.expression op ty operands).isParenthesized
      ((Rvalue.expression op ty operands).source.run s).1 := by
  obtain ⟨env, henv, hmade⟩ := h
  obtain ⟨harity, htype⟩ := hmade.of_expression rfl
  exact shaped_source harity (htype.isLegible henv)
    (fun x hx => (hmade.parts x hx).legible henv) s

/-- **The printer's test agrees with what is printed.**  Whatever module is read in a unit with a
    legible symbol table, and whatever was printed before: the text of an expression in it stands in
    parentheses of its own exactly if the test says so, and else begins with a letter, or with the
    name of its type if it is a conversion.  So a condition is printed in exactly one pair. -/
theorem readModule_parenthesizes (scan : Bool) (u : CompilationUnit) (text : String)
    (ir : List Instruction) (hu : u.symbols.IsLegible)
    (hread : (readModule scan u text).outcome = .ok ir) (op : Operator) (ty : Ty)
    (operands : List Rvalue) (hx : (Rvalue.expression op ty operands).StandsIn ir)
    (s : SourceState) :
    let x := Rvalue.expression op ty operands
    let written := (x.source.run s).1
    let condition := ((conditionText x).run s).1
    (Enclosed written ↔ x.isParenthesized = true)
      ∧ (x.isParenthesized = false → StartsWithLetter written ∨ op.isConversion = true
          ∧ ((SourceM.typeName ty).run s).1.toList <+: written.toList)
      ∧ (Enclosed written → condition = "if " ++ written ++ " ")
      ∧ (¬ Enclosed written → condition = "if " ++ ("(" ++ written ++ ")") ++ " ")
      ∧ ∃ inner, Balanced inner ∧ ¬ Enclosed inner ∧ condition = "if " ++ ("(" ++ inner ++ ")") ++ " " := by
  intro x written condition
  have hshaped := (readModule_spoken hu hread _ hx).shaped s
  have hforms : Shaped op _ x.isParenthesized written := hshaped
  have henclosed : x.isParenthesized = true ↔ Enclosed written := hshaped.enclosed_iff
  have hcondition : condition
      = if x.isParenthesized then "if " ++ written ++ " " else "if (" ++ written ++ ") " := rfl
  have hopen : "if (" ++ written ++ ") " = "if " ++ ("(" ++ written ++ ")") ++ " " := by
    have hif : "if (" = "if " ++ "(" := rfl
    have hthen : ") " = ")" ++ " " := rfl
    rw [hif, hthen]
    simp only [String.append_assoc]
  rw [hopen] at hcondition
  refine ⟨henclosed.symm, ?_, ?_, ?_, ?_⟩
  · intro hp
    rw [hp] at hforms
    obtain ⟨name, args, -, -, -, htext, hname | ⟨hop, rfl⟩⟩ := hforms
    · rw [htext]
      exact .inl hname.append
    · rw [htext, String.toList_append]
      exact .inr ⟨hop, prefix_append _ _⟩
  · intro he
    rw [hcondition, if_pos (henclosed.mpr he)]
  · intro he
    rw [hcondition, if_neg (fun hp => he (henclosed.mp hp))]
  · rw [hcondition]
    unfold Shaped at hforms
    split at hforms
    next hp =>
      obtain ⟨inner, hinner, hone, htext⟩ := hforms
      exact ⟨inner, hinner, hone, by rw [if_pos hp, htext]⟩
    next hp =>
      have hnot : ¬ Enclosed written := fun he => hp (henclosed.mpr he)
      exact ⟨written, hshaped.legible.1, hnot, if_neg hp⟩

/-- The expression that an instruction computes or tests. -/
def Instruction.expression? : Instruction → Option (Operator × Ty × List Rvalue)
  | .rvalue (.expression op ty operands) => some (op, ty, operands)
  | .branch (.expression op ty operands) _ _ => some (op, ty, operands)
  | _ => none

/-- Whether the first expression of a module passes the printer's test, and its text where nothing
    was printed before. -/
def firstExpression (outcome : Except ReadError (List Instruction)) : Option (Bool × String) :=
  (outcome.toOption.bind (·.findSome? (·.expression?))).map fun e =>
    let x := Rvalue.expression e.1 e.2.1 e.2.2
    (x.isParenthesized, (x.source.run {}).1)

/-- The first expression found in a module stands in it. -/
theorem exists_of_firstExpression {outcome : Except ReadError (List Instruction)} {p : Bool}
    (h : firstExpression outcome = some (p, text)) :
    ∃ ir op ty operands, outcome = .ok ir ∧ (Rvalue.expression op ty operands).StandsIn ir
      ∧ (Rvalue.expression op ty operands).isParenthesized = p
      ∧ ((Rvalue.expression op ty operands).source.run {}).1 = text := by
  obtain ⟨⟨op, ty, operands⟩, he, h⟩ := Option.map_eq_some_iff.mp h
  cases h
  cases outcome with
  | error e => cases he
  | ok ir =>
    obtain ⟨i, hi, he⟩ := exists_of_findSome?_eq_some he
    refine ⟨ir, op, ty, operands, rfl, .value hi ?_ .self, rfl, rfl⟩
    unfold Instruction.expression? at he
    split at he
    all_goals cases he
    all_goals exact mem_cons_self

theorem CompilationUnit.isLegible_fresh : CompilationUnit.fresh.symbols.IsLegible := by
  dsimp only [CompilationUnit.fresh]
  refine SymbolTable.names_withBuiltins ?_
  intro ty hty name hname _
  exact Ty.isLegible_of_name? hname (legible_of_isRun (Ty.isSymbol_of_builtin ty hty name hname).1)

/-- A comparison with a sum as a condition. -/
def comparesSum : String :=
  "(declare()float x)(if(expression bool <(var_ref x)(expression float +(var_ref x)(var_ref x)))()())"

theorem readModule_parenthesizes_comparesSum :
    ∃ ir op ty operands, (readModule true .fresh comparesSum).outcome = .ok ir
      ∧ (Rvalue.expression op ty operands).StandsIn ir
      ∧ Enclosed "(x < (x + x))"
      ∧ ((conditionText (.expression op ty operands)).run {}).1 = "if (x < (x + x)) " := by
  have hfirst : firstExpression (readModule true .fresh comparesSum).outcome
      = some (true, "(x < (x + x))") := by decide +kernel
  obtain ⟨ir, op, ty, operands, hread, hstands, hp, htext⟩ := exists_of_firstExpression hfirst
  obtain ⟨hiff, -, hcondition, -⟩ := readModule_parenthesizes true .fresh comparesSum ir
    CompilationUnit.isLegible_fresh hread op ty operands hstands {}
  rw [htext] at hiff hcondition
  have henclosed := hiff.mpr hp
  exact ⟨ir, op, ty, operands, hread, hstands, henclosed, hcondition henclosed⟩

/-- A unit in which `T` is a struct type of that name, or without a name. -/
def CompilationUnit.withStruct (name : Option String) : CompilationUnit :=
  ⟨{}, (SymbolTable.withBuiltins.addType "T" (.struct 0 name [⟨.scalar .float, "a"⟩])).2⟩

/-- A conversion to `T`. -/
def convertsToStruct : String := "(declare()float x)(if(expression T f2b(var_ref x))()())"

/-- Types that are not written legibly: without a name a type begins with a parenthesis, and with the
    empty name the argument list alone is written. -/
theorem converted_text_of_odd_types :
    (∃ ir op ty operands, (readModule true (.withStruct none) convertsToStruct).outcome = .ok ir
      ∧ (Rvalue.expression op ty operands).StandsIn ir
      ∧ (Rvalue.expression op ty operands).isParenthesized = false
      ∧ ¬ StartsWithLetter ((Rvalue.expression op ty operands).source.run {}).1)
    ∧ ∃ ir op ty operands,
      (readModule true (.withStruct (some "")) convertsToStruct).outcome = .ok ir
      ∧ (Rvalue.expression op ty operands).StandsIn ir
      ∧ (Rvalue.expression op ty operands).isParenthesized = false
      ∧ Enclosed ((Rvalue.expression op ty operands).source.run {}).1 := by
  have hnone : firstExpression (readModule true (.withStruct none) convertsToStruct).outcome
      = some (false, "(struct ((float a)))(x)") := by decide +kernel
  have hempty : firstExpression (readModule true (.withStruct (some "")) convertsToStruct).outcome
      = some (false, "(x)") := by decide +kernel
  refine ⟨?_, ?_⟩
  · obtain ⟨ir, op, ty, operands, hread, hstands, hp, htext⟩ := exists_of_firstExpression hnone
    refine ⟨ir, op, ty, operands, hread, hstands, hp, ?_⟩
    rw [htext]
    decide
  · obtain ⟨ir, op, ty, operands, hread, hstands, hp, htext⟩ := exists_of_firstExpression hempty
    refine ⟨ir, op, ty, operands, hread, hstands, hp, "x", by decide, ?_⟩
    rw [htext]
    rfl

end Shading
