/-
  Shading.Proofs.Glsl.Fidelity — which stand-ins are written.

  Types, packed texture coordinates and loops are all that may have no source form.  `constructs` lists
  those of a module in the order in which they are printed, each where the source has a place for it:

      types         declarations, parameters, results, conversions, vectors from scalars, and constants
                    that are no scalars
      coordinates   lookups with a comparator or a projector, which become further components
      loops         all of them

  The bodies of mere prototypes are not printed.

  Main results:
    * `placeholders_printSource` — a stand-in is written for each construct without a source form, in
      order, and none otherwise,
    * `printSource_fidelity_iff` — so a module is printed in part if there is such a construct.
-/
import Shading.Proofs.Built
import Shading.Glsl.Module

namespace Shading

open Instruction

/-! ## §1. Constructs -/

/-- What may have no source form. -/
inductive Construct where
  | type (ty : Ty)
  /-- A texture coordinate with so many components. -/
  | coordinate (components : Nat)
  | loop (controls : Controls)

/-- Is the type written with a name?  The error type, anonymous struct types and function types have
    none, nor have arrays of them. -/
def Ty.hasForm : Ty → Bool
  | .array element _ => Ty.hasForm element
  | .error => false
  | .struct _ name _ => name.isSome
  | .function _ _ _ => false
  | _ => true

/-- The stand-in for a type without a name. -/
def Ty.standIn : Ty → Placeholder
  | .array element _ => Ty.standIn element
  | .error => .errorType
  | ty => .anonymousType ty

namespace Construct

/-- Is there a source form?  A coordinate has up to four components, and a loop counts or has no
    controls at all. -/
def hasForm : Construct → Bool
  | type ty => ty.hasForm
  | coordinate components => components ≤ 4
  | loop controls => controls.isCanonical || controls.isBare

/-- The stand-in for a construct without a source form. -/
def standIn : Construct → Placeholder
  | type ty => ty.standIn
  | coordinate components => .wideCoordinate components
  | loop _ => .partialLoop

/-- The stand-ins for the constructs that have no source form. -/
def standIns (ks : List Construct) : List Placeholder :=
  (ks.filter fun k => !k.hasForm).map standIn

end Construct

mutual

/-- The types in a constant: that of each part which is no scalar. -/
def Constant.constructs : Constant → List Construct
  | ⟨ty, .array elements⟩ =>
    (if ty.isScalar then [] else [.type ty]) ++ Constant.constructsAll elements
  | ⟨ty, _⟩ => if ty.isScalar then [] else [.type ty]

/-- The types in the constants. -/
def Constant.constructsAll : List Constant → List Construct
  | [] => []
  | c :: rest => Constant.constructs c ++ Constant.constructsAll rest

end

/-- The number of components of a coordinate with reference and projector: each is one more, and a
    reference comes third if the sampler has one dimension and is no array. -/
def Texture.packedComponents (t : Texture) : Nat :=
  let oneDimensional := t.sampler.ty.sampler?.any fun s => s.dim = .d1 ∧ ¬ s.array
  t.coordinate.ty.components + (if t.comparator.isSome ∧ oneDimensional then 1 else 0)
    + (if t.comparator.isSome then 1 else 0) + (if t.projector.isSome then 1 else 0)

mutual

/-- What may have no source form in a value. -/
def Rvalue.constructs : Rvalue → List Construct
  | .expression op ty operands =>
    (if op.isConversion then [.type ty] else []) ++ Rvalue.constructsAll operands
  | .swizzle value mask ty =>
    (if value.ty.isScalar ∧ ¬ mask.isFirstOnly then [.type ty] else []) ++ Rvalue.constructs value
  | .dereference d => Dereference.constructs d
  | .constant c => c.constructs
  | .call _ _ _ args => Rvalue.constructsAll args
  | .texture t => Texture.constructs t

/-- What may have no source form in the values. -/
def Rvalue.constructsAll : List Rvalue → List Construct
  | [] => []
  | r :: rest => Rvalue.constructs r ++ Rvalue.constructsAll rest

/-- What may have no source form in a value that may be missing. -/
def Rvalue.constructsOption : Option Rvalue → List Construct
  | none => []
  | some r => Rvalue.constructs r

/-- What may have no source form in a dereference. -/
def Dereference.constructs : Dereference → List Construct
  | .var _ => []
  | .index base index _ => Rvalue.constructs base ++ Rvalue.constructs index
  | .field base _ _ => Rvalue.constructs base

/-- What may have no source form in a lookup. -/
def Texture.constructs : Texture → List Construct
  | ⟨lookup, ty, sampler, coordinate, offsets, projector, comparator⟩ =>
    Dereference.constructs sampler
      ++ (if comparator.isSome || projector.isSome then
          [.coordinate (Texture.packedComponents
            ⟨lookup, ty, sampler, coordinate, offsets, projector, comparator⟩)]
        else [])
      ++ Rvalue.constructs coordinate ++ Rvalue.constructsOption comparator
      ++ Rvalue.constructsOption projector ++ Lookup.constructs lookup

/-- What may have no source form in what chooses the level of detail. -/
def Lookup.constructs : Lookup → List Construct
  | .plain => []
  | .bias amount => Rvalue.constructs amount
  | .level lod => Rvalue.constructs lod
  | .gradient dx dy => Rvalue.constructs dx ++ Rvalue.constructs dy
  | .fetch lod => Rvalue.constructs lod

end

/-- What may have no source form in an assignment. -/
def Assignment.constructs (a : Assignment) : List Construct :=
  Rvalue.constructsOption a.condition ++ a.lhs.constructs ++ a.rhs.constructs

/-- What may have no source form in the head of a loop. -/
def Controls.constructs (c : Controls) : List Construct :=
  .loop c :: (Rvalue.constructsOption c.start ++ Rvalue.constructsOption c.stop
    ++ Rvalue.constructsOption c.increment)

mutual

/-- What may have no source form in an instruction. -/
def Instruction.constructs : Instruction → List Construct
  | .declare v => [.type v.ty]
  | .function _ signatures => Signature.constructsAll signatures
  | .assign a => a.constructs
  | .ret value => Rvalue.constructsOption value
  | .branch condition thenBody elseBody =>
    condition.constructs ++ Instruction.constructsAll thenBody ++ Instruction.constructsAll elseBody
  | .loop _ controls body => controls.constructs ++ Instruction.constructsAll body
  | .jump _ _ => []
  | .rvalue r => r.constructs

/-- What may have no source form in the instructions. -/
def Instruction.constructsAll : List Instruction → List Construct
  | [] => []
  | i :: rest => Instruction.constructs i ++ Instruction.constructsAll rest

/-- What may have no source form in an overload; the body counts if the overload is defined. -/
def Signature.constructs : Signature → List Construct
  | ⟨returnType, parameters, body, isDefined⟩ =>
    .type returnType :: (parameters.map fun v => .type v.ty)
      ++ (if isDefined then Instruction.constructsAll body else [])

/-- What may have no source form in the overloads. -/
def Signature.constructsAll : List Signature → List Construct
  | [] => []
  | s :: rest => Signature.constructs s ++ Signature.constructsAll rest

end

/-! ## §2. What is noted -/

namespace Construct

@[simp] theorem standIns_append (ks ks' : List Construct) :
    standIns (ks ++ ks') = standIns ks ++ standIns ks' := by
  simp [standIns]

@[simp] theorem standIns_cons (k : Construct) (ks : List Construct) :
    standIns (k :: ks) = (if k.hasForm then [] else [k.standIn]) ++ standIns ks := by
  cases hform : k.hasForm <;> simp [standIns, hform]

end Construct

/-- The computation notes the stand-ins for those of the constructs that have no source form, in this
    order, and no others. -/
def Notes {α : Type} (x : SourceM α) (ks : List Construct) : Prop :=
  ∀ s, (x.run s).2.placeholders = (Construct.standIns ks).reverse ++ s.placeholders

namespace Notes

variable {α β : Type} {x : SourceM α} {k : α → SourceM β} {ks ks' : List Construct}

theorem pure (a : α) : Notes (Pure.pure a : SourceM α) [] := fun _ => rfl

/-- **One computation after the other.** -/
theorem bind (h : Notes x ks) (hk : ∀ a, Notes (k a) ks') : Notes (x >>= k) (ks ++ ks') := by
  intro s
  show ((k (x.run s).1).run (x.run s).2).2.placeholders = _
  rw [hk, h, Construct.standIns_append, List.reverse_append, List.append_assoc]

/-- Only the stand-ins count. -/
theorem as (h : Notes x ks)
    (hks : Construct.standIns ks = Construct.standIns ks' := by simp) : Notes x ks' := by
  intro s
  rw [h, hks]

theorem andThen (h : Notes x ks) (f : α → β) : Notes (do let a ← x; Pure.pure (f a)) ks :=
  (h.bind fun a => .pure (f a)).as

/-- A construct without a form is noted by its stand-in. -/
theorem placeholder {c : Construct} (hform : c.hasForm = false) :
    Notes (SourceM.placeholder c.standIn) [c] := by
  intro s
  rw [Construct.standIns_cons, hform]
  rfl

theorem varName (v : Var) : Notes (SourceM.varName v) [] := by
  intro s
  unfold SourceM.varName
  split <;> rfl

theorem withOwnTemporaries {x : SourceM String} (h : Notes x ks) :
    Notes (SourceM.withOwnTemporaries x) ks := fun s => h { s with temporaries := .empty }

end Notes

/-! ## §3. Types and constants -/

/-- A type that is written with its name, if it has one. -/
theorem Ty.notes_name {ty : Ty}
    (hname : SourceM.typeName ty = match ty.name? with
      | some name => pure name
      | none => do
        SourceM.placeholder (.anonymousType ty)
        pure ty.text)
    (hform : ty.hasForm = ty.name?.isSome) (hstandIn : ty.standIn = .anonymousType ty) :
    Notes (SourceM.typeName ty) [.type ty] := by
  rw [hname]
  cases hnamed : ty.name? with
  | some name =>
    refine (Notes.pure name).as ?_
    simp [Construct.hasForm, hform, hnamed]
  | none =>
    rw [← hstandIn]
    refine Notes.andThen (Notes.placeholder (c := .type ty) ?_) _
    rw [Construct.hasForm, hform, hnamed]
    rfl

/-- **A stand-in is written for a type if there is no name for it.** -/
theorem Ty.notes_typeName : ∀ ty : Ty, Notes (SourceM.typeName ty) [.type ty]
  | .array element length => by
    rw [SourceM.typeName]
    refine ((Ty.notes_typeName element).andThen _).as ?_
    rw [Construct.standIns_cons, Construct.standIns_cons]
    rfl
  | .error => by
    rw [SourceM.typeName]
    exact (Notes.placeholder (c := .type .error) rfl).andThen _
  | .void => Ty.notes_name rfl rfl rfl
  | .scalar _ => Ty.notes_name rfl rfl rfl
  | .vector _ _ => Ty.notes_name rfl rfl rfl
  | .matrix _ _ => Ty.notes_name rfl rfl rfl
  | .sampler _ => Ty.notes_name rfl rfl rfl
  | .struct _ _ _ => Ty.notes_name rfl rfl rfl
  | .function _ _ _ => Ty.notes_name rfl rfl rfl

theorem Constant.notes_sources {cs : List Constant}
    (h : ∀ c ∈ cs, Notes c.source c.constructs) :
    Notes (Constant.sources cs) (Constant.constructsAll cs) := by
  induction cs with
  | nil => exact .pure []
  | cons c rest ih =>
    obtain ⟨hc, hrest⟩ := List.forall_mem_cons.mp h
    rw [Constant.sources]
    exact hc.bind fun text => (ih hrest).andThen _

/-- The text of a constant notes its types, and its elements in order. -/
theorem Constant.Checked.notes_source {c : Constant} (h : c.Checked) :
    Notes c.source c.constructs := by
  induction h with
  | @components ty value plain =>
    have hparts (texts : List String) : Notes (if ty.isScalar then pure (commas texts)
        else do
          let name ← SourceM.typeName ty
          pure (name ++ argumentList texts)) (if ty.isScalar then [] else [.type ty]) := by
      split
      next => exact .pure _
      next => exact (Ty.notes_typeName ty).andThen _
    cases value with
    | array elements => exact absurd rfl (plain elements)
    | float | int | uint | bool => exact hparts _
  | @array element length elements parts ih =>
    rw [Constant.source, Constant.constructs]
    exact (Ty.notes_typeName _).bind fun name => (Constant.notes_sources ih).andThen _

/-! ## §4. Values -/

/-- Conversions, and nothing else, are written as such. -/
theorem spelling_eq_conversion_iff {op : Operator} (ty : Ty) {operands : List Rvalue}
    (harity : operands.length = op.arity) :
    spelling op ty operands = .conversion ↔ op.isConversion = true := by
  constructor
  · intro h
    unfold spelling at h
    split at h
    next =>
      unfold spellingOfOne at h
      split at h
      next hconversion => exact hconversion
      next =>
        exfalso
        repeat' split at h
        all_goals cases h
    next =>
      exfalso
      unfold spellingOfTwo at h
      repeat' split at h
      all_goals cases h
    next => cases h
  · intro h
    have hone : op.arity = 1 := by
      cases op <;> first | rfl | cases h
    rw [hone] at harity
    obtain ⟨x, rfl⟩ := List.length_eq_one_iff.mp harity
    exact if_pos h

theorem Rvalue.notes_sources {rs : List Rvalue} (h : ∀ r ∈ rs, Notes r.source r.constructs) :
    Notes (Rvalue.sources rs) (Rvalue.constructsAll rs) := by
  induction rs with
  | nil => exact .pure []
  | cons r rest ih =>
    obtain ⟨hr, hrest⟩ := List.forall_mem_cons.mp h
    rw [Rvalue.sources]
    exact hr.bind fun text => (ih hrest).andThen _

theorem Rvalue.notes_sourceOption {r : Option Rvalue} (h : ∀ x ∈ r, Notes x.source x.constructs) :
    Notes (Rvalue.sourceOption r) (Rvalue.constructsOption r) := by
  cases r with
  | none => exact .pure none
  | some r =>
    rw [Rvalue.sourceOption]
    exact (h r rfl).andThen _

/-- The operands of a lookup are written in the order they are noted. -/
theorem Lookup.notes_sources {lookup : Lookup}
    (h : ∀ x ∈ lookup.operands, Notes x.source x.constructs) :
    Notes (Lookup.sources lookup) lookup.constructs := by
  cases lookup with
  | plain => exact .pure []
  | bias r | level r | fetch r =>
    rw [Lookup.sources]
    exact (h r (List.mem_singleton_self r)).andThen _
  | gradient dx dy =>
    obtain ⟨hdx, hdy⟩ := List.forall_mem_cons.mp h
    rw [Lookup.sources]
    exact hdx.bind fun x => (hdy dy (List.mem_singleton_self dy)).andThen _

/-- The packed coordinate has as many components as the text gives it. -/
theorem Texture.coordinateSize_eq {t : Texture} {s : Sampler}
    (hsource : t.sampler.ty.sampler? = some s) :
    coordinateSize s t.coordinate.ty t.comparator.isSome t.projector.isSome = t.packedComponents := by
  unfold coordinateSize needsPadding Texture.packedComponents
  rw [hsource]
  cases t.comparator.isSome <;> cases t.projector.isSome <;> cases harray : s.array <;>
    by_cases hdim : s.dim = .d1 <;> simp [hdim, harray]

/-- A coordinate is too wide with more than four components. -/
theorem Notes.packed {α : Type} {x : SourceM α} {ks : List Construct} (h : Notes x ks) (packed : Bool)
    (size : Nat) :
    Notes (if packed && 4 < size then do SourceM.placeholder (.wideCoordinate size); x else x)
      ((if packed then [.coordinate size] else []) ++ ks) := by
  cases packed with
  | false => exact h
  | true =>
    by_cases hwide : 4 < size
    · have hform : (Construct.coordinate size).hasForm = false := by simp [Construct.hasForm, hwide]
      rw [decide_eq_true hwide]
      exact (Notes.placeholder hform).bind fun _ => h
    · rw [decide_eq_false hwide]
      exact h.as (by simp [Construct.hasForm, Nat.le_of_not_lt hwide])

/-- The parts of a lookup and its packed coordinate decide what is written for it. -/
theorem Texture.notes_source {s : Sampler} :
    ∀ {t : Texture}, t.sampler.ty.sampler? = some s →
      Notes t.sampler.source t.sampler.constructs →
      Notes t.coordinate.source t.coordinate.constructs →
      (∀ x ∈ t.lookup.operands, Notes x.source x.constructs) →
      (∀ x ∈ t.projector, Notes x.source x.constructs) →
      (∀ x ∈ t.comparator, Notes x.source x.constructs) →
      Notes t.source t.constructs
  | ⟨lookup, ty, sampler, coordinate, offsets, projector, comparator⟩, hsource, hsampler, hcoordinate,
    hlevels, hprojector, hcomparator => by
    have hsize := Texture.coordinateSize_eq hsource
    dsimp only at hsource hsampler hcoordinate hprojector hcomparator hsize
    simp only [Texture.source, Texture.constructs, hsource, hsize]
    generalize Texture.packedComponents _ = size
    exact (hsampler.bind fun through => (hcoordinate.bind fun place =>
      (Rvalue.notes_sourceOption hcomparator).bind fun compared =>
      (Rvalue.notes_sourceOption hprojector).bind fun projected =>
      (Lookup.notes_sources hlevels).andThen _).packed _ size).as

/-- **What is written for a value.** -/
theorem Rvalue.Checked.notes_source {r : Rvalue} (h : r.Checked) : Notes r.source r.constructs := by
  induction h with
  | @expression op ty operands arity parts ih =>
    have hoperands := Rvalue.notes_sources ih
    have hconversion := spelling_eq_conversion_iff ty arity
    rw [Rvalue.source, Rvalue.constructs]
    split
    next hspelling =>
      rw [if_pos (hconversion.mp hspelling)]
      exact (Ty.notes_typeName ty).bind fun name => hoperands.andThen _
    next hspelling =>
      rw [if_neg fun h => hspelling (hconversion.mpr h)]
      exact hoperands.andThen _
  | @swizzle value mask ty part ih =>
    rw [Rvalue.source, Rvalue.constructs]
    split
    next hscalar =>
      split
      next hfirst => exact ih.as (by simp [hfirst])
      next hfirst =>
        rw [if_pos ⟨hscalar, hfirst⟩]
        exact (Ty.notes_typeName ty).bind fun name => ih.andThen _
    next hscalar =>
      rw [if_neg fun h => hscalar h.1]
      exact ih.andThen _
  | constant value => exact value.notes_source
  | var v => exact .varName v
  | @index base index ty part place ih1 ih2 =>
    rw [Rvalue.source, Dereference.source]
    exact ih1.bind fun whole => ih2.andThen _
  | field part ih =>
    rw [Rvalue.source, Dereference.source]
    exact ih.andThen _
  | @call callee signature ty args parts ih =>
    rw [Rvalue.source]
    exact (Rvalue.notes_sources ih).andThen _
  | texture source through place levels divisor reference ih1 ih2 ih3 ih4 ih5 =>
    exact Texture.notes_source source ih1 ih2 ih3 ih4 ih5

/-! ## §5. Instructions -/

theorem Var.notes_declaration (v : Var) (qualifiers : List String) :
    Notes (v.declaration qualifiers) [.type v.ty] := by
  unfold Var.declaration
  exact ((Ty.notes_typeName v.ty).bind fun type => (Notes.varName v).andThen _).as

theorem Var.notes_parameterTexts : ∀ vs : List Var,
    Notes (Var.parameterTexts vs) (vs.map fun v => .type v.ty)
  | [] => .pure []
  | v :: rest => by
    rw [Var.parameterTexts]
    exact (v.notes_declaration _).bind fun text => (Var.notes_parameterTexts rest).andThen _

theorem notes_conditionText {condition : Rvalue} (h : condition.Checked) :
    Notes (conditionText condition) condition.constructs := h.notes_source.andThen _

/-- An assignment notes its condition, its target and its value. -/
theorem Assignment.Checked.notes_source {a : Assignment} (h : a.Checked) :
    Notes a.source a.constructs := by
  obtain ⟨condition, lhs, rhs, mask⟩ := a
  have hlhs : Notes lhs.source lhs.constructs := h.lhs.notes_source
  have hrest (head : String) := hlhs.bind fun target => h.rhs.notes_source.andThen fun value =>
    head ++ target ++ (if mask = fullMask lhs.ty then "" else "." ++ mask.letters) ++ " = " ++ value
      ++ ";"
  cases condition with
  | none => exact hrest ""
  | some condition => exact ((notes_conditionText (h.condition condition rfl)).bind hrest).as (by
      simp [Assignment.constructs, Rvalue.constructsOption])

theorem notes_returnText {value : Option Rvalue} (h : ∀ x ∈ value, x.Checked) :
    Notes (returnText value) (Rvalue.constructsOption value) := by
  cases value with
  | none => exact .pure _
  | some value => exact (h value rfl).notes_source.andThen _

section

variable {k : String → SourceM String} {ks : List Construct} (hk : ∀ text, Notes (k text) ks)

include hk

theorem notes_counter (counter : Option Var) :
    Notes (match counter with
      | some v => do
        let name ← SourceM.varName v
        k name
      | none => do
        let name ← pure "_"
        k name) ks := by
  cases counter with
  | none => exact (Notes.pure "_").bind hk
  | some v => exact (Notes.varName v).bind hk

/-- A control that is left out notes nothing. -/
theorem notes_control {r : Option Rvalue} (h : ∀ x ∈ r, x.Checked) :
    Notes (match r with
      | some r => do
        let control ← r.source
        k control
      | none => do
        let control ← pure "_"
        k control) (Rvalue.constructsOption r ++ ks) := by
  cases r with
  | none => exact (Notes.pure "_").bind hk
  | some r => exact (h r rfl).notes_source.bind hk

/-- The end of a loop is written if there is a comparison. -/
theorem notes_stop {comparison : Option Operator} {stop : Option Rvalue}
    (hpaired : comparison.isSome = stop.isSome) (h : ∀ x ∈ stop, x.Checked) :
    Notes (match comparison, stop with
      | some op, some r => do
        let limit ← r.source
        let control ← pure (op.name ++ " " ++ limit)
        k control
      | _, _ => do
        let control ← pure "_"
        k control) (Rvalue.constructsOption stop ++ ks) := by
  cases comparison with
  | none =>
    cases stop with
    | none => exact (Notes.pure "_").bind hk
    | some r => cases hpaired
  | some op =>
    cases stop with
    | none => cases hpaired
    | some r => exact (h r rfl).notes_source.bind fun limit => (Notes.pure _).bind hk

end

section

variable {c : Controls} (h : c.Checked)

include h

/-- The values of a loop with some of its controls are all written, and so is a stand-in. -/
theorem notes_partialHead (hform : (Construct.loop c).hasForm = false) :
    Notes (partialHead c) c.constructs := by
  unfold partialHead
  exact ((Notes.placeholder hform).bind fun _ => notes_counter (fun counter =>
    notes_control (fun start => notes_stop (fun stop => notes_control (fun increment => .pure _)
      h.increment) h.paired h.stop) h.start) c.counter).as (by simp [Controls.constructs])

/-- A loop that counts is written as such; for others it matters whether there are controls at all. -/
theorem notes_loopHead : Notes (loopHead c) c.constructs := by
  by_cases hcanonical : c.isCanonical = true
  · have hform : (Construct.loop c).hasForm = true := by rw [Construct.hasForm, hcanonical, Bool.true_or]
    simp only [Controls.isCanonical, Bool.and_eq_true, Option.isSome_iff_exists] at hcanonical
    obtain ⟨⟨⟨⟨⟨counter, hcounter⟩, start, hstart⟩, stop, hstop⟩, increment, hincrement⟩, op, hop⟩ :=
      hcanonical
    have hcompares := h.compares op hop
    -- every comparison has a negation, so the loop says how long it goes on
    obtain ⟨goesOn, hgoesOn⟩ : ∃ goesOn, op.negation? = some goesOn := by
      cases op <;> first | exact ⟨_, rfl⟩ | cases hcompares
    unfold loopHead forHead
    rw [hcounter, hstart, hstop, hincrement, hop, Option.bind_some, hgoesOn]
    exact ((Notes.varName counter).bind fun name => (h.start start hstart).notes_source.bind fun _ =>
      (h.stop stop hstop).notes_source.bind fun _ =>
      (h.increment increment hincrement).notes_source.andThen _).as (by
        simp [Controls.constructs, hform, hstart, hstop, hincrement, Rvalue.constructsOption])
  · have hhead : loopHead c = if c.isBare then pure "while (true) " else partialHead c := by
      unfold loopHead
      split
      next hcounter hstart hstop hincrement hgoesOn =>
        obtain ⟨op, hop, -⟩ := Option.bind_eq_some_iff.mp hgoesOn
        rw [Controls.isCanonical, hcounter, hstart, hstop, hincrement, hop] at hcanonical
        exact absurd rfl hcanonical
      next => rfl
    rw [hhead]
    split
    next hbare =>
      have hform : (Construct.loop c).hasForm = true := by rw [Construct.hasForm, hbare, Bool.or_true]
      simp only [Controls.isBare, Bool.and_eq_true, Option.isNone_iff_eq_none] at hbare
      obtain ⟨⟨⟨-, hstart⟩, hstop⟩, hincrement⟩ := hbare
      exact (Notes.pure _).as (by
        simp [Controls.constructs, hform, hstart, hstop, hincrement, Rvalue.constructsOption])
    next hbare => exact notes_partialHead h (by simp [Construct.hasForm, hcanonical, hbare])

end

theorem Instruction.notes_sources {depth : Nat} {is : List Instruction}
    (h : ∀ i ∈ is, Notes (i.source depth) i.constructs) :
    Notes (sources depth is) (constructsAll is) := by
  induction is with
  | nil => exact .pure []
  | cons i rest ih =>
    obtain ⟨hi, hrest⟩ := List.forall_mem_cons.mp h
    rw [sources]
    exact hi.bind fun text => (ih hrest).andThen _

/-- What is written for overloads. -/
theorem Signature.notes_sources {depth : Nat} (function : String) {ss : List Signature}
    (h : ∀ s ∈ ss, ∀ i ∈ s.body, Notes (i.source (depth + 1)) i.constructs) :
    Notes (Signature.sources depth function ss) (Signature.constructsAll ss) := by
  induction ss with
  | nil => exact .pure []
  | cons s rest ih =>
    obtain ⟨returnType, parameters, body, isDefined⟩ := s
    obtain ⟨hbody, hrest⟩ := List.forall_mem_cons.mp h
    have hblock := Instruction.notes_sources hbody
    have htype := Ty.notes_typeName returnType
    have hparams := Var.notes_parameterTexts parameters
    rw [Signature.sources, Signature.source]
    refine Notes.bind (.withOwnTemporaries ?_) fun text => (ih hrest).andThen _
    cases isDefined with
    | true =>
      exact (htype.bind fun type => hparams.bind fun params => hblock.andThen _).as (by
        simp [Signature.constructs])
    | false =>
      exact (htype.bind fun type => hparams.andThen _).as (by simp [Signature.constructs])

/-- **What is written for an instruction.** -/
theorem Instruction.Checked.notes_source {i : Instruction} (h : i.Checked) :
    ∀ depth, Notes (i.source depth) i.constructs := by
  induction h with
  | declare v => exact fun _ => (v.notes_declaration _).andThen _
  | @function name signatures bodies ih =>
    intro depth
    rw [source]
    exact (Signature.notes_sources name fun s hs i hi => ih s hs i hi (depth + 1)).andThen _
  | assign parts => exact fun _ => parts.notes_source
  | ret part => exact fun _ => notes_returnText part
  | @branch condition thenBody elseBody part first second ih1 ih2 =>
    intro depth
    have hthen := notes_sources fun i hi => ih1 i hi (depth + 1)
    have helse := notes_sources fun i hi => ih2 i hi (depth + 1)
    rw [source]
    exact ((notes_conditionText part).bind fun head => hthen.bind fun thenTexts =>
      helse.andThen _).as (by simp [Instruction.constructs])
  | @loop id controls body parts inner ih =>
    intro depth
    rw [source]
    exact (notes_loopHead parts).bind fun head =>
      (notes_sources fun i hi => ih i hi (depth + 1)).andThen _
  | jump mode target => exact fun _ => .pure _
  | rvalue part => exact fun _ => part.notes_source.andThen _

/-! ## §6. Modules -/

/-- **A stand-in is written for each construct without a source form**, in order, and none otherwise. -/
theorem placeholders_printSource {ir : List Instruction} (h : ∀ i ∈ ir, i.Checked) :
    (printSource ir).placeholders = Construct.standIns (constructsAll ir) := by
  have hnotes := notes_sources (fun i hi => (h i hi).notes_source 0) {}
  show ((sources 0 ir).run {}).2.placeholders.reverse = _
  rw [hnotes, List.append_nil, List.reverse_reverse]

/-- Nothing stands in for anything if every construct has a form. -/
theorem Construct.standIns_eq_nil_iff {ks : List Construct} :
    standIns ks = [] ↔ ∀ k ∈ ks, k.hasForm = true := by
  simp [standIns]

/-- **Fidelity is reported exactly.**  A module that was put together node by node or read is printed
    in part if one of the types, coordinates and loops that are printed has no source form, and exactly
    otherwise. -/
theorem printSource_fidelity_iff (ir : List Instruction)
    (h : (∀ i ∈ ir, i.Built) ∨ ∃ scan u text, (readModule scan u text).outcome = .ok ir) :
    ((printSource ir).fidelity = .part ↔ ∃ k ∈ Instruction.constructsAll ir, k.hasForm = false)
      ∧ ((printSource ir).fidelity = .exact
        ↔ ∀ k ∈ Instruction.constructsAll ir, k.hasForm = true) := by
  have hchecked : ∀ i ∈ ir, i.Checked := by
    rcases h with hbuilt | ⟨scan, u, text, hread⟩
    · exact fun i hi => (hbuilt i hi).checked
    · exact checked_of_readModule hread
  have hexact : (printSource ir).fidelity = .exact
      ↔ ∀ k ∈ constructsAll ir, k.hasForm = true := by
    rw [← Construct.standIns_eq_nil_iff, ← placeholders_printSource hchecked, Source.fidelity,
      ← List.isEmpty_iff]
    cases (printSource ir).placeholders.isEmpty <;> simp
  refine ⟨?_, hexact⟩
  have hpart : (printSource ir).fidelity = .part ↔ ¬ (printSource ir).fidelity = .exact := by
    cases (printSource ir).fidelity <;> simp
  rw [hpart, hexact]
  simp

/-- An overload with a loop that has a counter and nothing else. -/
def countsOnly (isDefined : Bool) : List Instruction :=
  [.function "f" [⟨.array (.scalar .float) 2, [],
    [.loop ⟨0⟩ { counter := some ⟨0, { name := "i", ty := .scalar .int }⟩ } []], isDefined⟩]]

/-- A lookup in a shadow cube with a projector. -/
def wideLookup : String :=
  "(declare (uniform) samplerCubeShadow s)(declare () vec3 v)(declare () float x)" ++
  "(tex (var_ref s) (var_ref v) (0 0 0) (var_ref x) (var_ref x))"

theorem printSource_fidelity_iff_countsOnly :
    (printSource (countsOnly true)).fidelity = .part
      ∧ (printSource (countsOnly false)).fidelity = .exact
      ∧ ∃ ir, (readModule true .fresh wideLookup).outcome = .ok ir
        ∧ (printSource ir).fidelity = .part := by
  have hbuilt : ∀ isDefined, ∀ i ∈ countsOnly isDefined, i.Built := by
    intro isDefined i hi
    obtain rfl := List.mem_singleton.mp hi
    refine .function "f" fun sig hsig j hj => ?_
    obtain rfl := List.mem_singleton.mp hsig
    obtain rfl := List.mem_singleton.mp hj
    exact .loop ⟨0⟩ (.unending _ nofun nofun) nofun
  refine ⟨?_, ?_, ?_⟩
  · exact (printSource_fidelity_iff (countsOnly true) (.inl (hbuilt true))).1.mpr (by decide +kernel)
  · exact (printSource_fidelity_iff (countsOnly false) (.inl (hbuilt false))).2.mpr (by decide +kernel)
  · obtain ⟨ir, hread, hwide⟩ := exists_ok_of_any
      (show (readModule true .fresh wideLookup).outcome.toOption.any (fun ir =>
        (Instruction.constructsAll ir).any fun k => k.hasForm = false) = true by decide +kernel)
    obtain ⟨k, hk, hform⟩ := List.any_eq_true.mp hwide
    exact ⟨ir, hread, (printSource_fidelity_iff ir (.inr ⟨_, _, _, hread⟩)).1.mpr
      ⟨k, hk, of_decide_eq_true hform⟩⟩

end Shading
