/-
  Shading.Proofs.Scan.Renumber — the same text under other numbers.

  Two tables may differ in the numbers of their variables, and the second may know more overloads of
  a function than the first.  What can be read where the first one holds is then read where the
  second one holds, and is the same but for the numbers.
-/
import Shading.Ir.Text
import Shading.Proofs.Clone.Substitution
import Shading.Proofs.Read.Prototypes

namespace Shading

open List Instruction

/-- The variable under another number. -/
def Var.renumber (number : Nat → Nat) (v : Var) : Var := ⟨number v.id, v.value⟩

/-- The function changes the numbers of variables only. -/
def Renumbers (f : Var → Var) : Prop := ∀ v, (f v).value = v.value

theorem Renumbers.ty {f : Var → Var} (hf : Renumbers f) (v : Var) : (f v).ty = v.ty :=
  congrArg Variable.ty (hf v)

theorem renumbers_renumber (number : Nat → Nat) : Renumbers (Var.renumber number) := fun _ => rfl

/-! ## §1. Types and texts do not depend on numbers -/

section

variable {f : Var → Var} (g : LoopId → LoopId)

theorem Rvalue.map_ty_renameAll (hf : Renumbers f) (rs : List Rvalue) :
    (Rvalue.renameAll f rs).map (·.ty) = rs.map (·.ty) := by
  induction rs with
  | nil => rfl
  | cons r rest ih => rw [Rvalue.renameAll, map_cons, map_cons, ih, r.ty_rename hf.ty]

theorem Rvalue.layouts_renameAll {rs : List Rvalue}
    (h : ∀ r ∈ rs, (r.rename f).layout = r.layout) :
    Rvalue.layouts (Rvalue.renameAll f rs) = Rvalue.layouts rs := by
  induction rs with
  | nil => rfl
  | cons r rest ih =>
    obtain ⟨hr, hrest⟩ := forall_mem_cons.mp h
    rw [Rvalue.renameAll, Rvalue.layouts, hr, ih hrest, Rvalue.layouts]

/-- Numbers do not show in the layout of a value. -/
theorem Rvalue.layout_rename (hf : Renumbers f) (r : Rvalue) : (r.rename f).layout = r.layout := by
  induction r using Rvalue.induction with
  | h r hparts =>
    match r with
    | .expression _ _ rs | .call _ _ _ rs =>
      have hrs : Rvalue.layouts (Rvalue.renameAll f rs) = Rvalue.layouts rs :=
        Rvalue.layouts_renameAll hparts
      simp only [Rvalue.rename, Rvalue.layout, hrs]
    | .swizzle _ _ _ | .dereference (.index _ _ _) | .dereference (.field _ _ _) =>
      simp_all [Rvalue.rename, Dereference.rename, Rvalue.layout, Dereference.layout, Rvalue.parts]
    | .dereference (.var v) =>
      exact congrArg (fun value : Variable => Layout.line [.word "var_ref", .word value.name]) (hf v)
    | .constant _ => rfl
    | .texture ⟨lookup, ty, sampler, coordinate, offsets, projector, comparator⟩ =>
      cases lookup <;> cases projector <;> cases comparator <;>
        simp_all [Rvalue.rename, Texture.rename, Lookup.rename, Rvalue.renameOption, Rvalue.layout,
          Texture.layout, Lookup.layouts, Lookup.name, Rvalue.layoutOr, Rvalue.parts,
          Lookup.operands]

theorem Dereference.layout_rename (hf : Renumbers f) (d : Dereference) :
    (d.rename f).layout = d.layout :=
  Rvalue.layout_rename hf (.dereference d)

theorem Rvalue.layoutOr_renameOption (hf : Renumbers f) (missing : Layout) (r : Option Rvalue) :
    Rvalue.layoutOr missing (Rvalue.renameOption f r) = Rvalue.layoutOr missing r := by
  cases r with
  | none => rfl
  | some r => exact r.layout_rename hf

theorem Rvalue.map_layout_renameOption (hf : Renumbers f) (o : Option Rvalue) :
    (Rvalue.renameOption f o).map (·.layout) = o.map (·.layout) := by
  cases o with
  | none => rfl
  | some r => exact congrArg some (r.layout_rename hf)

theorem Assignment.layout_rename (hf : Renumbers f) (a : Assignment) :
    (a.rename f).layout = a.layout := by
  simp only [Assignment.rename, Assignment.layout, Rvalue.layoutOr_renameOption hf,
    Dereference.layout_rename hf, Rvalue.layout_rename hf]

theorem Controls.layouts_rename (hf : Renumbers f) (c : Controls) :
    (c.rename f).layouts = c.layouts := by
  obtain ⟨counter, start, stop, increment, comparison⟩ := c
  have hcounter : (counter.map f).map (fun v => Layout.word v.name)
      = counter.map fun v => Layout.word v.name := by
    rw [Option.map_map]
    congr 1
    funext v
    exact congrArg (fun value : Variable => Layout.word value.name) (hf v)
  simp only [Controls.rename, Controls.layouts, hcounter, Rvalue.map_layout_renameOption hf]
  cases comparison with
  | none => rfl
  | some op =>
    cases stop with
    | none => rfl
    | some r => simp only [Rvalue.renameOption, r.layout_rename hf]

theorem map_layout_map (hf : Renumbers f) (vs : List Var) :
    (vs.map f).map (·.value.layout) = vs.map (·.value.layout) := by
  rw [map_map]
  congr 1
  funext v
  exact congrArg Variable.layout (hf v)

mutual

theorem Instruction.layout_substitute (hf : Renumbers f) :
    ∀ i : Instruction, (i.substitute f g).layout = i.layout
  | .declare v => congrArg Variable.layout (hf v)
  | .function name signatures => by
    simp only [substitute, layout,
      Signature.layouts_substituteAll hf signatures]
  | .assign a => a.layout_rename hf
  | .ret value => by
    simp only [substitute, layout, Rvalue.map_layout_renameOption hf]
  | .branch condition thenBody elseBody => by
    simp only [substitute, layout, Rvalue.layout_rename hf,
      Instruction.layouts_substituteAll hf thenBody,
      Instruction.layouts_substituteAll hf elseBody]
  | .loop id controls body => by
    simp only [substitute, layout, Controls.layouts_rename hf,
      Instruction.layouts_substituteAll hf body]
  | .jump mode target => rfl
  | .rvalue value => value.layout_rename hf

theorem Instruction.layouts_substituteAll (hf : Renumbers f) :
    ∀ is : List Instruction,
      layouts (substituteAll f g is) = layouts is
  | [] => rfl
  | i :: rest => by
    simp only [Instruction.substituteAll, Instruction.layouts, Instruction.layout_substitute hf i,
      Instruction.layouts_substituteAll hf rest]

theorem Signature.layout_substitute (hf : Renumbers f) :
    ∀ s : Signature, (s.substitute f g).layout = s.layout
  | ⟨returnType, parameters, body, isDefined⟩ => by
    simp only [Signature.substitute, Signature.layout, map_layout_map hf,
      Instruction.layouts_substituteAll hf body]

theorem Signature.layouts_substituteAll (hf : Renumbers f) :
    ∀ ss : List Signature, Signature.layouts (Signature.substituteAll f g ss) = Signature.layouts ss
  | [] => rfl
  | s :: rest => by
    simp only [Signature.substituteAll, Signature.layouts, Signature.layout_substitute hf s,
      Signature.layouts_substituteAll hf rest]

end

/-- **A module is written without numbers.** -/
theorem printModule_substituteAll (hf : Renumbers f) (ir : List Instruction) :
    printModule (substituteAll f g ir) = printModule ir := by
  have htexts : (substituteAll f g ir).map (fun i => i.text ++ "\n")
      = ir.map fun i => i.text ++ "\n" := by
    induction ir with
    | nil => rfl
    | cons i rest ih =>
      rw [substituteAll, map_cons, map_cons, ih, text,
        text, layout_substitute g hf i]
  rw [printModule, printModule, htexts]

end

/-! ## §2. Nodes with replaced variables are made alike -/

variable {r : Rvalue}

section

variable {f : Var → Var} (hf : Renumbers f)

include hf

theorem mkSwizzle_rename {value : Rvalue} {mask : SwizzleMask}
    (h : Rvalue.mkSwizzle value mask = .ok r) :
    Rvalue.mkSwizzle (value.rename f) mask = .ok (r.rename f) := by
  obtain ⟨kind, hty, hmask, rfl⟩ := mkSwizzle_eq_ok h
  have hfind : mask.components.find? (value.ty.rows ≤ ·.index) = none := by
    rw [List.find?_eq_none]
    intro c hc
    have hlt := hmask c hc
    simpa using hlt
  unfold Rvalue.mkSwizzle
  rw [value.ty_rename hf.ty, hfind]
  rcases hty with hty | ⟨size, hty⟩
  · rw [hty]
    rfl
  · rw [hty]
    rfl

theorem mkVariable_rename {v : Var} {d : Dereference} (h : Dereference.mkVariable v = .ok d) :
    Dereference.mkVariable (f v) = .ok (d.rename f) := by
  unfold Dereference.mkVariable at h ⊢
  rw [show (f v).ty = v.ty from congrArg Variable.ty (hf v)]
  split at h
  · cases h
  · cases h
  · cases h
    rfl

theorem mkIndex_rename {base index : Rvalue} {d : Dereference}
    (h : Dereference.mkIndex base index = .ok d) :
    Dereference.mkIndex (base.rename f) (index.rename f) = .ok (d.rename f) := by
  obtain ⟨ty, hty, hindex, rfl⟩ := mkIndex_eq_ok h
  unfold Dereference.mkIndex
  rw [base.ty_rename hf.ty, index.ty_rename hf.ty, hty]
  exact if_pos hindex

theorem mkTexture_rename {lookup : Lookup} {sampler : Dereference} {coordinate : Rvalue}
    {t : Texture} (h : Texture.mkTexture lookup sampler coordinate = .ok t) :
    Texture.mkTexture (lookup.rename f) (sampler.rename f) (coordinate.rename f)
      = .ok (t.rename f) := by
  obtain ⟨properties, hproperties, rfl⟩ := mkTexture_eq_ok h
  unfold Texture.mkTexture
  rw [sampler.ty_rename hf.ty, hproperties]
  rfl

theorem withMask_rename {a b : Assignment} {text : String} (h : a.withMask text = .ok b) :
    (a.rename f).withMask text = .ok (b.rename f) := by
  unfold Assignment.withMask at h ⊢
  split at h
  next hempty =>
    rw [if_pos hempty]
    cases h
    rfl
  next hne =>
    rw [if_neg hne]
    have hty : (a.rename f).lhs.ty = a.lhs.ty := a.lhs.ty_rename hf.ty
    rw [hty]
    cases hmask : Assignment.maskOfText? a.lhs.ty text with
    | some mask =>
      rw [hmask] at h
      cases h
      rfl
    | none =>
      rw [hmask] at h
      cases h

end

/-! ## §3. Environments that carry others -/

/-- The overload that matches is not changed by growth. -/
theorem Prototype.Grows.matching? {p q : Prototype} (h : p.Grows q) {types : List Ty} {i : Nat}
    (hi : p.matching? types = some i) : q.matching? types = some i := by
  obtain ⟨hlt, htypes, hfirst⟩ := findIdx?_eq_some_iff_getElem.mp hi
  obtain ⟨o, ho, hsame, -⟩ := h.overload i _ (getElem?_eq_getElem hlt)
  obtain ⟨hlt', rfl⟩ := List.getElem?_eq_some_iff.mp ho
  refine findIdx?_eq_some_iff_getElem.mpr ⟨hlt', ?_, ?_⟩
  · simpa [hsame] using htypes
  · intro j hj
    have hjlt : j < p.overloads.length := by omega
    obtain ⟨o', ho', hsame', -⟩ := h.overload j _ (getElem?_eq_getElem hjlt)
    obtain ⟨hlt'', rfl⟩ := List.getElem?_eq_some_iff.mp ho'
    simpa [hsame'] using hfirst j hj

/-- The second environment has what the first one has, with variables replaced, for the names in nodes
    with a property that the items of a list have if the list does.  Of a function it may know more
    overloads. -/
structure Env.Carries (Q : Node → Prop) (f : Var → Var) (env env' : Env) : Prop
    extends env.SharesTypes Q env' where
  vars : ∀ {name : String}, Q (.symbol name) →
    env'.symbols.findVariable? name = (env.symbols.findVariable? name).map f
  functions : ∀ {name : String} {p : Prototype}, Q (.symbol name) →
    env.symbols.findFunction? name = some p →
    ∃ q, env'.symbols.findFunction? name = some q ∧ p.Grows q

variable {env env' : Env} {node : Node}

theorem readMask_congr {letters : String} (h : readMask env node = .ok letters) :
    readMask env' node = .ok letters := by
  unfold readMask at h ⊢
  split at h
  · exact h
  · exact h
  · exact absurd h Env.fail_ne_ok

theorem LookupTag.make_rename (tag : LookupTag) (f : Var → Var) (rs : List Rvalue) :
    (tag.make rs).rename f = tag.make (rs.map (·.rename f)) := by
  cases tag <;> rcases rs with _ | ⟨_, _ | ⟨_, _ | _⟩⟩ <;> rfl

/-- **A value is read where its environment is carried to, with its variables replaced.** -/
theorem ReadsValue.carry {Q : Node → Prop} {f : Var → Var} (h : env.Carries Q f env')
    (hf : Renumbers f) (hread : ReadsValue env node r) (hnode : Q node) :
    ReadsValue env' node (r.rename f) := by
  induction hread with
  | expression typed named count parts ih =>
    rw [Rvalue.rename, Rvalue.renameAll_eq, map_map]
    exact .expression (h.readType (h.items hnode _ (by simp)) typed) named count fun x hx =>
      ih x hx (h.items hnode x (by simp [hx]))
  | swizzle letters part made ih =>
    exact .swizzle letters (ih (h.items hnode _ (by simp))) (mkSwizzle_rename hf made)
  | constant read => exact .constant (read.carry h.toSharesTypes hnode)
  | @var name v d bound made =>
    have hname := h.vars (h.items hnode (.symbol name) (by simp))
    rw [bound] at hname
    exact .var hname (mkVariable_rename hf made)
  | index part place made ih1 ih2 =>
    exact .index (ih1 (h.items hnode _ (by simp))) (ih2 (h.items hnode _ (by simp)))
      (mkIndex_rename hf made)
  | @call name args value p i o parts bound chosen overload ih =>
    obtain ⟨q, hq, hgrows⟩ := h.functions (h.items hnode _ (by simp)) bound
    obtain ⟨o', ho', -, hreturn⟩ := hgrows.overload i o overload
    have hargs := h.items (h.items hnode (.list args) (by simp))
    have hchosen := hgrows.matching? chosen
    rw [← Rvalue.map_ty_renameAll hf, Rvalue.renameAll_eq, map_map (f := value)] at hchosen
    rw [Rvalue.rename, Rvalue.renameAll_eq, map_map, ← hgrows.name, ← hreturn]
    exact .call (fun x hx => ih x hx (hargs x hx)) hq hchosen ho'
  | @texture head tag sampler coordinate offsets extras levels value d c o t kind chosen source place
      shift divisor reference parts made ih1 ih2 ih3 ih4 ih5 =>
    have hextras : ∀ x ∈ extras, Q x := fun x hx => h.items hnode x (by simp [hx])
    have hmade := mkTexture_rename hf made
    rw [LookupTag.make_rename, map_map] at hmade
    cases t
    rw [Rvalue.rename, Texture.rename, Rvalue.renameOption_eq, Rvalue.renameOption_eq, Option.map_map,
      Option.map_map]
    exact .texture kind chosen (ih1 (h.items hnode _ (by simp))) (ih2 (h.items hnode _ (by simp)))
      (readOffsets_congr shift) (fun x hx => ih3 x hx (hextras x (mem_of_divisor? hx)))
      (fun x hx => ih4 x hx (hextras x (mem_of_reference? hx)))
      (fun x hx => ih5 x hx (LookupTag.forall_levels? h.items chosen hextras x hx)) hmade

namespace Env.Carries

variable {f : Var → Var}

theorem readRvalue (h : env.Carries (fun _ => True) f env') (hf : Renumbers f)
    (hr : Shading.readRvalue env node = .ok r) : Shading.readRvalue env' node = .ok (r.rename f) :=
  readRvalue_iff.mpr ((readRvalue_iff.mp hr).carry h hf trivial)

theorem readOptional (h : env.Carries (fun _ => True) f env') (hf : Renumbers f) {o : Option Rvalue}
    (ho : Shading.readOptional env node = .ok o) :
    Shading.readOptional env' node = .ok (Rvalue.renameOption f o) := by
  rcases readOptional_eq_ok.mp ho with ⟨hnode, rfl⟩ | ⟨value, hvalue, rfl⟩
  · exact readOptional_eq_ok.mpr (.inl ⟨hnode, rfl⟩)
  · exact readOptional_eq_ok.mpr (.inr ⟨_, h.readRvalue hf hvalue, rfl⟩)

/-! ## §4. Statements without blocks -/

theorem readAssignment (h : env.Carries (fun _ => True) f env') (hf : Renumbers f) {a : Assignment}
    (ha : Shading.readAssignment env node = .ok a) :
    Shading.readAssignment env' node = .ok (a.rename f) := by
  obtain ⟨condition, mask, lhs, rhs, c, letters, target, value, rfl, hc, hmask, hlhs, hrhs, ha⟩ :=
    readAssignment_eq_ok.mp ha
  have hwhole : (Assignment.whole target value c).rename f
      = Assignment.whole (target.rename f) (value.rename f) (Rvalue.renameOption f c) := by
    simp only [Assignment.whole, Assignment.rename, target.ty_rename hf.ty]
  refine readAssignment_eq_ok.mpr ⟨_, _, _, _, _, letters, _, _, rfl,
    h.readOptional hf hc, readMask_congr hmask, h.readRvalue hf hlhs,
    h.readRvalue hf hrhs, ?_⟩
  rw [← hwhole]
  exact withMask_rename hf ha

theorem readReturn (h : env.Carries (fun _ => True) f env') (hf : Renumbers f) {parts : List Node}
    {value : Option Rvalue}
    (hvalue : Shading.readReturn env (.list (.symbol "return" :: parts)) = .ok value) :
    Shading.readReturn env' (.list (.symbol "return" :: parts))
      = .ok (Rvalue.renameOption f value) := by
  rcases readReturn_eq_ok.mp hvalue with ⟨hparts, rfl⟩ | ⟨node, r, hparts, hr, rfl⟩
  · exact readReturn_eq_ok.mpr (.inl ⟨hparts, rfl⟩)
  · exact readReturn_eq_ok.mpr (.inr ⟨node, _, hparts, h.readRvalue hf hr, rfl⟩)

theorem readControl (h : env.Carries (fun _ => True) f env') (hf : Renumbers f) {o : Option Rvalue}
    (ho : Shading.readControl env node = .ok o) :
    Shading.readControl env' node = .ok (Rvalue.renameOption f o) := by
  rcases readControl_eq_ok.mp ho with ⟨hnode, rfl⟩ | ⟨inner, value, hnode, hvalue, rfl⟩
  · exact readControl_eq_ok.mpr (.inl ⟨hnode, rfl⟩)
  · exact readControl_eq_ok.mpr (.inr ⟨inner, _, hnode, h.readRvalue hf hvalue, rfl⟩)

theorem readCounter (h : env.Carries (fun _ => True) f env') {o : Option Var}
    (ho : Shading.readCounter env node = .ok o) :
    Shading.readCounter env' node = .ok (o.map f) := by
  rcases readCounter_eq_ok.mp ho with ⟨hnode, rfl⟩ | ⟨name, v, hnode, hv, rfl⟩
  · exact readCounter_eq_ok.mpr (.inl ⟨hnode, rfl⟩)
  · refine readCounter_eq_ok.mpr (.inr ⟨name, f v, hnode, ?_, rfl⟩)
    rw [h.vars trivial, hv]
    rfl

theorem readControls (h : env.Carries (fun _ => True) f env') (hf : Renumbers f)
    {whole counter start stop increment : Node} {c : Controls}
    (hc : Shading.readControls env whole counter start stop increment = .ok c) :
    Shading.readControls env' whole counter start stop increment = .ok (c.rename f) := by
  obtain ⟨hcounter, hstart, hincrement, terminator, hstop, hcomparison, hvalue⟩ :=
    readControls_eq_ok.mp hc
  refine readControls_eq_ok.mpr ⟨h.readCounter hcounter, h.readControl hf hstart,
    h.readControl hf hincrement, terminator.map fun t => (t.1, t.2.rename f), ?_, ?_, ?_⟩
  · rcases readTerminator_eq_ok.mp hstop with ⟨hnode, rfl⟩ | ⟨name, inner, op, r, hnode, hop, hr, rfl⟩
    · exact readTerminator_eq_ok.mpr (.inl ⟨hnode, rfl⟩)
    · exact readTerminator_eq_ok.mpr
        (.inr ⟨name, inner, op, _, hnode, hop, h.readRvalue hf hr, rfl⟩)
  · show c.comparison = _
    rw [hcomparison]
    cases terminator <;> rfl
  · show Rvalue.renameOption f c.stop = _
    rw [hvalue]
    cases terminator <;> rfl

end Env.Carries

end Shading
