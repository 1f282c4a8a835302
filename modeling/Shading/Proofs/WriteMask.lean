/-
  Shading.Proofs.WriteMask — write masks as sets of components.

  A `WriteMask` keeps a set of components as bits.  The masks that arise have only the four lowest
  bits (`WriteMask.Small`), and are determined by which components they contain.
-/
import Shading.Ir.Instruction

namespace Shading

open List

variable {m : WriteMask}

namespace WriteMask

/-- Only the bits of components are set. -/
def Small (m : WriteMask) : Prop := m.bits < 16

/-- The sixteen sets. -/
def sets : List WriteMask := (List.range 16).map fun n => ⟨UInt8.ofNat n⟩

theorem mem_sets (h : m.Small) : m ∈ sets := by
  refine mem_map.mpr ⟨m.bits.toNat, mem_range.mpr ?_, ?_⟩
  · simpa [Small, UInt8.lt_iff_toNat_lt] using h
  · simp

/-- One more component. -/
def insert (m : WriteMask) (c : Component) : WriteMask := ⟨m.bits ||| bit c⟩

theorem small_insert (h : m.Small) (c : Component) : (m.insert c).Small := by
  have hall : ∀ m ∈ sets, ∀ c ∈ Component.all, (m.insert c).bits < 16 := by decide
  exact hall m (mem_sets h) c (by cases c <;> decide)

theorem contains_insert (h : m.Small) (c d : Component) :
    (m.insert c).contains d = (m.contains d || c == d) := by
  have hall : ∀ m ∈ sets, ∀ c ∈ Component.all, ∀ d ∈ Component.all,
      (m.insert c).contains d = (m.contains d || c == d) := by decide
  exact hall m (mem_sets h) c (by cases c <;> decide) d (by cases d <;> decide)

/-- Setting the bits one by one gives the mask of all components. -/
theorem ofComponents_eq (cs : List Component) : ofComponents cs = cs.foldl insert empty := by
  have hfold : ∀ (cs : List Component) (m : WriteMask),
      (⟨cs.foldl (fun bits c => bits ||| bit c) m.bits⟩ : WriteMask) = cs.foldl insert m := by
    intro cs
    induction cs with
    | nil =>
      intro m
      rfl
    | cons c cs ih =>
      intro m
      exact ih (m.insert c)
  exact hfold cs empty

/-- Inserting components adds these and nothing else. -/
theorem foldl_insert {cs : List Component} (h : m.Small) :
    (cs.foldl insert m).Small
      ∧ ∀ d, (cs.foldl insert m).contains d = (m.contains d || cs.contains d) := by
  induction cs generalizing m with
  | nil => exact ⟨h, by simp⟩
  | cons c cs ih =>
    obtain ⟨hsmall, hcontains⟩ := ih (small_insert h c)
    refine ⟨hsmall, ?_⟩
    intro d
    rw [foldl_cons, hcontains, contains_insert h, contains_cons, Bool.or_assoc,
      Bool.beq_comm]

theorem small_ofComponents (cs : List Component) : (ofComponents cs).Small := by
  rw [ofComponents_eq]
  exact (foldl_insert (by decide : empty.bits < 16)).1

/-- A mask made from components contains exactly these. -/
theorem contains_ofComponents (cs : List Component) (d : Component) :
    (ofComponents cs).contains d = true ↔ d ∈ cs := by
  have hempty : empty.contains d = false := by cases d <;> rfl
  rw [ofComponents_eq, (foldl_insert (by decide : empty.bits < 16)).2, hempty]
  simp

/-- A small mask is that of its own components. -/
theorem ofComponents_filter (h : m.Small) : ofComponents (Component.all.filter m.contains) = m := by
  have hall : ∀ m ∈ sets, ofComponents (Component.all.filter m.contains) = m := by decide
  exact hall m (mem_sets h)

theorem bits_eq_zero_iff (h : m.Small) : m.bits = 0 ↔ ∀ c, m.contains c = false := by
  have hall : ∀ m ∈ sets, m.bits = 0 ↔ ∀ c ∈ Component.all, m.contains c = false := by decide
  rw [hall m (mem_sets h)]
  constructor
  · intro hc c
    exact hc c (by cases c <;> decide)
  · intro hc c _
    exact hc c

theorem letters_isEmpty_iff (h : m.Small) : m.letters.isEmpty = true ↔ m.bits = 0 := by
  have hall : ∀ m ∈ sets, m.letters.isEmpty = true ↔ m.bits = 0 := by decide
  exact hall m (mem_sets h)

end WriteMask

namespace Component

/-- The first components are those with a smaller index. -/
theorem mem_take_all (c : Component) (n : Nat) : c ∈ all.take n ↔ c.index < n := by
  match n with
  | 0 => simp
  | 1 => cases c <;> decide
  | 2 => cases c <;> decide
  | 3 => cases c <;> decide
  | n + 4 =>
    have hlt : c.index < n + 4 := by
      cases c <;> simp [index]
    have hmem : c ∈ all := by cases c <;> decide
    simpa [all, hlt] using hmem

theorem ofLetter?_letter (c : Component) : ofLetter? c.letter = some c := by
  cases c <;> rfl

/-- Components are read back from their letters. -/
theorem ofLetters?_letters (cs : List Component) : ofLetters? (cs.map (·.letter)) = some cs := by
  unfold ofLetters?
  induction cs with
  | nil => rfl
  | cons c cs ih => simp [mapM_cons, ofLetter?_letter, ih]

theorem ofLetters?_ne_nil {letters : List Char} {cs : List Component} (hne : letters ≠ [])
    (h : ofLetters? letters = some cs) : cs ≠ [] := by
  rintro rfl
  obtain ⟨l, rest, rfl⟩ := exists_cons_of_ne_nil hne
  simp only [ofLetters?, mapM_cons, Option.bind_eq_bind, Option.bind_eq_some_iff] at h
  obtain ⟨c, -, cs, -, h⟩ := h
  cases h

end Component

variable {ty : Ty}

namespace Assignment

/-- The mask writes components that a value of the type has, and some exactly if such a value is
    written by components. -/
structure MaskFits (ty : Ty) (m : WriteMask) : Prop where
  small : m.Small
  subset : ∀ c, m.contains c = true → (fullMask ty).contains c = true
  nonzero : m.bits ≠ 0 ↔ ty.isScalar = true ∨ ty.isVector = true

/-- A mask that fits has no bit outside of the full one. -/
theorem MaskFits.bits_subset (h : MaskFits ty m) (hfull : (fullMask ty).Small) :
    m.bits &&& (fullMask ty).bits = m.bits := by
  -- both are among the sixteen sets of components, so there are only so many pairs
  have hall : ∀ m ∈ WriteMask.sets, ∀ n ∈ WriteMask.sets,
      (∀ c ∈ Component.all, m.contains c = true → n.contains c = true) →
        m.bits &&& n.bits = m.bits := by decide
  exact hall m (WriteMask.mem_sets h.small) (fullMask ty) (WriteMask.mem_sets hfull)
    fun c _ hc => h.subset c hc

/-- The full mask has a bit for each row of a scalar or vector. -/
theorem contains_fullMask {c : Component} :
    (fullMask ty).contains c = true ↔ (ty.isScalar = true ∨ ty.isVector = true) ∧ c.index < ty.rows := by
  have hfirst : ∀ n, (WriteMask.first n).contains c = true ↔ c.index < n := by
    intro n
    rw [WriteMask.first, WriteMask.contains_ofComponents, Component.mem_take_all]
  have hempty : WriteMask.empty.contains c = false := by cases c <;> rfl
  cases ty with
  | scalar kind => simp [fullMask, Ty.isScalar, Ty.rows, hfirst]
  | vector kind size => simp [fullMask, Ty.isScalar, Ty.isVector, Ty.rows, hfirst]
  | _ => simp [fullMask, Ty.isScalar, Ty.isVector, hempty]

/-- The full mask fits its type. -/
theorem maskFits_fullMask (ty : Ty) : MaskFits ty (fullMask ty) := by
  cases ty with
  | scalar kind =>
    exact ⟨WriteMask.small_ofComponents _, fun c h => h, by simp [fullMask, Ty.isScalar]; decide⟩
  | vector kind size =>
    refine ⟨WriteMask.small_ofComponents _, fun c h => h, ?_⟩
    cases size <;> simp [fullMask, Ty.isScalar, Ty.isVector] <;> decide
  | _ =>
    refine ⟨(by decide : (0 : UInt8) < 16), fun c h => h, ?_⟩
    simp [fullMask, WriteMask.empty, Ty.isScalar, Ty.isVector]

/-- A mask that was read from letters fits the type it was read for. -/
theorem maskFits_maskOfText? {text : String} (hne : text ≠ "") (h : maskOfText? ty text = some m) :
    MaskFits ty m := by
  unfold maskOfText? at h
  obtain ⟨cs, hcs, h⟩ := Option.bind_eq_some_iff.mp h
  split at h
  next hshape =>
    cases h
    obtain ⟨-, hkind, hall⟩ := hshape
    have hrows : ∀ c ∈ cs, c.index < ty.rows := by simpa using hall
    have hsmall := WriteMask.small_ofComponents cs
    refine ⟨hsmall, ?_, ?_⟩
    · intro c hc
      rw [WriteMask.contains_ofComponents] at hc
      exact contains_fullMask.mpr ⟨hkind, hrows c hc⟩
    · refine ⟨fun _ => hkind, ?_⟩
      intro _ hzero
      have hletters : text.toList ≠ [] := by simpa using hne
      obtain ⟨c, rest, rfl⟩ :=
        exists_cons_of_ne_nil (Component.ofLetters?_ne_nil hletters hcs)
      have hc := (WriteMask.contains_ofComponents (c :: rest) c).mpr mem_cons_self
      rw [(WriteMask.bits_eq_zero_iff hsmall).mp hzero c] at hc
      cases hc
  next => cases h

/-- A mask is only given to an assignment whose target it fits. -/
theorem withMask_eq_ok {lhs : Dereference} {rhs : Rvalue} {condition : Option Rvalue}
    {letters : String} {a : Assignment} (h : (whole lhs rhs condition).withMask letters = .ok a) :
    ∃ m, a = ⟨condition, lhs, rhs, m⟩ ∧ MaskFits lhs.ty m := by
  unfold withMask at h
  split at h
  · cases h
    exact ⟨fullMask lhs.ty, rfl, maskFits_fullMask lhs.ty⟩
  next hne =>
    split at h
    next m hm =>
      cases h
      refine ⟨m, rfl, maskFits_maskOfText? ?_ hm⟩
      rintro rfl
      exact hne rfl
    next => cases h

/-- **The letters of a mask that fits give back the mask.** -/
theorem withMask_letters {lhs : Dereference} {rhs : Rvalue} {condition : Option Rvalue}
    (h : MaskFits lhs.ty m) :
    (whole lhs rhs condition).withMask m.letters = .ok ⟨condition, lhs, rhs, m⟩ := by
  unfold withMask
  by_cases hzero : m.bits = 0
  · have hkind : ¬ (lhs.ty.isScalar = true ∨ lhs.ty.isVector = true) := fun hk =>
      h.nonzero.mpr hk hzero
    have hfull : fullMask lhs.ty = m := by
      have hempty : fullMask lhs.ty = .empty := by
        cases hty : lhs.ty with
        | scalar kind => simp [hty, Ty.isScalar] at hkind
        | vector kind size => simp [hty, Ty.isVector] at hkind
        | _ => rfl
      rw [hempty]
      cases m
      simp_all [WriteMask.empty]
    rw [if_pos ((WriteMask.letters_isEmpty_iff h.small).mpr hzero)]
    simp [whole, hfull]
  · have hkind := h.nonzero.mp hzero
    have hne : ¬ m.letters.isEmpty = true := fun he =>
      hzero ((WriteMask.letters_isEmpty_iff h.small).mp he)
    have hmask : maskOfText? lhs.ty m.letters = some m := by
      have hletters : Component.ofLetters? m.letters.toList
          = some (Component.all.filter m.contains) := by
        rw [WriteMask.letters, String.toList_ofList, Component.ofLetters?_letters]
      have hlength : (Component.all.filter m.contains).length ≤ 4 :=
        length_filter_le m.contains Component.all
      have hall : ((Component.all.filter m.contains).all (·.index < lhs.ty.rows)) = true := by
        rw [all_eq_true]
        intro c hc
        have hcontains := h.subset c (mem_filter.mp hc).2
        simpa using (contains_fullMask.mp hcontains).2
      rw [maskOfText?, hletters, Option.bind_some, if_pos ⟨hlength, hkind, hall⟩,
        WriteMask.ofComponents_filter h.small]
    rw [if_neg hne]
    simp only [whole, hmask]

end Assignment

end Shading
