/-
  Shading.Proofs.Sexp.Spelling — which runs of characters are words, and which words are nodes.

  The library decides what a run of characters is by trying one reader after the other.  Here the same
  is said by the shapes of the runs.
-/
import Shading.Proofs.Number.Range
import Shading.Proofs.Sexp.Inverse

namespace Shading

open List

/-! ## §1. Shapes -/

/-- A minus sign, or nothing. -/
def minusSign (negative : Bool) : List Char := if negative then ['-'] else []

/-- An integer and its sign. -/
def signedValue (negative : Bool) (digits : List Char) : Int :=
  if negative then -(digitsValue digits : Int) else digitsValue digits

/-- The characters are an exponent: a mark, an optional sign and digits. -/
inductive ExponentForm : List Char → Int → Prop
  | plain {mark : Char} {digits : List Char} (hmark : mark = 'e' ∨ mark = 'E')
      (hdigits : isDigits digits = true) :
      ExponentForm (mark :: digits) (digitsValue digits)
  | plus {mark : Char} {digits : List Char} (hmark : mark = 'e' ∨ mark = 'E')
      (hdigits : isDigits digits = true) :
      ExponentForm (mark :: '+' :: digits) (digitsValue digits)
  | minus {mark : Char} {digits : List Char} (hmark : mark = 'e' ∨ mark = 'E')
      (hdigits : isDigits digits = true) :
      ExponentForm (mark :: '-' :: digits) (-(digitsValue digits : Int))

/-- The characters are an exponent, or there are none. -/
inductive OptionalExponent : List Char → Int → Prop
  | absent : OptionalExponent [] 0
  | present {tail : List Char} {k : Int} (h : ExponentForm tail k) : OptionalExponent tail k

/-- The characters are a fractional numeral without a sign. -/
inductive FloatForm : List Char → Decimal → Prop
  | point {whole fraction tail : List Char} {k : Int} (hwhole : isDigits whole = true)
      (hfraction : ∀ c ∈ fraction, c.isDigit = true) (htail : OptionalExponent tail k) :
      FloatForm (whole ++ '.' :: (fraction ++ tail)) (.ofParts whole fraction k)
  | fraction {fraction tail : List Char} {k : Int} (hfraction : isDigits fraction = true)
      (htail : OptionalExponent tail k) :
      FloatForm ('.' :: (fraction ++ tail)) (.ofParts [] fraction k)
  | scientific {whole tail : List Char} {k : Int} (hwhole : isDigits whole = true)
      (htail : ExponentForm tail k) :
      FloatForm (whole ++ tail) (.ofParts whole [] k)

/-- The characters spell a word. -/
inductive Word.Spells : List Char → Word → Prop
  | int (negative : Bool) {digits : List Char} (hdigits : isDigits digits = true) :
      Spells (minusSign negative ++ digits) (.int (signedValue negative digits))
  | float (negative : Bool) {cs : List Char} {d : Decimal} (h : FloatForm cs d) :
      Spells (minusSign negative ++ cs) (.float negative d)
  | symbol {cs : List Char} (h : ¬ BeginsLikeNumeral cs) :
      Spells cs (.symbol (String.ofList cs))

/-! ## §2. Exponents -/

variable {cs : List Char}

theorem splitSign_minusSign (h : splitSign cs = (false, cs)) (negative : Bool) :
    splitSign (minusSign negative ++ cs) = (negative, cs) := by
  cases negative with
  | false => exact h
  | true => rfl

theorem minusSign_splitSign (cs : List Char) :
    minusSign (splitSign cs).1 ++ (splitSign cs).2 = cs := by
  unfold splitSign
  split
  next => rfl
  next => rfl

theorem splitAnySign_cases (cs : List Char) :
    splitAnySign cs = (false, cs) ∨ (∃ rest, cs = '+' :: rest ∧ splitAnySign cs = (false, rest))
      ∨ ∃ rest, cs = '-' :: rest ∧ splitAnySign cs = (true, rest) := by
  unfold splitAnySign
  split
  next rest => exact .inr (.inl ⟨rest, rfl, rfl⟩)
  next =>
    unfold splitSign
    split
    next => exact .inr (.inr ⟨_, rfl, rfl⟩)
    next => exact .inl rfl

variable {k : Int}

/-- How an exponent is written. -/
theorem exponent?_eq_some_iff : exponent? cs = some k ↔ ExponentForm cs k := by
  constructor
  · intro h
    unfold exponent? at h
    split at h
    next mark rest =>
      split at h
      next hmark =>
        dsimp only at h
        split at h
        next hdigits =>
          rcases splitAnySign_cases rest with hsign | ⟨digits, rfl, hsign⟩ | ⟨digits, rfl, hsign⟩
          · rw [hsign] at h hdigits
            cases h
            exact .plain hmark hdigits
          · rw [hsign] at h hdigits
            cases h
            exact .plus hmark hdigits
          · rw [hsign] at h hdigits
            cases h
            exact .minus hmark hdigits
        next => cases h
      next => cases h
    next => cases h
  · intro h
    cases h with
    | plain hmark hdigits => simp [exponent?, hmark, splitAnySign_digits hdigits, hdigits]
    | plus hmark hdigits => simp [exponent?, hmark, splitAnySign, hdigits]
    | minus hmark hdigits => simp [exponent?, hmark, splitAnySign, splitSign, hdigits]

variable {tail : List Char}

theorem ExponentForm.head (h : ExponentForm tail k) :
    ∃ mark rest, tail = mark :: rest ∧ mark.isDigit = false ∧ mark ≠ '.' := by
  have hmark : ∀ {mark : Char}, mark = 'e' ∨ mark = 'E' → mark.isDigit = false ∧ mark ≠ '.' := by
    intro mark hmark
    rcases hmark with rfl | rfl
    · exact ⟨rfl, by decide⟩
    · exact ⟨rfl, by decide⟩
  cases h with
  | plain h _ => exact ⟨_, _, rfl, hmark h⟩
  | plus h _ => exact ⟨_, _, rfl, hmark h⟩
  | minus h _ => exact ⟨_, _, rfl, hmark h⟩

theorem OptionalExponent.head (h : OptionalExponent tail k) :
    ∀ c ∈ tail.head?, c.isDigit = false := by
  intro c hc
  cases h with
  | absent => cases hc
  | present h =>
    obtain ⟨mark, rest, rfl, hmark, -⟩ := h.head
    cases hc
    exact hmark

theorem OptionalExponent.eq_some_iff {d : Int → Decimal} {d' : Decimal} :
    (if tail.isEmpty then some (d 0) else (exponent? tail).map d) = some d'
      ↔ ∃ k, OptionalExponent tail k ∧ d k = d' := by
  constructor
  · intro h
    split at h
    next hempty =>
      cases List.isEmpty_iff.mp hempty
      cases h
      exact ⟨0, .absent, rfl⟩
    next =>
      obtain ⟨k, hk, hd⟩ := Option.map_eq_some_iff.mp h
      exact ⟨k, .present (exponent?_eq_some_iff.mp hk), hd⟩
  · intro h
    obtain ⟨k, htail, rfl⟩ := h
    cases htail with
    | absent => rfl
    | present htail =>
      obtain ⟨mark, rest, rfl, -, -⟩ := htail.head
      rw [exponent?_eq_some_iff.mpr htail]
      rfl

/-! ## §3. Numerals -/

theorem isDigits_iff : isDigits cs = true ↔ cs ≠ [] ∧ ∀ c ∈ cs, c.isDigit = true := by
  simp [isDigits]

theorem forall_mem_takeWhile_digits (cs : List Char) :
    ∀ c ∈ cs.takeWhile Char.isDigit, c.isDigit = true :=
  all_eq_true.mp all_takeWhile

namespace Decimal

theorem unsigned?_of_point {whole fraction : List Char} (hwhole : ∀ c ∈ whole, c.isDigit = true)
    (hfraction : ∀ c ∈ fraction, c.isDigit = true) (hne : whole ≠ [] ∨ fraction ≠ [])
    (htail : OptionalExponent tail k) :
    unsigned? (whole ++ '.' :: (fraction ++ tail)) = some (ofParts whole fraction k) := by
  have hpoint : ∀ c ∈ ('.' :: (fraction ++ tail)).head?, c.isDigit = false := by
    intro c hc
    cases hc
    rfl
  obtain ⟨hbefore, hrest⟩ := takeWhile_digits ('.' :: (fraction ++ tail)) hwhole hpoint
  obtain ⟨hafter, hend⟩ := takeWhile_digits tail hfraction htail.head
  have hparts : (whole.isEmpty && fraction.isEmpty) = false := by
    rw [Bool.and_eq_false_iff, isEmpty_eq_false_iff, isEmpty_eq_false_iff]
    exact hne
  simp only [unsigned?, hbefore, hrest, hafter, hend, hparts, if_neg Bool.false_ne_true]
  exact OptionalExponent.eq_some_iff.mpr ⟨k, htail, rfl⟩

theorem unsigned?_of_exponent {whole : List Char} (hwhole : isDigits whole = true)
    (htail : ExponentForm tail k) : unsigned? (whole ++ tail) = some (ofParts whole [] k) := by
  obtain ⟨hne, hall⟩ := isDigits_iff.mp hwhole
  obtain ⟨mark, rest, rfl, hmark, hpoint⟩ := htail.head
  obtain ⟨hbefore, hrest⟩ := takeWhile_digits (mark :: rest) hall (OptionalExponent.present htail).head
  simp [unsigned?, hbefore, hrest, hne, hpoint, exponent?_eq_some_iff.mpr htail]

/-- **Fractional numerals** are the runs of three shapes. -/
theorem unsigned?_eq_some_iff {d : Decimal} : unsigned? cs = some d ↔ FloatForm cs d := by
  constructor
  · intro h
    have hcs := takeWhile_append_dropWhile (p := Char.isDigit) (l := cs)
    have hwhole := forall_mem_takeWhile_digits cs
    unfold unsigned? at h
    dsimp only at h
    generalize cs.takeWhile Char.isDigit = whole at h hcs hwhole
    split at h
    next rest hdrop =>
      have hrest := takeWhile_append_dropWhile (p := Char.isDigit) (l := rest)
      have hfraction := forall_mem_takeWhile_digits rest
      generalize rest.takeWhile Char.isDigit = fraction at h hrest hfraction
      generalize rest.dropWhile Char.isDigit = tail at h hrest
      rw [← hcs, hdrop, ← hrest]
      split at h
      next => cases h
      next hparts =>
        obtain ⟨k, htail, rfl⟩ := OptionalExponent.eq_some_iff.mp h
        -- Digits stand before the point, or else behind it.
        by_cases hne : whole = []
        · subst hne
          refine .fraction (isDigits_iff.mpr ⟨?_, hfraction⟩) htail
          intro hnil
          exact hparts (by rw [hnil]; rfl)
        · exact .point (isDigits_iff.mpr ⟨hne, hwhole⟩) hfraction htail
    next =>
      rw [← hcs]
      split at h
      next => cases h
      next hne =>
        obtain ⟨k, htail, rfl⟩ := Option.map_eq_some_iff.mp h
        refine .scientific (isDigits_iff.mpr ⟨?_, hwhole⟩) (exponent?_eq_some_iff.mp htail)
        exact fun hnil => hne (List.isEmpty_iff.mpr hnil)
  · intro h
    cases h with
    | point hwhole hfraction htail =>
      obtain ⟨hne, hall⟩ := isDigits_iff.mp hwhole
      exact unsigned?_of_point hall hfraction (.inl hne) htail
    | fraction hfraction htail =>
      obtain ⟨hne, hall⟩ := isDigits_iff.mp hfraction
      have hnone : ∀ c ∈ ([] : List Char), c.isDigit = true := nofun
      exact unsigned?_of_point hnone hall (.inr hne) htail
    | scientific hwhole htail => exact unsigned?_of_exponent hwhole htail

theorem signed?_eq_some_iff {negative : Bool} {d : Decimal} :
    signed? cs = some (negative, d) ↔ ∃ rest, cs = minusSign negative ++ rest ∧ FloatForm rest d := by
  constructor
  · intro h
    obtain ⟨d', hd, heq⟩ := Option.map_eq_some_iff.mp h
    cases heq
    exact ⟨(splitSign cs).2, (minusSign_splitSign cs).symm, unsigned?_eq_some_iff.mp hd⟩
  · intro h
    obtain ⟨rest, rfl, hrest⟩ := h
    have hunsigned := unsigned?_eq_some_iff.mpr hrest
    unfold signed?
    rw [splitSign_minusSign (splitSign_of_unsigned? hunsigned)]
    dsimp only
    rw [hunsigned]
    rfl

end Decimal

/-- How an integer is written. -/
theorem integer?_eq_some_iff {n : Int} :
    integer? cs = some n ↔ ∃ negative digits, isDigits digits = true
      ∧ cs = minusSign negative ++ digits ∧ n = signedValue negative digits := by
  constructor
  · intro h
    unfold integer? at h
    dsimp only at h
    split at h
    next hdigits =>
      cases h
      exact ⟨(splitSign cs).1, (splitSign cs).2, hdigits, (minusSign_splitSign cs).symm, rfl⟩
    next => cases h
  · intro h
    obtain ⟨negative, digits, hdigits, rfl, rfl⟩ := h
    unfold integer?
    rw [splitSign_minusSign (splitSign_digits hdigits)]
    dsimp only
    rw [if_pos hdigits]
    rfl

/-! ## §4. Words -/

variable {w : Word}

/-- **The words of the language** are the runs of these shapes. -/
theorem Word.ofChars?_eq_some_iff : Word.ofChars? cs = some w ↔ Word.Spells cs w := by
  constructor
  · intro h
    unfold Word.ofChars? at h
    split at h
    next negative value hfloat =>
      cases h
      obtain ⟨rest, rfl, hrest⟩ := Decimal.signed?_eq_some_iff.mp hfloat
      exact .float negative hrest
    next =>
      split at h
      next value hint =>
        cases h
        obtain ⟨negative, digits, hdigits, rfl, rfl⟩ := integer?_eq_some_iff.mp hint
        exact .int negative hdigits
      next =>
        split at h
        next => cases h
        next hbegins =>
          cases h
          exact .symbol (fun hnumeral => hbegins (beginsLikeNumber_iff.mpr hnumeral))
  · intro h
    cases h with
    | @int negative digits hdigits =>
      have hfloat : Decimal.signed? (minusSign negative ++ digits) = none := by
        unfold Decimal.signed?
        rw [splitSign_minusSign (splitSign_digits hdigits)]
        dsimp only
        rw [Decimal.unsigned?_digits hdigits]
        rfl
      unfold Word.ofChars?
      rw [hfloat, integer?_eq_some_iff.mpr ⟨negative, _, hdigits, rfl, rfl⟩]
    | float negative hrest =>
      unfold Word.ofChars?
      rw [Decimal.signed?_eq_some_iff.mpr ⟨_, rfl, hrest⟩]
    | symbol hbegins => exact ofChars?_eq_symbol_iff.mpr hbegins

/-- The number of the word can be held: an integer in 64 bits, and a fractional number as a finite
    one of the 64-bit format. -/
def Word.InRange : Word → Prop
  | .symbol _ => True
  | .int value => -9223372036854775808 ≤ value ∧ value ≤ 9223372036854775807
  | .float _ value => value.InRange .double

/-- The node that a word stands for. -/
inductive Word.Denotes : Word → Node → Prop
  | symbol (name : String) : Denotes (.symbol name) (.symbol name)
  | int (value : Int64) : Denotes (.int value.toInt) (.int value)
  | float (negative : Bool) (value : Decimal) (h : value.InRange .double) :
      Denotes (.float negative value) (.float (value.toBinary .double negative))

theorem int64?_eq_some_iff {n : Int} {value : Int64} : int64? n = some value ↔ value.toInt = n := by
  have hmin : Int64.minValue.toInt = -9223372036854775808 := by decide
  have hmax : Int64.maxValue.toInt = 9223372036854775807 := by decide
  constructor
  · intro h
    unfold int64? at h
    split at h
    next hrange =>
      cases h
      exact Int64.toInt_ofInt_of_le (by omega) (by omega)
    next => cases h
  · intro h
    rw [← h]
    exact int64?_toInt value

theorem Word.inRange_iff : w.InRange ↔ ∃ node, w.Denotes node := by
  constructor
  · intro h
    cases w with
    | symbol name => exact ⟨_, .symbol name⟩
    | int value =>
      have hvalue : (Int64.ofInt value).toInt = value :=
        Int64.toInt_ofInt_of_le h.1 (by have := h.2; omega)
      refine ⟨.int (.ofInt value), ?_⟩
      conv => lhs; rw [← hvalue]
      exact .int _
    | float negative value => exact ⟨_, .float negative value h⟩
  · intro h
    obtain ⟨node, hnode⟩ := h
    cases hnode with
    | symbol name => trivial
    | int value => exact ⟨Int64.minValue_le_toInt value, Int64.toInt_le value⟩
    | float negative value h => exact h

theorem nodeOfWord_of_denotes {node : Node} (hspells : Word.Spells cs w) (hnode : w.Denotes node) :
    nodeOfWord cs = .ok node := by
  unfold nodeOfWord
  rw [Word.ofChars?_eq_some_iff.mpr hspells]
  cases hnode with
  | symbol name => rfl
  | int value =>
    dsimp only
    rw [int64?_toInt]
  | float negative value h =>
    dsimp only
    rw [if_pos ((Decimal.isFinite_toBinary_iff Format.wide_double value negative).mpr h)]

theorem nodeOfWord_of_not_inRange (hspells : Word.Spells cs w) (hrange : ¬ w.InRange) :
    nodeOfWord cs = .error (.literal cs) := by
  unfold nodeOfWord
  rw [Word.ofChars?_eq_some_iff.mpr hspells]
  cases w with
  | symbol name => exact absurd trivial hrange
  | int value =>
    dsimp only
    cases hvalue : int64? value with
    | none => rfl
    | some n =>
      refine absurd (Word.inRange_iff.mpr ⟨.int n, ?_⟩) hrange
      rw [← int64?_eq_some_iff.mp hvalue]
      exact .int n
  | float negative value =>
    dsimp only
    rw [if_neg fun h =>
      hrange ((Decimal.isFinite_toBinary_iff Format.wide_double value negative).mp h)]

/-- A word is read as the node that it denotes. -/
theorem nodeOfWord_eq_ok_iff {node : Node} :
    nodeOfWord cs = .ok node ↔ ∃ w, Word.Spells cs w ∧ w.Denotes node := by
  constructor
  · intro h
    cases hword : Word.ofChars? cs with
    | none =>
      unfold nodeOfWord at h
      rw [hword] at h
      cases h
    | some w =>
      have hspells := Word.ofChars?_eq_some_iff.mp hword
      by_cases hrange : w.InRange
      · obtain ⟨node', hnode⟩ := Word.inRange_iff.mp hrange
        rw [nodeOfWord_of_denotes hspells hnode] at h
        cases h
        exact ⟨w, hspells, hnode⟩
      · rw [nodeOfWord_of_not_inRange hspells hrange] at h
        cases h
  · intro h
    obtain ⟨w, hspells, hnode⟩ := h
    exact nodeOfWord_of_denotes hspells hnode

end Shading
