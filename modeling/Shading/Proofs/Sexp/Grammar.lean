/-
  Shading.Proofs.Sexp.Grammar — the reader computes what the grammar says.

  The grammar is a set of parsing expressions (`Rule.body`), the reader scans and counts.  They meet in
  the trees of words: an expression of the grammar matches the first tree of a text, and as many as there
  are if it is repeated.

      Peg.Runs.unique       an expression has one outcome
      words_run             a numeral or symbol matches a run that is a word, and no part of a run
      expr_total            `expr` matches a tree, or no tree begins here
      parses_document       `document` matches the texts whose tokens are those of trees
-/
import Mathlib.Data.List.TakeWhile
import Shading.Proofs.Sexp.Language
import Shading.Sexp.Grammar

namespace Shading

open List Tree Peg

variable {r : Rule} {whole run rest : List Char}

/-- **An expression has one outcome.** -/
theorem Peg.Runs.unique {k e cs o} (h : Runs whole k e cs o) :
    ∀ {o'}, Runs whole k e cs o' → o = o' := by
  -- two derivations end alike, or else a premise of one says that a premise of the other fails
  induction h <;> intro o' h' <;> cases h' <;> grind

/-! ## §1. Inside of atomic rules -/

/-- Inside of atomic rules, the expression leaves this of a text, or fails. -/
def Leaves (e : Peg) (f : List Char → Option (List Char)) : Prop :=
  ∀ whole cs, Runs whole true e cs ((f cs).map fun rest => ([], rest))

/-- What is left of a text whose first character is of a class. -/
def eat (p : Char → Bool) : List Char → Option (List Char)
  | [] => none
  | c :: cs => if p c then some cs else none

variable {a b : Peg} {f g : List Char → Option (List Char)} {p : Char → Bool}

namespace Leaves

theorem congr (h : Leaves a f) (heq : ∀ cs, f cs = g cs) : Leaves a g :=
  fun whole cs => heq cs ▸ h whole cs

theorem one (p : Char → Bool) : Leaves (.one p) (eat p) := by
  intro whole cs
  cases cs with
  | nil => exact .oneFails nofun
  | cons c cs =>
    rw [eat]
    split
    next hc => exact .one hc
    next hc => exact .oneFails (by simpa using hc)

theorem rule (h : Leaves r.body f) : Leaves (.rule r) f := by
  intro whole cs
  have hrule := Runs.rule (k := true) (h whole cs)
  simpa [Rule.found, Function.comp_def] using hrule

theorem seq (ha : Leaves a f) (hb : Leaves b g) : Leaves (.seq a b) fun cs => (f cs).bind g := by
  intro whole cs
  have hfirst := ha whole cs
  dsimp only
  cases hf : f cs with
  | none =>
    rw [hf] at hfirst
    exact .seqFails hfirst
  | some ds =>
    rw [hf] at hfirst
    simpa [Function.comp_def] using Runs.seq hfirst .skipNothing (hb whole ds)

theorem alt (ha : Leaves a f) (hb : Leaves b g) : Leaves (.alt a b) fun cs => (f cs).or (g cs) := by
  intro whole cs
  have hfirst := ha whole cs
  dsimp only
  cases hf : f cs with
  | none =>
    rw [hf] at hfirst
    simpa using Runs.second hfirst (hb whole cs)
  | some ds =>
    rw [hf] at hfirst
    exact .first hfirst

theorem opt (ha : Leaves a f) : Leaves (.opt a) fun cs => some ((f cs).getD cs) := by
  intro whole cs
  have hopt := Runs.opt (ha whole cs)
  cases hf : f cs with
  | none | some => simpa [hf] using hopt

theorem no (ha : Leaves a f) : Leaves (.no a) fun cs => if (f cs).isSome then none else some cs := by
  intro whole cs
  have hnot := ha whole cs
  dsimp only
  cases hf : f cs with
  | none =>
    rw [hf] at hnot
    exact .no hnot
  | some ds =>
    rw [hf] at hnot
    exact .noFails hnot

end Leaves

/-- Nothing is skipped between the matches of a repetition inside of atomic rules. -/
theorem Peg.Runs.many_of_again {cs o} (h : Runs whole true (.again a) cs o) :
    Runs whole true (.many a) cs o := by
  cases h with
  | again hskip ha hmore =>
    cases hskip
    exact .many ha hmore
  | againEnds hskip ha =>
    cases hskip
    exact .manyEnds ha

theorem Leaves.many (ha : Leaves a (eat p)) : Leaves (.many a) fun cs => some (cs.dropWhile p) := by
  intro whole cs
  refine Runs.many_of_again ?_
  dsimp only
  induction cs with
  | nil => exact .againEnds .skipNothing (ha whole [])
  | cons c cs ih =>
    have hfirst := ha whole (c :: cs)
    rw [eat] at hfirst
    by_cases hc : p c = true
    · rw [if_pos hc] at hfirst
      rw [dropWhile_cons_of_pos hc]
      exact .again .skipNothing hfirst ih
    · rw [if_neg hc] at hfirst
      rw [dropWhile_cons_of_neg hc]
      exact .againEnds .skipNothing hfirst

/-! ## §2. Blanks and comments -/

/-- A choice between characters of two classes. -/
theorem Leaves.either {q : Char → Bool} (ha : Leaves a (eat p)) (hb : Leaves b (eat q)) :
    Leaves (.alt a b) (eat fun c => p c || q c) := by
  refine (ha.alt hb).congr fun cs => ?_
  cases cs with
  | nil => rfl
  | cons c cs => cases hp : p c <;> simp [eat, hp]

/-- Any character but those of a class. -/
theorem Leaves.except (ha : Leaves a (eat p)) : Leaves (.seq (.no a) .any) (eat fun c => !p c) := by
  refine (ha.no.seq (.one _)).congr fun cs => ?_
  cases cs with
  | nil => rfl
  | cons c cs => cases hp : p c <;> simp [eat, hp]

theorem leaves_whitespace : Leaves (.rule .whitespace) (eat isBlank) := by
  have hblank := (Leaves.one (· = ' ')).either
    ((Leaves.one (· = '\t')).either ((Leaves.one (· = '\r')).either (.one (· = '\n'))))
  refine .rule (hblank.congr fun cs => congrArg (eat · cs) (funext fun c => ?_))
  simp only [isBlank, Bool.or_assoc]

theorem leaves_comment :
    Leaves (.rule .comment) fun cs => (eat (· = ';') cs).map fun rest => rest.dropWhile (· ≠ '\n') := by
  have hline : Leaves (.seq (.no (.char '\n')) .any) (eat (· ≠ '\n')) := by
    refine (Leaves.one (· = '\n')).except.congr fun cs => ?_
    simp only [ne_eq, decide_not]
  refine .rule (((Leaves.one _).seq hline.many).congr fun cs => ?_)
  cases eat (· = ';') cs <;> rfl

/-- No blank and no comment begins here. -/
def Bare (cs : List Char) : Prop := ∀ c ∈ cs.head?, isBlank c = false ∧ c ≠ ';'

theorem cuts_dropWhile_isBlank {ts : List Token} : ∀ {cs : List Char}, Cuts (cs.dropWhile isBlank) ts →
    Cuts cs ts
  | [], h => h
  | c :: cs, h => by
    by_cases hc : isBlank c = true
    · rw [dropWhile_cons_of_pos hc] at h
      exact .blank (isBlank_iff_mem.mp hc) (cuts_dropWhile_isBlank h)
    · rwa [dropWhile_cons_of_neg hc] at h

/-- What is skipped before a text that is left: the text is cut as what is left of it. -/
structure Skips (cs rest : List Char) : Prop where
  bare : Bare rest
  length : rest.length ≤ cs.length
  cuts : ∀ ts, Cuts rest ts → Cuts cs ts

/-- Comments and blanks end somewhere. -/
theorem comments_total (whole : List Char) : ∀ (n : Nat) (cs : List Char), cs.length ≤ n →
    (∀ c ∈ cs.head?, isBlank c = false) →
    ∃ rest, Runs whole true (.again (.seq (.rule .comment) (.many (.rule .whitespace)))) cs
      (some ([], rest)) ∧ Skips cs rest := by
  have hround := leaves_comment.seq leaves_whitespace.many
  intro n
  induction n with
  | zero =>
    intro cs hlength _
    obtain rfl := length_eq_zero_iff.mp (Nat.le_zero.mp hlength)
    exact ⟨[], .againEnds .skipNothing (hround whole []), nofun, Nat.le_refl _, fun _ h => h⟩
  | succ n ih =>
    intro cs hlength hblank
    by_cases hsemicolon : cs.head? = some ';'
    · obtain ⟨body, rfl⟩ := head?_eq_some_iff.mp hsemicolon
      have hrun := hround whole (';' :: body)
      simp only [eat, decide_true, if_true, Option.map_some, Option.bind_some] at hrun
      have hline := (dropWhile_suffix (l := body) (· ≠ '\n')).length_le
      have hgap := (dropWhile_suffix (l := body.dropWhile (· ≠ '\n')) isBlank).length_le
      rw [length_cons] at hlength
      obtain ⟨rest, hrest, hskips⟩ := ih ((body.dropWhile (· ≠ '\n')).dropWhile isBlank) (by omega) (by
        intro c hc
        have := head?_dropWhile_not isBlank (body.dropWhile (· ≠ '\n'))
        rw [Option.mem_def.mp hc] at this
        simpa using this)
      have hshort := hskips.length
      refine ⟨rest, .again .skipNothing hrun hrest, hskips.bare, by rw [length_cons]; omega, ?_⟩
      intro ts hts
      exact .comment_dropWhile (cuts_dropWhile_isBlank (hskips.cuts ts hts))
    · have hnone : eat (· = ';') cs = none := by
        cases cs with
        | nil => rfl
        | cons c cs => simpa [eat] using hsemicolon
      have hrun := hround whole cs
      simp only [hnone, Option.map_none, Option.bind_none] at hrun
      refine ⟨cs, .againEnds .skipNothing hrun, ?_, Nat.le_refl _, fun _ h => h⟩
      intro c hc
      exact ⟨hblank c hc, fun heq => hsemicolon (heq ▸ hc)⟩

/-- **What is skipped** are all blanks and comments. -/
theorem skip_total (whole cs : List Char) :
    ∃ rest, Runs whole false .skip cs (some ([], rest)) ∧ Skips cs rest := by
  have hgap := (dropWhile_suffix (l := cs) isBlank).length_le
  obtain ⟨rest, hrun, hskips⟩ := comments_total whole _ (cs.dropWhile isBlank) (Nat.le_refl _) (by
    intro c hc
    have := head?_dropWhile_not isBlank cs
    rw [Option.mem_def.mp hc] at this
    simpa using this)
  refine ⟨rest, .skip ?_, hskips.bare, Nat.le_trans hskips.length hgap, fun ts hts => ?_⟩
  · exact .seq (leaves_whitespace.many whole cs) .skipNothing hrun.many_of_again
  · exact cuts_dropWhile_isBlank (hskips.cuts ts hts)

/-! ## §3. Numerals and symbols -/

/-- What is taken ends before the next separator, and depends on nothing behind it. -/
structure Local (f : List Char → Option (List Char)) : Prop where
  within : ∀ cs rest, Delimited rest → f (cs ++ rest) = (f cs).map (· ++ rest)
  suffix : ∀ {cs rest}, f cs = some rest → rest <:+ cs

namespace Local

theorem eat (hp : ∀ c, p c = true → c ∉ separators) : Local (eat p) where
  within := by
    intro cs rest hrest
    cases cs with
    | cons c cs => cases hc : p c <;> simp [Shading.eat, hc]
    | nil =>
      cases rest with
      | nil => rfl
      | cons c rest =>
        have hc : p c = false := by
          cases hc : p c with
          | false => rfl
          | true => exact absurd (hrest c rfl) (hp c hc)
        simp [Shading.eat, hc]
  suffix := by
    intro cs rest h
    cases cs with
    | nil => cases h
    | cons c cs =>
      rw [Shading.eat] at h
      split at h
      · cases h
        exact suffix_cons ..
      · cases h

theorem bind (hf : Local f) (hg : Local g) : Local fun cs => (f cs).bind g where
  within := by
    intro cs rest hrest
    rw [hf.within cs rest hrest]
    cases f cs with
    | none => rfl
    | some ds => exact hg.within ds rest hrest
  suffix := by
    intro cs rest h
    obtain ⟨ds, hds, hrest⟩ := Option.bind_eq_some_iff.mp h
    exact (hg.suffix hrest).trans (hf.suffix hds)

theorem or (hf : Local f) (hg : Local g) : Local fun cs => (f cs).or (g cs) where
  within := by
    intro cs rest hrest
    rw [hf.within cs rest hrest, hg.within cs rest hrest]
    cases f cs <;> rfl
  suffix := by
    intro cs rest h
    rcases Option.or_eq_some_iff.mp h with h | ⟨-, h⟩
    · exact hf.suffix h
    · exact hg.suffix h

theorem getD (hf : Local f) : Local fun cs => some ((f cs).getD cs) where
  within := by
    intro cs rest hrest
    rw [hf.within cs rest hrest]
    cases f cs <;> rfl
  suffix := by
    intro cs rest h
    cases h
    cases hf' : f cs with
    | none => exact suffix_rfl
    | some ds => exact hf.suffix hf'

theorem dropWhile (hp : ∀ c, p c = true → c ∉ separators) : Local fun cs => some (cs.dropWhile p) where
  within := by
    intro cs rest hrest
    have hkept : rest.dropWhile p = rest := by
      cases rest with
      | nil => rfl
      | cons c rest => exact dropWhile_cons_of_neg fun hc => hp c hc (hrest c rfl)
    rw [dropWhile_append]
    split
    next hempty => simp [hkept, isEmpty_iff.mp hempty]
    next => rfl
  suffix := by
    intro cs rest h
    cases h
    exact dropWhile_suffix p

end Local

/-- What is left behind digits. -/
def digitsRest (cs : List Char) : Option (List Char) :=
  (eat Char.isDigit cs).bind fun cs => some (cs.dropWhile Char.isDigit)

/-- What is left behind an exponent. -/
def exponentRest (cs : List Char) : Option (List Char) :=
  (eat (fun c => c = 'e' || c = 'E') cs).bind fun cs =>
    (some ((eat (fun c => c = '+' || c = '-') cs).getD cs)).bind digitsRest

/-- What is left behind a fractional numeral without a sign. -/
def floatRest (cs : List Char) : Option (List Char) :=
  ((digitsRest cs).bind fun cs => (eat (· = '.') cs).bind fun cs =>
      (some (cs.dropWhile Char.isDigit)).bind fun cs => some ((exponentRest cs).getD cs)).or
    (((eat (· = '.') cs).bind fun cs => (digitsRest cs).bind fun cs =>
        some ((exponentRest cs).getD cs)).or
      ((digitsRest cs).bind exponentRest))

/-- What is left behind the start of a numeral: an optional sign, an optional point and a digit. -/
def startRest (cs : List Char) : Option (List Char) :=
  (some ((eat (· = '.') cs).getD cs)).bind (eat Char.isDigit)

/-- What is left behind an optional minus sign and what follows it. -/
def signedRest (f : List Char → Option (List Char)) (cs : List Char) : Option (List Char) :=
  (some ((eat (· = '-') cs).getD cs)).bind f

theorem leaves_digits : Leaves (.plus .digit) digitsRest := (Leaves.one _).seq (Leaves.one _).many

theorem leaves_exponent : Leaves (.rule .exponent) exponentRest :=
  .rule (((Leaves.one _).either (.one _)).seq
    (((Leaves.one _).either (.one _)).opt.seq leaves_digits))

theorem leaves_symbolChar : Leaves (.rule .symbolChar) (eat isWordChar) := by
  have hmarks := (Leaves.one (· = '(')).either
    ((Leaves.one (· = ')')).either ((Leaves.one (· = ';')).either leaves_whitespace))
  refine .rule (hmarks.except.congr fun cs => congrArg (eat · cs) (funext fun c => ?_))
  simp only [isWordChar]
  cases isBlank c <;> simp [Bool.or_assoc]

/-- The end of a numeral: no character of a word may follow. -/
def ended (f : List Char → Option (List Char)) (cs : List Char) : Option (List Char) :=
  (f cs).bind fun rest => if (eat isWordChar rest).isSome then none else some rest

theorem leaves_float : Leaves Rule.float.body (ended (signedRest floatRest)) := by
  have hexponent := leaves_exponent.opt
  have hpoint := Leaves.one (· = '.')
  have hbody := (leaves_digits.seq (hpoint.seq ((Leaves.one Char.isDigit).many.seq hexponent))).alt
    ((hpoint.seq (leaves_digits.seq hexponent)).alt (leaves_digits.seq leaves_exponent))
  refine ((Leaves.one (· = '-')).opt.seq (hbody.seq leaves_symbolChar.no)).congr fun cs => ?_
  rfl

theorem leaves_int : Leaves Rule.int.body (ended (signedRest digitsRest)) :=
  (Leaves.one (· = '-')).opt.seq (leaves_digits.seq leaves_symbolChar.no)

theorem leaves_symbol : Leaves Rule.symbol.body fun cs =>
    if (signedRest startRest cs).isSome then none
    else (eat isWordChar cs).bind fun cs => some (cs.dropWhile isWordChar) := by
  have hstart := (Leaves.one (· = '-')).opt.seq ((Leaves.one (· = '.')).opt.seq (.one Char.isDigit))
  refine (hstart.no.seq (leaves_symbolChar.seq leaves_symbolChar.many)).congr fun cs => ?_
  show (if (signedRest startRest cs).isSome then none else some cs).bind _ = _
  split <;> rfl

theorem not_mem_separators {c : Char} (hc : isNumeralChar c = true) : c ∉ separators :=
  isWordChar_iff_not_mem.mp (isWordChar_of_isNumeralChar hc)

theorem local_mark {q : Char → Bool} (hq : ∀ c, q c = true → isNumeralChar c = true) : Local (eat q) :=
  .eat fun c hc => not_mem_separators (hq c hc)

theorem isNumeralChar_of_isDigit (c : Char) (hc : c.isDigit = true) : isNumeralChar c = true := by
  simp [isNumeralChar, hc]

theorem local_digits : Local digitsRest :=
  (local_mark isNumeralChar_of_isDigit).bind
    (.dropWhile fun c hc => not_mem_separators (isNumeralChar_of_isDigit c hc))

theorem local_exponent : Local exponentRest := by
  have hmark : ∀ c : Char, (c = 'e' || c = 'E') = true → isNumeralChar c = true := by
    simp [isNumeralChar]
  have hsign : ∀ c : Char, (c = '+' || c = '-') = true → isNumeralChar c = true := by
    simp [isNumeralChar]
  exact (local_mark hmark).bind ((local_mark hsign).getD.bind local_digits)

theorem local_point : Local (eat (· = '.')) := local_mark (by simp [isNumeralChar])

theorem local_signed (hf : Local f) : Local (signedRest f) :=
  (local_mark (q := (· = '-')) (by simp [isNumeralChar])).getD.bind hf

theorem local_float : Local floatRest := by
  have hdigits : Local fun cs => some (cs.dropWhile Char.isDigit) :=
    .dropWhile fun c hc => not_mem_separators (isNumeralChar_of_isDigit c hc)
  exact (local_digits.bind (local_point.bind (hdigits.bind local_exponent.getD))).or
    ((local_point.bind (local_digits.bind local_exponent.getD)).or (local_digits.bind local_exponent))

theorem local_start : Local startRest := local_point.getD.bind (local_mark isNumeralChar_of_isDigit)

variable {cs : List Char}

theorem digitsRest_eq (cs : List Char) : digitsRest cs
    = if (cs.takeWhile Char.isDigit).isEmpty then none else some (cs.dropWhile Char.isDigit) := by
  cases cs with
  | nil => rfl
  | cons c cs => cases hc : c.isDigit <;> simp [digitsRest, eat, hc]

theorem digitsRest_eq_nil_iff : digitsRest cs = some [] ↔ isDigits cs = true := by
  cases cs with
  | nil => simp [digitsRest, eat, isDigits]
  | cons c cs => cases hc : c.isDigit <;> simp [digitsRest, eat, hc, isDigits, dropWhile_eq_nil_iff]

theorem getD_eat_minus (cs : List Char) : (eat (· = '-') cs).getD cs = (splitSign cs).2 := by
  cases cs with
  | nil => rfl
  | cons c cs => by_cases hc : c = '-' <;> simp [eat, splitSign, hc]

theorem getD_eat_sign (cs : List Char) :
    (eat (fun c => c = '+' || c = '-') cs).getD cs = (splitAnySign cs).2 := by
  cases cs with
  | nil => rfl
  | cons c cs =>
    by_cases hplus : c = '+'
    · simp [eat, splitAnySign, hplus]
    · by_cases hminus : c = '-' <;> simp [eat, splitAnySign, splitSign, hplus, hminus]

theorem exponentRest_eq_nil_iff : exponentRest cs = some [] ↔ (exponent? cs).isSome = true := by
  cases cs with
  | nil => simp [exponentRest, eat, exponent?]
  | cons mark rest =>
    by_cases hmark : mark = 'e' ∨ mark = 'E'
    · rw [exponentRest, eat, if_pos (by simpa using hmark), exponent?, if_pos hmark]
      show digitsRest ((eat _ rest).getD rest) = some [] ↔ _
      rw [getD_eat_sign, digitsRest_eq_nil_iff]
      cases hdigits : isDigits (splitAnySign rest).2 <;> simp [hdigits]
    · simp [exponentRest, eat, exponent?, hmark]

/-- Behind the digits of a fraction there is nothing, or an exponent. -/
theorem getD_exponentRest_eq_nil_iff :
    (exponentRest cs).getD cs = [] ↔ cs = [] ∨ (exponent? cs).isSome = true := by
  rw [← exponentRest_eq_nil_iff]
  cases hrest : exponentRest cs with
  | none => simp
  | some ds =>
    have hne : cs ≠ [] := by
      rintro rfl
      cases hrest
    simp [hne]

/-- The grammar's floats are the numerals that are read. -/
theorem floatRest_eq_nil_iff : floatRest cs = some [] ↔ (Decimal.unsigned? cs).isSome = true := by
  have htail : ∀ (tail : List Char) (d : Int → Decimal),
      some ((exponentRest tail).getD tail) = some []
        ↔ (if tail.isEmpty then some (d 0) else (exponent? tail).map d).isSome = true := by
    intro tail d
    rw [Option.some.injEq, getD_exponentRest_eq_nil_iff]
    cases tail <;> simp
  unfold Decimal.unsigned?
  dsimp only
  rw [floatRest, digitsRest_eq]
  by_cases hwhole : (cs.takeWhile Char.isDigit).isEmpty = true
  · -- no digit comes first, so a point has to
    have hcs : cs.dropWhile Char.isDigit = cs := by
      have hsplit := takeWhile_append_dropWhile (p := Char.isDigit) (l := cs)
      rwa [isEmpty_iff.mp hwhole] at hsplit
    cases cs with
    | nil => simp [eat]
    | cons c rest =>
      by_cases hc : c = '.'
      · subst hc
        rw [if_pos hwhole, hwhole, hcs]
        simp only [eat, decide_true, if_true, Option.bind_some, Option.bind_none, Option.none_or]
        rw [digitsRest_eq]
        generalize rest.takeWhile Char.isDigit = fraction
        generalize rest.dropWhile Char.isDigit = tail
        cases fraction with
        | nil => simp
        | cons => simpa using htail tail _
      · simp [hwhole, hcs, eat, hc]
  · have hpoint : eat (· = '.') cs = none := by
      cases cs with
      | nil => rfl
      | cons c cs =>
        have hc : c ≠ '.' := by
          rintro rfl
          exact hwhole rfl
        simp [eat, hc]
    rw [if_neg hwhole, hpoint]
    cases hrest : cs.dropWhile Char.isDigit with
    | nil => simp [eat, exponentRest, exponent?, hwhole]
    | cons c rest =>
      by_cases hc : c = '.'
      · subst hc
        simpa [eat, hwhole] using htail (rest.dropWhile Char.isDigit) _
      · simp [eat, hc, hwhole, exponentRest_eq_nil_iff]

/-- The name of what a word matches. -/
def Word.rule : Word → Rule
  | .symbol _ => .symbol
  | .int _ => .int
  | .float _ _ => .float

theorem signedRest_eq (f : List Char → Option (List Char)) (cs : List Char) :
    signedRest f cs = f (splitSign cs).2 := by
  rw [signedRest, getD_eat_minus, Option.bind_some]

theorem isSome_signedRest_startRest (cs : List Char) :
    (signedRest startRest cs).isSome = beginsLikeNumber cs := by
  rw [signedRest_eq, beginsLikeNumber]
  generalize (splitSign cs).2 = cs
  cases cs with
  | nil => rfl
  | cons c cs =>
    by_cases hc : c = '.'
    · subst hc
      cases cs with
      | nil => rfl
      | cons d cs => cases hd : d.isDigit <;> simp [startRest, eat, hd]
    · cases hd : c.isDigit <;> simp [startRest, eat, hc, hd]

/-- A numeral ends with the run that it is in, or it is none. -/
theorem ended_append (hf : Local f) (hrun : ∀ c ∈ run, isWordChar c = true)
    (hrest : Delimited rest) : ended f (run ++ rest) = if f run = some [] then some rest else none := by
  rw [ended, hf.within run rest hrest]
  cases hleft : f run with
  | none => rfl
  | some left =>
    cases left with
    | nil =>
      have hnone : eat isWordChar rest = none := by
        cases rest with
        | nil => rfl
        | cons c rest =>
          have hc : ¬ isWordChar c = true := fun hc => isWordChar_iff_not_mem.mp hc (hrest c rfl)
          simp [eat, hc]
      simp [hnone]
    | cons c left =>
      have hc := hrun c ((hf.suffix hleft).subset mem_cons_self)
      simp [eat, hc]

/-- A rule that is matched as a whole leaves one pair. -/
theorem runs_atomic (whole : List Char) (hatomic : r.isAtomic = true)
    (hsilent : r.isSilent = false) (h : Leaves r.body f) {P : Prop} [Decidable P]
    (hf : f (run ++ rest) = if P then some rest else none) :
    Runs whole false (.rule r) (run ++ rest) (if P then some ([.mk r run []], rest) else none) := by
  have hbody : Runs whole (false || r.isAtomic) r.body (run ++ rest)
      ((f (run ++ rest)).map fun rest => ([], rest)) := by
    rw [hatomic]
    exact h whole _
  have hrule := Runs.rule hbody
  rw [hf] at hrule
  split
  next hP => simpa [Rule.found, hsilent, hP] using hrule
  next hP => simpa [hP] using hrule

theorem dropWhile_isWordChar (hrun : ∀ c ∈ run, isWordChar c = true)
    (hrest : Delimited rest) : (run ++ rest).dropWhile isWordChar = rest := by
  rw [dropWhile_append_of_pos hrun]
  cases rest with
  | nil => rfl
  | cons c rest =>
    exact dropWhile_cons_of_neg fun hc => isWordChar_iff_not_mem.mp hc (hrest c rfl)

/-- What is left behind a symbol is all that follows its run. -/
theorem symbolRest_append (hrun : ∀ c ∈ run, isWordChar c = true)
    (hrest : Delimited rest) :
    (if (signedRest startRest (run ++ rest)).isSome then none
      else (eat isWordChar (run ++ rest)).bind fun cs => some (cs.dropWhile isWordChar))
      = if beginsLikeNumber run = false ∧ run ≠ [] then some rest else none := by
  rw [(local_signed local_start).within run rest hrest, Option.isSome_map,
    isSome_signedRest_startRest]
  cases hbegins : beginsLikeNumber run with
  | true => rfl
  | false =>
    cases run with
    | nil =>
      cases rest with
      | nil => rfl
      | cons c rest =>
        have hc : isWordChar c = false := by
          simpa using fun hc => isWordChar_iff_not_mem.mp hc (hrest c rfl)
        simp [eat, hc]
    | cons c run =>
      have hleft := dropWhile_isWordChar (fun d hd => hrun d (mem_cons_of_mem _ hd)) hrest
      simp [eat, hrun c mem_cons_self, hleft]

/-- **Numerals and symbols** match the runs that are words, and no part of a run. -/
theorem words_run (whole : List Char) (hrun : ∀ c ∈ run, isWordChar c = true)
    (hrest : Delimited rest) :
    Runs whole false (.alt (.rule .float) (.alt (.rule .int) (.rule .symbol))) (run ++ rest)
      ((if run = [] then none else Word.ofChars? run).map fun w => ([.mk w.rule run []], rest)) := by
  have hfloat := runs_atomic whole rfl rfl leaves_float
    (ended_append (local_signed local_float) hrun hrest)
  have hint := runs_atomic whole rfl rfl leaves_int
    (ended_append (local_signed local_digits) hrun hrest)
  have hsymbol := runs_atomic whole rfl rfl leaves_symbol (symbolRest_append hrun hrest)
  simp only [signedRest_eq, floatRest_eq_nil_iff, digitsRest_eq_nil_iff] at hfloat hint
  by_cases hnil : run = []
  · subst hnil
    exact .second hfloat (.second hint hsymbol)
  rw [if_neg hnil, Word.ofChars?, Decimal.signed?, integer?]
  dsimp only
  -- the rules are tried in the order in which a run is taken
  cases hd : Decimal.unsigned? (splitSign run).2 with
  | some d =>
    rw [hd] at hfloat
    exact .first hfloat
  | none =>
    rw [hd] at hfloat
    refine .second hfloat ?_
    by_cases hdigits : isDigits (splitSign run).2 = true
    · rw [if_pos hdigits] at hint ⊢
      exact .first hint
    · rw [if_neg hdigits] at hint ⊢
      refine .second hint ?_
      cases hbegins : beginsLikeNumber run <;> simpa [hbegins, hnil, Word.rule] using hsymbol

/-! ## §4. Expressions -/

mutual

/-- The pair is what the rules make of the tree. -/
inductive Fits : Pair → Tree → Prop
  | word {cs : List Char} {w : Word} (h : Word.ofChars? cs = some w) :
      Fits (.mk w.rule cs []) (.word cs)
  | list {text : List Char} {ps : List Pair} {items : List Tree} (h : FitsAll ps items) :
      Fits (.mk .list text ps) (.list items)

/-- The pairs are what the rules make of the trees, one by one. -/
inductive FitsAll : List Pair → List Tree → Prop
  | nil : FitsAll [] []
  | cons {p : Pair} {t : Tree} {ps : List Pair} {trees : List Tree} (hfirst : Fits p t)
      (hrest : FitsAll ps trees) : FitsAll (p :: ps) (t :: trees)

end

/-- At the front of the text there is a tree that the expression matches, or there is none. -/
inductive Meets (whole cs : List Char) (ts : List Token) : Prop
  | tree {p : Pair} {t : Tree} {rest : List Char} {us : List Token}
      (hrun : Runs whole false (.rule .expr) cs (some ([p], rest))) (hfits : Fits p t)
      (hwords : OfWords t.tokens) (hts : ts = t.tokens ++ us) (hus : Cuts rest us)
      (hlength : rest.length < cs.length)
  | nothing (hrun : Runs whole false (.rule .expr) cs none) (hstuck : Stuck ts)

/-- The repetition matches the trees at the front of the text. -/
structure MeetsAll (e : Peg) (whole cs : List Char) (ts : List Token) (ps : List Pair)
    (trees : List Tree) (rest : List Char) (us : List Token) : Prop where
  run : Runs whole false e cs (some (ps, rest))
  fits : FitsAll ps trees
  words : OfWords (tokensAll trees)
  tokens : ts = tokensAll trees ++ us
  cuts : Cuts rest us
  stuck : Stuck us
  length : rest.length ≤ cs.length

variable {ts us : List Token} {rest : List Char}

theorem Skips.cuts_iff (h : Skips cs rest) : Cuts rest ts ↔ Cuts cs ts := by
  refine ⟨h.cuts ts, fun hcs => ?_⟩
  obtain ⟨us, hus⟩ := exists_cuts rest
  rwa [hcs.unique (h.cuts us hus)]

theorem Tree.OfWords.concat (hts : OfWords ts) (hus : OfWords us) : OfWords (ts ++ us) :=
  fun cs hcs => (mem_append.mp hcs).elim (hts cs) (hus cs)

section

variable {n : Nat} (hexpr : ∀ cs ts, cs.length < n → Bare cs → Cuts cs ts → Meets whole cs ts)

include hexpr

/-- Expressions follow one another to the end. -/
theorem again_total : ∀ (m : Nat) (cs : List Char) (ts : List Token), cs.length < m → cs.length < n →
    Cuts cs ts → ∃ ps trees rest us, MeetsAll (.again (.rule .expr)) whole cs ts ps trees rest us := by
  intro m
  induction m with
  | zero => intro cs ts hm; omega
  | succ m ih =>
    intro cs ts hm hn hts
    obtain ⟨ds, hskip, hskips⟩ := skip_total whole cs
    have hshort := hskips.length
    cases hexpr ds ts (by omega) hskips.bare (hskips.cuts_iff.mpr hts) with
    | nothing hrun hstuck =>
      exact ⟨[], [], cs, ts, .againEnds hskip hrun, .nil, nofun, rfl, hts, hstuck, Nat.le_refl _⟩
    | @tree p t rest us hrun hfits hwords heq hus hlength =>
      obtain ⟨ps, trees, rest', us', h⟩ := ih rest us (by omega) (by omega) hus
      have hshort' := h.length
      exact ⟨p :: ps, t :: trees, rest', us', .again hskip hrun h.run, .cons hfits h.fits,
        .concat hwords h.words, by rw [heq, h.tokens, tokensAll, append_assoc], h.cuts, h.stuck,
        by omega⟩

theorem many_total {cs : List Char} (hn : cs.length < n) (hbare : Bare cs) (hts : Cuts cs ts) :
    ∃ ps trees rest us, MeetsAll (.many (.rule .expr)) whole cs ts ps trees rest us := by
  cases hexpr cs ts hn hbare hts with
  | nothing hrun hstuck =>
    exact ⟨[], [], cs, ts, .manyEnds hrun, .nil, nofun, rfl, hts, hstuck, Nat.le_refl _⟩
  | @tree p t rest us hrun hfits hwords heq hus hlength =>
    obtain ⟨ps, trees, rest', us', h⟩ := again_total hexpr _ rest us (Nat.lt_succ_self _) (by omega) hus
    have hshort := h.length
    exact ⟨p :: ps, t :: trees, rest', us', .many hrun h.run, .cons hfits h.fits,
      .concat hwords h.words, by rw [heq, h.tokens, tokensAll, append_assoc], h.cuts, h.stuck, by omega⟩

end

/-- `expr` leaves no pair of its own. -/
theorem runs_expr {o : Option (List Pair × List Char)}
    (h : Runs whole false (.alt (.rule .list) (.alt (.rule .float) (.alt (.rule .int) (.rule .symbol)))) cs o) :
    Runs whole false (.rule .expr) cs o := by
  have hrule := Runs.rule (k := false) (r := .expr) h
  cases o <;> exact hrule

/-- What is left where a list may end begins with the end of it, or the tokens do not. -/
theorem Bare.cuts_close (hbare : Bare cs) (h : Cuts cs (.close :: us)) :
    ∃ rest, cs = ')' :: rest ∧ Cuts rest us := by
  cases h with
  | blank hc _ => exact absurd (isBlank_iff_mem.mpr hc) (by simp [(hbare _ rfl).1])
  | comment => exact absurd rfl (hbare _ rfl).2
  | closing h => exact ⟨_, rfl, h⟩

theorem Bare.cuts_nil (hbare : Bare cs) (h : Cuts cs []) : cs = [] := by
  cases h with
  | done => rfl
  | blank hc _ => exact absurd (isBlank_iff_mem.mpr hc) (by simp [(hbare _ rfl).1])
  | comment => exact absurd rfl (hbare _ rfl).2

theorem runs_list (cs : List Char) {ds es : List Char} {ps : List Pair}
    (hskip : Runs whole false .skip cs (some ([], ds)))
    (hmany : Runs whole false (.many (.rule .expr)) ds (some (ps, es)))
    (hskip' : Runs whole false .skip es (some ([], rest))) {o : Option (List Pair × List Char)}
    (hclose : Runs whole false (.char ')') rest o) :
    Runs whole false (.rule .list) ('(' :: cs)
      (o.map fun m => ([.mk .list (('(' :: cs).take (cs.length + 1 - m.2.length)) (ps ++ m.1)], m.2)) := by
  have hopen : Runs whole false (.char '(') ('(' :: cs) (some ([], cs)) := .one rfl
  have hrule := Runs.rule (k := false) (r := .list) (.seq hopen hskip (.seq hmany hskip' hclose))
  simpa [Rule.found, Rule.isSilent, Function.comp_def] using hrule

theorem runs_list_none (h : ∀ rest, cs ≠ '(' :: rest) : Runs whole false (.rule .list) cs none := by
  refine Runs.rule (k := false) (r := .list) (o := none) (.seqFails (.oneFails fun c hc => ?_))
  obtain ⟨rest, rfl⟩ := head?_eq_some_iff.mp hc
  exact decide_eq_false fun heq => h rest (heq ▸ rfl)

/-- No tree begins with a list that is not closed. -/
theorem stuck_open {trees : List Tree} (hwords : OfWords (tokensAll trees)) (hus : Stuck us)
    (hclose : ∀ vs, us ≠ .close :: vs) : Stuck (.open :: (tokensAll trees ++ us)) := by
  intro t vs ht heq
  cases t with
  | word cs => cases heq
  | list items =>
    have heq' : tokensAll trees ++ us = tokensAll items ++ .close :: vs := by
      simpa [tokens] using heq
    have hitems : OfWords (tokensAll items) := fun cs hcs => ht cs (by simp [tokens, hcs])
    exact hclose vs (tokensAll_append_inj hwords hitems hus (stuck_close vs) heq').2

/-- A run that is no word begins no tree. -/
theorem stuck_word (h : Word.ofChars? run = none) : Stuck (.word run :: us) := by
  intro t vs ht heq
  cases t with
  | list items => cases heq
  | word cs =>
    cases heq
    have hsome := ht run mem_cons_self
    rw [h] at hsome
    cases hsome

/-- A run at the front of the text is matched if it is a word. -/
theorem meets_run (hrun : IsRun run) (hrest : Delimited rest) (hus : Cuts rest us) :
    Meets whole (run ++ rest) (.word run :: us) := by
  have hwords := words_run whole hrun.2 hrest
  have hlist : ∀ ds, run ++ rest ≠ '(' :: ds := by
    intro ds heq
    obtain ⟨c, cs, rfl⟩ := exists_cons_of_ne_nil hrun.1
    cases heq
    exact absurd (hrun.2 '(' mem_cons_self) (by decide)
  rw [if_neg hrun.1] at hwords
  have hexpr := runs_expr (.second (runs_list_none hlist) hwords)
  cases hword : Word.ofChars? run with
  | none =>
    rw [hword] at hexpr
    exact .nothing hexpr (stuck_word hword)
  | some w =>
    rw [hword] at hexpr
    refine .tree hexpr (.word hword) ?_ rfl hus ?_
    · intro cs hcs
      cases mem_singleton.mp hcs
      rw [hword]
      rfl
    · have := length_pos_iff.mpr hrun.1
      rw [length_append]
      omega

/-- Where neither a list nor a run begins, nothing is matched. -/
theorem meets_nothing (hcs : Delimited cs) (hlist : Runs whole false (.rule .list) cs none)
    (hstuck : Stuck ts) : Meets whole cs ts := by
  have hempty : ∀ c ∈ ([] : List Char), isWordChar c = true := nofun
  exact .nothing (runs_expr (.second hlist (words_run whole hempty hcs))) hstuck

/-- **`expr` matches the tree that a text begins with**, and fails where no tree begins. -/
theorem expr_total (whole : List Char) : ∀ (n : Nat) (cs : List Char) (ts : List Token), cs.length < n →
    Bare cs → Cuts cs ts → Meets whole cs ts := by
  intro n
  induction n with
  | zero => intro cs ts hn; omega
  | succ n ih =>
    intro cs ts hn hbare hts
    cases hts with
    | done => exact meets_nothing delimited_nil (runs_list_none nofun) stuck_nil
    | blank hc _ => exact absurd (isBlank_iff_mem.mpr hc) (by simp [(hbare _ rfl).1])
    | comment => exact absurd rfl (hbare _ rfl).2
    | closing h => exact meets_nothing (delimited_cons _ (by decide)) (runs_list_none nofun) (stuck_close _)
    | word hne hrun hend h =>
      exact meets_run ⟨hne, fun c hc => isWordChar_iff_not_mem.mpr (hrun c hc)⟩ hend h
    | @opening cs ts h =>
      rw [length_cons] at hn
      obtain ⟨ds, hskip, hskips⟩ := skip_total whole cs
      have hds := hskips.length
      obtain ⟨ps, trees, es, us, hmany⟩ :=
        many_total ih (by omega) hskips.bare (hskips.cuts_iff.mpr h)
      have hes := hmany.length
      obtain ⟨rest, hskip', hskips'⟩ := skip_total whole es
      have hus := hskips'.cuts_iff.mpr hmany.cuts
      have hrest := hskips'.length
      by_cases hclose : ∃ vs, us = .close :: vs
      · obtain ⟨vs, rfl⟩ := hclose
        obtain ⟨rest, rfl, hvs⟩ := hskips'.bare.cuts_close hus
        have hlist := runs_list cs hskip hmany.run hskip' (.one rfl)
        refine .tree (runs_expr (.first hlist)) (.list (append_nil ps ▸ hmany.fits)) ?_ ?_ hvs ?_
        · intro run hrun
          refine hmany.words run ?_
          simpa [tokens] using hrun
        · rw [hmany.tokens]
          simp [tokens]
        · show rest.length < _
          rw [length_cons] at hrest ⊢
          omega
      · have hclose' : ∀ vs, us ≠ .close :: vs := fun vs heq => hclose ⟨vs, heq⟩
        have hnone : Runs whole false (.char ')') rest none := by
          refine .oneFails fun c hc => decide_eq_false ?_
          rintro rfl
          obtain ⟨tail, rfl⟩ := head?_eq_some_iff.mp hc
          obtain ⟨vs, hvs⟩ := exists_cuts tail
          exact hclose' vs (hus.unique (.closing hvs))
        rw [hmany.tokens]
        exact meets_nothing (delimited_cons _ (by decide)) (runs_list cs hskip hmany.run hskip' hnone)
          (stuck_open hmany.words hmany.stuck hclose')

/-! ## §5. Both readers -/

mutual

/-- What fits a tree has its node. -/
theorem Fits.node : ∀ {p : Pair} {t : Tree}, Fits p t → p.node = t.node
  | _, _, @Fits.word cs w h => by
    rw [Tree.node, nodeOfWord, h]
    unfold Word.ofChars? at h
    grind [Word.rule, Pair.node]
  | _, _, .list h => by rw [Pair.node, Tree.node, h.nodes]

theorem FitsAll.nodes : ∀ {ps : List Pair} {trees : List Tree}, FitsAll ps trees →
    Pair.nodes ps = Tree.nodes trees
  | _, _, .nil => rfl
  | _, _, .cons hfirst hrest => by rw [Pair.nodes, Tree.nodes, hfirst.node, hrest.nodes]

end

theorem Fits.rule_ne_eoi {p : Pair} {t : Tree} (h : Fits p t) : p.rule ≠ .eoi := by
  cases h with
  | @word cs w _ => cases w <;> nofun
  | list => nofun

theorem Pair.singleNode_cons {text : List Char} {p : Pair} {inner others : List Pair}
    (h : p.rule ≠ .eoi) : Pair.singleNode (.mk r text (p :: inner) :: others) = p.node := by
  simp [Pair.singleNode, h]

theorem FitsAll.filter {ps : List Pair} {trees : List Tree} (h : FitsAll ps trees) :
    ps.filter (·.rule ≠ .eoi) = ps := by
  induction ps generalizing trees with
  | nil => rfl
  | cons p ps ih =>
    cases h with
    | cons hfirst hrest => rw [filter_cons_of_pos (by simpa using hfirst.rule_ne_eoi), ih hrest]

/-- The end of the text is matched if no token is left. -/
theorem eoi_total (whole : List Char) (h : Cuts rest us) :
    ∃ es, Runs whole false .skip rest (some ([], es))
      ∧ Runs whole false .eoi es (if us = [] then some ([.mk .eoi [] []], []) else none) := by
  obtain ⟨es, hskip, hskips⟩ := skip_total whole rest
  have hes := hskips.cuts_iff.mpr h
  refine ⟨es, hskip, ?_⟩
  split
  next hnil =>
    rw [hskips.bare.cuts_nil (hnil ▸ hes)]
    exact .eoi
  next hne =>
    cases es with
    | nil => exact absurd (hes.unique .done) hne
    | cons c es => exact .eoiFails

variable {text : String}

/-- **`document` matches the texts whose tokens are those of trees**, with their nodes. -/
theorem parses_document (hts : Cuts text.toList ts) :
    (∃ pairs trees, Parses .document text (some pairs) ∧ Grows .many ts trees
      ∧ Pair.documentNodes pairs = Tree.nodes trees)
    ∨ Parses .document text none ∧ ¬ ∃ trees, Grows .many ts trees := by
  obtain ⟨ds, hskip, hskips⟩ := skip_total text.toList text.toList
  obtain ⟨ps, trees, es, us, hmany⟩ := many_total (expr_total text.toList _) (Nat.lt_succ_self _)
    hskips.bare (hskips.cuts_iff.mpr hts)
  obtain ⟨rest, hskip', heoi⟩ := eoi_total text.toList hmany.cuts
  have hrule := Runs.rule (k := false) (r := .document) (.seq .soi hskip (.seq hmany.run hskip' heoi))
  by_cases hus : us = []
  · subst hus
    left
    refine ⟨_, trees, ⟨_, hrule, rfl⟩, ⟨?_, ?_, nofun⟩, ?_⟩
    · rw [hmany.tokens, append_nil]
    · rw [hmany.tokens, append_nil]
      exact hmany.words
    · show Pair.nodes ((ps ++ [Pair.mk .eoi [] []]).filter (·.rule ≠ .eoi)) = _
      rw [filter_append, hmany.fits.filter, ← hmany.fits.nodes]
      exact congrArg _ (append_nil ps)
  · right
    rw [if_neg hus] at hrule
    refine ⟨⟨_, hrule, rfl⟩, ?_⟩
    rintro ⟨trees', htokens, hwords, -⟩
    have heq : tokensAll trees' ++ [] = tokensAll trees ++ us := by
      rw [append_nil, htokens, hmany.tokens]
    subst htokens
    exact hus (tokensAll_append_inj hwords hmany.words stuck_nil hmany.stuck heq).2.symm

/-- **`single` matches the texts whose tokens are those of one tree**, with its node. -/
theorem parses_single (hts : Cuts text.toList ts) :
    (∃ pairs t, Parses .single text (some pairs) ∧ Grows .one ts [t]
      ∧ Pair.singleNode pairs = t.node)
    ∨ Parses .single text none ∧ ¬ ∃ trees, Grows .one ts trees := by
  obtain ⟨ds, hskip, hskips⟩ := skip_total text.toList text.toList
  cases expr_total text.toList _ ds ts (Nat.lt_succ_self _) hskips.bare (hskips.cuts_iff.mpr hts) with
  | nothing hrun hstuck =>
    right
    refine ⟨⟨_, .rule (.seq .soi hskip (.seqFails hrun)), rfl⟩, ?_⟩
    rintro ⟨trees, rfl, hwords, hsingle⟩
    obtain ⟨t, rfl⟩ := hsingle rfl
    exact hstuck t [] hwords.append.1 rfl
  | @tree p t es us hrun hfits hwords heq hus hlength =>
    obtain ⟨rest, hskip', heoi⟩ := eoi_total text.toList hus
    have hrule := Runs.rule (k := false) (r := .single) (.seq .soi hskip (.seq hrun hskip' heoi))
    by_cases hnil : us = []
    · subst hnil
      left
      refine ⟨_, t, ⟨_, hrule, rfl⟩, ⟨?_, ?_, fun _ => ⟨t, rfl⟩⟩,
        (Pair.singleNode_cons hfits.rule_ne_eoi).trans hfits.node⟩
      · rw [heq]
        rfl
      · rw [heq, append_nil]
        exact hwords
    · right
      rw [if_neg hnil] at hrule
      refine ⟨⟨_, hrule, rfl⟩, ?_⟩
      rintro ⟨trees, rfl, -, hsingle⟩
      obtain ⟨t', rfl⟩ := hsingle rfl
      exact hnil (tokens_append_inj heq).2.symm

section

variable {α : Type} {r : Rule} {read : List Pair → Except SexpError α} {pos : Pos}
  {result : Except SexpError α}

theorem Parses.unique {o o' : Option (List Pair)} (h : Parses r text o) (h' : Parses r text o') :
    o = o' := by
  obtain ⟨m, hm, rfl⟩ := h
  obtain ⟨m', hm', rfl⟩ := h'
  rw [hm.unique hm']

theorem readsBy_iff_of_pairs {pairs : List Pair} (h : Parses r text (some pairs)) :
    ReadsBy r read pos text result ↔ result = read pairs := by
  constructor
  · rintro (⟨hnone, -⟩ | ⟨pairs', h', rfl⟩)
    · cases h.unique hnone
    · cases h.unique h'
      rfl
  · exact fun hresult => .inr ⟨pairs, h, hresult⟩

theorem readsBy_iff_of_none (h : Parses r text none) :
    ReadsBy r read pos text result ↔ result = .error (.grammar pos) := by
  constructor
  · rintro (⟨-, hresult⟩ | ⟨pairs, h', -⟩)
    · exact hresult
    · cases h.unique h'
  · exact fun hresult => .inl ⟨h, hresult⟩

end

/-- **The readers accept exactly their language.**  They compute what the grammar gives: the pairs that
    it matches, taken as nodes, or else an error.  A text is cut into tokens in one way.  All of its
    S-expressions are read if its parentheses match, its runs are words and its numbers are in range;
    the nodes are then those that the tokens spell.  Otherwise the error is a grammatical one if the
    tokens are not legal, and else the leftmost run out of range.  To read one S-expression asks for the
    same, and for exactly one. -/
theorem readExpressions_language (text : String) :
    (∃ pos, ∀ result, ReadsBy .document Pair.documentNodes pos text result
        ↔ result = readExpressions text)
      ∧ (∃ pos, ∀ result, ReadsBy .single Pair.singleNode pos text result
        ↔ result = readExpression text)
      ∧ ∃ ts, (∀ us, Cuts text.toList us ↔ us = ts)
        ∧ Obeys .many ts SpellsAll (readExpressions text)
        ∧ Obeys .one ts SpellsNode (readExpression text) := by
  obtain ⟨ts, hts⟩ := exists_cuts text.toList
  refine ⟨?_, ?_, ts, fun us => ?_, obeys_readExpressions hts, obeys_readExpression hts⟩
  · rcases parses_document hts with ⟨pairs, trees, hparses, hgrows, hnodes⟩ | ⟨hparses, hgrows⟩
    · refine ⟨.start, fun result => ?_⟩
      rw [readsBy_iff_of_pairs hparses, hnodes, readExpressions, readNodes_of_grows hts hgrows]
    · obtain ⟨pos, hread⟩ := readNodes_of_not_grows hts hgrows
      refine ⟨pos, fun result => ?_⟩
      rw [readsBy_iff_of_none hparses, readExpressions, hread]
  · rcases parses_single hts with ⟨pairs, t, hparses, hgrows, hnode⟩ | ⟨hparses, hgrows⟩
    · refine ⟨.start, fun result => ?_⟩
      rw [readsBy_iff_of_pairs hparses, hnode, readExpression_of_grows hts hgrows]
    · obtain ⟨pos, hread⟩ := readNodes_of_not_grows hts hgrows
      refine ⟨pos, fun result => ?_⟩
      rw [readsBy_iff_of_none hparses, readExpression, hread]
  · refine ⟨fun hus => hus.unique hts, ?_⟩
    rintro rfl
    exact hts

end Shading
