/-
  Shading.Proofs.Glsl.Legible — values are written with balanced parentheses.

  A text is legible if it is there and its parentheses are balanced.  The name of a type, a variable
  or a function can be any text, so what is written is legible only if they are.  Then every value
  is, and the text of an expression has one of two forms (`Shaped`), as the printer's test says.
-/
import Shading.Glsl.Module
import Shading.Proofs.Constant
import Shading.Proofs.Number.Numeral
import Shading.Proofs.Read.Made
import Shading.Proofs.RoundTrip.Names

namespace Shading

open List

/-! ## §1. Balanced texts -/

/-- How deep in parentheses a character leads; nothing if it closes what is not open. -/
def nest (depth : Nat) (c : Char) : Option Nat :=
  if c = '(' then some (depth + 1)
  else if c = ')' then if depth = 0 then none else some (depth - 1)
  else some depth

/-- How deep in parentheses the characters lead. -/
def nesting (depth : Nat) (cs : List Char) : Option Nat := cs.foldlM nest depth

/-- Every parenthesis of the text has its partner in the text. -/
def Balanced (text : String) : Prop := nesting 0 text.toList = some 0

instance (text : String) : Decidable (Balanced text) := inferInstanceAs (Decidable (_ = _))

/-- The text stands in one pair of parentheses. -/
def Enclosed (text : String) : Prop := ∃ inner, Balanced inner ∧ text = "(" ++ inner ++ ")"

/-- The text is there, and it is balanced. -/
def Legible (text : String) : Prop := Balanced text ∧ text ≠ ""

instance (text : String) : Decidable (Legible text) := inferInstanceAs (Decidable (_ ∧ _))

theorem nesting_append {depth : Nat} {xs ys : List Char} :
    nesting depth (xs ++ ys) = (nesting depth xs).bind fun d => nesting d ys :=
  foldlM_append

/-- One more open parenthesis makes room for everything that went before. -/
theorem nest_deeper {d e : Nat} {c : Char} (h : nest d c = some e) : nest (d + 1) c = some (e + 1) := by
  unfold nest at h ⊢
  split at h
  next => simp_all
  next =>
    split at h
    next =>
      split at h
      next => cases h
      next =>
        cases h
        simp_all
        omega
    next => simp_all

theorem nesting_deeper {d e : Nat} {cs : List Char} (h : nesting d cs = some e) :
    nesting (d + 1) cs = some (e + 1) := by
  induction cs generalizing d with
  | nil =>
    cases h
    rfl
  | cons c cs ih =>
    simp only [nesting, foldlM_cons, Option.bind_eq_bind, Option.bind_eq_some_iff] at h ⊢
    obtain ⟨m, hm, h⟩ := h
    exact ⟨m + 1, nest_deeper hm, ih h⟩

variable {a b text : String}

/-- Balanced texts may be put side by side. -/
theorem Balanced.append (ha : Balanced a) (hb : Balanced b) : Balanced (a ++ b) := by
  unfold Balanced at *
  rw [String.toList_append, nesting_append, ha]
  exact hb

/-- Parentheses around a balanced text keep it balanced. -/
theorem Balanced.enclose (h : Balanced text) : Balanced ("(" ++ text ++ ")") := by
  unfold Balanced at *
  rw [String.toList_append, String.toList_append, nesting_append, nesting_append]
  show ((nesting 1 text.toList).bind fun d => nesting d [')']) = some 0
  rw [nesting_deeper h]
  rfl

theorem balanced_of_forall (h : ∀ c ∈ text.toList, c ≠ '(' ∧ c ≠ ')') : Balanced text := by
  unfold Balanced
  generalize text.toList = cs at h
  induction cs with
  | nil => rfl
  | cons c cs ih =>
    obtain ⟨hc, hcs⟩ := forall_mem_cons.mp h
    have hnest : nest 0 c = some 0 := by simp [nest, hc]
    rw [nesting, foldlM_cons, hnest]
    exact ih hcs

/-- A legible text with something behind it is not enclosed by one pair of parentheses. -/
theorem not_enclosed_append (ha : Legible a) (hb : b ≠ "") : ¬ Enclosed (a ++ b) := by
  rintro ⟨inner, hinner, h⟩
  replace h := congrArg String.toList h
  have hopen : "(".toList = ['('] := rfl
  have hclose : ")".toList = [')'] := rfl
  simp only [String.toList_append, hopen, hclose, cons_append, nil_append] at h
  obtain ⟨hbalanced, hne⟩ := ha
  unfold Balanced at hbalanced hinner
  have hbs : b.toList ≠ [] := by simpa using hb
  cases has : a.toList with
  | nil => exact hne (by simpa using has)
  | cons c as =>
    rw [has, cons_append] at h
    rw [has] at hbalanced
    obtain ⟨rfl, hrest⟩ := cons.inj h
    obtain ⟨bs, last, hlast⟩ := (eq_nil_or_concat b.toList).resolve_left hbs
    rw [hlast, concat_eq_append, ← append_assoc] at hrest
    obtain ⟨hinside, -⟩ := append_inj' hrest rfl
    -- the rest of `a` closes a parenthesis that it does not open, and `inner` begins with it
    have hcloses : nesting 1 as = some 0 := hbalanced
    rw [← hinside, nesting_append, Option.bind_eq_some_iff] at hinner
    obtain ⟨e, he, -⟩ := hinner
    rw [nesting_deeper he] at hcloses
    cases hcloses

/-! ## §2. Legible texts -/

theorem Legible.append (ha : Legible a) (hb : Balanced b) : Legible (a ++ b) := by
  refine ⟨ha.1.append hb, ?_⟩
  intro h
  exact ha.2 (String.append_eq_empty_iff.mp h).1

theorem balanced_empty : Balanced "" := by decide

/-- A balanced separator keeps a list of texts balanced. -/
theorem balanced_intercalate {texts : List String} (ha : Balanced a)
    (h : ∀ text ∈ texts, Balanced text) : Balanced (a.intercalate texts) := by
  induction texts with
  | nil => exact balanced_empty
  | cons first rest ih =>
    obtain ⟨hfirst, hrest⟩ := forall_mem_cons.mp h
    cases rest with
    | nil => simpa using hfirst
    | cons second rest =>
      rw [String.intercalate_cons_cons]
      exact (hfirst.append ha).append (ih hrest)

theorem balanced_argumentList {texts : List String} (h : ∀ text ∈ texts, Balanced text) :
    Balanced (argumentList texts) :=
  (balanced_intercalate (by decide) h).enclose

/-- A run of characters has no parentheses. -/
theorem legible_of_isRun (h : IsRun text.toList) : Legible text := by
  refine ⟨balanced_of_forall ?_, by simpa using h.1⟩
  intro c hc
  have hword := h.2 c hc
  constructor
  all_goals
    rintro rfl
    cases hword

theorem legible_int (n : Int) : Legible (toString n) := legible_of_isRun (isRun_toString n)

theorem legible_nat (n : Nat) : Legible (toString n) := legible_int n

theorem Binary.legible_text (x : Single) : Legible x.text := by
  by_cases hx : x.isFinite = true
  · obtain ⟨d, hd, -⟩ := Binary.signed?_text Format.wide_single hx
    exact legible_of_isRun (isRun_of_signed? hd)
  · have hinfinite : x.isFinite = false := by simpa using hx
    unfold Binary.text
    rw [hinfinite]
    split
    · decide
    · cases x.negative with
      | false => exact (by decide : Legible "inf")
      | true => exact (by decide : Legible "-inf")

/-! ## §3. What is written -/

/-- Whatever was written before, the computation gives something with the property. -/
def SourceM.Gives {α : Type} (x : SourceM α) (P : α → Prop) : Prop := ∀ s, P (x.run s).1

/-- What one step gives is handed on to the next. -/
theorem SourceM.Gives.bind {α β : Type} {P : α → Prop} {Q : β → Prop} {x : SourceM α}
    {f : α → SourceM β} (hx : x.Gives P) (hf : ∀ a, P a → (f a).Gives Q) : (x >>= f).Gives Q :=
  fun s => hf _ (hx s) _

theorem gives_pure {α : Type} {P : α → Prop} {x : α} (h : P x) : (pure x : SourceM α).Gives P :=
  fun _ => h

theorem gives_noting {α : Type} {P : α → Prop} {c : Prop} [Decidable c] {p : Placeholder}
    {x : SourceM α} (h : x.Gives P) : (if c then (do SourceM.placeholder p; x) else x).Gives P := by
  split
  · exact fun s => h _
  · exact h

theorem gives_varName {v : Var} (h : Legible v.name) : (SourceM.varName v).Gives Legible := by
  intro s
  unfold SourceM.varName
  split
  · exact Legible.append (a := "tmpvar_") (by decide) (legible_nat _).1
  · exact h

/-- The type is written legibly. -/
def Ty.IsLegible (ty : Ty) : Prop := (SourceM.typeName ty).Gives Legible

variable {ty : Ty}

theorem Ty.isLegible_of_name? {name : String} (h : ty.name? = some name) (hname : Legible name) :
    ty.IsLegible := by
  cases ty with
  | array | function => cases h
  | error => exact fun _ => (by decide : Legible "error")
  | _ =>
    cases h
    exact fun _ => hname

theorem Ty.IsLegible.array (h : ty.IsLegible) (length : UInt32) : (Ty.array ty length).IsLegible := by
  refine SourceM.Gives.bind h fun name hname => gives_pure ?_
  exact ((hname.append (by decide)).append (legible_nat _).1).append (by decide)

theorem Ty.isLegible_ofComponents (kind : Scalar) (n : Nat) : (Ty.ofComponents kind n).IsLegible := by
  unfold Ty.ofComponents
  split
  all_goals exact isLegible_of_name? rfl (by cases kind <;> decide)

/-- Types, variables and functions are all written legibly. -/
def SymbolTable.AllLegible : SymbolTable → Prop :=
  SymbolTable.Names (fun _ ty => ty.IsLegible) fun _ own => Legible own

variable {env : Env}

/-- The types of values that were read have legible names if all names in scope do. -/
theorem Typed.isLegible (h : Typed env ty) (henv : env.symbols.AllLegible) : ty.IsLegible := by
  obtain ⟨node, h⟩ := h
  induction node using readType.induct generalizing ty with
  | case1 name =>
    rw [readType, Env.require_eq_ok] at h
    exact henv.findType? h
  | case2 element length ih =>
    simp only [readType, except_bind_eq_ok, Env.require_eq_ok] at h
    obtain ⟨t, ht, n, -, h⟩ := h
    cases h
    exact (ih ht).array n
  | case3 node h1 h2 =>
    rw [readType] at h
    · exact absurd h Env.fail_ne_ok
    all_goals assumption

/-! ## §4. Constants -/

theorem ScalarValue.legible_source (x : ScalarValue) : Legible x.source := by
  cases x with
  | float value => exact value.legible_text
  | int value => exact legible_int _
  | uint value => exact (legible_nat _).append (by decide)
  | bool value => cases value <;> decide

/-- A padded constant is written as a literal or as a call of its type. -/
theorem Constant.Padded.gives {c : Constant} {kind : Scalar} {values : List ScalarValue}
    (h : c.Padded kind values) (hty : c.ty.IsLegible) : c.source.Gives Legible := by
  have hlength := h.length_components
  have hplace := h.places 0
  obtain ⟨ty, value⟩ := c
  have htexts : ∀ text ∈ (Constant.components ⟨ty, value⟩).map (·.source), Legible text := by
    intro text htext
    obtain ⟨x, -, rfl⟩ := mem_map.mp htext
    exact x.legible_source
  rw [Constant.source]
  · split
    next hscalar =>
      refine gives_pure ?_
      have hone : ty.components = 1 := by
        cases ty <;> first | rfl | cases hscalar
      obtain ⟨x, hx⟩ := length_eq_one_iff.mp (hlength.trans hone)
      rw [hx]
      simpa [commas] using x.legible_source
    next =>
      refine SourceM.Gives.bind hty fun name hname => gives_pure (hname.append ?_)
      exact balanced_argumentList fun text htext => (htexts text htext).1
  · rintro elements rfl
    cases hplace

theorem gives_constants {cs : List Constant} (h : ∀ c ∈ cs, c.source.Gives Legible) :
    (Constant.sources cs).Gives fun texts => ∀ text ∈ texts, Legible text := by
  induction cs with
  | nil => exact gives_pure (by simp)
  | cons c rest ih =>
    obtain ⟨hc, hrest⟩ := forall_mem_cons.mp h
    refine SourceM.Gives.bind hc fun text htext => ?_
    refine SourceM.Gives.bind (ih hrest) fun texts htexts => gives_pure ?_
    exact forall_mem_cons.mpr ⟨htext, htexts⟩

/-- Every constant that was made has a legible text, arrays by induction. -/
theorem Constant.Made.gives {c : Constant} (h : c.Made env) (henv : env.symbols.AllLegible) :
    c.source.Gives Legible := by
  induction h with
  | float type finite made =>
    obtain ⟨rfl, hpadded⟩ := padded_float made
    exact hpadded.gives (type.isLegible henv)
  | int type made =>
    obtain ⟨rfl, hpadded⟩ := padded_int made
    exact hpadded.gives (type.isLegible henv)
  | uint type made =>
    obtain ⟨rfl, hpadded⟩ := padded_uint made
    exact hpadded.gives (type.isLegible henv)
  | bool type made =>
    obtain ⟨rfl, hpadded⟩ := padded_bool made
    exact hpadded.gives (type.isLegible henv)
  | array type parts made ih =>
    obtain ⟨rfl, -⟩ := array_eq_ok made
    rw [Constant.source]
    refine SourceM.Gives.bind (type.isLegible henv) fun name hname => ?_
    refine SourceM.Gives.bind (gives_constants ih) fun texts htexts => gives_pure (hname.append ?_)
    exact balanced_argumentList fun text htext => (htexts text htext).1

/-! ## §5. Expressions -/

/-- The text begins with a letter. -/
def StartsWithLetter (text : String) : Prop := text.toList.head?.any (·.isAlpha) = true

instance (text : String) : Decidable (StartsWithLetter text) := inferInstanceAs (Decidable (_ = _))

theorem StartsWithLetter.append (h : StartsWithLetter a) : StartsWithLetter (a ++ b) := by
  unfold StartsWithLetter at *
  rw [String.toList_append]
  cases ha : a.toList with
  | nil =>
    rw [ha] at h
    cases h
  | cons c cs =>
    rw [ha] at h
    exact h

theorem legible_operatorFunction {op : Operator}
    (h : (if op.isBinary then op.infixSymbol? else op.prefixSymbol?) = none) :
    Legible (operatorFunction op) ∧ StartsWithLetter (operatorFunction op) := by
  cases op <;> cases h <;> decide

theorem legible_vectorComparison (op : Operator) :
    Legible (vectorComparison op) ∧ StartsWithLetter (vectorComparison op) := by
  unfold vectorComparison
  split
  all_goals decide

theorem legible_infixSymbol? {op : Operator} {symbol : String} (h : op.infixSymbol? = some symbol) :
    Legible symbol := by
  cases op <;> cases h <;> decide

theorem legible_prefixSymbol? {op : Operator} {symbol : String} (h : op.prefixSymbol? = some symbol) :
    Legible symbol := by
  cases op <;> cases h <;> decide

/-- Is the text written in parentheses? -/
def Spelling.isParenthesized : Spelling → Bool
  | conversion | function _ => false
  | reciprocal | before _ | between _ => true

/-- An operator with one operand is parenthesized by its spelling alone. -/
theorem isParenthesized_one (op : Operator) (ty : Ty) (x : Rvalue) :
    (Rvalue.expression op ty [x]).isParenthesized = (spellingOfOne op ty).isParenthesized := by
  rw [Rvalue.isParenthesized, spellingOfOne]
  split
  next h => simp [h, Spelling.isParenthesized]
  split
  next h => simp [h, Spelling.isParenthesized]
  next hconversion hnot =>
    have hlogic : (op = .logicNot && ty.isVector) = false := by simpa using hnot
    split
    next hrcp =>
      subst hrcp
      rfl
    next hrcp =>
      cases hsymbol : op.prefixSymbol? <;>
        simp [hconversion, hlogic, hrcp, Spelling.isParenthesized]

/-- An operator with two operands is parenthesized by its spelling alone. -/
theorem isParenthesized_two (op : Operator) (ty : Ty) (x y : Rvalue) :
    (Rvalue.expression op ty [x, y]).isParenthesized
      = (spellingOfTwo op ty x.ty).isParenthesized := by
  rw [Rvalue.isParenthesized, spellingOfTwo]
  split
  next h => simp [h, Spelling.isParenthesized]
  split
  next h => simp [h, Spelling.isParenthesized]
  next hvector hmod =>
    have hcomparison : (op.isComparison && ty.isVector) = false := by simpa using hvector
    have hother : (op = .mod && !x.ty.isInteger) = false := by simpa using hmod
    cases hsymbol : op.infixSymbol? <;> simp [hcomparison, hother, Spelling.isParenthesized]

/-- **The test agrees with the spelling**: its cases are those by which an expression is written. -/
theorem isParenthesized_eq_spelling (op : Operator) (ty : Ty) (operands : List Rvalue) :
    (Rvalue.expression op ty operands).isParenthesized
      = (spelling op ty operands).isParenthesized := by
  unfold spelling
  split
  next x => exact isParenthesized_one op ty x
  next x y => exact isParenthesized_two op ty x y
  next hone htwo =>
    cases operands with
    | nil => rfl
    | cons x rest =>
      cases rest with
      | nil => exact absurd rfl (hone x)
      | cons y rest =>
        cases rest with
        | nil => exact absurd rfl (htwo x y)
        | cons => rfl

/-- The two forms of the text of an expression: the printer's parentheses around something that does
    not come in parentheses itself, or a name and an argument list.  The name of a conversion is that
    of its type. -/
def Shaped (op : Operator) (type : String) (parenthesized : Bool) (text : String) : Prop :=
  if parenthesized then
    ∃ inner, Balanced inner ∧ ¬ Enclosed inner ∧ text = "(" ++ inner ++ ")"
  else
    ∃ name args, Legible name ∧ Balanced args ∧ args ≠ "" ∧ text = name ++ args
      ∧ (StartsWithLetter name ∨ op.isConversion = true ∧ name = type)

variable {op : Operator} {type : String} {texts : List String}

theorem argumentList_ne_empty : argumentList texts ≠ "" := by
  intro h
  have hnone := congrArg String.toList h
  simp [argumentList] at hnone

theorem shaped_function {name : String} (hname : Legible name ∧ StartsWithLetter name)
    (h : ∀ text ∈ texts, Legible text) :
    Shaped op type (Spelling.function name).isParenthesized ((Spelling.function name).apply type texts) :=
  ⟨name, argumentList texts, hname.1, balanced_argumentList fun text htext => (h text htext).1,
    argumentList_ne_empty, rfl, .inl hname.2⟩

/-- The text of an operator with one operand has the shape its spelling says. -/
theorem shaped_one (hop : op.isBinary = false) (htype : Legible type) (h : Legible text) :
    Shaped op type (spellingOfOne op ty).isParenthesized ((spellingOfOne op ty).apply type [text]) := by
  have htexts : ∀ t ∈ [text], Legible t := by simpa using h
  unfold spellingOfOne
  split
  next hconversion =>
    exact ⟨type, argumentList [text], htype, balanced_argumentList fun t ht => (htexts t ht).1,
      argumentList_ne_empty, rfl, .inr ⟨hconversion, rfl⟩⟩
  split
  next => exact shaped_function (by decide) htexts
  split
  next =>
    refine ⟨"1.0 / " ++ text, Balanced.append (by decide) h.1, not_enclosed_append (by decide) h.2, ?_⟩
    simp [Spelling.apply, ← String.append_assoc]
  split
  next symbol hsymbol =>
    have hlegible := legible_prefixSymbol? hsymbol
    refine ⟨symbol ++ text, hlegible.1.append h.1, not_enclosed_append hlegible h.2, ?_⟩
    simp [Spelling.apply, String.append_assoc]
  next hsymbol => exact shaped_function (legible_operatorFunction (by simpa [hop] using hsymbol)) htexts

/-- The text of an operator with two operands has the shape its spelling says. -/
theorem shaped_two {first : Ty} (hop : op.isBinary = true) (ha : Legible a) (hb : Legible b) :
    Shaped op type (spellingOfTwo op ty first).isParenthesized
      ((spellingOfTwo op ty first).apply type [a, b]) := by
  have htexts : ∀ t ∈ [a, b], Legible t := by simpa using ⟨ha, hb⟩
  unfold spellingOfTwo
  split
  next => exact shaped_function (legible_vectorComparison op) htexts
  split
  next => exact shaped_function (by decide) htexts
  split
  next symbol hsymbol =>
    have hlegible := legible_infixSymbol? hsymbol
    have hbetween : Balanced (" " ++ symbol ++ " ") :=
      (Balanced.append (by decide) hlegible.1).append (by decide)
    refine ⟨a ++ (" " ++ symbol ++ " " ++ b), ha.1.append (hbetween.append hb.1), ?_, ?_⟩
    · refine not_enclosed_append ha ?_
      intro hempty
      exact hb.2 (String.append_eq_empty_iff.mp hempty).2
    · simp [Spelling.apply, String.append_assoc]
  next hsymbol => exact shaped_function (legible_operatorFunction (by simpa [hop] using hsymbol)) htexts

variable {operands : List Rvalue}

theorem shaped_apply (harity : operands.length = op.arity) (htype : Legible type)
    (hlength : texts.length = operands.length) (h : ∀ text ∈ texts, Legible text) :
    Shaped op type (spelling op ty operands).isParenthesized
      ((spelling op ty operands).apply type texts) := by
  unfold Operator.arity at harity
  split at harity
  next hop =>
    obtain ⟨x, y, rfl⟩ := length_eq_two.mp harity
    obtain ⟨a, b, rfl⟩ := length_eq_two.mp hlength
    simp only [forall_mem_cons] at h
    exact shaped_two hop h.1 h.2.1
  next hop =>
    obtain ⟨x, rfl⟩ := length_eq_one_iff.mp harity
    obtain ⟨a, rfl⟩ := length_eq_one_iff.mp hlength
    exact shaped_one (by simpa using hop) htype (h a mem_cons_self)

theorem gives_sources {rs : List Rvalue} (h : ∀ r ∈ rs, r.source.Gives Legible) :
    (Rvalue.sources rs).Gives fun texts =>
      texts.length = rs.length ∧ ∀ text ∈ texts, Legible text := by
  induction rs with
  | nil => exact gives_pure (by simp)
  | cons r rest ih =>
    obtain ⟨hr, hrest⟩ := forall_mem_cons.mp h
    refine SourceM.Gives.bind hr fun text htext => ?_
    refine SourceM.Gives.bind (ih hrest) fun texts htexts => gives_pure ?_
    exact ⟨congrArg (· + 1) htexts.1, forall_mem_cons.mpr ⟨htext, htexts.2⟩⟩

/-- **The text of an expression has the shape of its operator's spelling.** -/
theorem shaped_source (harity : operands.length = op.arity) (hty : ty.IsLegible)
    (hoperands : ∀ x ∈ operands, x.source.Gives Legible) (s : SourceState) :
    Shaped op ((SourceM.typeName ty).run s).1 (Rvalue.expression op ty operands).isParenthesized
      ((Rvalue.expression op ty operands).source.run s).1 := by
  have hsources := gives_sources hoperands
  have happly : ∃ s', ((Rvalue.expression op ty operands).source.run s).1
      = (spelling op ty operands).apply ((SourceM.typeName ty).run s).1
        ((Rvalue.sources operands).run s').1 := by
    rw [Rvalue.source]
    cases hspelling : spelling op ty operands with
    | conversion => exact ⟨((SourceM.typeName ty).run s).2, rfl⟩
    | _ => exact ⟨s, rfl⟩
  obtain ⟨s', htext⟩ := happly
  rw [htext, isParenthesized_eq_spelling]
  exact shaped_apply harity (hty s) (hsources s').1 (hsources s').2

theorem Shaped.legible {parenthesized : Bool} (h : Shaped op type parenthesized text) :
    Legible text := by
  unfold Shaped at h
  split at h
  · obtain ⟨inner, hinner, -, rfl⟩ := h
    refine ⟨hinner.enclose, ?_⟩
    intro hempty
    have hnone := congrArg String.toList hempty
    simp at hnone
  · obtain ⟨name, args, hname, hargs, -, rfl, -⟩ := h
    exact hname.append hargs

/-- An expression is enclosed in parentheses exactly where its spelling says so. -/
theorem Shaped.enclosed_iff {parenthesized : Bool} (h : Shaped op type parenthesized text) :
    parenthesized = true ↔ Enclosed text := by
  unfold Shaped at h
  split at h
  next hparenthesized =>
    obtain ⟨inner, hinner, -, htext⟩ := h
    exact ⟨fun _ => ⟨inner, hinner, htext⟩, fun _ => hparenthesized⟩
  next hparenthesized =>
    obtain ⟨name, args, hname, hargs, hne, rfl, -⟩ := h
    exact ⟨fun hp => absurd hp hparenthesized, fun he => absurd he (not_enclosed_append hname hne)⟩

/-! ## §6. Lookups -/

theorem Offsets.balanced_argument (o : Offsets) (n : Nat) : Balanced (o.argument n) := by
  have hnumbers : ∀ text ∈ ([o.x, o.y, o.z].take n).map fun x => toString x.toInt, Balanced text := by
    intro text htext
    obtain ⟨x, -, rfl⟩ := mem_map.mp htext
    exact (legible_int _).1
  unfold Offsets.argument
  split
  next x hx => exact hnumbers x (by rw [hx]; exact mem_cons_self)
  next =>
    have hvector := (Balanced.append (a := "ivec") (by decide) (legible_nat n).1).append
      (balanced_argumentList hnumbers)
    simpa [argumentList, commas, String.append_assoc] using hvector

theorem Sampler.balanced_ownFunctionWord? {s : Sampler} {word : String}
    (h : s.ownFunctionWord? = some word) : Balanced word := by
  unfold Sampler.ownFunctionWord? at h
  split at h
  · cases h
  · split at h <;> cases h <;> decide

/-- The function that a lookup calls has a legible name. -/
theorem Lookup.legible_functionName (lookup : Lookup) (s : Sampler) (projected offset : Bool) :
    Legible (lookup.functionName s projected offset) := by
  have hproj : Balanced (if projected then "Proj" else "") := by cases projected <;> decide
  have hoffset : Balanced (if offset then "Offset" else "") := by cases offset <;> decide
  have hword : Balanced lookup.word := by
    unfold Lookup.word
    split <;> decide
  unfold Lookup.functionName
  refine Legible.append (Legible.append ?_ hword) hoffset
  split
  · decide
  · split
    next word hown =>
      have hstem : Legible (if s.shadow then "shadow" else "texture") := by cases s.shadow <;> decide
      split at hown
      · exact (hstem.append (Sampler.balanced_ownFunctionWord? hown)).append hproj
      · cases hown
    next => exact Legible.append (by decide) hproj

/-- The coordinate is joined with the comparator and the projector. -/
theorem balanced_coordinateArgument {s : Sampler} {size : Nat} {comparator projector : Option String}
    (h : Balanced text) (hcomparator : ∀ t ∈ comparator, Balanced t)
    (hprojector : ∀ t ∈ projector, Balanced t) :
    Balanced (coordinateArgument s size text comparator projector) := by
  unfold coordinateArgument
  split
  · exact h
  · refine (Balanced.append (a := "vec") (by decide) (legible_nat size).1).append
      (balanced_argumentList ?_)
    have hpadding : ∀ t ∈ if needsPadding s comparator.isSome then ["0.0"] else [], Balanced t := by
      split
      · simpa using (by decide : Balanced "0.0")
      · simp
    simp only [forall_mem_append, forall_mem_singleton, Option.mem_toList]
    exact ⟨⟨⟨h, hpadding⟩, hcomparator⟩, hprojector⟩

theorem balanced_lookupArguments {lookup : Lookup} {s : Sampler} {offsets : Offsets}
    (h : ∀ text ∈ texts, Balanced text) :
    ∀ text ∈ lookupArguments lookup s offsets texts, Balanced text := by
  have hoffset : ∀ t ∈ if offsets.isNonzero then [offsets.argument s.texelComponents] else [],
      Balanced t := by
    split
    · simpa using offsets.balanced_argument _
    · simp
  cases lookup with
  | bias amount => exact forall_mem_append.mpr ⟨hoffset, h⟩
  | _ => exact forall_mem_append.mpr ⟨h, hoffset⟩

theorem gives_sourceOption {o : Option Rvalue} (h : ∀ r ∈ o, r.source.Gives Legible) :
    (Rvalue.sourceOption o).Gives fun t => ∀ text ∈ t, Balanced text := by
  cases o with
  | none => exact gives_pure (by simp)
  | some r =>
    refine SourceM.Gives.bind (h r rfl) fun text htext => gives_pure ?_
    simpa using htext.1

theorem Lookup.gives_sources {lookup : Lookup} (h : ∀ r ∈ lookup.operands, r.source.Gives Legible) :
    (Lookup.sources lookup).Gives fun texts => ∀ text ∈ texts, Balanced text := by
  have hone : ∀ r ∈ lookup.operands, (do
      let text ← Rvalue.source r
      pure [text] : SourceM (List String)).Gives fun texts => ∀ text ∈ texts, Balanced text := by
    intro r hr
    refine SourceM.Gives.bind (h r hr) fun text htext => gives_pure ?_
    simpa using htext.1
  cases lookup with
  | plain => exact gives_pure (by simp)
  | gradient dx dy =>
    refine SourceM.Gives.bind (h dx (by simp [operands])) fun x hx => ?_
    refine SourceM.Gives.bind (h dy (by simp [operands])) fun y hy => gives_pure ?_
    simpa using ⟨hx.1, hy.1⟩
  | _ r => exact hone r mem_cons_self

/-! ## §7. Values -/

variable {r : Rvalue}

/-- **A value that was made where names are legible is written legibly.** -/
theorem Rvalue.Made.legible (h : r.Made env) (henv : env.symbols.AllLegible) :
    r.source.Gives Legible := by
  induction h with
  | expression type parts made ih =>
    obtain ⟨harity, rfl⟩ := mkExpression_eq_ok.mp made
    exact fun s => (shaped_source harity (type.isLegible henv) ih s).legible
  | @swizzle value mask r part made ih =>
    obtain ⟨kind, -, -, rfl⟩ := mkSwizzle_eq_ok made
    rw [Rvalue.source]
    split
    · split
      · exact ih
      · refine SourceM.Gives.bind (Ty.isLegible_ofComponents kind _) fun name hname => ?_
        refine SourceM.Gives.bind ih fun text htext => gives_pure (hname.append ?_)
        exact balanced_argumentList (by simpa using htext.1)
    · refine SourceM.Gives.bind ih fun text htext => gives_pure ?_
      refine (htext.append (by decide)).append (balanced_of_forall ?_)
      intro c hc
      rw [SwizzleMask.text, String.toList_ofList] at hc
      obtain ⟨component, -, rfl⟩ := mem_map.mp hc
      cases component <;> decide
  | constant made => exact made.gives henv
  | var bound made =>
    obtain ⟨rfl, -⟩ := mkVariable_eq_ok made
    exact gives_varName (henv.findVariable? bound)
  | index part place made ih1 ih2 =>
    obtain ⟨ty, -, -, rfl⟩ := mkIndex_eq_ok made
    rw [Rvalue.source, Dereference.source]
    refine SourceM.Gives.bind ih1 fun whole hwhole => ?_
    refine SourceM.Gives.bind ih2 fun place hplace => gives_pure ?_
    exact ((hwhole.append (by decide)).append hplace.1).append (by decide)
  | call parts bound chosen overload ih =>
    rw [Rvalue.source]
    refine SourceM.Gives.bind (gives_sources ih) fun texts htexts => gives_pure ?_
    exact (henv.findFunction? bound).append
      (balanced_argumentList fun text htext => (htexts.2 text htext).1)
  | @texture lookup sampler coordinate offsets projector comparator t source place levels divisor
      reference unfiltered made ih1 ih2 ih3 ih4 ih5 =>
    obtain ⟨s, hs, rfl⟩ := mkTexture_eq_ok made
    rw [Rvalue.source, Texture.source]
    simp only [hs]
    refine SourceM.Gives.bind ih1 fun through hthrough => ?_
    refine gives_noting ?_
    refine SourceM.Gives.bind ih2 fun text htext => ?_
    refine SourceM.Gives.bind (gives_sourceOption ih5) fun compared hcompared => ?_
    refine SourceM.Gives.bind (gives_sourceOption ih4) fun projected hprojected => ?_
    refine SourceM.Gives.bind (Lookup.gives_sources ih3) fun texts htexts => gives_pure ?_
    refine (lookup.legible_functionName s _ _).append (balanced_argumentList ?_)
    refine forall_mem_append.mpr ⟨?_, balanced_lookupArguments htexts⟩
    simpa using ⟨hthrough.1, balanced_coordinateArgument htext.1 hcompared hprojected⟩

end Shading
