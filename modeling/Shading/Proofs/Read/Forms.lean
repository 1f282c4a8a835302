/-
  Shading.Proofs.Read.Forms — the forms that the pure parts of the reader accept.

  For every reader of a part that holds no block there is one lemma that says exactly which nodes it
  accepts and what it gives for them.  The error that a failure would carry does not occur in any of
  them.
-/
import Shading.Proofs.Read.Run
import Shading.Read.Simple

namespace Shading

variable {env : Env}

/-! ## §1. Shapes of nodes -/

variable {node : Node} {name : String}

theorem Node.symbol?_eq_some : node.symbol? = some name ↔ node = .symbol name := by
  cases node with
  | symbol | int | float | list => simp [Node.symbol?]

theorem Node.list?_eq_some {items : List Node} : node.list? = some items ↔ node = .list items := by
  cases node with
  | symbol | int | float | list => simp [Node.list?]

theorem Node.head?_eq_some :
    node.head? = some name ↔ ∃ rest, node = .list (.symbol name :: rest) := by
  constructor
  · intro h
    unfold Node.head? at h
    split at h
    next name' rest =>
      cases h
      exact ⟨rest, rfl⟩
    next => cases h
  · rintro ⟨rest, rfl⟩
    rfl

theorem Node.isEmptyList_iff : node.isEmptyList = true ↔ node = .list [] := by
  cases node with
  | symbol | int | float => simp [Node.isEmptyList]
  | list items =>
    cases items with
    | nil | cons => simp [Node.isEmptyList]

/-- The tags of rvalues. -/
def rvalueTags : List String :=
  ["expression", "swiz", "constant", "var_ref", "array_ref", "call", "tex", "txb", "txl", "txd",
    "txf"]

theorem LookupTag.mem_rvalueTags {tag : LookupTag} (h : ofName? name = some tag) :
    name ∈ rvalueTags := by
  unfold ofName? at h
  split at h
  all_goals first | decide | cases h

/-- A value has one of the known tags. -/
theorem readRvalue_tag {r : Rvalue} (h : readRvalue env node = .ok r) :
    ∃ tag rest, node = .list (.symbol tag :: rest) ∧ tag ∈ rvalueTags := by
  unfold readRvalue at h
  split at h
  case h_7 tag sampler coordinate offsets extras _ _ _ =>
    split at h
    · exact absurd h Env.fail_ne_ok
    · next htag => exact ⟨_, _, rfl, LookupTag.mem_rvalueTags htag⟩
  case h_8 => exact absurd h Env.fail_ne_ok
  all_goals exact ⟨_, _, rfl, by decide⟩

/-! ## §2. Declarations -/

/-- The attributes after all qualifiers, if they are qualifiers. -/
def Variable.qualifyAll? (v : Variable) (qualifiers : List Node) : Option Variable :=
  qualifiers.foldlM (fun v node => node.symbol?.bind v.qualify?) v

variable {v w : Variable}

theorem readQualifiers_eq_ok {whole : Node} {qualifiers : List Node} :
    readQualifiers env whole v qualifiers = .ok w ↔ v.qualifyAll? qualifiers = some w := by
  induction qualifiers generalizing v with
  | nil => simp [readQualifiers, Variable.qualifyAll?]
  | cons node rest ih =>
    simp only [readQualifiers, except_bind_eq_ok, Env.require_eq_ok, ih, Variable.qualifyAll?,
      List.foldlM_cons, Option.bind_eq_bind, Option.bind_eq_some_iff]
    constructor
    · rintro ⟨name, hname, v', hv', h⟩
      exact ⟨v', ⟨name, hname, hv'⟩, h⟩
    · rintro ⟨v', ⟨name, hname, hv'⟩, h⟩
      exact ⟨name, hname, v', hv', h⟩

/-- What a declaration looks like, and what it gives. -/
theorem readVariable_eq_ok :
    readVariable env node = .ok v
      ↔ ∃ qualifiers ty name t,
          node = .list [.symbol "declare", .list qualifiers, ty, .symbol name]
          ∧ readType env ty = .ok t
          ∧ Variable.qualifyAll? { name, ty := t } qualifiers = some v := by
  constructor
  · intro h
    unfold readVariable at h
    split at h
    · simp only [except_bind_eq_ok, Env.require_eq_ok, Node.list?_eq_some, Node.symbol?_eq_some,
        readQualifiers_eq_ok] at h
      obtain ⟨qualifiers, rfl, t, ht, name, rfl, h⟩ := h
      exact ⟨qualifiers, _, name, t, rfl, ht, h⟩
    · exact absurd h Env.fail_ne_ok
    · exact absurd h Env.fail_ne_ok
  · rintro ⟨qualifiers, ty, name, t, rfl, ht, h⟩
    simp only [readVariable, except_bind_eq_ok, Env.require_eq_ok, Node.list?_eq_some,
      Node.symbol?_eq_some, readQualifiers_eq_ok]
    exact ⟨qualifiers, rfl, t, ht, name, rfl, h⟩

theorem Variable.qualify?_keeps {q : String} (h : v.qualify? q = some w) :
    w.name = v.name ∧ w.ty = v.ty := by
  unfold Variable.qualify? at h
  split at h
  all_goals
    cases h
    try exact ⟨rfl, rfl⟩

/-- Qualifiers change neither name nor type. -/
theorem Variable.qualifyAll?_keeps {qualifiers : List Node} (h : v.qualifyAll? qualifiers = some w) :
    w.name = v.name ∧ w.ty = v.ty := by
  unfold Variable.qualifyAll? at h
  induction qualifiers generalizing v with
  | nil =>
    cases h
    exact ⟨rfl, rfl⟩
  | cons node rest ih =>
    simp only [List.foldlM_cons, Option.bind_eq_bind, Option.bind_eq_some_iff] at h
    obtain ⟨u, ⟨q, -, hq⟩, hrest⟩ := h
    obtain ⟨hname, hty⟩ := Variable.qualify?_keeps hq
    obtain ⟨hname', hty'⟩ := ih hrest
    exact ⟨hname'.trans hname, hty'.trans hty⟩

/-! ## §3. Assignments and returns -/

theorem asDereference_eq_ok {part : Part} {r : Rvalue} {d : Dereference} :
    asDereference env node part r = .ok d ↔ r = .dereference d := by
  unfold asDereference
  split
  · simp
  · next hr => exact ⟨fun h => absurd h Env.fail_ne_ok, fun h => absurd h (hr d)⟩

/-- An optional value is left out by an empty list. -/
theorem readOptional_eq_ok {r : Option Rvalue} :
    readOptional env node = .ok r
      ↔ (node = .list [] ∧ r = none) ∨ ∃ value, readRvalue env node = .ok value ∧ r = some value := by
  unfold readOptional
  by_cases hn : node.isEmptyList
  · rw [if_pos hn]
    have hnode := Node.isEmptyList_iff.mp hn
    subst hnode
    constructor
    · intro h
      cases h
      exact .inl ⟨rfl, rfl⟩
    · rintro (⟨-, rfl⟩ | ⟨value, hvalue, -⟩)
      · rfl
      · exact absurd hvalue Env.fail_ne_ok
  · rw [if_neg hn]
    have hnode : node ≠ .list [] := fun h => hn (Node.isEmptyList_iff.mpr h)
    simp only [except_bind_eq_ok]
    constructor
    · rintro ⟨value, hvalue, h⟩
      cases h
      exact .inr ⟨value, hvalue, rfl⟩
    · rintro (⟨h, -⟩ | ⟨value, hvalue, rfl⟩)
      · exact absurd h hnode
      · exact ⟨value, hvalue, rfl⟩

/-- What an assignment looks like, and what its parts give. -/
theorem readAssignment_eq_ok {a : Assignment} :
    readAssignment env node = .ok a
      ↔ ∃ condition mask lhs rhs c letters target value,
          node = .list [.symbol "assign", condition, mask, lhs, rhs]
          ∧ readOptional env condition = .ok c ∧ readMask env mask = .ok letters
          ∧ readRvalue env lhs = .ok (.dereference target) ∧ readRvalue env rhs = .ok value
          ∧ (Assignment.whole target value c).withMask letters = .ok a := by
  constructor
  · intro h
    unfold readAssignment at h
    split at h
    · simp only [except_bind_eq_ok, asDereference_eq_ok, Env.check_eq_ok] at h
      obtain ⟨c, hc, letters, hmask, r, hlhs, target, rfl, value, hvalue, h⟩ := h
      exact ⟨_, _, _, _, c, letters, target, value, rfl, hc, hmask, hlhs, hvalue, h⟩
    · exact absurd h Env.fail_ne_ok
  · rintro ⟨condition, mask, lhs, rhs, c, letters, target, value, rfl, hc, hmask, hlhs, hvalue, h⟩
    simp only [readAssignment, except_bind_eq_ok, asDereference_eq_ok, Env.check_eq_ok]
    exact ⟨c, hc, letters, hmask, _, hlhs, target, rfl, value, hvalue, h⟩

/-- A return has one value or none. -/
theorem readReturn_eq_ok {parts : List Node} {r : Option Rvalue} :
    readReturn env (.list (.symbol "return" :: parts)) = .ok r
      ↔ (parts = [] ∧ r = none)
        ∨ ∃ node value, parts = [node] ∧ readRvalue env node = .ok value ∧ r = some value := by
  match parts with
  | [] =>
    constructor
    · intro h
      cases h
      exact .inl ⟨rfl, rfl⟩
    · rintro (⟨-, rfl⟩ | ⟨node, value, h, -⟩)
      · rfl
      · cases h
  | [node] =>
    simp only [readReturn, except_bind_eq_ok]
    constructor
    · rintro ⟨value, hvalue, h⟩
      cases h
      exact .inr ⟨node, value, rfl, hvalue, rfl⟩
    · rintro (⟨h, -⟩ | ⟨node', value, h, hvalue, rfl⟩)
      · cases h
      · cases h
        exact ⟨value, hvalue, rfl⟩
  | _ :: _ :: _ =>
    constructor
    · intro h
      exact absurd h Env.fail_ne_ok
    · rintro (⟨h, -⟩ | ⟨node', value, h, -⟩)
      · cases h
      · cases h

/-! ## §4. Loop controls -/

theorem controlItems_eq_ok {most : Nat} {items : List Node} :
    controlItems env most node = .ok items ↔ node = .list items ∧ items.length ≤ most := by
  cases node with
  | list items' =>
    by_cases hle : items'.length ≤ most
    · simp only [controlItems, if_pos hle, Except.ok.injEq, Node.list.injEq]
      exact ⟨fun h => ⟨h, h ▸ hle⟩, fun h => h.1⟩
    · simp only [controlItems, if_neg hle, Env.fail_ne_ok, false_iff, Node.list.injEq]
      rintro ⟨rfl, h⟩
      exact hle h
  | symbol | int | float => simp [controlItems]

theorem readCounter_eq_ok {o : Option Var} :
    readCounter env node = .ok o
      ↔ (node = .list [] ∧ o = none)
        ∨ ∃ name v, node = .list [.symbol name] ∧ env.symbols.findVariable? name = some v
          ∧ o = some v := by
  unfold readCounter
  simp only [except_bind_eq_ok, controlItems_eq_ok]
  constructor
  · rintro ⟨items, ⟨rfl, hlen⟩, h⟩
    split at h
    · cases h
      exact .inl ⟨rfl, rfl⟩
    · simp only [except_bind_eq_ok, Env.require_eq_ok] at h
      obtain ⟨v, hv, h⟩ := h
      cases h
      exact .inr ⟨_, v, rfl, hv, rfl⟩
    · exact absurd h Env.fail_ne_ok
  · rintro (⟨rfl, rfl⟩ | ⟨name, v, rfl, hv, rfl⟩)
    · exact ⟨[], ⟨rfl, by simp⟩, rfl⟩
    · refine ⟨[.symbol name], ⟨rfl, by simp⟩, ?_⟩
      simp only [except_bind_eq_ok, Env.require_eq_ok]
      exact ⟨v, hv, rfl⟩

theorem readControl_eq_ok {o : Option Rvalue} :
    readControl env node = .ok o
      ↔ (node = .list [] ∧ o = none)
        ∨ ∃ inner value, node = .list [inner] ∧ readRvalue env inner = .ok value
          ∧ o = some value := by
  unfold readControl
  simp only [except_bind_eq_ok, controlItems_eq_ok]
  constructor
  · rintro ⟨items, ⟨rfl, hlen⟩, h⟩
    split at h
    · cases h
      exact .inl ⟨rfl, rfl⟩
    · next inner rest =>
      simp only [except_bind_eq_ok] at h
      obtain ⟨value, hvalue, h⟩ := h
      cases h
      have hrest : rest = [] := by
        cases rest with
        | nil => rfl
        | cons _ _ => simp at hlen
      subst hrest
      exact .inr ⟨inner, value, rfl, hvalue, rfl⟩
  · rintro (⟨rfl, rfl⟩ | ⟨inner, value, rfl, hvalue, rfl⟩)
    · exact ⟨[], ⟨rfl, by simp⟩, rfl⟩
    · refine ⟨[inner], ⟨rfl, by simp⟩, ?_⟩
      simp only [except_bind_eq_ok]
      exact ⟨value, hvalue, rfl⟩

theorem readTerminator_eq_ok {o : Option (Operator × Rvalue)} :
    readTerminator env node = .ok o
      ↔ (node = .list [] ∧ o = none)
        ∨ ∃ name inner op value, node = .list [.symbol name, inner] ∧ comparison? name = some op
          ∧ readRvalue env inner = .ok value ∧ o = some (op, value) := by
  unfold readTerminator
  simp only [except_bind_eq_ok, controlItems_eq_ok]
  constructor
  · rintro ⟨items, ⟨rfl, hlen⟩, h⟩
    split at h
    · cases h
      exact .inl ⟨rfl, rfl⟩
    · simp only [except_bind_eq_ok, Env.require_eq_ok] at h
      obtain ⟨op, hop, value, hvalue, h⟩ := h
      cases h
      exact .inr ⟨_, _, op, value, rfl, hop, hvalue, rfl⟩
    · exact absurd h Env.fail_ne_ok
  · rintro (⟨rfl, rfl⟩ | ⟨name, inner, op, value, rfl, hop, hvalue, rfl⟩)
    · exact ⟨[], ⟨rfl, by simp⟩, rfl⟩
    · refine ⟨[.symbol name, inner], ⟨rfl, by simp⟩, ?_⟩
      simp only [except_bind_eq_ok, Env.require_eq_ok]
      exact ⟨op, hop, value, hvalue, rfl⟩

theorem comparison?_eq_some {op : Operator} :
    comparison? name = some op ↔ Operator.ofName? name = some op ∧ op.isComparison = true := by
  simp [comparison?, Option.filter_eq_some_iff]

/-- What the controls of a loop look like, and what they give. -/
theorem readControls_eq_ok {whole counter start stop increment : Node} {c : Controls} :
    readControls env whole counter start stop increment = .ok c
      ↔ readCounter env counter = .ok c.counter ∧ readControl env start = .ok c.start
        ∧ readControl env increment = .ok c.increment
        ∧ ∃ terminator, readTerminator env stop = .ok terminator
          ∧ c.comparison = terminator.map (·.1) ∧ c.stop = terminator.map (·.2) := by
  unfold readControls
  simp only [except_bind_eq_ok]
  constructor
  · rintro ⟨counter', hcounter, start', hstart, stop', hstop, increment', hincrement, h⟩
    split at h
    · cases h
      exact ⟨hcounter, hstart, hincrement, none, hstop, rfl, rfl⟩
    · next op value =>
      rw [Env.check_eq_ok] at h
      unfold Controls.withTerminator at h
      split at h
      · cases h
        exact ⟨hcounter, hstart, hincrement, some (op, value), hstop, rfl, rfl⟩
      · cases h
  · rintro ⟨hcounter, hstart, hincrement, terminator, hstop, hcomparison, hvalue⟩
    refine ⟨_, hcounter, _, hstart, terminator, hstop, _, hincrement, ?_⟩
    obtain ⟨counter', start', stop', increment', comparison'⟩ := c
    dsimp only at hcomparison hvalue
    subst hcomparison hvalue
    cases terminator with
    | none => rfl
    | some t =>
      obtain ⟨op, value⟩ := t
      have hop : op.isComparison = true := by
        obtain ⟨-, h⟩ | ⟨name, inner, op', value', -, hop, -, h⟩ := readTerminator_eq_ok.mp hstop
        · cases h
        · cases h
          exact (comparison?_eq_some.mp hop).2
      simp [Controls.withTerminator, hop]

end Shading
