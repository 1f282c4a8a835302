/-
  Shading.Proofs.Read.References — the names in a value and the variables that it uses.

  A node refers to a variable by `(var_ref name)`, and the counter of a loop is a name alone.  What is
  read from the node uses a variable at each such place, in the order of the text, and it is the one
  that the name stands for (`readRvalue_finds` and the lemmas on statements after it).
-/
import Shading.Proofs.Read.Scoped

namespace Shading

open List

variable {value : Node → Rvalue} {depth : Nat}

/-! ## §1. References -/

mutual

/-- The names that the node refers to, in the order of the text. -/
def Node.references : Node → List String
  | .list [.symbol "var_ref", .symbol name] => [name]
  | .list items => Node.referencesIn items
  | _ => []

/-- The names that the nodes refer to. -/
def Node.referencesIn : List Node → List String
  | [] => []
  | node :: rest => Node.references node ++ Node.referencesIn rest

end

/-- The name of the counter of a loop. -/
def Node.counterNames : Node → List String
  | .list [.symbol name] => [name]
  | _ => []

variable {node : Node}

namespace Node

theorem references_list {items : List Node} (h : ∀ name, items ≠ [.symbol "var_ref", .symbol name]) :
    (Node.list items).references = referencesIn items := by
  rw [references]
  intro name heq
  exact h name heq

@[simp] theorem references_symbol (name : String) : (Node.symbol name).references = [] := by
  rw [references]
  all_goals simp

/-- The node refers to nothing and is no name. -/
def Silent (node : Node) : Prop := node.references = [] ∧ node.symbol? = none

theorem silent_list {items : List Node} (h : ∀ node ∈ items, node.Silent) :
    (Node.list items).Silent := by
  have hall : referencesIn items = [] := by
    induction items with
    | nil => rfl
    | cons node rest ih =>
      rw [referencesIn, (h node mem_cons_self).1,
        ih fun other hother => h other (mem_cons_of_mem _ hother)]
      rfl
  refine ⟨?_, rfl⟩
  rw [references_list, hall]
  rintro name rfl
  cases (h _ mem_cons_self).2

theorem silent_of_number? {x : Double} (h : node.number? = some x) : node.Silent := by
  cases node with
  | int | float => exact ⟨by simp [references], rfl⟩
  | symbol | list => cases h

theorem silent_of_int? {n : Int64} (h : node.int? = some n) : node.Silent := by
  cases node with
  | int m => exact ⟨by simp [references], rfl⟩
  | float | symbol | list => cases h

end Node

/-! ## §2. Types and constants -/

variable {env : Env}

/-- Types refer to no variables. -/
theorem readType_references {ty : Ty} (h : readType env node = .ok ty) : node.references = [] := by
  induction node using readType.induct generalizing ty with
  | case1 name => exact Node.references_symbol name
  | case2 element length ih =>
    simp only [readType, except_bind_eq_ok, Env.require_eq_ok] at h
    obtain ⟨t, ht, n, hn, -⟩ := h
    have hlength : length.references = [] := by
      cases length with
      | int m => exact (Node.silent_of_int? (show (Node.int m).int? = some m from rfl)).1
      | _ => cases hn
    rw [Node.references_list (by simp), Node.referencesIn, Node.referencesIn, Node.referencesIn,
      Node.referencesIn, Node.references_symbol, ih ht, hlength]
    rfl
  | case3 node h1 h2 =>
    rw [readType] at h
    · exact absurd h Env.fail_ne_ok
    all_goals assumption

variable {nodes : List Node}

theorem silent_of_mapM {α : Type} {number? : Node → Option α} {xs : List α}
    (hnumber : ∀ node x, number? node = some x → node.Silent) (h : nodes.mapM number? = some xs) :
    ∀ node ∈ nodes, node.Silent := by
  induction nodes generalizing xs with
  | nil => exact fun node hnode => nomatch hnode
  | cons first rest ih =>
    simp only [mapM_cons, Option.bind_eq_bind, Option.bind_eq_some_iff] at h
    obtain ⟨x, hx, ys, hys, -⟩ := h
    intro node hnode
    rcases mem_cons.mp hnode with rfl | hnode
    · exact hnumber _ x hx
    · exact ih hys node hnode

/-- Numbers refer to no variables. -/
theorem readComponents_silent {whole : Node} {ty : Ty} {c : Constant}
    (h : readComponents env whole ty nodes = .ok c) : ∀ node ∈ nodes, node.Silent := by
  unfold readComponents at h
  rw [except_bind_eq_ok] at h
  obtain ⟨-, -, h⟩ := h
  split at h
  all_goals first
    | exact absurd h Env.fail_ne_ok
    | simp only [except_bind_eq_ok, readNumbers_eq_ok] at h
      obtain ⟨xs, hxs, -⟩ := h
      refine silent_of_mapM ?_ hxs
      intro node x hx
  · obtain ⟨y, hy, -⟩ := Option.bind_eq_some_iff.mp hx
    exact Node.silent_of_number? hy
  · obtain ⟨n, hn, -⟩ := Option.bind_eq_some_iff.mp hx
    exact Node.silent_of_int? hn
  · obtain ⟨n, hn, -⟩ := Option.bind_eq_some_iff.mp hx
    exact Node.silent_of_int? hn
  · obtain ⟨n, hn, -⟩ := Option.map_eq_some_iff.mp hx
    exact Node.silent_of_int? hn

theorem ReadsConstant.silent {c : Constant} (h : ReadsConstant env node c) : node.Silent := by
  have hform {type : Node} {values : List Node} {ty : Ty} (htype : readType env type = .ok ty)
      (hvalues : ∀ x ∈ values, x.Silent) :
      (Node.list [.symbol "constant", type, .list values]).Silent := by
    refine ⟨?_, rfl⟩
    rw [Node.references_list (by simp), Node.referencesIn, Node.referencesIn, Node.referencesIn,
      Node.referencesIn, Node.references_symbol, readType_references htype, (Node.silent_list hvalues).1]
    rfl
  induction h with
  | components typed flat read => exact hform typed (readComponents_silent read)
  | array typed isArray parts made ih => exact hform typed ih

/-! ## §3. Values -/

/-- The names stand for the variables, one by one. -/
def Env.Finds (env : Env) (names : List String) (vs : List Var) : Prop :=
  names.map env.symbols.findVariable? = vs.map some

theorem Env.Finds.nil : env.Finds [] [] := rfl

theorem Env.Finds.append {names names' : List String} {vs vs' : List Var} (h : env.Finds names vs)
    (h' : env.Finds names' vs') : env.Finds (names ++ names') (vs ++ vs') := by
  unfold Env.Finds at *
  rw [map_append, map_append, h, h']

theorem usedIn_constant (c : Constant) (depth : Nat) : usedIn (c.walk depth) = [] :=
  filterMap_eq_nil_iff.mpr (Constant.of_mem_walk (fun _ _ _ => rfl) depth c)

theorem references_of_readsValue
    (h : ∀ x ∈ nodes, ReadsValue env x (value x)) :
    (Node.list nodes).references = Node.referencesIn nodes := by
  refine Node.references_list ?_
  rintro name rfl
  exact absurd (readRvalue_iff.mpr (h _ mem_cons_self)) Env.fail_ne_ok

theorem referencesIn_singleton (node : Node) : Node.referencesIn [node] = node.references := by
  rw [Node.referencesIn, Node.referencesIn, List.append_nil]

theorem referencesIn_pair (first second : Node) :
    Node.referencesIn [first, second] = first.references ++ second.references := by
  rw [Node.referencesIn, referencesIn_singleton]

theorem readOffsets_references {o : Offsets} (h : readOffsets env node = .ok o) :
    node.references = [] := by
  unfold readOffsets at h
  split at h
  next x y z =>
    simp only [except_bind_eq_ok, Env.require_eq_ok] at h
    obtain ⟨a, ha, b, hb, c, hc, -⟩ := h
    have hint : ∀ node n, int8? node = some n → node.Silent := by
      intro node n hn
      obtain ⟨m, hm, -⟩ := Option.bind_eq_some_iff.mp hn
      exact Node.silent_of_int? hm
    refine (Node.silent_list ?_).1
    intro node hnode
    simp only [mem_cons, not_mem_nil, or_false] at hnode
    rcases hnode with rfl | rfl | rfl
    · exact hint _ a ha
    · exact hint _ b hb
    · exact hint _ c hc
  next => exact absurd h Env.fail_ne_ok

theorem usedIn_walkAll_cons (r : Rvalue) (rs : List Rvalue) (depth : Nat) :
    usedIn (Rvalue.walkAll depth (r :: rs))
      = usedIn (r.walk depth) ++ usedIn (Rvalue.walkAll depth rs) := by
  rw [Rvalue.walkAll, usedIn_append]

/-- Values find their variables in the order of the text. -/
theorem Env.Finds.all
    (h : ∀ x ∈ nodes, env.Finds x.references (usedIn ((value x).walk depth))) :
    env.Finds (Node.referencesIn nodes) (usedIn (Rvalue.walkAll depth (nodes.map value))) := by
  induction nodes with
  | nil => exact .nil
  | cons node rest ih =>
    obtain ⟨hnode, hrest⟩ := forall_mem_cons.mp h
    rw [Node.referencesIn, map_cons, usedIn_walkAll_cons]
    exact hnode.append (ih hrest)

theorem Env.Finds.option {o : Option Node}
    (h : ∀ x ∈ o, env.Finds x.references (usedIn ((value x).walk depth))) :
    env.Finds (Node.referencesIn o.toList) (usedIn (Rvalue.walkOption depth (o.map value))) := by
  cases o with
  | none => exact .nil
  | some node =>
    rw [Option.toList_some, referencesIn_singleton]
    exact h node rfl

theorem references_of_isUnitProjector (h : isUnitProjector node = true) : node.references = [] := by
  cases node with
  | int n => exact (Node.silent_of_int? (show (Node.int n).int? = some n from rfl)).1
  | _ => cases h

/-- The names in what follows the offsets of a lookup are those in the projector, the comparator and
    the levels of detail. -/
theorem referencesIn_extras {tag : LookupTag} {extras levels : List Node}
    (h : tag.levels? extras = some levels) (hlevels : (Node.list levels).references
      = Node.referencesIn levels) :
    Node.referencesIn extras = Node.referencesIn (divisor? extras).toList
      ++ Node.referencesIn (reference? extras).toList ++ Node.referencesIn levels := by
  have hmodifiers (p q : Node) (rest : List Node) : Node.referencesIn (p :: q :: rest)
      = Node.referencesIn (divisor? (p :: q :: rest)).toList
        ++ Node.referencesIn (reference? (p :: q :: rest)).toList ++ Node.referencesIn rest := by
    have hp : p.references = Node.referencesIn (divisor? (p :: q :: rest)).toList := by
      simp only [divisor?]
      split
      next hunit => exact references_of_isUnitProjector hunit
      next => exact (referencesIn_singleton p).symm
    have hq : q.references = Node.referencesIn (reference? (p :: q :: rest)).toList := by
      simp only [reference?]
      split
      next hempty =>
        rw [Node.isEmptyList_iff.mp hempty]
        rfl
      next => exact (referencesIn_singleton q).symm
    rw [Node.referencesIn, Node.referencesIn, ← hp, ← hq, append_assoc]
  unfold LookupTag.levels? at h
  split at h
  all_goals cases h
  · exact hmodifiers _ _ _
  · exact hmodifiers _ _ _
  · exact hmodifiers _ _ _
  · rw [hmodifiers, referencesIn_singleton, hlevels]
  · rfl

theorem usedIn_walk_make {tag : LookupTag} {extras levels : List Node} (h : tag.levels? extras = some levels) :
    usedIn ((tag.make (levels.map value)).walk depth)
      = usedIn (Rvalue.walkAll depth (levels.map value)) := by
  unfold LookupTag.levels? at h
  split at h
  all_goals cases h
  all_goals simp [LookupTag.make, Lookup.walk, Rvalue.walkAll]

/-- **Every value uses the variables that its names stand for.** -/
theorem readRvalue_finds {r : Rvalue} (h : readRvalue env node = .ok r) (depth : Nat) :
    env.Finds node.references (usedIn (r.walk depth)) := by
  replace h := readRvalue_iff.mp h
  induction h generalizing depth with
  | expression typed named count parts ih =>
    rw [Node.references_list (by simp), Node.referencesIn, Node.referencesIn, Node.referencesIn,
      Node.references_symbol, Node.references_symbol, readType_references typed, Rvalue.walk, usedIn_cons]
    exact .all fun x hx => ih x hx (depth + 1)
  | swizzle letters part made ih =>
    obtain ⟨kind, -, -, rfl⟩ := mkSwizzle_eq_ok made
    rw [Node.references_list (by simp), Node.referencesIn, referencesIn_pair, Node.references_symbol,
      Node.references_symbol, Rvalue.walk, usedIn_cons]
    exact ih (depth + 1)
  | constant read =>
    rw [read.silent.1, Rvalue.walk, usedIn_constant]
    exact .nil
  | @var name v d bound made =>
    obtain ⟨rfl, -, -⟩ := mkVariable_eq_ok made
    rw [Node.references, Rvalue.walk, Dereference.walk]
    show [env.symbols.findVariable? name] = [some v]
    rw [bound]
  | index part place made ih1 ih2 =>
    obtain ⟨ty, -, -, rfl⟩ := mkIndex_eq_ok made
    rw [Node.references_list (by simp), Node.referencesIn, referencesIn_pair, Node.references_symbol,
      Rvalue.walk, Dereference.walk, usedIn_cons, usedIn_append]
    exact (ih1 (depth + 1)).append (ih2 (depth + 1))
  | call parts bound chosen overload ih =>
    rw [Node.references_list (by simp), Node.referencesIn, referencesIn_pair, Node.references_symbol,
      Node.references_symbol, references_of_readsValue parts, Rvalue.walk, usedIn_cons]
    exact .all fun x hx => ih x hx (depth + 1)
  | texture kind chosen source place shift divisor reference parts made ih1 ih2 ih3 ih4 ih5 =>
    obtain ⟨properties, -, rfl⟩ := mkTexture_eq_ok made
    rw [Node.references_list (by simp), Node.referencesIn, Node.referencesIn, Node.referencesIn,
      Node.referencesIn, Node.references_symbol, readOffsets_references shift,
      referencesIn_extras chosen (references_of_readsValue parts), Rvalue.walk, Texture.walk, usedIn_cons]
    simp only [usedIn_append, usedIn_walk_make chosen, nil_append, append_assoc]
    exact (ih1 (depth + 1)).append ((ih2 (depth + 1)).append
      (.append (.option fun x hx => ih3 x hx (depth + 1))
        (.append (.option fun x hx => ih4 x hx (depth + 1)) (.all fun x hx => ih5 x hx (depth + 1)))))

theorem readOptional_finds {o : Option Rvalue} (h : readOptional env node = .ok o) :
    env.Finds node.references (usedIn (Rvalue.walkOption depth o)) := by
  obtain ⟨rfl, rfl⟩ | ⟨value, hvalue, rfl⟩ := readOptional_eq_ok.mp h
  · exact .nil
  · exact readRvalue_finds hvalue depth

/-! ## §4. Statements without blocks -/

theorem readMask_references {letters : String} (h : readMask env node = .ok letters) :
    node.references = [] := by
  unfold readMask at h
  split at h
  · rfl
  · rw [Node.references_list (by simp), referencesIn_singleton, Node.references_symbol]
  · exact absurd h Env.fail_ne_ok

/-- An assignment finds its variables in the order of the text. -/
theorem readAssignment_finds {a : Assignment} (h : readAssignment env node = .ok a) (depth : Nat) :
    env.Finds node.references (usedIn (a.walk depth)) := by
  obtain ⟨condition, mask, lhs, rhs, c, letters, target, value, rfl, hc, hmask, hlhs, hrhs, ha⟩ :=
    readAssignment_eq_ok.mp h
  obtain ⟨m, rfl, -⟩ := Assignment.withMask_eq_ok ha
  rw [Node.references_list (by simp), Node.referencesIn, Node.referencesIn, Node.referencesIn,
    referencesIn_pair, Node.references_symbol, readMask_references hmask, Assignment.walk,
    usedIn_append, usedIn_append, append_assoc]
  exact (readOptional_finds hc).append
    ((readRvalue_finds hlhs depth).append (readRvalue_finds hrhs depth))

theorem readReturn_finds {parts : List Node} {value : Option Rvalue}
    (h : readReturn env (.list (.symbol "return" :: parts)) = .ok value) (depth : Nat) :
    env.Finds (Node.list (.symbol "return" :: parts)).references
      (usedIn (Rvalue.walkOption depth value)) := by
  obtain ⟨rfl, rfl⟩ | ⟨node, r, rfl, hr, rfl⟩ := readReturn_eq_ok.mp h
  · rw [Node.references_list (by simp), referencesIn_singleton, Node.references_symbol]
    exact .nil
  · rw [Node.references_list (by simp), referencesIn_pair, Node.references_symbol]
    exact readRvalue_finds hr depth

theorem readControl_finds {o : Option Rvalue} (h : readControl env node = .ok o) (depth : Nat) :
    env.Finds node.references (usedIn (Rvalue.walkOption depth o)) := by
  obtain ⟨rfl, rfl⟩ | ⟨inner, r, rfl, hr, rfl⟩ := readControl_eq_ok.mp h
  · exact .nil
  · rw [Node.references_list (by simp), referencesIn_singleton]
    exact readRvalue_finds hr depth

/-- The controls find their variables in the order of the text. -/
theorem readControls_finds {whole counter start stop increment : Node} {c : Controls}
    (h : readControls env whole counter start stop increment = .ok c) (depth : Nat) :
    env.Finds (counter.counterNames ++ Node.referencesIn [start, stop, increment])
      (usedIn (c.walk depth)) := by
  obtain ⟨hcounter, hstart, hincrement, terminator, hstop, -, hvalue⟩ := readControls_eq_ok.mp h
  have hcounter : env.Finds counter.counterNames
      (usedIn (c.counter.map fun v => (⟨depth, .use v⟩ : Step)).toList) := by
    obtain ⟨rfl, hnone⟩ | ⟨name, v, rfl, hv, hsome⟩ := readCounter_eq_ok.mp hcounter
    · rw [hnone]
      exact .nil
    · rw [hsome]
      show [env.symbols.findVariable? name] = [some v]
      rw [hv]
  have hstop : env.Finds stop.references (usedIn (Rvalue.walkOption depth c.stop)) := by
    rw [hvalue]
    obtain ⟨rfl, rfl⟩ | ⟨name, inner, op, r, rfl, -, hr, rfl⟩ := readTerminator_eq_ok.mp hstop
    · exact .nil
    · obtain ⟨tag, rest, rfl, -⟩ := readRvalue_tag hr
      rw [Node.references_list (by simp), referencesIn_pair, Node.references_symbol]
      exact readRvalue_finds hr depth
  rw [Node.referencesIn, referencesIn_pair, Controls.walk]
  simp only [usedIn_append, append_assoc]
  exact hcounter.append ((readControl_finds hstart depth).append
    (hstop.append (readControl_finds hincrement depth)))

end Shading
