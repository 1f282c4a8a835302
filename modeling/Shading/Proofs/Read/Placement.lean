/-
  Shading.Proofs.Read.Placement — where the items of a module stand.

  A module lists its instructions in the order of the text, and each function once.  Where a function
  stands can be said of the document alone: at the first node of the top level that is this function,
  or, if there is none, at the node in which it is first met; and without a scan in front of it
  reading does not know the functions further down, so one that is met inside of another node stands
  there (`Node.home?`).
-/
import Shading.Proofs.Read.Met
import Shading.Proofs.Read.Trace
import Shading.Proofs.Read.Incremental

namespace Shading

open List

/-! ## §1. The place of a function -/

variable {node : Node} {name : String} {nodes : List Node} {k : Nat}

namespace Node

/-- The node of the top level in which the function is first met. -/
def firstMet? (nodes : List Node) (name : String) : Option Nat :=
  nodes.findIdx? (name ∈ ·.functionNames)

/-- The node of the top level at which the function stands: the first one that is this function,
    unless there was no scan and it has been met inside of another one before; failing that, the one
    in which it is first met. -/
def home? (scan : Bool) (nodes : List Node) (name : String) : Option Nat :=
  match nodes.findIdx? (·.functionName? = some name) with
  | some k => if scan = true ∨ name ∉ namesIn (nodes.take k) then some k else firstMet? nodes name
  | none => firstMet? nodes name

/-- The functions that stand at a node of the top level, in the order in which they appear in it. -/
def standing (scan : Bool) (nodes : List Node) (k : Nat) : List String :=
  ((nodes[k]?.map (·.functionNames)).getD []).eraseDups.filter (home? scan nodes · = some k)

theorem exists_signatures_of_functionName? (h : node.functionName? = some name) :
    ∃ signatures, node = .list (.symbol "function" :: .symbol name :: signatures) := by
  unfold functionName? at h
  split at h
  · cases h
    exact ⟨_, rfl⟩
  · cases h

theorem functionNames_of_functionName? (h : node.functionName? = some name) :
    ∃ inner, node.functionNames = name :: inner := by
  obtain ⟨signatures, rfl⟩ := exists_signatures_of_functionName? h
  exact ⟨namesInBodies signatures, by rw [functionNames]⟩

theorem mem_functionNames_of_functionName? (h : node.functionName? = some name) :
    name ∈ node.functionNames := by
  obtain ⟨inner, hinner⟩ := functionNames_of_functionName? h
  rw [hinner]
  exact mem_cons_self

theorem namesIn_eq_flatMap (nodes : List Node) : namesIn nodes = nodes.flatMap (·.functionNames) := by
  induction nodes with
  | nil => rfl
  | cons node rest ih => rw [namesIn, ih, flatMap_cons]

theorem mem_namesIn_take :
    name ∈ namesIn (nodes.take k)
      ↔ ∃ j node, j < k ∧ nodes[j]? = some node ∧ name ∈ node.functionNames := by
  rw [namesIn_eq_flatMap, mem_flatMap]
  constructor
  · rintro ⟨node, hnode, hname⟩
    obtain ⟨j, hj⟩ := mem_iff_getElem?.mp hnode
    rw [getElem?_take] at hj
    split at hj
    next hlt => exact ⟨j, node, hlt, hj, hname⟩
    next => cases hj
  · rintro ⟨j, node, hlt, hj, hname⟩
    refine ⟨node, mem_iff_getElem?.mpr ⟨j, ?_⟩, hname⟩
    rw [getElem?_take, if_pos hlt]
    exact hj

end Node

theorem exists_findIdx?_le {α : Type} {xs : List α} {p : α → Bool} {x : α} (hx : xs[k]? = some x)
    (hp : p x = true) : ∃ j, xs.findIdx? p = some j ∧ j ≤ k := by
  obtain ⟨hk, rfl⟩ := List.getElem?_eq_some_iff.mp hx
  cases hfirst : xs.findIdx? p with
  | none => exact absurd hp (by simp [findIdx?_eq_none_iff.mp hfirst _ (getElem_mem hk)])
  | some j =>
    obtain ⟨hj, -, before⟩ := findIdx?_eq_some_iff_getElem.mp hfirst
    exact ⟨j, rfl, Nat.le_of_not_lt fun hlt => before k hlt hp⟩

theorem exists_getElem?_of_findIdx? {α : Type} {xs : List α} {p : α → Bool}
    (h : xs.findIdx? p = some k) : ∃ x, xs[k]? = some x ∧ p x = true := by
  obtain ⟨hk, hp, -⟩ := findIdx?_eq_some_iff_getElem.mp h
  exact ⟨xs[k], getElem?_eq_getElem hk, hp⟩

variable {scan : Bool}

namespace Node

variable {nodes : List Node} {name : String} {k : Nat} {node : Node}

theorem firstMet?_le (hk : nodes[k]? = some node) (hname : name ∈ node.functionNames) :
    ∃ j, firstMet? nodes name = some j ∧ j ≤ k :=
  exists_findIdx?_le hk (decide_eq_true hname)

/-- Without a scan a function stands where it is first met. -/
theorem home?_false (nodes : List Node) (name : String) :
    home? false nodes name = firstMet? nodes name := by
  unfold home?
  split
  next k hk =>
    split
    next hnew =>
      have hbefore := hnew.resolve_left Bool.false_ne_true
      obtain ⟨node, hnode, hfun⟩ := exists_getElem?_of_findIdx? hk
      have hmem := mem_functionNames_of_functionName? (of_decide_eq_true hfun)
      obtain ⟨j, hj, hle⟩ := firstMet?_le hnode hmem
      obtain ⟨other, hother, hmet⟩ := exists_getElem?_of_findIdx? hj
      rw [mem_namesIn_take] at hbefore
      have hge : ¬ j < k := fun hlt => hbefore ⟨j, other, hlt, hother, of_decide_eq_true hmet⟩
      rw [hj, Nat.le_antisymm hle (Nat.le_of_not_lt hge)]
    next => rfl
  next => rfl

/-- With a scan the first function of the name at the top is its home. -/
theorem home?_true (nodes : List Node) (name : String) :
    home? true nodes name
      = (nodes.findIdx? (·.functionName? = some name)).or (firstMet? nodes name) := by
  unfold home?
  split
  next k hk => simp [hk]
  next hnone => simp [hnone]

theorem mem_topNames_iff : name ∈ topNames nodes
    ↔ ∃ k, nodes.findIdx? (·.functionName? = some name) = some k := by
  rw [topNames, mem_filterMap]
  constructor
  · rintro ⟨node, hnode, hfun⟩
    obtain ⟨k, hk⟩ := mem_iff_getElem?.mp hnode
    obtain ⟨j, hj, -⟩ := exists_findIdx?_le (p := (·.functionName? = some name)) hk
      (decide_eq_true hfun)
    exact ⟨j, hj⟩
  · rintro ⟨k, hk⟩
    obtain ⟨node, hnode, hfun⟩ := exists_getElem?_of_findIdx? hk
    exact ⟨node, mem_of_getElem? hnode, of_decide_eq_true hfun⟩

theorem mem_functionNames_of_home? (h : home? scan nodes name = some k) :
    ∃ node, nodes[k]? = some node ∧ name ∈ node.functionNames := by
  have hmet : ∀ {k : Nat}, firstMet? nodes name = some k →
      ∃ node, nodes[k]? = some node ∧ name ∈ node.functionNames := by
    intro k hk
    obtain ⟨node, hnode, hname⟩ := exists_getElem?_of_findIdx? hk
    exact ⟨node, hnode, of_decide_eq_true hname⟩
  cases scan with
  | false => exact hmet (home?_false nodes name ▸ h)
  | true =>
    rw [home?_true] at h
    cases htop : nodes.findIdx? (·.functionName? = some name) with
    | none =>
      rw [htop, Option.none_or] at h
      exact hmet h
    | some j =>
      rw [htop, Option.some_or] at h
      cases h
      obtain ⟨node, hnode, hfun⟩ := exists_getElem?_of_findIdx? htop
      exact ⟨node, hnode, mem_functionNames_of_functionName? (of_decide_eq_true hfun)⟩

/-- Every function that is named has a home. -/
theorem exists_home? (scan : Bool) (h : name ∈ namesIn nodes) : ∃ k, home? scan nodes name = some k := by
  rw [namesIn_eq_flatMap, mem_flatMap] at h
  obtain ⟨node, hnode, hname⟩ := h
  obtain ⟨i, hi⟩ := mem_iff_getElem?.mp hnode
  obtain ⟨j, hj, -⟩ := firstMet?_le hi hname
  cases scan with
  | false => exact ⟨j, home?_false nodes name ▸ hj⟩
  | true =>
    rw [home?_true, hj]
    cases nodes.findIdx? (·.functionName? = some name) with
    | none => exact ⟨j, rfl⟩
    | some k => exact ⟨k, rfl⟩

theorem mem_standing : name ∈ standing scan nodes k ↔ home? scan nodes name = some k := by
  rw [standing, mem_filter, mem_eraseDups, decide_eq_true_eq]
  constructor
  · exact And.right
  · intro h
    obtain ⟨node, hnode, hname⟩ := mem_functionNames_of_home? h
    rw [hnode]
    exact ⟨hname, h⟩

theorem topNames_subset (h : name ∈ topNames nodes) : name ∈ namesIn nodes := by
  obtain ⟨node, hnode, hname⟩ := mem_filterMap.mp h
  exact mem_namesIn hnode (mem_functionNames_of_functionName? hname)

theorem mem_namesIn_of_standing (h : name ∈ standing scan nodes k) : name ∈ namesIn nodes := by
  obtain ⟨node, hnode, hname⟩ := mem_functionNames_of_home? (mem_standing.mp h)
  exact mem_namesIn (mem_of_getElem? hnode) hname

end Node

/-! ## §2. Placing functions as they are met -/

/-- The functions that are placed behind a node, where some have a place and some are known: the one
    that it is, then those first met in it. -/
def freshNames (placed known : List String) (node : Node) : List String :=
  ((node.functionName?.toList ++ (node.functionNames.filter (· ∉ known)).eraseDups).filter
    (· ∉ placed)).eraseDups

/-- The functions that are placed behind each of the nodes. -/
def arrange (placed known : List String) : List Node → List (List String)
  | [] => []
  | node :: rest =>
    freshNames placed known node
      :: arrange (freshNames placed known node ++ placed) (meet known node.functionNames) rest

theorem freshNames_eq (placed known : List String) (node : Node) :
    freshNames placed known node
      = node.functionNames.eraseDups.filter fun name =>
        name ∉ placed ∧ (node.functionName? = some name ∨ name ∉ known) := by
  have hnew : (node.functionName?.toList ++ node.functionNames.filter (· ∉ known)).eraseDups
      = (node.functionNames.filter fun name =>
        node.functionName? = some name ∨ name ∉ known).eraseDups := by
    cases hfun : node.functionName? with
    | none => simp
    | some first =>
      obtain ⟨inner, hinner⟩ := Node.functionNames_of_functionName? hfun
      have hkept : (first :: inner).filter (fun name => some first = some name ∨ name ∉ known)
          = first :: inner.filter fun name => some first = some name ∨ name ∉ known :=
        filter_cons_of_pos (by simp)
      rw [hinner, hkept, Option.toList_some, singleton_append, eraseDups_cons,
        eraseDups_cons, filter_filter, filter_filter]
      refine congrArg (first :: List.eraseDups ·) ?_
      rw [filter_cons_of_neg (by simp)]
      refine filter_congr ?_
      intro name _
      by_cases heq : name = first
      · simp [heq]
      · simp [Ne.symm heq]
  rw [freshNames, eraseDups_filter, eraseDups_append_eraseDups, hnew, eraseDups_filter,
    filter_filter]
  refine filter_congr ?_
  intro name _
  simp

/-- What is placed and what is known in front of the node at a place. -/
structure Stage (scan : Bool) (nodes : List Node) (k : Nat) (placed known : List String) : Prop where
  placed_iff : ∀ name, name ∈ placed ↔ ∃ j, j < k ∧ Node.home? scan nodes name = some j
  known_iff : ∀ name, name ∈ known
    ↔ (scan = true ∧ name ∈ Node.topNames nodes) ∨ name ∈ Node.namesIn (nodes.take k)

namespace Stage

variable {scan : Bool} {nodes : List Node} {k : Nat} {placed known : List String} {node : Node}
  {name : String}

theorem mem_placed_iff_lt (h : Stage scan nodes k placed known) {j : Nat}
    (hhome : Node.home? scan nodes name = some j) : name ∈ placed ↔ j < k := by
  rw [h.placed_iff, hhome]
  constructor
  · rintro ⟨i, hlt, heq⟩
    cases heq
    exact hlt
  · intro hlt
    exact ⟨j, hlt, rfl⟩

theorem home?_eq_iff_of_met (h : Stage scan nodes k placed known) (hk : nodes[k]? = some node)
    (hname : name ∈ node.functionNames)
    (hhome : Node.home? scan nodes name = Node.firstMet? nodes name)
    (hscan : ¬ (scan = true ∧ name ∈ Node.topNames nodes)) :
    Node.home? scan nodes name = some k
      ↔ name ∉ placed ∧ (node.functionName? = some name ∨ name ∉ known) := by
  obtain ⟨i, hi, hle⟩ := Node.firstMet?_le hk hname
  rw [hi] at hhome
  rw [h.mem_placed_iff_lt hhome, hhome, h.known_iff]
  constructor
  · intro heq
    cases heq
    refine ⟨Nat.lt_irrefl _, .inr ?_⟩
    rw [not_or, Node.mem_namesIn_take]
    refine ⟨hscan, ?_⟩
    rintro ⟨j, other, hlt, hother, hmem⟩
    obtain ⟨i', hi', hle'⟩ := Node.firstMet?_le hother hmem
    rw [hi] at hi'
    cases hi'
    omega
  · rintro ⟨hge, -⟩
    rw [Nat.le_antisymm hle (Nat.le_of_not_lt hge)]

theorem home?_eq_iff_of_top (h : Stage true nodes k placed known) (hk : nodes[k]? = some node)
    {i : Nat} (hi : nodes.findIdx? (·.functionName? = some name) = some i) :
    Node.home? true nodes name = some k
      ↔ name ∉ placed ∧ (node.functionName? = some name ∨ name ∉ known) := by
  have hhome : Node.home? true nodes name = some i := by rw [Node.home?_true, hi, Option.some_or]
  have hknown : name ∈ known := (h.known_iff name).mpr (.inl ⟨rfl, Node.mem_topNames_iff.mpr ⟨i, hi⟩⟩)
  rw [h.mem_placed_iff_lt hhome, hhome]
  constructor
  · intro heq
    cases heq
    obtain ⟨other, hother, hfun⟩ := exists_getElem?_of_findIdx? hi
    rw [hk] at hother
    cases hother
    exact ⟨Nat.lt_irrefl _, .inl (of_decide_eq_true hfun)⟩
  · rintro ⟨hge, hfun⟩
    obtain ⟨j, hj, hle⟩ := exists_findIdx?_le (p := (·.functionName? = some name)) hk
      (decide_eq_true (hfun.resolve_right (not_not_intro hknown)))
    rw [hi] at hj
    cases hj
    rw [Nat.le_antisymm hle (Nat.le_of_not_lt hge)]

/-- What is placed so far decides whether this is the home of a name. -/
theorem home?_eq_iff (h : Stage scan nodes k placed known) (hk : nodes[k]? = some node)
    (hname : name ∈ node.functionNames) :
    Node.home? scan nodes name = some k
      ↔ name ∉ placed ∧ (node.functionName? = some name ∨ name ∉ known) := by
  cases scan with
  | false =>
    exact h.home?_eq_iff_of_met hk hname (Node.home?_false nodes name)
      fun hscan => Bool.false_ne_true hscan.1
  | true =>
    cases htop : nodes.findIdx? (·.functionName? = some name) with
    | some i => exact h.home?_eq_iff_of_top hk htop
    | none =>
      refine h.home?_eq_iff_of_met hk hname ?_ ?_
      · rw [Node.home?_true, htop, Option.none_or]
      · rintro ⟨-, hmem⟩
        obtain ⟨i, hi⟩ := Node.mem_topNames_iff.mp hmem
        rw [htop] at hi
        cases hi

theorem freshNames_eq_standing (h : Stage scan nodes k placed known) (hk : nodes[k]? = some node) :
    freshNames placed known node = Node.standing scan nodes k := by
  rw [freshNames_eq, Node.standing, hk]
  refine filter_congr ?_
  intro name hname
  rw [mem_eraseDups] at hname
  exact decide_eq_decide.mpr (h.home?_eq_iff hk hname).symm

/-- One node further, the stage is set again. -/
theorem step (h : Stage scan nodes k placed known) (hk : nodes[k]? = some node) :
    Stage scan nodes (k + 1) (freshNames placed known node ++ placed)
      (meet known node.functionNames) where
  placed_iff := by
    intro name
    rw [mem_append, h.freshNames_eq_standing hk, Node.mem_standing, h.placed_iff]
    constructor
    · rintro (hhome | ⟨j, hlt, hhome⟩)
      · exact ⟨k, Nat.lt_succ_self k, hhome⟩
      · exact ⟨j, Nat.lt_succ_of_lt hlt, hhome⟩
    · rintro ⟨j, hlt, hhome⟩
      rcases Nat.lt_succ_iff_lt_or_eq.mp hlt with hlt | rfl
      · exact .inr ⟨j, hlt, hhome⟩
      · exact .inl hhome
  known_iff := by
    intro name
    have htake : nodes.take (k + 1) = nodes.take k ++ [node] := by
      rw [take_add_one, hk]
      rfl
    rw [mem_meet, h.known_iff, htake, Node.namesIn_eq_flatMap, Node.namesIn_eq_flatMap,
      flatMap_append, mem_append, flatMap_singleton, or_assoc]

theorem start (scan : Bool) (nodes : List Node) :
    Stage scan nodes 0 [] (meet [] (if scan then Node.topNames nodes else [])) where
  placed_iff := by simp
  known_iff := by
    intro name
    rw [mem_meet]
    cases scan <;> simp [Node.namesIn]

end Stage

variable {placed : List String}

/-- **The items stand at the homes of their functions.** -/
theorem arrange_eq_standing {rest : List Node} {known : List String}
    (h : Stage scan nodes k placed known) (hrest : nodes.drop k = rest) :
    arrange placed known rest = (List.range' k rest.length).map (Node.standing scan nodes) := by
  induction rest generalizing k placed known with
  | nil => rfl
  | cons node rest ih =>
    have hk : nodes[k]? = some node := by
      rw [← head?_drop, hrest]
      rfl
    have hdrop : nodes.drop (k + 1) = rest := by rw [← tail_drop, hrest, tail_cons]
    rw [arrange, ih (h.step hk) hdrop, h.freshNames_eq_standing hk, length_cons,
      List.range'_succ, map_cons]

/-! ## §3. Slots -/

section
variable {all : List String}

theorem idxOf_injOn {a b : String} (ha : a ∈ all) (hb : b ∈ all) (h : all.idxOf a = all.idxOf b) :
    a = b := by
  have hlt := idxOf_lt_length_of_mem ha
  have hlt' := idxOf_lt_length_of_mem hb
  calc a = all[all.idxOf a] := (getElem_idxOf hlt).symm
    _ = all[all.idxOf b] := by simp only [h]
    _ = b := getElem_idxOf hlt'

theorem filter_map_idxOf {xs ys : List String} (hxs : ∀ x ∈ xs, x ∈ all) (hys : ∀ y ∈ ys, y ∈ all) :
    (xs.map all.idxOf).filter (· ∉ ys.map all.idxOf) = (xs.filter (· ∉ ys)).map all.idxOf := by
  rw [filter_map]
  refine congrArg (List.map _) (filter_congr ?_)
  intro x hx
  have hmem : all.idxOf x ∈ ys.map all.idxOf ↔ x ∈ ys := by
    rw [mem_map]
    constructor
    · rintro ⟨y, hy, heq⟩
      exact idxOf_injOn (hys y hy) (hxs x hx) heq ▸ hy
    · intro hmem
      exact ⟨x, hmem, rfl⟩
  exact decide_eq_decide.mpr (not_congr hmem)

theorem eraseDups_map_idxOf {xs : List String} (hxs : ∀ x ∈ xs, x ∈ all) :
    (xs.map all.idxOf).eraseDups = xs.eraseDups.map all.idxOf := by
  induction xs with
  | nil => rfl
  | cons x xs ih =>
    have hrest := fun y hy => hxs y (mem_cons_of_mem _ hy)
    rw [map_cons, eraseDups_cons, eraseDups_cons, eraseDups_filter, ih hrest,
      eraseDups_filter, map_cons, filter_map]
    refine congrArg (all.idxOf x :: List.map _ ·) (filter_congr ?_)
    intro y hy
    have heq : all.idxOf y = all.idxOf x ↔ y = x :=
      ⟨idxOf_injOn (hrest y (mem_eraseDups.mp hy)) (hxs x mem_cons_self), fun h => h ▸ rfl⟩
    rw [Function.comp_apply, Bool.eq_iff_iff]
    simp [heq]

theorem map_idxOf_append {known new later : List String} (h : (known ++ new ++ later).Nodup) :
    new.map (known ++ new ++ later).idxOf = List.range' known.length new.length := by
  apply ext_getElem
  · simp
  · intro i hi _
    rw [length_map] at hi
    have hlt : known.length + i < (known ++ new ++ later).length := by
      simp only [length_append]
      omega
    have hget : (known ++ new ++ later)[known.length + i] = new[i] := by
      simp [getElem_append_right, getElem_append_left, hi]
    rw [getElem_map, getElem_range', ← hget, h.idxOf_getElem]
    omega

end

variable {s s1 g : ReadState}

/-- The slots left to place are those of the fresh names. -/
theorem unplaced_eq_freshNames {top : Option Nat}
    (hnames : s1.functionNames = meet s.functionNames node.functionNames)
    (hlater : s1.functionNames <+: g.functionNames) (hnodup : g.functionNames.Nodup)
    (hplaced : ∀ name ∈ placed, name ∈ g.functionNames)
    (htop : top = node.functionName?.map g.functionNames.idxOf) :
    Read.unplaced (placed.map g.functionNames.idxOf) top s.functions.length s1.functions.length
      = (freshNames placed s.functionNames node).map g.functionNames.idxOf := by
  obtain ⟨later, hg⟩ := hlater
  have hnew : List.range' s.functions.length (s1.functions.length - s.functions.length)
      = (node.functionNames.filter (· ∉ s.functionNames)).eraseDups.map g.functionNames.idxOf := by
    rw [← s.length_functionNames, ← s1.length_functionNames, ← hg, hnames, meet, length_append,
      Nat.add_sub_cancel_left]
    refine (map_idxOf_append ?_).symm
    rwa [← hg, hnames, meet] at hnodup
  have hmem : ∀ name ∈ node.functionName?.toList
      ++ (node.functionNames.filter (· ∉ s.functionNames)).eraseDups, name ∈ g.functionNames := by
    intro name hname
    rw [← hg, hnames, mem_append, mem_meet]
    rw [mem_append, Option.mem_toList, mem_eraseDups, mem_filter] at hname
    rcases hname with hname | hname
    · exact .inl (.inr (Node.mem_functionNames_of_functionName? hname))
    · exact .inl (.inr hname.1)
  have htops : top.toList = node.functionName?.toList.map g.functionNames.idxOf := by
    rw [htop]
    cases node.functionName? <;> rfl
  rw [Read.unplaced, freshNames, hnew, htops, ← map_append, filter_map_idxOf hmem hplaced,
    eraseDups_map_idxOf fun name hname => hmem name (mem_filter.mp hname).1]

theorem ReadState.Places.idxOf {slot : Nat} (h : s.Places slot name)
    (hnodup : s.functionNames.Nodup) : s.functionNames.idxOf name = slot := by
  unfold ReadState.Places at h
  rw [← getElem?_map] at h
  change s.functionNames[slot]? = some name at h
  obtain ⟨hlt, hname⟩ := List.getElem?_eq_some_iff.mp h
  rw [← hname]
  exact hnodup.idxOf_getElem slot hlt

/-! ## §4. The items of a document -/

/-- The items of a node: its instruction, and the functions that are placed behind it. -/
def Trace.items (slotOf : String → Nat) (t : Trace) (names : List String) : List Item :=
  t.instruction?.toList.map .instruction ++ names.map fun name => .function (slotOf name)

theorem mem_of_mem_freshNames (hnames : s1.functionNames = meet s.functionNames node.functionNames)
    (hlater : s1.functionNames <+: g.functionNames)
    (hplaced : ∀ name ∈ placed, name ∈ g.functionNames) :
    ∀ name ∈ freshNames placed s.functionNames node ++ placed, name ∈ g.functionNames := by
  intro name hname
  rw [mem_append, freshNames_eq, mem_filter, mem_eraseDups] at hname
  rcases hname with ⟨hname, -⟩ | hname
  · refine hlater.subset ?_
    rw [hnames, mem_meet]
    exact .inr hname
  · exact hplaced name hname

/-- The traces account for the items: each node gives its instruction and the functions that are
    placed behind it. -/
def Accounts (cx : Context) (placed : List String) (nodes : List Node) (items : List Item)
    (s g : ReadState) : Prop :=
  ∃ ts, Trace.nodes ts = nodes ∧ Records cx (.block ts) s g
    ∧ items = (ts.zip (arrange placed s.functionNames nodes)).flatMap fun p =>
      p.1.items g.functionNames.idxOf p.2

variable {cx : Context} {slots : List Nat} {items : List Item}

theorem accounts_cons {top : Option Nat} {rest : List Node} {i : Option Instruction}
    (head : Reads cx (.instruction node i) s s1) (hlater : s1.functionNames <+: g.functionNames)
    (hnodup : g.functionNames.Nodup) (hslots : slots = placed.map g.functionNames.idxOf)
    (hplaced : ∀ name ∈ placed, name ∈ g.functionNames)
    (htop : top = node.functionName?.map g.functionNames.idxOf)
    (others : ∀ placed, Read.unplaced slots top s.functions.length s1.functions.length ++ slots
        = placed.map g.functionNames.idxOf → (∀ name ∈ placed, name ∈ g.functionNames) →
      Accounts cx placed rest items s1 g) :
    Accounts cx placed (node :: rest) (i.toList.map .instruction
      ++ (Read.unplaced slots top s.functions.length s1.functions.length).map .function ++ items)
      s g := by
  have hnames : s1.functionNames = meet s.functionNames node.functionNames := head.functionNames_eq
  have hfresh := unplaced_eq_freshNames hnames hlater hnodup hplaced htop
  rw [← hslots] at hfresh
  obtain ⟨t, rfl, rfl, hrecords⟩ := head.recorded
  obtain ⟨ts, rfl, hothers, rfl⟩ := others (freshNames placed s.functionNames t.node ++ placed)
    (by rw [hfresh, hslots, map_append]) (mem_of_mem_freshNames hnames hlater hplaced)
  refine ⟨t :: ts, rfl, .cons hrecords hothers, ?_⟩
  rw [arrange, zip_cons_cons, flatMap_cons, ← hnames, hfresh, Trace.items, map_map]
  rfl

/-- Items account for every node and every function. -/
theorem Lists.accounts {seen : Nat} (h : Lists cx slots seen nodes items s g)
    (hseen : seen = s.functions.length) (hnodup : g.functionNames.Nodup)
    (hslots : slots = placed.map g.functionNames.idxOf)
    (hplaced : ∀ name ∈ placed, name ∈ g.functionNames) : Accounts cx placed nodes items s g := by
  induction h generalizing placed with
  | nil => exact ⟨[], rfl, .nil, rfl⟩
  | @cons slots fresh seen node rest i top items s s1 g first met others ih =>
    subst hseen met
    have hlater := others.reads.functionNames_prefix
    refine accounts_cons first.reads hlater hnodup hslots hplaced ?_
      fun placed hslots hplaced => ih rfl hnodup hslots hplaced
    cases first with
    | instruction head =>
      cases hfun : node.functionName? with
      | none => rfl
      | some name =>
        obtain ⟨signatures, rfl⟩ := Node.exists_signatures_of_functionName? hfun
        cases head.isFunction_eq_false
    | @function name _ slot _ _ _ head =>
      have hslot : g.functionNames.idxOf name = slot :=
        (head.places_function.of_prefix hlater).idxOf hnodup
      rw [Node.functionName?, Option.map_some, hslot]

/-- The overloads of the function of that name. -/
def ReadState.overloadsOf (s : ReadState) (name : String) : List Signature :=
  s.signatures (s.functionNames.idxOf name)

theorem ReadState.getElem?_idxOf (h : name ∈ s.functionNames) :
    s.functions[s.functionNames.idxOf name]? = some ⟨name, s.overloadsOf name⟩ := by
  have hlt := idxOf_lt_length_of_mem h
  have hname : s.functionNames[s.functionNames.idxOf name]? = some name :=
    List.getElem?_eq_some_iff.mpr ⟨hlt, getElem_idxOf hlt⟩
  rw [ReadState.functionNames, getElem?_map] at hname
  obtain ⟨f, hf, rfl⟩ := Option.map_eq_some_iff.mp hname
  have hoverloads : s.overloadsOf f.name = f.signatures := by
    unfold ReadState.overloadsOf ReadState.signatures
    rw [ReadState.functionNames, hf]
    rfl
  rw [hoverloads]
  exact hf

theorem Trace.resolve_items (t : Trace) {names : List String}
    (h : ∀ name ∈ names, name ∈ s.functionNames) :
    (t.items s.functionNames.idxOf names).filterMap (Read.resolve s.functions)
      = t.instruction?.toList ++ names.map fun name => .function name (s.overloadsOf name) := by
  have hfunctions : (names.map fun name => Item.function (s.functionNames.idxOf name)).filterMap
      (Read.resolve s.functions) = names.map fun name => .function name (s.overloadsOf name) := by
    rw [filterMap_map, ← List.filterMap_eq_map]
    refine filterMap_congr ?_
    intro name hname
    simp only [Function.comp_apply, Read.resolve, s.getElem?_idxOf (h name hname)]
    rfl
  rw [Trace.items, filterMap_append, hfunctions, filterMap_map]
  cases t.instruction? <;> rfl

/-- What a node of a document puts into the module: its instruction, and the functions that stand
    there. -/
def Trace.instructionsAt (scan : Bool) (overloads : String → List Signature) (nodes : List Node)
    (t : Trace) (k : Nat) : List Instruction :=
  t.instruction?.toList
    ++ (Node.standing scan nodes k).map fun name => .function name (overloads name)

/-- The module that the traces of a document make, where each function has these overloads. -/
def Trace.module (scan : Bool) (overloads : String → List Signature) (ts : List Trace) :
    List Instruction :=
  ts.zipIdx.flatMap fun p => p.1.instructionsAt scan overloads (Trace.nodes ts) p.2

variable {s' : ReadState}

/-- **A document that was read is the module that its traces make.** -/
theorem exists_traced {u : CompilationUnit} {text : String} {ir : List Instruction}
    (hnodes : readExpressions text = .ok nodes) (hread : (readModule scan u text).outcome = .ok ir) :
    ∃ ts g, Traced scan u (Read.documentNodes nodes) ts g ∧ ir = Trace.module scan g.overloadsOf ts
      ∧ ∀ name, name ∈ g.functionNames ↔ name ∈ Node.namesIn (Read.documentNodes nodes) := by
  obtain ⟨nodes', s', hnodes', hyields⟩ := readModule_eq_ok hread
  obtain rfl : nodes = nodes' := Except.ok.inj (hnodes.symm.trans hnodes')
  obtain ⟨s1, items, g, hscan, hitems, rfl, -⟩ := yields_readDocument.mp hyields
  generalize Read.documentNodes nodes = nodes at *
  have hlists := yields_readItems.mp hitems
  have hstart : (s1.noted (.reading nodes.length)).functionNames
      = meet [] (if scan then Node.topNames nodes else []) := by
    cases scan with
    | false =>
      obtain rfl : s1 = u.start := hscan
      exact (meet_nil []).symm
    | true =>
      obtain ⟨fs, hfs⟩ := yields_scanPrototypes.mp hscan
      exact hfs.functionNames_eq
  have hmet : g.functionNames = meet _ (Node.namesIn nodes) := hlists.reads.functionNames_eq
  rw [hstart] at hmet
  have hnodup : g.functionNames.Nodup := by
    rw [hmet]
    exact nodup_meet (nodup_meet nodup_nil _) _
  have hnamed : ∀ name, name ∈ g.functionNames ↔ name ∈ Node.namesIn nodes := by
    intro name
    rw [hmet, mem_meet, mem_meet]
    refine ⟨?_, .inr⟩
    rintro ((hnil | hscanned) | hname)
    · cases hnil
    · split at hscanned
      · exact Node.topNames_subset hscanned
      · cases hscanned
    · exact hname
  obtain ⟨ts, rfl, hrecords, hitems⟩ := hlists.accounts rfl hnodup
    (show [] = ([] : List String).map _ from rfl) (by simp)
  refine ⟨ts, g, ⟨rfl, s1, hscan, hrecords⟩, ?_, hnamed⟩
  rw [hitems, hstart, arrange_eq_standing (Stage.start scan (Trace.nodes ts)) drop_zero,
    Trace.nodes_eq_map, length_map, zip_map_right, ← zipIdx_eq_zip_range',
    filterMap_flatMap, flatMap_map, Trace.module, Trace.nodes_eq_map]
  refine flatMap_congr ?_
  rintro ⟨t, k⟩ -
  refine t.resolve_items fun name hname => (hnamed name).mpr ?_
  rw [Trace.nodes_eq_map]
  exact Node.mem_namesIn_of_standing hname

/-! ## §5. What stands in a module -/

/-- The name of the function that an instruction is. -/
def Instruction.functionName? : Instruction → Option String
  | .function name _ => some name
  | _ => none

theorem Records.exists_reads_of_mem {ts : List Trace} (h : Records cx (.block ts) s s') {t : Trace}
    (ht : t ∈ ts) : ∃ s1 s2, Reads cx (.instruction t.node t.instruction?) s1 s2 := by
  induction ts generalizing s with
  | nil => cases ht
  | cons head ts ih =>
    cases h with
    | cons first others =>
      rcases mem_cons.mp ht with rfl | ht
      · exact ⟨_, _, first.reads⟩
      · exact ih others ht

theorem Reads.instruction_iff {i : Option Instruction} (h : Reads cx (.instruction node i) s s') :
    i.isSome = !node.isFunction ∧ ∀ j ∈ i, j.functionName? = none := by
  cases i with
  | none =>
    cases hfun : node.isFunction with
    | true => exact ⟨rfl, fun j hj => nomatch hj⟩
    | false =>
      obtain ⟨j, hj⟩ := h.exists_instruction hfun
      cases hj
  | some i =>
    rw [h.isFunction_eq_false]
    refine ⟨rfl, ?_⟩
    rintro j ⟨⟩
    cases i with
    | function name sigs => cases h
    | _ => rfl

theorem Traced.item {u : CompilationUnit} {ts : List Trace} (h : Traced scan u nodes ts g)
    {t : Trace} (ht : t ∈ ts) :
    t.instruction?.isSome = !t.node.isFunction ∧ ∀ i ∈ t.instruction?, i.functionName? = none := by
  obtain ⟨s1, hscan, hrecords⟩ := h.pass
  obtain ⟨s2, s3, hreads⟩ := hrecords.exists_reads_of_mem ht
  exact hreads.instruction_iff

section
variable {scan : Bool} {overloads : String → List Signature} {nodes : List Node} {ts : List Trace}
  {t : Trace}

theorem filter_instructionsAt (h : ∀ i ∈ t.instruction?, i.functionName? = none) (k : Nat) :
    (t.instructionsAt scan overloads nodes k).filter (·.functionName?.isNone)
      = t.instruction?.toList := by
  have hfunctions : ((Node.standing scan nodes k).map fun name =>
      Instruction.function name (overloads name)).filter (·.functionName?.isNone) = [] := by
    simp [filter_eq_nil_iff, Instruction.functionName?]
  rw [Trace.instructionsAt, filter_append, hfunctions, List.append_nil, filter_eq_self]
  intro i hi
  rw [h i (Option.mem_toList.mp hi)]
  rfl

theorem filterMap_instructionsAt (h : ∀ i ∈ t.instruction?, i.functionName? = none) (k : Nat) :
    (t.instructionsAt scan overloads nodes k).filterMap (·.functionName?)
      = Node.standing scan nodes k := by
  have hnone : t.instruction?.toList.filterMap (·.functionName?) = [] := by
    rw [filterMap_eq_nil_iff]
    intro i hi
    exact h i (Option.mem_toList.mp hi)
  rw [Trace.instructionsAt, filterMap_append, hnone, nil_append, filterMap_map]
  exact filterMap_some

/-- Leaving functions out, the module keeps the order of the nodes. -/
theorem filter_module (h : ∀ t ∈ ts, ∀ i ∈ t.instruction?, i.functionName? = none) :
    (Trace.module scan overloads ts).filter (·.functionName?.isNone) = Trace.instructions ts := by
  have hitem : ∀ p ∈ ts.zipIdx,
      (p.1.instructionsAt scan overloads (Trace.nodes ts) p.2).filter (·.functionName?.isNone)
        = p.1.instruction?.toList :=
    fun p hp => filter_instructionsAt (h p.1 (fst_mem_of_mem_zipIdx hp)) p.2
  calc (Trace.module scan overloads ts).filter (·.functionName?.isNone)
      = ts.zipIdx.flatMap fun p => p.1.instruction?.toList := by
        rw [Trace.module, filter_flatMap, flatMap_congr hitem]
    _ = (ts.zipIdx.map Prod.fst).flatMap fun t => t.instruction?.toList := by rw [flatMap_map]
    _ = Trace.instructions ts := by
        rw [zipIdx_map_fst, Trace.instructions_eq, filterMap_eq_flatMap_toList]

theorem filterMap_module (h : ∀ t ∈ ts, ∀ i ∈ t.instruction?, i.functionName? = none) :
    (Trace.module scan overloads ts).filterMap (·.functionName?)
      = (List.range ts.length).flatMap (Node.standing scan (Trace.nodes ts)) := by
  have hitem : ∀ p ∈ ts.zipIdx,
      (p.1.instructionsAt scan overloads (Trace.nodes ts) p.2).filterMap (·.functionName?)
        = Node.standing scan (Trace.nodes ts) p.2 :=
    fun p hp => filterMap_instructionsAt (h p.1 (fst_mem_of_mem_zipIdx hp)) p.2
  calc (Trace.module scan overloads ts).filterMap (·.functionName?)
      = ts.zipIdx.flatMap fun p => Node.standing scan (Trace.nodes ts) p.2 := by
        rw [Trace.module, filterMap_flatMap, flatMap_congr hitem]
    _ = (ts.zipIdx.map Prod.snd).flatMap (Node.standing scan (Trace.nodes ts)) := by
        rw [flatMap_map]
    _ = (List.range ts.length).flatMap (Node.standing scan (Trace.nodes ts)) := by
        rw [zipIdx_map_snd, range_eq_range']

/-- A function stands in the module if some node names it. -/
theorem mem_module_iff (h : ∀ t ∈ ts, ∀ i ∈ t.instruction?, i.functionName? = none)
    {sigs : List Signature} :
    Instruction.function name sigs ∈ Trace.module scan overloads ts
      ↔ name ∈ Node.namesIn (Trace.nodes ts) ∧ sigs = overloads name := by
  simp only [Trace.module, Trace.instructionsAt, mem_flatMap, mem_append, mem_map,
    Option.mem_toList]
  constructor
  · rintro ⟨p, hp, hi | ⟨other, hother, heq⟩⟩
    · cases h p.1 (fst_mem_of_mem_zipIdx hp) _ hi
    · cases heq
      exact ⟨Node.mem_namesIn_of_standing hother, rfl⟩
  · rintro ⟨hname, rfl⟩
    obtain ⟨k, hk⟩ := Node.exists_home? scan hname
    obtain ⟨node, hnode, -⟩ := Node.mem_functionNames_of_home? hk
    rw [Trace.nodes_eq_map, getElem?_map] at hnode
    obtain ⟨t, ht, -⟩ := Option.map_eq_some_iff.mp hnode
    exact ⟨(t, k), mk_mem_zipIdx_iff_getElem?.mpr ht, .inr ⟨name, Node.mem_standing.mpr hk, rfl⟩⟩

end

theorem nodup_flatMap_standing (scan : Bool) (nodes : List Node) (ks : List Nat) (h : ks.Nodup) :
    (ks.flatMap (Node.standing scan nodes)).Nodup := by
  rw [List.Nodup, pairwise_flatMap]
  refine ⟨fun k _ => (nodup_eraseDups _).filter _, h.imp ?_⟩
  intro i j hne a ha b hb heq
  subst heq
  rw [Node.mem_standing] at ha hb
  rw [ha] at hb
  exact hne (Option.some.inj hb)

/-- **Items are neither lost nor made up, and each has its place.**  What is no function comes from
    the nodes of the top level, in their order.  The functions are those that the document names,
    each once, and each behind the instruction of the node where it stands. -/
theorem readModule_places_items (scan : Bool) (u : CompilationUnit) (text : String)
    (nodes : List Node) (ir : List Instruction) (hnodes : readExpressions text = .ok nodes)
    (hread : (readModule scan u text).outcome = .ok ir) :
    ∃ ts g, Traced scan u (Read.documentNodes nodes) ts g
      ∧ ir = Trace.module scan g.overloadsOf ts
      ∧ (∀ t ∈ ts, t.instruction?.isSome = !t.node.isFunction)
      ∧ ir.filter (·.functionName?.isNone) = Trace.instructions ts
      ∧ (ir.filterMap (·.functionName?)).Nodup
      ∧ ∀ name, name ∈ ir.filterMap (·.functionName?)
        ↔ name ∈ Node.namesIn (Read.documentNodes nodes) := by
  obtain ⟨ts, g, htraced, rfl, -⟩ := exists_traced hnodes hread
  have hplain := fun t ht => (htraced.item (t := t) ht).2
  refine ⟨ts, g, htraced, rfl, fun t ht => (htraced.item ht).1, filter_module hplain, ?_, ?_⟩
  · rw [filterMap_module hplain]
    exact nodup_flatMap_standing _ _ _ nodup_range
  · intro name
    rw [← htraced.nodes_eq, mem_filterMap]
    constructor
    · rintro ⟨i, hi, hname⟩
      cases i with
      | function other sigs =>
        cases hname
        exact ((mem_module_iff hplain).mp hi).1
      | _ => cases hname
    · intro hname
      exact ⟨.function name (g.overloadsOf name), (mem_module_iff hplain).mpr ⟨hname, rfl⟩, rfl⟩

/-- Two functions in the body of a third.  One of them is on the top level as well, further down. -/
def nestedFunctions : String :=
  "(declare()int g)" ++
  "(function a(signature int(parameters)(" ++
  "(function b(signature int(parameters)((return(var_ref g)))))" ++
  "(function c(signature int(parameters)()))(return(call b())))))" ++
  "(return)(function b(signature int(parameters)()))"

/-- With a scan `b` stands at the end; `c` stands behind `a`, in which it was met. -/
theorem readModule_places_items_nestedFunctions :
    ∃ nodes ir ts g, readExpressions nestedFunctions = .ok nodes
      ∧ (readModule true .fresh nestedFunctions).outcome = .ok ir
      ∧ ir.map (·.functionName?) = [none, some "a", some "c", none, some "b"]
      ∧ Traced true .fresh (Read.documentNodes nodes) ts g
      ∧ ir = Trace.module true g.overloadsOf ts
      ∧ (ir.filterMap (·.functionName?)).Nodup := by
  obtain ⟨ir, hread, hnames⟩ : ∃ ir, (readModule true .fresh nestedFunctions).outcome = .ok ir
      ∧ ir.map (·.functionName?) = [none, some "a", some "c", none, some "b"] :=
    exists_ok_of_decide (by decide +kernel)
  obtain ⟨nodes, -, hnodes, -⟩ := readModule_eq_ok hread
  obtain ⟨ts, g, htraced, hmodule, -, -, hnodup, -⟩ :=
    readModule_places_items true .fresh nestedFunctions nodes ir hnodes hread
  exact ⟨nodes, ir, ts, g, hnodes, hread, hnames, htraced, hmodule, hnodup⟩

end Shading
