/-
  Shading.Proofs.Scan.Columns — where a function is bound, scope by scope.

  The column of a name is what the scopes of a table bind it to, from the innermost scope to the
  outermost.  Callers see what comes first in the column; the rest is hidden.  Reading binds a
  function in the scope of the module if no scope binds it, and else changes what comes first, so a
  column changes in one place only, and that place is known from the start.
-/
import Shading.Proofs.Scan.Follow

namespace Shading

open List

/-! ## §1. Columns -/

/-- What the scopes bind the name of a function to, innermost first. -/
def SymbolTable.column (t : SymbolTable) (name : String) : List (Option Prototype) :=
  t.scopes.map fun scope => scope.functions.find? name

/-- The place in a column where the name is bound; if it is not, that of the scope at depth `d`. -/
def pin (d : Nat) (col : List (Option Prototype)) : Nat :=
  (col.findIdx? (·.isSome)).getD (col.length - d)

theorem SymbolTable.findFunction?_eq_column (t : SymbolTable) (name : String) :
    t.findFunction? name = (t.column name).findSome? id := by
  rw [SymbolTable.findFunction?, SymbolTable.column, findSome?_map]
  rfl

theorem SymbolTable.length_column (t : SymbolTable) (name : String) :
    (t.column name).length = t.scopes.length :=
  length_map _

variable {col : List (Option Prototype)}

theorem findSome?_of_findIdx? {k : Nat} (h : col.findIdx? (·.isSome) = some k) :
    col.findSome? id = (col[k]?).join := by
  induction col generalizing k with
  | nil => cases h
  | cons o col ih =>
    rw [findIdx?_cons] at h
    cases o with
    | none =>
      obtain ⟨j, hj, rfl⟩ := Option.map_eq_some_iff.mp h
      exact ih hj
    | some p =>
      cases h
      rfl

/-- The name stands for what is pinned in its column. -/
theorem findSome?_eq_pin (d : Nat) (col : List (Option Prototype)) :
    col.findSome? id = (col[pin d col]?).join := by
  unfold pin
  cases hidx : col.findIdx? (·.isSome) with
  | some k => exact findSome?_of_findIdx? hidx
  | none =>
    have hnone : ∀ o ∈ col, o = none := by
      intro o ho
      simpa using findIdx?_eq_none_iff.mp hidx o ho
    have hleft : col.findSome? id = none := findSome?_eq_none_iff.mpr hnone
    rw [hleft, Option.getD_none]
    cases hget : col[col.length - d]? with
    | none => rfl
    | some o =>
      rw [hnone o (mem_of_getElem? hget)]
      rfl

variable {d : Nat}

theorem pin_congr {col' : List (Option Prototype)} (h : col'.map (·.isSome) = col.map (·.isSome)) :
    pin d col' = pin d col := by
  have hidx : ∀ col : List (Option Prototype),
      col.findIdx? (·.isSome) = (col.map (·.isSome)).findIdx? id := by
    intro col
    rw [findIdx?_map]
    rfl
  have hlen : col'.length = col.length := by simpa using congrArg List.length h
  rw [pin, pin, hidx, hidx, h, hlen]

theorem pin_cons_none (hd : d ≤ col.length) : pin d (none :: col) = pin d col + 1 := by
  unfold pin
  rw [findIdx?_cons]
  cases col.findIdx? (·.isSome) with
  | some k => rfl
  | none =>
    show col.length + 1 - d = col.length - d + 1
    omega

/-! ## §2. Columns that change in one place -/

/-- The second column is the first one but for the place where the name is bound. -/
structure Pinned (d : Nat) (col col' : List (Option Prototype)) : Prop where
  length : col'.length = col.length
  place : pin d col' = pin d col
  others : ∀ i, i ≠ pin d col → col'[i]? = col[i]?

namespace Pinned

variable {d : Nat} {col col1 col' : List (Option Prototype)}

theorem of_eq (h : col' = col) : Pinned d col col' := by
  subst h
  exact ⟨rfl, rfl, fun _ _ => rfl⟩

theorem trans (h1 : Pinned d col col1) (h2 : Pinned d col1 col') : Pinned d col col' := by
  refine ⟨h2.length.trans h1.length, h2.place.trans h1.place, ?_⟩
  intro i hi
  rw [h2.others i (h1.place ▸ hi), h1.others i hi]

theorem modify {g : Option Prototype → Option Prototype}
    (h : pin d (col.modify (pin d col) g) = pin d col) : Pinned d col (col.modify (pin d col) g) := by
  refine ⟨length_modify _ _ _, h, ?_⟩
  intro i hi
  rw [getElem?_modify]
  simp only [if_neg (Ne.symm hi), Option.map_eq_map, Option.map_id']

theorem tail (h : Pinned d (none :: col) col') (hd : d ≤ col.length) : Pinned d col col'.tail := by
  have hpin := pin_cons_none hd
  have hhead : col'[0]? = some none := h.others 0 (by omega)
  cases col' with
  | nil => cases hhead
  | cons o rest =>
    cases hhead
    have hlen : rest.length = col.length := Nat.succ.inj h.length
    have hpin' : pin d (none :: rest) = pin d rest + 1 := pin_cons_none (hlen.symm ▸ hd)
    refine ⟨hlen, ?_, ?_⟩
    · have := h.place
      show pin d rest = pin d col
      omega
    · intro i hi
      exact h.others (i + 1) (by omega)

end Pinned

/-- The column with what comes first in it changed. -/
def changeFirst (f : Prototype → Prototype) : List (Option Prototype) → List (Option Prototype)
  | [] => []
  | none :: col => none :: changeFirst f col
  | some p :: col => some (f p) :: col

theorem map_isSome_changeFirst (f : Prototype → Prototype) (col : List (Option Prototype)) :
    (changeFirst f col).map (·.isSome) = col.map (·.isSome) := by
  induction col with
  | nil => rfl
  | cons o col ih =>
    cases o with
    | none => exact congrArg (false :: ·) ih
    | some p => rfl

theorem getElem?_changeFirst {f : Prototype → Prototype} {i : Nat}
    (h : col.findIdx? (·.isSome) ≠ some i) : (changeFirst f col)[i]? = col[i]? := by
  induction col generalizing i with
  | nil => rfl
  | cons o col ih =>
    rw [findIdx?_cons] at h
    cases o with
    | none =>
      cases i with
      | zero => rfl
      | succ i =>
        refine ih fun heq => h ?_
        rw [heq]
        rfl
    | some p =>
      cases i with
      | zero => exact absurd rfl h
      | succ i => rfl

theorem Pinned.change (d : Nat) (f : Prototype → Prototype) (col : List (Option Prototype)) :
    Pinned d col (changeFirst f col) := by
  have hsome := map_isSome_changeFirst f col
  refine ⟨by simpa using congrArg List.length hsome, pin_congr hsome, ?_⟩
  intro i hi
  refine getElem?_changeFirst fun heq => hi ?_
  rw [pin, heq]
  rfl

/-- A new prototype is pinned where the globals are. -/
theorem Pinned.new (hnone : ∀ o ∈ col, o = none) (hpos : 1 ≤ d) (hd : d ≤ col.length)
    (p : Prototype) : Pinned d col (col.modify (col.length - d) fun _ => some p) := by
  have hpin : pin d col = col.length - d := by
    have hidx : col.findIdx? (·.isSome) = none := by
      rw [findIdx?_eq_none_iff]
      intro o ho
      rw [hnone o ho]
      rfl
    rw [pin, hidx]
    rfl
  rw [← hpin]
  refine .modify ?_
  have hidx : (col.modify (pin d col) fun _ => some p).findIdx? (·.isSome) = some (pin d col) := by
    have hlt : pin d col < (col.modify (pin d col) fun _ => some p).length := by
      rw [length_modify]
      omega
    refine findIdx?_eq_some_iff_getElem.mpr ⟨hlt, ?_, ?_⟩
    · rw [getElem_modify, if_pos rfl]
      rfl
    · intro j hj
      rw [getElem_modify, if_neg (by omega), hnone _ (getElem_mem _)]
      exact Bool.false_ne_true
  rw [pin, hidx]
  rfl

/-! ## §3. What reading does to columns -/

/-- Modifying a function changes one column. -/
theorem column_modifyFunction (t : SymbolTable) (name other : String) (f : Prototype → Prototype) :
    (t.modifyFunction name f).column other
      = if other = name then changeFirst f (t.column other) else t.column other := by
  have hscopes : ∀ scopes : List Scope,
      (SymbolTable.modifyIn name f scopes).map (fun scope => scope.functions.find? other)
        = if other = name then changeFirst f (scopes.map fun scope => scope.functions.find? other)
          else scopes.map fun scope => scope.functions.find? other := by
    intro scopes
    induction scopes with
    | nil => split <;> rfl
    | cons scope outer ih =>
      unfold SymbolTable.modifyIn
      by_cases hname : other = name
      · subst hname
        rw [if_pos rfl] at ih ⊢
        cases hfind : scope.functions.find? other with
        | some p =>
          rw [Option.isSome_some, if_pos rfl, map_cons, map_cons, hfind]
          show (scope.functions.modify other f).find? other :: _ = _
          rw [Bindings.find?_modify, if_pos rfl, hfind]
          rfl
        | none =>
          rw [Option.isSome_none, if_neg Bool.false_ne_true, map_cons, map_cons, ih, hfind]
          rfl
      · rw [if_neg hname] at ih ⊢
        split
        next =>
          show (scope.functions.modify name f).find? other :: _ = _
          rw [Bindings.find?_modify, if_neg hname]
          rfl
        next => rw [map_cons, map_cons, ih]
  exact hscopes t.scopes

theorem column_eq (t : SymbolTable) (name : String) :
    t.column name = t.functionScopes.map (·.find? name) := by
  rw [SymbolTable.functionScopes, map_map]
  rfl

theorem column_congr {t u : SymbolTable} (h : u.functionScopes = t.functionScopes) (name : String) :
    u.column name = t.column name := by
  rw [column_eq, h, column_eq]

theorem pinned_onFunction (d : Nat) (s : ReadState) (slot : Nat) (name : String)
    (f : Prototype → Prototype) (g : List Signature → List Signature) (other : String) :
    Pinned d (s.symbols.column other) ((s.onFunction slot name f g).symbols.column other) := by
  show Pinned d _ ((s.symbols.modifyFunction name f).column other)
  rw [column_modifyFunction]
  split
  · exact .change d f _
  · exact .of_eq rfl

theorem column_addFunctionAt {t : SymbolTable} {p : Prototype} (hopen : t.scopes ≠ [])
    (hnone : ∀ o ∈ t.column p.name, o = none) (depth : Nat) (other : String) :
    (t.addFunctionAt depth p).2.column other
      = if other = p.name then (t.column other).modify
          (t.scopes.length - max 1 (min depth t.scopes.length)) fun _ => some p
        else t.column other := by
  rw [column_eq, SymbolTable.functionScopes_addFunctionAt, t.opened_of_ne_nil hopen]
  rw [column_eq] at hnone
  have hbind : ∀ b ∈ t.functionScopes, (b.bindNew p.name p).2 = b.bind p.name p := by
    intro b hb
    rw [Bindings.bindNew, hnone _ (mem_map_of_mem hb)]
  rw [column_eq]
  split <;> rename_i hname
  all_goals
    apply ext_getElem?
    intro i
    simp only [getElem?_map, getElem?_modify, Option.map_eq_map, Option.map_map]
    cases hget : t.functionScopes[i]? with
    | none => rfl
    | some b =>
      have hfind := Bindings.find?_bind b p.name other p
      rw [← hbind b (mem_of_getElem? hget)] at hfind
      simp only [Option.map_some, Function.comp_apply]
      split
      · rw [hfind]
        simp only [hname, if_true, if_false]
      · rfl

variable {s : ReadState} {cx : Context}

/-- A new slot pins its column. -/
theorem pinned_slot (hr : s.Rooted d) (hd : cx.globalDepth = d) (name other : String) :
    Pinned d (s.symbols.column other) ((s.slot cx name).2.symbols.column other) := by
  unfold ReadState.slot
  split
  · exact .of_eq rfl
  · split
    · exact .of_eq rfl
    next hnone =>
      have hpos := hr.pos
      have hle := hr.le
      have hplace : s.symbols.scopes.length - max 1 (min cx.globalDepth s.symbols.scopes.length)
          = (s.symbols.column other).length - d := by
        rw [s.symbols.length_column]
        omega
      rw [SymbolTable.findFunction?_eq_column] at hnone
      have hunbound : ∀ o ∈ s.symbols.column name, o = none := findSome?_eq_none_iff.mp hnone
      show Pinned d _ ((s.symbols.addFunctionAt cx.globalDepth (.empty name)).2.column other)
      rw [column_addFunctionAt hr.ne_nil hunbound, hplace]
      split
      next hname =>
        refine .new ?_ hpos ?_ _
        · rw [hname]
          exact hunbound
        · rw [s.symbols.length_column]
          exact hle
      next => exact .of_eq rfl

/-- **Reading changes a column only where the name is bound, or will be.** -/
theorem pinned_frame (d : Nat) :
    Frame d fun s s' => s.Rooted d → s.InStep →
      Evolves d s s' ∧ ∀ name, Pinned d (s.symbols.column name) (s'.symbols.column name) where
  refl := fun s hr hi => ⟨(evolves_frame d).refl s hr hi, fun _ => .of_eq rfl⟩
  trans := by
    intro s1 s2 s3 h1 h2 hr hi
    obtain ⟨e1, hcol1⟩ := h1 hr hi
    obtain ⟨e2, hcol2⟩ := h2 e1.rooted e1.inStep
    exact ⟨(evolves_frame d).trans _ _ _ (fun _ _ => e1) (fun _ _ => e2) hr hi,
      fun name => (hcol1 name).trans (hcol2 name)⟩
  takeLoop := fun s hr hi => ⟨(evolves_frame d).takeLoop s hr hi, fun _ => .of_eq rfl⟩
  declare := fun s v hopen hr hi => ⟨(evolves_frame d).declare s v hopen hr hi,
    fun name => .of_eq (column_congr (functionScopes_declare hopen v) name)⟩
  slot := fun s cx name hd hopen hr hi => ⟨(evolves_frame d).slot s cx name hd hopen hr hi,
    fun other => pinned_slot hr hd name other⟩
  registers := by
    intro slot name returnType parameters index s s' hplace hmade hreg hr hi
    refine ⟨(evolves_frame d).registers _ _ _ _ _ _ _ hplace hmade hreg hr hi, ?_⟩
    intro other
    cases hreg with
    | repeated => exact pinned_onFunction d _ _ _ _ _ other
    | added => exact (pinned_onFunction d _ _ _ _ _ other).trans (pinned_onFunction d _ _ _ _ _ other)
  complete := fun s slot name index body hplace hbound hr hi =>
    ⟨(evolves_frame d).complete _ _ _ _ _ hplace hbound hr hi,
      fun other => pinned_onFunction d s slot name _ _ other⟩
  scope := by
    intro s s' hopen h hr hi
    obtain ⟨e, hcol⟩ := h hr.opened ⟨hi.nodup, hi.agree⟩
    refine ⟨(evolves_frame d).scope _ _ hopen (fun _ _ => e) hr hi, ?_⟩
    intro name
    have hclosed : s'.closed.symbols.column name = (s'.symbols.column name).tail :=
      map_tail
    rw [hclosed]
    have hle : d ≤ (s.symbols.column name).length := by
      rw [s.symbols.length_column]
      exact hr.le
    exact (hcol name).tail hle

variable {s' : ReadState}

theorem Reads.pinned {reading : Reading} (h : Reads cx reading s s') (hplaced : reading.Placed s)
    (hr : s.Rooted cx.globalDepth) (hi : s.InStep) :
    Evolves cx.globalDepth s s'
      ∧ ∀ name, Pinned cx.globalDepth (s.symbols.column name) (s'.symbols.column name) :=
  (pinned_frame cx.globalDepth).reads h rfl hplaced hr hi

theorem Scans.pinned {nodes : List Node} {fs : List Function} (h : Scans cx nodes fs s s')
    (hr : s.Rooted cx.globalDepth) (hi : s.InStep) (name : String) :
    Pinned cx.globalDepth (s.symbols.column name) (s'.symbols.column name) := by
  induction h with
  | nil s => exact .of_eq rfl
  | skip other others ih => exact ih hr hi
  | function head others ih =>
    obtain ⟨e, hcol⟩ := head.pinned trivial hr hi
    exact (hcol name).trans (ih e.rooted e.inStep)

end Shading
