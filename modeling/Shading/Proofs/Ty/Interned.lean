/-
  Shading.Proofs.Ty.Interned — types that are shared.

  A `TypeTable` makes each array type once.  So no two of its places have the same type, and reading the
  text of an array type leads back to the place where the type stands.
-/
import Shading.Proofs.RoundTrip.Names
import Shading.Proofs.Sexp.Inverse
import Shading.Read.TypeTable

namespace Shading

open List

/-! ## §1. Requests -/

namespace TypeTable

/-- Is there a type at the place? -/
def Knows (t : TypeTable) : Place → Prop
  | .builtin ty => ty ∈ Ty.builtins
  | .made number => number < t.cells.length

/-- At the place stands an array type with that element type and length. -/
def IsArray (t : TypeTable) (place element : Place) (length : UInt32) : Prop :=
  ∃ number ty, place = .made number ∧ t.cells[number]? = some ⟨ty, some (element, length)⟩

/-- The table comes from the other one by requests, in any order, about types that are there. -/
inductive Later (t : TypeTable) : TypeTable → Prop
  | refl : Later t t
  | array {t' : TypeTable} (later : Later t t') {element : Place} (known : t'.Knows element)
      (length : UInt32) : Later t (t'.arrayType element length).2
  | struct {t' : TypeTable} (later : Later t t') (name : Option String)
      {fields : List (Place × String)} (known : ∀ field ∈ fields, t'.Knows field.1) :
      Later t (t'.structType name fields).2
  | function {t' : TypeTable} (later : Later t t') {result : Place} (known : t'.Knows result)
      {parameters : List Place} (others : ∀ place ∈ parameters, t'.Knows place) :
      Later t (t'.functionType result parameters).2

end TypeTable

/-! ## §2. Tables share their types -/

/-- The number of a struct or function type. -/
def Ty.serial? : Ty → Option Nat
  | .struct serial _ _ => some serial
  | .function serial _ _ => some serial
  | _ => none

theorem Ty.flat_of_builtin : ∀ ty ∈ Ty.builtins, ty.element? = none ∧ ty.serial? = none := by decide

/-- No two places have the same type, and the array types that were made can be found. -/
structure TypeTable.Sound (t : TypeTable) : Prop where
  injective : ∀ {p q}, t.Knows p → t.Knows q → t.type p = t.type q → p = q
  numbered : ∀ {p}, t.Knows p → ∀ serial ∈ (t.type p).serial?, serial < t.storage.types.issued
  parts : ∀ {q p length}, t.IsArray q p length → t.Knows p ∧ t.type q = .array (t.type p) length
  arrays : ∀ {q element length}, t.Knows q → t.type q = .array element length →
    ∃ p, t.IsArray q p length
  memo : ∀ {q p length}, t.arrays.lookup (p, length) = some q ↔ t.IsArray q p length

variable {t t' : TypeTable}

namespace TypeTable

/-- The table with one more type. -/
def push (t : TypeTable) (storage : Storage) (cell : Cell)
    (arrays : List ((Place × UInt32) × Place)) : TypeTable :=
  ⟨storage, t.cells ++ [cell], arrays⟩

section

variable {t : TypeTable} {storage : Storage} {cell : Cell}
  {arrays : List ((Place × UInt32) × Place)} {p q : Place} {length : UInt32}

theorem knows_push :
    (t.push storage cell arrays).Knows p ↔ t.Knows p ∨ p = .made t.cells.length := by
  cases p with
  | builtin ty => simp [Knows]
  | made number =>
    show number < (t.cells ++ [cell]).length ↔ number < t.cells.length ∨ _
    rw [length_append, length_singleton, Place.made.injEq]
    omega

theorem type_push (h : t.Knows p) : (t.push storage cell arrays).type p = t.type p := by
  cases p with
  | builtin ty => rfl
  | made number =>
    show ((t.cells ++ [cell])[number]?.map (·.ty)).getD .error = _
    rw [getElem?_append_left h]
    rfl

theorem type_push_new : (t.push storage cell arrays).type (.made t.cells.length) = cell.ty := by
  show ((t.cells ++ [cell])[t.cells.length]?.map (·.ty)).getD .error = _
  rw [getElem?_concat_length]
  rfl

theorem IsArray.knows (h : t.IsArray q p length) : t.Knows q := by
  obtain ⟨number, ty, rfl, hcell⟩ := h
  exact (List.getElem?_eq_some_iff.mp hcell).1

/-- A pushed cell is an array only if it says so. -/
theorem isArray_push : (t.push storage cell arrays).IsArray q p length
    ↔ t.IsArray q p length ∨ (q = .made t.cells.length ∧ cell.array? = some (p, length)) := by
  constructor
  · rintro ⟨number, ty, rfl, hcell⟩
    have hcell : (t.cells ++ [cell])[number]? = some ⟨ty, some (p, length)⟩ := hcell
    by_cases hlt : number < t.cells.length
    · rw [getElem?_append_left hlt] at hcell
      exact .inl ⟨number, ty, rfl, hcell⟩
    · have hnumber : number = t.cells.length := by
        have hbound := (List.getElem?_eq_some_iff.mp hcell).1
        rw [length_append, length_singleton] at hbound
        omega
      rw [hnumber, getElem?_concat_length] at hcell
      cases hcell
      exact .inr ⟨congrArg _ hnumber, rfl⟩
  · rintro (⟨number, ty, rfl, hcell⟩ | ⟨rfl, harray⟩)
    · have hlt := (List.getElem?_eq_some_iff.mp hcell).1
      exact ⟨number, ty, rfl, (getElem?_append_left hlt).trans hcell⟩
    · refine ⟨t.cells.length, cell.ty, rfl, getElem?_concat_length.trans ?_⟩
      rw [← harray]

end

namespace Sound

variable {t : TypeTable}

theorem start (storage : Storage) : (TypeTable.start storage).Sound := by
  have hknows {p : Place} (hp : (TypeTable.start storage).Knows p) :
      ∃ ty ∈ Ty.builtins, p = .builtin ty := by
    cases p with
    | builtin ty => exact ⟨ty, hp, rfl⟩
    | made number => exact absurd hp (Nat.not_lt_zero _)
  have hempty {q p : Place} {length : UInt32} : ¬ (TypeTable.start storage).IsArray q p length := by
    rintro ⟨number, ty, rfl, hcell⟩
    cases hcell
  refine ⟨fun hp hq h => ?_, fun hp serial hserial => ?_, fun h => absurd h hempty,
    fun hq h => ?_, nofun, fun h => absurd h hempty⟩
  · obtain ⟨s, -, rfl⟩ := hknows hp
    obtain ⟨s', -, rfl⟩ := hknows hq
    exact congrArg Place.builtin h
  · obtain ⟨s, hs, rfl⟩ := hknows hp
    have hnone : s.serial? = some serial := hserial
    rw [(Ty.flat_of_builtin s hs).2] at hnone
    cases hnone
  · obtain ⟨s, hs, rfl⟩ := hknows hq
    have hnone := (Ty.flat_of_builtin s hs).1
    rw [show s = _ from h] at hnone
    cases hnone

/-- A new cell keeps the table sound. -/
theorem push (h : t.Sound) {storage : Storage} {cell : Cell}
    {arrays : List ((Place × UInt32) × Place)} (hnew : ∀ q, t.Knows q → t.type q ≠ cell.ty)
    (hissued : t.storage.types.issued ≤ storage.types.issued)
    (hserial : ∀ serial ∈ cell.ty.serial?, serial < storage.types.issued)
    (hparts : ∀ p length, cell.array? = some (p, length) →
      t.Knows p ∧ cell.ty = .array (t.type p) length)
    (harray : ∀ element length, cell.ty = .array element length →
      ∃ p, cell.array? = some (p, length))
    (hmemo : ∀ q p length, arrays.lookup (p, length) = some q
      ↔ t.arrays.lookup (p, length) = some q
        ∨ (q = .made t.cells.length ∧ cell.array? = some (p, length))) :
    (t.push storage cell arrays).Sound where
  injective := fun {p q} hp hq heq => by
    rcases knows_push.mp hp with hp | rfl
    · rw [type_push hp] at heq
      rcases knows_push.mp hq with hq | rfl
      · rw [type_push hq] at heq
        exact h.injective hp hq heq
      · rw [type_push_new] at heq
        exact absurd heq (hnew p hp)
    · rw [type_push_new] at heq
      rcases knows_push.mp hq with hq | rfl
      · rw [type_push hq] at heq
        exact absurd heq.symm (hnew q hq)
      · rfl
  numbered := fun {p} hp serial hmem => by
    rcases knows_push.mp hp with hp | rfl
    · rw [type_push hp] at hmem
      exact Nat.lt_of_lt_of_le (h.numbered hp serial hmem) hissued
    · rw [type_push_new] at hmem
      exact hserial serial hmem
  parts := fun {q p length} hq => by
    rcases isArray_push.mp hq with hq | ⟨rfl, hcell⟩
    · obtain ⟨hp, htype⟩ := h.parts hq
      rw [knows_push, type_push hp, type_push hq.knows]
      exact ⟨.inl hp, htype⟩
    · obtain ⟨hp, htype⟩ := hparts p length hcell
      rw [knows_push, type_push hp, type_push_new]
      exact ⟨.inl hp, htype⟩
  arrays := fun {q element length} hq heq => by
    rcases knows_push.mp hq with hq | rfl
    · rw [type_push hq] at heq
      obtain ⟨p, hp⟩ := h.arrays hq heq
      exact ⟨p, isArray_push.mpr (.inl hp)⟩
    · rw [type_push_new] at heq
      obtain ⟨p, hp⟩ := harray element length heq
      exact ⟨p, isArray_push.mpr (.inr ⟨rfl, hp⟩)⟩
  memo := fun {q p length} => by
    rw [isArray_push, ← h.memo]
    exact hmemo q p length

theorem add (h : t.Sound) {numbered : Ty × Storage}
    (hserial : numbered.1.serial? = some t.storage.types.issued)
    (hissued : numbered.2.types.issued = t.storage.types.issued + 1) : (t.add numbered).2.Sound := by
  refine h.push (fun q hq heq => ?_) (by omega) (fun serial hmem => ?_) nofun
    (fun element length heq => ?_) fun q p length => ?_
  · have hlt := h.numbered hq t.storage.types.issued (by rw [heq]; exact hserial)
    exact Nat.lt_irrefl _ hlt
  · cases hserial.symm.trans hmem
    omega
  · rw [show numbered.1 = _ from heq] at hserial
    cases hserial
  · exact ⟨.inl, fun hor => hor.elim id nofun⟩

/-- Asking for an array keeps the table sound. -/
theorem arrayType (h : t.Sound) {element : Place} (hknown : t.Knows element) (length : UInt32) :
    (t.arrayType element length).2.Sound := by
  unfold TypeTable.arrayType
  split
  next place hfound => exact h
  next hnone =>
    refine h.push (fun q hq heq => ?_) (Nat.le_refl _) nofun (fun p n hcell => ?_)
      (fun e n heq => ?_) fun q p n => ?_
    · obtain ⟨p, hp⟩ := h.arrays hq heq
      obtain ⟨hp', htype⟩ := h.parts hp
      have hsame : p = element := h.injective hp' hknown (Ty.array.inj (htype.symm.trans heq)).1
      rw [hsame] at hp
      rw [h.memo.mpr hp] at hnone
      cases hnone
    · cases hcell
      exact ⟨hknown, rfl⟩
    · cases heq
      exact ⟨element, rfl⟩
    · rw [lookup_cons]
      split
      next hkey =>
        cases eq_of_beq hkey
        rw [hnone]
        simp [eq_comm]
      next hkey =>
        have hne : (element, length) ≠ (p, n) := fun heq => by simp [heq] at hkey
        simp [hne]

end Sound

/-- **A table shares its types after any requests.** -/
theorem Later.sound (h : t.Later t') (ht : t.Sound) : t'.Sound := by
  induction h with
  | refl => exact ht
  | array later known length ih => exact ih.arrayType known length
  | struct later name known ih => exact ih.add rfl rfl
  | function later known others ih => exact ih.add rfl rfl

/-- What is there stays as it is. -/
structure Grows (t t' : TypeTable) : Prop where
  knows : ∀ {p}, t.Knows p → t'.Knows p
  type : ∀ {p}, t.Knows p → t'.type p = t.type p
  isArray : ∀ {q p length}, t.IsArray q p length → t'.IsArray q p length

theorem Grows.refl (t : TypeTable) : t.Grows t := ⟨id, fun _ => rfl, id⟩

theorem Grows.trans {t1 : TypeTable} (h : t.Grows t1) (h' : t1.Grows t') : t.Grows t' :=
  ⟨fun hp => h'.knows (h.knows hp), fun hp => (h'.type (h.knows hp)).trans (h.type hp),
    fun hq => h'.isArray (h.isArray hq)⟩

theorem grows_push (t : TypeTable) (storage : Storage) (cell : Cell)
    (arrays : List ((Place × UInt32) × Place)) : t.Grows (t.push storage cell arrays) :=
  ⟨fun hp => knows_push.mpr (.inl hp), type_push, fun hq => isArray_push.mpr (.inl hq)⟩

theorem grows_arrayType (t : TypeTable) (element : Place) (length : UInt32) :
    t.Grows (t.arrayType element length).2 := by
  unfold arrayType
  split
  next => exact .refl t
  next => exact grows_push t _ _ _

theorem Later.grows (h : t.Later t') : t.Grows t' := by
  induction h with
  | refl => exact .refl t
  | array later known length ih => exact ih.trans (grows_arrayType _ _ _)
  | struct later name known ih => exact ih.trans (grows_push _ _ _ _)
  | function later known others ih => exact ih.trans (grows_push _ _ _ _)

section

variable {t : TypeTable} {p q : Place} {length : UInt32}

theorem IsArray.arrayType_eq (h : t.IsArray q p length) (ht : t.Sound) :
    t.arrayType p length = (q, t) := by
  unfold arrayType
  rw [ht.memo.mpr h]

theorem isArray_arrayType (ht : t.Sound) (p : Place) (length : UInt32) :
    (t.arrayType p length).2.IsArray (t.arrayType p length).1 p length := by
  unfold arrayType
  split
  next place hfound => exact ht.memo.mp hfound
  next => exact isArray_push.mpr (.inr ⟨rfl, rfl⟩)

end

end TypeTable

/-! ## §3. Array types -/

namespace TypeTable

/-- At the place stands a built-in type, or an array of such types. -/
inductive Plain (t : TypeTable) : Place → Prop
  | builtin {ty : Ty} (mem : ty ∈ Ty.builtins) : Plain t (.builtin ty)
  | array {q p : Place} {length : UInt32} (isArray : t.IsArray q p length) (positive : 0 < length)
      (element : Plain t p) : Plain t q

/-- The types at the places are built alike: both are the same built-in type, or both are arrays of one
    length with element types that are built alike. -/
inductive Alike (t : TypeTable) : Place → Place → Prop
  | builtin (ty : Ty) : Alike t (.builtin ty) (.builtin ty)
  | array {q q' p p' : Place} {length : UInt32} (first : t.IsArray q p length)
      (second : t.IsArray q' p' length) (elements : Alike t p p') : Alike t q q'

section

variable {t : TypeTable} {p q : Place}

theorem Plain.knows (h : t.Plain p) : t.Knows p := by
  cases h with
  | builtin mem => exact mem
  | array isArray positive element => exact isArray.knows

theorem Plain.alike (h : t.Plain p) : t.Alike p p := by
  induction h with
  | builtin mem => exact .builtin _
  | array isArray positive element ih => exact .array isArray isArray ih

theorem Plain.later (h : t.Plain p) (hgrows : t.Grows t') : t'.Plain p := by
  induction h with
  | builtin mem => exact .builtin mem
  | array isArray positive element ih => exact .array (hgrows.isArray isArray) positive ih

/-- Alike types have one place. -/
theorem Alike.eq (h : t.Alike p q) (ht : t.Sound) : p = q := by
  induction h with
  | builtin ty => rfl
  | array first second elements ih =>
    rw [ih] at first
    exact Option.some.inj ((ht.memo.mpr first).symm.trans (ht.memo.mpr second))

end

end TypeTable

/-! ## §4. Reading types -/

/-- The names of the built-in types stand for them. -/
def SymbolTable.KnowsBuiltins (t : SymbolTable) : Prop :=
  ∀ ty ∈ Ty.builtins, ∀ name ∈ ty.name?, t.findType? name = some ty

theorem SymbolTable.knowsBuiltins_withBuiltins : SymbolTable.withBuiltins.KnowsBuiltins := by
  unfold KnowsBuiltins
  decide +kernel

theorem arrayLength?_ofNat {n : UInt32} (h : 0 < n) :
    arrayLength? (.int (.ofInt n.toNat)) = some n := by
  have hpos : 0 < n.toNat := UInt32.lt_iff_toNat_lt.mp h
  have hlt : n.toNat < 4294967296 := n.toNat_lt
  have hint : (Int64.ofInt n.toNat).toInt = n.toNat :=
    Int64.toInt_ofInt_of_le (by omega) (by omega)
  have hbounds : 0 < (Int64.ofInt n.toNat).toInt ∧ (Int64.ofInt n.toNat).toInt < UInt32.size := by
    rw [hint]
    exact ⟨by omega, by show (n.toNat : Int) < 4294967296; omega⟩
  show (if _ then _ else _) = _
  rw [if_pos hbounds, hint, Int.toNat_natCast, UInt32.ofNat_toNat]

namespace TypeTable

variable {t : TypeTable} {env : Env} {names : String → Option Place} {p : Place}

/-- **Reading a type at its place gives the type that is read as a term**, where names stand for places of
    the types that they stand for.  Array types are all that the table is asked for. -/
theorem readType_type (ht : t.Sound)
    (hnames : ∀ name, ∀ q ∈ names name, t.Knows q ∧ env.symbols.findType? name = some (t.type q))
    {node : Node} (h : t.readType env names node = .ok (p, t')) :
    t.Later t' ∧ t'.Knows p ∧ Shading.readType env node = .ok (t'.type p) := by
  fun_induction TypeTable.readType env names t node generalizing p t' with
  | case1 name =>
    obtain ⟨q, hq, heq⟩ := except_bind_eq_ok.mp h
    cases heq
    obtain ⟨hknown, hfind⟩ := hnames name p (Env.require_eq_ok.mp hq)
    exact ⟨.refl, hknown, Env.require_eq_ok.mpr hfind⟩
  | case2 element length ih =>
    obtain ⟨⟨q, t1⟩, hq, hrest⟩ := except_bind_eq_ok.mp h
    obtain ⟨n, hn, heq⟩ := except_bind_eq_ok.mp hrest
    obtain ⟨hlater, hknown, hread⟩ := ih hq
    have harray := isArray_arrayType (hlater.sound ht) q n
    have hlater' := hlater.array hknown n
    have hsound := (hlater.sound ht).arrayType hknown n
    have hterm : Shading.readType env (.list [.symbol "array", element, length])
        = .ok (.array (t1.type q) n) := by
      simp only [Shading.readType, except_bind_eq_ok]
      exact ⟨_, hread, n, hn, rfl⟩
    rw [← (grows_arrayType t1 q n).type hknown, ← (hsound.parts harray).2] at hterm
    rw [Except.ok.inj heq] at hlater' harray hterm
    exact ⟨hlater', harray.knows, hterm⟩
  | case3 => cases h

/-- Names of built-in types stand for their places. -/
def BuiltinNames (names : String → Option Place) : Prop :=
  ∀ ty ∈ Ty.builtins, ∀ name ∈ ty.name?, names name = some (.builtin ty)

/-- **The text of an array type leads back to its place**, wherever the names of the built-in types do. -/
theorem Plain.readType_eq (h : t.Plain p) (ht : t.Sound) :
    ∃ node, (t.type p).layout.node? = some node
      ∧ ∀ env names, BuiltinNames names → t.readType env names node = .ok (p, t) := by
  have hnamed : ∀ ty ∈ Ty.builtins, ty.name?.isSome := by decide
  induction h with
  | @builtin ty mem =>
    obtain ⟨name, hname⟩ := Option.isSome_iff_exists.mp (hnamed ty mem)
    have hsymbol := Ty.isSymbol_of_builtin ty mem name hname
    refine ⟨.symbol name, ?_, ?_⟩
    · rw [show t.type (.builtin ty) = ty from rfl, Ty.layout_eq_word hname,
        Layout.node?_symbol hsymbol]
    · intro env names hnames
      rw [readType, Env.require_eq_ok.mpr (hnames ty mem name hname)]
      rfl
  | @array q p length isArray positive element ih =>
    obtain ⟨node, hnode, hread⟩ := ih
    have hlength := arrayLength?_ofNat positive
    obtain ⟨m, hm, hint⟩ := arrayLength?_eq_some hlength
    rw [hm] at hlength
    refine ⟨.list [.symbol "array", node, .int m], ?_, ?_⟩
    · have hword := Layout.node?_symbol (show IsSymbol "array" by decide)
      rw [(ht.parts isArray).2]
      exact Layout.node?_line_some (Layout.nodes?_cons_some hword (Layout.nodes?_cons_some hnode
        (Layout.nodes?_cons_some (Layout.node?_natWord hint) rfl)))
    · intro env names hnames
      rw [readType, hread env names hnames, Env.require_eq_ok.mpr hlength]
      exact congrArg Except.ok (isArray.arrayType_eq ht)

/-- The places of the built-in types that names stand for. -/
def builtinPlace? (symbols : SymbolTable) (name : String) : Option Place :=
  (symbols.findType? name).bind fun ty => if ty ∈ Ty.builtins then some (.builtin ty) else none

theorem builtinNames_builtinPlace? {symbols : SymbolTable} (h : symbols.KnowsBuiltins) :
    BuiltinNames (builtinPlace? symbols) := by
  intro ty mem name hname
  rw [builtinPlace?, h ty mem name hname, Option.bind_some, if_pos mem]

theorem Plain.reads (h : t.Plain p) (ht : t.Sound) (henv : env.symbols.KnowsBuiltins) :
    ∃ node, readExpression (t.type p).text = .ok node ∧ Shading.readType env node = .ok (t.type p)
      ∧ ∀ names, BuiltinNames names → t.readType env names node = .ok (p, t) := by
  obtain ⟨node, hnode, hread⟩ := h.readType_eq ht
  refine ⟨node, readExpression_of_layout hnode, ?_, hread env⟩
  refine (readType_type ht (fun name q hq => ?_) (hread env _ (builtinNames_builtinPlace? henv))).2.2
  obtain ⟨ty, hfind, hq⟩ := Option.bind_eq_some_iff.mp hq
  split at hq
  next mem =>
    cases hq
    exact ⟨mem, hfind⟩
  next => cases hq

end TypeTable

/-- **Array types are canonical, and their text denotes them.**  Take any table that comes from requests
    for array, struct and function types, in any order, and two places with types that were built from
    built-in types as arrays of positive length.  The types are the same just if the places are; this is
    so just if they are built alike, and just if they have one text.  Wherever the names of the built-in
    types stand for them, the text is read as the type, and reading it with the table leads back to the
    place and asks for nothing new.  The array type of a positive length is one of these types again, and the place that was given for it once
    is given for it after any other requests. -/
theorem arrayTypes_canonical (storage : Storage) (t : TypeTable)
    (ht : (TypeTable.start storage).Later t) (p q : Place) (hp : t.Plain p) (hq : t.Plain q) :
    (t.type p = t.type q ↔ p = q) ∧ (p = q ↔ t.Alike p q)
      ∧ (p = q ↔ (t.type p).text = (t.type q).text)
      ∧ (∀ env : Env, env.symbols.KnowsBuiltins →
        ∃ node, readExpression (t.type p).text = .ok node ∧ readType env node = .ok (t.type p)
          ∧ ∀ names, TypeTable.BuiltinNames names → t.readType env names node = .ok (p, t))
      ∧ ∀ (length : UInt32) (t' : TypeTable), 0 < length → (t.arrayType p length).2.Later t' →
        t'.Plain (t.arrayType p length).1
          ∧ t'.type (t.arrayType p length).1 = .array (t.type p) length
          ∧ t'.arrayType p length = ((t.arrayType p length).1, t') := by
  have hsound := ht.sound (.start storage)
  have hsame : t.type p = t.type q ↔ p = q :=
    ⟨hsound.injective hp.knows hq.knows, fun h => congrArg t.type h⟩
  refine ⟨hsame, ⟨fun h => h ▸ hp.alike, fun h => h.eq hsound⟩, ⟨fun h => by rw [h], fun h => ?_⟩,
    fun env henv => ?_, fun length t' hpositive hlater => ?_⟩
  · obtain ⟨symbols, hsymbols⟩ : ∃ symbols : SymbolTable, symbols.KnowsBuiltins :=
      ⟨_, SymbolTable.knowsBuiltins_withBuiltins⟩
    have henv : (⟨symbols, none⟩ : Env).symbols.KnowsBuiltins := hsymbols
    obtain ⟨node, hnode, hread, -⟩ := hp.reads hsound henv
    obtain ⟨node', hnode', hread', -⟩ := hq.reads hsound henv
    rw [h, hnode'] at hnode
    cases hnode
    exact hsame.mp (Except.ok.inj (hread.symm.trans hread'))
  · exact hp.reads hsound henv
  · have hgrows := (TypeTable.grows_arrayType t p length).trans hlater.grows
    have hsound' := hlater.sound (hsound.arrayType hp.knows length)
    have hmade := hlater.grows.isArray (TypeTable.isArray_arrayType hsound p length)
    refine ⟨.array hmade hpositive (hp.later hgrows), ?_, hmade.arrayType_eq hsound'⟩
    rw [(hsound'.parts hmade).2, hgrows.type hp.knows]

/-- Three integers. -/
def threeInts : Place × TypeTable := (TypeTable.start {}).arrayType (.builtin (.scalar .int)) 3

/-- A struct type with such a field, called like the integers. -/
def intRecord : Place × TypeTable := threeInts.2.structType (some "int") [(threeInts.1, "a")]

/-- Two times three integers. -/
def sharedTable : TypeTable := (intRecord.2.arrayType threeInts.1 2).2

/-- The two array types have different texts, the longer one is read and found again, and asking for three
    integers gives the first of them. -/
theorem arrayTypes_canonical_sharedTable :
    (sharedTable.type (.made 0)).text ≠ (sharedTable.type (.made 2)).text
      ∧ (∃ env node, readExpression (sharedTable.type (.made 2)).text = .ok node
        ∧ ∀ names, TypeTable.BuiltinNames names →
          sharedTable.readType env names node = .ok (.made 2, sharedTable))
      ∧ sharedTable.arrayType (.builtin (.scalar .int)) 3 = (.made 0, sharedTable) := by
  have hint : Ty.scalar .int ∈ Ty.builtins := by simp [Ty.builtins, Ty.family]
  have hplain : (TypeTable.start {}).Plain (.builtin (.scalar .int)) := .builtin hint
  have hknown : threeInts.2.Knows threeInts.1 := Nat.zero_lt_one
  have hknown' : intRecord.2.Knows threeInts.1 := Nat.zero_lt_two
  -- the requests from the beginning, and those behind the first one
  have hints : (TypeTable.start {}).Later threeInts.2 := .array .refl hplain.knows 3
  have hrecord : (TypeTable.start {}).Later intRecord.2 :=
    .struct hints (some "int") (forall_mem_singleton.mpr hknown)
  have hrecord' : threeInts.2.Later intRecord.2 :=
    .struct .refl (some "int") (forall_mem_singleton.mpr hknown)
  have hmade : (TypeTable.start {}).Later sharedTable := .array hrecord hknown' 2
  have hlater : threeInts.2.Later sharedTable := .array hrecord' hknown' 2
  have hfirst : sharedTable.Plain (.made 0) := .array ⟨0, _, rfl, rfl⟩ (by decide) (.builtin hint)
  have hsecond : sharedTable.Plain (.made 2) := .array ⟨2, _, rfl, rfl⟩ (by decide) hfirst
  obtain ⟨symbols, hsymbols⟩ : ∃ symbols : SymbolTable, symbols.KnowsBuiltins :=
    ⟨_, SymbolTable.knowsBuiltins_withBuiltins⟩
  obtain ⟨-, -, htext, hread, -⟩ := arrayTypes_canonical {} sharedTable hmade _ _ hsecond hfirst
  obtain ⟨node, hnode, -, hplaces⟩ := hread ⟨symbols, none⟩ hsymbols
  obtain ⟨-, -, -, -, hagain⟩ := arrayTypes_canonical {} _ .refl _ _ hplain hplain
  refine ⟨fun h => ?_, ⟨_, node, hnode, hplaces⟩, (hagain 3 sharedTable (by decide) hlater).2.2⟩
  have hsame : Place.made 2 = .made 0 := htext.mpr h.symm
  cases hsame

end Shading
