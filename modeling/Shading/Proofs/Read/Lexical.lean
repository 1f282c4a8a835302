/-
  Shading.Proofs.Read.Lexical — names stand for variables by where they are written.

  A document mentions variables: it declares them and uses them.  A `Mention` knows the signatures
  that it stands in, the innermost first.  Blocks of conditionals and loops do not count; they open no
  scope.  Among the mentions before a use, in the order of the text, `refersTo` takes the last
  declaration of the name in the innermost signature that has one, then in the next one around it,
  and at the end outside of all functions.
-/
import Shading.Proofs.Read.Bodies
import Shading.Proofs.Read.References

namespace Shading

open List

/-! ## §1. Mentions -/

/-- A place where a variable is declared or used, with the addresses of the signatures that it stands
    in. -/
inductive Mention (α : Type) where
  | declares (within : List (List Nat)) (a : α)
  | uses (within : List (List Nat)) (a : α)
deriving DecidableEq

namespace Mention

variable {α β : Type}

/-- The signatures that it stands in, the innermost first. -/
def within : Mention α → List (List Nat)
  | declares within _ => within
  | uses within _ => within

/-- The same place with something else there. -/
def map (f : α → β) : Mention α → Mention β
  | declares within a => declares within (f a)
  | uses within a => uses within (f a)

/-- What is declared there. -/
def declared? : Mention α → Option α
  | declares _ a => some a
  | uses _ _ => none

/-- What is declared there, if it belongs directly to that signature. -/
def declaredIn? (around : List (List Nat)) (m : Mention α) : Option α :=
  if m.within = around then m.declared? else none

end Mention

/-- What belongs directly to that signature, in the order of the text. -/
def declaredAt {α : Type} (past : List (Mention α)) (within : List (List Nat)) : List α :=
  past.filterMap (·.declaredIn? within)

/-- The last variable of that name that belongs directly to that signature. -/
def lastDeclared (past : List (Mention Var)) (within : List (List Nat)) (name : String) : Option Var :=
  ((declaredAt past within).filter (·.name = name)).getLast?

/-- What the name refers to: the last variable of that name in the innermost signature that has one,
    or in the next one around it, or outside of all functions. -/
def refersTo (past : List (Mention Var)) : List (List Nat) → String → Option Var
  | [], name => lastDeclared past [] name
  | signature :: around, name =>
    (lastDeclared past (signature :: around) name).or (refersTo past around name)

/-- Every use is of the variable that its name refers to there. -/
def Lexical (past ms : List (Mention Var)) : Prop :=
  ∀ (i : Nat) (within : List (List Nat)) (v : Var), ms[i]? = some (.uses within v) →
    refersTo (past ++ ms.take i) within v.name = some v

/-! ## §2. What names refer to -/

variable {α : Type} {within : List (List Nat)} {signature : List Nat}

section
variable {past ms : List (Mention Var)} {within : List (List Nat)} {name : String} {v : Var}

theorem declaredAt_append (past ms : List (Mention α)) (within : List (List Nat)) :
    declaredAt (past ++ ms) within = declaredAt past within ++ declaredAt ms within :=
  filterMap_append

theorem declaredAt_map {β : Type} (f : α → β) (past : List (Mention α)) (within : List (List Nat)) :
    declaredAt (past.map (·.map f)) within = (declaredAt past within).map f := by
  unfold declaredAt
  rw [filterMap_map, map_filterMap]
  refine filterMap_congr fun m _ => ?_
  cases m with
  | declares around a =>
    by_cases h : around = within
    · simp [Mention.declaredIn?, Mention.map, Mention.within, Mention.declared?, h]
    · simp [Mention.declaredIn?, Mention.map, Mention.within, h]
  | uses around a => simp [Mention.declaredIn?, Mention.map, Mention.declared?]

theorem declaredAt_eq_nil {ms : List (Mention α)} (h : ∀ m ∈ ms, m.within ≠ within) :
    declaredAt ms within = [] := by
  refine filterMap_eq_nil_iff.mpr ?_
  intro m hm
  rw [Mention.declaredIn?, if_neg (h m hm)]

/-- What a name refers to depends on the scopes around it only. -/
theorem refersTo_congr {past' : List (Mention Var)}
    (h : ∀ around, around <:+ within → declaredAt past' around = declaredAt past around) :
    refersTo past' within name = refersTo past within name := by
  induction within with
  | nil => rw [refersTo, refersTo, lastDeclared, lastDeclared, h [] (suffix_refl _)]
  | cons signature around ih =>
    rw [refersTo, refersTo, lastDeclared, lastDeclared, h _ (suffix_refl _),
      ih fun w hw => h w (hw.trans (suffix_cons signature around))]

theorem lastDeclared_eq_some (h : lastDeclared past within name = some v) :
    v.name = name ∧ v ∈ declaredAt past within := by
  have hmem := mem_of_getLast? h
  rw [mem_filter] at hmem
  exact ⟨of_decide_eq_true hmem.2, hmem.1⟩

theorem refersTo_eq_some (h : refersTo past within name = some v) :
    v.name = name ∧ ∃ around, around <:+ within ∧ v ∈ declaredAt past around := by
  induction within with
  | nil =>
    obtain ⟨hname, hmem⟩ := lastDeclared_eq_some h
    exact ⟨hname, [], suffix_refl _, hmem⟩
  | cons signature around ih =>
    rw [refersTo, Option.or_eq_some_iff] at h
    rcases h with h | ⟨-, h⟩
    · obtain ⟨hname, hmem⟩ := lastDeclared_eq_some h
      exact ⟨hname, _, suffix_refl _, hmem⟩
    · obtain ⟨hname, w, hw, hmem⟩ := ih h
      exact ⟨hname, w, hw.trans (suffix_cons signature around), hmem⟩

theorem lastDeclared_declares :
    lastDeclared (past ++ [.declares within v]) within name
      = if name = v.name then some v else lastDeclared past within name := by
  have hlast : declaredAt (past ++ [.declares within v]) within = declaredAt past within ++ [v] := by
    rw [declaredAt_append]
    simp [declaredAt, Mention.declaredIn?, Mention.within, Mention.declared?]
  rw [lastDeclared, hlast, filter_append]
  by_cases hname : name = v.name
  · simp [hname]
  · simp [hname, Ne.symm hname, lastDeclared]

/-- A new declaration hides what the name referred to. -/
theorem refersTo_declares :
    refersTo (past ++ [.declares within v]) within name
      = if name = v.name then some v else refersTo past within name := by
  cases within with
  | nil => exact lastDeclared_declares
  | cons signature around =>
    have houter : refersTo (past ++ [.declares (signature :: around) v]) around name
        = refersTo past around name := by
      refine refersTo_congr fun w hw => ?_
      have hother : ∀ m ∈ [Mention.declares (signature :: around) v], m.within ≠ w := by
        intro m hm heq
        rw [mem_singleton.mp hm] at heq
        subst heq
        have hlength : around.length + 1 ≤ around.length := hw.length_le
        omega
      rw [declaredAt_append, declaredAt_eq_nil hother, List.append_nil]
    rw [refersTo, houter, lastDeclared_declares, refersTo]
    split <;> rfl

/-- A scope that is still empty hides nothing. -/
theorem refersTo_enter (h : ∀ m ∈ past, m.within ≠ signature :: within) :
    refersTo past (signature :: within) name = refersTo past within name := by
  rw [refersTo, lastDeclared, declaredAt_eq_nil h]
  rfl

end

/-! ## §3. The mentions of a document -/

/-- The name that a declaration declares. -/
def Node.declaredName? : Node → Option String
  | .list [.symbol "declare", _, _, .symbol name] => some name
  | _ => none

mutual

/-- The names that a node mentions, in the order of the text. -/
def Node.mentions (path : List Nat) (within : List (List Nat)) : Node → List (Mention String)
  | .list (.symbol "function" :: .symbol _ :: signatures) =>
    Node.mentionsOf path 0 within signatures
  | .list [.symbol "if", condition, .list thenNodes, .list elseNodes] =>
    condition.references.map (.uses within)
      ++ Node.mentionsIn (path ++ [0]) 0 within thenNodes
      ++ Node.mentionsIn (path ++ [1]) 0 within elseNodes
  | .list [.symbol "loop", counter, start, stop, increment, .list nodes] =>
    (counter.counterNames ++ Node.referencesIn [start, stop, increment]).map (.uses within)
      ++ Node.mentionsIn path 0 within nodes
  | .list [.symbol "declare", _, _, .symbol name] => [.declares within name]
  | node => node.references.map (.uses within)

/-- The names that nodes mention, the first of which is the `k`-th. -/
def Node.mentionsIn (path : List Nat) (k : Nat) (within : List (List Nat)) :
    List Node → List (Mention String)
  | [] => []
  | node :: rest =>
    Node.mentions (path ++ [k]) within node ++ Node.mentionsIn path (k + 1) within rest

/-- Those in the signatures of a function. -/
def Node.mentionsOf (path : List Nat) (k : Nat) (within : List (List Nat)) :
    List Node → List (Mention String)
  | [] => []
  | node :: rest =>
    Node.mentionsAt (path ++ [k]) within node ++ Node.mentionsOf path (k + 1) within rest

/-- Those in a signature: its parameters, and what stands in its body. -/
def Node.mentionsAt (path : List Nat) (within : List (List Nat)) : Node → List (Mention String)
  | .list [.symbol "signature", _, .list (.symbol "parameters" :: declarations), .list nodes] =>
    (declarations.filterMap Node.declaredName?).map (.declares (path :: within))
      ++ Node.mentionsIn path 0 (path :: within) nodes
  | _ => []

end

mutual

/-- The variables that the node of a trace mentions. -/
def Trace.mentions (path : List Nat) (within : List (List Nat)) : Trace → List (Mention Var)
  | .plain _ i => (usedIn (i.walk 0)).map (.uses within)
  | .declare _ v => [.declares within v]
  | .branch _ value thenPart elsePart =>
    (usedIn (value.walk 0)).map (.uses within)
      ++ Trace.mentionsIn (path ++ [0]) 0 within thenPart
      ++ Trace.mentionsIn (path ++ [1]) 0 within elsePart
  | .loop _ _ _ _ _ controls part =>
    (usedIn (controls.walk 0)).map (.uses within) ++ Trace.mentionsIn path 0 within part
  | .function _ sigs => SignatureTrace.mentionsOf path 0 within sigs

/-- The variables that the nodes of traces mention. -/
def Trace.mentionsIn (path : List Nat) (k : Nat) (within : List (List Nat)) :
    List Trace → List (Mention Var)
  | [] => []
  | t :: rest =>
    Trace.mentions (path ++ [k]) within t ++ Trace.mentionsIn path (k + 1) within rest

/-- Those in the signatures of a function. -/
def SignatureTrace.mentionsOf (path : List Nat) (k : Nat) (within : List (List Nat)) :
    List SignatureTrace → List (Mention Var)
  | [] => []
  | sig :: rest =>
    SignatureTrace.mentionsAt (path ++ [k]) within sig
      ++ SignatureTrace.mentionsOf path (k + 1) within rest

/-- Those in a signature: its parameters, and what stands in its body. -/
def SignatureTrace.mentionsAt (path : List Nat) (within : List (List Nat)) :
    SignatureTrace → List (Mention Var)
  | ⟨_, _, _, parameters, part⟩ =>
    parameters.map (.declares (path :: within)) ++ Trace.mentionsIn path 0 (path :: within) part

end

/-- The address is that of a node from the `k`-th on, or of something in it. -/
def Under (path : List Nat) (k : Nat) (address : List Nat) : Prop :=
  ∃ j, k ≤ j ∧ path ++ [j] <+: address

namespace Under

variable {path address : List Nat} {i j k : Nat}

theorem of_append (h : path ++ [k] <+: address) : Under path k address := ⟨k, Nat.le_refl k, h⟩

theorem prefix_address (h : Under path k address) : path <+: address ∧ path ≠ address := by
  obtain ⟨j, -, h⟩ := h
  exact prefix_of_append_singleton h

theorem of_succ (h : Under path (k + 1) address) : Under path k address := by
  obtain ⟨j, hj, h⟩ := h
  exact ⟨j, by omega, h⟩

theorem eq_of_append (hi : path ++ [i] <+: address) (hj : path ++ [j] <+: address) : i = j := by
  have heq := prefix_of_prefix_length_le hi hj (by simp)
  simpa using heq.eq_of_length (by simp)

theorem not_of_append (h : path ++ [k] <+: address) : ¬ Under path (k + 1) address := by
  rintro ⟨j, hj, hfront⟩
  have := eq_of_append h hfront
  omega

end Under

/-- The part of a trace that stands there has the address, or something in it has. -/
def Passage.Owns (path : List Nat) (k : Nat) (address : List Nat) : Passage → Prop
  | .item _ => path <+: address
  | .block _ => Under path k address
  | .signatures _ _ _ => Under path k address
  | .signature _ _ _ => path <+: address

/-- The mentions stand within those signatures, and otherwise only in ones that are owned. -/
def Inside (owns : List Nat → Prop) (within : List (List Nat)) (ms : List (Mention Var)) : Prop :=
  ∀ m ∈ ms, ∃ inner, m.within = inner ++ within ∧ ∀ address ∈ inner, owns address

namespace Inside

variable {owns owns' : List Nat → Prop} {within : List (List Nat)} {ms ms' : List (Mention Var)}

theorem mono (h : Inside owns within ms) (himp : ∀ address, owns address → owns' address) :
    Inside owns' within ms := by
  intro m hm
  obtain ⟨inner, hinner, hall⟩ := h m hm
  exact ⟨inner, hinner, fun address ha => himp address (hall address ha)⟩

theorem append (h : Inside owns within ms) (h' : Inside owns within ms') :
    Inside owns within (ms ++ ms') := by
  intro m hm
  rcases mem_append.mp hm with hm | hm
  · exact h m hm
  · exact h' m hm

theorem uses (vs : List Var) : Inside owns within (vs.map (.uses within)) := by
  intro m hm
  obtain ⟨v, -, rfl⟩ := mem_map.mp hm
  exact ⟨[], rfl, by simp⟩

theorem declares (vs : List Var) : Inside owns within (vs.map (.declares within)) := by
  intro m hm
  obtain ⟨v, -, rfl⟩ := mem_map.mp hm
  exact ⟨[], rfl, by simp⟩

/-- What is inside of a signature is inside of what is around. -/
theorem leave (h : Inside owns (signature :: within) ms) (hsignature : owns signature) :
    Inside owns within ms := by
  intro m hm
  obtain ⟨inner, hinner, hall⟩ := h m hm
  refine ⟨inner ++ [signature], by rw [hinner, append_assoc]; rfl, ?_⟩
  intro address ha
  rcases mem_append.mp ha with ha | ha
  · exact hall address ha
  · rw [mem_singleton.mp ha]
    exact hsignature

end Inside

mutual

theorem Trace.inside_mentions (path : List Nat) (within : List (List Nat)) :
    ∀ t : Trace, Inside (path <+: ·) within (t.mentions path within)
  | .plain _ i => by
    rw [Trace.mentions]
    exact .uses _
  | .declare _ v => by
    rw [Trace.mentions]
    exact .declares [v]
  | .branch _ value thenPart elsePart => by
    rw [Trace.mentions]
    have hthen := (Trace.inside_mentionsIn (path ++ [0]) 0 within thenPart).mono
      fun address h => (prefix_of_append_singleton h.prefix_address.1).1
    have helse := (Trace.inside_mentionsIn (path ++ [1]) 0 within elsePart).mono
      fun address h => (prefix_of_append_singleton h.prefix_address.1).1
    exact ((Inside.uses _).append hthen).append helse
  | .loop _ _ _ _ _ controls part => by
    rw [Trace.mentions]
    have hpart := (Trace.inside_mentionsIn path 0 within part).mono
      fun address h => h.prefix_address.1
    exact (Inside.uses _).append hpart
  | .function _ sigs => by
    rw [Trace.mentions]
    exact (SignatureTrace.inside_mentionsOf path 0 within sigs).mono
      fun address h => h.prefix_address.1

theorem Trace.inside_mentionsIn (path : List Nat) (k : Nat) (within : List (List Nat)) :
    ∀ ts : List Trace, Inside (Under path k) within (Trace.mentionsIn path k within ts)
  | [] => by
    rw [Trace.mentionsIn]
    exact .uses []
  | t :: rest => by
    rw [Trace.mentionsIn]
    exact ((Trace.inside_mentions (path ++ [k]) within t).mono fun _ => .of_append).append
      ((Trace.inside_mentionsIn path (k + 1) within rest).mono fun _ => .of_succ)

theorem SignatureTrace.inside_mentionsOf (path : List Nat) (k : Nat) (within : List (List Nat)) :
    ∀ sigs : List SignatureTrace,
      Inside (Under path k) within (SignatureTrace.mentionsOf path k within sigs)
  | [] => by
    rw [SignatureTrace.mentionsOf]
    exact .uses []
  | sig :: rest => by
    rw [SignatureTrace.mentionsOf]
    have hsig := (SignatureTrace.inside_mentionsAt (path ++ [k]) within sig).leave (prefix_refl _)
    exact (hsig.mono fun _ => .of_append).append
      ((SignatureTrace.inside_mentionsOf path (k + 1) within rest).mono fun _ => .of_succ)

theorem SignatureTrace.inside_mentionsAt (path : List Nat) (within : List (List Nat)) :
    ∀ sig : SignatureTrace, Inside (path <+: ·) (path :: within) (sig.mentionsAt path within)
  | ⟨_, _, _, parameters, part⟩ => by
    rw [SignatureTrace.mentionsAt]
    exact (Inside.declares _).append ((Trace.inside_mentionsIn path 0 (path :: within) part).mono
      fun address h => h.prefix_address.1)

end

/-- What is owned has not been met: neither the place nor any mention before it stands in a signature
    that is owned. -/
structure Vacant (owns : List Nat → Prop) (past : List (Mention Var)) (within : List (List Nat)) :
    Prop where
  past : ∀ m ∈ past, ∀ address ∈ m.within, ¬ owns address
  within : ∀ address ∈ within, ¬ owns address

variable {path : List Nat}

namespace Vacant

variable {owns owns' : List Nat → Prop} {within : List (List Nat)} {past ms : List (Mention Var)}

theorem mono (h : Vacant owns past within) (himp : ∀ address, owns' address → owns address) :
    Vacant owns' past within :=
  ⟨fun m hm address ha howns => h.past m hm address ha (himp address howns),
    fun address ha howns => h.within address ha (himp address howns)⟩

/-- What stands elsewhere leaves the place vacant. -/
theorem append (h : Vacant owns past within) (hms : Inside owns' within ms)
    (hapart : ∀ address, owns' address → ¬ owns address) : Vacant owns (past ++ ms) within := by
  refine ⟨?_, h.within⟩
  intro m hm address ha
  rcases mem_append.mp hm with hm | hm
  · exact h.past m hm address ha
  · obtain ⟨inner, hinner, hall⟩ := hms m hm
    rw [hinner, mem_append] at ha
    rcases ha with ha | ha
    · exact hapart address (hall address ha)
    · exact h.within address ha

theorem uses (h : Vacant owns past within) (vs : List Var) :
    Vacant owns (past ++ vs.map (.uses within)) within := by
  have hms : Inside (fun _ => False) within (vs.map (.uses within)) := .uses vs
  exact h.append hms nofun

theorem declares (h : Vacant owns past within) (vs : List Var) :
    Vacant owns (past ++ vs.map (.declares within)) within := by
  have hms : Inside (fun _ => False) within (vs.map (.declares within)) := .declares vs
  exact h.append hms nofun

theorem enter (h : Vacant (path <+: ·) past within) :
    Vacant (Under path 0) past (path :: within) := by
  refine ⟨fun m hm address ha hunder => h.past m hm address ha hunder.prefix_address.1, ?_⟩
  intro address ha hunder
  obtain ⟨hfront, hne⟩ := hunder.prefix_address
  rcases mem_cons.mp ha with rfl | ha
  · exact hne rfl
  · exact h.within address ha hfront

end Vacant

/-! ## §4. What reading does to names -/

/-- Every name stands for what it refers to. -/
def ReadState.Shows (s : ReadState) (past : List (Mention Var)) (within : List (List Nat)) : Prop :=
  ∀ name, s.symbols.findVariable? name = refersTo past within name

/-- The variables are new and were numbered in their order. -/
def Sequential (vs : List Var) (s s' : ReadState) : Prop :=
  vs.map (·.id) = List.range' s.storage.vars.issued vs.length
    ∧ s'.storage.vars.issued = s.storage.vars.issued + vs.length

variable {vs : List Var} {s s' : ReadState}

theorem Sequential.append {ws : List Var} {s1 : ReadState} (h1 : Sequential vs s s1)
    (h2 : Sequential ws s1 s') : Sequential (vs ++ ws) s s' := by
  obtain ⟨hvs, hissued1⟩ := h1
  obtain ⟨hws, hissued2⟩ := h2
  refine ⟨?_, ?_⟩
  · rw [map_append, hvs, hws, hissued1, List.range'_append_1, length_append]
  · rw [hissued2, hissued1, length_append, Nat.add_assoc]

/-- The variables that the mentions declare. -/
def declarations (ms : List (Mention Var)) : List Var := ms.filterMap (·.declared?)

theorem declarations_append (ms ms' : List (Mention Var)) :
    declarations (ms ++ ms') = declarations ms ++ declarations ms' :=
  filterMap_append

theorem declarations_uses (within : List (List Nat)) (vs : List Var) :
    declarations (vs.map (.uses within)) = [] := by
  simp [declarations, filterMap_map, Mention.declared?]

variable {past : List (Mention Var)}

theorem Lexical.append {ms ms' : List (Mention Var)} (h : Lexical past ms)
    (h' : Lexical (past ++ ms) ms') : Lexical past (ms ++ ms') := by
  intro i within v hi
  rw [take_append]
  rcases Nat.lt_or_ge i ms.length with hlt | hge
  · rw [getElem?_append_left hlt] at hi
    have hnone : i - ms.length = 0 := by omega
    rw [hnone, take_zero, List.append_nil]
    exact h i within v hi
  · rw [getElem?_append_right hge] at hi
    rw [take_of_length_le hge, ← append_assoc]
    exact h' (i - ms.length) within v hi

/-- The mentions were read where the ones before them had been: they have the names that the text
    has there, each use is of what its name refers to, and in the end each name stands for what it
    refers to behind them. -/
structure Resolves (past : List (Mention Var)) (within : List (List Nat)) (ms : List (Mention Var))
    (names : List (Mention String)) (s s' : ReadState) : Prop where
  names : ms.map (·.map Var.name) = names
  lexical : Lexical past ms
  shows : s'.Shows (past ++ ms) within
  sequential : Sequential (declarations ms) s s'

variable {name : String}

theorem refersTo_uses (around : List (List Nat)) (vs : List Var) :
    refersTo (past ++ vs.map (.uses around)) within name = refersTo past within name := by
  refine refersTo_congr fun w hw => ?_
  have hnone : declaredAt (vs.map (Mention.uses around)) w = [] := by
    simp [declaredAt, Mention.declaredIn?, Mention.declared?]
  rw [declaredAt_append, hnone, List.append_nil]

theorem Env.Finds.map_name {env : Env} {found : List String} (h : env.Finds found vs)
    (hname : ∀ name v, env.symbols.findVariable? name = some v → v.name = name) :
    vs.map Var.name = found := by
  unfold Env.Finds at h
  induction found generalizing vs with
  | nil =>
    rw [map_nil, eq_comm, map_eq_nil_iff] at h
    rw [h]
    rfl
  | cons name found ih =>
    cases vs with
    | nil => cases h
    | cons v vs =>
      obtain ⟨hv, hrest⟩ := cons.inj h
      rw [map_cons, hname name v hv, ih hrest]

theorem findVariable?_declare (v : Variable) (hopen : s.symbols.scopes ≠ []) (name : String) :
    (s.declare v).symbols.findVariable? name
      = if name = v.name then some (s.nextVar v) else s.symbols.findVariable? name := by
  have hbinds : (s.declare v).symbols.varScopes
      = s.symbols.varScopes.modifyHead (·.bind v.name (s.nextVar v)) :=
    s.symbols.varScopes_addVariable _ hopen
  have hscopes : s.symbols.varScopes ≠ [] := mt map_eq_nil_iff.mp hopen
  rw [SymbolTable.findVariable?_eq, SymbolTable.findVariable?_eq, hbinds]
  cases hvars : s.symbols.varScopes with
  | nil => exact absurd hvars hscopes
  | cons b outer =>
    rw [modifyHead_cons, findSome?_cons, findSome?_cons, Bindings.find?_bind]
    by_cases hname : name = v.name
    · simp [hname]
    · simp [hname]

variable {cx : Context}

namespace Resolves

variable {past ms ms' : List (Mention Var)} {within : List (List Nat)}
  {names names' : List (Mention String)} {s s1 s' : ReadState}

theorem nil (hshows : s'.Shows past within) (hissued : s'.storage.vars = s.storage.vars) :
    Resolves past within [] [] s s' where
  names := rfl
  lexical := fun i within v hi => by simp at hi
  shows := by rwa [List.append_nil]
  sequential := ⟨rfl, by rw [hissued]; rfl⟩

/-- Two parts resolve their names one after the other. -/
theorem append (h1 : Resolves past within ms names s s1)
    (h2 : Resolves (past ++ ms) within ms' names' s1 s') :
    Resolves past within (ms ++ ms') (names ++ names') s s' where
  names := by rw [map_append, h1.names, h2.names]
  lexical := h1.lexical.append h2.lexical
  shows := by
    rw [← append_assoc]
    exact h2.shows
  sequential := by
    rw [declarations_append]
    exact h1.sequential.append h2.sequential

theorem of_start (h : Resolves past within ms names s1 s')
    (hissued : s1.storage.vars = s.storage.vars) : Resolves past within ms names s s' :=
  ⟨h.names, h.lexical, h.shows, hissued ▸ h.sequential.1, hissued ▸ h.sequential.2⟩

/-- A value resolves its names to what is in scope. -/
theorem uses {found : List String} (hshows : s.Shows past within)
    (hfinds : (s.env cx).Finds found vs) :
    Resolves past within (vs.map (.uses within)) (found.map (.uses within)) s s where
  names := by
    have hnames := hfinds.map_name fun name v hv => (refersTo_eq_some ((hshows name).symm.trans hv)).1
    rw [← hnames, map_map, map_map]
    rfl
  lexical := by
    intro i around v hi
    rw [getElem?_map, Option.map_eq_some_iff] at hi
    obtain ⟨w, hw, heq⟩ := hi
    cases heq
    have hmem : some v ∈ found.map (s.env cx).symbols.findVariable? := by
      rw [show found.map _ = vs.map some from hfinds]
      exact mem_map_of_mem (mem_of_getElem? hw)
    obtain ⟨name, -, hv⟩ := mem_map.mp hmem
    have hrefers : refersTo past within name = some v := (hshows name).symm.trans hv
    rw [← map_take, refersTo_uses, (refersTo_eq_some hrefers).1]
    exact hrefers
  shows := by
    intro name
    rw [refersTo_uses]
    exact hshows name
  sequential := by
    rw [declarations_uses]
    exact ⟨rfl, rfl⟩

theorem declare {v : Variable} (hshows : s.Shows past within) (hopen : s.symbols.scopes ≠ []) :
    Resolves past within [.declares within (s.nextVar v)] [.declares within v.name] s (s.declare v) where
  names := rfl
  lexical := by
    intro i around w hi
    cases i with
    | zero => cases hi
    | succ i => simp at hi
  shows := by
    intro name
    rw [refersTo_declares, findVariable?_declare v hopen, hshows]
    rfl
  sequential := ⟨rfl, rfl⟩

/-- Leaving a scope forgets what was declared in it. -/
theorem leave {owns : List Nat → Prop} (h : Resolves past (signature :: within) ms names s s1)
    (hms : Inside owns (signature :: within) ms) (hsignature : signature ∉ within)
    (hshows : s.Shows past within) (hvars : s'.symbols.varScopes = s.symbols.varScopes)
    (hissued : s'.storage.vars = s1.storage.vars) : Resolves past within ms names s s' where
  names := h.names
  lexical := h.lexical
  shows := by
    intro name
    rw [SymbolTable.findVariable?_eq, hvars, ← SymbolTable.findVariable?_eq, hshows name]
    refine (refersTo_congr fun around haround => ?_).symm
    have hother : ∀ m ∈ ms, m.within ≠ around := by
      intro m hm heq
      obtain ⟨inner, hinner, -⟩ := hms m hm
      refine hsignature (haround.subset ?_)
      rw [← heq, hinner]
      simp
    rw [declaredAt_append, declaredAt_eq_nil hother, List.append_nil]
  sequential := ⟨h.sequential.1, by rw [hissued]; exact h.sequential.2⟩

end Resolves

/-- The variables that a part of a trace mentions that stands there. -/
def Passage.mentions (path : List Nat) (k : Nat) (within : List (List Nat)) :
    Passage → List (Mention Var)
  | .item t => t.mentions path within
  | .block ts => Trace.mentionsIn path k within ts
  | .signatures _ _ sigs => SignatureTrace.mentionsOf path k within sigs
  | .signature _ _ sig => sig.mentionsAt path within

/-- The names that its nodes mention. -/
def Passage.nodeMentions (path : List Nat) (k : Nat) (within : List (List Nat)) :
    Passage → List (Mention String)
  | .item t => t.node.mentions path within
  | .block ts => Node.mentionsIn path k within (Trace.nodes ts)
  | .signatures _ _ sigs => Node.mentionsOf path k within (SignatureTrace.nodes sigs)
  | .signature _ _ sig => sig.node.mentionsAt path within

theorem Node.mentions_of_tag {tag : String} {rest : List Node}
    (h : tag ∉ ["declare", "function", "if", "loop"]) :
    (Node.list (.symbol tag :: rest)).mentions path within
      = (Node.list (.symbol tag :: rest)).references.map (.uses within) := by
  unfold Node.mentions
  split <;> simp_all

/-- A plain instruction uses what its names find. -/
theorem Reads.plain_finds {node : Node} {i : Instruction}
    (h : Reads cx (.instruction node (some i)) s s') (hplain : i.isPlain = true) :
    (s.env cx).Finds node.references (usedIn (i.walk 0)) := by
  cases h with
  | jump mode enclosing =>
    rw [Node.references_symbol]
    exact .nil
  | declare | branch | loop => cases hplain
  | assign assignment =>
    rw [Instruction.walk, usedIn_cons]
    exact readAssignment_finds assignment 1
  | ret returned =>
    rw [Instruction.walk, usedIn_cons]
    exact readReturn_finds returned 1
  | rvalue value =>
    rw [Instruction.walk]
    exact readRvalue_finds value 0

theorem Declares.resolves {nodes : List Node} (h : Declares cx nodes vs s s')
    (hshows : s.Shows past within) :
    Resolves past within (vs.map (.declares within))
      ((nodes.filterMap Node.declaredName?).map (.declares within)) s s' := by
  induction h generalizing past with
  | nil s => exact .nil hshows rfl
  | @cons node rest v vs s s' first others ih =>
    obtain ⟨qualifiers, ty, name, t, rfl, ht, hv⟩ := readVariable_eq_ok.mp first
    have hname : v.name = name := (Variable.qualifyAll?_keeps hv).1
    have hfirst := Resolves.declare (v := v) hshows (scopes_ne_nil_of_readType ht)
    rw [hname] at hfirst
    exact hfirst.append (ih hfirst.shows)

theorem storage_registers {slot : Nat} {returnType : Ty} {parameters : List Var} {index : Nat}
    (h : Registers slot name returnType parameters index s s') : s'.storage = s.storage := by
  cases h with
  | repeated | added => rfl

theorem ReadState.Binds.varScopes_eq (h : s.Binds s' []) :
    s'.symbols.varScopes = s.symbols.varScopes := by
  unfold ReadState.Binds at h
  rw [h]
  cases s.symbols.varScopes <;> rfl

theorem ReadState.Shows.of_varScopes (h : s.Shows past within)
    (hvars : s'.symbols.varScopes = s.symbols.varScopes) : s'.Shows past within := by
  intro name
  rw [SymbolTable.findVariable?_eq, hvars, ← SymbolTable.findVariable?_eq]
  exact h name

theorem ReadState.Shows.opened (h : s.Shows past within) (hvacant : Vacant (path <+: ·) past within)
    :
    s.opened.Shows past (path :: within) := by
  intro name
  have hother : ∀ m ∈ past, m.within ≠ path :: within := by
    intro m hm heq
    exact hvacant.past m hm path (heq ▸ mem_cons_self) (prefix_refl path)
  rw [refersTo_enter hother, ← h name, SymbolTable.findVariable?_eq, SymbolTable.findVariable?_eq]
  rfl

/-- **While a document is read, every name stands for what it refers to.** -/
theorem Records.resolves {passage : Passage} (h : Records cx passage s s') (path : List Nat)
    (k : Nat) (hvacant : Vacant (passage.Owns path k) past within) (hshows : s.Shows past within) :
    Resolves past within (passage.mentions path k within) (passage.nodeMentions path k within) s s' := by
  induction h generalizing path k within past with
  | @plain cx s node i reads simple =>
    have hnode : node.mentions path within = node.references.map (.uses within) := by
      rcases reads.plain_node simple with ⟨name, rfl⟩ | ⟨tag, rest, rfl, htag⟩
      · rw [Node.mentions]
        all_goals simp
      · exact Node.mentions_of_tag htag
    rw [Passage.mentions, Passage.nodeMentions, Trace.mentions, Trace.node, hnode]
    exact .uses hshows (reads.plain_finds simple)
  | @declare cx s node v declaration =>
    obtain ⟨qualifiers, ty, name, t, rfl, ht, hv⟩ := readVariable_eq_ok.mp declaration
    have hname : v.name = name := (Variable.qualifyAll?_keeps hv).1
    rw [Passage.mentions, Passage.nodeMentions, Trace.mentions, Trace.node, Node.mentions, ← hname]
    exact .declare hshows (scopes_ne_nil_of_readType ht)
  | @branch cx s s1 s' node condition thenPart elsePart value first second ih1 ih2 =>
    rw [Passage.mentions, Passage.nodeMentions, Trace.mentions, Trace.node, Node.mentions]
    have huses := Resolves.uses hshows (readRvalue_finds value 0)
    have hthenVacant : Vacant (Under (path ++ [0]) 0) past within :=
      hvacant.mono fun address h => (prefix_of_append_singleton h.prefix_address.1).1
    have hthen := huses.append (ih1 (path ++ [0]) 0 (hthenVacant.uses _) huses.shows)
    have hthenInside := (Inside.uses (usedIn (condition.walk 0))).append
      (Trace.inside_mentionsIn (path ++ [0]) 0 within thenPart)
    have helseVacant : Vacant (Under (path ++ [1]) 0) past within :=
      hvacant.mono fun address h => (prefix_of_append_singleton h.prefix_address.1).1
    refine hthen.append (ih2 (path ++ [1]) 0 (helseVacant.append hthenInside ?_) hthen.shows)
    intro address h0 h1
    exact absurd (Under.eq_of_append h0.prefix_address.1 h1.prefix_address.1) (by decide)
  | loop header inner ih =>
    rw [Passage.mentions, Passage.nodeMentions, Trace.mentions, Trace.node, Node.mentions]
    have huses := Resolves.uses hshows (readControls_finds header 0)
    have hpart : Vacant (Under path 0) past within :=
      hvacant.mono fun address h => h.prefix_address.1
    exact huses.append ((ih path 0 (hpart.uses _) huses.shows).of_start rfl)
  | @function cx s s1 s' name slot first rest place inner ih =>
    obtain ⟨rfl, rfl⟩ := Prod.mk.inj place
    obtain ⟨entries, hentries⟩ := inner.reads
    have hvars := varScopes_slot s cx name (scopes_ne_nil_of_overloads hentries)
    rw [Passage.mentions, Passage.nodeMentions, Trace.mentions, Trace.node, Node.mentions]
    have hsigs : Vacant (Under path 0) past within :=
      hvacant.mono fun address h => h.prefix_address.1
    exact (ih path 0 hsigs (hshows.of_varScopes hvars)).of_start
      (congrArg (·.vars) (storage_slot s cx name))
  | nil | noMore => exact .nil hshows rfl
  | @cons cx s s1 s' t ts first others ih1 ih2 =>
    rw [Passage.mentions, Passage.nodeMentions, Trace.mentionsIn, Trace.nodes, Node.mentionsIn]
    have hfirst := ih1 (path ++ [k]) 0 (hvacant.mono fun address h => .of_append h) hshows
    have hrest : Vacant (Under path (k + 1)) past within := hvacant.mono fun address h => h.of_succ
    exact hfirst.append (ih2 path (k + 1) (hrest.append (Trace.inside_mentions (path ++ [k]) within t)
      fun address h => Under.not_of_append h) hfirst.shows)
  | @more cx s s1 s' slot name sig sigs first others ih1 ih2 =>
    rw [Passage.mentions, Passage.nodeMentions, SignatureTrace.mentionsOf, SignatureTrace.nodes,
      Node.mentionsOf]
    have hfirst := ih1 (path ++ [k]) 0 (hvacant.mono fun address h => .of_append h) hshows
    have hrest : Vacant (Under path (k + 1)) past within := hvacant.mono fun address h => h.of_succ
    have hinside := (SignatureTrace.inside_mentionsAt (path ++ [k]) within sig).leave
      (prefix_refl _)
    exact hfirst.append (ih2 path (k + 1) (hrest.append hinside
      fun address h => Under.not_of_append h) hfirst.shows)
  | @prototype cx s s1 s2 slot name ty declarations returnType parameters index type declares
      registers =>
    rw [Passage.mentions, Passage.nodeMentions, SignatureTrace.mentionsAt, SignatureTrace.node,
      Node.mentionsAt]
    have hhead := declares.resolves (hshows.opened hvacant)
    have hall := (hhead.append (.nil hhead.shows rfl)).of_start (s := s) rfl
    have hinside := (Inside.declares parameters).append
      (Trace.inside_mentionsIn path 0 (path :: within) [])
    exact hall.leave hinside (fun hmem => hvacant.within path hmem (prefix_refl path)) hshows
      (binds_header declares registers).closed (congrArg (·.vars) (storage_registers registers))
  | @definition cx s s1 s2 s3 slot name ty declarations returnType parameters index part type
      declares registers nonempty undefined inner bound ih =>
    obtain ⟨entry, hentry⟩ :=
      (Records.definition type declares registers nonempty undefined inner bound).reads
    have hvars : (s3.complete slot name index (Trace.instructions part)).closed.symbols.varScopes
        = s.symbols.varScopes := (hentry.binds 0).varScopes_eq
    rw [Passage.mentions, Passage.nodeMentions, SignatureTrace.mentionsAt, SignatureTrace.node,
      Node.mentionsAt]
    have hhead := declares.resolves (hshows.opened hvacant)
    have hbody := ih path 0 (hvacant.enter.declares parameters)
      (hhead.shows.of_varScopes (varScopes_registers registers))
    have hissued : s2.storage.vars = s1.storage.vars := congrArg (·.vars) (storage_registers registers)
    have hall := (hhead.append (hbody.of_start hissued)).of_start (s := s) rfl
    have hinside := (Inside.declares parameters).append
      (Trace.inside_mentionsIn path 0 (path :: within) part)
    exact hall.leave hinside (fun hmem => hvacant.within path hmem (prefix_refl path)) hshows
      hvars rfl

/-! ## §5. The names of a module -/

/-- The body of the overload, if it has one, was read from a signature of the function. -/
def Signature.Sourced (all : List (Located SignatureTrace)) (name : String) (sig : Signature) : Prop :=
  sig.body = [] ∨ ∃ l ∈ all, l.function = name ∧ l.body = sig.body

theorem Signature.Sourced.header {all : List (Located SignatureTrace)} {declarations : List Node}
    {parameters : List Var} {slot : Nat} {returnType : Ty} {index : Nat} {s1 s2 : ReadState}
    (hs : s.Overloads (Signature.Sourced all))
    (declares : Declares cx declarations parameters s.opened s1)
    (registers : Registers slot name returnType parameters index s1 s2) :
    s2.Overloads (Signature.Sourced all) := by
  have hs1 : s1.Overloads (Signature.Sourced all) := by
    unfold ReadState.Overloads
    rw [functions_declares declares]
    exact hs
  exact hs1.registers registers (fun _ _ hsig => hsig) fun _ => .inl rfl

/-- Every overload stems from a definition in the trace. -/
theorem Records.sourced {passage : Passage} {all : List (Located SignatureTrace)}
    (h : Records cx passage s s') (hplaced : passage.Placed s) (path : List Nat) (k : Nat)
    (hall : ∀ l ∈ passage.definitions path k, l ∈ all) (hs : s.Overloads (Signature.Sourced all)) :
    s'.Overloads (Signature.Sourced all) := by
  induction h generalizing path k with
  | plain | declare | nil | noMore => exact hs
  | branch value first second ih1 ih2 =>
    have hs1 := ih1 trivial (path ++ [0]) 0 (fun l hl => hall l (mem_append_left _ hl)) hs
    exact ih2 trivial (path ++ [1]) 0 (fun l hl => hall l (mem_append_right _ hl)) hs1
  | loop header inner ih => exact ih trivial path 0 hall hs
  | @function cx s s1 s' name slot first rest place inner ih =>
    obtain ⟨rfl, rfl⟩ := Prod.mk.inj place
    exact ih (places_slot s cx name) path 0 hall (hs.slot cx name fun sig hbody => .inl hbody)
  | cons first others ih1 ih2 =>
    have hs1 := ih1 trivial (path ++ [k]) 0 (fun l hl => hall l (mem_append_left _ hl)) hs
    exact ih2 trivial path (k + 1) (fun l hl => hall l (mem_append_right _ hl)) hs1
  | more first others ih1 ih2 =>
    have hs1 := ih1 hplaced (path ++ [k]) 0 (fun l hl => hall l (mem_append_left _ hl)) hs
    exact ih2 (hplaced.of_prefix first.functionNames_prefix) path (k + 1)
      (fun l hl => hall l (mem_append_right _ hl)) hs1
  | prototype type declares registers =>
    have hs2 := Signature.Sourced.header hs declares registers
    exact hs2
  | @definition cx s s1 s2 s3 slot name ty declarations returnType parameters index part type
      declares registers nonempty undefined inner bound ih =>
    have hs2 := Signature.Sourced.header hs declares registers
    rw [Passage.definitions, definitionsAt_of_ne_nil nonempty] at hall
    have hs3 := ih trivial path 0 (fun l hl => hall l (mem_cons_of_mem _ hl)) hs2
    have hopened : s.opened.Places slot name := hplaced
    have hplace2 := ((typeScopes_frame cx.globalDepth).header hopened declares registers).2
    have hplace := hplace2.of_prefix inner.functionNames_prefix
    have hcomplete : (s3.complete slot name index (Trace.instructions part)).Overloads
        (Signature.Sourced all) := by
      refine hs3.onFunction_at hplace ?_
      intro sig hsig
      obtain hsig | ⟨old, -, rfl⟩ := mem_modify hsig
      · obtain ⟨f, hf, rfl, hsigs⟩ := hplace.exists_function
        exact hs3 f (mem_of_getElem? hf) sig (hsigs ▸ hsig)
      · exact .inr ⟨_, hall _ mem_cons_self, rfl, rfl⟩
    exact hcomplete

section
variable {scan : Bool} {u : CompilationUnit} {nodes : List Node} {ts : List Trace} {g : ReadState}

/-- A module resolves its names from an empty scope on. -/
theorem Traced.resolves (h : Traced scan u nodes ts g)
    (hvars : ∀ name, u.symbols.findVariable? name = none) :
    ∃ s, Resolves [] [] (Trace.mentionsIn [] 0 [] ts) (Node.mentionsIn [] 0 [] nodes) s g := by
  obtain ⟨s, hrecords, -, -, -, hscopes⟩ := h.start
  have hshows : s.Shows [] [] := by
    intro name
    rw [SymbolTable.findVariable?_eq, hscopes, ← SymbolTable.findVariable?_eq]
    exact hvars name
  have hresolves := hrecords.resolves [] 0 ⟨by simp, by simp⟩ hshows
  rw [Passage.nodeMentions, h.nodes_eq] at hresolves
  exact ⟨s, hresolves⟩

theorem Traced.sourced (h : Traced scan u nodes ts g) :
    g.Overloads (Signature.Sourced (Trace.definitionsIn [] 0 ts)) := by
  obtain ⟨s, hrecords, -, hbodies, -⟩ := h.start
  exact hrecords.sourced trivial [] 0 (fun l hl => hl) (hbodies.mono fun _ _ hbody => .inl hbody)

end

/-- **Names stand for variables by where they are written.**  What a document mentions is what was
    read, place by place; every variable is declared once, and every use is of the one that its name
    refers to.  A document in which a name refers to nothing is refused. -/
theorem readModule_resolves_names (scan : Bool) (u : CompilationUnit) (text : String)
    (nodes : List Node) (hvars : ∀ name, u.symbols.findVariable? name = none)
    (hnodes : readExpressions text = .ok nodes) :
    (∀ ir, (readModule scan u text).outcome = .ok ir →
      ∃ ts g, Traced scan u (Read.documentNodes nodes) ts g
        ∧ ir = Trace.module scan g.overloadsOf ts
        ∧ (∀ name sigs, Instruction.function name sigs ∈ ir →
          ∀ sig ∈ sigs, sig.Sourced (Trace.definitionsIn [] 0 ts) name)
        ∧ (Trace.mentionsIn [] 0 [] ts).map (·.map Var.name)
          = Node.mentionsIn [] 0 [] (Read.documentNodes nodes)
        ∧ ((declarations (Trace.mentionsIn [] 0 [] ts)).map (·.id)).Nodup
        ∧ ∀ i within v, (Trace.mentionsIn [] 0 [] ts)[i]? = some (.uses within v) →
          refersTo ((Trace.mentionsIn [] 0 [] ts).take i) within v.name = some v)
    ∧ ∀ i within name,
      (Node.mentionsIn [] 0 [] (Read.documentNodes nodes))[i]? = some (.uses within name) →
      (∀ around, around <:+ within →
        name ∉ declaredAt ((Node.mentionsIn [] 0 [] (Read.documentNodes nodes)).take i) around) →
      ∀ ir, (readModule scan u text).outcome ≠ .ok ir := by
  refine ⟨?_, ?_⟩
  · intro ir hread
    obtain ⟨ts, g, htraced, rfl, hnamed⟩ := exists_traced hnodes hread
    obtain ⟨s, hresolves⟩ := htraced.resolves hvars
    refine ⟨ts, g, htraced, rfl, ?_, hresolves.names, ?_, hresolves.lexical⟩
    · intro name sigs hmem sig hsig
      obtain ⟨hname, rfl⟩ := (mem_module_iff fun t ht => (htraced.item ht).2).mp hmem
      rw [htraced.nodes_eq] at hname
      have hfunction := ReadState.getElem?_idxOf ((hnamed name).mpr hname)
      exact htraced.sourced _ (mem_of_getElem? hfunction) sig hsig
    · rw [hresolves.sequential.1]
      exact nodup_range'
  · intro i within name hi hnone ir hread
    obtain ⟨ts, g, htraced, -, -⟩ := exists_traced hnodes hread
    obtain ⟨s, hresolves⟩ := htraced.resolves hvars
    rw [← hresolves.names] at hi hnone
    rw [getElem?_map, Option.map_eq_some_iff] at hi
    obtain ⟨m, hm, heq⟩ := hi
    cases m with
    | declares within v => cases heq
    | uses within v =>
      cases heq
      obtain ⟨-, around, haround, hmem⟩ := refersTo_eq_some (hresolves.lexical i within v hm)
      refine hnone around haround ?_
      rw [← map_take, declaredAt_map]
      exact mem_map_of_mem hmem

/-- A name with three meanings: outside of all functions, as a parameter, and as a variable of a body.
    -/
def shadowedName : String :=
  "(declare()int x)(function f(signature int(parameters(declare(in)int x))(" ++
  "(function g(signature int(parameters)((return(var_ref x)))))" ++
  "(if(constant bool(1))((declare()int x))())(return(var_ref x)))))(return(var_ref x))"

/-- A parameter that is used behind its function. -/
def escapedName : String :=
  "(function f(signature int(parameters(declare(in)int x))((return(var_ref x)))))(return(var_ref x))"

theorem findVariable?_fresh (name : String) : CompilationUnit.fresh.symbols.findVariable? name = none := by
  have hscopes : CompilationUnit.fresh.symbols.varScopes = [[]] := by decide +kernel
  rw [SymbolTable.findVariable?_eq, hscopes]
  rfl

theorem mentionsIn_escapedName :
    ∃ nodes, readExpressions escapedName = .ok nodes
      ∧ Node.mentionsIn [] 0 [] (Read.documentNodes nodes)
        = [.declares [[0, 0]] "x", .uses [[0, 0]] "x", .uses [] "x"] :=
  exists_ok_of_decide (by decide +kernel)

/-- The body of `f` uses its own variable, `g` inside of it the parameter, and what stands outside the
    first of the three.  The parameter is not known behind its function. -/
theorem readModule_resolves_names_shadowed :
    (∃ nodes ir ts g, readExpressions shadowedName = .ok nodes
      ∧ (readModule true .fresh shadowedName).outcome = .ok ir
      ∧ (usedVars ir).map (·.id) = [3, 2, 1]
      ∧ Traced true .fresh (Read.documentNodes nodes) ts g
      ∧ ∀ i within v, (Trace.mentionsIn [] 0 [] ts)[i]? = some (.uses within v) →
        refersTo ((Trace.mentionsIn [] 0 [] ts).take i) within v.name = some v)
    ∧ ∀ ir, (readModule true .fresh escapedName).outcome ≠ .ok ir := by
  constructor
  · obtain ⟨ir, hread, hused⟩ : ∃ ir, (readModule true .fresh shadowedName).outcome = .ok ir
        ∧ (usedVars ir).map (·.id) = [3, 2, 1] := exists_ok_of_decide (by decide +kernel)
    obtain ⟨nodes, -, hnodes, -⟩ := readModule_eq_ok hread
    obtain ⟨ts, g, htraced, -, -, -, -, hlexical⟩ :=
      (readModule_resolves_names true .fresh shadowedName nodes findVariable?_fresh hnodes).1 ir hread
    exact ⟨nodes, ir, ts, g, hnodes, hread, hused, htraced, hlexical⟩
  · obtain ⟨nodes, hnodes, hmentions⟩ := mentionsIn_escapedName
    refine (readModule_resolves_names true .fresh escapedName nodes findVariable?_fresh hnodes).2 2 []
      "x" (by rw [hmentions]; rfl) ?_
    intro around haround
    rw [suffix_nil.mp haround, hmentions]
    decide

end Shading
