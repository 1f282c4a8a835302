/-
  Shading.Proofs.Clone.Identity — what copying brings along.

  A copy renews the variables that a piece declares and the loops that it has, and nothing else.
  Variables and loops are dealt with alike, as `Identity`s.
-/
import Shading.Ir.Clone
import Shading.Proofs.Walk

namespace Shading

open List Instruction

/-! ## §1. Identities -/

/-- The identity of a variable or a loop. -/
inductive Identity where
  | var (number : Nat)
  | loop (id : LoopId)
deriving DecidableEq

/-- Has the number been issued? -/
def Storage.Has (s : Storage) : Identity → Prop
  | .var number => number < s.vars.issued
  | .loop id => id.number < s.loops.issued

/-- The identity that stands for this one. -/
def Renaming.image (r : Renaming) : Identity → Identity
  | .var number => .var ((r.vars.lookup number).elim number (·.id))
  | .loop id => .loop (r.loop id)

/-- A variable and its identity are renamed alike. -/
theorem Renaming.image_var (r : Renaming) (v : Var) : r.image (.var v.id) = .var (r.var v).id := by
  show Identity.var ((r.vars.lookup v.id).elim v.id (·.id)) = .var ((r.vars.lookup v.id).getD v).id
  cases r.vars.lookup v.id <;> rfl

theorem Renaming.image_empty (a : Identity) : Renaming.empty.image a = a := by
  cases a <;> rfl

/-- What is declared, and the loops. -/
def Gathering.identities : Gathering Unit Identity where
  leaf
    | _, .declare v => [.var v.id]
    | _, _ => []
  parameters vs := vs.map fun v => .var v.id
  loop id _ _ inside := .loop id :: inside

/-- The identities that the instructions bring along: what they declare, and their loops. -/
def Instruction.identitiesAll (is : List Instruction) : List Identity :=
  gatherAll .identities () is

theorem Instruction.identitiesAll_append (xs ys : List Instruction) :
    identitiesAll (xs ++ ys)
      = identitiesAll xs ++ identitiesAll ys :=
  gatherAll_append .identities () xs ys

/-- The loop that the identity is of. -/
def Identity.loop? : Identity → Option LoopId
  | .var _ => none
  | .loop id => some id

/-- The loops are those among the identities. -/
theorem Instruction.loopsAll_eq (is : List Instruction) :
    loopsAll is = (identitiesAll is).filterMap Identity.loop? := by
  induction is using induction with
  | nil | function => rfl
  | append xs ys ih1 ih2 =>
    rw [loopsAll_append, identitiesAll_append, filterMap_append, ih1, ih2]
  | leaf i h =>
    cases i with
    | function | branch | loop => cases h
    | declare | assign | ret | jump | rvalue => rfl
  | branch _ thenBody elseBody ih1 ih2 =>
    show loopsAll thenBody ++ loopsAll elseBody = _
    rw [ih1, ih2, ← filterMap_append]
    rfl
  | loop id _ _ ih => exact congrArg (id :: ·) ih
  | overload name _ parameters body _ signatures ih1 ih2 =>
    have hparameters : (parameters.map fun v => Identity.var v.id).filterMap Identity.loop? = [] :=
      filterMap_eq_nil_iff.mpr (forall_mem_map.mpr fun _ _ => rfl)
    show loopsAll body ++ loopsAll [.function name signatures]
      = ((parameters.map fun v => Identity.var v.id) ++ identitiesAll body
        ++ identitiesAll [.function name signatures]).filterMap Identity.loop?
    rw [ih1, ih2, filterMap_append, filterMap_append, hparameters]
    rfl

theorem Instruction.mem_loopsAll {id : LoopId} {is : List Instruction} :
    id ∈ loopsAll is ↔ .loop id ∈ identitiesAll is := by
  rw [loopsAll_eq, mem_filterMap]
  constructor
  · rintro ⟨a, ha, hloop⟩
    cases a with
    | var number => cases hloop
    | loop id' => exact Option.some.inj hloop ▸ ha
  · intro h
    exact ⟨.loop id, h, rfl⟩

/-! ## §2. Copying -/

/-- What copying a piece does: identities that the piece does not bring along stand for what they
    stood for, and those that the copy brings along are new and differ from each other. -/
structure Renews (s s' : CloneState) (old new : List Identity) : Prop where
  grows : ∀ a, s.storage.Has a → s'.storage.Has a
  spares : ∀ a, a ∉ old → s'.renewed.image a = s.renewed.image a
  fresh : ∀ a ∈ new, ¬ s.storage.Has a
  issued : ∀ a ∈ new, s'.storage.Has a
  nodup : new.Nodup

namespace Renews

variable {s s1 s2 : CloneState} {old new old1 new1 : List Identity}

theorem refl (s : CloneState) : Renews s s [] [] :=
  ⟨fun _ h => h, fun _ _ => rfl, nofun, nofun, nodup_nil⟩

/-- Renewals compose: what the second one issues is newer than all of the first. -/
theorem trans (h : Renews s s1 old new) (h1 : Renews s1 s2 old1 new1) :
    Renews s s2 (old ++ old1) (new ++ new1) where
  grows := fun a ha => h1.grows a (h.grows a ha)
  spares := fun a ha => by
    rw [mem_append, not_or] at ha
    rw [h1.spares a ha.2, h.spares a ha.1]
  fresh := fun a ha => by
    rcases mem_append.mp ha with ha | ha
    · exact h.fresh a ha
    · exact fun hs => h1.fresh a ha (h.grows a hs)
  issued := forall_mem_append.mpr ⟨fun a ha => h1.grows a (h.issued a ha), h1.issued⟩
  nodup := by
    refine nodup_append.mpr ⟨h.nodup, h1.nodup, ?_⟩
    rintro a ha _ ha1 rfl
    exact h1.fresh a ha1 (h.issued a ha)

end Renews

/-- A declared copy is issued a number that nothing had before. -/
theorem CloneM.renews_declare (v : Var) (s : CloneState) :
    Renews s ((CloneM.declare v).run s).2 [.var v.id] [.var ((CloneM.declare v).run s).1.id] where
  grows := fun a ha => by
    cases a with
    | var number => exact Nat.lt_succ_of_lt ha
    | loop id => exact ha
  spares := fun a ha => by
    cases a with
    | var number =>
      have hne : number ≠ v.id := fun h => ha (by rw [h]; exact mem_singleton.mpr rfl)
      show Identity.var (((v.id, _) :: s.renewed.vars).lookup number |>.elim number (·.id)) = _
      rw [lookup_cons, beq_false_of_ne hne]
      rfl
    | loop id => rfl
  fresh := forall_mem_singleton.mpr (Nat.lt_irrefl _)
  issued := forall_mem_singleton.mpr (Nat.lt_succ_self _)
  nodup := pairwise_singleton _ _

/-- A copied loop is issued a number that no loop had before. -/
theorem CloneM.renews_newLoop (id : LoopId) (s : CloneState) :
    Renews s ((CloneM.newLoop id).run s).2 [.loop id] [.loop ((CloneM.newLoop id).run s).1] where
  grows := fun a ha => by
    cases a with
    | var number => exact ha
    | loop id => exact Nat.lt_succ_of_lt ha
  spares := fun a ha => by
    cases a with
    | var number => rfl
    | loop id' =>
      have hne : id' ≠ id := fun h => ha (by rw [h]; exact mem_singleton.mpr rfl)
      show Identity.loop ((((id, _) :: s.renewed.loops).lookup id').getD id') = _
      rw [lookup_cons, beq_false_of_ne hne]
      rfl
  fresh := forall_mem_singleton.mpr (Nat.lt_irrefl _)
  issued := forall_mem_singleton.mpr (Nat.lt_succ_self _)
  nodup := pairwise_singleton _ _

theorem CloneM.renews_declareAll (vs : List Var) (s : CloneState) :
    Renews s ((CloneM.declareAll vs).run s).2 (vs.map fun v => .var v.id)
      (((CloneM.declareAll vs).run s).1.map fun v => .var v.id) := by
  induction vs generalizing s with
  | nil => exact .refl s
  | cons v rest ih => exact (CloneM.renews_declare v s).trans (ih _)

/-- A list is copied in two parts, the second under the map the first one left. -/
theorem Instruction.cloneAll_append (xs ys : List Instruction) (s : CloneState) :
    (cloneAll (xs ++ ys)).run s
      = (((cloneAll xs).run s).1
          ++ ((cloneAll ys).run ((cloneAll xs).run s).2).1,
        ((cloneAll ys).run ((cloneAll xs).run s).2).2) := by
  induction xs generalizing s with
  | nil => rfl
  | cons i rest ih =>
    show (_ :: ((cloneAll (rest ++ ys)).run (i.clone.run s).2).1,
      ((cloneAll (rest ++ ys)).run (i.clone.run s).2).2) = _
    rw [ih]
    rfl

/-- **Copying renews what the piece brings along.** -/
theorem Instruction.renews_cloneAll (s : CloneState) (is : List Instruction) :
    Renews s ((cloneAll is).run s).2 (identitiesAll is)
      (identitiesAll ((cloneAll is).run s).1) := by
  induction is using induction generalizing s with
  | nil => exact .refl s
  | append xs ys ih1 ih2 =>
    rw [cloneAll_append, identitiesAll_append,
      identitiesAll_append]
    exact (ih1 s).trans (ih2 _)
  | leaf i h =>
    cases i with
    | declare v => exact CloneM.renews_declare v s
    | function | branch | loop => cases h
    | assign | ret | jump | rvalue => exact .refl s
  | branch _ _ _ ih1 ih2 => exact (ih1 s).trans (ih2 _)
  | loop id _ _ ih => exact (CloneM.renews_newLoop id s).trans (ih _)
  | function _ => exact .refl s
  | overload _ _ parameters _ _ _ ih1 ih2 =>
    exact ((CloneM.renews_declareAll parameters s).trans (ih1 _)).trans (ih2 _)

/-- A single identity is renewed. -/
structure RenewsTo (s s' : CloneState) (a a' : Identity) : Prop extends Renews s s' [a] [a'] where
  image : s'.renewed.image a = a'

theorem RenewsTo.has {s s' : CloneState} {a a' : Identity} (h : RenewsTo s s' a a') :
    s'.storage.Has a' := h.issued a' (mem_singleton_self a')

theorem CloneM.renewsTo_declare (v : Var) (s : CloneState) :
    RenewsTo s ((CloneM.declare v).run s).2 (.var v.id) (.var ((CloneM.declare v).run s).1.id) where
  toRenews := CloneM.renews_declare v s
  image := by
    show Identity.var ((((v.id, _) :: s.renewed.vars).lookup v.id).elim v.id (·.id)) = _
    rw [lookup_cons_self]
    rfl

theorem CloneM.renewsTo_newLoop (id : LoopId) (s : CloneState) :
    RenewsTo s ((CloneM.newLoop id).run s).2 (.loop id) (.loop ((CloneM.newLoop id).run s).1) where
  toRenews := CloneM.renews_newLoop id s
  image := by
    show Identity.loop ((((id, _) :: s.renewed.loops).lookup id).getD id) = _
    rw [lookup_cons_self]
    rfl

end Shading
