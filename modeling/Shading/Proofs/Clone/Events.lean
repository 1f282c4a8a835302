/-
  Shading.Proofs.Clone.Events — the order in which variables and loops are met.

  A walk through a piece meets variables where they are declared and where they are used, and loops
  where they are entered.  `Instruction.events` lists this and nothing else.  A piece is tidy if nothing
  comes along after it has been met: then each variable is declared once and before its uses, and each
  loop stands at one place.
-/
import Shading.Proofs.Clone.Identity
import Shading.Proofs.Clone.Rename
import Shading.Proofs.Execution

namespace Shading

open List Instruction

/-! ## §1. Events -/

/-- What a walk does with a variable or a loop. -/
inductive Event where
  | brings (a : Identity)
  | uses (a : Identity)
deriving DecidableEq

namespace Event

/-- The variable or the loop. -/
@[simp] def identity : Event → Identity
  | brings a => a
  | uses a => a

/-- The same with another variable or loop. -/
def map (f : Identity → Identity) : Event → Event
  | brings a => brings (f a)
  | uses a => uses (f a)

theorem identity_map (f : Identity → Identity) (e : Event) : (e.map f).identity = f e.identity := by
  cases e <;> rfl

/-- An event depends on the image of its identity only. -/
theorem map_congr {f g : Identity → Identity} {e : Event} (h : f e.identity = g e.identity) :
    e.map f = e.map g := by
  cases e with
  | brings a => exact congrArg brings h
  | uses a => exact congrArg uses h

end Event

/-- What a visit does. -/
def Visit.event? : Visit → Option Event
  | declare v => some (.brings (.var v.id))
  | loop id _ => some (.brings (.loop id))
  | use v => some (.uses (.var v.id))
  | _ => none

/-- What the steps of a walk do. -/
def eventsIn (steps : List Step) : List Event := steps.filterMap (·.visit.event?)

/-- The uses of variables. -/
def mentions (vs : List Var) : List Event := vs.map fun v => .uses (.var v.id)

/-- What happens to variables and loops. -/
def Gathering.events : Gathering Unit Event where
  leaf
    | _, .declare v => [.brings (.var v.id)]
    | _, .assign a => mentions a.uses
    | _, .ret value => mentions (usedIn (Rvalue.walkOption 0 value))
    | _, .rvalue r => mentions r.uses
    | _, _ => []
  parameters vs := vs.map fun v => .brings (.var v.id)
  condition r := mentions r.uses
  loop id controls _ inside := .brings (.loop id) :: (mentions controls.uses ++ inside)

/-- What a walk through the instructions does. -/
def Instruction.eventsAll (is : List Instruction) : List Event := gatherAll .events () is

theorem Instruction.eventsAll_append (xs ys : List Instruction) :
    eventsAll (xs ++ ys) = eventsAll xs ++ eventsAll ys :=
  gatherAll_append .events () xs ys

/-! ## §2. Events of walks -/

theorem eventsIn_cons (step : Step) (rest : List Step) :
    eventsIn (step :: rest) = step.visit.event?.toList ++ eventsIn rest := by
  unfold eventsIn
  rw [filterMap_cons]
  cases step.visit.event? <;> rfl

theorem eventsIn_append (xs ys : List Step) : eventsIn (xs ++ ys) = eventsIn xs ++ eventsIn ys :=
  filterMap_append

/-- Values bring nothing, they only use variables. -/
theorem OfValues.eventsIn_eq {steps : List Step} (h : OfValues steps) :
    eventsIn steps = mentions (usedIn steps) := by
  induction steps with
  | nil => rfl
  | cons step rest ih =>
    obtain ⟨⟨hdeclared, hloop⟩, hrest⟩ := ofValues_cons.mp h
    rw [eventsIn_cons, usedIn_cons, ih hrest]
    obtain ⟨depth, visit⟩ := step
    cases visit with
    | declare v => cases hdeclared
    | loop id controls => cases hloop
    | _ => rfl

section

variable (depth : Nat)

theorem Rvalue.eventsIn_walk (r : Rvalue) : eventsIn (r.walk depth) = mentions r.uses := by
  rw [(r.ofValues_walk depth).eventsIn_eq, r.usedIn_walk depth 0]
  rfl

theorem Rvalue.eventsIn_walkOption (r : Option Rvalue) :
    eventsIn (Rvalue.walkOption depth r) = mentions (usedIn (Rvalue.walkOption 0 r)) := by
  rw [(Rvalue.ofValues_walkOption depth r).eventsIn_eq, Rvalue.usedIn_walkOption depth 0]

theorem Assignment.eventsIn_walk (a : Assignment) : eventsIn (a.walk depth) = mentions a.uses := by
  rw [(a.ofValues_walk depth).eventsIn_eq, a.usedIn_walk]

theorem Controls.eventsIn_walk (c : Controls) : eventsIn (c.walk depth) = mentions c.uses := by
  rw [(c.ofValues_walk depth).eventsIn_eq, c.usedIn_walk]

end

/-- **The events of a list are those of a walk through it.** -/
theorem Instruction.eventsIn_walkAll (depth : Nat) (is : List Instruction) :
    eventsIn (walkAll depth is) = eventsAll is := by
  induction is using induction generalizing depth with
  | nil => rfl
  | append xs ys ih1 ih2 =>
    rw [walkAll_append, eventsIn_append, ih1, ih2, eventsAll_append]
  | leaf i h =>
    rw [walkAll_singleton]
    cases i with
    | function | branch | loop => cases h
    | declare | jump => rfl
    | assign a => exact a.eventsIn_walk (depth + 1)
    | ret value => exact Rvalue.eventsIn_walkOption (depth + 1) value
    | rvalue r => exact r.eventsIn_walk depth
  | branch condition _ _ ih1 ih2 =>
    simp only [walkAll_singleton, walk, eventsIn_cons, eventsIn_append,
      condition.eventsIn_walk, ih1, ih2]
    rfl
  | loop id controls _ ih =>
    simp only [walkAll_singleton, walk, eventsIn_cons, eventsIn_append,
      controls.eventsIn_walk, ih]
    rfl
  | function _ => rfl
  | overload _ _ parameters _ _ _ ih1 ih2 =>
    have hparameters (depth : Nat) : eventsIn (parameters.map fun v => Step.mk depth (.declare v))
        = parameters.map fun v => .brings (.var v.id) := by
      unfold eventsIn
      rw [filterMap_map]
      exact congrFun filterMap_eq_map parameters
    simp only [walkAll_singleton, walk, Signature.walkAll, Signature.walk, eventsIn_cons,
      eventsIn_append, hparameters, ih1] at ih2 ⊢
    exact congrArg (parameters.map (fun v => .brings (.var v.id)) ++ eventsAll _ ++ ·)
      (ih2 depth)

variable {a : Identity}

section

variable {steps : List Step}

/-- The variables brought by a walk are those it declares. -/
theorem brings_var_mem_eventsIn {number : Nat} :
    .brings (.var number) ∈ eventsIn steps ↔ number ∈ (declaredIn steps).map (·.id) := by
  induction steps with
  | nil => exact ⟨nofun, nofun⟩
  | cons step rest ih =>
    rw [eventsIn_cons, declaredIn_cons, map_append, mem_append, mem_append, ih]
    refine or_congr_left ?_
    obtain ⟨depth, visit⟩ := step
    cases visit <;> simp [Visit.event?, Visit.declared?]

theorem brings_loop_mem_eventsIn {id : LoopId} :
    .brings (.loop id) ∈ eventsIn steps ↔ id ∈ loopsIn steps := by
  induction steps with
  | nil => exact ⟨nofun, nofun⟩
  | cons step rest ih =>
    rw [eventsIn_cons, loopsIn_cons, mem_append, mem_append, ih]
    refine or_congr_left ?_
    obtain ⟨depth, visit⟩ := step
    cases visit <;> simp [Visit.event?, Visit.loop?]

/-- The identities used by a walk are those of the variables it uses. -/
theorem uses_mem_eventsIn : .uses a ∈ eventsIn steps ↔ ∃ v ∈ usedIn steps, a = .var v.id := by
  induction steps with
  | nil => exact ⟨nofun, nofun⟩
  | cons step rest ih =>
    rw [eventsIn_cons, usedIn_cons, mem_append, ih]
    simp only [mem_append, or_and_right, exists_or]
    refine or_congr_left ?_
    obtain ⟨depth, visit⟩ := step
    cases visit <;> simp [Visit.event?, Visit.used?]

end

/-! ## §3. Tidy pieces -/

/-- Nothing comes along after it has been met. -/
def Tidy (es : List Event) : Prop := es.Pairwise fun e later => later ≠ .brings e.identity

theorem tidy_cons {e : Event} {es : List Event} :
    Tidy (e :: es) ↔ .brings e.identity ∉ es ∧ Tidy es := by
  unfold Tidy
  rw [pairwise_cons]
  refine and_congr_left fun _ => ?_
  exact ⟨fun h hmem => h _ hmem rfl, fun h later hlater heq => h (heq ▸ hlater)⟩

/-- Two tidy lists make one if the second brings nothing the first has. -/
theorem tidy_append {xs ys : List Event} :
    Tidy (xs ++ ys) ↔ Tidy xs ∧ Tidy ys ∧ ∀ e ∈ xs, .brings e.identity ∉ ys := by
  unfold Tidy
  rw [pairwise_append]
  refine and_congr_right fun _ => and_congr_right fun _ => forall₂_congr fun e _ => ?_
  exact ⟨fun h hmem => h _ hmem rfl, fun h later hlater heq => h (heq ▸ hlater)⟩

/-- No step declares a variable that an earlier one has used. -/
def DeclaresFirst (steps : List Step) : Prop :=
  steps.Pairwise fun step later =>
    ∀ v ∈ step.visit.used?, ∀ w ∈ later.visit.declared?, w.id ≠ v.id

instance (steps : List Step) : Decidable (DeclaresFirst steps) :=
  inferInstanceAs (Decidable (List.Pairwise _ steps))

/-- A step may use nothing that is declared behind it. -/
theorem declaresFirst_cons {step : Step} {rest : List Step} :
    DeclaresFirst (step :: rest)
      ↔ (∀ v ∈ step.visit.used?, v.id ∉ (declaredIn rest).map (·.id)) ∧ DeclaresFirst rest := by
  unfold DeclaresFirst
  rw [pairwise_cons]
  refine and_congr_left fun _ => ⟨fun h v hv hmem => ?_, fun h later hlater v hv w hw heq => ?_⟩
  · obtain ⟨w, hw, heq⟩ := mem_map.mp hmem
    obtain ⟨later, hlater, hdeclared⟩ := mem_filterMap.mp hw
    exact h later hlater v hv w hdeclared heq
  · exact h v hv (mem_map.mpr ⟨w, mem_filterMap.mpr ⟨later, hlater, hw⟩, heq⟩)

/-- **A walk is tidy if each variable is declared once, and before its uses, and each loop is entered
    once.** -/
theorem tidy_eventsIn {steps : List Step} :
    Tidy (eventsIn steps) ↔ ((declaredIn steps).map (·.id)).Nodup ∧ (loopsIn steps).Nodup
      ∧ DeclaresFirst steps := by
  induction steps with
  | nil => exact ⟨fun _ => ⟨.nil, .nil, .nil⟩, fun _ => .nil⟩
  | cons step rest ih =>
    rw [eventsIn_cons, declaredIn_cons, loopsIn_cons, declaresFirst_cons]
    obtain ⟨depth, visit⟩ := step
    cases visit with
    | declare v =>
      simp [Visit.event?, Visit.declared?, Visit.used?, Visit.loop?, tidy_cons, ih,
        brings_var_mem_eventsIn, and_assoc]
    | loop id controls =>
      simp [Visit.event?, Visit.declared?, Visit.used?, Visit.loop?, tidy_cons, ih,
        brings_loop_mem_eventsIn, and_assoc, and_left_comm]
    | use v =>
      simp [Visit.event?, Visit.declared?, Visit.used?, Visit.loop?, tidy_cons, ih,
        brings_var_mem_eventsIn, and_left_comm]
    | _ => simp [Visit.event?, Visit.declared?, Visit.used?, Visit.loop?, ih]

theorem tidy_of_uses {es : List Event} (h : ∀ a, .brings a ∉ es) : Tidy es :=
  pairwise_of_forall_mem_list fun e _ _ hlater heq => h e.identity (heq ▸ hlater)

/-! ## §4. Copying -/

/-- What copying a piece does to its events: everything that the piece brings along is renewed, each by
    something else, and nothing else is. -/
structure Retraces (s s' : CloneState) (old new : List Event) : Prop where
  grows : ∀ a, s.storage.Has a → s'.storage.Has a
  spares : ∀ a, .brings a ∉ old → s'.renewed.image a = s.renewed.image a
  events : new = old.map (.map s'.renewed.image)
  fresh : ∀ a, .brings a ∈ old → ¬ s.storage.Has (s'.renewed.image a)
  issued : ∀ a, .brings a ∈ old → s'.storage.Has (s'.renewed.image a)
  oneToOne : ∀ a b, .brings a ∈ old → .brings b ∈ old →
    s'.renewed.image a = s'.renewed.image b → a = b

theorem brings_notMem_mentions (a : Identity) (vs : List Var) : .brings a ∉ mentions vs := by
  intro h
  obtain ⟨v, -, heq⟩ := mem_map.mp h
  cases heq

namespace Retraces

variable {s s1 s2 : CloneState} {old new old1 new1 : List Event}

theorem nil (s : CloneState) : Retraces s s [] [] :=
  ⟨fun _ h => h, fun _ _ => rfl, rfl, nofun, nofun, nofun⟩

/-- Values are renamed under the map at hand, which stays as it is. -/
theorem values (s : CloneState) {vs vs' : List Var} (h : vs' = vs.map s.renewed.var) :
    Retraces s s (mentions vs) (mentions vs') where
  grows := fun _ h => h
  spares := fun _ _ => rfl
  events := by
    unfold mentions
    rw [h, map_map, map_map]
    exact map_congr_left fun v _ => congrArg Event.uses (s.renewed.image_var v).symm
  fresh := fun a ha => absurd ha (brings_notMem_mentions a vs)
  issued := fun a ha => absurd ha (brings_notMem_mentions a vs)
  oneToOne := fun a _ ha => absurd ha (brings_notMem_mentions a vs)

/-- One new identity takes the place of an old one. -/
theorem single {a' : Identity} (h : RenewsTo s s1 a a') :
    Retraces s s1 [.brings a] [.brings a'] := by
  have himage : ∀ b, .brings b ∈ [Event.brings a] → s1.renewed.image b = a' := by
    intro b hb
    rw [Event.brings.inj (mem_singleton.mp hb), h.image]
  refine ⟨h.grows, fun b hb => h.spares b fun hmem => ?_, ?_, fun b hb => ?_, fun b hb => ?_, ?_⟩
  · rw [mem_singleton.mp hmem] at hb
    exact hb mem_cons_self
  · rw [map_singleton, Event.map, h.image]
  · rw [himage b hb]
    exact h.fresh a' mem_cons_self
  · rw [himage b hb]
    exact h.has
  · intro b c hb hc _
    rw [Event.brings.inj (mem_singleton.mp hb), Event.brings.inj (mem_singleton.mp hc)]

/-- **Two traces in a row make one**, if the second brings nothing that the first already has. -/
theorem trans (h : Retraces s s1 old new) (h1 : Retraces s1 s2 old1 new1)
    (hapart : ∀ e ∈ old, .brings e.identity ∉ old1) : Retraces s s2 (old ++ old1) (new ++ new1) := by
  have himage : ∀ e ∈ old, s2.renewed.image e.identity = s1.renewed.image e.identity := fun e he =>
    h1.spares e.identity (hapart e he)
  have hbrought : ∀ a, .brings a ∈ old → s2.renewed.image a = s1.renewed.image a := fun _ ha =>
    himage _ ha
  -- what is renewed first has been issued when the rest is renewed
  have hdiffer : ∀ a b, .brings a ∈ old → .brings b ∈ old1 →
      s2.renewed.image a ≠ s2.renewed.image b := by
    intro a b ha hb heq
    refine h1.fresh b hb ?_
    rw [← heq, hbrought a ha]
    exact h.issued a ha
  refine ⟨fun a ha => h1.grows a (h.grows a ha), fun a ha => ?_, ?_, fun a ha => ?_, fun a ha => ?_,
    fun a b ha hb heq => ?_⟩
  · rw [mem_append, not_or] at ha
    rw [h1.spares a ha.2, h.spares a ha.1]
  · rw [map_append, h.events, ← h1.events]
    refine congrArg (· ++ new1) (map_congr_left fun e he => ?_)
    exact Event.map_congr (himage e he).symm
  · rcases mem_append.mp ha with ha | ha
    · rw [hbrought a ha]
      exact h.fresh a ha
    · exact fun hs => h1.fresh a ha (h.grows _ hs)
  · rcases mem_append.mp ha with ha | ha
    · rw [hbrought a ha]
      exact h1.grows _ (h.issued a ha)
    · exact h1.issued a ha
  · rcases mem_append.mp ha with ha | ha
    · rcases mem_append.mp hb with hb | hb
      · rw [hbrought a ha, hbrought b hb] at heq
        exact h.oneToOne a b ha hb heq
      · exact absurd heq (hdiffer a b ha hb)
    · rcases mem_append.mp hb with hb | hb
      · exact absurd heq.symm (hdiffer b a hb ha)
      · exact h1.oneToOne a b ha hb heq

/-- Tidiness of the whole gives that of both parts, and keeps them apart. -/
theorem append (htidy : Tidy (old ++ old1)) (h : Tidy old → Retraces s s1 old new)
    (h1 : Tidy old1 → Retraces s1 s2 old1 new1) : Retraces s s2 (old ++ old1) (new ++ new1) := by
  obtain ⟨hold, hold1, hapart⟩ := tidy_append.mp htidy
  exact (h hold).trans (h1 hold1) hapart

theorem cons {e e' : Event} (htidy : Tidy (e :: old1)) (h : Retraces s s1 [e] [e'])
    (h1 : Tidy old1 → Retraces s1 s2 old1 new1) : Retraces s s2 (e :: old1) (e' :: new1) := by
  obtain ⟨-, hold1, hapart⟩ := tidy_append.mp (show Tidy ([e] ++ old1) from htidy)
  exact h.trans (h1 hold1) hapart

/-- A list of parameters is renewed one by one. -/
theorem declareAll (vs : List Var) (s : CloneState)
    (htidy : Tidy (vs.map fun v => .brings (.var v.id))) :
    Retraces s ((CloneM.declareAll vs).run s).2 (vs.map fun v => .brings (.var v.id))
      (((CloneM.declareAll vs).run s).1.map fun v => .brings (.var v.id)) := by
  induction vs generalizing s with
  | nil => exact .nil s
  | cons v rest ih => exact cons htidy (single (CloneM.renewsTo_declare v s)) (ih _)

end Retraces

/-- **A copy of a tidy list has the events of the list**, with everything that the list brings along
    renewed. -/
theorem Instruction.retraces_cloneAll (s : CloneState) (is : List Instruction)
    (htidy : Tidy (eventsAll is)) :
    Retraces s ((cloneAll is).run s).2 (eventsAll is)
      (eventsAll ((cloneAll is).run s).1) := by
  induction is using induction generalizing s with
  | nil => exact .nil s
  | append xs ys ih1 ih2 =>
    rw [eventsAll_append] at htidy
    rw [cloneAll_append, eventsAll_append, eventsAll_append]
    exact .append htidy (ih1 s) (ih2 _)
  | leaf i h =>
    cases i with
    | declare v => exact .single (CloneM.renewsTo_declare v s)
    | assign a => exact .values s (Assignment.usedIn_clone s.renewed 0 a)
    | ret value => exact .values s (Rvalue.usedIn_cloneOption s.renewed 0 value)
    | jump => exact .nil s
    | rvalue r => exact .values s (Rvalue.usedIn_clone s.renewed 0 r)
    | function | branch | loop => cases h
  | branch condition _ _ ih1 ih2 =>
    have hcondition := Retraces.values s (Rvalue.usedIn_clone s.renewed 0 condition)
    exact .append htidy (fun hhead => .append hhead (fun _ => hcondition) (ih1 s)) (ih2 _)
  | loop id controls _ ih =>
    let entered := ((CloneM.newLoop id).run s).2
    have hloop := Retraces.single (CloneM.renewsTo_newLoop id s)
    have hcontrols := Retraces.values entered (Controls.usedIn_clone entered.renewed 0 controls)
    exact .cons htidy hloop fun hrest => .append hrest (fun _ => hcontrols) (ih entered)
  | function _ => exact .nil s
  | overload _ _ parameters _ _ _ ih1 ih2 =>
    exact .append htidy (fun hfirst => .append hfirst (Retraces.declareAll parameters s) (ih1 _)) (ih2 _)

/-- All that the events are about has been issued. -/
def Issued (s : Storage) (es : List Event) : Prop := ∀ e ∈ es, s.Has e.identity

/-- The block has the events of the body, one by one.  Where the body brings along something, or uses
    what it brings along, the block has something instead that it brings along itself and that the body
    does not know; everything else is the same. -/
def OwnCopy (body block : List Event) : Prop :=
  ∃ f : Identity → Identity, block = body.map (.map f)
    ∧ (∀ a, .brings a ∈ body → .brings (f a) ∈ block ∧ ∀ e ∈ body, e.identity ≠ f a)
    ∧ ∀ a, .brings a ∉ body → f a = a

namespace Retraces

variable {s : Storage} {c : CloneState} {old new : List Event}

/-- What was not brought along keeps its identity. -/
theorem image_eq (h : Retraces ⟨s, .empty⟩ c old new) (ha : .brings a ∉ old) :
    c.renewed.image a = a :=
  (h.spares a ha).trans (Renaming.image_empty a)

theorem ownCopy (h : Retraces ⟨s, .empty⟩ c old new) (hissued : Issued s old) : OwnCopy old new := by
  refine ⟨c.renewed.image, h.events, fun a ha => ⟨?_, fun e he heq => ?_⟩, fun _ => h.image_eq⟩
  · rw [h.events]
    exact mem_map_of_mem ha
  · exact h.fresh a ha (heq ▸ hissued e he)

/-- A copy has been issued all of its identities. -/
theorem issued_copy (h : Retraces ⟨s, .empty⟩ c old new) (hissued : Issued s old) :
    Issued c.storage new := by
  intro e he
  rw [h.events] at he
  obtain ⟨known, hknown, rfl⟩ := mem_map.mp he
  rw [Event.identity_map]
  by_cases hbrought : .brings known.identity ∈ old
  · exact h.issued known.identity hbrought
  · rw [h.image_eq hbrought]
    exact h.grows known.identity (hissued known hknown)

/-- **A tidy list has a tidy copy.** -/
theorem tidy_copy (h : Retraces ⟨s, .empty⟩ c old new) (hissued : Issued s old) (htidy : Tidy old) :
    Tidy new := by
  rw [h.events]
  refine pairwise_map.mpr (htidy.imp_of_mem fun {e later} he hlater hne heq => hne ?_)
  rw [Event.identity_map] at heq
  -- both are images of something that the piece knows, and so they are images of the same
  cases later with
  | uses b => cases heq
  | brings b =>
    have himage : c.renewed.image b = c.renewed.image e.identity := Event.brings.inj heq
    by_cases hbrought : .brings e.identity ∈ old
    · exact congrArg Event.brings (h.oneToOne b e.identity hlater hbrought himage)
    · refine absurd (hissued e he) ?_
      rw [← h.image_eq hbrought, ← himage]
      exact h.fresh b hlater

end Retraces

end Shading
