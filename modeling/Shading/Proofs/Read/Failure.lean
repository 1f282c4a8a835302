/-
  Shading.Proofs.Read.Failure — how and where the reading of values can fail.

  An error names a node, and the function whose body was being read.  A `Site` is a node of a
  document together with the function whose body is the innermost around it, by the text alone.
  Values, types and declarations are read in one body, so they fail at a site in that body.
-/
import Shading.Read.Module

namespace Shading

open List

/-! ## §1. Sites -/

/-- A node of a document, and the function whose body is the innermost around it. -/
structure Site where
  function : Option String
  node : Node
deriving DecidableEq

mutual

/-- The sites in a node that stands in a body of `f`, or in none.  A node that follows the name of a
    function has that function as its `owner`. -/
def Node.sites (f : Option String) : Option String → Node → List Site
  | some name, .list [.symbol "signature", ty, parameters, .list body] =>
    ⟨f, .list [.symbol "signature", ty, parameters, .list body]⟩ :: ⟨f, .symbol "signature"⟩
      :: (Node.sites f none ty ++ Node.sites f none parameters
        ++ ⟨f, .list body⟩ :: Node.sitesIn (some name) none body)
  | _, .list (.symbol "function" :: .symbol name :: signatures) =>
    ⟨f, .list (.symbol "function" :: .symbol name :: signatures)⟩ :: ⟨f, .symbol "function"⟩
      :: ⟨f, .symbol name⟩ :: Node.sitesIn f (some name) signatures
  | _, .list items => ⟨f, .list items⟩ :: Node.sitesIn f none items
  | _, node => [⟨f, node⟩]
termination_by structural _ node => node

/-- The sites in nodes with the same owner. -/
def Node.sitesIn (f owner : Option String) : List Node → List Site
  | [] => []
  | node :: rest => Node.sites f owner node ++ Node.sitesIn f owner rest
termination_by structural nodes => nodes

end

variable {S : Site → Prop} {f : Option String}

theorem mem_sitesIn {owner : Option String} {site : Site} {nodes : List Node} :
    site ∈ Node.sitesIn f owner nodes ↔ ∃ node ∈ nodes, site ∈ node.sites f owner := by
  induction nodes with
  | nil => simp [Node.sitesIn]
  | cons node rest ih => simp [Node.sitesIn, ih]

/-- All sites in the node that are in the same body as the node itself. -/
def Covers (S : Site → Prop) (f : Option String) (node : Node) : Prop :=
  ∀ n, ⟨f, n⟩ ∈ node.sites f none → S ⟨f, n⟩

/-- The items of a list, as far as they are read: reading stops at the tag of a function. -/
inductive Front (P : Node → Prop) (stop : Prop) : List Node → Prop
  | all {nodes : List Node} (items : ∀ node ∈ nodes, P node) : Front P stop nodes
  | tag {rest : List Node} (here : stop) : Front P stop (.symbol "function" :: rest)

theorem mem_sites_self (owner : Option String) (node : Node) :
    ⟨f, node⟩ ∈ node.sites f owner := by
  unfold Node.sites
  split <;> exact mem_cons_self

namespace Covers

variable {items rest : List Node} {node : Node}

theorem self (h : Covers S f node) : S ⟨f, node⟩ := h node (mem_sites_self none node)

/-- A list covers its items, unless it is a function with a name. -/
theorem list (h : Covers S f (.list items))
    (hplain : ∀ name rest, items ≠ .symbol "function" :: .symbol name :: rest) :
    ∀ item ∈ items, Covers S f item := by
  intro item hitem n hn
  apply h
  rw [Node.sites]
  · exact mem_cons_of_mem _ (mem_sitesIn.mpr ⟨item, hitem, hn⟩)
  · exact hplain
  · nofun

theorem tagged {tag : String} (h : Covers S f (.list (.symbol tag :: rest)))
    (htag : tag ≠ "function") : ∀ item ∈ rest, Covers S f item := by
  have hitems := h.list fun name more heq => htag (by cases heq; rfl)
  exact fun item hitem => hitems item (mem_cons_of_mem _ hitem)

/-- All sites in the items of a list, as far as they are read. -/
abbrev Items (S : Site → Prop) (f : Option String) (nodes : List Node) : Prop :=
  Front (Covers S f) (S ⟨f, .symbol "function"⟩) nodes

theorem front (h : Covers S f (.list items)) : Items S f items := by
  by_cases hplain : ∃ name rest, items = .symbol "function" :: .symbol name :: rest
  · obtain ⟨name, rest, rfl⟩ := hplain
    refine .tag (h _ ?_)
    rw [Node.sites]
    exact mem_cons_of_mem _ mem_cons_self
  · exact .all (h.list fun name rest heq => hplain ⟨name, rest, heq⟩)

theorem symbol {name : String} (h : S ⟨f, .symbol name⟩) : Covers S f (.symbol name) := by
  intro n hn
  cases mem_singleton.mp hn
  exact h

theorem pair {x y : Node} (h : Covers S f (.list [x, y])) : Covers S f x ∧ Covers S f y := by
  by_cases hplain : ∃ name, x = .symbol "function" ∧ y = .symbol name
  · obtain ⟨name, rfl, rfl⟩ := hplain
    exact ⟨.symbol (h _ (by simp [Node.sites])), .symbol (h _ (by simp [Node.sites]))⟩
  · have hitems := h.list fun name rest heq => hplain ⟨name, by cases heq; exact ⟨rfl, rfl⟩⟩
    exact ⟨hitems x (by simp), hitems y (by simp)⟩

end Covers

/-! ## §2. Computations that fail at a site -/

/-- The problem is that a function that is being read has no prototype any more. -/
def Problem.isLost : Problem → Bool
  | notInScope _ => true
  | _ => false

/-- The error names a site. -/
def ReadError.At (S : Site → Prop) (e : ReadError) : Prop :=
  ∃ n, e.context = some n ∧ S ⟨e.function, n⟩

/-- The error names a site, and no function is lost. -/
def ReadError.Fits (S : Site → Prop) (e : ReadError) : Prop := e.problem.isLost = false ∧ e.At S

/-- However the computation fails, it fails at a site, and no function is lost. -/
def FailsAt {α : Type} (S : Site → Prop) (x : Except ReadError α) : Prop :=
  ∀ e, x = .error e → e.Fits S

section

variable {α β : Type} {env : Env} {node : Node} {p : Problem}

theorem failsAt_ok (a : α) : FailsAt S (.ok a) := nofun

/-- A sequence fails where one of its parts does. -/
theorem FailsAt.bind {x : Except ReadError α} {g : α → Except ReadError β} (hx : FailsAt S x)
    (hg : ∀ a, FailsAt S (g a)) : FailsAt S (x >>= g) := by
  cases x with
  | error e =>
    intro e' he
    cases he
    exact hx e rfl
  | ok a => exact hg a

theorem FailsAt.map {x : Except ReadError α} (hx : FailsAt S x) (g : α → β) :
    FailsAt S (g <$> x) := by
  cases x with
  | error e =>
    intro e' he
    cases he
    exact hx e rfl
  | ok a => exact failsAt_ok (g a)

theorem failsAt_fail (h : S ⟨env.function, node⟩) (hp : p.isLost = false) :
    FailsAt S (env.fail node p : Except ReadError α) := by
  intro e he
  cases he
  exact ⟨hp, node, rfl, h⟩

theorem failsAt_require (h : S ⟨env.function, node⟩) (hp : p.isLost = false) (o : Option α) :
    FailsAt S (env.require node p o) := by
  cases o with
  | none => exact failsAt_fail h hp
  | some a => exact failsAt_ok a

theorem failsAt_assert (h : S ⟨env.function, node⟩) (hp : p.isLost = false) (condition : Bool) :
    FailsAt S (env.assert node p condition) := by
  cases condition with
  | false => exact failsAt_fail h hp
  | true => exact failsAt_ok ()

theorem failsAt_check (h : S ⟨env.function, node⟩) (x : Except Fault α) :
    FailsAt S (env.check node x) := by
  cases x with
  | error f => exact failsAt_fail h rfl
  | ok a => exact failsAt_ok a

end

/-! ## §3. Types and constants -/

variable {env : Env} {node : Node}

theorem isLost_typeProblem (node : Node) : (typeProblem node).isLost = false := by
  unfold typeProblem
  split <;> rfl

/-- A type fails at a node of its own. -/
theorem failsAt_readType (h : Covers S env.function node) : FailsAt S (readType env node) := by
  induction node using readType.induct with
  | case1 name => exact failsAt_require h.self rfl _
  | case2 element length ih =>
    have hitems := h.tagged (by decide)
    exact (ih (hitems _ (by simp))).bind fun _ =>
      (failsAt_require h.self rfl _).bind fun _ => failsAt_ok _
  | case3 node h1 h2 =>
    rw [readType]
    · exact failsAt_fail h.self (isLost_typeProblem node)
    all_goals assumption

variable {whole : Node}

theorem failsAt_readNumbers {α : Type} (h : S ⟨env.function, whole⟩) (number? : Node → Option α)
    (nodes : List Node) : FailsAt S (readNumbers env whole number? nodes) := by
  induction nodes with
  | nil => exact failsAt_ok []
  | cons node rest ih =>
    exact (failsAt_require h rfl _).bind fun _ => ih.bind fun _ => failsAt_ok _

theorem failsAt_readComponents (h : S ⟨env.function, whole⟩) (ty : Ty) (values : List Node) :
    FailsAt S (readComponents env whole ty values) := by
  refine (failsAt_assert h rfl _).bind fun _ => ?_
  split
  all_goals first
    | exact (failsAt_readNumbers h _ _).bind fun _ => failsAt_check h _
    | exact failsAt_fail h rfl

/-- Constants and their elements fail at nodes of their own. -/
theorem failsAt_readConstant_all (S : Site → Prop) (env : Env) :
    (∀ node, Covers S env.function node → FailsAt S (readConstant env node))
    ∧ ∀ nodes, Covers.Items S env.function nodes → FailsAt S (readElements env nodes) := by
  apply readConstant.mutual_induct
  · intro ty values ih h
    have hitems := h.tagged (by decide)
    rw [readConstant]
    refine (failsAt_readType (hitems ty (by simp))).bind fun t => ?_
    split
    · exact (ih (hitems (.list values) (by simp)).front).bind fun _ => failsAt_check h.self _
    · exact failsAt_readComponents h.self _ _
  · intro ty value hvalue h
    rw [readConstant]
    · exact (failsAt_readType (h.tagged (by decide) ty (by simp))).bind fun _ =>
        failsAt_fail h.self rfl
    · exact hvalue
  · intro node h1 h2 h
    rw [readConstant]
    · exact failsAt_fail h.self rfl
    all_goals assumption
  · exact fun _ => failsAt_ok []
  · intro node rest ih1 ih2 h
    rw [readElements]
    cases h with
    | all items =>
      obtain ⟨hnode, hrest⟩ := forall_mem_cons.mp items
      exact (failsAt_assert hnode.self rfl _).bind fun _ => (ih1 hnode).bind fun _ =>
        (ih2 (.all hrest)).bind fun _ => failsAt_ok _
    | tag here => exact failsAt_fail here rfl

/-! ## §4. Rvalues -/

theorem isLost_rvalueProblem (node : Node) : (rvalueProblem node).isLost = false := by
  unfold rvalueProblem
  split
  · rfl
  · split <;> rfl
  · rfl
  · rfl

theorem failsAt_asDereference (h : S ⟨env.function, node⟩) (part : Part) (r : Rvalue) :
    FailsAt S (asDereference env node part r) := by
  unfold asDereference
  split
  · exact failsAt_ok _
  · exact failsAt_fail h rfl

theorem failsAt_readOffsets (h : S ⟨env.function, node⟩) : FailsAt S (readOffsets env node) := by
  unfold readOffsets
  split
  · exact (failsAt_require h rfl _).bind fun _ => (failsAt_require h rfl _).bind fun _ =>
      (failsAt_require h rfl _).bind fun _ => failsAt_ok _
  · exact failsAt_fail h rfl

theorem failsAt_resolveCall (h : S ⟨env.function, node⟩) (name : String) (args : List Rvalue) :
    FailsAt S (resolveCall env node name args) :=
  (failsAt_require h rfl _).bind fun _ => (failsAt_require h rfl _).bind fun _ => failsAt_ok _

theorem LookupTag.ne_of_ofName? {name : String} {tag : LookupTag} (h : ofName? name = some tag) :
    name ≠ "function" := by
  rintro rfl
  cases h

/-- **A value fails at a node of its own**, by induction over the reader's recursion. -/
theorem failsAt_readRvalue_all (S : Site → Prop) (env : Env) :
    (∀ node, Covers S env.function node → FailsAt S (readRvalue env node))
    ∧ (∀ extras, (∀ node ∈ extras, Covers S env.function node) →
      FailsAt S (readModifiers env extras))
    ∧ (∀ tag extras, (∀ node ∈ extras, Covers S env.function node) →
      FailsAt S (readLookup env tag extras))
    ∧ (∀ node, Covers S env.function node → FailsAt S (readGradient env node))
    ∧ ∀ nodes, Covers.Items S env.function nodes → FailsAt S (readRvalues env nodes) := by
  apply readRvalue.mutual_induct env
  -- expressions
  · intro ty op operands ih h
    have hself := h.self
    have hitems := h.tagged (by decide)
    rw [readRvalue]
    exact (failsAt_assert hself rfl _).bind fun _ =>
      (failsAt_readType (hitems ty (by simp))).bind fun _ =>
      (failsAt_require hself rfl _).bind fun _ => (failsAt_require hself rfl _).bind fun _ =>
      (failsAt_assert hself rfl _).bind fun _ =>
      (ih (.all fun node hnode => hitems node (by simp [hnode]))).bind fun _ => failsAt_check hself _
  -- swizzles
  · intro mask value ih h
    rw [readRvalue]
    exact (failsAt_require h.self rfl _).bind fun _ => (failsAt_check h.self _).bind fun _ =>
      (ih (h.tagged (by decide) value (by simp))).bind fun _ => failsAt_check h.self _
  -- constants
  · intro tail h
    rw [readRvalue]
    exact ((failsAt_readConstant_all S env).1 _ h).bind fun _ => failsAt_ok _
  -- variables
  · intro name h
    rw [readRvalue]
    exact (failsAt_require h.self rfl _).bind fun _ => (failsAt_check h.self _).bind fun _ =>
      failsAt_ok _
  -- parts
  · intro base index ih1 ih2 h
    have hitems := h.tagged (by decide)
    rw [readRvalue]
    exact (ih1 (hitems base (by simp))).bind fun _ => (ih2 (hitems index (by simp))).bind fun _ =>
      (failsAt_check h.self _).bind fun _ => failsAt_ok _
  -- calls
  · intro name args ih h
    rw [readRvalue]
    exact (ih (h.tagged (by decide) (.list args) (by simp)).front).bind fun _ =>
      failsAt_resolveCall h.self _ _
  -- texture lookups
  · intro tag sampler coordinate offsets extras h1 h2 htag h
    rw [readRvalue]
    · rw [htag]
      exact failsAt_fail h.self (isLost_rvalueProblem _)
    all_goals assumption
  · intro tag sampler coordinate offsets extras h1 h2 kind htag ih1 ih2 ih3 ih4 h
    have hself := h.self
    have hitems := h.tagged (LookupTag.ne_of_ofName? htag)
    have hextras : ∀ node ∈ extras, Covers S env.function node :=
      fun node hnode => hitems node (by simp [hnode])
    rw [readRvalue]
    · rw [htag]
      exact (failsAt_assert hself rfl _).bind fun _ => (ih1 (hitems sampler (by simp))).bind fun _ =>
        (failsAt_asDereference (hitems sampler (by simp)).self _ _).bind fun _ =>
        (ih2 (hitems coordinate (by simp))).bind fun _ =>
        (failsAt_readOffsets (hitems offsets (by simp)).self).bind fun _ => (ih3 hextras).bind fun _ =>
        (failsAt_check hself _).bind fun _ => (ih4 hextras).bind fun _ => failsAt_ok _
    all_goals assumption
  · intro node h1 h2 h3 h4 h5 h6 h7 h
    rw [readRvalue]
    · exact failsAt_fail h.self (isLost_rvalueProblem node)
    all_goals assumption
  -- derivatives
  · intro dx dy ih1 ih2 h
    rw [readGradient]
    exact (ih1 h.pair.1).bind fun _ => (ih2 h.pair.2).bind fun _ => failsAt_ok _
  · intro node hnode h
    rw [readGradient]
    · exact failsAt_fail h.self rfl
    · exact hnode
  -- projector and comparator
  · intro projector comparator tail hunit ih h
    have hcomparator := h comparator (by simp)
    rw [readModifiers, if_pos hunit]
    refine (failsAt_ok none).bind fun p => ?_
    split
    · exact failsAt_ok _
    · exact (failsAt_assert hcomparator.self rfl _).bind fun _ => (ih hcomparator).bind fun _ =>
        failsAt_ok _
  · intro projector comparator tail hunit ih1 ih2 h
    have hcomparator := h comparator (by simp)
    rw [readModifiers, if_neg hunit]
    refine ((ih2 (h projector (by simp))).map some).bind fun p => ?_
    split
    · exact failsAt_ok _
    · exact (failsAt_assert hcomparator.self rfl _).bind fun _ => (ih1 hcomparator).bind fun _ =>
        failsAt_ok _
  · intro extras hextras h
    rw [readModifiers]
    · exact failsAt_ok _
    · exact hextras
  -- levels of detail
  · intro tag lod ih h
    rw [readLookup]
    exact (ih (h lod (by simp))).bind fun _ => failsAt_ok _
  · intro a b x ih h
    rw [readLookup]
    exact (ih (h x (by simp))).bind fun _ => failsAt_ok _
  · intro a b x ih h
    rw [readLookup]
    exact (ih (h x (by simp))).bind fun _ => failsAt_ok _
  · intro tag a b x h1 h2 ih h
    rw [readLookup]
    · exact ih (h x (by simp))
    all_goals assumption
  · intro extras tag h1 h2 h
    rw [readLookup]
    · exact failsAt_ok _
    all_goals assumption
  -- lists
  · exact fun _ => failsAt_ok []
  · intro node rest ih1 ih2 h
    rw [readRvalues]
    cases h with
    | all items =>
      obtain ⟨hnode, hrest⟩ := forall_mem_cons.mp items
      exact (ih1 hnode).bind fun _ => (ih2 (.all hrest)).bind fun _ => failsAt_ok _
    | tag here => exact failsAt_fail here rfl

/-- **A value fails at one of its nodes, in the body that it stands in.** -/
theorem failsAt_readRvalue (h : Covers S env.function node) : FailsAt S (readRvalue env node) :=
  (failsAt_readRvalue_all S env).1 node h

/-! ## §5. Statements without blocks -/

theorem failsAt_readQualifiers (h : S ⟨env.function, whole⟩) (nodes : List Node) (v : Variable) :
    FailsAt S (readQualifiers env whole v nodes) := by
  induction nodes generalizing v with
  | nil => exact failsAt_ok v
  | cons node rest ih =>
    exact (failsAt_require h rfl _).bind fun _ => (failsAt_require h rfl _).bind fun w => ih w

theorem failsAt_readVariable (h : Covers S env.function node) :
    FailsAt S (readVariable env node) := by
  unfold readVariable
  split
  next qualifiers ty name =>
    exact (failsAt_require h.self rfl _).bind fun _ =>
      (failsAt_readType (h.tagged (by decide) ty (by simp))).bind fun _ =>
      (failsAt_require h.self rfl _).bind fun _ => failsAt_readQualifiers h.self _ _
  · exact failsAt_fail h.self rfl
  · exact failsAt_fail h.self rfl

theorem failsAt_readMask (h : S ⟨env.function, node⟩) : FailsAt S (readMask env node) := by
  unfold readMask
  split
  · exact failsAt_ok _
  · exact failsAt_ok _
  · exact failsAt_fail h rfl

theorem failsAt_readOptional (h : Covers S env.function node) :
    FailsAt S (readOptional env node) := by
  unfold readOptional
  split
  · exact failsAt_ok _
  · exact (failsAt_readRvalue h).bind fun _ => failsAt_ok _

/-- An assignment fails at a node of its own. -/
theorem failsAt_readAssignment (h : Covers S env.function node) :
    FailsAt S (readAssignment env node) := by
  unfold readAssignment
  split
  next condition mask lhs rhs =>
    have hitems := h.tagged (by decide)
    have hlhs := hitems lhs (by simp)
    exact (failsAt_readOptional (hitems condition (by simp))).bind fun _ =>
      (failsAt_readMask (hitems mask (by simp)).self).bind fun _ =>
      (failsAt_readRvalue hlhs).bind fun _ => (failsAt_asDereference hlhs.self _ _).bind fun _ =>
      (failsAt_readRvalue (hitems rhs (by simp))).bind fun _ => failsAt_check h.self _
  · exact failsAt_fail h.self rfl

theorem failsAt_readReturn (h : Covers S env.function node) : FailsAt S (readReturn env node) := by
  unfold readReturn
  split
  · exact failsAt_ok _
  · exact (failsAt_readRvalue h.pair.2).bind fun _ => failsAt_ok _
  · exact failsAt_fail h.self rfl

theorem failsAt_controlItems {α : Type} {most : Nat} {g : List Node → Except ReadError α}
    (h : S ⟨env.function, node⟩)
    (hg : ∀ items, node = .list items → items.length ≤ most → FailsAt S (g items)) :
    FailsAt S (controlItems env most node >>= g) := by
  unfold controlItems
  split
  next items =>
    split
    next hlength => exact hg items rfl hlength
    · exact failsAt_fail h rfl
  · exact failsAt_fail h rfl

theorem failsAt_readCounter (h : Covers S env.function node) :
    FailsAt S (readCounter env node) := by
  refine failsAt_controlItems h.self fun items _ _ => ?_
  split
  · exact failsAt_ok _
  · exact (failsAt_require h.self rfl _).bind fun _ => failsAt_ok _
  · exact failsAt_fail h.self rfl

theorem failsAt_readControl (h : Covers S env.function node) :
    FailsAt S (readControl env node) := by
  refine failsAt_controlItems h.self fun items hitems hlength => ?_
  subst hitems
  split
  · exact failsAt_ok _
  next value rest =>
    obtain rfl : rest = [] := length_eq_zero_iff.mp (by simpa using hlength)
    have hvalue : Covers S env.function value := h.list (by simp) value (by simp)
    exact (failsAt_readRvalue hvalue).bind fun _ => failsAt_ok _

theorem failsAt_readTerminator (h : Covers S env.function node) :
    FailsAt S (readTerminator env node) := by
  refine failsAt_controlItems h.self fun items hitems hlength => ?_
  subst hitems
  split
  · exact failsAt_ok _
  · exact (failsAt_require h.self rfl _).bind fun _ => (failsAt_readRvalue h.pair.2).bind fun _ =>
      failsAt_ok _
  · exact failsAt_fail h.self rfl

/-- The controls of a loop fail at nodes of their own. -/
theorem failsAt_readControls {counter start stop increment : Node} (hself : S ⟨env.function, whole⟩)
    (h : ∀ node ∈ [counter, start, stop, increment], Covers S env.function node) :
    FailsAt S (readControls env whole counter start stop increment) := by
  refine (failsAt_readCounter (h counter (by simp))).bind fun _ =>
    (failsAt_readControl (h start (by simp))).bind fun _ =>
    (failsAt_readTerminator (h stop (by simp))).bind fun terminator =>
    (failsAt_readControl (h increment (by simp))).bind fun _ => ?_
  split
  · exact failsAt_ok _
  · exact failsAt_check hself _

theorem failsAt_readSignatureHead {ty parameters body : Node} (hself : S ⟨env.function, whole⟩)
    (hty : Covers S env.function ty) (hparameters : S ⟨env.function, parameters⟩) :
    FailsAt S (readSignatureHead env whole ty parameters body) :=
  (failsAt_readType hty).bind fun _ => (failsAt_require hself rfl _).bind fun _ =>
    (failsAt_assert hself rfl _).bind fun _ => (failsAt_assert hparameters rfl _).bind fun _ =>
    failsAt_ok _

/-! ## §6. Failures without a site -/

theorem isLost_functionProblem (parts : List Node) : (functionProblem parts).isLost = false := by
  unfold functionProblem
  split <;> rfl

theorem isLost_instructionProblem {node : Node} {p : Problem}
    (h : instructionProblem node = some p) : p.isLost = false := by
  unfold instructionProblem at h
  split at h
  · split at h
    all_goals cases h
    all_goals rfl
  · cases h
  · cases h
    rfl

/-! ## §7. Statements with blocks -/

/-- What a signature fails at in front of its body. -/
structure HeadCovers (S : Site → Prop) (f : Option String) (node : Node) : Prop where
  self : S ⟨f, node⟩
  parts : ∀ ty parameters body, node = .list [.symbol "signature", ty, parameters, body] →
    Covers S f ty ∧ Covers S f parameters

theorem HeadCovers.imp {S' : Site → Prop} (h : HeadCovers S f node)
    (himp : ∀ n, S ⟨f, n⟩ → S' ⟨f, n⟩) : HeadCovers S' f node := by
  refine ⟨himp _ h.self, fun ty parameters body heq => ?_⟩
  obtain ⟨hty, hparameters⟩ := h.parts ty parameters body heq
  exact ⟨fun n hn => himp n (hty n hn), fun n hn => himp n (hparameters n hn)⟩

/-- All sites in the node. -/
def Within (S : Site → Prop) (f owner : Option String) (node : Node) : Prop :=
  ∀ site ∈ node.sites f owner, S site

/-- All sites in the items of a block, as far as they are read. -/
structure BlockWithin (S : Site → Prop) (f : Option String) (node : Node) : Prop where
  items : ∀ nodes, node = .list nodes →
    Front (Within S f none) (S ⟨f, .symbol "function"⟩) nodes
  self : (∀ nodes, node ≠ .list nodes) → S ⟨f, node⟩

namespace Within

variable {items : List Node} {node : Node}

theorem covers (h : Within S f none node) : Covers S f node := fun n hn => h ⟨f, n⟩ hn

theorem list (h : Within S f none (.list items))
    (hplain : ∀ name rest, items ≠ .symbol "function" :: .symbol name :: rest) :
    ∀ item ∈ items, Within S f none item := by
  intro item hitem site hsite
  apply h
  rw [Node.sites]
  · exact mem_cons_of_mem _ (mem_sitesIn.mpr ⟨item, hitem, hsite⟩)
  · exact hplain
  · rintro _ _ _ _ ⟨⟩

theorem front (h : Within S f none (.list items)) :
    Front (Within S f none) (S ⟨f, .symbol "function"⟩) items := by
  by_cases hplain : ∃ name rest, items = .symbol "function" :: .symbol name :: rest
  · obtain ⟨name, rest, rfl⟩ := hplain
    refine .tag (h _ ?_)
    rw [Node.sites]
    exact mem_cons_of_mem _ mem_cons_self
  · exact .all (h.list fun name rest heq => hplain ⟨name, rest, heq⟩)

theorem block (h : Within S f none node) : BlockWithin S f node :=
  ⟨fun _ heq => front (heq ▸ h), fun _ => h _ (mem_sites_self none node)⟩

theorem function {name : String} {signatures : List Node}
    (h : Within S f none (.list (.symbol "function" :: .symbol name :: signatures))) :
    ∀ node ∈ signatures, Within S f (some name) node := by
  intro node hnode site hsite
  apply h
  rw [Node.sites]
  exact mem_cons_of_mem _ (mem_cons_of_mem _ (mem_cons_of_mem _
    (mem_sitesIn.mpr ⟨node, hnode, hsite⟩)))

theorem parts {parts : List Node} (h : Within S f none (.list (.symbol "function" :: parts))) :
    ∀ name rest, parts = .symbol name :: rest → ∀ node ∈ rest, Within S f (some name) node := by
  rintro name rest rfl
  exact h.function

/-- The head of a signature lies within the function around. -/
theorem headCovers {name : String} (h : Within S f (some name) node) : HeadCovers S f node := by
  refine ⟨h _ (mem_sites_self _ node), ?_⟩
  rintro ty parameters body rfl
  cases body with
  | list nodes =>
    unfold Within at h
    rw [Node.sites] at h
    exact ⟨fun n hn => h _ (by simp [hn]), fun n hn => h _ (by simp [hn])⟩
  | _ =>
    unfold Within at h
    rw [Node.sites] at h
    · exact ⟨fun n hn => h _ (mem_cons_of_mem _ (mem_sitesIn.mpr ⟨ty, by simp, hn⟩)),
        fun n hn => h _ (mem_cons_of_mem _ (mem_sitesIn.mpr ⟨parameters, by simp, hn⟩))⟩
    all_goals simp

/-- The body of a signature lies within its own function. -/
theorem body {name : String} {ty parameters : Node} {nodes : List Node}
    (h : Within S f (some name) (.list [.symbol "signature", ty, parameters, .list nodes])) :
    ∀ node ∈ nodes, Within S (some name) none node := by
  intro node hnode site hsite
  apply h
  rw [Node.sites]
  simp [mem_sitesIn.mpr ⟨node, hnode, hsite⟩]

end Within

end Shading
