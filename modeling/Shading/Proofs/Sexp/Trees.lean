/-
  Shading.Proofs.Sexp.Trees — from a text to trees of words.

  A text is cut into tokens (`Cuts`), and the tokens are those of trees (`Tree.tokensAll`).  Both steps
  have at most one outcome, and everything that reads or describes S-expressions agrees on it:

      exists_cuts, cuts_iff           every text is cut, and as the scanner cuts it
      tokensAll_append_inj            tokens are those of at most one list of trees
      flaw_eq_none_iff_grows          the grammar finds no flaw in the tokens of trees
      readNodes_of_grows              the reader gives the nodes of the trees
-/
import Shading.Sexp.Read

namespace Shading

open List

/-! ## §1. Words and the characters around them -/

/-- The characters are one word of the scanner. -/
def IsRun (cs : List Char) : Prop := cs ≠ [] ∧ ∀ c ∈ cs, isWordChar c = true

instance (cs : List Char) : Decidable (IsRun cs) :=
  @instDecidableAnd _ _ inferInstance (cs.decidableBAll (isWordChar · = true))

/-- The characters that a run does not contain. -/
def separators : List Char := [' ', '\t', '\r', '\n', '(', ')', ';']

/-- A word that ended before these characters has ended. -/
def Delimited (cs : List Char) : Prop := ∀ c ∈ cs.head?, c ∈ separators

theorem delimited_nil : Delimited [] := by
  intro c hc
  cases hc

variable {c : Char}

theorem delimited_cons (cs : List Char) (h : c ∈ separators) : Delimited (c :: cs) := by
  intro d hd
  cases hd
  exact h

theorem isWordChar_iff_not_mem : isWordChar c = true ↔ c ∉ separators := by
  simp [isWordChar, isBlank, separators, and_assoc]

theorem isBlank_iff_mem : isBlank c = true ↔ c ∈ [' ', '\t', '\r', '\n'] := by
  simp [isBlank, or_assoc]

/-! ## §2. Cutting a text -/

/-- The text is cut into these tokens: blanks and comments are dropped, a comment ending before the
    next line feed, parentheses stand for themselves and every other run is as long as it can be. -/
inductive Cuts : List Char → List Token → Prop
  | done : Cuts [] []
  | blank {c : Char} {cs : List Char} {ts : List Token} (hc : c ∈ [' ', '\t', '\r', '\n'])
      (h : Cuts cs ts) : Cuts (c :: cs) ts
  | comment {body cs : List Char} {ts : List Token} (hbody : '\n' ∉ body)
      (hend : cs = [] ∨ cs.head? = some '\n') (h : Cuts cs ts) : Cuts (';' :: (body ++ cs)) ts
  | opening {cs : List Char} {ts : List Token} (h : Cuts cs ts) : Cuts ('(' :: cs) (.open :: ts)
  | closing {cs : List Char} {ts : List Token} (h : Cuts cs ts) : Cuts (')' :: cs) (.close :: ts)
  | word {run cs : List Char} {ts : List Token} (hne : run ≠ [])
      (hrun : ∀ c ∈ run, c ∉ separators) (hend : ∀ c ∈ cs.head?, c ∈ separators) (h : Cuts cs ts) :
      Cuts (run ++ cs) (.word run :: ts)

variable {cs : List Char} {ts : List Token}

/-- A comment ends at the next line feed. -/
theorem Cuts.comment_dropWhile (h : Cuts (cs.dropWhile (· ≠ '\n')) ts) : Cuts (';' :: cs) ts := by
  rw [← takeWhile_append_dropWhile (p := (· ≠ '\n')) (l := cs)]
  refine .comment (fun hline => ?_) ?_ h
  · have := all_eq_true.mp (all_takeWhile (p := (· ≠ '\n')) (l := cs)) '\n' hline
    cases this
  · cases hrest : cs.dropWhile (· ≠ '\n') with
    | nil => exact .inl rfl
    | cons c rest =>
      have := head?_dropWhile_not (· ≠ '\n') cs
      rw [hrest] at this
      right
      simpa using this

/-- A word goes on to the next separator. -/
theorem Cuts.word_dropWhile (hc : isWordChar c = true) (h : Cuts (cs.dropWhile isWordChar) ts) :
    Cuts (c :: cs) (.word (c :: cs.takeWhile isWordChar) :: ts) := by
  have hcs : c :: cs = (c :: cs.takeWhile isWordChar) ++ cs.dropWhile isWordChar := by
    rw [cons_append, takeWhile_append_dropWhile]
  rw [hcs]
  refine .word (cons_ne_nil _ _) ?_ ?_ h
  · intro d hd
    rcases mem_cons.mp hd with rfl | hd
    · exact isWordChar_iff_not_mem.mp hc
    · exact isWordChar_iff_not_mem.mp (all_eq_true.mp all_takeWhile d hd)
  · intro d hd
    have := head?_dropWhile_not isWordChar cs
    rw [Option.mem_def.mp hd] at this
    exact Classical.not_not.mp fun hmem => by simp [isWordChar_iff_not_mem.mpr hmem] at this

/-- **Every text can be cut.** -/
theorem exists_cuts : ∀ cs : List Char, ∃ ts, Cuts cs ts
  | [] => ⟨[], .done⟩
  | c :: cs => by
    have hline := (dropWhile_suffix (l := cs) (· ≠ '\n')).length_le
    have hword := (dropWhile_suffix (l := cs) isWordChar).length_le
    by_cases hblank : isBlank c = true
    · obtain ⟨ts, h⟩ := exists_cuts cs
      exact ⟨ts, .blank (isBlank_iff_mem.mp hblank) h⟩
    by_cases hsemicolon : c = ';'
    · obtain ⟨ts, h⟩ := exists_cuts (cs.dropWhile (· ≠ '\n'))
      exact ⟨ts, hsemicolon ▸ h.comment_dropWhile⟩
    by_cases hopen : c = '('
    · obtain ⟨ts, h⟩ := exists_cuts cs
      exact ⟨.open :: ts, hopen ▸ .opening h⟩
    by_cases hclose : c = ')'
    · obtain ⟨ts, h⟩ := exists_cuts cs
      exact ⟨.close :: ts, hclose ▸ .closing h⟩
    have hc : isWordChar c = true := by
      simp [isWordChar, hblank, hsemicolon, hopen, hclose]
    obtain ⟨ts, h⟩ := exists_cuts (cs.dropWhile isWordChar)
    exact ⟨_, h.word_dropWhile hc⟩
termination_by cs => cs.length
decreasing_by all_goals simp only [length_cons]; omega

namespace Scanner

variable {pos start : Pos} {reversed : List Char}

theorem run_gap_blank (hc : isBlank c = true) :
    gap.run pos (c :: cs) = gap.run (pos.next c) cs := by
  simp [run, hc, flush]

theorem run_comment {body : List Char} (hbody : '\n' ∉ body)
    (hend : cs = [] ∨ cs.head? = some '\n') :
    comment.run pos (body ++ cs) = gap.run (pos.after body) cs := by
  induction body generalizing pos with
  | nil =>
    rcases hend with rfl | hend
    · rfl
    · obtain ⟨rest, rfl⟩ := head?_eq_some_iff.mp hend
      rw [run_gap_blank rfl]
      rfl
  | cons c body ih =>
    have hc : c ≠ '\n' := fun h => hbody (h ▸ mem_cons_self)
    simp only [cons_append, run, if_neg hc]
    exact ih fun h => hbody (mem_cons_of_mem _ h)

theorem run_extend (s : Scanner) (hs : s ≠ comment) (hc : c ∉ separators) :
    s.run pos (c :: cs) = (s.extend pos c).run (pos.next c) cs := by
  simp only [separators, mem_cons, not_mem_nil, or_false, not_or] at hc
  cases s with
  | gap | word => simp [run, isBlank, hc]
  | comment => exact absurd rfl hs

theorem run_word_delimited (h : Delimited cs) :
    (word start reversed).run pos cs = ⟨start, .word reversed.reverse⟩ :: gap.run pos cs := by
  cases cs with
  | nil => rfl
  | cons c cs =>
    have hc : c ∈ separators := h c rfl
    simp only [separators, mem_cons, not_mem_nil, or_false] at hc
    rcases hc with rfl | rfl | rfl | rfl | rfl | rfl | rfl <;> rfl

theorem run_word {rest : List Char} (hcs : ∀ c ∈ cs, c ∉ separators) (hrest : Delimited rest) :
    (word start reversed).run pos (cs ++ rest)
      = ⟨start, .word (reversed.reverse ++ cs)⟩ :: gap.run (pos.after cs) rest := by
  induction cs generalizing pos reversed with
  | nil => simpa [Pos.after] using run_word_delimited hrest
  | cons c cs ih =>
    rw [cons_append, run_extend (word start reversed) nofun (hcs c mem_cons_self), extend,
      ih fun d hd => hcs d (mem_cons_of_mem _ hd)]
    simp [Pos.after]

end Scanner

/-- The scanner finds the tokens that a text is cut into, wherever the text begins. -/
theorem Cuts.run (h : Cuts cs ts) : ∀ pos, (Scanner.gap.run pos cs).map (·.token) = ts := by
  induction h with
  | done => exact fun _ => rfl
  | @blank c cs ts hc _ ih =>
    intro pos
    rw [Scanner.run_gap_blank (isBlank_iff_mem.mpr hc), ih]
  | comment hbody hend _ ih =>
    intro pos
    show (Scanner.comment.run (pos.next ';') _).map _ = _
    rw [Scanner.run_comment hbody hend, ih]
  | opening _ ih =>
    intro pos
    exact congrArg (Token.open :: ·) (ih _)
  | closing _ ih =>
    intro pos
    exact congrArg (Token.close :: ·) (ih _)
  | @word run cs ts hne hrun hend _ ih =>
    intro pos
    obtain ⟨c, rest, rfl⟩ := exists_cons_of_ne_nil hne
    rw [cons_append, Scanner.run_extend .gap nofun (hrun c mem_cons_self)]
    show ((Scanner.word pos [c]).run _ _).map _ = _
    rw [Scanner.run_word (fun d hd => hrun d (mem_cons_of_mem _ hd)) hend, map_cons, ih]
    rfl

/-- **A text is cut in one way**, and the scanner finds it. -/
theorem cuts_iff : Cuts cs ts ↔ ts = (scan cs).map (·.token) := by
  have hscan : ∀ {us : List Token}, Cuts cs us → us = (scan cs).map (·.token) :=
    fun h => (h.run _).symm
  refine ⟨hscan, ?_⟩
  rintro rfl
  obtain ⟨us, hus⟩ := exists_cuts cs
  exact hscan hus ▸ hus

theorem Cuts.unique {us : List Token} (h : Cuts cs ts) (h' : Cuts cs us) : ts = us :=
  (cuts_iff.mp h).trans (cuts_iff.mp h').symm

/-- The words that a text is cut into are words of the scanner. -/
theorem Cuts.isRun (h : Cuts cs ts) {run : List Char} (hrun : .word run ∈ ts) : IsRun run := by
  induction h with
  | done => cases hrun
  | blank _ _ ih | comment _ _ _ ih => exact ih hrun
  | opening _ ih | closing _ ih => exact ih (by simpa using hrun)
  | word hne hchars _ _ ih =>
    rcases mem_cons.mp hrun with heq | hrun
    · cases heq
      exact ⟨hne, fun c hc => isWordChar_iff_not_mem.mpr (hchars c hc)⟩
    · exact ih hrun

/-! ## §3. Trees of words -/

/-- A word, or a list of trees. -/
inductive Tree where
  | word (chars : List Char)
  | list (items : List Tree)

namespace Tree

mutual

/-- The tokens of a tree. -/
def tokens : Tree → List Token
  | word cs => [.word cs]
  | list items => .open :: (tokensAll items ++ [.close])

/-- The tokens of trees, one after the other. -/
def tokensAll : List Tree → List Token
  | [] => []
  | t :: rest => tokens t ++ tokensAll rest

end

mutual

/-- The node of a tree.  Its numbers have to be in range. -/
def node : Tree → Except SexpError Node
  | word cs => nodeOfWord cs
  | list items => do
    let nodes ← nodes items
    pure (.list nodes)

/-- The nodes of trees, from the first to the last. -/
def nodes : List Tree → Except SexpError (List Node)
  | [] => .ok []
  | t :: rest => do
    let node ← node t
    let nodes ← nodes rest
    pure (node :: nodes)

end

@[simp] theorem tokensAll_append (ts us : List Tree) :
    tokensAll (ts ++ us) = tokensAll ts ++ tokensAll us := by
  induction ts with
  | nil => rfl
  | cons t ts ih => rw [cons_append, tokensAll, ih, tokensAll, append_assoc]

theorem nodes_cons_eq_ok {t : Tree} {ts : List Tree} {ns : List Node} :
    nodes (t :: ts) = .ok ns
      ↔ ∃ n rest, t.node = .ok n ∧ nodes ts = .ok rest ∧ ns = n :: rest := by
  rw [nodes]
  cases t.node with
  | error e => simp [bind, Except.bind]
  | ok n => cases nodes ts <;> simp [bind, Except.bind, pure, Except.pure, eq_comm]

theorem node_list_eq_ok {ts : List Tree} {n : Node} :
    (list ts).node = .ok n ↔ ∃ ns, nodes ts = .ok ns ∧ n = .list ns := by
  rw [node]
  cases nodes ts <;> simp [bind, Except.bind, pure, Except.pure, eq_comm]

theorem nodes_append_ok {ts us : List Tree} {ns ms : List Node} (hts : nodes ts = .ok ns)
    (hus : nodes us = .ok ms) : nodes (ts ++ us) = .ok (ns ++ ms) := by
  induction ts generalizing ns with
  | nil =>
    cases hts
    exact hus
  | cons t ts ih =>
    obtain ⟨n, rest, hn, hrest, rfl⟩ := nodes_cons_eq_ok.mp hts
    exact nodes_cons_eq_ok.mpr ⟨n, _, hn, ih hrest, rfl⟩

theorem head_tokens (t : Tree) : ∃ token rest, t.tokens = token :: rest ∧ token ≠ .close := by
  cases t with
  | word cs => exact ⟨_, _, rfl, nofun⟩
  | list items => exact ⟨_, _, rfl, nofun⟩

variable {us us' : List Token}

mutual

/-- **No tree begins another one.** -/
theorem tokens_append_inj : ∀ {t t' : Tree} {us us' : List Token},
    t.tokens ++ us = t'.tokens ++ us' → t = t' ∧ us = us'
  | .word cs, .word cs', us, us', h => by simpa [tokens] using h
  | .word _, .list _, _, _, h | .list _, .word _, _, _, h => by simp [tokens] at h
  | .list items, .list items', us, us', h => by
    have hitems : tokensAll items ++ .close :: us = tokensAll items' ++ .close :: us' := by
      simpa [tokens] using h
    obtain ⟨rfl, rfl⟩ := tokensAll_close_inj hitems
    exact ⟨rfl, rfl⟩

theorem tokensAll_close_inj : ∀ {items items' : List Tree} {us us' : List Token},
    tokensAll items ++ .close :: us = tokensAll items' ++ .close :: us' → items = items' ∧ us = us'
  | [], [], us, us', h => ⟨rfl, (cons.inj h).2⟩
  | [], t :: _, _, _, h | t :: _, [], _, _, h => by
    obtain ⟨token, rest, htokens, hne⟩ := head_tokens t
    rw [tokensAll, tokensAll, htokens, nil_append, append_assoc, cons_append, cons.injEq] at h
    first | exact absurd h.1.symm hne | exact absurd h.1 hne
  | t :: items, t' :: items', us, us', h => by
    rw [tokensAll, tokensAll, append_assoc, append_assoc] at h
    obtain ⟨rfl, hrest⟩ := tokens_append_inj h
    obtain ⟨rfl, rfl⟩ := tokensAll_close_inj hrest
    exact ⟨rfl, rfl⟩

end

variable {ts : List Token}

/-- The runs among the tokens are words. -/
def OfWords (ts : List Token) : Prop := ∀ cs, .word cs ∈ ts → (Word.ofChars? cs).isSome = true

theorem OfWords.append (h : OfWords (ts ++ us)) : OfWords ts ∧ OfWords us :=
  ⟨fun cs hcs => h cs (mem_append_left _ hcs), fun cs hcs => h cs (mem_append_right _ hcs)⟩

/-- No tree of words begins the tokens. -/
def Stuck (ts : List Token) : Prop :=
  ∀ (t : Tree) (rest : List Token), OfWords t.tokens → ts ≠ t.tokens ++ rest

theorem stuck_nil : Stuck [] := by
  intro t rest _ h
  obtain ⟨token, back, htokens, -⟩ := head_tokens t
  rw [htokens] at h
  cases h

theorem stuck_close (ts : List Token) : Stuck (.close :: ts) := by
  intro t rest _ h
  obtain ⟨token, back, htokens, hne⟩ := head_tokens t
  rw [htokens, cons_append, cons.injEq] at h
  exact hne h.1.symm

/-- **Tokens are those of one list of trees**, if what follows the trees begins no other one. -/
theorem tokensAll_append_inj {trees trees' : List Tree} (hwords : OfWords (tokensAll trees))
    (hwords' : OfWords (tokensAll trees')) (hus : Stuck us) (hus' : Stuck us')
    (h : tokensAll trees ++ us = tokensAll trees' ++ us') : trees = trees' ∧ us = us' := by
  induction trees generalizing trees' with
  | nil =>
    cases trees' with
    | nil => exact ⟨rfl, h⟩
    | cons t rest =>
      rw [tokensAll, tokensAll, append_assoc] at h
      exact absurd h (hus t _ hwords'.append.1)
  | cons t trees ih =>
    cases trees' with
    | nil =>
      rw [tokensAll, tokensAll, append_assoc] at h
      exact absurd h.symm (hus' t _ hwords.append.1)
    | cons t' trees' =>
      rw [tokensAll, tokensAll, append_assoc, append_assoc] at h
      obtain ⟨rfl, hrest⟩ := tokens_append_inj h
      obtain ⟨rfl, rfl⟩ := ih hwords.append.2 hwords'.append.2 hrest
      exact ⟨rfl, rfl⟩

/-! ## §4. Finding the trees -/

/-- What closes the lists that are open, innermost first: the end of each and the rest of the list around
    it. -/
def closing : List (List Tree) → List Token
  | [] => []
  | items :: outer => .close :: (tokensAll items ++ closing outer)

/-- A condition on tokens that stand where so many lists are open, such that it passes from the first
    token to the rest. -/
structure Descends (C : Nat → List Token → Prop) : Prop where
  done : ∀ {d}, C d [] → d = 0
  opening : ∀ {d ts}, C d (.open :: ts) → C (d + 1) ts
  closing : ∀ {d ts}, C d (.close :: ts) → ∃ e, d = e + 1 ∧ C e ts
  word : ∀ {d cs ts}, C d (.word cs :: ts) → C d ts

/-- **Tokens that close what is open are those of trees.** -/
theorem Descends.exists_trees {C : Nat → List Token → Prop} (hC : Descends C) :
    ∀ {ts : List Token} {d : Nat}, C d ts →
      ∃ trees outer, outer.length = d ∧ ts = tokensAll trees ++ Tree.closing outer := by
  intro ts
  induction ts with
  | nil =>
    intro d h
    exact ⟨[], [], (hC.done h).symm, rfl⟩
  | cons token ts ih =>
    intro d h
    cases token with
    | «open» =>
      obtain ⟨items, outer, hlength, rfl⟩ := ih (hC.opening h)
      obtain ⟨trees, outer, rfl⟩ := exists_cons_of_length_eq_add_one hlength
      exact ⟨.list items :: trees, outer, Nat.succ.inj hlength,
        by simp [tokensAll, tokens, Tree.closing]⟩
    | close =>
      obtain ⟨e, rfl, he⟩ := hC.closing h
      obtain ⟨trees, outer, rfl, rfl⟩ := ih he
      exact ⟨[], trees :: outer, rfl, rfl⟩
    | word cs =>
      obtain ⟨trees, outer, rfl, rfl⟩ := ih (hC.word h)
      exact ⟨.word cs :: trees, outer, rfl, rfl⟩

theorem Descends.exists_tokensAll {C : Nat → List Token → Prop} (hC : Descends C) (h : C 0 ts) :
    ∃ trees, tokensAll trees = ts := by
  obtain ⟨trees, outer, hlength, rfl⟩ := hC.exists_trees h
  rw [length_eq_zero_iff] at hlength
  subst hlength
  exact ⟨trees, (append_nil _).symm⟩

end Tree

open Tree

/-! ## §5. The grammar -/

/-- The tokens are those of these trees, their runs are words, and where one expression is wanted there is
    one tree. -/
structure Grows (extent : Extent) (ts : List Token) (trees : List Tree) : Prop where
  tokens : tokensAll trees = ts
  words : OfWords ts
  single : extent = .one → ∃ t, trees = [t]

variable {extent : Extent}

namespace Grammar

theorem flaw_eq_none_iff {stop : Pos} {p : Progress} {ts : List Placed} :
    flaw extent stop p ts = none
      ↔ ∃ q, (ts.map (·.token)).foldlM (Progress.step? extent) p = some q
        ∧ q.mayEnd extent = true := by
  induction ts generalizing p with
  | nil => simp [flaw]
  | cons t ts ih =>
    simp only [flaw, map_cons, foldlM_cons]
    cases hstep : p.step? extent t.token with
    | none => simp
    | some q => simpa using ih

theorem isOver_eq_false {p : Progress} (h : extent = .many ∨ 0 < p.depth) :
    p.isOver extent = false := by
  rcases h with rfl | hdepth
  · simp [Progress.isOver]
  · simp [Progress.isOver, Nat.ne_of_gt hdepth]

mutual

/-- The grammar passes over a tree of words where an expression may begin. -/
theorem foldlM_tokens : ∀ (t : Tree) (p : Progress), OfWords t.tokens → p.isOver extent = false →
    t.tokens.foldlM (Progress.step? extent) p = some ⟨p.depth, true⟩
  | .word cs, p, hwords, hover => by
    simp [tokens, Progress.step?, hover, hwords cs mem_cons_self]
  | .list items, p, hwords, hover => by
    have hitems : OfWords (tokensAll items) := fun cs hcs => hwords cs (by simp [tokens, hcs])
    have hopen : p.step? extent .open = some ⟨p.depth + 1, true⟩ := by simp [Progress.step?, hover]
    rw [tokens, foldlM_cons, hopen]
    show (tokensAll items ++ [Token.close]).foldlM _ _ = _
    rw [foldlM_append, foldlM_tokensAll items ⟨p.depth + 1, true⟩ hitems (.inr (Nat.succ_pos _))]
    simp [Progress.step?, Progress.isOver]

/-- The grammar passes over trees of words inside of a list, or where there may be many. -/
theorem foldlM_tokensAll : ∀ (trees : List Tree) (p : Progress), OfWords (tokensAll trees) →
    (extent = .many ∨ 0 < p.depth) →
    (tokensAll trees).foldlM (Progress.step? extent) p = some ⟨p.depth, p.begun || !trees.isEmpty⟩
  | [], p, _, _ => by simp [tokensAll]
  | t :: rest, p, hwords, hopen => by
    rw [tokensAll, foldlM_append, foldlM_tokens t p hwords.append.1 (isOver_eq_false hopen)]
    show (tokensAll rest).foldlM _ _ = _
    rw [foldlM_tokensAll rest ⟨p.depth, true⟩ hwords.append.2 hopen]
    simp

end

variable {ts : List Token}

theorem foldlM_cons_eq_some {p q : Progress} {t : Token} :
    (t :: ts).foldlM (Progress.step? extent) p = some q
      ↔ ∃ p', p.step? extent t = some p' ∧ ts.foldlM (Progress.step? extent) p' = some q := by
  rw [foldlM_cons]
  exact Option.bind_eq_some_iff

/-- What the grammar passes over consists of words. -/
theorem ofWords_of_foldlM : ∀ {ts : List Token} {p q : Progress},
    ts.foldlM (Progress.step? extent) p = some q → OfWords ts := by
  intro ts
  induction ts with
  | nil => exact fun _ cs hcs => absurd hcs not_mem_nil
  | cons t ts ih =>
    intro p q h cs hcs
    obtain ⟨p', hstep, hrest⟩ := foldlM_cons_eq_some.mp h
    rcases mem_cons.mp hcs with rfl | hcs
    · unfold Progress.step? at hstep
      grind
    · exact ih hrest cs hcs

/-- The grammar passes over the tokens, from a place where so many lists are open to one where none is. -/
def Passes (extent : Extent) (d : Nat) (ts : List Token) : Prop :=
  ∃ begun q, ts.foldlM (Progress.step? extent) ⟨d, begun⟩ = some q ∧ q.depth = 0

theorem descends_passes : Descends (Passes extent) where
  done := by
    rintro d ⟨begun, q, h, hq⟩
    cases h
    exact hq
  opening := by
    rintro d ts ⟨begun, q, h, hq⟩
    obtain ⟨p, hstep, hrest⟩ := foldlM_cons_eq_some.mp h
    unfold Progress.step? at hstep
    split at hstep
    · cases hstep
    · cases hstep
      exact ⟨true, q, hrest, hq⟩
  closing := by
    rintro d ts ⟨begun, q, h, hq⟩
    obtain ⟨p, hstep, hrest⟩ := foldlM_cons_eq_some.mp h
    unfold Progress.step? at hstep
    split at hstep
    · cases hstep
    · dsimp only at hstep
      split at hstep
      · cases hstep
      · cases hstep
        exact ⟨d - 1, by omega, true, q, hrest, hq⟩
  word := by
    rintro d cs ts ⟨begun, q, h, hq⟩
    obtain ⟨p, hstep, hrest⟩ := foldlM_cons_eq_some.mp h
    unfold Progress.step? at hstep
    split at hstep
    · cases hstep
    · dsimp only at hstep
      split at hstep
      · cases hstep
        exact ⟨true, q, hrest, hq⟩
      · cases hstep

/-- Where one expression is wanted, nothing may follow the first one. -/
theorem foldlM_single {t : Tree} {us : List Token} (hwords : OfWords t.tokens) (hne : us ≠ []) :
    (t.tokens ++ us).foldlM (Progress.step? .one) ⟨0, false⟩ = none := by
  obtain ⟨token, rest, rfl⟩ := exists_cons_of_ne_nil hne
  rw [foldlM_append, foldlM_tokens t _ hwords rfl]
  rfl

/-- **The grammar finds no flaw exactly in the tokens of trees.** -/
theorem flaw_eq_none_iff_grows (stop : Pos) {ts : List Placed} :
    flaw extent stop ⟨0, false⟩ ts = none ↔ ∃ trees, Grows extent (ts.map (·.token)) trees := by
  rw [flaw_eq_none_iff]
  generalize ts.map (·.token) = ts
  constructor
  · rintro ⟨q, h, hend⟩
    simp only [Progress.mayEnd, Bool.and_eq_true, decide_eq_true_eq] at hend
    have hwords := ofWords_of_foldlM h
    have hpasses : Passes extent 0 ts := ⟨false, q, h, hend.1⟩
    obtain ⟨trees, rfl⟩ := descends_passes.exists_tokensAll hpasses
    refine ⟨trees, rfl, hwords, ?_⟩
    rintro rfl
    cases trees with
    | nil =>
      cases h
      simp at hend
    | cons t rest =>
      cases rest with
      | nil => exact ⟨t, rfl⟩
      | cons t' rest =>
        have hne : tokensAll (t' :: rest) ≠ [] := by
          intro hnil
          exact stuck_nil t' _ hwords.append.2.append.1 hnil.symm
        rw [tokensAll, foldlM_single hwords.append.1 hne] at h
        cases h
  · rintro ⟨trees, rfl, hwords, hsingle⟩
    cases extent with
    | many => exact ⟨_, foldlM_tokensAll trees _ hwords (.inl rfl), rfl⟩
    | one =>
      obtain ⟨t, rfl⟩ := hsingle rfl
      rw [tokensAll, tokensAll, append_nil] at hwords ⊢
      exact ⟨_, foldlM_tokens t ⟨0, false⟩ hwords rfl, rfl⟩

end Grammar

/-! ## §6. The reader -/

namespace Forest

theorem build_eq (forest : Forest) (ts : List Placed) :
    forest.build ts
      = (ts.map (·.token)).foldlM Forest.step forest >>= fun f => .ok f.done.reverse := by
  induction ts generalizing forest with
  | nil => rfl
  | cons t ts ih =>
    simp only [build, map_cons, foldlM_cons]
    cases forest.step t.token with
    | error e => rfl
    | ok f => exact ih f

mutual

/-- The tokens of a tree put its node on the forest. -/
theorem foldlM_tokens : ∀ (t : Tree) (forest : Forest),
    t.tokens.foldlM Forest.step forest
      = t.node >>= fun node => .ok ⟨node :: forest.done, forest.outer⟩
  | .word cs, forest => by
    rw [tokens, foldlM_cons, node, Forest.step]
    cases nodeOfWord cs <;> rfl
  | .list items, forest => by
    have hitems := foldlM_tokensAll items ⟨[], forest.done :: forest.outer⟩
    rw [tokens, node]
    show (tokensAll items ++ [Token.close]).foldlM Forest.step ⟨[], forest.done :: forest.outer⟩ = _
    rw [foldlM_append, hitems]
    cases nodes items with
    | error e => rfl
    | ok ns =>
      show Except.ok (Forest.mk (.list (ns.reverse ++ []).reverse :: forest.done) forest.outer) = _
      rw [append_nil, reverse_reverse]
      rfl

/-- The tokens of trees put their nodes on the forest, the last one on top. -/
theorem foldlM_tokensAll : ∀ (trees : List Tree) (forest : Forest),
    (tokensAll trees).foldlM Forest.step forest
      = nodes trees >>= fun ns => .ok ⟨ns.reverse ++ forest.done, forest.outer⟩
  | [], forest => rfl
  | t :: rest, forest => by
    rw [tokensAll, foldlM_append, foldlM_tokens t forest, nodes]
    cases t.node with
    | error e => rfl
    | ok n =>
      show (tokensAll rest).foldlM Forest.step ⟨n :: forest.done, forest.outer⟩ = _
      rw [foldlM_tokensAll rest]
      cases nodes rest with
      | error e => rfl
      | ok ns =>
        show Except.ok _ = Except.ok _
        rw [reverse_cons, append_assoc]
        rfl

end

end Forest

variable {text : String} {ts : List Token}

/-- **The reader gives the nodes of the trees** whose tokens a text is cut into. -/
theorem readNodes_of_grows {trees : List Tree} (hts : Cuts text.toList ts)
    (h : Grows extent ts trees) : readNodes extent text = nodes trees := by
  rw [cuts_iff] at hts
  subst hts
  have hflaw := (Grammar.flaw_eq_none_iff_grows (Pos.start.after text.toList)).mpr ⟨trees, h⟩
  simp only [readNodes, hflaw]
  rw [Forest.build_eq, ← h.tokens, Forest.foldlM_tokensAll]
  cases nodes trees with
  | error e => rfl
  | ok ns =>
    show Except.ok (ns.reverse ++ []).reverse = _
    rw [append_nil, reverse_reverse]

/-- A text that is not cut into the tokens of trees is reported as that. -/
theorem readNodes_of_not_grows (hts : Cuts text.toList ts) (h : ¬ ∃ trees, Grows extent ts trees) :
    ∃ pos, readNodes extent text = .error (.grammar pos) := by
  rw [cuts_iff] at hts
  subst hts
  rw [← Grammar.flaw_eq_none_iff_grows (Pos.start.after text.toList)] at h
  obtain ⟨pos, hpos⟩ := Option.ne_none_iff_exists'.mp h
  exact ⟨pos, by simp only [readNodes, hpos]⟩

/-- Nodes that were read are those of trees. -/
theorem exists_trees_of_readNodes {ns : List Node} (h : readNodes extent text = .ok ns) :
    ∃ trees, Cuts text.toList (tokensAll trees) ∧ nodes trees = .ok ns := by
  obtain ⟨ts, hts⟩ := exists_cuts text.toList
  by_cases hgrows : ∃ trees, Grows extent ts trees
  · obtain ⟨trees, hgrows⟩ := hgrows
    rw [readNodes_of_grows hts hgrows] at h
    exact ⟨trees, hgrows.tokens.symm ▸ hts, h⟩
  · obtain ⟨pos, hpos⟩ := readNodes_of_not_grows hts hgrows
    rw [hpos] at h
    cases h

/-! ## §7. Errors -/

/-- The error of a result. -/
def errorOf? {α : Type} : Except SexpError α → Option SexpError
  | .ok _ => none
  | .error e => some e

/-- The error of a run, if it is a number out of range. -/
def Token.error? : Token → Option SexpError
  | .word cs => errorOf? (nodeOfWord cs)
  | _ => none

mutual

/-- The error of a tree is that of its leftmost run that has one. -/
theorem errorOf?_node : ∀ t : Tree, errorOf? t.node = t.tokens.findSome? Token.error?
  | .word cs => by
    rw [tokens, findSome?_cons, Token.error?, node]
    cases nodeOfWord cs <;> rfl
  | .list items => by
    rw [tokens, findSome?_cons, findSome?_append, ← errorOf?_nodes items, node]
    cases nodes items <;> rfl

theorem errorOf?_nodes : ∀ trees : List Tree,
    errorOf? (nodes trees) = (tokensAll trees).findSome? Token.error?
  | [] => rfl
  | t :: rest => by
    rw [tokensAll, findSome?_append, ← errorOf?_node t, ← errorOf?_nodes rest, nodes]
    cases t.node with
    | error e => rfl
    | ok n => cases nodes rest <;> rfl

end

theorem eq_ok_iff_errorOf? {α : Type} {x : Except SexpError α} :
    (∃ a, x = .ok a) ↔ errorOf? x = none := by
  cases x <;> simp [errorOf?]

theorem eq_error_iff_errorOf? {α : Type} {x : Except SexpError α} {e : SexpError} :
    x = .error e ↔ errorOf? x = some e := by
  cases x <;> simp [errorOf?]

/-- Where trees have nodes, every run has one. -/
theorem nodeOfWord_of_nodes {trees : List Tree} {ns : List Node} (h : nodes trees = .ok ns)
    {cs : List Char} (hcs : .word cs ∈ tokensAll trees) : ∃ n, nodeOfWord cs = .ok n := by
  have hnone := eq_ok_iff_errorOf?.mp ⟨ns, h⟩
  rw [errorOf?_nodes, findSome?_eq_none_iff] at hnone
  exact eq_ok_iff_errorOf?.mpr (hnone _ hcs)

theorem Tree.OfWords.of_nodes {trees : List Tree} {ns : List Node} (h : nodes trees = .ok ns) :
    OfWords (tokensAll trees) := by
  intro cs hcs
  obtain ⟨n, hn⟩ := nodeOfWord_of_nodes h hcs
  cases hword : Word.ofChars? cs with
  | none => simp [nodeOfWord, hword] at hn
  | some w => rfl

end Shading
