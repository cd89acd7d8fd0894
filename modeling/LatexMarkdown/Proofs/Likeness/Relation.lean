import LatexMarkdown.Proofs.RawBodies
import LatexMarkdown.Proofs.Running
/-!
  Two readings that are alike.

  A `Likeness` compares the reading of one token list with that of another.  Either the tokens
  correspond one to one, or the second list is the first one without its comments and the line
  breaks right behind them (`Likeness.thin`); in both cases `Likeness.Pairs` relates what is left of
  the two lists.  What is made of the tokens is compared by relations of the likeness's own, which
  have to be kept by whatever a reader does with texts, fragments, blocks and tables.  Failures are
  not compared: `Agree` says that both readings succeed, or both fail.
-/
theorem Option.Rel.map {α β α' β' : Type} {r : α → β → Prop} {q : α' → β' → Prop} {x : Option α}
    {y : Option β} {f : α → α'} {g : β → β'} (h : Option.Rel r x y)
    (hfg : ∀ a b, r a b → q (f a) (g b)) : Option.Rel q (x.map f) (y.map g) := by
  cases h with
  | some h => exact .some (hfg _ _ h)
  | none => exact .none

theorem Option.Rel.mono {α β : Type} {r q : α → β → Prop} {x : Option α} {y : Option β}
    (h : Option.Rel r x y) (hrq : ∀ a b, r a b → q a b) : Option.Rel q x y := by
  cases h with
  | some h => exact .some (hrq _ _ h)
  | none => exact .none

/-- As `map`, where the second value stays what it is. -/
theorem Option.Rel.map_left {α β α' : Type} {r : α → β → Prop} {q : α' → β → Prop} {x : Option α}
    {y : Option β} {f : α → α'} (h : Option.Rel r x y) (hf : ∀ a b, r a b → q (f a) b) :
    Option.Rel q (x.map f) y := by
  cases h with
  | some h => exact .some (hf _ _ h)
  | none => exact .none

namespace LatexMarkdown

/-- May an argument stand behind the token? -/
def Token.mayTake (t : Token) : Bool :=
  match t.kind with
  | .command | .envBegin | .lineBreak | .groupClose | .bracketClose => true
  | _ => false

namespace Parse

/-! ## Results -/

/-- Two results that both are values, and related, or both are failures. -/
inductive Agree {α β : Type} (r : α → β → Prop) : Except Failure α → Except Failure β → Prop
  | ok {a : α} {b : β} (h : r a b) : Agree r (.ok a) (.ok b)
  | error (e e' : Failure) : Agree r (.error e) (.error e')

namespace Agree

variable {α β α' β' : Type} {r : α → β → Prop} {q : α' → β' → Prop}

theorem mono {p : α → β → Prop} {x : Except Failure α} {y : Except Failure β} (h : Agree r x y)
    (hrp : ∀ a b, r a b → p a b) : Agree p x y := by
  cases h with
  | ok h => exact .ok (hrp _ _ h)
  | error e e' => exact .error e e'

theorem bind {x : Except Failure α} {y : Except Failure β} {f : α → Except Failure α'}
    {g : β → Except Failure β'} (h : Agree r x y) (hfg : ∀ a b, r a b → Agree q (f a) (g b)) :
    Agree q (x >>= f) (y >>= g) := by
  cases h with
  | ok h => exact hfg _ _ h
  | error e e' => exact .error e e'

theorem exists_ok_iff {x : Except Failure α} {y : Except Failure β} (h : Agree r x y) :
    (∃ a, x = .ok a) ↔ ∃ b, y = .ok b := by
  cases h <;> simp

/-- As `bind`, where what the first computation answers with is known. -/
theorem bind_of {x : Except Failure α} {y : Except Failure β} {f : α → Except Failure α'}
    {g : β → Except Failure β'} (h : Agree r x y)
    (hfg : ∀ a b, x = .ok a → r a b → Agree q (f a) (g b)) : Agree q (x >>= f) (y >>= g) := by
  cases h with
  | ok h => exact hfg _ _ rfl h
  | error e e' => exact .error e e'

theorem map {x : Except Failure α} {y : Except Failure β} {f : α → α'} {g : β → β'}
    (h : Agree r x y) (hfg : ∀ a b, r a b → q (f a) (g b)) : Agree q (f <$> x) (g <$> y) := by
  cases h with
  | ok h => exact .ok (hfg _ _ h)
  | error e e' => exact .error e e'

/-- As `map`, where the second value stays what it is. -/
theorem map_left {p : α' → β → Prop} {x : Except Failure α} {y : Except Failure β} {f : α → α'}
    (h : Agree r x y) (hf : ∀ a b, r a b → p (f a) b) : Agree p (f <$> x) y := by
  cases h with
  | ok h => exact .ok (hf _ _ h)
  | error e e' => exact .error e e'

end Agree

/-! ## What is compared -/

/-- How two uses of an argument compare, given how texts do. -/
inductive Purpose.Alike (text : Text → Text → Prop) : Purpose → Purpose → Prop
  | styled (command command' : Marker) (style : InlineStyle) :
      Purpose.Alike text (.styled command style) (.styled command' style)
  | linkText (command command' : Marker) {url url' : Text} (h : text url url') :
      Purpose.Alike text (.linkText command url) (.linkText command' url')
  | spanning : Purpose.Alike text .spanning .spanning

/-- How many columns a count of columns stands for. -/
def columnSpan (count : Text) : Nat :=
  max 1 (((Number.leadingInt? count).bind fun n => (Number.ofInt n).toInt?).getD 1).toNat

/-- How the readings of two token lists compare: the settings and sources that they are made under,
whether the second list lacks the comments of the first and whether counts of columns have none, and
what relates the texts, the inline content and the blocks that they come to.  What a single token says
may be related more closely (`exact`) than what is taken as it is spelled, and the nodes that are added
to inline content are related before the content is (`pushed`).  The other fields say that reading
keeps these relations. -/
structure Likeness where
  ctx : Context
  ctx' : Context
  thin : Prop
  counts : Prop
  exact : Text → Text → Prop
  text : Text → Text → Prop
  pushed : List Inline → List Inline → Prop
  inlines : List Inline → List Inline → Prop
  fragments : Fragments → Fragments → Prop
  blocks : List Block → List Block → Prop
  items : List ListItem → List ListItem → Prop
  cells : List TableCell → List TableCell → Prop
  rows : List TableRow → List TableRow → Prop
  count : Nat → Nat → Prop
  offset_eq : ctx'.settings.headingLevelOffset = ctx.settings.headingLevelOffset
  exact_unbroken : ∀ {t : Text}, (∀ u ∈ t, CodeUnit.isLineBreak u = false) → exact t t
  exact_append : ∀ {s s' t t' : Text}, exact s s' → exact t t' → exact (s ++ t) (s' ++ t')
  text_of_exact : ∀ {t t' : Text}, exact t t' → text t t'
  text_append : ∀ {s s' t t' : Text}, text s s' → text t t' → text (s ++ t) (s' ++ t')
  text_trim : ∀ {t t' : Text}, text t t' → text t.trim t'.trim
  pushed_append : ∀ {ns ns' ms ms'}, pushed ns ns' → pushed ms ms' → pushed (ns ++ ms) (ns' ++ ms')
  pushed_mathSpan : ∀ (a b a' b') {t t'}, text t t' → pushed (mathSpan a b t) (mathSpan a' b' t')
  pushed_hardBreak : ∀ a b a' b', pushed [.hardBreak (.span a b)] [.hardBreak (.span a' b')]
  pushed_code : ∀ (a b a' b') {t t'}, exact t t' →
    pushed [.code (.span a b) t] [.code (.span a' b') t']
  pushed_url : ∀ (a b a' b') {t t'}, text t t' → pushed [.link (.span a b) t [.text (.span a b) t]]
    [.link (.span a' b') t' [.text (.span a' b') t']]
  inlines_nil : inlines [] []
  fragments_nil : fragments {} {}
  fragments_pushText : ∀ (a b a' b') {f f' t t'}, fragments f f' → exact t t' →
    fragments (f.pushText a b t) (f'.pushText a' b' t')
  fragments_foldl : ∀ {f f' ns ns'}, fragments f f' → pushed ns ns' →
    fragments (ns.foldl Fragments.push f) (ns'.foldl Fragments.push f')
  fragments_close : ∀ (stop stop') {p p' f f' o o'}, Purpose.Alike text p p' → fragments f f' →
    fragments o o' → fragments (State.closeArgument p f stop o) (State.closeArgument p' f' stop' o')
  inlines_finish : ∀ {f f'}, fragments f f' → inlines f.finish f'.finish
  blocks_nil : blocks [] []
  blocks_append : ∀ {bs bs' cs cs'}, blocks bs bs' → blocks cs cs' → blocks (bs ++ cs) (bs' ++ cs')
  blocks_paragraph : ∀ (a b a' b') {ns ns'}, inlines ns ns' →
    blocks (if ns.isEmpty then [] else [.paragraph (.span a b) ns])
      (if ns'.isEmpty then [] else [.paragraph (.span a' b') ns'])
  blocks_heading : ∀ (flags a b a' b' level) {ns ns'}, inlines ns ns' →
    blocks [.heading ⟨flags, a, b⟩ level ns] [.heading ⟨flags, a', b'⟩ level ns']
  blocks_quote : ∀ (a b a' b') {bs bs'}, blocks bs bs' →
    blocks [.quote (.span a b) bs.reverse] [.quote (.span a' b') bs'.reverse]
  blocks_list : ∀ (a b a' b' ordered) {l l'}, items l l' →
    blocks [.list (.span a b) ordered l.reverse] [.list (.span a' b') ordered l'.reverse]
  blocks_code : ∀ (a b a' b' name) {t t'}, exact t t' →
    blocks [.code (.span a b) (CodeBody.ofBody name t).text (CodeBody.ofBody name t).language]
      [.code (.span a' b') (CodeBody.ofBody name t').text (CodeBody.ofBody name t').language]
  blocks_math : ∀ (a b a' b' environment) {t t'}, text t t' →
    blocks [.math (.span a b) t environment] [.math (.span a' b') t' environment]
  blocks_displayMath : ∀ (a b a' b') {t t' : Text}, text t.trim t' →
    blocks (if t.trim = [] then [] else [.math (.span a b) t.trim none])
      (if t' = [] then [] else [.math (.span a' b') t' none])
  blocks_table : ∀ (a b a' b') {l l'}, rows l l' →
    blocks [.table (.span a b) l.reverse] [.table (.span a' b') l'.reverse]
  items_nil : items [] []
  items_finish : ∀ (s s' : State) {e e' : OpenEnvironment} {l l' : OpenList},
    blocks e.blocks e'.blocks → items l.items l'.items → inlines l.item.label l'.item.label →
    l'.item.implicit = l.item.implicit → items (s.finishItem e l).2 (s'.finishItem e' l').2
  cells_nil : cells [] []
  cells_finish : ∀ (s s' : State) {t t' : OpenTable} {f f'}, cells t.cells t'.cells →
    count t.span t'.span → fragments f f' → cells (s.finishCell t f).cells (s'.finishCell t' f').cells
  rows_nil : rows [] []
  rows_finish : ∀ (s s' : State) {t t' : OpenTable}, rows t.rows t'.rows → cells t.cells t'.cells →
    rows (s.finishRow t).rows (s'.finishRow t').rows
  count_refl : ∀ n, count n n
  count_text : ∀ {t t'}, text t t' → (thin ∧ counts → exact t t') → count (columnSpan t) (columnSpan t')

namespace Likeness

variable {R : Likeness} {t t' : Token} {l l' : List Token} {behind : Bool}

/-! ## Tokens -/

/-- Two tokens that are read alike.  Only line breaks and raw text may be spelled differently. -/
structure Same (R : Likeness) (t t' : Token) : Prop where
  kind : t'.kind = t.kind
  blankLine : t'.flags.blankLine = t.flags.blankLine
  escaped : t'.flags.escaped = t.flags.escaped
  name : t.kind ≠ .newLine → t.kind ≠ .rawText → t'.text = t.text
  text : R.exact t.text t'.text
  spelling : R.exact (R.ctx.source.spelling t) (R.ctx'.source.spelling t')

namespace Same

theorem isBlankLine (h : R.Same t t') : t'.isBlankLine = t.isBlankLine := by
  rw [Token.isBlankLine, Token.isBlankLine, h.kind, h.blankLine]

theorem isBlankText (h : R.Same t t') : t'.isBlankText = t.isBlankText := by
  rw [Token.isBlankText, Token.isBlankText, h.kind]
  cases hk : t.kind == .text with
  | false => rfl
  | true =>
    have hk := eq_of_beq hk
    rw [h.name (by rw [hk]; decide) (by rw [hk]; decide)]

theorem isSpacing (h : R.Same t t') : t'.isSpacing = t.isSpacing := by
  rw [Token.isSpacing, Token.isSpacing, h.kind, h.isBlankText]

theorem isArgumentSpacing (h : R.Same t t') : t'.isArgumentSpacing = t.isArgumentSpacing := by
  rw [Token.isArgumentSpacing, Token.isArgumentSpacing, h.kind, h.isBlankText, h.isBlankLine]

theorem isCommand (h : R.Same t t') (name : Text) : t'.isCommand name = t.isCommand name := by
  rw [Token.isCommand, Token.isCommand, h.kind]
  cases hk : t.kind == .command with
  | false => rfl
  | true =>
    have hk := eq_of_beq hk
    rw [h.name (by rw [hk]; decide) (by rw [hk]; decide)]

theorem opensDisplay (h : R.Same t t') : opensDisplay t' = opensDisplay t := by
  rw [Parse.opensDisplay, Parse.opensDisplay, h.kind]
  cases hk : t.kind == .mathDisplay with
  | false => rfl
  | true =>
    have hk := eq_of_beq hk
    rw [h.name (by rw [hk]; decide) (by rw [hk]; decide)]

theorem raw (h : R.Same t t') : R.exact (R.ctx.source.raw t) (R.ctx'.source.raw t') := by
  rw [Source.raw, Source.raw, h.kind]
  split
  · exact R.exact_unbroken (by simp)
  · exact h.spelling

end Same

theorem exact_nil (R : Likeness) : R.exact [] [] := R.exact_unbroken (by simp)

theorem text_nil (R : Likeness) : R.text [] [] := R.text_of_exact R.exact_nil

/-! ## Token lists -/

/-- What is left of two token lists, their last tokens excluded, that are read alike.  `behind` says
that the token before the first list is a comment, the line break of which the second one lacks; where
the first one is taken as it is spelled, the line break is more than nothing. -/
inductive Pairs (R : Likeness) : Bool → List Token → List Token → Prop
  | nil (behind : Bool) : Pairs R behind [] []
  | same {t t' : Token} {l l' : List Token} (h : R.Same t t') (hend : t.kind ≠ .endOfFile)
      (hcomment : R.thin → t.kind ≠ .comment) (hrest : Pairs R false l l') :
      Pairs R false (t :: l) (t' :: l')
  | comment {t : Token} {l l' : List Token} (hthin : R.thin) (hk : t.kind = .comment)
      (hrest : Pairs R true l l') : Pairs R false (t :: l) l'
  | lineBreak {t : Token} {l l' : List Token} (hthin : R.thin) (hk : t.kind = .newLine)
      (hblank : t.isBlankLine = false) (hspelling : R.text (R.ctx.source.spelling t) [])
      (hrest : Pairs R false l l') : Pairs R true (t :: l) l'

/-- Lists that are alike hold no end of file. -/
theorem Pairs.kind_ne_endOfFile (h : R.Pairs behind l l') :
    (∀ t ∈ l, t.kind ≠ .endOfFile) ∧ ∀ t ∈ l', t.kind ≠ .endOfFile := by
  induction h with
  | nil => simp
  | same h hend _ _ ih =>
    exact ⟨List.forall_mem_cons.mpr ⟨hend, ih.1⟩,
      List.forall_mem_cons.mpr ⟨by rw [h.kind]; exact hend, ih.2⟩⟩
  | comment _ hk _ ih => exact ⟨List.forall_mem_cons.mpr ⟨by rw [hk]; decide, ih.1⟩, ih.2⟩
  | lineBreak _ hk _ _ _ ih => exact ⟨List.forall_mem_cons.mpr ⟨by rw [hk]; decide, ih.1⟩, ih.2⟩

/-- Lists that both are empty, or begin with the same token. -/
def Meets (R : Likeness) (l l' : List Token) : Prop :=
  (l = [] ∧ l' = []) ∨ ∃ t t' k k', l = t :: k ∧ l' = t' :: k' ∧ R.Same t t' ∧
    t.kind ≠ .endOfFile ∧ (R.thin → t.kind ≠ .comment) ∧ R.Pairs false k k'

theorem Meets.pairs (h : R.Meets l l') : R.Pairs false l l' := by
  obtain ⟨rfl, rfl⟩ | ⟨t, t', k, k', rfl, rfl, hs, hend, hcomment, hrest⟩ := h
  · exact .nil false
  · exact .same hs hend hcomment hrest

/-- Where nothing is left out, lists that are alike always begin with the same token. -/
theorem Pairs.meets (hthin : ¬ R.thin) (h : R.Pairs behind l l') : R.Meets l l' := by
  cases h with
  | nil => exact .inl ⟨rfl, rfl⟩
  | same hs hend hcomment hrest => exact .inr ⟨_, _, _, _, rfl, rfl, hs, hend, hcomment, hrest⟩
  | comment hthin' => exact absurd hthin' hthin
  | lineBreak hthin' => exact absurd hthin' hthin

end Likeness

/-! ## Comments before arguments -/

/-- Does an opening brace or bracket come next, behind a comment?  Space may stand between, `seen`
says that a comment was passed. -/
def opensBehindComment (seen : Bool) : List Token → Bool
  | [] => false
  | t :: rest =>
    if t.kind = .comment then opensBehindComment true rest
    else if t.isArgumentSpacing then opensBehindComment seen rest
    else seen && (t.kind == .groupOpen || t.kind == .bracketOpen)

/-- No comment stands between a token that may take an argument and an opening brace or bracket. -/
def Apart : List Token → Prop
  | [] => True
  | t :: rest => (t.mayTake = true → opensBehindComment false rest = false) ∧ Apart rest

instance Apart.decidable : DecidablePred Apart
  | [] => isTrue trivial
  | _ :: rest =>
    have := decidable rest
    inferInstanceAs (Decidable (_ ∧ _))

theorem Apart.of_append {l rest : List Token} (h : Apart (l ++ rest)) : Apart rest := by
  induction l with
  | nil => exact h
  | cons t l ih => exact ih h.2

theorem opensBehindComment_append_end (seen : Bool) (l : List Token) {last : Token}
    (hk : last.kind = .endOfFile) :
    opensBehindComment seen (l ++ [last]) = opensBehindComment seen l := by
  induction l generalizing seen with
  | nil =>
    have hspacing : last.isArgumentSpacing = false := by
      simp [Token.isArgumentSpacing, Token.isBlankText, hk]
    simp [opensBehindComment, hk, hspacing]
  | cons t l ih => simp only [List.cons_append, opensBehindComment, ih]

/-! ## Comments in counts of columns -/

/-- Does a comment stand in the rest of a group?  `depth` counts the groups that are open in it. -/
def groupCommented (depth : Nat) : List Token → Bool
  | [] => false
  | t :: rest =>
    match t.kind, depth with
    | .comment, _ => true
    | .groupOpen, depth => groupCommented (depth + 1) rest
    | .groupClose, 0 => false
    | .groupClose, depth + 1 => groupCommented depth rest
    | _, depth => groupCommented depth rest

/-- No comment stands in the group that comes next. -/
def GroupWhole (l : List Token) : Prop :=
  groupCommented 0 (l.dropWhile Token.isArgumentSpacing).tail = false

/-- No comment stands in the count of columns that a spanning cell begins with. -/
def CountsWhole : List Token → Prop
  | [] => True
  | t :: rest => (t.isCommand "multicolumn" = true → GroupWhole rest) ∧ CountsWhole rest

instance CountsWhole.decidable : DecidablePred CountsWhole
  | [] => isTrue trivial
  | _ :: rest =>
    have := decidable rest
    have : Decidable (GroupWhole rest) := inferInstanceAs (Decidable (_ = _))
    inferInstanceAs (Decidable (_ ∧ _))

theorem CountsWhole.of_append {l rest : List Token} (h : CountsWhole (l ++ rest)) :
    CountsWhole rest := by
  induction l with
  | nil => exact h
  | cons t l ih => exact ih h.2

/-- What comes behind a list makes no comment in it. -/
theorem groupCommented_of_append {depth : Nat} {l rest : List Token}
    (h : groupCommented depth (l ++ rest) = false) : groupCommented depth l = false := by
  induction l generalizing depth with
  | nil => rfl
  | cons t l ih =>
    rw [List.cons_append] at h
    unfold groupCommented at h ⊢
    split at h
    · cases h
    · exact ih h
    · rfl
    · exact ih h
    · exact ih h

/-! ## Tame lists -/

/-- Raw text stands right behind a command or a begin marker. -/
def RawPlaced : List Token → Prop
  | [] => True
  | t :: rest =>
    (∀ r ∈ rest.head?, r.kind = .rawText → t.kind = .command ∨ t.kind = .envBegin) ∧ RawPlaced rest

theorem RawPlaced.of_append {l rest : List Token} (h : RawPlaced (l ++ rest)) : RawPlaced rest := by
  induction l with
  | nil => exact h
  | cons t l ih => exact ih h.2

/-- What is known of the tokens of a text in which no comment stands before an argument, and none in a
count of columns where that is asked for. -/
structure Tame (counts : Prop) (l : List Token) : Prop where
  apart : Apart l
  framed : Framed l
  raw : RawPlaced l
  whole : counts → CountsWhole l

theorem Tame.of_append {counts : Prop} {l rest : List Token} (h : Tame counts (l ++ rest)) :
    Tame counts rest :=
  ⟨h.apart.of_append, h.framed.of_append, h.raw.of_append, fun hcounts =>
    (h.whole hcounts).of_append⟩

end Parse

end LatexMarkdown
