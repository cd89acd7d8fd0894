import LatexMarkdown.Proofs.Facing
import LatexMarkdown.Proofs.Tabular.Source
import LatexMarkdown.Proofs.Unbroken.Pieces
/-!
  Reading what stands in a table.

  Arguments that are taken as they are spelled are known from the source (`readGroup_braced`).  Inside
  a cell nothing but text is gathered, so what a cell holds is a text, known up to space (`Holds`):
  words and line feeds add themselves to it, a rule adds the line feed behind it, and an unknown
  command adds its own spelling.
-/
namespace LatexMarkdown

open Parse (State Context Surround OpenInline OpenTable Faces Meets Failure nestingLimit)
open Parse.State (Leads)

namespace Tabular

variable {ctx : Context} {m : LineMark} {s : State} {i : OpenInline} {c c' c'' : Cursor}
  {f : Fragments} {shown rest : Text}

/-! ## Groups taken as they are spelled -/

/-- Between the cursors a group has this text; its braces lead from one depth to the other. -/
def Passes (ctx : Context) (depth depth' : Nat) (c c' : Cursor) (t : Text) : Prop :=
  ∃ n, c' = c.advanceBy n ∧ Parse.groupText? ctx.source depth c.ahead
    = (Parse.groupText? ctx.source depth' c'.ahead).map fun r => (t ++ r.1, r.2 + n)

theorem Passes.refl (depth : Nat) (c : Cursor) : Passes ctx depth depth c c [] := by
  refine ⟨0, rfl, ?_⟩
  cases Parse.groupText? ctx.source depth c.ahead <;> rfl

theorem Passes.trans {depth depth' depth'' : Nat} {t t' : Text} (h : Passes ctx depth depth' c c' t)
    (h' : Passes ctx depth' depth'' c' c'' t') : Passes ctx depth depth'' c c'' (t ++ t') := by
  obtain ⟨n, rfl, heq⟩ := h
  obtain ⟨n', rfl, heq'⟩ := h'
  refine ⟨n + n', (Cursor.advanceBy_add c n n').symm, ?_⟩
  rw [heq, heq', Option.map_map]
  congr 1
  funext r
  simp only [Function.comp_apply, List.append_assoc]
  congr 1
  omega

/-- Behind the current token the cursor has the rest of the list. -/
theorem ahead_advance {x : Lexeme} {span : Text} (h : Meets ctx m x span rest c)
    (hk : x.kind ≠ .endOfFile) : c.advance.ahead = c.ahead.tail :=
  Cursor.ahead_advance h.ahead (by rwa [h.kind])

theorem passes_text {x : Lexeme} {span : Text} (h : Meets ctx m x span rest c)
    (hk : x.kind = .text) (ht : x.text = span) (depth : Nat) :
    Passes ctx depth depth c c.advance span := by
  have hkind := h.kind.trans hk
  have hpiece : (if c.current.kind = .text ∧ c.current.flags.escaped then c.current.text
      else ctx.source.raw c.current) = span := by
    split
    · exact h.text.trans ht
    · rw [Parse.Source.raw, if_neg (by simp [hkind]), h.spelling]
  refine ⟨1, rfl, ?_⟩
  rw [h.ahead, Parse.groupText?.eq_def, ahead_advance h (by simp [hk])]
  simp only [hpiece]
  simp only [hkind]

theorem passes_groupOpen (h : Faces ctx m c (0x7B :: rest)) (depth : Nat) :
    Passes ctx depth (depth + 1) c c.advance [0x7B] := by
  have hmeets := h.single .groupOpen rfl
  have hraw : ctx.source.raw c.current = [0x7B] := by
    rw [Parse.Source.raw, if_neg (by simp [hmeets.kind]), hmeets.spelling]
  refine ⟨1, rfl, ?_⟩
  rw [hmeets.ahead, Parse.groupText?.eq_def, ahead_advance hmeets (by simp)]
  simp [hmeets.kind, hraw]

theorem passes_groupClose (h : Faces ctx m c (0x7D :: rest)) (depth : Nat) :
    Passes ctx (depth + 1) depth c c.advance [0x7D] := by
  have hmeets := h.single .groupClose rfl
  have hraw : ctx.source.raw c.current = [0x7D] := by
    rw [Parse.Source.raw, if_neg (by simp [hmeets.kind]), hmeets.spelling]
  refine ⟨1, rfl, ?_⟩
  rw [hmeets.ahead, Parse.groupText?, ahead_advance hmeets (by simp)]
  simp [hmeets.kind, hraw]

/-- A run of plain units, which may be empty. -/
theorem passes_run {run : Text} (hrun : ∀ u ∈ run, CodeUnit.isPlain u = true)
    (hrest : ∀ u ∈ rest.head?, CodeUnit.isPlain u = false) (h : Faces ctx m c (run ++ rest))
    (depth : Nat) : ∃ c' m', Passes ctx depth depth c c' run ∧ Faces ctx m' c' rest := by
  by_cases hne : run = []
  · subst hne
    exact ⟨c, m, .refl depth c, h⟩
  · have hmeets := h.run hne hrun hrest
    exact ⟨c.advance, _, passes_text hmeets rfl rfl depth, hmeets.faces⟩

theorem passes_braced (b : Braced) (hrest : ∀ u ∈ rest.head?, CodeUnit.isPlain u = false)
    (h : Faces ctx m c (b.print ++ rest)) (depth : Nat) :
    ∃ c' m', Passes ctx depth depth c c' b.print ∧ Faces ctx m' c' rest := by
  induction b generalizing m c rest depth with
  | plain run units => exact passes_run units hrest h depth
  | group run units inner after ihinner ihafter =>
    rw [Braced.print, List.append_assoc, List.cons_append, List.append_assoc,
      List.cons_append] at h
    obtain ⟨c₁, m₁, hrun, hopen⟩ := passes_run units (Lexeme.forall_mem_head?_cons (by decide) _) h depth
    have hbrace := hopen.single .groupOpen rfl
    obtain ⟨c₂, m₂, hinner, hclose⟩ := ihinner (Lexeme.forall_mem_head?_cons (by decide) _) hbrace.faces (depth + 1)
    have hbrace' := hclose.single .groupClose rfl
    obtain ⟨c₃, m₃, hafter, hfaces⟩ := ihafter hrest hbrace'.faces depth
    have hall := hrun.trans ((passes_groupOpen hopen depth).trans
      (hinner.trans ((passes_groupClose hclose depth).trans hafter)))
    exact ⟨c₃, m₃, hall, hfaces⟩

/-- An argument is read to its closing brace as it is spelled. -/
theorem readGroup_braced (b : Braced) (h : Faces ctx m c (inBraces b.print ++ rest)) (owner : Marker)
    (flaw : Flaw) : ∃ c' m', Parse.readGroup ctx.source owner flaw c = .ok (b.print, c') ∧
      Faces ctx m' c' rest := by
  rw [inBraces, List.cons_append, List.append_assoc, List.singleton_append] at h
  have hopen := h.single .groupOpen rfl
  obtain ⟨c', m', ⟨n, rfl, hpass⟩, hfaces⟩ :=
    passes_braced b (Lexeme.forall_mem_head?_cons (by decide) _) hopen.faces 0
  have hclose := hfaces.single .groupClose rfl
  have hlast : Parse.groupText? ctx.source 0 (c.advance.advanceBy n).ahead = some ([], 1) := by
    rw [hclose.ahead, Parse.groupText?]
    simp [hclose.kind]
  have htext : Parse.groupText? ctx.source 0 c.ahead.tail = some (b.print, 1 + n) := by
    rw [← ahead_advance hopen (by simp), hpass, hlast, Option.map_some, List.append_nil]
  have hcursor : c.advanceBy (1 + n + 1) = (c.advance.advanceBy n).advance := by
    rw [Cursor.advanceBy_add, Cursor.advanceBy_add]
    rfl
  refine ⟨(c.advance.advanceBy n).advance, _, ?_, hclose.faces⟩
  rw [Parse.readGroup, Parse.startGroup_of_groupOpen hopen.kind, ← hcursor]
  simp only [bind, Except.bind, htext]
  rfl

/-- An argument of plain units. -/
theorem readGroup_plain {t : Text} (ht : ∀ u ∈ t, CodeUnit.isPlain u = true)
    (h : Faces ctx m c (inBraces t ++ rest)) (owner : Marker) (flaw : Flaw) :
    ∃ c' m', Parse.readGroup ctx.source owner flaw c = .ok (t, c') ∧ Faces ctx m' c' rest :=
  readGroup_braced (.plain t ht) h owner flaw

/-! ## What a cell holds -/

/-- The cursor stands before the text; nothing but text was gathered, those characters up to
space. -/
structure Holds (ctx : Context) (c : Cursor) (f : Fragments) (shown t : Text) : Prop where
  faces : ∃ m, Faces ctx m c t
  nodes : f.nodes = []
  chars : f.chars.collapsed = shown.collapsed

theorem holds_empty {t : Text} (h : Faces ctx m c t) : Holds ctx c {} [] t := ⟨⟨m, h⟩, rfl, rfl⟩

/-- A piece of text is gathered. -/
theorem Holds.pushText {t text : Text} (h : Holds ctx c f shown t) (hfaces : Faces ctx m c' rest)
    (more : Text) (htext : text.collapsed = more.collapsed) (start stop : Nat) :
    Holds ctx c' (f.pushText start stop text) (shown ++ more) rest := by
  refine ⟨⟨m, hfaces⟩, h.nodes, ?_⟩
  rw [Fragments.chars_pushText]
  exact Text.collapsed_append_congr h.chars htext

/-- Reading leads from the one text to the other, and gathers that text. -/
def Adds (ctx : Context) (s : State) (i : OpenInline) (t more rest : Text) : Prop :=
  ∀ (c : Cursor) (f : Fragments) (shown : Text), Holds ctx c f shown t →
    ∃ c' f', Leads ctx (s.gather i c f) (s.gather i c' f') ∧ Holds ctx c' f' (shown ++ more) rest

theorem Adds.trans {t t' more more' : Text} (h : Adds ctx s i t more t')
    (h' : Adds ctx s i t' more' rest) : Adds ctx s i t (more ++ more') rest := by
  intro c f shown hheld
  obtain ⟨c₁, f₁, hlead, hheld₁⟩ := h c f shown hheld
  obtain ⟨c₂, f₂, hlead', hheld₂⟩ := h' c₁ f₁ _ hheld₁
  rw [List.append_assoc] at hheld₂
  exact ⟨c₂, f₂, hlead.trans hlead', hheld₂⟩

theorem adds_nil (t : Text) : Adds ctx s i t [] t := by
  intro c f shown h
  refine ⟨c, f, .refl _, ?_⟩
  rwa [List.append_nil]

/-- A run of plain units, which may be empty. -/
theorem adds_run {run : Text} (hrun : ∀ u ∈ run, CodeUnit.isPlain u = true)
    (hrest : ∀ u ∈ rest.head?, CodeUnit.isPlain u = false) : Adds ctx s i (run ++ rest) run rest := by
  by_cases hne : run = []
  · subst hne
    exact adds_nil rest
  · intro c f shown h
    obtain ⟨m, hfaces⟩ := h.faces
    have hmeets := hfaces.run hne hrun hrest
    have hlead : Leads ctx _ _ := .of_text (s := s.gather i c f) (i := i.withFragments f) rfl
      hmeets.kind hmeets.malformed
    refine ⟨c.advance, _, hlead, h.pushText hmeets.faces run ?_ _ _⟩
    exact congrArg Text.collapsed hmeets.text

/-- Outside a paragraph a line feed is a space. -/
theorem adds_lineFeed (hi : i.surround ≠ .paragraph) (rest : Text) :
    Adds ctx s i (0x0A :: rest) [0x0A] rest := by
  intro c f shown h
  obtain ⟨m, hfaces⟩ := h.faces
  have hmeets := hfaces.lineFeed
  have hnot : (i.withFragments f).surround.endsAt s.inList c.current = false :=
    Surround.endsAt_of_ne_paragraph hi (.inl hmeets.kind) _
  have hlead : Leads ctx _ _ := .of_newLine (s := s.gather i c f) (i := i.withFragments f) rfl
    hmeets.kind hnot
  exact ⟨c.advance, _, hlead, h.pushText hmeets.faces [0x0A] (by decide) _ _⟩

/-- Words add themselves. -/
theorem adds_words (hi : i.surround ≠ .paragraph) {t : Text} (ht : ∀ u ∈ t, isWordUnit u = true)
    (hrest : ∀ u ∈ rest.head?, CodeUnit.isPlain u = false) : Adds ctx s i (t ++ rest) t rest := by
  have hplain : ∀ l : Text, l.Unbroken → (∀ u ∈ l, isWordUnit u = true) →
      ∀ u ∈ l, CodeUnit.isPlain u = true := by
    intro l hl hunits u hu
    refine isPlain_of_isWordUnit (hunits u hu) ?_
    rintro rfl
    exact hl hu
  induction t using Text.line_induction with
  | last l hl => exact adds_run (hplain l hl ht) hrest
  | line l t hl ih =>
    have hline := hplain l hl fun u hu => ht u (List.mem_append_left _ hu)
    have htail := ih fun u hu => ht u (List.mem_append_right _ (List.mem_cons_of_mem _ hu))
    have hhead : Adds ctx s i (l ++ 0x0A :: (t ++ rest)) l (0x0A :: (t ++ rest)) :=
      adds_run hline (Lexeme.forall_mem_head?_cons (by decide) _)
    have hall := hhead.trans ((adds_lineFeed hi _).trans htail)
    rwa [← List.cons_append, ← List.append_assoc] at hall

/-! ## Rules -/

/-- How many arguments a rule has. -/
def Rule.argumentCount : Rule → Nat
  | .hline | .toprule | .midrule | .bottomrule => 0
  | .cline _ _ => 1

theorem Rule.lookup (r : Rule) :
    headingLevel? r.command = none ∧ droppedArgumentCount? r.command = none ∧
      tableRuleArgumentCount? r.command = some r.argumentCount := by
  cases r <;> simp only [Rule.command, Rule.argumentCount] <;> decide

theorem Rule.command_spec (r : Rule) :
    r.command ≠ [] ∧ (∀ u ∈ r.command, CodeUnit.isLetter u = true) ∧ r.command ≠ "begin" ∧
      r.command ≠ "end" ∧ r.command ≠ "verb" ∧ r.command ≠ "multicolumn" := by
  cases r <;> simp only [Rule.command] <;> decide

theorem Rule.meets (r : Rule) (h : Faces ctx m c (r.print ++ rest)) :
    Meets ctx m { kind := .command, length := 1 + r.command.length, text := r.command }
      (0x5C :: r.command) (r.argument ++ 0x0A :: rest) c := by
  have hshape : r.print ++ rest = 0x5C :: (r.command ++ (r.argument ++ 0x0A :: rest)) := by
    simp [Rule.print]
  have hafter : ∀ u ∈ (r.argument ++ 0x0A :: rest).head?,
      CodeUnit.isLetter u = false ∧ u ≠ 0x2A := by
    cases r <;> simp [Rule.argument, inBraces] <;> decide
  obtain ⟨hne, hletters, hbegin, hend, hverb, -⟩ := r.command_spec
  rw [hshape] at h
  exact h.command hne hletters hbegin hend hverb hafter

/-- A rule is dropped with its argument. -/
theorem skipCommand_rule (hb : 0x5B ∉ ctx.source.toList) (r : Rule)
    (h : Faces ctx m c (r.print ++ rest)) :
    ∃ c' m', Parse.skipCommand ctx.source r.argumentCount c = .ok c' ∧
      Faces ctx m' c' (0x0A :: rest) := by
  have hmeets := r.meets h
  have hskip : Parse.skipOptionalArgument c.advance = c.advance := by
    rw [Parse.skipOptionalArgument, hmeets.faces.startArgument? hb]
  rw [Parse.skipCommand, hskip]
  cases r with
  | cline first last =>
    have hplain : ∀ u ∈ Text.ofNat first ++ 0x2D :: Text.ofNat last,
        CodeUnit.isPlain u = true := by
      intro u hu
      rcases List.mem_append.mp hu with hu | hu
      · exact isPlain_of_isDigit (Text.isDigit_of_mem_ofNat u hu)
      · rcases List.mem_cons.mp hu with rfl | hu
        · decide
        · exact isPlain_of_isDigit (Text.isDigit_of_mem_ofNat u hu)
    obtain ⟨c', m', hread, hfaces⟩ := readGroup_plain hplain hmeets.faces c.marker
      (Parse.missingArgument c.marker)
    refine ⟨c', m', ?_, hfaces⟩
    rw [Rule.argumentCount, Parse.skipGroups, hread]
    rfl
  | _ => exact ⟨c.advance, _, rfl, hmeets.faces⟩

/-- In a cell a rule adds the line feed behind it. -/
theorem adds_rule (hb : 0x5B ∉ ctx.source.toList) (hi : i.surround = .cell) (r : Rule)
    (rest : Text) : Adds ctx s i (r.print ++ rest) [0x0A] rest := by
  intro c f shown h
  obtain ⟨m, hfaces⟩ := h.faces
  have hmeets := r.meets hfaces
  obtain ⟨hheading, hdropped, hrule⟩ := r.lookup
  obtain ⟨c₁, m₁, hskip, hfaces₁⟩ := skipCommand_rule hb r hfaces
  have hsurround : (i.withFragments f).surround = .cell := hi
  have hcount : (i.withFragments f).droppedCount? r.command = some r.argumentCount := by
    rw [OpenInline.droppedCount?, hdropped, if_pos hsurround, hrule]
    rfl
  have hnot : (i.withFragments f).surround.endsAt s.inList c.current = false := by
    rw [hsurround]
    simp [Surround.endsAt, hmeets.kind]
  have htake : (s.gather i c f).takeToken ctx (i.withFragments f) = .ok (s.gather i c₁ f) := by
    have hkind : (s.gather i c f).cursor.current.kind = .command := hmeets.kind
    have htext : (s.gather i c f).cursor.current.text = r.command := hmeets.text
    simp only [State.takeToken, Cursor.marker, hkind, State.takeCommand, Marker.text, htext,
      hheading, hcount, State.dropCommand]
    show (Parse.skipCommand ctx.source r.argumentCount c >>= fun after => _) = _
    rw [hskip]
    rfl
  obtain ⟨c₂, f₂, hlead, hheld⟩ := adds_lineFeed (s := s) (by rw [hi]; simp) rest c₁ f shown
    ⟨⟨m₁, hfaces₁⟩, h.nodes, h.chars⟩
  exact ⟨c₂, f₂, (Leads.of_takeToken rfl hnot htake).trans hlead, hheld⟩

/-- Rules add the line feeds behind them. -/
theorem adds_rules (hb : 0x5B ∉ ctx.source.toList) (hi : i.surround = .cell) (rules : List Rule)
    (rest : Text) :
    Adds ctx s i (rules.flatMap Rule.print ++ rest) (rules.map fun _ => 0x0A) rest := by
  induction rules with
  | nil => exact adds_nil rest
  | cons r rules ih =>
    rw [List.flatMap_cons, List.append_assoc]
    exact (adds_rule hb hi r _).trans ih

end Tabular

end LatexMarkdown
