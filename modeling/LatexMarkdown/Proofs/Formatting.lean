import LatexMarkdown.Proofs.Facing
import LatexMarkdown.Proofs.Formatting.Markup
/-!
  Reading formatted text.

  Main statement: `Formatting.parse_spell`.

  What is gathered is known up to the space in it: `Inside` says that the characters of the open
  content have the same collapsed form as the characters read.  Closing a formatted group keeps that
  (`closeArgument_spec`), wherever the space at its edges goes.  A piece of source is read alike in
  a group and in a paragraph (`Piece`), so one induction over the source serves both: inside a group
  it closes the groups in it, and between blocks it counts the paragraphs.
-/
namespace LatexMarkdown

namespace Formatting

open Parse (State Context Surround OpenInline OpenArgument Faces Meets nestingLimit)
open Parse.State (Leads)

variable {ctx : Context} {m : LineMark} {s : State} {i : OpenInline}

/-! ## Closing a formatted group -/

/-- A space for the edge of a group that has space there. -/
def edge (b : Bool) : Text := if b then [0x20] else []

theorem pushEdge_spec {f : Fragments} (hf : f.Sound) (b : Bool) (start stop : Nat) :
    (if b then f.pushText start stop [0x20] else f).Sound ∧
      (if b then f.pushText start stop [0x20] else f).chars = f.chars ++ edge b := by
  cases b with
  | true => exact ⟨hf.pushText (by simp) start stop, f.chars_pushText start stop [0x20]⟩
  | false => exact ⟨hf, (List.append_nil _).symm⟩

/-- What a formatting command makes of tight content has the same characters. -/
theorem pushStyled_spec {f : Fragments} (hf : f.Sound) {ns : List Inline}
    (hns : ∀ n ∈ ns, n.Sound) (ht : (Inline.plainTextOf ns).Tight) (info : NodeInfo)
    (style : InlineStyle) :
    let f' := match style with
      | .strong => f.push (.strong info ns)
      | .emphasis => f.push (.emphasis info ns)
      | .code => f.push (.code info (Inline.plainTextOf ns))
      | .plain => f.pushAll ns
    f'.Sound ∧ f'.chars = f.chars ++ Inline.plainTextOf ns := by
  cases style with
  | strong => exact ⟨hf.push (n := .strong info ns) ht, f.chars_push _⟩
  | emphasis => exact ⟨hf.push (n := .emphasis info ns) ht, f.chars_push _⟩
  | code => exact ⟨hf.push (n := .code info _) ht, f.chars_push _⟩
  | plain =>
    obtain ⟨hchars, hsound⟩ := Fragments.pushAll_spec hf hns
    exact ⟨hsound, hchars⟩

/-- A formatted group adds its characters, up to space. -/
theorem closeArgument_spec (command : Marker) (style : InlineStyle) {f outer : Fragments}
    (hf : f.Sound) (ho : outer.Sound) (stop : Nat) :
    (State.closeArgument (.styled command style) f stop outer).Sound ∧
      (State.closeArgument (.styled command style) f stop outer).chars.collapsed
        = (outer.chars ++ f.chars).collapsed := by
  obtain ⟨hplain, hsound⟩ := Fragments.finish_spec hf
  have hnil : f.finish = [] ↔ f.chars.squeeze = [] := by
    rw [← Inline.plainTextOf_eq_nil hsound, hplain]
  simp only [State.closeArgument, Fragments.leadingSpace_eq hf, Fragments.trailingSpace_eq hf]
  by_cases hs : f.chars.squeeze = []
  · -- Nothing but space was read, and it stays as one space.
    have hcollapsed := Text.collapsed_of_squeeze_eq_nil hs
    have hedge : f.chars.collapsed = edge (f.chars.startsInSpace || f.chars.endsInSpace) := by
      cases hstarts : f.chars.startsInSpace with
      | true => rw [hcollapsed, hstarts]; rfl
      | false =>
        rw [hstarts] at hcollapsed
        have hchars : f.chars = [] := by
          by_contra hne
          exact Text.collapsed_ne_nil hne hcollapsed
        rw [hchars]
        rfl
    obtain ⟨hpush, hchars⟩ := pushEdge_spec ho (f.chars.startsInSpace || f.chars.endsInSpace)
      command.token.start command.token.start
    rw [hnil.mpr hs, List.isEmpty_nil, Bool.and_true, if_pos rfl]
    refine ⟨hpush, ?_⟩
    rw [hchars, ← hedge]
    exact Text.collapsed_append_congr rfl (Text.collapsed_collapsed _)
  · -- The content is tight, and the space at its edges stands outside it.
    have hne : f.finish.isEmpty = false := by simpa [hnil] using hs
    have htight : (Inline.plainTextOf f.finish).Tight := hplain ▸ Text.tight_squeeze hs
    obtain ⟨hbefore, hcharsBefore⟩ := pushEdge_spec ho f.chars.startsInSpace
      command.token.start command.token.start
    obtain ⟨hstyled, hcharsStyled⟩ := pushStyled_spec hbefore hsound htight
      (.span command.token.start stop) style
    obtain ⟨hafter, hcharsAfter⟩ := pushEdge_spec hstyled f.chars.endsInSpace stop stop
    rw [hne, Bool.and_false, Bool.or_false, if_neg (by simp)]
    refine ⟨hafter, ?_⟩
    have hchars := congrArg Text.collapsed (hcharsAfter.trans (congrArg (· ++ edge f.chars.endsInSpace)
      (hcharsStyled.trans (congrArg₂ (· ++ ·) hcharsBefore hplain))))
    refine hchars.trans ?_
    rw [List.append_assoc, List.append_assoc]
    refine Text.collapsed_append_congr rfl ?_
    rw [← Text.collapsed_collapsed f.chars, Text.collapsed_eq_squeeze hs, List.append_assoc]
    rfl

/-! ## Content that is open -/

/-- Where formatted text may stand: in a paragraph or in a group. -/
def IsProse (i : OpenInline) : Prop :=
  i.surround = .paragraph ∨ ∃ opener, i.surround = .group opener

theorem gather_self (h : s.inline? = some i) : s.gather i s.cursor i.run.fragments = s := by
  obtain ⟨c, blocks, environments, inline?, diagnostics⟩ := s
  cases h
  rfl

theorem depth_gather (h : s.inline? = some i) (c : Cursor) (f : Fragments) :
    (s.gather i c f).depth = s.depth := by
  simp only [State.depth, h]
  rfl

/-- The state stands before the text with the content open. -/
structure Before (ctx : Context) (s : State) (i : OpenInline) (t : Text) : Prop where
  inline?_eq : s.inline? = some i
  sound : i.run.fragments.Sound
  faces : ∃ m, Faces ctx m s.cursor t

/-- From `s` it got to `u`, which stands before the text and has gathered those characters, up to
space. -/
def Inside (ctx : Context) (s : State) (i : OpenInline) (shown t : Text) (u : State) : Prop :=
  ∃ c f, u = s.gather i c f ∧ Before ctx u (i.withFragments f) t ∧
    f.chars.collapsed = (i.run.fragments.chars ++ shown).collapsed

/-- Reading on up to the rest gathers those characters, up to space. -/
def Gathers (ctx : Context) (s : State) (i : OpenInline) (shown rest : Text) : Prop :=
  ∃ u, Leads ctx s u ∧ Inside ctx s i shown rest u

theorem Before.inside {t : Text} (h : Before ctx s i t) : Inside ctx s i [] t s := by
  have hself := gather_self h.inline?_eq
  refine ⟨s.cursor, i.run.fragments, hself.symm, h, ?_⟩
  rw [List.append_nil]

/-- What is gathered further on adds up. -/
theorem Inside.read_on {a b t rest : Text} {u : State} (h : Inside ctx s i a t u)
    (hnext : ∀ c f, u = s.gather i c f → Before ctx u (i.withFragments f) t →
      Gathers ctx u (i.withFragments f) b rest) :
    ∃ v, Leads ctx u v ∧ Inside ctx s i (a ++ b) rest v := by
  obtain ⟨c, f, hu, hbefore, hchars⟩ := h
  obtain ⟨v, hlead, c', f', rfl, hafter, hchars'⟩ := hnext c f hu hbefore
  refine ⟨_, hlead, c', f', by rw [hu]; rfl, hafter, hchars'.trans ?_⟩
  rw [← List.append_assoc]
  exact Text.collapsed_append_congr hchars rfl

/-- A token that adds text. -/
theorem gathers_of_pushText {t text shown rest : Text} {start stop : Nat} (h : Before ctx s i t)
    (hfaces : Faces ctx m s.cursor.advance rest) (hne : text ≠ [])
    (htext : text.collapsed = shown.collapsed)
    (hlead : Leads ctx s (s.gather i s.cursor.advance
      (i.run.fragments.pushText start stop text))) : Gathers ctx s i shown rest := by
  refine ⟨_, hlead, _, _, rfl, ⟨rfl, h.sound.pushText hne start stop, m, hfaces⟩, ?_⟩
  rw [Fragments.chars_pushText]
  exact Text.collapsed_append_congr rfl htext

/-! ## Pieces of source -/

/-- Between blocks, the token begins a paragraph. -/
structure BeginsParagraph (ctx : Context) (s : State) : Prop where
  not_spacing : s.cursor.current.isSpacing = false
  not_ends : Surround.endsAt s.inList s.cursor.current .paragraph = false
  beginBlock_eq : s.beginBlock ctx = s.beginParagraph ctx

/-- Between blocks, the token is space and the rest comes after it. -/
structure PassesSpace (ctx : Context) (s : State) (shown rest : Text) : Prop where
  spacing : s.cursor.current.isSpacing = true
  ahead : s.cursor.ahead = s.cursor.current :: s.cursor.ahead.tail
  faces : ∃ m, Faces ctx m s.cursor.advance rest
  ne_nil : shown ≠ []
  isInlineSpace : ∀ u ∈ shown, CodeUnit.isInlineSpace u = true

/-- The text up to the rest is read alike in paragraphs and groups, for the characters that it
shows; `d` counts the levels that it needs. -/
structure Piece (ctx : Context) (d : Nat) (shown t rest : Text) : Prop where
  gathers : ∀ s i, IsProse i → s.depth + d ≤ nestingLimit → Before ctx s i t →
    Gathers ctx s i shown rest
  begins : ∀ s m, s.inline? = none → s.environments = [] → Faces ctx m s.cursor t →
    BeginsParagraph ctx s ∨ PassesSpace ctx s shown rest

/-- A text token. -/
theorem piece_text {x : Lexeme} {span rest : Text} (hx : x.Covers .normal span rest)
    (hk : x.kind = .text) (hmode : x.mode = .normal) (hm : x.flags.malformed = false)
    (hne : x.text ≠ []) (hspace : ∀ u ∈ x.text, u ≠ 0xA0) :
    Piece ctx 0 x.text (span ++ rest) rest := by
  have hmeets : ∀ {m : LineMark} {c : Cursor}, Faces ctx m c (span ++ rest) →
      Meets ctx m x span rest c := fun h => h.of_covers span hx (by simp [hk]) hmode
  constructor
  · intro s i _ _ h
    obtain ⟨m, hfaces⟩ := h.faces
    have ht := hmeets hfaces
    have hlead : Leads ctx s (s.gather i s.cursor.advance (i.run.fragments.pushText
        s.cursor.current.start s.cursor.current.stop s.cursor.current.text)) :=
      .of_text h.inline?_eq (ht.kind.trans hk) (ht.malformed.trans hm)
    rw [ht.text] at hlead
    exact gathers_of_pushText h ht.faces hne rfl hlead
  · intro s m hi he h
    have ht := hmeets h
    have hkind := ht.kind.trans hk
    cases hblank : x.text.isBlank with
    | true =>
      refine .inr ⟨?_, ht.ahead, ⟨_, ht.faces⟩, hne, ?_⟩
      · simp [Token.isSpacing, Token.isBlankText, hkind, ht.text, hblank]
      · intro u hu
        exact isInlineSpace_of_isSourceSpace (List.all_eq_true.mp hblank u hu) (hspace u hu)
    | false =>
      refine .inl ⟨?_, ?_, ?_⟩
      · simp [Token.isSpacing, Token.isBlankText, hkind, ht.text, hblank]
      · simp [Surround.endsAt, hkind]
      · simp only [State.beginBlock, hkind]

/-- A bracket or `&` stands for itself. -/
theorem piece_literal {u : CodeUnit} {kind : TokenKind} (hu : Lexeme.singleKind? u = some kind)
    (hk : kind = .bracketOpen ∨ kind = .bracketClose ∨ kind = .alignmentTab) (rest : Text) :
    Piece ctx 0 [u] (u :: rest) rest := by
  have hmeets : ∀ {m : LineMark} {c : Cursor}, Faces ctx m c (u :: rest) →
      Meets ctx m { kind, length := 1, text := [u] } [u] rest c :=
    fun h => h.single kind hu (by rcases hk with rfl | rfl | rfl <;> simp)
  constructor
  · intro s i hprose _ h
    obtain ⟨m, hfaces⟩ := h.faces
    have ht := hmeets hfaces
    have hnot : i.surround.endsAt s.inList s.cursor.current = false := by
      rcases hprose with hs | ⟨opener, hs⟩ <;> rcases hk with rfl | rfl | rfl <;>
        simp [hs, Surround.endsAt, ht.kind]
    have htake : s.takeToken ctx i = .ok (s.takeLiteral ctx i) := by
      rcases hk with rfl | rfl | rfl <;> simp only [State.takeToken, Cursor.marker, ht.kind]
    have hlead := Leads.of_takeToken h.inline?_eq hnot htake
    rw [State.takeLiteral, ht.spelling] at hlead
    exact gathers_of_pushText h ht.faces (by simp) rfl hlead
  · intro s m hi he h
    have ht := hmeets h
    refine .inl ⟨?_, ?_, ?_⟩ <;> rcases hk with rfl | rfl | rfl <;>
      simp [Token.isSpacing, Token.isBlankText, Surround.endsAt, State.beginBlock, ht.kind]

/-- Inside a group a line feed is a space. -/
theorem gathers_lineFeed {rest : Text} {opener : Marker} (hs : i.surround = .group opener)
    (h : Before ctx s i (0x0A :: rest)) : Gathers ctx s i [0x0A] rest := by
  obtain ⟨m, hfaces⟩ := h.faces
  have ht := hfaces.lineFeed
  have hnot : i.surround.endsAt s.inList s.cursor.current = false := by
    simp [hs, Surround.endsAt, ht.kind]
  exact gathers_of_pushText h ht.faces (by simp) (by decide)
    (Leads.of_newLine h.inline?_eq ht.kind hnot)

/-! ## Groups -/

/-- Inside a group, the source of the markup is read for its characters. -/
def ReadsInside (ctx : Context) (inner : Markup) : Prop :=
  ∀ (s : State) (i : OpenInline) (opener : Marker) (rest : Text), i.surround = .group opener →
    s.depth + inner.depth ≤ nestingLimit → Before ctx s i (inner.spell ++ 0x7D :: rest) →
    Gathers ctx s i inner.erase (0x7D :: rest)

/-- The content inside an opening brace. -/
def insideBrace (s : State) (i : OpenInline) : OpenInline :=
  { i with run := { i.run with braces := ⟨s.cursor.marker, false⟩ :: i.run.braces } }

/-- The content inside the argument of a formatting command that the marker opens. -/
def insideArgumentAt (s : State) (i : OpenInline) (style : InlineStyle) (opener : Marker) :
    OpenInline :=
  { i with
    run := {}
    arguments := ⟨.styled s.cursor.marker style, opener, i.run⟩ :: i.arguments }

/-- The content inside the argument of a formatting command. -/
def insideArgument (s : State) (i : OpenInline) (style : InlineStyle) : OpenInline :=
  { i with
    run := {}
    arguments := ⟨.styled s.cursor.marker style, s.cursor.advance.marker, i.run⟩ :: i.arguments }

/-- In prose an opening brace opens a group. -/
theorem leads_openBrace (ctx : Context) (hi : s.inline? = some i) (hprose : IsProse i)
    (hd : s.depth + 1 ≤ nestingLimit) (hk : s.cursor.current.kind = .groupOpen) :
    Leads ctx s { s with cursor := s.cursor.advance, inline? := some (insideBrace s i) } := by
  have hnot : i.surround.endsAt s.inList s.cursor.current = false := by
    rcases hprose with hs | ⟨opener, hs⟩ <;> simp [hs, Surround.endsAt, hk]
  refine .of_takeToken hi hnot ?_
  simp only [State.takeToken, Cursor.marker, hk]
  exact State.openBrace_of_le hd i

theorem depth_insideBrace (hi : s.inline? = some i) (c : Cursor) :
    ({ s with cursor := c, inline? := some (insideBrace s i) } : State).depth = s.depth + 1 := by
  simp only [State.depth, hi, insideBrace, OpenInline.depth, Option.map_some, Option.getD_some,
    List.length_cons]
  omega

/-- A closing brace closes it, and what was gathered stays. -/
theorem leads_closeBrace {c : Cursor} (hk : c.current.kind = .groupClose) (f : Fragments) :
    Leads ctx (s.gather (insideBrace s i) c f) (s.gather i c.advance f) := by
  refine .of_closeInline rfl ?_ rfl
  show (c.current.kind == .groupClose) = true
  exact beq_iff_eq.mpr hk

/-- Between blocks an opening brace begins a paragraph. -/
theorem begins_groupOpen (hk : s.cursor.current.kind = .groupOpen) : BeginsParagraph ctx s := by
  refine ⟨?_, ?_, ?_⟩ <;>
    simp [Token.isSpacing, Token.isBlankText, Surround.endsAt, State.beginBlock, hk]

/-- A group in braces shows what stands in it. -/
theorem piece_group {inner : Markup} (hinner : ReadsInside ctx inner) (rest : Text) :
    Piece ctx (inner.depth + 1) inner.erase (Markup.brace inner.spell rest) rest := by
  constructor
  · intro s i hprose hd h
    obtain ⟨m, hfaces⟩ := h.faces
    have hbrace := hfaces.single .groupOpen rfl
    have hopen := leads_openBrace ctx h.inline?_eq hprose (by omega) hbrace.kind
    have hdepth := depth_insideBrace h.inline?_eq s.cursor.advance
    obtain ⟨_, hread, c, f, rfl, hafter, hchars⟩ := hinner
      { s with cursor := s.cursor.advance, inline? := some (insideBrace s i) } (insideBrace s i)
      s.cursor.marker rest rfl (by omega) ⟨rfl, h.sound, _, hbrace.faces⟩
    obtain ⟨_, hfaces'⟩ := hafter.faces
    have hclosing := hfaces'.single .groupClose rfl
    exact ⟨_, hopen.trans (hread.trans (leads_closeBrace hclosing.kind f)), c.advance, f, rfl,
      ⟨rfl, hafter.sound, _, hclosing.faces⟩, hchars⟩
  · exact fun s m _ _ h => .inl (begins_groupOpen (h.single .groupOpen rfl).kind)

/-- A formatting command is met before anything that does not belong to its name. -/
theorem meets_command {cursor : Cursor} (c : Command) {rest : Text}
    (h : Faces ctx m cursor (0x5C :: (c.name ++ rest)))
    (hrest : ∀ u ∈ rest.head?, CodeUnit.isLetter u = false ∧ u ≠ 0x2A) :
    Meets ctx m { kind := .command, length := 1 + c.name.length, text := c.name } (0x5C :: c.name)
      rest cursor := by
  obtain ⟨hne, hbegin, hend, hverb, -⟩ := c.name_ne
  exact h.command hne c.isLetter hbegin hend hverb hrest

theorem head?_brace (inner rest : Text) :
    ∀ u ∈ (Markup.brace inner rest).head?, CodeUnit.isLetter u = false ∧ u ≠ 0x2A :=
  Lexeme.forall_mem_head?_cons (by decide) _

/-- In prose a formatting command opens its argument. -/
theorem leads_openArgument (ctx : Context) {c : Command} {style : InlineStyle} {opened : Cursor}
    (hi : s.inline? = some i) (hstyle : InlineStyle.ofCommand? c.name = some style)
    (hprose : IsProse i) (hd : s.depth + 1 ≤ nestingLimit)
    (hk : s.cursor.current.kind = .command) (ht : s.cursor.current.text = c.name)
    (hopen : ∀ owner flaw, Parse.startGroup owner flaw s.cursor.advance = .ok opened) :
    Leads ctx s { s with
      cursor := opened.advance, inline? := some (insideArgumentAt s i style opened.marker) } := by
  obtain ⟨hheading, hdropped, -⟩ := c.lookup
  obtain ⟨-, -, -, -, hitem⟩ := c.name_ne
  have hnot : i.surround.endsAt s.inList s.cursor.current = false := by
    rcases hprose with hs | ⟨opener, hs⟩ <;> simp [hs, Surround.endsAt, hk, ht, hheading, hitem]
  have hcount : i.droppedCount? c.name = none := by
    have hcell : i.surround ≠ .cell := by
      rcases hprose with hs | ⟨opener, hs⟩ <;> simp [hs]
    rw [OpenInline.droppedCount?, hdropped, if_neg hcell]
    rfl
  refine .of_takeToken hi hnot ?_
  have htake : s.takeToken ctx i = State.openArgument { s with cursor := s.cursor.advance } i
      s.cursor.marker (Parse.missingArgument s.cursor.marker) (.styled s.cursor.marker style) := by
    simp only [State.takeToken, Cursor.marker, hk, State.takeCommand, Marker.text, ht, hheading,
      hcount, hstyle]
    rfl
  rw [htake, State.openArgument, hopen]
  show (do State.checkDepth s.depth opened.marker; _) = _
  rw [State.checkDepth_of_le hd]
  rfl

theorem depth_insideArgumentAt (hi : s.inline? = some i) (style : InlineStyle) (opener : Marker)
    (c : Cursor) :
    ({ s with cursor := c, inline? := some (insideArgumentAt s i style opener) } : State).depth
      = s.depth + 1 := by
  simp only [State.depth, hi, insideArgumentAt, OpenInline.depth, Option.map_some, Option.getD_some,
    List.foldr_cons, List.length_nil]
  omega

/-- A closing brace closes it, and adds what becomes of it. -/
theorem leads_closeArgument (ctx : Context) {c : Cursor} (hk : c.current.kind = .groupClose)
    (style : InlineStyle) (opener : Marker) (f : Fragments) :
    Leads ctx (s.gather (insideArgumentAt s i style opener) c f) (s.gather i c.advance
      (State.closeArgument (.styled s.cursor.marker style) f c.current.stop i.run.fragments)) := by
  refine .of_closeInline rfl ?_ rfl
  show (c.current.kind == .groupClose) = true
  exact beq_iff_eq.mpr hk

/-- Between blocks a formatting command begins a paragraph. -/
theorem begins_command {c : Command} (he : s.environments = [])
    (hk : s.cursor.current.kind = .command) (ht : s.cursor.current.text = c.name) :
    BeginsParagraph ctx s := by
  obtain ⟨hheading, hdropped, -⟩ := c.lookup
  obtain ⟨-, -, -, -, hitem⟩ := c.name_ne
  have hcount : s.droppedCount? c.name = none := by
    simp [State.droppedCount?, hdropped, State.inFloat, he]
  have htop : s.beginBlock ctx = s.beginParagraph ctx := by
    simp only [State.beginBlock, hk, State.takeBlockCommand_of_ne_item (ht.trans_ne hitem),
      State.takeOtherCommand, ht, hheading, hcount]
  refine ⟨?_, ?_, htop⟩ <;>
    simp [Token.isSpacing, Token.isBlankText, Surround.endsAt, hk, ht, hheading, hitem]

/-- A formatted group shows what stands in it. -/
theorem piece_styled {inner : Markup} (hinner : ReadsInside ctx inner) (c : Command)
    (rest : Text) :
    Piece ctx (inner.depth + 1) inner.erase
      (0x5C :: (c.name ++ Markup.brace inner.spell rest)) rest := by
  obtain ⟨-, -, style, hstyle⟩ := c.lookup
  constructor
  · intro s i hprose hd h
    obtain ⟨m, hfaces⟩ := h.faces
    have hcommand := meets_command c hfaces (head?_brace _ _)
    have hbrace := hcommand.faces.single .groupOpen rfl
    have hopen := leads_openArgument ctx h.inline?_eq hstyle hprose (by omega)
      hcommand.kind hcommand.text (Parse.startGroup_of_groupOpen hbrace.kind)
    have hdepth : State.depth { s with
        cursor := s.cursor.advance.advance, inline? := some (insideArgument s i style) }
        = s.depth + 1 :=
      depth_insideArgumentAt h.inline?_eq style s.cursor.advance.marker s.cursor.advance.advance
    have hempty : ({} : Fragments).Sound := by simp [Fragments.Sound, Fragments.toList, Fragments.flush]
    obtain ⟨_, hread, c', f, rfl, hafter, hchars⟩ := hinner
      { s with cursor := s.cursor.advance.advance, inline? := some (insideArgument s i style) }
      (insideArgument s i style) s.cursor.advance.marker rest rfl (by omega)
      ⟨rfl, hempty, _, hbrace.faces⟩
    obtain ⟨_, hfaces'⟩ := hafter.faces
    have hclosing := hfaces'.single .groupClose rfl
    obtain ⟨hsound, hclosed⟩ := closeArgument_spec s.cursor.marker style hafter.sound h.sound
      c'.current.stop
    have hclose := leads_closeArgument ctx (s := s) (i := i) hclosing.kind style
      s.cursor.advance.marker f
    exact ⟨_, hopen.trans (hread.trans hclose), c'.advance, _, rfl,
      ⟨rfl, hsound, _, hclosing.faces⟩, hclosed.trans (Text.collapsed_append_congr rfl hchars)⟩
  · intro s m hi he h
    have hcommand := meets_command c h (head?_brace _ _)
    exact .inl (begins_command he hcommand.kind hcommand.text)

/-! ## Reading a source piece by piece -/

/-- From any state that has shown something and stands before the text, reading on up to the rest
shows those characters too. -/
def Passes (ctx : Context) (P : Text → Text → State → Prop) (shown t rest : Text) : Prop :=
  ∀ before s, P before t s → ∃ s', Leads ctx s s' ∧ P (before ++ shown) rest s'

/-- Wherever `P` is known it stays known, over pieces and line feeds. -/
structure Reader (ctx : Context) (d : Nat) (P : Text → Text → State → Prop) : Prop where
  piece : ∀ {n shown t rest}, Piece ctx n shown t rest → d + n ≤ nestingLimit →
    Passes ctx P shown t rest
  lineFeed : ∀ rest, Passes ctx P [0x0A] (0x0A :: rest) rest

theorem Passes.trans {P : Text → Text → State → Prop} {a b t t' t'' : Text}
    (h : Passes ctx P a t t') (h' : Passes ctx P b t' t'') : Passes ctx P (a ++ b) t t'' := by
  intro before s hs
  obtain ⟨u, hlead, hu⟩ := h before s hs
  obtain ⟨v, hlead', hv⟩ := h' (before ++ a) u hu
  rw [List.append_assoc] at hv
  exact ⟨v, hlead.trans hlead', hv⟩

theorem Passes.refl (P : Text → Text → State → Prop) (t : Text) : Passes ctx P [] t t := by
  intro before s hs
  rw [List.append_nil]
  exact ⟨s, .refl s, hs⟩

/-- Inside a group everything is gathered. -/
theorem reader_inside {opener : Marker} (hi : s.inline? = some i)
    (hs : i.surround = .group opener) : Reader ctx s.depth (Inside ctx s i) := by
  constructor
  · intro n shown t rest hpiece hd before u h
    refine h.read_on fun c f hu hbefore => ?_
    refine hpiece.gathers u _ (.inr ⟨opener, hs⟩) ?_ hbefore
    rwa [hu, depth_gather hi]
  · intro rest before u h
    exact h.read_on fun c f _ hbefore => gathers_lineFeed hs hbefore

/-- Units that are read together as one text. -/
def IsRun (r : Text) : Prop := ∀ u ∈ r, CodeUnit.isPlain u = true ∧ u ≠ 0xA0

theorem isRun_append {r : Text} (hr : IsRun r) {u : CodeUnit} (hu : isOrdinary u = true)
    (hplain : u.isPlain = true) : IsRun (r ++ [u]) := by
  intro v hv
  rcases List.mem_append.mp hv with hv | hv
  · exact hr v hv
  · rw [List.mem_singleton.mp hv]
    exact ⟨hplain, ne_of_isOrdinary hu⟩

section Reader

variable {d : Nat} {P : Text → Text → State → Prop}

/-- A run is read as one text before anything that does not belong to it. -/
theorem Reader.run (hP : Reader ctx d P) (hd : d ≤ nestingLimit) {r rest : Text} (hr : IsRun r)
    (hrest : ∀ u ∈ rest.head?, CodeUnit.isPlain u = false) : Passes ctx P r (r ++ rest) rest := by
  by_cases hne : r = []
  · subst hne
    exact .refl P rest
  · have hx := Lexeme.covers_run hne (fun u hu => (hr u hu).1) hrest
    exact hP.piece (piece_text hx rfl rfl rfl hne fun u hu => (hr u hu).2) hd

/-- A glyph that does not belong to a run is read by itself. -/
theorem Reader.glyph (hP : Reader ctx d P) (hd : d ≤ nestingLimit) (g : Glyph) (rest : Text)
    (hg : ∀ u h, g = .unit u h → u.isPlain = false) :
    Passes ctx P [g.shown] (g.spell ++ rest) rest := by
  cases g with
  | unit u h =>
    rcases cases_of_isOrdinary h with hplain | rfl | hu | hu | hu
    · exact absurd hplain (by simp [hg u h rfl])
    · exact hP.lineFeed rest
    · exact hP.piece (piece_literal hu (by simp) rest) hd
    · exact hP.piece (piece_literal hu (by simp) rest) hd
    · exact hP.piece (piece_literal hu (by simp) rest) hd
  | tie =>
    exact hP.piece (piece_text (Lexeme.covers_tie rest) rfl rfl rfl (by simp) (by simp)) hd
  | escape u h =>
    have hne : ∀ v ∈ [u], v ≠ 0xA0 := by
      rintro v hv rfl
      rw [← List.mem_singleton.mp hv] at h
      exact absurd h (by decide)
    exact hP.piece (piece_text (Lexeme.covers_escape h rest) rfl rfl rfl (by simp) hne) hd
  | escapedSpace =>
    exact hP.piece (piece_text (Lexeme.covers_escapedSpace rest) rfl rfl rfl (by simp) (by simp)) hd

end Reader

/-- The first unit of what ends a run. -/
theorem Glyph.head_spell (g : Glyph) (hg : ∀ u h, g = .unit u h → u.isPlain = false) (t : Text) :
    ∀ u ∈ (g.spell ++ t).head?, CodeUnit.isPlain u = false := by
  intro u hu
  cases g with
  | unit v h =>
    rw [show u = v by simpa [Glyph.spell, eq_comm] using hu]
    exact hg v h rfl
  | _ =>
    simp only [Glyph.spell, List.cons_append, List.head?_cons, Option.mem_def,
      Option.some.injEq] at hu
    rw [← hu]
    decide

/-- The source of the markup is read for its characters, by any reader and behind any run. -/
def Reads (ctx : Context) (m : Markup) : Prop :=
  ∀ {d : Nat} {P : Text → Text → State → Prop}, Reader ctx d P → d + m.depth ≤ nestingLimit →
    ∀ {r rest : Text}, IsRun r → (∀ u ∈ rest.head?, CodeUnit.isPlain u = false) →
    Passes ctx P (r ++ m.erase) (r ++ (m.spell ++ rest)) rest

theorem isRun_nil : IsRun [] := by
  intro u hu
  exact absurd hu (by simp)

theorem Reads.inside {inner : Markup} (h : Reads ctx inner) : ReadsInside ctx inner := by
  intro s i opener rest hs hd hbefore
  exact h (reader_inside hbefore.inline?_eq hs) hd isRun_nil (Lexeme.forall_mem_head?_cons (by decide) rest) []
    s hbefore.inside

theorem reads (ctx : Context) (m : Markup) : Reads ctx m := by
  induction m with
  | done =>
    intro d P hP hd r rest hr hrest
    rw [Markup.erase, Markup.spell, List.append_nil, List.nil_append]
    exact hP.run (by omega) hr hrest
  | glyph g m ih =>
    intro d P hP hd r rest hr hrest
    rw [Markup.depth] at hd
    rw [Markup.erase, Markup.spell]
    by_cases hg : ∃ u h, g = .unit u h ∧ u.isPlain = true
    · -- The run goes on.
      obtain ⟨u, h, rfl, hplain⟩ := hg
      have hmore := ih hP hd (isRun_append hr h hplain) hrest
      rw [List.append_assoc, List.append_assoc] at hmore
      exact hmore
    · have hend : ∀ u h, g = .unit u h → u.isPlain = false := by
        intro u h heq
        rw [← Bool.not_eq_true]
        exact fun hplain => hg ⟨u, h, heq, hplain⟩
      rw [List.append_assoc]
      exact (hP.run (by omega) hr (g.head_spell hend _)).trans
        ((hP.glyph (by omega) g _ hend).trans (ih hP hd isRun_nil hrest))
  | group inner m ihInner ih =>
    intro d P hP hd r rest hr hrest
    rw [Markup.depth] at hd
    have hgroup := hP.piece (piece_group ihInner.inside (m.spell ++ rest)) (by omega)
    have hm := ih hP (by omega) isRun_nil hrest
    rw [Markup.erase, Markup.spell, Markup.brace_append]
    exact (hP.run (by omega) hr (Lexeme.forall_mem_head?_cons (by decide) _)).trans (hgroup.trans hm)
  | styled c inner m ihInner ih =>
    intro d P hP hd r rest hr hrest
    rw [Markup.depth] at hd
    have hstyled := hP.piece (piece_styled ihInner.inside c (m.spell ++ rest)) (by omega)
    have hm := ih hP (by omega) isRun_nil hrest
    rw [Markup.erase, Markup.spell, List.cons_append, List.append_assoc, Markup.brace_append]
    exact (hP.run (by omega) hr (Lexeme.forall_mem_head?_cons (by decide) _)).trans (hstyled.trans hm)

/-! ## Between blocks -/

/-- The characters of a paragraph. -/
def prose : Block → Text
  | .paragraph _ ns => Inline.plainTextOf ns
  | _ => []

/-- The characters of paragraphs, with a space between any two. -/
def proseOf (blocks : List Block) : Text := Text.join [0x20] (blocks.map prose)

/-- The blocks, the last one first, are paragraphs that have the words of the text. -/
structure Shows (blocks : List Block) (t : Text) : Prop where
  paragraphs : ∀ b ∈ blocks, b.kind = .paragraph ∧ prose b ≠ []
  prose_eq : proseOf blocks.reverse = t.squeeze

theorem Shows.space {blocks : List Block} {t : Text} (h : Shows blocks t) {u : Text}
    (hu : ∀ v ∈ u, CodeUnit.isInlineSpace v = true) : Shows blocks (t ++ u) :=
  ⟨h.paragraphs, by rw [Text.squeeze_append_of_space t hu, h.prose_eq]⟩

/-- A paragraph with what was read in it, when that is more than space. -/
def closedParagraph (info : NodeInfo) (f : Fragments) : List Block :=
  if f.finish.isEmpty then [] else [.paragraph info f.finish]

/-- A paragraph adds its words, where the text before it ends with space. -/
theorem Shows.paragraph {blocks : List Block} {before shown : Text} (h : Shows blocks before)
    (hends : before = [] ∨ before.endsInSpace = true) {f : Fragments} (hf : f.Sound)
    (hchars : f.chars.collapsed = shown.collapsed) (info : NodeInfo) :
    Shows (closedParagraph info f ++ blocks) (before ++ shown) := by
  obtain ⟨hplain, hsound⟩ := Fragments.finish_spec hf
  rw [Text.squeeze_congr hchars] at hplain
  have hsqueeze := Text.squeeze_append (t := shown) hends
  unfold closedParagraph
  by_cases hnil : f.finish = []
  · have hshown : shown.squeeze = [] := by rw [← hplain, hnil]; rfl
    rw [hnil, List.isEmpty_nil, if_pos rfl, List.nil_append]
    refine ⟨h.paragraphs, ?_⟩
    rw [h.prose_eq, hsqueeze, hshown, Text.joinSpaced_nil]
  · have hne : prose (.paragraph info f.finish) ≠ [] := by
      rw [prose, Ne, Inline.plainTextOf_eq_nil hsound]
      exact hnil
    rw [if_neg (by simpa using hnil), List.singleton_append]
    refine ⟨?_, ?_⟩
    · intro b hb
      rcases List.mem_cons.mp hb with rfl | hb
      · exact ⟨rfl, hne⟩
      · exact h.paragraphs b hb
    · have htexts : ∀ t ∈ blocks.reverse.map prose, t ≠ [] := by
        intro t ht
        obtain ⟨b, hb, rfl⟩ := List.mem_map.mp ht
        exact (h.paragraphs b (List.mem_reverse.mp hb)).2
      have hprose : proseOf blocks.reverse = before.squeeze := h.prose_eq
      rw [proseOf, List.reverse_cons, List.map_append, List.map_singleton,
        Text.join_concat htexts hne, hsqueeze]
      exact congrArg₂ Text.joinSpaced hprose hplain

/-- Nothing is open and the blocks so far have the words of the text. -/
structure Between (shown : Text) (s : State) : Prop where
  inline?_eq : s.inline? = none
  environments_eq : s.environments = []
  diagnostics_eq : s.diagnostics = []
  shows : Shows s.blocks shown

/-- Where a run stands that has shown something: between blocks, or in a paragraph that holds the
end of what was shown. -/
inductive Stands (ctx : Context) : Text → Text → State → Prop
  | between {m : LineMark} {s : State} {shown t : Text} (h : Between shown s)
      (hends : shown = [] ∨ shown.endsInSpace = true) (hfaces : Faces ctx m s.cursor t) :
      Stands ctx shown t s
  | paragraph {m : LineMark} {s : State} {before shown t : Text} {start : Nat} {c : Cursor}
      {f : Fragments} (h : Between before s) (hends : before = [] ∨ before.endsInSpace = true)
      (hf : f.Sound) (hchars : f.chars.collapsed = shown.collapsed) (hfaces : Faces ctx m c t) :
      Stands ctx (before ++ shown) t (s.inLine (.paragraph start) c f)

/-- Space between blocks is passed. -/
theorem Between.space {shown u rest : Text} (h : Between shown s)
    (hspace : PassesSpace ctx s u rest) :
    ∃ s', Leads ctx s s' ∧ Stands ctx (shown ++ u) rest s' := by
  obtain ⟨m, hfaces⟩ := hspace.faces
  have hends : Text.endsInSpace (shown ++ u) = true := by
    rw [Text.endsInSpace_append hspace.ne_nil,
      Text.endsInSpace_of_forall hspace.ne_nil hspace.isInlineSpace]
  have hpassed : Between (shown ++ u) { s with cursor := s.cursor.advance } :=
    ⟨h.inline?_eq, h.environments_eq, h.diagnostics_eq, h.shows.space hspace.isInlineSpace⟩
  exact ⟨_, .of_isSpacing h.inline?_eq hspace.ahead hspace.spacing,
    .between hpassed (.inr hends) hfaces⟩

theorem passesSpace_lineFeed {rest : Text} (h : Faces ctx m s.cursor (0x0A :: rest)) :
    PassesSpace ctx s [0x0A] rest := by
  have ht := h.lineFeed
  have hspacing : s.cursor.current.isSpacing = true := by simp [Token.isSpacing, ht.kind]
  exact ⟨hspacing, ht.ahead, ⟨_, ht.faces⟩, by simp, by decide⟩

section Paragraph

variable {before shown t rest : Text} {start : Nat} {c : Cursor} {f : Fragments}

/-- A piece is read on in a paragraph. -/
theorem Between.piece (h : Between before s) (hends : before = [] ∨ before.endsInSpace = true)
    (hf : f.Sound) (hchars : f.chars.collapsed = shown.collapsed) (hfaces : Faces ctx m c t)
    {n : Nat} (hn : n ≤ nestingLimit) {more : Text} (hpiece : Piece ctx n more t rest) :
    ∃ s', Leads ctx (s.inLine (.paragraph start) c f) s' ∧
      Stands ctx (before ++ (shown ++ more)) rest s' := by
  have hdepth : (s.inLine (.paragraph start) c f).depth = 0 := by
    simp [State.depth, State.inLine, h.environments_eq, OpenInline.depth, Parse.Line.depth]
  obtain ⟨_, hlead, c', f', rfl, hafter, hchars'⟩ := hpiece.gathers
    (s.inLine (.paragraph start) c f) { line := .paragraph start, run := { fragments := f } }
    (.inl rfl) (by omega) ⟨rfl, hf, m, hfaces⟩
  obtain ⟨m', hfaces'⟩ := hafter.faces
  exact ⟨s.inLine (.paragraph start) c' f', hlead, .paragraph h hends hafter.sound
    (hchars'.trans (Text.collapsed_append_congr hchars rfl)) hfaces'⟩

/-- A paragraph is closed and its words are added. -/
theorem Between.close (h : Between before s) (hends : before = [] ∨ before.endsInSpace = true)
    (hf : f.Sound) (hchars : f.chars.collapsed = shown.collapsed)
    (hclose : Surround.endsAt s.inList c.current .paragraph = true) :
    ∃ s', Leads ctx (s.inLine (.paragraph start) c f) s' ∧ s'.cursor = c ∧
      Between (before ++ shown) s' := by
  refine ⟨_, .of_paragraph_end h.inline?_eq hclose, State.cursor_past _ _ _, ?_⟩
  rw [State.past_of_environments_nil h.environments_eq]
  exact ⟨h.inline?_eq, h.environments_eq, h.diagnostics_eq, h.shows.paragraph hends hf hchars _⟩

end Paragraph

/-- Outside all groups, what was shown is in the paragraphs. -/
theorem reader_stands : Reader ctx 0 (Stands ctx) := by
  constructor
  · intro n shown t rest hpiece hn before s hs
    have hn' : n ≤ nestingLimit := by omega
    cases hs with
    | between h hends hfaces =>
      rcases hpiece.begins s _ h.inline?_eq h.environments_eq hfaces with hbegins | hspace
      · have hopen := Leads.of_paragraph_start h.inline?_eq hbegins.not_spacing hbegins.not_ends
          hbegins.beginBlock_eq
        have hempty : ({} : Fragments).Sound := by
          simp [Fragments.Sound, Fragments.toList, Fragments.flush]
        have hchars : ({} : Fragments).chars.collapsed = Text.collapsed [] := rfl
        obtain ⟨s', hlead, hstands⟩ := h.piece hends hempty hchars hfaces hn' hpiece
        exact ⟨s', hopen.trans hlead, hstands⟩
      · exact h.space hspace
    | paragraph h hends hf hchars hfaces =>
      rw [List.append_assoc]
      exact h.piece hends hf hchars hfaces hn' hpiece
  · intro rest before s hs
    cases hs with
    | between h hends hfaces => exact h.space (passesSpace_lineFeed hfaces)
    | @paragraph m s before shown t start c f h hends hf hchars hfaces =>
      have ht := hfaces.lineFeed
      have hclose : Surround.endsAt s.inList c.current .paragraph = c.current.isBlankLine := by
        simp [Surround.endsAt, ht.kind]
      cases hblank : c.current.isBlankLine with
      | true =>
        obtain ⟨u, hlead, hcursor, hbetween⟩ := h.close hends hf hchars (hclose.trans hblank)
        obtain ⟨v, hpass, hstands⟩ := hbetween.space (passesSpace_lineFeed (hcursor ▸ hfaces))
        exact ⟨v, hlead.trans hpass, hstands⟩
      | false =>
        have hlead : Leads ctx (s.inLine (.paragraph start) c f)
            (s.inLine (.paragraph start) c.advance
              (f.pushText c.current.start c.current.stop [0x20])) :=
          .newLine_inLine ht.kind (hclose.trans hblank)
        rw [List.append_assoc]
        refine ⟨_, hlead, .paragraph h hends (hf.pushText (by simp) _ _) ?_ ht.faces⟩
        rw [Fragments.chars_pushText]
        exact Text.collapsed_append_congr hchars (by decide)

/-- The end of the source closes the last paragraph. -/
theorem Stands.finish {shown : Text} (h : Stands ctx shown [] s) :
    ∃ s', Leads ctx s s' ∧ Between shown s' ∧ s'.cursor.current.kind = .endOfFile := by
  cases h with
  | between h _ hfaces => exact ⟨s, .refl s, h, hfaces.endOfFile⟩
  | @paragraph m s before shown t start c f h hends hf hchars hfaces =>
    have hkind := hfaces.endOfFile
    have hclose : Surround.endsAt s.inList c.current .paragraph = true := by
      simp [Surround.endsAt, hkind]
    obtain ⟨s', hlead, hcursor, hbetween⟩ := h.close hends hf hchars hclose
    exact ⟨s', hlead, hbetween, hcursor ▸ hkind⟩

/-! ## Whole sources -/

/-- A run over formatted text comes to paragraphs with its words. -/
theorem outcomeOf_spell (settings : Settings) (m : Markup) (hdepth : m.depth ≤ nestingLimit) :
    ∃ blocks, Parse.outcomeOf settings m.spell = .ok (blocks, []) ∧ Shows blocks m.erase := by
  have hshows : Shows [] [] := ⟨by simp, rfl⟩
  have hinitial : Stands (.of settings m.spell) [] (m.spell ++ [])
      (State.initial settings m.spell) := by
    rw [List.append_nil]
    exact .between ⟨rfl, rfl, rfl, hshows⟩ (.inl rfl) (Parse.faces_initial settings m.spell)
  obtain ⟨s, hlead, hstands⟩ := reads _ m reader_stands (by omega) isRun_nil (by simp) [] _ hinitial
  rw [List.nil_append, List.nil_append] at hstands
  obtain ⟨s', hlead', hbetween, hkind⟩ := hstands.finish
  refine ⟨s'.blocks, ?_, hbetween.shows⟩
  rw [(hlead.trans hlead').outcomeOf_eq hbetween.inline?_eq hbetween.environments_eq hkind,
    hbetween.diagnostics_eq]

/-- Formatting loses, adds, glues and splits no words: reading formatted text gives paragraphs that
have, with a space between any two, the characters of the source with every run of space made one
and none at the ends. -/
theorem parse_spell (m : Markup) (hdepth : m.depth ≤ 256) :
    ∃ document, parseDocument m.spell = .ok { document, diagnostics := [] } ∧
      (∀ b ∈ document.children, b.kind = .paragraph) ∧
      proseOf document.children = m.erase.squeeze := by
  obtain ⟨blocks, houtcome, hshows⟩ := outcomeOf_spell {} m hdepth
  have hparse : parseDocument m.spell = (Document.parse {} m.spell).mapError .structural := rfl
  rw [hparse, Document.parse_eq, houtcome]
  refine ⟨_, rfl, ?_, hshows.prose_eq⟩
  intro b hb
  exact (hshows.paragraphs b (List.mem_reverse.mp hb)).1

/-- A formatted group with a group in it, a blank line, a bracket, and a formatted tie. -/
def sample : Markup :=
  .styled .textbf
    (.glyph (.unit 0x20 rfl) (.glyph (.unit 0x61 rfl) (.group (.glyph (.unit 0x62 rfl) .done) .done)))
    (.glyph (.unit 0x0A rfl) (.glyph (.unit 0x0A rfl) (.glyph (.unit 0x5B rfl)
      (.styled .emph (.glyph .tie .done) (.glyph (.unit 0x63 rfl) .done)))))

/-- The source of the sample. -/
def sampleSource : Text := "\\textbf\x7b a\x7bb\x7d\x7d\n\n[\\emph\x7b~\x7dc"

theorem parse_spell_sample :
    sample.depth ≤ 256 ∧ ∃ document,
      parseDocument sampleSource = .ok { document, diagnostics := [] } ∧
        (∀ b ∈ document.children, b.kind = .paragraph) ∧
        proseOf document.children = ("ab [ c" : Text) := by
  have hspell : sample.spell = sampleSource := by decide
  have herase : sample.erase.squeeze = Text.ofString "ab [ c" := by decide
  have hdepth : sample.depth ≤ 256 := by decide
  rw [← hspell, ← herase]
  exact ⟨hdepth, parse_spell sample hdepth⟩

end Formatting

end LatexMarkdown
