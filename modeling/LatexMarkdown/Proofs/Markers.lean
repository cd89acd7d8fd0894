import LatexMarkdown.Proofs.Nesting
import LatexMarkdown.Proofs.Steps
/-!
  The markers that a state keeps stand in the token list.

  A marker is captured when something is opened, and kept until it is closed.  `Marked` says of every
  marker in a state that it is the token at its index, and of the kind that opens what it is kept for:
  begin markers of environments and tables, braces, brackets of labels, commands of headings and
  arguments.  Main statement: `Marked.change`, every change keeps this.
-/
namespace LatexMarkdown

/-! ## Cursors in the token list -/

/-- At first all tokens of the source remain. -/
theorem Parse.State.remaining_initial (settings : Settings) (source : Text) :
    (State.initial settings source).cursor.remaining = source.tokens settings.keepComments := by
  have hne := Text.tokensFrom_ne_nil settings.keepComments .normal {} 0 source
  rw [← Text.tokens_eq_tokensFrom] at hne
  rw [initial, Text.cursor, Cursor.remaining_ofTokens hne]

namespace Nesting.Placed

open Parse (State)

variable {tokens : List Token} {c d : Cursor}

/-- The current token stands in the list. -/
theorem listed_marker (h : Placed tokens c) : Listed tokens c.marker := by
  have hne : c.remaining ≠ [] := by simp [Cursor.remaining]
  obtain ⟨t, ts, hr⟩ := List.exists_cons_of_ne_nil hne
  exact h.listed hr

theorem reaches (h : Placed tokens c) (hc : c.Terminated) (hd : c.Reaches d) :
    Placed tokens d := by
  obtain ⟨n, rfl⟩ := hd
  induction n generalizing c with
  | zero => exact h
  | succ n ih =>
    rw [Cursor.advanceBy_succ]
    refine ih ?_ hc.advance
    by_cases hk : c.current.kind = .endOfFile
    · rwa [Cursor.advance, if_pos hk]
    · exact h.advance (Cursor.remaining_eq_cons hc hk) (by simp [Cursor.remaining]) hk

/-- Reading begins at the front of the list. -/
theorem initial (settings : Settings) (source : Text) :
    Placed (source.tokens settings.keepComments) (State.initial settings source).cursor :=
  ⟨by rw [State.remaining_initial]; rfl, rfl⟩

end Nesting.Placed

namespace Parse

open Nesting (Listed Placed)
open Cursor (Reaches)

/-! ## Markers in a state -/

/-- A marker stands in the token list and is of a kind. -/
structure Marks (tokens : List Token) (kind : TokenKind) (m : Marker) : Prop where
  listed : Listed tokens m
  kind_eq : m.token.kind = kind

/-- The braces of a run. -/
def Run.Marked (tokens : List Token) (r : Run) : Prop :=
  ∀ b ∈ r.braces, Marks tokens .groupOpen b.marker

/-- The command of an argument, its brace, and the run that it interrupts. -/
structure OpenArgument.Marked (tokens : List Token) (a : OpenArgument) : Prop where
  command : ∀ m ∈ a.purpose.command?, Marks tokens .command m
  opener : Marks tokens .groupOpen a.opener
  outer : a.outer.Marked tokens

/-- What opened a line. -/
def Line.Marked (tokens : List Token) : Line → Prop
  | .paragraph _ => True
  | .heading command _ opener => Marks tokens .command command ∧ Marks tokens .groupOpen opener
  | .label _ opener => Marks tokens .bracketOpen opener
  | .cell table => Marks tokens .envBegin table.marker

/-- What opened the line, the braces and the arguments. -/
structure OpenInline.Marked (tokens : List Token) (i : OpenInline) : Prop where
  line : i.line.Marked tokens
  run : i.run.Marked tokens
  arguments : ∀ a ∈ i.arguments, a.Marked tokens

/-- Every marker in a state stands in the token list, and is of the kind that opens what it is kept
for. -/
structure Marked (tokens : List Token) (s : State) : Prop where
  terminated : s.cursor.Terminated
  placed : Placed tokens s.cursor
  environments : ∀ m ∈ s.environments.map (·.marker), Marks tokens .envBegin m
  inline : ∀ i ∈ s.inline?, i.Marked tokens

variable {tokens : List Token} {ctx : Context} {s t : State} {i : OpenInline}

namespace Marked

/-- A marker captured ahead. -/
theorem marks (h : Marked tokens s) {c : Cursor} (hc : s.cursor.Reaches c) {kind : TokenKind}
    (hk : c.current.kind = kind) : Marks tokens kind c.marker :=
  ⟨(h.placed.reaches h.terminated hc).listed_marker, hk⟩

/-- The state moves on; what it keeps then is given. -/
theorem next (h : Marked tokens s) (hc : s.cursor.Reaches t.cursor)
    (he : ∀ m ∈ t.environments.map (·.marker), Marks tokens .envBegin m)
    (hi : ∀ i ∈ t.inline?, i.Marked tokens) : Marked tokens t :=
  ⟨hc.terminated h.terminated, h.placed.reaches h.terminated hc, he, hi⟩

/-- The state moves on in the same environments, with other inline content. -/
theorem next_inline (h : Marked tokens s) {c : Cursor} (hc : s.cursor.Reaches c)
    (hi : i.Marked tokens) : Marked tokens { s with cursor := c, inline? := some i } :=
  h.next hc h.environments fun _ hj => Option.some.inj hj ▸ hi

/-- The state moves on, with the same environments open and no inline content. -/
theorem next_none (h : Marked tokens s) (hc : s.cursor.Reaches t.cursor)
    (he : t.environments.map (·.marker) = s.environments.map (·.marker))
    (hi : t.inline? = none) : Marked tokens t :=
  h.next hc (he ▸ h.environments) (by simp [hi])

/-- Inline content that is open. -/
theorem of_inline (h : Marked tokens s) (hi : s.inline? = some i) : i.Marked tokens := h.inline i hi

end Marked

/-! ## Changes -/

theorem State.markers_closeHeading (s : State) (ctx : Context) (command : Marker) (level : Nat)
    (f : Fragments) : (s.closeHeading ctx command level f).environments.map (·.marker)
      = s.environments.map (·.marker) := by
  simp only [closeHeading]
  split <;> simp only [warnAt, warn, Nesting.markers_addBlocks]

theorem State.markers_closeLabel (s : State) (f : Fragments) :
    (s.closeLabel f).environments.map (·.marker) = s.environments.map (·.marker) := by
  simp only [closeLabel]
  split
  · rfl
  · next heq => rw [heq]; rfl

/-- Every change keeps the markers in place. -/
theorem Marked.change (h : Marked tokens s) (hchange : Change ctx s t) : Marked tokens t := by
  have hadvance : s.cursor.Reaches s.cursor.advance := .advance _
  -- What is opened captures the current token or one ahead; all else keeps markers or drops them.
  cases hchange with
  | skip hc => exact h.next hc h.environments h.inline
  | warn cause => exact h.next (.refl _) h.environments h.inline
  | addLeaf hi hb =>
    refine h.next_none ?_ ?_ ?_
    · simpa using hadvance.trans hb.reaches_advance
    · rw [Nesting.markers_addBlocks]
    · simpa using hi
  | beginEnvironment hi hk hc hr =>
    refine h.next (hadvance.trans hc) ?_ (by simp [State.pushEnvironment, hi])
    intro m hm
    rcases List.mem_cons.mp hm with rfl | hm
    · exact h.marks (.refl _) hk
    · exact h.environments m hm
  | closeEnvironment hi hk he =>
    refine h.next ?_ ?_ ?_
    · rw [State.cursor_closeEnvironment]
      exact hadvance
    · rw [Nesting.markers_closeEnvironment]
      intro m hm
      exact h.environments m (by rw [he]; exact List.mem_cons_of_mem _ hm)
    · rw [State.inline?_closeEnvironment, hi]
      simp
  | beginItem hi hk he hl =>
    refine h.next_none hadvance ?_ ?_
    · rw [he]
      rfl
    · exact (State.inline?_finishItem s _ _).trans hi
  | beginLabel hi he hl hb hc ho =>
    exact h.next_inline (hc.trans (.advance _)) ⟨h.marks hc ho, by simp [Run.Marked], by simp⟩
  | beginHeading hi hk hc ho =>
    have hopener := h.marks (hadvance.trans hc) ho
    exact h.next_inline ((hadvance.trans hc).trans (.advance _))
      ⟨⟨h.marks (.refl _) hk, hopener⟩, by simp [Run.Marked], by simp⟩
  | beginParagraph hi =>
    exact h.next_inline (.refl _) ⟨trivial, by simp [Run.Marked], by simp⟩
  | beginTable hi hk hc =>
    exact h.next_inline (hadvance.trans hc)
      ⟨h.marks (.refl _) hk, by simp [Run.Marked, State.openCell], by simp [State.openCell]⟩
  | gather hi hk hr =>
    have hm := h.of_inline hi
    refine h.next_inline ?_ ⟨hm.line, hm.run, hm.arguments⟩
    exact hadvance.trans hr.reaches_advance
  | openBrace kept hi hk =>
    have hm := h.of_inline hi
    refine h.next_inline hadvance ⟨hm.line, ?_, hm.arguments⟩
    intro b hb
    rcases List.mem_cons.mp hb with rfl | hb
    · exact h.marks (.refl _) hk
    · exact hm.run b hb
  | closeBrace hi hk hb =>
    have hm := h.of_inline hi
    refine h.next_inline hadvance ⟨hm.line, ?_, hm.arguments⟩
    intro b hmem
    exact hm.run b (by rw [hb]; exact List.mem_cons_of_mem _ hmem)
  | openArgument hi hk hl hp hc ho hu =>
    have hm := h.of_inline hi
    refine h.next_inline ((hadvance.trans hc).trans (.advance _)) ⟨?_, by simp [Run.Marked], ?_⟩
    · -- A spanning cell stays in the table that was opened.
      rcases hl with rfl | ⟨table, span, hcell, rfl⟩
      · exact hm.line
      · have hline := hm.line
        rwa [hcell] at hline
    · intro a ha
      rcases List.mem_cons.mp ha with rfl | ha
      · -- The run that is interrupted goes into the argument with its braces.
        exact ⟨fun m hmem => hp m hmem ▸ h.marks (.refl _) hk, h.marks (hadvance.trans hc) ho,
          hm.run⟩
      · exact hm.arguments a ha
  | closeArgument hi hk ha =>
    have hm := h.of_inline hi
    have harguments := hm.arguments
    rw [ha] at harguments
    exact h.next_inline hadvance ⟨hm.line, (harguments _ List.mem_cons_self).outer,
      fun a hmem => harguments a (List.mem_cons_of_mem _ hmem)⟩
  | closeParagraph hi ha hl =>
    refine h.next_none ?_ (Nesting.markers_closeParagraph _ _ _) (State.inline?_closeParagraph _ _ _)
    rw [State.cursor_closeParagraph]
    exact .refl _
  | closeHeading hi hk ha hl =>
    refine h.next_none ?_ (State.markers_closeHeading _ _ _ _ _) ?_
    · simp only [State.closeHeading]
      split <;> simpa [State.warnAt, State.warn] using hadvance
    · simp only [State.closeHeading]
      split <;> simp [State.warnAt, State.warn]
  | closeLabel hi hk ha hl =>
    refine h.next_none ?_ (State.markers_closeLabel _ _) ?_
    · simp only [State.closeLabel]
      split <;> exact hadvance
    · simp only [State.closeLabel]
      split <;> rfl
  | nextCell hi hk ha hl =>
    have hline := (h.of_inline hi).line
    rw [hl] at hline
    exact h.next_inline hadvance ⟨hline, by simp [Run.Marked, State.openCell],
      by simp [State.openCell]⟩
  | nextRow hi hk ha hl hc =>
    have hline := (h.of_inline hi).line
    rw [hl] at hline
    refine h.next_inline (hadvance.trans hc) ⟨?_, by simp [Run.Marked, State.openCell],
      by simp [State.openCell]⟩
    show Marks tokens .envBegin (s.finishRow _).marker
    rw [State.marker_finishRow]
    exact hline
  | closeTable hi hk ha hl hr =>
    refine h.next_none ?_ ?_ ?_
    · simpa using hadvance
    · obtain ⟨ds, heq, -⟩ := s.exists_warnRagged_eq _ (TableRow.columnCount _) _
      rw [Nesting.markers_addBlocks, heq]
    · simp

end Parse

end LatexMarkdown
