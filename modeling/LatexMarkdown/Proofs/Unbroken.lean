import LatexMarkdown.Proofs.Making.Change
import LatexMarkdown.Proofs.Markers
import LatexMarkdown.Proofs.RawBodies
import LatexMarkdown.Proofs.Spans
import LatexMarkdown.Proofs.Unbroken.Lines
import LatexMarkdown.Proofs.Unbroken.Output
/-!
  The lines of a document that is read.

  Text and mathematics have their space collapsed, and the argument of a `\verb` ends with its line;
  only the destination of a link is written as it is spelled.  So a line feed gets into a line from a
  destination, or not at all (`Inline.Made.unbroken`).  Main statement: `lines_of_parseDocument`,
  where no destination of a source has a line feed, every block has its lines in the output, one for
  a heading, and one more than its rows for a table.
-/
namespace LatexMarkdown

open Markdown

/-! ## Inline content -/

/-- No line feed stands in what a node is written as on one line, nor in its characters. -/
structure Inline.Unbroken (n : Inline) : Prop where
  written : ∀ afterMath, (spanText [0x20] afterMath n).Unbroken
  plain : n.plainText.Unbroken

namespace Inline

variable {n : Inline} {ns : List Inline}

theorem unbroken_inlineText (h : ∀ n ∈ ns, n.Unbroken) (afterMath : Bool) :
    (inlineText [0x20] afterMath ns).Unbroken := by
  induction ns generalizing afterMath with
  | nil => exact .nil
  | cons n rest ih =>
    rw [inlineText]
    exact ((h n List.mem_cons_self).written afterMath).append
      (ih (fun m hm => h m (List.mem_cons_of_mem _ hm)) _)

theorem unbroken_plainTextOf (h : ∀ n ∈ ns, n.Unbroken) : (plainTextOf ns).Unbroken := by
  induction ns with
  | nil => exact .nil
  | cons n rest ih =>
    rw [plainTextOf]
    exact (h n List.mem_cons_self).plain.append (ih fun m hm => h m (List.mem_cons_of_mem _ hm))

namespace Unbroken

theorem text (i : NodeInfo) {t : Text} (ht : t.Unbroken) : Unbroken (.text i t) :=
  ⟨fun _ => ht, ht⟩

theorem hardBreak (i : NodeInfo) : Unbroken (.hardBreak i) := by
  have hspace : Text.Unbroken [0x20] := by decide
  exact ⟨fun _ => hspace, hspace⟩

theorem code (i : NodeInfo) {t : Text} (ht : t.Unbroken) : Unbroken (.code i t) := by
  have hspace : Text.Unbroken " " := by decide
  have hticks : ∀ n, (backticks n).Unbroken := fun n => .replicate n (by decide)
  refine ⟨fun _ => ?_, ht⟩
  rw [spanText, codeSpan]
  split
  · exact ((hticks _).append ht).append (hticks _)
  · exact ((((hticks _).append hspace).append ht).append hspace).append (hticks _)

theorem math (i : NodeInfo) {t : Text} (ht : t.Unbroken) : Unbroken (.math i t) := by
  have hdollars : Text.Unbroken "$$" := by decide
  refine ⟨fun afterMath => ?_, ht⟩
  rw [spanText]
  refine Text.Unbroken.append (.append (.append ?_ hdollars) ht) hdollars
  split <;> decide

theorem strong (i : NodeInfo) (h : ∀ n ∈ ns, n.Unbroken) : Unbroken (.strong i ns) := by
  have hmark : Text.Unbroken "**" := by decide
  refine ⟨fun _ => ?_, unbroken_plainTextOf h⟩
  rw [spanText]
  exact (hmark.append (unbroken_inlineText h false)).append hmark

theorem emphasis (i : NodeInfo) (h : ∀ n ∈ ns, n.Unbroken) : Unbroken (.emphasis i ns) := by
  have hmark : Text.Unbroken "*" := by decide
  refine ⟨fun _ => ?_, unbroken_plainTextOf h⟩
  rw [spanText]
  exact (hmark.append (unbroken_inlineText h false)).append hmark

/-- The escapes in a destination keep a line feed as it is, and bring none in. -/
theorem link (i : NodeInfo) {url : Text} (hurl : url.Unbroken) (h : ∀ n ∈ ns, n.Unbroken) :
    Unbroken (.link i url ns) := by
  have hopen : Text.Unbroken "[" := by decide
  have hbetween : Text.Unbroken "](" := by decide
  have hclose : Text.Unbroken ")" := by decide
  have hescape : (escapeDestination url).Unbroken := by
    refine hurl.replaceEach fun u _ => ?_
    split
    · decide
    · split <;> decide
  refine ⟨fun _ => ?_, unbroken_plainTextOf h⟩
  rw [spanText]
  exact (((hopen.append (unbroken_inlineText h false)).append hbetween).append hescape).append hclose

end Unbroken

/-- Normal form collapses the space of texts, so only other nodes can bring a line feed in. -/
theorem unbroken_of_mem_normalize (h : ∀ n ∈ ns, n.isText = false → n.Unbroken) :
    ∀ n ∈ normalize ns, n.Unbroken := by
  intro n hn
  rcases mem_normalize hn with ⟨hmem, htext⟩ | ⟨i, t, rfl, ht⟩
  · exact h n hmem htext
  · refine .text i fun hmem => ?_
    have hspace := ht 0x0A hmem (by decide)
    exact absurd hspace (by decide)

end Inline

/-! ## What is read -/

section Reading

variable {settings : Settings} {source : Text}

/-- The argument of a `\verb` is on one line. -/
theorem Cursor.Reaches.unbroken_rawText {c : Cursor}
    (hc : (source.cursor settings.keepComments).Reaches c) (hk : c.current.kind = .command)
    (hraw : c.advance.current.kind = .rawText) : c.advance.current.text.Unbroken := by
  have hstart := source.terminated_cursor settings.keepComments
  have hplaced := (Nesting.Placed.initial settings source).reaches hstart hc
  -- The command and the raw text behind it are neighbours among the tokens of the source.
  have hends : VerbsEnd (c.current :: c.advance.remaining) := by
    rw [← remaining_eq_cons (hc.terminated hstart) (by simp [hk])]
    exact .of_append (hplaced.tokens_eq ▸ source.verbsEnd_tokens settings.keepComments)
  have hne : c.advance.remaining ≠ [] := by simp [remaining]
  obtain ⟨t, rest, hremaining⟩ := List.exists_cons_of_ne_nil hne
  have hcurrent := current_of_remaining hremaining
  intro hmem
  have hbreak := hends.1 hk t (by rw [hremaining]; rfl) (hcurrent ▸ hraw) 0x0A (hcurrent ▸ hmem)
  exact absurd hbreak (by decide)

variable (hurls : ∀ url ∈ source.destinations settings.keepComments, url.Unbroken)

include hurls

/-- What is read from a token on brings no line feed in, unless it is text or a destination does. -/
theorem Parse.Reads.unbroken {c d : Cursor} {n : Inline} {ns : List Inline}
    (hc : (source.cursor settings.keepComments).Reaches c)
    (h : Parse.Reads (.of settings source) c d ns) (hn : n ∈ ns) (htext : n.isText = false) :
    n.Unbroken := by
  cases h with
  | dropped => cases hn
  | text t =>
    rw [List.mem_singleton.mp hn] at htext
    cases htext
  | comment t =>
    rcases List.mem_cons.mp hn with rfl | hn
    · cases htext
    · rw [List.mem_singleton.mp hn]
      exact .hardBreak _
  | hardBreak =>
    rw [List.mem_singleton.mp hn]
    exact .hardBreak _
  | url hname hgroup =>
    have hurl := hurls _ (Parse.mem_destinations_of_url hc hname hgroup)
    rw [List.mem_singleton.mp hn]
    exact .link _ hurl fun m hm => List.mem_singleton.mp hm ▸ .text _ hurl
  | verbatim hk hraw =>
    rw [List.mem_singleton.mp hn]
    exact .code _ (hc.unbroken_rawText hk hraw)
  | math h =>
    have hmath := Parse.isMathSpan_of_readInlineMath h hn
    cases n with
    | math i t =>
      obtain ⟨-, body, rfl⟩ := hmath
      exact .math i (.collapse (by decide) _)
    | _ => exact hmath.elim

/-- A node that is made of a source brings no line feed in, unless it is text or a destination does.
-/
theorem Inline.Made.unbroken {n : Inline} (h : n.Made settings source) :
    n.isText = false → n.Unbroken := by
  -- The induction is on how the node was made.  Texts are left out of it: they are collapsed only
  -- when the content that they are in is brought into normal form.
  induction h with
  | text => exact fun htext => by cases htext
  | read hc h hn => exact h.unbroken hurls hc hn
  | strong i _ _ ih => exact fun _ => .strong i (unbroken_of_mem_normalize ih)
  | emphasis i _ _ ih => exact fun _ => .emphasis i (unbroken_of_mem_normalize ih)
  | code i _ _ ih => exact fun _ => .code i (unbroken_plainTextOf (unbroken_of_mem_normalize ih))
  | link i hurl _ _ ih => exact fun _ => .link i (hurls _ hurl) (unbroken_of_mem_normalize ih)
  | url i hurl =>
    have ht := hurls _ hurl
    exact fun _ => .link i ht fun m hm => List.mem_singleton.mp hm ▸ .text i ht

/-- Content in normal form is on one line. -/
theorem Inline.Finished.unbroken_oneLine {ns : List Inline} (h : Finished settings source ns) :
    (oneLine ns).Unbroken := by
  obtain ⟨gathered, hmade, rfl⟩ := h
  exact unbroken_inlineText (unbroken_of_mem_normalize fun n hn => (hmade n hn).unbroken hurls) false

theorem Node.Made.unbroken {n : Node} (h : n.Made settings source) : n.Unbroken := by
  cases n with
  | block b =>
    cases b with
    | heading => exact Inline.Finished.unbroken_oneLine hurls h
    | code =>
      obtain ⟨c, d, -, hleaf⟩ := h
      cases hleaf
      exact fun l hl => Parse.CodeBody.unbroken_language hl
    | _ => trivial
  | tableCell => exact Inline.Finished.unbroken_oneLine hurls h
  | _ => trivial

end Reading

/-! ## Documents -/

variable {source : Text} {options : Options} {settings : Settings} {parsed : Parsed}

/-- In a document that is read, no line of a block has a line feed, and the lines of a block stand
together in the output: one for a heading, and one more than its rows for a table.  This asks that no
line feed stands in the destinations of the source, which are written as they are spelled, or in the
icon of quotes. -/
theorem lines_of_parseDocument (h : parseDocument source options = .ok parsed)
    (hsettings : options.resolve = .ok settings)
    (hurls : ∀ url ∈ source.destinations settings.keepComments, url.Unbroken)
    (hicon : settings.calloutIcon.Unbroken) {b : Block}
    (hmem : .block b ∈ (Node.document parsed.document).tree.preorder) :
    (∀ depth, ∀ line ∈ blockLines settings.calloutIcon depth b, line.Unbroken) ∧
      ∃ depth ls, Marked ls (blockLines settings.calloutIcon depth b) ∧
        ls <:+: (render settings parsed.document).splitOn 0x0A ∧
        (∀ i level cs, b = .heading i level cs → ls.length = 1) ∧
        (∀ i rows, b = .table i rows → rows ≠ [] → ls.length = rows.length + 1) := by
  obtain ⟨settings', hresolve, hmade⟩ := allMade_of_parseDocument h
  obtain rfl : settings' = settings := Except.ok.inj (hresolve.symm.trans hsettings)
  have hall : (Node.document parsed.document).AllUnbroken := fun m hm => (hmade m hm).unbroken hurls
  have hblock : (Node.block b).AllUnbroken := fun m hm => (hmade.of_mem hmem m hm).unbroken hurls
  refine ⟨fun depth => unbroken_blockLines hicon depth b hblock, ?_⟩
  obtain ⟨depth, ls, hmarked, hinfix⟩ := stands_blocksLines settings'.calloutIcon 0 _
    (Document.exists_block_of_mem hmem)
  have hchildren : ∀ c ∈ parsed.document.children, (Node.block c).AllUnbroken := fun c hc =>
    hall.children _ (List.mem_map_of_mem hc)
  have houtput := Text.infix_splitOn_join hinfix (unbroken_blocksLines hicon 0 _ hchildren)
  refine ⟨depth, ls, hmarked, houtput, ?_, ?_⟩
  · rintro i level cs rfl
    rw [hmarked.length_eq, blockLines, List.length_singleton]
  · rintro i rows rfl hne
    rw [hmarked.length_eq, blockLines, length_tableLines hne]

/-- A heading with a link and a table with two rows; text goes over a line break in both. -/
theorem lines_of_parseDocument_sample :
    let source : Text :=
      "\\section\x7ba\nb \\url\x7bc\x7d\x7d\\begin\x7btabular\x7d\x7bc\x7dd\ne\\\\f\\end\x7btabular\x7d"
    ∃ parsed heading table, parseDocument source {} = .ok parsed ∧
      parsed.document.children = [heading, table] ∧
      heading.kind = .heading ∧ table.kind = .table ∧
      ({} : Options).resolve = .ok {} ∧
      (∀ url ∈ source.destinations ({} : Settings).keepComments, url.Unbroken) ∧
      ({} : Settings).calloutIcon.Unbroken ∧
      ∀ b ∈ [heading, table], .block b ∈ (Node.document parsed.document).tree.preorder ∧
        (∀ depth, ∀ line ∈ blockLines ({} : Settings).calloutIcon depth b, line.Unbroken) ∧
        ∃ depth ls, Marked ls (blockLines ({} : Settings).calloutIcon depth b) ∧
          ls <:+: (render {} parsed.document).splitOn 0x0A ∧
          (∀ i level cs, b = .heading i level cs → ls.length = 1) ∧
          (∀ i rows, b = .table i rows → rows ≠ [] → ls.length = rows.length + 1) := by
  intro source
  have hresolve : ({} : Options).resolve = .ok {} := rfl
  have hread : (Document.parse {} source).map (fun p => p.document.children.map Block.kind)
      = .ok [.heading, .table] := by decide +kernel
  obtain ⟨parsed, h, hkinds⟩ := exists_of_parse_map hresolve hread
  obtain ⟨heading, rest, hchildren, hheading, hrest⟩ := List.map_eq_cons_iff.mp hkinds
  obtain ⟨table, rest, rfl, htable, hnil⟩ := List.map_eq_cons_iff.mp hrest
  rw [List.map_eq_nil_iff.mp hnil] at hchildren
  have hurls : ∀ url ∈ source.destinations ({} : Settings).keepComments, url.Unbroken := by
    decide +kernel
  have hicon : ({} : Settings).calloutIcon.Unbroken := by decide
  refine ⟨parsed, heading, table, h, hchildren, hheading, htable, hresolve, hurls, hicon, ?_⟩
  intro b hb
  have hmem := Document.block_mem_preorder (hchildren ▸ hb)
  exact ⟨hmem, lines_of_parseDocument h hresolve hurls hicon hmem⟩

/-- A heading whose only content is a link with a line feed in its destination. -/
def brokenHeading : Text := "\\section\x7b\\url\x7ba\nb\x7d\x7d"

/-- A line of a block can have a line feed in it. -/
theorem not_forall_blockLines_unbroken :
    ¬ ∀ (source : Text) (options : Options) (settings : Settings) (parsed : Parsed) (b : Block),
      parseDocument source options = .ok parsed → options.resolve = .ok settings →
      .block b ∈ (Node.document parsed.document).tree.preorder →
      ∀ depth, ∀ line ∈ blockLines settings.calloutIcon depth b, line.Unbroken := by
  intro hall
  have hresolve : ({} : Options).resolve = .ok {} := rfl
  have hread : (Document.parse {} brokenHeading).map (fun p =>
      decide (∀ b ∈ p.document.children,
        ∀ line ∈ blockLines ({} : Settings).calloutIcon 0 b, line.Unbroken)) = .ok false := by
    decide +kernel
  obtain ⟨parsed, h, hbroken⟩ := exists_of_parse_map hresolve hread
  apply of_decide_eq_false hbroken
  intro b hb
  exact hall brokenHeading {} {} parsed b h hresolve (Document.block_mem_preorder hb) 0

end LatexMarkdown
