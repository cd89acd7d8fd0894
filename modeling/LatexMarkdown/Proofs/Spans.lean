import LatexMarkdown.Proofs.Spans.Change
import LatexMarkdown.Proofs.Steps
/-!
  The spans of a document that is read.

  Every node of it lies in the source, and the children of every node stand in source order
  (`parseDocument_inOrder`).  They lie within the node as well, but for one kind of node: a table row
  whose last cell begins behind dropped comments ends before that cell (`childrenWithin_iff`).

  Both come from what a run over the source keeps, `Parse.InSourceOrder`.
-/
namespace LatexMarkdown

variable {source : Text} {keep : Bool} {options : Options} {parsed : Parsed} {n : Node}

/-! ## Nodes -/

/-- Children in source order do not overlap. -/
theorem Node.Spans.pairwise (h : n.Spans source keep) :
    n.children.Pairwise fun a b => a.stop ≤ b.start := by
  rcases h.children with hchildren | ⟨r, cells, p, rfl, hearly⟩
  · exact hchildren.ordered
  · obtain ⟨hcells, hinOrder, hlt, -, -⟩ := hearly
    rw [Node.children, hcells, List.map_append]
    refine List.pairwise_append.mpr ⟨hinOrder.ordered, by simp, fun a ha b hb => ?_⟩
    rw [List.mem_singleton.mp hb]
    exact Nat.le_trans (hinOrder.within a ha).2.2 (Nat.le_of_lt hlt)

/-- The last cell of a row that ends early is not within the row. -/
theorem EndsEarly.not_childrenWithin {r : TableRow} {cells : List TableCell} {p : Nat}
    (h : EndsEarly source keep r cells p) : (Node.tableRow r).childrenWithin = false := by
  have hmem : Node.tableCell { info := .span p p, children := [] } ∈ (Node.tableRow r).children := by
    rw [Node.children, h.cells_eq]
    simp
  refine List.all_eq_false.mpr ⟨_, hmem, ?_⟩
  have hlt : ¬ p ≤ r.info.stop := Nat.not_le_of_lt h.lt
  simp [Node.stop, Node.info, NodeInfo.span, hlt]

/-- Only a row that ends early does not hold its children. -/
theorem Node.Spans.childrenWithin_iff (h : n.Spans source keep) :
    n.childrenWithin = true ↔ ¬ ∃ r cells p, n = .tableRow r ∧ EndsEarly source keep r cells p := by
  constructor
  · rintro hwithin ⟨r, cells, p, rfl, hearly⟩
    rw [hearly.not_childrenWithin] at hwithin
    exact absurd hwithin (by simp)
  · intro hnone
    have hchildren := h.children.resolve_right hnone
    refine List.all_eq_true.mpr fun c hc => ?_
    obtain ⟨hstart, -, hstop⟩ := hchildren.within c hc
    simp [hstart, hstop]

/-! ## Documents -/

theorem Parse.InSourceOrder.initial (settings : Settings) (source : Text) :
    InSourceOrder source settings.keepComments (State.initial settings source) :=
  .of_none (Tiled.initial settings source) (by simp [Reported, State.initial]) rfl .nil

/-- All of a document that is read is in source order, and its diagnostics are in the source. -/
theorem orderly_of_parseDocument (h : parseDocument source options = .ok parsed) :
    ∃ settings, options.resolve = .ok settings ∧
      (Node.document parsed.document).Orderly source settings.keepComments ∧
      Parse.Reported source parsed.diagnostics := by
  obtain ⟨settings, blocks, diagnostics, hsettings, houtcome, rfl⟩ := exists_of_parseDocument_ok h
  have hyields := Parse.yields_outcomeOf (fun _ _ => Parse.InSourceOrder.change)
    (Parse.InSourceOrder.initial settings source)
  rw [houtcome] at hyields
  obtain ⟨t, ht, hinline, henvironments, heq⟩ := hyields
  obtain ⟨rfl, rfl⟩ := Prod.mk.inj heq
  have hblocks := ht.stacked_of_none hinline
  rw [henvironments] at hblocks
  refine ⟨settings, hsettings, ?_, fun d hd => ht.reported d (List.mem_reverse.mp hd)⟩
  exact .of_children (Nat.zero_le _) (Nat.le_refl _)
    (Laid.mono_right hblocks ht.tiled.lastStop_le_length)

/-- A source whose reading comes to a value is read. -/
theorem exists_of_parse_map {α : Type} {settings : Settings} {f : Parsed → α} {a : α}
    (hsettings : options.resolve = .ok settings)
    (h : (Document.parse settings source).map f = .ok a) :
    ∃ parsed, parseDocument source options = .ok parsed ∧ f parsed = a := by
  have hparse : parseDocument source options
      = (Document.parse settings source).mapError .structural := by
    rw [parseDocument, withSettings, hsettings]
  rw [hparse]
  cases hread : Document.parse settings source with
  | error e => rw [hread] at h; cases h
  | ok parsed =>
    rw [hread] at h
    exact ⟨parsed, rfl, Except.ok.inj h⟩

/-- Every node of a document that is read lies in the source, its children stand in source order, and
every diagnostic lies in the source. -/
theorem parseDocument_inOrder (h : parseDocument source options = .ok parsed) :
    (∀ n ∈ (Node.document parsed.document).tree.preorder,
      n.spanWithin source.length = true ∧ n.children.Pairwise fun a b => a.stop ≤ b.start) ∧
    ∀ d ∈ parsed.diagnostics, d.start ≤ d.stop ∧ d.stop ≤ source.length := by
  obtain ⟨settings, -, horderly, hreported⟩ := orderly_of_parseDocument h
  refine ⟨fun n hn => ?_, hreported⟩
  have hspans := horderly n hn
  refine ⟨?_, hspans.pairwise⟩
  simp [Node.spanWithin, hspans.upright, hspans.stop_le]

/-- A labelled item, mathematics that a double dollar closes and opens, and a table with a cell that
spans two columns and a row that lacks one. -/
theorem parseDocument_inOrder_sample :
    let source : Text := "\\begin\x7bitemize\x7d\\item[a] $b$$c$\\end\x7bitemize\x7d\\begin\x7btabular\x7d\x7bcc\x7d"
      ++ "\\multicolumn\x7b2\x7d\x7bc\x7d\x7bd\x7d\\\\e\\end\x7btabular\x7d"
    ∃ parsed, parseDocument source {} = .ok parsed ∧
      ((Node.document parsed.document).tree.preorder.length, parsed.diagnostics.length) = (16, 1) ∧
      (∀ n ∈ (Node.document parsed.document).tree.preorder,
        n.spanWithin source.length = true ∧ n.children.Pairwise fun a b => a.stop ≤ b.start) ∧
      ∀ d ∈ parsed.diagnostics, d.start ≤ d.stop ∧ d.stop ≤ source.length := by
  intro source
  have hread : (Document.parse {} source).map (fun p =>
      ((Node.document p.document).tree.preorder.length, p.diagnostics.length)) = .ok (16, 1) := by
    decide +kernel
  have hresolve : ({} : Options).resolve = .ok {} := rfl
  obtain ⟨parsed, h, hcount⟩ := exists_of_parse_map hresolve hread
  exact ⟨parsed, h, hcount, parseDocument_inOrder h⟩

/-- The children of every node of a document that is read lie within the node, unless it is a table
row whose last cell begins behind dropped comments; where comments are kept there is no such row. -/
theorem childrenWithin_unless_endsEarly (h : parseDocument source options = .ok parsed) :
    ∃ settings, options.resolve = .ok settings ∧
      ∀ n ∈ (Node.document parsed.document).tree.preorder,
        (n.childrenWithin = true ↔ ¬ ∃ r cells p, n = .tableRow r ∧
          EndsEarly source settings.keepComments r cells p) ∧
        (settings.keepComments = true → n.childrenWithin = true) := by
  obtain ⟨settings, hsettings, horderly, -⟩ := orderly_of_parseDocument h
  refine ⟨settings, hsettings, fun n hn => ?_⟩
  have hiff := (horderly n hn).childrenWithin_iff
  refine ⟨hiff, fun hkeep => hiff.mpr ?_⟩
  rintro ⟨r, cells, p, -, hearly⟩
  exact Nat.ne_of_lt hearly.lt (hearly.gap.kept hkeep)

/-- A comment between a separator and the end of the table. -/
def commentedCell : Text := "\\begin\x7btabular\x7d\x7bc\x7da&%c\n\\end\x7btabular\x7d"

theorem childrenWithin_unless_endsEarly_commentedCell :
    ∃ parsed, parseDocument commentedCell {} = .ok parsed ∧
      ∃ settings, ({} : Options).resolve = .ok settings ∧
        ∀ n ∈ (Node.document parsed.document).tree.preorder,
          (n.childrenWithin = true ↔ ¬ ∃ r cells p, n = .tableRow r ∧
            EndsEarly commentedCell settings.keepComments r cells p) ∧
          (settings.keepComments = true → n.childrenWithin = true) := by
  have hread : (Document.parse {} commentedCell).map (fun _ => ()) = .ok () := by decide +kernel
  have hresolve : ({} : Options).resolve = .ok {} := rfl
  obtain ⟨parsed, h, -⟩ := exists_of_parse_map hresolve hread
  exact ⟨parsed, h, childrenWithin_unless_endsEarly h⟩

/-- Not every node of a document that is read holds its children. -/
theorem not_forall_childrenWithin :
    ¬ ∀ (source : Text) (options : Options) (parsed : Parsed),
      parseDocument source options = .ok parsed →
        ∀ n ∈ (Node.document parsed.document).tree.preorder, n.childrenWithin = true := by
  intro hall
  have hread : (Document.parse {} commentedCell).map (fun p =>
      (Node.document p.document).tree.preorder.all Node.childrenWithin) = .ok false := by
    decide +kernel
  have hresolve : ({} : Options).resolve = .ok {} := rfl
  obtain ⟨parsed, h, hfalse⟩ := exists_of_parse_map hresolve hread
  obtain ⟨n, hn, hout⟩ := List.all_eq_false.mp hfalse
  exact hout (hall _ _ parsed h n hn)

end LatexMarkdown
