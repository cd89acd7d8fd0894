import LatexMarkdown.Proofs.Concatenation
import LatexMarkdown.Proofs.Tabular.Rows
/-!
  Tables of words, converted.

  A table is read as one block that has the texts of its rows (`leads_table`), so its conversion is
  the pipe table of those that are kept, if there is room for it, and what is said about it is known
  (`convert_print`).
-/
namespace LatexMarkdown

open Parse (State Context Surround OpenInline OpenTable Faces nestingLimit)
open Parse.State (Leads openCell)

namespace Tabular

variable {ctx : Context} {m : LineMark} {s u : State} {c : Cursor} {rest : Text} {begun : Marker}
  {rows : List (List Text)} {cells : List Text} {options : Options} {settings : Settings}

/-! ## Whole tables -/

theorem columnCount_eq_width {rs : List TableRow}
    (h : rs.map (TableRow.mapOffsets fun _ => ()) = rows.map rowOf) :
    TableRow.columnCount rs = width rows := by
  rw [← columnCount_rowOf, ← h, TableRow.columnCount_map]

/-- The reports on short rows, from the texts of the rows. -/
theorem cause_raggedReport {rs : List TableRow}
    (h : rs.map (TableRow.mapOffsets fun _ => ()) = rows.map rowOf) :
    (rs.filter (·.cells.length < TableRow.columnCount rs)).map
        (fun r => Degradation.raggedTableRow r.cells.length (TableRow.columnCount rs) "tabular")
      = raggedReports rows := by
  have hcolumns := columnCount_eq_width h
  have hlengths : rs.map (·.cells.length) = rows.map List.length := by
    have hmap := congrArg (List.map fun r : TableRow Unit => r.cells.length) h
    simpa [Function.comp_def, rowOf] using hmap
  -- Both are made of the lengths alone.
  have hleft : (rs.filter (·.cells.length < width rows)).map
      (fun r => Degradation.raggedTableRow r.cells.length (width rows) "tabular")
      = ((rs.map (·.cells.length)).filter (· < width rows)).map
          fun n => .raggedTableRow n (width rows) "tabular" := by
    rw [List.filter_map, List.map_map]
    rfl
  have hright : raggedReports rows = ((rows.map List.length).filter (· < width rows)).map
      fun n => .raggedTableRow n (width rows) "tabular" := by
    rw [List.filter_map, List.map_map]
    rfl
  rw [hcolumns, hleft, hright, hlengths]

/-- The end marker closes the table, which is added with the rows that are kept. -/
theorem leads_table_end (hi : s.inline? = none) (hbegun : begun.text = "tabular")
    (h : AtEnd ctx begun s rows cells (Lexeme.spellMarker true "tabular" ++ rest) u) :
    ∃ ds c m info rs, ds.reverse.map (·.cause) = raggedReports (rows ++ [cells].filter isFilled) ∧
      Leads ctx u ((noting s ds).past c [.table info rs]) ∧ Faces ctx m c rest ∧
      rs.map (TableRow.mapOffsets fun _ => ()) = (rows ++ [cells].filter isFilled).map rowOf := by
  obtain ⟨table, c, f, rfl, ⟨m, hf⟩, hkeeps⟩ := h
  obtain ⟨hkind, htext, m', hfaces⟩ := meets_end hf
  let t := s.gather (openCell table) c f
  have hfinished := (hkeeps t).finishRow t
  let table' := t.finishRow (t.finishCell table f)
  let rs := table'.rows.reverse
  let ds := ((rs.filter (·.cells.length < TableRow.columnCount rs)).map
    (Parse.raggedReport "tabular" (TableRow.columnCount rs))).reverse
  have hmarker : table'.marker = begun := hfinished.marker_eq
  -- The end marker names what the begin marker named.
  have hexpect : State.expectEnd c table'.marker = .ok c.advance := by
    simp only [State.expectEnd]
    rw [if_neg (by simp [hkind]), if_pos ⟨hkind, by rw [htext, hmarker, hbegun]⟩]
  have hclose : t.closeCell ctx table f = .ok ((noting s ds).past c.advance
      [.table (.span begun.token.start c.advance.lastStop) rs]) := by
    have hkind' : t.cursor.current.kind = .envEnd := hkind
    have hnone : ({ noting s ds with cursor := c.advance, inline? := none } : State)
        = { noting s ds with cursor := c.advance } := by
      have hnoting : (noting s ds).inline? = none := hi
      rw [← hnoting]
    have hend : t.closeTable (t.finishCell table f) = .ok (State.addBlocks
        { t.warnRagged table'.marker.text (TableRow.columnCount rs) rs with
          cursor := c.advance, inline? := none }
        [.table (.span table'.marker.token.start c.advance.lastStop) rs]) := by
      rw [State.closeTable]
      show (State.expectEnd c table'.marker >>= fun _ => _) = _
      rw [hexpect]
      rfl
    have hwarn : t.warnRagged "tabular" (TableRow.columnCount rs) rs = noting t ds :=
      Parse.State.warnRagged_eq t "tabular" (TableRow.columnCount rs) rs
    simp only [State.closeCell, hkind', hend, hmarker, hbegun, hwarn]
    exact congrArg (fun s : State => Except.ok (s.addBlocks _)) hnone
  refine ⟨ds, c.advance, m', .span begun.token.start c.advance.lastStop, rs, ?_,
    leads_close (.table rest) hf hclose, hfaces, hfinished.rows_eq⟩
  rw [List.reverse_reverse, List.map_map]
  exact cause_raggedReport hfinished.rows_eq

/-- The begin marker and the columns open a table at its first row. -/
theorem step_opens_table (hi : s.inline? = none) (hd : s.environments.length + 2 ≤ nestingLimit)
    (hb : 0x5B ∉ ctx.source.toList) (columns : Braced)
    (h : Faces ctx m s.cursor (Lexeme.spellMarker false "tabular" ++ (inBraces columns.print ++ rest))) :
    ∃ c m' table, s.step ctx = some <$> State.beginRow ctx { s with cursor := c } table ∧
      Faces ctx m' c rest ∧ s.cursor.marker.text = "tabular" ∧
      Keeps s.cursor.marker table [] [] := by
  have hbegin := Faces.marker false h (by decide) (by decide) (by decide)
  have hkind : s.cursor.current.kind = .envBegin := hbegin.kind
  have htext : s.cursor.marker.text = "tabular" := hbegin.text
  obtain ⟨c, m', hread, hfaces⟩ := readGroup_braced columns hbegin.faces s.cursor.marker
    (Parse.missingArgument s.cursor.marker)
  -- No optional argument is there, so the columns are the argument that is skipped.
  have hskip : State.skipArguments ctx s.cursor.advance s.cursor.marker = .ok c := by
    have hcount : environmentArgumentCount s.cursor.marker.text = 1 := by
      rw [htext]
      decide
    rw [State.skipArguments, hcount, Parse.skipOptionalArgument, hbegin.faces.startArgument? hb]
    simp only [Parse.skipGroups, hread]
    rfl
  have hcheck : State.checkDepth s.depth s.cursor.marker = .ok () := by
    have hdepth : s.depth = s.environments.length := by simp [State.depth, hi]
    exact State.checkDepth_of_le (by omega) _
  have hname : EnvironmentKind.ofName? s.cursor.marker.text = some .table := by
    rw [htext]
    decide
  let table : OpenTable :=
    { marker := s.cursor.marker, rows := [], rowStart := 0, cells := [], cellStart := 0, span := 1 }
  refine ⟨c, m', table, ?_, hfaces, htext, rfl, rfl, rfl⟩
  rw [State.step_of_envBegin hi hkind, State.beginEnvironment]
  show some <$> (State.checkDepth s.depth s.cursor.marker >>= fun _ => _) = _
  rw [hcheck]
  simp only [bind, Except.bind, hname, State.beginTable, hskip]
  rfl

/-- A table is read as one block with the texts of its rows, and with its reports. -/
theorem leads_table (hi : s.inline? = none) (hd : s.environments.length + 2 ≤ nestingLimit)
    (hb : 0x5B ∉ ctx.source.toList) (t : Table) (h : Faces ctx m s.cursor (t.print ++ rest)) :
    ∃ ds c m info rs, ds.reverse.map (·.cause) = t.reports ∧
      Leads ctx s ((noting s ds).past c [.table info rs]) ∧ Faces ctx m c rest ∧
      rs.map (TableRow.mapOffsets fun _ => ()) = t.texts.map rowOf := by
  have hshape : t.print ++ rest = Lexeme.spellMarker false "tabular" ++ (inBraces t.columns.print
      ++ (t.first.print ++ (printRows t.more ++ (Lexeme.spellMarker true "tabular" ++ rest)))) := by
    simp [Table.print]
  rw [hshape] at h
  have hend : EndsCell (Lexeme.spellMarker true "tabular" ++ rest) := .table rest
  obtain ⟨c₁, m₁, table, hstep, hfaces₁, hbegun, hkeeps⟩ := step_opens_table hi hd hb t.columns h
  obtain ⟨ds₁, hcauses₁, t₁, u₁, hbegin, hlead₁, hatEnd₁⟩ :=
    begins_row hb hd t.first (endsCell_printRows t.more hend) hkeeps hfaces₁
  have hopen : Leads ctx s t₁ := .of_step (by rw [hstep, hbegin]; rfl)
  obtain ⟨ds₂, u₂, rows, cells, hcauses₂, hlead₂, hatEnd₂, hrows⟩ :=
    more_rows (s := noting s ds₁) hb hd t.more hend hatEnd₁
  obtain ⟨ds₃, c₃, m₃, info, rs, hcauses₃, hlead₃, hfaces₃, htexts⟩ :=
    leads_table_end (s := noting (noting s ds₁) ds₂) hi hbegun hatEnd₂
  have htexts' : rows ++ [cells].filter isFilled = t.texts := hrows
  have hreports₁ : ds₁.reverse.map (·.cause) = t.first.reports := by
    rw [List.map_reverse, hcauses₁, t.first.reverse_reports]
  rw [noting_noting, noting_noting] at hlead₃
  refine ⟨_, c₃, m₃, info, rs, ?_, hopen.trans (hlead₁.trans (hlead₂.trans hlead₃)), hfaces₃, ?_⟩
  · rw [List.reverse_append, List.reverse_append, List.map_append, List.map_append, hreports₁,
      hcauses₂, hcauses₃, htexts', Table.reports, Table.rows, List.flatMap_cons, List.append_assoc]
  · rw [htexts, htexts']

/-- What a table is written as. -/
theorem join_lines_table {rs : List TableRow} {t : Table}
    (h : rs.map (TableRow.mapOffsets fun _ => ()) = t.texts.map rowOf) (icon : Text) (info : NodeInfo) :
    Text.join [0x0A] (Markdown.blocksLines icon 0 [.table info rs]) = pipeTable t.texts := by
  have hlines : Markdown.blocksLines icon 0 [.table info rs] = Markdown.tableLines rs := by
    rw [Markdown.blocksLines, Markdown.blockLines, Markdown.blocksLines, List.append_nil]
  have hkept : ∀ row ∈ t.texts, ∃ r : Row, row = r.texts := by
    intro row hrow
    obtain ⟨r, -, rfl⟩ := List.mem_map.mp (List.mem_filter.mp hrow).1
    exact ⟨r, rfl⟩
  rw [hlines, ← Markdown.tableLines_map (fun _ => ()), h]
  apply join_tableLines
  · intro row hrow
    obtain ⟨r, rfl⟩ := hkept row hrow
    exact r.texts_ne_nil
  · intro row hrow
    obtain ⟨r, rfl⟩ := hkept row hrow
    exact r.pipe_not_mem

/-- A table is converted to the pipe table of the rows that are kept, with its reports, if there is
room for its frame. -/
theorem convert_print (hsettings : options.resolve = .ok settings) (t : Table) :
    ∃ ds, ds.map (·.cause) = t.reports ∧ convertWithDiagnostics t.print options =
      if Markdown.frameLength t.texts.length (width t.texts) ≤ Markdown.lengthLimit then
        .ok ⟨pipeTable t.texts, ds⟩
      else .error (.size ⟨.table t.texts.length (width t.texts)⟩) := by
  have hb : 0x5B ∉ (Context.of settings t.print).source.toList := by
    simpa [Context.of] using t.bracket_not_mem
  have hfaces : Faces (.of settings t.print) {} (State.initial settings t.print).cursor
      (t.print ++ []) := by
    rw [List.append_nil]
    exact Parse.faces_initial settings t.print
  have hdepth : (State.initial settings t.print).environments.length + 2 ≤ nestingLimit := by
    show 0 + 2 ≤ nestingLimit
    decide
  obtain ⟨ds, c, m, info, rs, hcauses, hlead, hend, htexts⟩ :=
    leads_table rfl hdepth hb t hfaces
  have hpast : (noting (State.initial settings t.print) ds).past c [.table info rs]
      = { cursor := c, blocks := [.table info rs], diagnostics := ds } := by
    simp [noting, State.past, State.addBlocks, State.initial]
  rw [hpast] at hlead
  have houtcome : Parse.outcomeOf settings t.print = .ok ([.table info rs], ds) :=
    hlead.outcomeOf_eq rfl rfl hend.endOfFile
  refine ⟨ds.reverse, hcauses, ?_⟩
  have hlength : rs.length = t.texts.length := by
    simpa using congrArg List.length htexts
  rw [Concatenation.convertWithDiagnostics_of_outcomeOf hsettings houtcome, Concatenation.written,
    List.reverse_singleton, Markdown.sizeError?_table, hlength, columnCount_eq_width htexts,
    join_lines_table htexts]
  by_cases hframe : Markdown.frameLength t.texts.length (width t.texts) ≤ Markdown.lengthLimit
  · simp only [if_pos hframe]
  · simp only [if_neg hframe]

/-- Where there is room for the pipe table, it is the output. -/
theorem convert_print_of_length (hsettings : options.resolve = .ok settings) {t : Table}
    (h : (pipeTable t.texts).length ≤ Markdown.lengthLimit) :
    ∃ ds, convertWithDiagnostics t.print options = .ok ⟨pipeTable t.texts, ds⟩ ∧
      ds.map (·.cause) = t.reports := by
  obtain ⟨ds, hcauses, hconvert⟩ := convert_print hsettings t
  rw [if_pos (hasFrame_of_length h)] at hconvert
  exact ⟨ds, hconvert, hcauses⟩

/-- A table that is converted has its pipe table as the output. -/
theorem convert_print_eq_ok (hsettings : options.resolve = .ok settings) {t : Table} {c : Conversion}
    (h : convertWithDiagnostics t.print options = .ok c) :
    c.output = pipeTable t.texts ∧ c.diagnostics.map (·.cause) = t.reports := by
  obtain ⟨ds, hcauses, hconvert⟩ := convert_print hsettings t
  rw [h] at hconvert
  split at hconvert
  · obtain rfl := Except.ok.inj hconvert
    exact ⟨rfl, hcauses⟩
  · cases hconvert

end Tabular

end LatexMarkdown
