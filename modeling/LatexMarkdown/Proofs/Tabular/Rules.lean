import LatexMarkdown.Proofs.Tabular.Conversion
/-!
  Tables with and without their rules.

  A rule is dropped where it stands, so a table is converted as if it had none (`Table.bare`) as long
  as no rule stands before a first cell that spans columns.  Behind a rule the command of that cell
  is taken as text and reported, so the reports always tell the two tables apart then.  Main
  statement: `convert_bare_iff`.
-/
namespace LatexMarkdown

namespace Tabular

variable {options : Options} {settings : Settings}

/-! ## Tables without rules -/

/-- The row without the rules before it. -/
def Row.bare (r : Row) : Row := { r with rules := [] }

/-- The table without its rules. -/
def Table.bare (t : Table) : Table := { t with first := t.first.bare, more := t.more.map Row.bare }

theorem Table.rows_bare (t : Table) : t.bare.rows = t.rows.map Row.bare := rfl

/-- A row with no first cell to hide has the texts that it has without rules. -/
theorem Row.texts_bare {r : Row} (h : r.hidesSpan = false) : r.bare.texts = r.texts := by
  have hbare : r.bare.hidesSpan = false := rfl
  rw [Row.texts, Row.texts, h, hbare]
  rfl

/-- Without rules nothing but short rows is reported. -/
theorem Table.reports_bare (t : Table) : t.bare.reports = raggedReports t.bare.texts := by
  refine Table.reports_of_forall fun r hr => ?_
  obtain ⟨r, -, rfl⟩ := List.mem_map.mp (t.rows_bare ▸ hr)
  rfl

/-- Where no cell is hidden, the rules change nothing. -/
theorem Table.bare_of_forall {t : Table} (h : ∀ r ∈ t.rows, r.hidesSpan = false) :
    t.bare.texts = t.texts ∧ t.bare.reports = t.reports := by
  have htexts : t.bare.texts = t.texts := by
    rw [Table.texts, Table.texts, Table.rows_bare, List.map_map]
    exact congrArg (List.filter isFilled) (List.map_congr_left fun r hr => Row.texts_bare (h r hr))
  refine ⟨htexts, ?_⟩
  rw [Table.reports_bare, htexts, Table.reports_of_forall h]

/-! ## Reports on hidden cells -/

/-- A short row is not reported as an unknown command. -/
theorem code_of_mem_raggedReports {rows : List (List Text)} {d : Degradation}
    (h : d ∈ raggedReports rows) : d.code = "ragged-table-row" := by
  obtain ⟨row, -, rfl⟩ := List.mem_map.mp h
  rfl

/-- A hidden cell is reported, as nothing is in the table without rules. -/
theorem Table.codes_ne {t : Table} {r : Row} (hr : r ∈ t.rows) (h : r.hidesSpan = true) :
    t.reports.map Degradation.code ≠ t.bare.reports.map Degradation.code := by
  intro heq
  have hreport : Degradation.unknownCommand "multicolumn" ∈ t.reports := by
    refine List.mem_append_left _ (List.mem_flatMap.mpr ⟨r, hr, ?_⟩)
    rw [Row.reports, h]
    exact List.mem_singleton.mpr rfl
  -- Without rules all codes are those of short rows.
  have hcode : ("unknown-command" : String) ∈ t.reports.map Degradation.code :=
    List.mem_map_of_mem hreport
  rw [heq, Table.reports_bare] at hcode
  obtain ⟨d, hd, hsame⟩ := List.mem_map.mp hcode
  rw [code_of_mem_raggedReports hd] at hsame
  exact absurd hsame (by decide)

/-! ## Conversions with and without rules -/

/-- A table and the same table without its rules are each converted, where there is room for its pipe
table.  If both are, then output and codes are the same exactly when no rule stands before a first cell
that spans columns. -/
theorem convert_bare_iff (hsettings : options.resolve = .ok settings) (t : Table) :
    ((pipeTable t.texts).length ≤ Markdown.lengthLimit →
        ∃ c, convertWithDiagnostics t.print options = .ok c) ∧
      ((pipeTable t.bare.texts).length ≤ Markdown.lengthLimit →
        ∃ c', convertWithDiagnostics t.bare.print options = .ok c') ∧
      ∀ c c', convertWithDiagnostics t.print options = .ok c →
        convertWithDiagnostics t.bare.print options = .ok c' →
        ((c.output = c'.output ∧
            c.diagnostics.map (·.cause.code) = c'.diagnostics.map (·.cause.code)) ↔
          ∀ r ∈ t.rows, r.rules ≠ [] → r.first.isSpanning = false) := by
  refine ⟨fun h => ?_, fun h => ?_, ?_⟩
  · obtain ⟨ds, hconvert, -⟩ := convert_print_of_length hsettings h
    exact ⟨_, hconvert⟩
  · obtain ⟨ds, hconvert, -⟩ := convert_print_of_length hsettings h
    exact ⟨_, hconvert⟩
  intro c c' hconvert hconvert'
  obtain ⟨houtput, hcauses⟩ := convert_print_eq_ok hsettings hconvert
  obtain ⟨houtput', hcauses'⟩ := convert_print_eq_ok hsettings hconvert'
  have hcodes : ∀ {ds : List Diagnostic} {causes : List Degradation},
      ds.map (·.cause) = causes → ds.map (·.cause.code) = causes.map Degradation.code := by
    rintro ds _ rfl
    rw [List.map_map]
    rfl
  have hhides : ∀ r : Row, r.hidesSpan = false ↔ (r.rules ≠ [] → r.first.isSpanning = false) := by
    intro r
    cases hrules : r.rules <;> simp [Row.hidesSpan, hrules]
  simp only [hcodes hcauses, hcodes hcauses', houtput, houtput', ← hhides]
  constructor
  · -- The codes alone tell the tables apart, whatever the outputs are.
    rintro ⟨-, hsame⟩ r hr
    by_contra hspan
    exact Table.codes_ne hr (by simpa using hspan) hsame
  · intro hnone
    obtain ⟨htexts, hreports⟩ := Table.bare_of_forall hnone
    rw [htexts, hreports]
    exact ⟨rfl, rfl⟩

/-- Rules before words and behind the last row; a cell that spans columns has none before it. -/
theorem convert_bare_iff_sample :
    let feed : Space := ⟨"\n", by decide⟩
    let a : Cell := .words ⟨"a", by decide⟩
    let t : Table :=
      { columns := .centered
        first := ⟨feed, [.toprule, .cline 1 2], a, [a]⟩
        more := [⟨feed, [], .spanning .none 2 ⟨"b", by decide⟩ .none, []⟩,
          ⟨feed, [.hline], .words Space.none.toWords, []⟩] }
    t.print = "\\begin\x7btabular\x7d\x7bc\x7d\n\\toprule\n\\cline\x7b1-2\x7d\na&a\\\\\n"
        ++ "\\multicolumn\x7b2\x7d\x7bc\x7d\x7bb\x7d\\\\\n\\hline\n\\end\x7btabular\x7d" ∧
      t.bare.print = "\\begin\x7btabular\x7d\x7bc\x7d\na&a\\\\\n"
        ++ "\\multicolumn\x7b2\x7d\x7bc\x7d\x7bb\x7d\\\\\n\\end\x7btabular\x7d" ∧
      ∃ c c', convertWithDiagnostics t.print {} = .ok c ∧
        convertWithDiagnostics t.bare.print {} = .ok c' ∧ c.output = c'.output ∧
        c.diagnostics.map (·.cause.code) = c'.diagnostics.map (·.cause.code) := by
  intro feed a t
  have hspan : ∀ r ∈ t.rows, r.rules ≠ [] → r.first.isSpanning = false := by decide
  have hresolve : ({} : Options).resolve = .ok {} := rfl
  obtain ⟨hok, hok', hiff⟩ := convert_bare_iff hresolve t
  obtain ⟨c, hconvert⟩ := hok (by decide +kernel)
  obtain ⟨c', hconvert'⟩ := hok' (by decide +kernel)
  exact ⟨by decide +kernel, by decide +kernel, c, c', hconvert, hconvert',
    (hiff c c' hconvert hconvert').mpr hspan⟩

/-- A rule before a cell that spans columns. -/
def hiddenSpan : Table where
  columns := .centered
  first := ⟨.none, [.hline], .spanning .none 2 ⟨"a", by decide⟩ .none, []⟩
  more := []

/-- The rule is not dropped without a trace: behind it the command is taken as text. -/
theorem not_forall_convert_bare :
    ¬ ∀ (t : Table) (c c' : Conversion), convertWithDiagnostics t.print {} = .ok c →
      convertWithDiagnostics t.bare.print {} = .ok c' →
      c.output = c'.output ∧
        c.diagnostics.map (·.cause.code) = c'.diagnostics.map (·.cause.code) := by
  intro hall
  have hresolve : ({} : Options).resolve = .ok {} := rfl
  have htexts : pipeTable hiddenSpan.texts
      = "| \\multicolumn\x7b2\x7d\x7bc\x7d\x7ba\x7d |\n| --- |" := by decide +kernel
  have hbare : pipeTable hiddenSpan.bare.texts = "| a |  |\n| --- | --- |" := by decide +kernel
  have hroom : (pipeTable hiddenSpan.texts).length ≤ Markdown.lengthLimit := by
    rw [htexts]
    decide
  have hroom' : (pipeTable hiddenSpan.bare.texts).length ≤ Markdown.lengthLimit := by
    rw [hbare]
    decide
  obtain ⟨ds, hconvert, -⟩ := convert_print_of_length hresolve hroom
  obtain ⟨ds', hconvert', -⟩ := convert_print_of_length hresolve hroom'
  obtain ⟨hsame, -⟩ := hall hiddenSpan _ _ hconvert hconvert'
  exact absurd (htexts.symm.trans (hsame.trans hbare)) (by decide)

end Tabular

end LatexMarkdown
