import LatexMarkdown.Proofs.Embedding.Joining
import LatexMarkdown.Proofs.Showing
/-!
  Converting two sources with a blank line between them.

  Main statement: `Concatenation.convert_append`.  Nothing that is open goes on over a blank line in
  a source that can be converted, so behind it the second source is converted as it is by itself:
  the outputs stand one below the other, and diagnostics and errors of the second source move by the
  length of the first and the two line feeds.
-/
namespace LatexMarkdown

/-- A diagnostic about a source that stands so much further on. -/
def Diagnostic.shift (n : Nat) (d : Diagnostic) : Diagnostic :=
  { d with start := d.start + n, stop := d.stop + n }

namespace Concatenation

open Parse

variable {settings : Settings} {source : Text}

theorem eq_ok_iff_toOption {ε α : Type} {x : Except ε α} {a : α} :
    x = .ok a ↔ x.toOption = some a := by
  cases x <;> simp [Except.toOption]

/-- What comes of the outcome of a run: its blocks and diagnostics, last ones first. -/
def written {P : Type} (settings : Settings) (blocks : List (Block P))
    (diagnostics : List Diagnostic) : Except ConversionError Conversion :=
  match Markdown.sizeError? blocks.reverse with
  | some e => .error (.size e)
  | none => .ok {
    output := Text.join [0x0A] (Markdown.blocksLines settings.calloutIcon 0 blocks.reverse)
    diagnostics := diagnostics.reverse }

/-- Where there is room, the lines of the blocks are put together. -/
theorem written_eq_ok_iff {P : Type} {blocks : List (Block P)} {diagnostics : List Diagnostic}
    {c : Conversion} :
    written settings blocks diagnostics = .ok c ↔
      Markdown.sizeError? blocks.reverse = none ∧ c = {
        output := Text.join [0x0A] (Markdown.blocksLines settings.calloutIcon 0 blocks.reverse)
        diagnostics := diagnostics.reverse } := by
  cases hsize : Markdown.sizeError? blocks.reverse with
  | some e => simp [written, hsize]
  | none => simp [written, hsize, eq_comm]

/-- What is written does not depend on offsets. -/
theorem written_map {P Q : Type} (f : P → Q) (settings : Settings) (blocks : List (Block P))
    (diagnostics : List Diagnostic) :
    written settings (blocks.map (Block.mapOffsets f)) diagnostics
      = written settings blocks diagnostics := by
  rw [written, written, ← List.map_reverse, Markdown.sizeError?_map, Markdown.blocksLines_map]

/-- A conversion is the outcome of a run, written out. -/
theorem convertUnder_eq (settings : Settings) (source : Text) :
    convertUnder settings source =
      match outcomeOf settings source with
      | .error f => .error (.structural (f.located (LineTable.ofText source)))
      | .ok (blocks, diagnostics) => written settings blocks diagnostics := by
  rw [convertUnder, Document.parse_eq]
  cases outcomeOf settings source with
  | error f => rfl
  | ok r =>
    simp only [written, Markdown.write, Markdown.render]
    show (Except.mapError _ (match Markdown.sizeError? r.1.reverse with | some e => _ | none => _)
      >>= _) = _
    cases Markdown.sizeError? r.1.reverse <;> rfl

/-- A source whose run has an outcome is converted to what its blocks are written as. -/
theorem convertWithDiagnostics_of_outcomeOf {options : Options} {blocks : List Block}
    {diagnostics : List Diagnostic} (hsettings : options.resolve = .ok settings)
    (h : outcomeOf settings source = .ok (blocks, diagnostics)) :
    convertWithDiagnostics source options = written settings blocks diagnostics := by
  unfold convertWithDiagnostics withSettings
  simp only [hsettings, convertUnder_eq, h]

theorem exists_of_convertUnder_ok {c : Conversion} (h : convertUnder settings source = .ok c) :
    ∃ blocks diagnostics, outcomeOf settings source = .ok (blocks, diagnostics) ∧
      written settings blocks diagnostics = .ok c := by
  rw [convertUnder_eq] at h
  cases hrun : outcomeOf settings source with
  | error f =>
    rw [hrun] at h
    cases h
  | ok r =>
    rw [hrun] at h
    exact ⟨r.1, r.2, rfl, h⟩

theorem exists_of_convertUnder_structural {e : StructuralError}
    (h : convertUnder settings source = .error (.structural e)) :
    ∃ f, outcomeOf settings source = .error f ∧ f.located (LineTable.ofText source) = e := by
  rw [convertUnder_eq] at h
  cases hrun : outcomeOf settings source with
  | error f =>
    rw [hrun] at h
    cases h
    exact ⟨f, rfl, rfl⟩
  | ok r =>
    -- Writing fails for want of room alone.
    have hwritten : written settings r.1 r.2 = .error (.structural e) := by
      rw [hrun] at h
      exact h
    rw [written] at hwritten
    split at hwritten <;> cases hwritten

/-- Blocks that differ in their offsets are written alike. -/
theorem written_congr {bs cs : List Block} (h : bare bs = bare cs) (settings : Settings)
    (diagnostics : List Diagnostic) : written settings bs diagnostics = written settings cs diagnostics := by
  rw [← written_map (fun _ => ()) settings bs, ← written_map (fun _ => ()) settings cs]
  exact congrArg (written settings · diagnostics) h

/-- The output goes by the blocks and the icon alone. -/
theorem map_output_written {bs cs : List Block} (h : bare bs = bare cs) {settings' : Settings}
    (hicon : settings.calloutIcon = settings'.calloutIcon) (diagnostics diagnostics' : List Diagnostic) :
    (written settings bs diagnostics).map (·.output)
      = (written settings' cs diagnostics').map (·.output) := by
  rw [written_congr h, written, written, hicon]
  cases Markdown.sizeError? cs.reverse <;> rfl

/-- Every block of a source shows something. -/
theorem shown_of_outcomeOf {blocks : List Block} {diagnostics : List Diagnostic}
    (h : outcomeOf settings source = .ok (blocks, diagnostics)) :
    ∀ b ∈ blocks, Markdown.Shown b := by
  apply State.shown_of_outcome ⟨?_, ?_⟩ _ h
  · intro b hb
    cases hb
  · intro e he
    cases he

variable {first second : Text} {blocks₁ blocks₂ : List Block}
  {diagnostics₁ diagnostics₂ : List Diagnostic}

/-- Behind a blank line the blocks and diagnostics of the second source are added. -/
theorem outcomeOf_append_ok (hfirst : outcomeOf settings first = .ok (blocks₁, diagnostics₁))
    (hsecond : outcomeOf settings second = .ok (blocks₂, diagnostics₂)) :
    ∃ blocks, outcomeOf settings (first ++ [0x0A, 0x0A] ++ second)
        = .ok (blocks, diagnostics₂.map (.shift (first.length + 2)) ++ diagnostics₁) ∧
      bare blocks = bare (blocks₂ ++ blocks₁) := by
  obtain ⟨φ, hshift, hblocks, hdiagnostics, hrun⟩ := outcomeOf_append hfirst second
  rw [hsecond] at hrun
  cases hwhole : outcomeOf settings (first ++ [0x0A, 0x0A] ++ second) with
  | error f =>
    rw [hwhole] at hrun
    cases hrun
  | ok r =>
    obtain ⟨blocks, diagnostics⟩ := r
    rw [hwhole] at hrun
    obtain ⟨hbs, hds⟩ := Prod.mk.inj (Except.ok.inj hrun)
    have hmap : φ.diagnostic = .shift (first.length + 2) := by
      funext d
      rw [← hshift]
      rfl
    rw [Frame.map_diagnostic rfl, hdiagnostics, hmap] at hds
    refine ⟨blocks, ?_, ?_⟩
    · rw [← hds]
      exact congrArg Except.ok (congrArg (Prod.mk blocks) (List.append_nil _).symm)
    · have hbare := congrArg bare hbs
      simp only [bare, List.map_append, List.map_map] at hbare hblocks ⊢
      rw [← hblocks]
      simpa [Frame.plain, Function.comp_def] using hbare

/-- A failure of the second source is one of the whole, further on. -/
theorem outcomeOf_append_error (hfirst : outcomeOf settings first = .ok (blocks₁, diagnostics₁))
    {f : Failure} (hsecond : outcomeOf settings second = .error f) :
    ∃ f', outcomeOf settings (first ++ [0x0A, 0x0A] ++ second) = .error f' ∧ f'.flaw = f.flaw ∧
      f'.marker.token.start = f.marker.token.start + (first.length + 2) := by
  obtain ⟨φ, hshift, -, -, hrun⟩ := outcomeOf_append hfirst second
  rw [hsecond] at hrun
  cases hwhole : outcomeOf settings (first ++ [0x0A, 0x0A] ++ second) with
  | ok r =>
    rw [hwhole] at hrun
    cases hrun
  | error f' =>
    rw [hwhole] at hrun
    have hfailure : Frame.plain.failure f' = φ.failure f := Except.error.inj hrun
    have hflaw : (Frame.plain.failure f').flaw = (φ.failure f).flaw := by rw [hfailure]
    have hstart : (Frame.plain.failure f').marker.token.start
        = (φ.failure f).marker.token.start := by rw [hfailure]
    rw [← hshift]
    exact ⟨f', rfl, hflaw, hstart⟩

/-- The outputs of two sources stand one below the other, and a failure of the second stays one. -/
theorem convertUnder_append {c₁ : Conversion} (h : convertUnder settings first = .ok c₁)
    (second : Text) :
    (∀ c₂, convertUnder settings second = .ok c₂ →
      convertUnder settings (first ++ [0x0A, 0x0A] ++ second) = .ok {
        output := Markdown.stack c₁.output c₂.output
        diagnostics := c₁.diagnostics ++ c₂.diagnostics.map (.shift (first.length + 2)) }) ∧
    (∀ e, convertUnder settings second = .error (.structural e) →
      ∃ e', convertUnder settings (first ++ [0x0A, 0x0A] ++ second) = .error (.structural e') ∧
        e'.flaw = e.flaw ∧ e'.offset = e.offset + (first.length + 2)) := by
  obtain ⟨blocks₁, diagnostics₁, hfirst, hwritten₁⟩ := exists_of_convertUnder_ok h
  constructor
  · intro c₂ h₂
    obtain ⟨blocks₂, diagnostics₂, hsecond, hwritten₂⟩ := exists_of_convertUnder_ok h₂
    obtain ⟨hroom₁, rfl⟩ := written_eq_ok_iff.mp hwritten₁
    obtain ⟨hroom₂, rfl⟩ := written_eq_ok_iff.mp hwritten₂
    obtain ⟨blocks, hwhole, hbare⟩ := outcomeOf_append_ok hfirst hsecond
    have hshown : ∀ {source : Text} {blocks : List Block} {diagnostics : List Diagnostic},
        outcomeOf settings source = .ok (blocks, diagnostics) →
        ∀ b ∈ blocks.reverse, Markdown.Shown b :=
      fun h b hb => shown_of_outcomeOf h b (List.mem_reverse.mp hb)
    rw [convertUnder_eq, hwhole]
    refine (written_congr hbare settings _).trans (written_eq_ok_iff.mpr ?_)
    rw [List.reverse_append, Markdown.join_blocksLines_append (hshown hfirst) (hshown hsecond),
      List.reverse_append, List.map_reverse]
    exact ⟨Markdown.sizeError?_append hroom₁ hroom₂, rfl⟩
  · intro e h₂
    obtain ⟨f, hsecond, rfl⟩ := exists_of_convertUnder_structural h₂
    obtain ⟨f', hwhole, hflaw, hstart⟩ := outcomeOf_append_error hfirst hsecond
    rw [convertUnder_eq, hwhole]
    exact ⟨_, rfl, hflaw, hstart⟩

end Concatenation

end LatexMarkdown
