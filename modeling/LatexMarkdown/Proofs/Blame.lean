import LatexMarkdown.Proofs.Lines
import LatexMarkdown.Proofs.Markers
import LatexMarkdown.Proofs.RawBodies
/-!
  Every structural error points at the token that it is about.

  `Flaw.Concerns` says which tokens a flaw can be about, by kind and by name, and
  `StructuralError.PointsAt` that an error has the index of a token, its offset, and the line and
  column of that offset.  Main statement: `structuralError_pointsAt`.

  A failure names a token ahead or a marker that is still open (`Parse.Fails`).  The tokens ahead
  stand in the token list, and so do the markers (`Parse.Marked`).  What follows a raw body is its end
  marker or the end of the text (`Framed`), so nothing else is ever blamed for not matching.
-/
namespace LatexMarkdown

/-- The tokens that a flaw can be about. -/
def Flaw.Concerns (t : Token) : Flaw → Prop
  | unclosedEnvironment name => t.kind = .envBegin ∧ t.text = name
  | mismatchedEnvironment found _ => t.kind = .envEnd ∧ t.text = found
  | unexpectedEnvironmentEnd name => t.kind = .envEnd ∧ t.text = name
  | unclosedGroup opener => (t.kind = .groupOpen ∨ t.kind = .bracketOpen) ∧ t.text = opener
  | unexpectedGroupClose => t.kind = .groupClose
  | missingArgument command => t.kind = .command ∧ t.text = command
  | missingEnvironmentArgument environment => t.kind = .envBegin ∧ t.text = environment
  | malformedLink command => t.isCommand "href" = true ∧ t.text = command
  | unclosedMath _ => t.kind = .mathInline ∨ t.kind = .mathDisplay
  | nestedEnvironment name => t.kind = .envBegin ∧ t.text = name
  | nestedHeading command =>
    t.kind = .command ∧ t.text = command ∧ (headingLevel? command).isSome = true
  | nestingTooDeep _ => t.kind = .envBegin ∨ t.kind = .groupOpen ∨ t.isCommand "item" = true

/-- The offset of a flaw: where the token begins that it is about.  Mathematics that the second half
of a double dollar opens begins in the middle of the token. -/
def Flaw.Begins (t : Token) (offset : Nat) (flaw : Flaw) : Prop :=
  offset = t.start ∨
    (flaw = .unclosedMath "$" ∧ t.kind = .mathDisplay ∧ t.text = "$$" ∧ offset = t.start + 1)

/-- An error has the index, the offset and the position of a token that its flaw can be about. -/
structure StructuralError.PointsAt (source : Text) (tokens : List Token) (e : StructuralError)
    (t : Token) : Prop where
  listed : tokens[e.tokenIndex]? = some t
  concerns : e.flaw.Concerns t
  begins : e.flaw.Begins t e.offset
  located : source.Locates e.offset e.position

namespace Parse

open Nesting (Listed Placed)
open Cursor (Reaches)

variable {tokens : List Token} {c : Cursor} {s : State} {f : Failure}

/-! ## Failures -/

/-- A failure has the index and the offset of a token that its flaw can be about. -/
structure Failure.Blames (tokens : List Token) (f : Failure) (t : Token) : Prop where
  listed : tokens[f.marker.index]? = some t
  concerns : f.flaw.Concerns t
  begins : f.flaw.Begins t f.marker.token.start

/-- A marker of the list is blamed. -/
theorem Failure.Blames.of_listed {m : Marker} {flaw : Flaw} (h : Listed tokens m)
    (hc : flaw.Concerns m.token) : Failure.Blames tokens ⟨flaw, m⟩ m.token :=
  ⟨h, hc, .inl rfl⟩

/-- Behind a begin marker of a raw environment and its body the environment ends, or the text does.
-/
theorem ends_pastBody (hp : Placed tokens c) (hc : c.Terminated) (hframed : Framed tokens)
    (hk : c.current.kind = .envBegin) (hraw : c.current.text ∈ rawEnvironments) :
    (pastBody c.advance).current.kind = .endOfFile ∨
      ((pastBody c.advance).current.kind = .envEnd ∧
        (pastBody c.advance).current.text = c.current.text) := by
  -- The tokens from the begin marker on are framed, since those of the whole list are.
  have hremaining : Framed (c.current :: c.advance.remaining) := by
    rw [← Cursor.remaining_eq_cons hc (by simp [hk])]
    exact .of_append (hp.tokens_eq ▸ hframed)
  have hends : ∀ d : Cursor, EndsBody c.current.text d.remaining →
      d.current.kind = .endOfFile ∨
        (d.current.kind = .envEnd ∧ d.current.text = c.current.text) := by
    intro d hd
    obtain ⟨t, rest, heq, ht⟩ := hd
    rwa [Cursor.current_of_remaining heq]
  rcases hremaining.1 hk hraw with hbody | ⟨body, rest, heq, hkbody, hbody⟩
  · have hcurrent := hends _ hbody
    rwa [pastBody, if_neg (by rcases hcurrent with h | ⟨h, -⟩ <;> simp [h])]
  · have hcurrent : c.advance.current = body := Cursor.current_of_remaining heq
    have hkind : c.advance.current.kind = .rawText := hcurrent ▸ hkbody
    rw [pastBody, if_pos hkind]
    refine hends _ ?_
    obtain ⟨-, hrest⟩ := List.cons.inj
      ((Cursor.remaining_eq_cons hc.advance (by simp [hkind])).symm.trans heq)
    rwa [hrest]

/-- A failure that the current token is to blame for blames a token of the list. -/
theorem Fault.blames (h : Fault c f) (hp : Placed tokens c) (hc : c.Terminated)
    (hframed : Framed tokens) : ∃ t, f.Blames tokens t := by
  have hlisted := hp.listed_marker
  cases h with
  | nestingTooDeep h => exact ⟨_, .of_listed hlisted h⟩
  | missingArgument h =>
    refine ⟨_, .of_listed hlisted ?_⟩
    unfold Parse.missingArgument
    split
    · next hbegin => exact ⟨hbegin, rfl⟩
    · next hbegin => exact ⟨h.resolve_right hbegin, rfl⟩
  | malformedLink h => exact ⟨_, .of_listed hlisted ⟨h, rfl⟩⟩
  | unclosedGroup h => exact ⟨_, .of_listed hlisted ⟨.inl h, rfl⟩⟩
  | unclosedMath h => exact ⟨_, .of_listed hlisted h⟩
  | unclosedHalf hk ht => exact ⟨_, hlisted, .inr hk, .inr ⟨rfl, hk, ht, rfl⟩⟩
  | unclosedEnvironment h => exact ⟨_, .of_listed hlisted ⟨h, rfl⟩⟩
  | mismatchedBody hk hraw hend hne =>
    -- Nothing else can follow a raw body.
    exact absurd (ends_pastBody hp hc hframed hk hraw) (by simp [hend, hne])
  | unexpectedEnvironmentEnd h => exact ⟨_, .of_listed hlisted ⟨h, rfl⟩⟩
  | unexpectedGroupClose h => exact ⟨_, .of_listed hlisted h⟩
  | nestedEnvironment h => exact ⟨_, .of_listed hlisted ⟨h, rfl⟩⟩
  | nestedHeading hk hl => exact ⟨_, .of_listed hlisted ⟨hk, rfl, hl⟩⟩

/-- What opened something that can be left open with its group stands in the list. -/
theorem OpenInline.Marked.opener {i : OpenInline} {opener : Marker} (h : i.Marked tokens)
    (hs : i.surround = .group opener ∨ i.surround = .label opener) :
    Marks tokens .groupOpen opener ∨ Marks tokens .bracketOpen opener := by
  obtain ⟨hline, hrun, harguments⟩ := h
  -- The innermost brace, or else the innermost argument, or else the line itself.
  rw [OpenInline.surround] at hs
  split at hs <;> simp only [Surround.group.injEq, Surround.label.injEq, reduceCtorEq, or_false,
    false_or] at hs
  · next heq => exact .inl (hs ▸ hrun _ (heq ▸ List.mem_cons_self))
  · next heq => exact .inl (hs ▸ (harguments _ (heq ▸ List.mem_cons_self)).opener)
  · next heq =>
    rw [heq] at hline
    exact .inl (hs ▸ hline.2)
  · next heq =>
    rw [heq] at hline
    exact .inr (hs ▸ hline)

/-- A failure of a step blames a token of the list. -/
theorem Fails.blames (h : Fails s f) (hm : Marked tokens s) (hframed : Framed tokens) :
    ∃ t, f.Blames tokens t := by
  cases h with
  | fault h =>
    obtain ⟨d, hd, hfault⟩ := h
    exact hfault.blames (hm.placed.reaches hm.terminated hd) (hd.terminated hm.terminated) hframed
  | mismatched hc hk =>
    exact ⟨_, .of_listed (hm.placed.reaches hm.terminated hc).listed_marker ⟨hk, rfl⟩⟩
  | environment he =>
    have hmarks := hm.environments _ (List.mem_map_of_mem he)
    exact ⟨_, .of_listed hmarks.listed ⟨hmarks.kind_eq, rfl⟩⟩
  | table hi hl =>
    have hline := (hm.of_inline hi).line
    rw [hl] at hline
    exact ⟨_, .of_listed hline.listed ⟨hline.kind_eq, rfl⟩⟩
  | group hi hs =>
    rcases (hm.of_inline hi).opener hs with hmarks | hmarks
    · exact ⟨_, .of_listed hmarks.listed ⟨.inl hmarks.kind_eq, rfl⟩⟩
    · exact ⟨_, .of_listed hmarks.listed ⟨.inr hmarks.kind_eq, rfl⟩⟩

/-- Reading begins with nothing open. -/
theorem Marked.initial (settings : Settings) (source : Text) :
    Marked (source.tokens settings.keepComments) (State.initial settings source) :=
  ⟨State.terminated_initial settings source, .initial settings source,
    by simp [State.initial], by simp [State.initial]⟩

end Parse

/-! ## Documents -/

variable {source : Text} {options : Options} {e : StructuralError}

/-- Every structural error points at a token of the source that it can be about. -/
theorem structuralError_pointsAt
    (h : parseDocument source options = .error (.structural e)) :
    ∃ settings, options.resolve = .ok settings ∧
      e.tokenIndex < (source.tokens settings.keepComments).length ∧
      ∃ t, e.PointsAt source (source.tokens settings.keepComments) t := by
  obtain ⟨settings, f, hsettings, houtcome, rfl⟩ := exists_of_parseDocument_structural h
  have hyields := Parse.yields_outcomeOf (fun _ _ => Parse.Marked.change)
    (Parse.Marked.initial settings source)
  rw [houtcome] at hyields
  obtain ⟨s, hmarked, hfails⟩ := hyields
  obtain ⟨t, hblames⟩ := hfails.blames hmarked (source.framed_tokens settings.keepComments)
  refine ⟨settings, hsettings, (List.getElem?_eq_some_iff.mp hblames.listed).1, t, ?_⟩
  exact ⟨hblames.listed, hblames.concerns, hblames.begins, LineTable.locates_position _ _⟩

/-- The second half of a double dollar opens mathematics: the offset is in the middle of the token. -/
theorem structuralError_pointsAt_half :
    let source : Text := "a\n$b$$c"
    let e : StructuralError := ⟨.unclosedMath "$", 5, 4, ⟨2, 4⟩⟩
    parseDocument source {} = .error (.structural e) ∧
      ∃ settings, ({} : Options).resolve = .ok settings ∧
        e.tokenIndex < (source.tokens settings.keepComments).length ∧
        ∃ t, e.PointsAt source (source.tokens settings.keepComments) t := by
  intro source e
  have hfails : (Document.parse {} source).map (fun _ => ()) = .error e := by decide +kernel
  have h : parseDocument source {} = .error (.structural e) := by
    cases hparse : Document.parse {} source with
    | ok parsed => rw [hparse] at hfails; cases hfails
    | error e' =>
      rw [hparse] at hfails
      cases hfails
      exact congrArg (Except.mapError ConversionError.structural) hparse
  exact ⟨h, structuralError_pointsAt h⟩

end LatexMarkdown
