import LatexMarkdown.Proofs.Concatenation
import LatexMarkdown.Proofs.RawBodies
import LatexMarkdown.Proofs.Spans.Reading
import LatexMarkdown.Proofs.Unbroken.Lines
/-!
  Code kept from its environment to its fence.

  Main statement: `convert_code`.  Whatever stands on lines of its own between the markers of a code
  environment comes out between two fences unit by unit, but for the carriage returns that belong to
  line breaks.

  There is one fact for each thing that could take something away: the search for the end marker
  (`endMarkerOffset?_code`), the options and edges of a body (`ofBody_code`), the split into lines
  (`join_codeLines`) and the length of the fence (`le_longestBackticks_of_infix`).
-/
namespace LatexMarkdown

namespace Text

/-! ## Lines -/

/-- A text without the carriage returns that stand before a line feed. -/
def withLineFeeds : Text → Text
  | [] => []
  | u :: rest =>
    if u = 0x0D ∧ rest.head? = some 0x0A then withLineFeeds rest else u :: withLineFeeds rest

/-- A line without the carriage return that belongs to its break. -/
def dropReturn (line : Text) : Text := if line.getLast? = some 0x0D then line.dropLast else line

theorem dropReturn_isPrefix (line : Text) : line.dropReturn <+: line := by
  unfold dropReturn
  split
  · exact List.dropLast_prefix line
  · exact List.prefix_refl line

theorem withLineFeeds_cons {u : CodeUnit} {t : Text} (h : ¬ (u = 0x0D ∧ t.head? = some 0x0A)) :
    withLineFeeds (u :: t) = u :: withLineFeeds t := if_neg h

theorem withLineFeeds_of_unbroken {l : Text} (hl : l.Unbroken) : l.withLineFeeds = l := by
  induction l with
  | nil => rfl
  | cons u l ih =>
    have hrest : Unbroken l := hl.mono (List.subset_cons_self _ _)
    rw [withLineFeeds_cons fun h => hrest (List.mem_of_mem_head? h.2), ih hrest]

theorem withLineFeeds_append_lineFeed {l : Text} (hl : l.Unbroken) (t : Text) :
    (l ++ 0x0A :: t).withLineFeeds = l.dropReturn ++ 0x0A :: t.withLineFeeds := by
  have hfeed : withLineFeeds (0x0A :: t) = 0x0A :: t.withLineFeeds :=
    withLineFeeds_cons fun h => absurd h.1 (by decide)
  induction l with
  | nil => exact hfeed
  | cons u l ih =>
    have hrest : Unbroken l := hl.mono (List.subset_cons_self _ _)
    cases l with
    | nil =>
      by_cases hu : u = 0x0D
      · rw [hu, List.singleton_append, withLineFeeds, if_pos ⟨rfl, rfl⟩, hfeed]
        rfl
      · rw [List.singleton_append, withLineFeeds_cons fun h => hu h.1, hfeed, dropReturn,
          if_neg (by simpa using hu)]
        rfl
    | cons v l =>
      have hv : v ≠ 0x0A := fun h => hrest (h ▸ List.mem_cons_self)
      have hdrop : dropReturn (u :: v :: l) = u :: dropReturn (v :: l) := by
        simp only [dropReturn, List.getLast?_cons_cons, List.dropLast_cons_cons]
        split <;> rfl
      have hhead : ¬ (u = 0x0D ∧ (v :: l ++ 0x0A :: t).head? = some 0x0A) :=
        fun h => hv (Option.some.inj h.2)
      rw [List.cons_append, withLineFeeds_cons hhead, ih hrest, hdrop]
      rfl

end Text

namespace Markdown

open Text

/-! ## Code as lines -/

theorem codeLines_of_unbroken {l : Text} (hl : l.Unbroken) : codeLines l = [l] := by
  rw [codeLines, splitOn_of_unbroken hl]
  rfl

theorem codeLines_append_lineFeed {l : Text} (hl : l.Unbroken) (t : Text) :
    codeLines (l ++ 0x0A :: t) = l.dropReturn :: codeLines t := by
  obtain ⟨piece, pieces, heq⟩ := List.exists_cons_of_ne_nil (splitOn_ne_nil 0x0A t)
  simp only [codeLines, splitOn_append_lineFeed hl, heq, List.dropLast_cons_cons, List.map_cons,
    List.getLast?_cons_cons, List.cons_append]
  rfl

theorem codeLines_ne_nil (t : Text) : codeLines t ≠ [] := by
  induction t using line_induction with
  | last l hl => simp [codeLines_of_unbroken hl]
  | line l t hl _ => simp [codeLines_append_lineFeed hl]

/-- The lines of a code are the code again, with line feeds for its line breaks. -/
theorem join_codeLines (t : Text) : Text.join [0x0A] (codeLines t) = t.withLineFeeds := by
  induction t using line_induction with
  | last l hl => rw [codeLines_of_unbroken hl, join_singleton, withLineFeeds_of_unbroken hl]
  | line l t hl ih =>
    rw [codeLines_append_lineFeed hl, join_cons _ _ (codeLines_ne_nil t), ih,
      withLineFeeds_append_lineFeed hl, List.append_assoc]
    rfl

/-- A line of a code stands in it. -/
theorem infix_of_mem_codeLines {l t : Text} (h : l ∈ codeLines t) : l <:+: t := by
  induction t using line_induction with
  | last m hm =>
    rw [codeLines_of_unbroken hm] at h
    exact List.mem_singleton.mp h ▸ List.infix_refl m
  | line m t hm ih =>
    rw [codeLines_append_lineFeed hm] at h
    rcases List.mem_cons.mp h with rfl | h
    · exact (dropReturn_isPrefix m).isInfix.trans (List.prefix_append m _).isInfix
    · have hsuffix : t <:+ m ++ 0x0A :: t := ⟨m ++ [0x0A], by simp⟩
      exact (ih h).trans hsuffix.isInfix

/-! ## Runs of backticks -/

theorem le_longestBackticks (run : Nat) (t : Text) : run ≤ longestBackticks run t := by
  induction t generalizing run with
  | nil => exact Nat.le_refl _
  | cons u t ih =>
    rw [longestBackticks]
    split
    · exact Nat.le_trans (Nat.le_succ _) (ih (run + 1))
    · exact Nat.le_max_left _ _

/-- A longer run before a text makes no run in it shorter. -/
theorem longestBackticks_mono {run run' : Nat} (h : run ≤ run') (t : Text) :
    longestBackticks run t ≤ longestBackticks run' t := by
  induction t generalizing run run' with
  | nil => exact h
  | cons u t ih =>
    simp only [longestBackticks]
    split
    · exact ih (Nat.succ_le_succ h)
    · omega

theorem longestBackticks_tail_le (run : Nat) (u : CodeUnit) (t : Text) :
    longestBackticks 0 t ≤ longestBackticks run (u :: t) := by
  rw [longestBackticks]
  split
  · exact longestBackticks_mono (Nat.zero_le _) t
  · exact Nat.le_max_right _ _

theorem le_longestBackticks_of_prefix {n : Nat} {t : Text} (h : backticks n <+: t) (run : Nat) :
    run + n ≤ longestBackticks run t := by
  induction n generalizing run t with
  | zero => exact le_longestBackticks run t
  | succ n ih =>
    obtain ⟨rest, rfl⟩ := h
    have hrest := ih (t := backticks n ++ rest) (List.prefix_append _ _) (run + 1)
    have hcons : backticks (n + 1) ++ rest = 0x60 :: (backticks n ++ rest) := rfl
    rw [hcons, longestBackticks, if_pos rfl]
    omega

/-- The longest run of backticks is as long as any run in the text. -/
theorem le_longestBackticks_of_infix {n : Nat} {t : Text} (h : backticks n <:+: t) :
    n ≤ longestBackticks 0 t := by
  induction t with
  | nil =>
    have hnil := List.infix_nil.mp h
    cases n with
    | zero => exact Nat.zero_le _
    | succ n => cases hnil
  | cons u t ih =>
    rcases List.infix_cons_iff.mp h with hfront | hin
    · have hle := le_longestBackticks_of_prefix hfront 0
      omega
    · exact Nat.le_trans (ih hin) (longestBackticks_tail_le 0 u t)

end Markdown

/-! ## The body of a code environment -/

/-- Environments whose body is code to the last unit. -/
def codeEnvironments : List Text := ["verbatim", "verbatim*", "lstlisting"]

theorem mem_rawEnvironments_of_mem {name : Text} (h : name ∈ codeEnvironments) :
    name ∈ rawEnvironments :=
  (by decide : ∀ name ∈ codeEnvironments, name ∈ rawEnvironments) name h

theorem ofName?_of_mem {name : Text} (h : name ∈ codeEnvironments) :
    EnvironmentKind.ofName? name = some .codeBlock :=
  (by decide : ∀ name ∈ codeEnvironments, EnvironmentKind.ofName? name = some .codeBlock) name h

/-- A text has no end marker of the given name, whatever space stands before the name. -/
def Text.HasNoEnd (t name : Text) : Prop :=
  ∀ space, (∀ u ∈ space, CodeUnit.isTabSpace u = true) →
    ¬ 0x5C :: (Text.ofString "end" ++ (space ++ 0x7B :: (name ++ [0x7D]))) <:+: t

/-- No end marker stands where the search for one finds none. -/
theorem Text.hasNoEnd_of_endMarkerOffset? {t name : Text} (h : endMarkerOffset? name t = none) :
    t.HasNoEnd name := by
  intro space hspace hin
  induction t with
  | nil => cases List.infix_nil.mp hin
  | cons u t ih =>
    rw [endMarkerOffset?] at h
    split at h
    · cases h
    · next hstarts =>
      rcases List.infix_cons_iff.mp hin with ⟨after, hafter⟩ | hin
      · refine hstarts ?_
        have hdrop : (space ++ 0x7B :: (name ++ [0x7D]) ++ after).dropWhile CodeUnit.isTabSpace
            = (0x7B :: (name ++ [0x7D])) ++ after := by
          rw [List.append_assoc, List.dropWhile_append_of_pos hspace, List.cons_append,
            List.dropWhile_cons_of_neg (by decide)]
        rw [← hafter]
        show ((0x7B :: name) ++ [0x7D]).isPrefixOf
          ((space ++ 0x7B :: (name ++ [0x7D]) ++ after).dropWhile CodeUnit.isTabSpace) = true
        rw [hdrop]
        exact List.isPrefixOf_iff_prefix.mpr (List.prefix_append _ _)
      · exact ih (Option.map_eq_none_iff.mp h) hin

/-- The first end marker is the one behind a text in which none begins. -/
theorem endMarkerOffset?_of_suffixes {name t rest : Text}
    (ht : ∀ v, v ≠ [] → v <:+ t → startsWithEndMarker name (v ++ rest) = false)
    (hrest : startsWithEndMarker name rest = true) :
    endMarkerOffset? name (t ++ rest) = some t.length := by
  induction t with
  | nil =>
    cases rest with
    | nil => exact absurd hrest (by simp [startsWithEndMarker])
    | cons u rest => rw [List.nil_append, endMarkerOffset?, if_pos hrest, List.length_nil]
  | cons u t ih =>
    have hhere := ht (u :: t) (by simp) (List.suffix_refl _)
    have hlater := ih fun v hne hv => ht v hne (hv.trans (List.suffix_cons u t))
    rw [List.cons_append] at hhere ⊢
    rw [endMarkerOffset?, hhere, if_neg (by simp), hlater, Option.map_some, List.length_cons]

section Body

variable {name code : Text}

/-- Code on lines of its own. -/
def onOwnLines (code : Text) : Text := 0x0A :: (code ++ [0x0A])

/-- The body of a code environment ends where its end marker stands. -/
theorem endMarkerOffset?_code (hname : name ∈ rawEnvironments) (hcode : code.HasNoEnd name) :
    endMarkerOffset? name (onOwnLines code ++ Lexeme.spellMarker true name)
      = some (onOwnLines code).length := by
  have hunbroken := Lexeme.lineFeed_not_mem_rawEnvironments name hname
  refine endMarkerOffset?_of_suffixes ?_ ?_
  · intro v hne hv
    rw [Bool.eq_false_iff]
    intro hstarts
    -- The suffix ends with the line feed behind the code, so the marker would stand in the code.
    have hv : v <:+ (0x0A :: code) ++ [0x0A] := hv
    rcases List.suffix_concat_iff.mp hv with hnil | ⟨t, rfl, ht⟩
    · exact hne hnil
    · rw [List.append_assoc, List.singleton_append,
        startsWithEndMarker_append CodeUnit.stops_lineFeed hunbroken] at hstarts
      obtain ⟨space, after, rfl, hspace⟩ := eq_of_startsWithEndMarker hstarts
      rcases List.suffix_cons_iff.mp ht with heq | hsuffix
      · exact absurd (List.cons.inj heq).1 (by decide)
      · refine hcode space hspace (List.IsInfix.trans ?_ hsuffix.isInfix)
        exact ⟨[], after, by simp⟩
  · exact List.isPrefixOf_iff_prefix.mpr ⟨[], List.append_nil _⟩

/-- Nothing is taken off the code but the line breaks that set it apart. -/
theorem Parse.CodeBody.ofBody_code (hname : name ∈ codeEnvironments)
    (hcode : code.getLast? ≠ some 0x0D) :
    ofBody name (onOwnLines code) = { text := code } := by
  have hbody : ∀ body : Text, body.head? = some 0x0A → ofListing body = ⟨body, none⟩ := by
    intro body hhead
    obtain ⟨rest, rfl⟩ : ∃ rest, body = 0x0A :: rest := by
      cases body with
      | nil => cases hhead
      | cons u rest => exact ⟨rest, by rw [Option.some.inj hhead]⟩
    rfl
  have hfirst : dropFirstBreak (onOwnLines code) = code ++ [0x0A] := rfl
  have hlast : dropLastBreak (code ++ [0x0A]) = code := by
    have hreverse : (code ++ [0x0A]).reverse = 0x0A :: code.reverse := by simp
    have hspace : (0x0A :: code.reverse).dropWhile CodeUnit.isTabSpace = 0x0A :: code.reverse :=
      List.dropWhile_cons_of_neg (by decide)
    rw [dropLastBreak, hreverse, hspace]
    cases hr : code.reverse with
    | nil => exact (List.reverse_eq_nil_iff.mp hr).symm
    | cons u rest =>
      have hu : u ≠ 0x0D := by
        rintro rfl
        rw [← List.head?_reverse, hr] at hcode
        exact hcode rfl
      have hback : (u :: rest).reverse = code := by rw [← hr, List.reverse_reverse]
      split
      · next heq => exact absurd (List.cons.inj (List.cons.inj heq).2).1 hu
      · next heq => rw [← (List.cons.inj heq).2, hback]
      · next hno => exact absurd rfl (hno _)
  have hminted : name ≠ "minted" :=
    (by decide : ∀ name ∈ codeEnvironments, name ≠ Text.ofString "minted") name hname
  rw [ofBody, hbody _ rfl, if_neg hminted, ite_self, hfirst, hlast]
  rfl

/-! ## Tokens and the run -/

/-- A code environment with its code on lines of its own. -/
def codeSource (name code : Text) : Text :=
  Lexeme.spellMarker false name ++ (onOwnLines code ++ Lexeme.spellMarker true name)

/-- The body of a code environment is one lexeme. -/
theorem covers_code (hname : name ∈ rawEnvironments) (hcode : code.HasNoEnd name) :
    Lexeme.Covers
      { kind := .rawText, length := (onOwnLines code).length, text := onOwnLines code }
      (.rawText name) (onOwnLines code) (Lexeme.spellMarker true name) := by
  refine ⟨⟨0x0A, code ++ [0x0A], rfl, ?_⟩, rfl⟩
  have hoffset := endMarkerOffset?_code hname hcode
  have hlength : (onOwnLines code).length = code.length + 1 + 1 := by simp [onOwnLines]
  rw [hlength] at hoffset ⊢
  have hread : Lexeme.read (.rawText name) 0x0A (code ++ [0x0A] ++ Lexeme.spellMarker true name)
      = Lexeme.spelled .rawText (onOwnLines code ++ Lexeme.spellMarker true name)
          (code.length + 1 + 1) := by
    rw [Lexeme.read, Lexeme.ofRawBody, ← List.cons_append, ← onOwnLines, hoffset]
    rfl
  rw [hread, Lexeme.spelled, ← hlength, List.take_append_length]

/-- The begin marker, the body, the end marker and the end of the text. -/
theorem remaining_code (hname : name ∈ codeEnvironments) (hcode : code.HasNoEnd name)
    (keep : Bool) :
    ∃ begun body ended last : Token,
      (Text.cursor (codeSource name code) keep).remaining = [begun, body, ended, last] ∧
        begun.kind = .envBegin ∧ begun.text = name ∧
        body.kind = .rawText ∧ body.text = onOwnLines code ∧
        ended.kind = .envEnd ∧ ended.text = name ∧ last.kind = .endOfFile := by
  have hraw := mem_rawEnvironments_of_mem hname
  obtain ⟨hne, hunits⟩ := Lexeme.isEnvironmentName_of_mem_rawEnvironments name hraw
  have hbegin := Lexeme.covers_anyMarker false hne hunits
    (onOwnLines code ++ Lexeme.spellMarker true name)
  rw [if_pos ⟨rfl, hraw⟩] at hbegin
  have hend := Lexeme.covers_anyMarker true hne hunits []
  have htokens : ∃ begun body ended last : Token,
      Text.tokens (codeSource name code) keep = [begun, body, ended, last] ∧
        begun.kind = .envBegin ∧ begun.text = name ∧
        body.kind = .rawText ∧ body.text = onOwnLines code ∧
        ended.kind = .envEnd ∧ ended.text = name ∧ last.kind = .endOfFile := by
    rw [Text.tokens_eq_tokensFrom, codeSource, Text.tokensFrom_of_covers hbegin (by simp [Lexeme.markerKind]),
      Text.tokensFrom_of_covers (covers_code hraw hcode) (by simp),
      ← List.append_nil (Lexeme.spellMarker true name),
      Text.tokensFrom_of_covers hend (by simp [Lexeme.markerKind]), Text.tokensFrom]
    exact ⟨_, _, _, _, rfl, rfl, rfl, rfl, rfl, rfl, rfl, rfl⟩
  obtain ⟨begun, body, ended, last, htokens, hkinds⟩ := htokens
  refine ⟨begun, body, ended, last, ?_, hkinds⟩
  rw [Text.cursor, htokens]
  exact Cursor.remaining_ofTokens (by simp)

end Body

namespace Parse.State

variable {ctx : Context} {s : State} {begun body ended last : Token}

/-- A code environment on its own is one code block, and nothing is said about it. -/
theorem outcome_code (hi : s.inline? = none) (he : s.environments = []) (hb : s.blocks = [])
    (hd : s.diagnostics = []) (hr : s.cursor.remaining = [begun, body, ended, last])
    (hbegun : begun.kind = .envBegin) (hname : EnvironmentKind.ofName? begun.text = some .codeBlock)
    (hbody : body.kind = .rawText) (hended : ended.kind = .envEnd)
    (htext : ended.text = begun.text) (hlast : last.kind = .endOfFile)
    (h : s.cursor.Terminated) :
    s.outcome ctx h = .ok ([.code (.span begun.start ended.stop)
      (CodeBody.ofBody begun.text body.text).text
      (CodeBody.ofBody begun.text body.text).language], []) := by
  have hr₁ := Cursor.remaining_advance hr (by simp) (by simp [hbegun])
  have hr₂ := Cursor.remaining_advance hr₁ (by simp) (by simp [hbody])
  have hr₃ := Cursor.remaining_advance hr₂ (by simp) (by simp [hended])
  have hc := Cursor.current_of_remaining hr
  have hc₁ := Cursor.current_of_remaining hr₁
  have hc₂ := Cursor.current_of_remaining hr₂
  have hc₃ := Cursor.current_of_remaining hr₃
  have hmarker : s.cursor.marker = ⟨begun, s.cursor.index⟩ := by rw [Cursor.marker, hc]
  have hexpect : expectEnd s.cursor.advance.advance ⟨begun, s.cursor.index⟩
      = .ok s.cursor.advance.advance.advance := by
    simp [expectEnd, hc₂, hended, htext, Marker.text]
  have hstop : s.cursor.advance.advance.advance.lastStop = ended.stop := by
    rw [lastStop_advance (by simp [hc₂, hended]), hc₂]
  -- The one step reads the environment to its end.
  have hstep : s.step ctx = .ok (some { s with
      cursor := s.cursor.advance.advance.advance
      blocks := [.code (.span begun.start ended.stop) (CodeBody.ofBody begun.text body.text).text
        (CodeBody.ofBody begun.text body.text).language] }) := by
    have hdepth : checkDepth s.depth ⟨begun, s.cursor.index⟩ = .ok () := by
      rw [depth, he, hi]
      exact checkDepth_of_le (by decide) _
    have htake : s.takeCode s.cursor.advance ⟨begun, s.cursor.index⟩ = .ok { s with
        cursor := s.cursor.advance.advance.advance
        blocks := [.code (.span begun.start ended.stop)
          (CodeBody.ofBody begun.text body.text).text
          (CodeBody.ofBody begun.text body.text).language] } := by
      simp only [takeCode, hc₁, hbody, if_true, hexpect]
      simp only [pure, Except.pure, bind, Except.bind, hstop, addBlocks, he, hb, Marker.text]
      rfl
    rw [step_of_envBegin hi (by rw [hc, hbegun])]
    simp only [beginEnvironment, hmarker, hdepth, Marker.text, hname, htake]
    rfl
  rw [outcome_of_some h hstep]
  refine (outcome_of_endOfFile ?_ ?_ ?_ _).trans ?_
  · exact hi
  · exact he
  · rw [hc₃, hlast]
  · rw [hd]

end Parse.State

/-! ## The output -/

namespace Fencing

open Markdown

variable {name code : Text} {options : Options} {settings : Settings}

/-- The conversion of a code environment is its code block, with nothing to report. -/
theorem convertUnder_code (hname : name ∈ codeEnvironments) (hend : code.HasNoEnd name)
    (hcode : code.getLast? ≠ some 0x0D) (settings : Settings) :
    convertUnder settings (codeSource name code)
      = .ok ⟨Text.join [0x0A] (codeBlockLines code none), []⟩ := by
  obtain ⟨begun, body, ended, last, hr, hbegun, hbname, hbody, hbtext, hended, hename, hlast⟩ :=
    remaining_code hname hend settings.keepComments
  have hrun : Parse.outcomeOf settings (codeSource name code) = _ :=
    Parse.State.outcome_code rfl rfl rfl rfl hr hbegun (by rw [hbname, ofName?_of_mem hname]) hbody
      hended (by rw [hename, hbname]) hlast _
  rw [Concatenation.convertUnder_eq, hrun, hbname, hbtext,
    Parse.CodeBody.ofBody_code hname hcode]
  refine Concatenation.written_eq_ok_iff.mpr ⟨rfl, ?_⟩
  simp [blocksLines, blockLines]

/-- Behind the begin marker of a code environment and a line break stands any code that has no end
marker of the environment and does not end in a carriage return; a line break and the end marker
follow.  Then the conversion succeeds with nothing to report.  Its first and last line are the same
run of three backticks or more, and no line between has so many in a row.  The lines between are the
code with line feeds for its line breaks; there is none just when there is no code. -/
theorem convert_code (hsettings : options.resolve = .ok settings) (hname : name ∈ codeEnvironments)
    (hend : code.HasNoEnd name) (hcode : code.getLast? ≠ some 0x0D) :
    ∃ output k lines,
      convertWithDiagnostics (Lexeme.spellMarker false name ++ [0x0A] ++ code ++ [0x0A]
          ++ Lexeme.spellMarker true name) options = .ok ⟨output, []⟩ ∧
        output.splitOn 0x0A = backticks k :: (lines ++ [backticks k]) ∧ 3 ≤ k ∧
        (∀ l ∈ lines, ¬ backticks k <:+: l) ∧
        Text.join [0x0A] lines = code.withLineFeeds ∧ (lines = [] ↔ code = []) := by
  have hshape : Lexeme.spellMarker false name ++ [0x0A] ++ code ++ [0x0A]
      ++ Lexeme.spellMarker true name = codeSource name code := by
    simp [codeSource, onOwnLines]
  have hunbroken : ∀ line ∈ codeBlockLines code none, line.Unbroken :=
    unbroken_codeBlockLines code fun _ h => by cases h
  refine ⟨Text.join [0x0A] (codeBlockLines code none), max 3 (longestBackticks 0 code + 1),
    if code = [] then [] else codeLines code, ?_, ?_, by omega, ?_, ?_, ?_⟩
  · rw [hshape, convertWithDiagnostics, withSettings, hsettings]
    exact convertUnder_code hname hend hcode settings
  · rw [Text.splitOn_join (by simp [codeBlockLines]) hunbroken]
    simp [codeBlockLines]
  · intro l hl hin
    split at hl
    · cases hl
    · have hle := le_longestBackticks_of_infix (hin.trans (infix_of_mem_codeLines hl))
      omega
  · split
    · next hnil => rw [hnil]; rfl
    · exact join_codeLines code
  · split
    · next hnil => simp [hnil]
    · next hne => simp [codeLines_ne_nil, hne]

/-- Code with the end of another environment, a carriage return, a line of space and four backticks.
-/
theorem convert_code_sample :
    let name : Text := "verbatim"
    let code : Text := "\\end\x7bverbatim*\x7d\r\n\t\n````"
    name ∈ codeEnvironments ∧ code.HasNoEnd name ∧ code.getLast? ≠ some 0x0D ∧
      ∃ output k lines,
        convertWithDiagnostics (Lexeme.spellMarker false name ++ [0x0A] ++ code ++ [0x0A]
            ++ Lexeme.spellMarker true name) {} = .ok ⟨output, []⟩ ∧
          output.splitOn 0x0A = backticks k :: (lines ++ [backticks k]) ∧ 3 ≤ k ∧
          (∀ l ∈ lines, ¬ backticks k <:+: l) ∧
          Text.join [0x0A] lines = code.withLineFeeds ∧ (lines = [] ↔ code = []) := by
  intro name code
  have hname : name ∈ codeEnvironments := by decide
  have hend : code.HasNoEnd name := Text.hasNoEnd_of_endMarkerOffset? (by decide)
  have hcode : code.getLast? ≠ some 0x0D := by decide
  exact ⟨hname, hend, hcode, convert_code rfl hname hend hcode⟩

end Fencing

end LatexMarkdown
