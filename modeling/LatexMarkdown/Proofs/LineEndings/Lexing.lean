import LatexMarkdown.Proofs.Dropping
import LatexMarkdown.Proofs.LineEndings.Returns
import LatexMarkdown.Proofs.RawBodies
import Mathlib.Data.List.Forall2
/-!
  Lexemes and tokens of a text with carriage returns.

  In a text that has no carriage returns, lexemes are read as they are in the same text with one before
  every line feed: they are of the same kinds, begin and end at the same places of the text, and only
  a line break and raw text are spelled in another way (`Lexeme.read_withReturns`).  So the two token
  lists correspond one to one (`Text.returned_tokens`).
-/
namespace LatexMarkdown

/-! ## Markup -/

theorem environmentName?_withReturns (t : Text) :
    environmentName? t.withReturns = environmentName? t := by
  simp only [environmentName?, Text.takeWhile_withReturns (p := CodeUnit.isLineSpace) rfl rfl,
    Text.dropWhile_withReturns (p := CodeUnit.isLineSpace) rfl rfl]
  cases t.dropWhile CodeUnit.isLineSpace with
  | nil => rfl
  | cons u inner =>
    by_cases hf : u = 0x0A
    · subst hf
      rfl
    rw [Text.withReturns_cons hf]
    by_cases hu : u = 0x7B
    · subst hu
      simp only [Text.takeWhile_withReturns (p := CodeUnit.isEnvironmentName) rfl rfl,
        Text.dropWhile_withReturns (p := CodeUnit.isEnvironmentName) rfl rfl,
        Text.head?_withReturns (u := 0x7D) rfl]
    · split
      · next heq => exact absurd (List.cons.inj heq).1 hu
      · split
        · next heq => exact absurd (List.cons.inj heq).1 hu
        · rfl

namespace Lexeme

theorem commandName_withReturns (t : Text) : commandName t.withReturns = commandName t := by
  simp only [commandName, Text.takeWhile_withReturns (p := CodeUnit.isLetter) rfl rfl,
    Text.dropWhile_withReturns (p := CodeUnit.isLetter) rfl rfl,
    Text.head?_withReturns (u := 0x2A) rfl]

theorem modeAfter_withReturns (name after : Text) :
    modeAfter name after.withReturns = modeAfter name after := by
  cases after with
  | nil => rfl
  | cons d after =>
    by_cases hd : d = 0x0A
    · subst hd
      have hr : (!(CodeUnit.isLetter 0x0D || CodeUnit.isLineSpace 0x0D
        || CodeUnit.isLineBreak 0x0D)) = false := by decide
      have hf : (!(CodeUnit.isLetter 0x0A || CodeUnit.isLineSpace 0x0A
        || CodeUnit.isLineBreak 0x0A)) = false := by decide
      simp only [Text.withReturns_lineFeed, modeAfter, hr, hf]
      simp
    · rw [Text.withReturns_cons hd]
      rfl

theorem ofCommand_withReturns (t : Text) : ofCommand t.withReturns = ofCommand t := by
  obtain ⟨after, hafter⟩ := commandName_prefix t
  have hname : ∀ u ∈ t.take (commandName t).length, CodeUnit.isLineBreak u = false := by
    intro u hu
    rw [← List.prefix_iff_eq_take.mp ⟨after, hafter⟩] at hu
    exact isLineBreak_of_mem_commandName hu
  simp only [ofCommand, commandName_withReturns, (Text.withReturns_split hname).2, ofMarker?,
    environmentName?_withReturns, modeAfter_withReturns]

/-- A backslash never takes a line break with it. -/
theorem ofEscape_withReturns (t : Text) : ofEscape t.withReturns = ofEscape t := by
  cases t with
  | nil => rfl
  | cons c rest =>
    by_cases hc : c = 0x0A
    · subst hc
      rfl
    · have hcommand := ofCommand_withReturns (c :: rest)
      have hspelled : ∀ (kind : TokenKind) (n : Nat) (flags : TokenFlags), n ≤ 2 →
          spelled kind (0x5C :: c :: Text.withReturns rest) n flags
            = spelled kind (0x5C :: c :: rest) n flags := by
        intro kind n flags hn
        have htake : ∀ t : Text, (0x5C :: c :: t).take n = [0x5C, c].take n := by
          intro t
          show ([0x5C, c] ++ t).take n = _
          exact List.take_append_of_le_length hn
        simp only [spelled, htake]
      rw [Text.withReturns_cons hc] at hcommand ⊢
      simp only [ofEscape, hcommand, hspelled _ 2 _ (Nat.le_refl 2)]
      rw [hspelled .text _ _ (by split <;> omega)]

/-- A unit that breaks no line begins the same lexeme. -/
theorem ofMarkup_withReturns {u : CodeUnit} (hu : u.isLineBreak = false) (rest : Text) :
    ofMarkup u rest.withReturns = ofMarkup u rest := by
  unfold ofMarkup
  cases hc : Category.ofUnit u with
  | escape => exact ofEscape_withReturns rest
  | mathShift =>
    simp only [Text.head?_withReturns (u := 0x24) rfl]
    split
    · next hhead =>
      obtain ⟨more, rfl⟩ := List.head?_eq_some_iff.mp hhead
      rfl
    · rfl
  | comment => simp only [Text.takeWhile_withReturns (p := fun v => !v.isLineBreak) rfl rfl]
  | lineBreak => rw [isLineBreak_of_category hc] at hu; cases hu
  | other => simp only [Text.takeWhile_withReturns (p := CodeUnit.isPlain) rfl rfl]
  | groupOpen | groupClose | bracketOpen | bracketClose | alignmentTab | tie => rfl

end Lexeme

/-! ## Raw text -/

theorem isPrefixOf_withReturns {l : Text} (hl : ∀ u ∈ l, CodeUnit.isLineBreak u = false) (t : Text) :
    l.isPrefixOf t.withReturns = l.isPrefixOf t := by
  induction l generalizing t with
  | nil => simp
  | cons u l ih =>
    rw [List.forall_mem_cons] at hl
    cases t with
    | nil => rfl
    | cons v t =>
      by_cases hv : v = 0x0A
      · subst hv
        have hr : (u == 0x0D) = false := by
          rw [beq_eq_false_iff_ne]
          rintro rfl
          exact absurd hl.1 (by decide)
        have hf : (u == 0x0A) = false := by
          rw [beq_eq_false_iff_ne]
          rintro rfl
          exact absurd hl.1 (by decide)
        simp [List.isPrefixOf, hr, hf]
      · rw [Text.withReturns_cons hv]
        simp only [List.isPrefixOf, ih hl.2]

theorem startsWithEndMarker_withReturns {name : Text}
    (hname : ∀ u ∈ name, CodeUnit.isLineBreak u = false) (t : Text) :
    startsWithEndMarker name t.withReturns = startsWithEndMarker name t := by
  have hmarker : ∀ u ∈ (0x7B :: name) ++ [0x7D], CodeUnit.isLineBreak u = false := by
    intro u hu
    rcases List.mem_append.mp hu with hu | hu
    · rcases List.mem_cons.mp hu with rfl | hu
      · decide
      · exact hname u hu
    · rw [List.mem_singleton.mp hu]
      decide
  have hcommand : ∀ u ∈ ([0x5C, 0x65, 0x6E, 0x64] : Text), CodeUnit.isLineBreak u = false := by decide
  have heq : ∀ t : Text, startsWithEndMarker name t
      = (([0x5C, 0x65, 0x6E, 0x64] : Text).isPrefixOf t
        && ((0x7B :: name) ++ [0x7D]).isPrefixOf ((t.drop 4).dropWhile CodeUnit.isTabSpace)) := by
    intro t
    unfold startsWithEndMarker
    split
    · simp
    · next hnot =>
      have hfour : ([0x5C, 0x65, 0x6E, 0x64] : Text).isPrefixOf t = false := by
        rw [Bool.eq_false_iff, ne_eq, List.isPrefixOf_iff_prefix]
        rintro ⟨rest, rfl⟩
        exact hnot rest rfl
      rw [hfour, Bool.false_and]
  rw [heq, heq, isPrefixOf_withReturns hcommand]
  cases hfour : ([0x5C, 0x65, 0x6E, 0x64] : Text).isPrefixOf t with
  | false => rfl
  | true =>
    -- Behind the command the text goes on with its carriage returns.
    obtain ⟨rest, rfl⟩ := List.isPrefixOf_iff_prefix.mp hfour
    have hdrop := (Text.withReturns_split (t := [0x5C, 0x65, 0x6E, 0x64] ++ rest) (n := 4)
      (by simpa using hcommand)).2
    rw [hdrop, Text.dropWhile_withReturns rfl rfl, isPrefixOf_withReturns hmarker]

/-- The first end marker stands behind the same text with its carriage returns. -/
theorem endMarkerOffset?_withReturns {name : Text}
    (hname : ∀ u ∈ name, CodeUnit.isLineBreak u = false) (t : Text) :
    endMarkerOffset? name t.withReturns
      = (endMarkerOffset? name t).map fun n => (Text.withReturns (t.take n)).length := by
  induction t with
  | nil => rfl
  | cons u t ih =>
    have hmarker := startsWithEndMarker_withReturns hname (u :: t)
    by_cases hu : u = 0x0A
    · subst hu
      -- Neither half of a line break begins an end marker.
      have hhead : ∀ (v : CodeUnit) (s : Text), v.isLineBreak = true →
          startsWithEndMarker name (v :: s) = false := by
        intro v s hv
        rw [Bool.eq_false_iff]
        intro h
        have h := Lexeme.startsWithEndMarker_head h
        rw [List.head?_cons, Option.some.injEq] at h
        rw [h] at hv
        exact absurd hv (by decide)
      rw [Text.withReturns_lineFeed, endMarkerOffset?, hhead 0x0D _ rfl, if_neg (by decide),
        endMarkerOffset?, hhead 0x0A _ rfl, if_neg (by decide), ih, endMarkerOffset?, hhead 0x0A _ rfl,
        if_neg (by decide)]
      simp [Option.map_map, Function.comp_def]
    · rw [Text.withReturns_cons hu] at hmarker ⊢
      rw [endMarkerOffset?, endMarkerOffset?, hmarker, ih]
      split
      · rfl
      · simp [Option.map_map, Function.comp_def, Text.withReturns_cons hu]

namespace Lexeme

theorem unbroken_of_mem_rawEnvironments :
    ∀ name ∈ rawEnvironments, ∀ u ∈ name, CodeUnit.isLineBreak u = false := by decide

theorem ofVerbatim_withReturns {d : CodeUnit} (hd : d.isLineBreak = false) (rest : Text) :
    ofVerbatim d rest.withReturns = ofVerbatim d rest := by
  have hf : ((0x0A : CodeUnit) != d && !CodeUnit.isLineBreak 0x0A) = false := by
    simp [show CodeUnit.isLineBreak 0x0A = true from rfl]
  have hr : ((0x0D : CodeUnit) != d && !CodeUnit.isLineBreak 0x0D) = false := by
    simp [show CodeUnit.isLineBreak 0x0D = true from rfl]
  simp only [ofVerbatim, Text.drop_length_takeWhile]
  simp only [Text.takeWhile_withReturns (p := fun c => c != d && !c.isLineBreak) hf hr,
    Text.dropWhile_withReturns (p := fun c => c != d && !c.isLineBreak) hf hr,
    Text.head?_withReturns hd]

/-! ## Lexemes -/

theorem isLineBreak_of_mem_ofCommand {t : Text} {v : CodeUnit} (hv : v ∈ (ofCommand t).text) :
    v.isLineBreak = false := by
  simp only [ofCommand] at hv
  split at hv
  · next marker hmarker =>
    have hname : ∀ {environment : Text} {n : Nat},
        environmentName? (t.drop (commandName t).length) = some (environment, n) →
          v ∈ environment → v.isLineBreak = false := by
      intro environment n henv hmem
      obtain ⟨-, -, -, -, -, -, hunits⟩ := environmentName?_eq_some_iff.mp henv
      exact isLineBreak_eq_false (hunits v hmem)
    unfold ofMarker? at hmarker
    split at hmarker
    · obtain ⟨⟨environment, n⟩, henv, rfl⟩ := Option.map_eq_some_iff.mp hmarker
      exact hname henv hv
    · split at hmarker
      · obtain ⟨⟨environment, n⟩, henv, rfl⟩ := Option.map_eq_some_iff.mp hmarker
        exact hname henv hv
      · cases hmarker
  · exact isLineBreak_of_mem_commandName hv

theorem isLineBreak_of_mem_ofEscape {t : Text} {v : CodeUnit} (hv : v ∈ (ofEscape t).text) :
    v.isLineBreak = false := by
  cases t with
  | nil =>
    rw [List.mem_singleton.mp hv]
    decide
  | cons c rest =>
    have htwo : c.isLineBreak = false → v ∈ ([0x5C, c] : Text) → v.isLineBreak = false := by
      intro hc hmem
      simp only [List.mem_cons, List.not_mem_nil, or_false] at hmem
      rcases hmem with rfl | rfl
      · decide
      · exact hc
    simp only [ofEscape] at hv
    split at hv
    · exact isLineBreak_of_mem_ofCommand hv
    split at hv
    · next h => exact htwo (h ▸ by decide) hv
    split at hv
    · next h => exact htwo (by rcases h with rfl | rfl <;> decide) hv
    split at hv
    · next h => exact htwo (by rcases h with rfl | rfl <;> decide) hv
    split at hv
    · rw [List.mem_singleton.mp hv]
      decide
    split at hv
    · next h =>
      rw [List.mem_singleton.mp hv]
      exact isLineBreak_eq_false h
    · by_cases hc : c.isLineBreak = true
      · rw [if_pos hc] at hv
        rw [List.mem_singleton.mp hv]
        decide
      · rw [if_neg hc] at hv
        exact htwo (by simpa using hc) hv

/-- A line break aside, what markup stands for has none of its units. -/
theorem isLineBreak_of_mem_ofMarkup {u v : CodeUnit} {rest : Text} (hu : u.isLineBreak = false)
    (hv : v ∈ (ofMarkup u rest).text) : v.isLineBreak = false := by
  have hone : v ∈ ([u] : Text) → v.isLineBreak = false := fun h => List.mem_singleton.mp h ▸ hu
  unfold ofMarkup at hv
  cases hc : Category.ofUnit u <;> rw [hc] at hv
  case escape => exact isLineBreak_of_mem_ofEscape hv
  case mathShift =>
    simp only at hv
    split at hv
    · next hhead =>
      obtain ⟨more, rfl⟩ := List.head?_eq_some_iff.mp hhead
      have htwo : v ∈ ([u, 0x24] : Text) := hv
      simp only [List.mem_cons, List.not_mem_nil, or_false] at htwo
      rcases htwo with rfl | rfl
      · exact hu
      · decide
    · exact hone hv
  case comment =>
    have hline := List.mem_takeWhile_imp hv
    simpa using hline
  case tie =>
    rw [List.mem_singleton.mp hv]
    decide
  case lineBreak => rw [isLineBreak_of_category hc] at hu; cases hu
  case other =>
    rcases List.mem_cons.mp hv with rfl | hv
    · exact hu
    · exact isLineBreak_eq_false (List.mem_takeWhile_imp hv)
  all_goals exact hone hv

/-- A unit that breaks no line begins no line break, and no raw text. -/
theorem kind_ofMarkup_ne {u : CodeUnit} (hu : u.isLineBreak = false) (rest : Text) :
    (ofMarkup u rest).kind ≠ .newLine := by
  unfold ofMarkup
  cases hc : Category.ofUnit u
  case escape =>
    intro h
    exact absurd (h ▸ kind_ofEscape_mem rest) (by decide)
  case mathShift => simp only; split <;> simp [spelled]
  case lineBreak => rw [isLineBreak_of_category hc] at hu; cases hu
  all_goals simp [spelled]

/-- The lexeme of a text as the lexeme of the same text with carriage returns. -/
def withReturns (x : Lexeme) (t : Text) : Lexeme :=
  { x with length := (Text.withReturns (t.take x.length)).length, text := x.text.withReturns }

/-- A lexeme that breaks no line stays what it is. -/
theorem withReturns_eq_self {x : Lexeme} {t : Text} (hle : x.length ≤ t.length)
    (hspan : ∀ v ∈ t.take x.length, CodeUnit.isLineBreak v = false)
    (htext : ∀ v ∈ x.text, CodeUnit.isLineBreak v = false) : x.withReturns t = x := by
  rw [withReturns, Text.withReturns_of_forall hspan, Text.withReturns_of_forall htext,
    List.length_take_of_le hle]

theorem ofMarkup_withReturns_eq {u : CodeUnit} (hu : u.isLineBreak = false) (rest : Text) :
    ofMarkup u rest.withReturns = (ofMarkup u rest).withReturns (u :: rest) := by
  have hfits := fits_ofMarkup u rest
  rw [ofMarkup_withReturns hu, withReturns_eq_self hfits.length_le
    (hfits.unbroken (kind_ofMarkup_ne hu rest) (kind_ofMarkup_ne_rawText u rest))
    fun v hv => isLineBreak_of_mem_ofMarkup hu hv]

theorem ofVerbatim_withReturns_eq {d : CodeUnit} (hd : d.isLineBreak = false) (rest : Text) :
    ofVerbatim d rest.withReturns = (ofVerbatim d rest).withReturns (d :: rest) := by
  have hspan : ∀ v ∈ (d :: rest).take (ofVerbatim d rest).length, CodeUnit.isLineBreak v = false := by
    simp only [ofVerbatim, Text.drop_length_takeWhile]
    generalize hp : (fun c : CodeUnit => c != d && !c.isLineBreak) = p
    have hline : ∀ v ∈ d :: rest.takeWhile p, CodeUnit.isLineBreak v = false := by
      intro v hv
      rcases List.mem_cons.mp hv with rfl | hv
      · exact hd
      · have hpv := List.mem_takeWhile_imp hv
        rw [← hp] at hpv
        simpa using (Bool.and_eq_true_iff.mp hpv).2
    have hsplit : rest.takeWhile p ++ rest.dropWhile p = rest := List.takeWhile_append_dropWhile
    split
    · next hhead =>
      obtain ⟨more, hmore⟩ := List.head?_eq_some_iff.mp hhead
      have hshape : d :: rest = (d :: rest.takeWhile p ++ [d]) ++ more := by
        rw [List.append_assoc, List.singleton_append, ← hmore, List.cons_append, hsplit]
      rw [hshape, List.take_left' (by simp; omega)]
      intro v hv
      rcases List.mem_append.mp hv with hv | hv
      · exact hline v hv
      · exact List.mem_singleton.mp hv ▸ hd
    · have hshape : d :: rest = (d :: rest.takeWhile p) ++ rest.dropWhile p := by
        rw [List.cons_append, hsplit]
      rw [hshape, List.take_left' (by simp; omega)]
      exact hline
  rw [ofVerbatim_withReturns hd, withReturns_eq_self (fits_ofVerbatim hd rest).length_le hspan
    fun v hv => isLineBreak_of_mem_ofVerbatim hv]

/-- A lexeme is read as before. -/
theorem read_withReturns {mode : Mode} {u v : CodeUnit} {rest rest' : Text} (hu : u ≠ 0x0D)
    (hagrees : mode.Agrees (u :: rest)) (hraw : ∀ name, mode = .rawText name → name ∈ rawEnvironments)
    (ht : Text.withReturns (u :: rest) = v :: rest') :
    read mode v rest' = (read mode u rest).withReturns (u :: rest) := by
  have hnormal : ofMarkup v rest' = (ofMarkup u rest).withReturns (u :: rest) := by
    by_cases hf : u = 0x0A
    · subst hf
      cases ht
      rfl
    · rw [Text.withReturns_cons hf] at ht
      cases ht
      refine ofMarkup_withReturns_eq ?_ rest
      simp [CodeUnit.isLineBreak, hu, hf]
  cases mode with
  | normal => exact hnormal
  | verbatim d =>
    obtain ⟨hhead, hd⟩ := hagrees
    cases Option.some.inj hhead
    rw [Text.withReturns_cons (by rintro rfl; exact absurd hd (by decide))] at ht
    cases ht
    exact ofVerbatim_withReturns_eq hd rest
  | rawText name =>
    have hoffset := endMarkerOffset?_withReturns (unbroken_of_mem_rawEnvironments name (hraw name rfl))
      (u :: rest)
    rw [ht] at hoffset
    simp only [read, ofRawBody]
    cases hn : endMarkerOffset? name (u :: rest) with
    | none =>
      rw [hn] at hoffset
      have htake : (u :: rest).take (rest.length + 1) = u :: rest := List.take_of_length_le (Nat.le_refl _)
      have htake' : (v :: rest').take (rest'.length + 1) = v :: rest' :=
        List.take_of_length_le (Nat.le_refl _)
      simp only [hoffset, Option.map_none, withReturns, spelled, htake, htake', ht, List.length_cons]
    | some n =>
      rw [hn] at hoffset
      cases n with
      | zero =>
        simp only [hoffset, Option.map_some, List.take_zero, Text.withReturns_nil, List.length_nil]
        exact hnormal
      | succ n =>
        -- What is left of the longer text begins at the end marker as well.
        have hsplit : v :: rest' = Text.withReturns ((u :: rest).take (n + 1))
            ++ Text.withReturns ((u :: rest).drop (n + 1)) := by
          rw [← Text.withReturns_append, List.take_append_drop, ht]
        have hpos : (Text.withReturns ((u :: rest).take (n + 1))).length ≠ 0 := by
          obtain ⟨w, tail, htail⟩ := Text.withReturns_eq_cons u (rest.take n)
          rw [List.take_succ_cons, htail]
          exact Nat.succ_ne_zero _
        obtain ⟨m, hm⟩ := Nat.exists_eq_succ_of_ne_zero hpos
        have htake : (v :: rest').take (m + 1) = Text.withReturns ((u :: rest).take (n + 1)) := by
          rw [hsplit, List.take_left' hm]
        simp only [hoffset, Option.map_some, hm, withReturns, spelled]
        rw [htake]

/-- Only line breaks and raw text stand for more than what is on one line. -/
theorem isLineBreak_of_mem_read {mode : Mode} {u v : CodeUnit} {rest : Text}
    (hbreak : (read mode u rest).kind ≠ .newLine) (hraw : (read mode u rest).kind ≠ .rawText)
    (hv : v ∈ (read mode u rest).text) : v.isLineBreak = false := by
  have hmarkup : (ofMarkup u rest).kind ≠ .newLine → v ∈ (ofMarkup u rest).text →
      v.isLineBreak = false := by
    intro hk hv
    refine isLineBreak_of_mem_ofMarkup (isLineBreak_of_category_ne fun hc => hk ?_) hv
    rw [ofMarkup, hc]
    rfl
  cases mode with
  | normal => exact hmarkup hbreak hv
  | rawText name =>
    revert hbreak hraw hv
    simp only [read, ofRawBody]
    split
    · exact fun hbreak _ => hmarkup hbreak
    · exact fun _ hraw => absurd rfl hraw
    · exact fun _ hraw => absurd rfl hraw
  | verbatim d => exact isLineBreak_of_mem_ofVerbatim hv

/-- What a lexeme stands for has no carriage return, unless the text has one. -/
theorem return_not_mem_read {mode : Mode} {u : CodeUnit} {rest : Text} (h : 0x0D ∉ u :: rest) :
    0x0D ∉ (read mode u rest).text := by
  have hmarkup : 0x0D ∉ (ofMarkup u rest).text := by
    intro hmem
    cases hu : u.isLineBreak with
    | true =>
      have hread := read_lineBreak hu rest
      rw [show ofMarkup u rest = _ from hread] at hmem
      exact h (List.mem_of_mem_take hmem)
    | false => exact absurd (isLineBreak_of_mem_ofMarkup hu hmem) (by decide)
  cases mode with
  | normal => exact hmarkup
  | rawText name =>
    simp only [read, ofRawBody]
    split
    · exact hmarkup
    · exact fun hmem => h (List.mem_of_mem_take hmem)
    · exact fun hmem => h (List.mem_of_mem_take hmem)
  | verbatim d => exact fun hmem => absurd (isLineBreak_of_mem_ofVerbatim hmem) (by decide)

end Lexeme

/-! ## Tokens -/

namespace LineMark

/-- The line behind a dropped comment goes by whether a line break ends it. -/
theorem afterComment_congr {m : LineMark} {n n' : Nat} (h : n' = 0 ↔ n = 0) :
    m.afterComment n' = m.afterComment n := by
  have heq : (n' == 0) = (n == 0) := by rw [Bool.eq_iff_iff, beq_iff_eq, beq_iff_eq, h]
  simp only [afterComment, bne, heq]

theorem after_withReturns {m : LineMark} {x : Lexeme} {t : Text}
    (h : x.kind = .text → ∀ u ∈ x.text, CodeUnit.isLineBreak u = false) :
    m.after (x.withReturns t) = m.after x := by
  have hblank : (x.kind == .text && x.text.withReturns.isBlank)
      = (x.kind == .text && x.text.isBlank) := by
    cases hk : x.kind == .text with
    | false => rfl
    | true => rw [Text.withReturns_of_forall (h (eq_of_beq hk))]
  simp only [after, Lexeme.withReturns, hblank]

end LineMark

/-- A token of a source, and the token that stands in its place in the same source with carriage
returns. -/
structure Token.Returned (source : Text) (t t' : Token) : Prop where
  kind : t'.kind = t.kind
  flags : t'.flags = t.flags
  text : t.text.Returned t'.text
  unbroken : t.kind ≠ .newLine → t.kind ≠ .rawText → ∀ u ∈ t.text, CodeUnit.isLineBreak u = false
  spelling : (source.slice t.start t.stop).Returned (source.withReturns.slice t'.start t'.stop)

namespace Text

/-- A line break is as long as it is with its carriage return. -/
theorem breakLength_withReturns {t : Text} (h : 0x0D ∉ t) :
    breakLength t.withReturns = (withReturns (t.take (breakLength t))).length := by
  cases t with
  | nil => rfl
  | cons u t =>
    by_cases hu : u = 0x0A
    · subst hu
      rfl
    · have hne : u ≠ 0x0D := fun h' => h (h' ▸ List.mem_cons_self)
      have hbreak : u.isLineBreak = false := by simp [CodeUnit.isLineBreak, hu, hne]
      rw [withReturns_cons hu, breakLength_of_not_isLineBreak hbreak,
        breakLength_of_not_isLineBreak hbreak]
      rfl

theorem breakLength_withReturns_eq_zero_iff {t : Text} (h : 0x0D ∉ t) :
    breakLength t.withReturns = 0 ↔ breakLength t = 0 := by
  have hle := breakLength_le t
  rw [breakLength_withReturns h, List.length_eq_zero_iff, withReturns_eq_nil_iff,
    ← List.length_eq_zero_iff, List.length_take_of_le hle]

/-- Behind the units of a piece of the text the rest stands with its carriage returns. -/
theorem drop_withReturns (t : Text) (n : Nat) :
    t.withReturns.drop (withReturns (t.take n)).length = withReturns (t.drop n) := by
  conv_lhs => rw [← List.take_append_drop n t, withReturns_append, List.take_append_drop]
  exact List.drop_left

/-- A piece in the middle of a text, between its offsets. -/
theorem slice_append_append (before piece after : Text) :
    slice (before ++ (piece ++ after)) before.length (before.length + piece.length) = piece := by
  rw [slice, List.drop_left, Nat.add_sub_cancel_left, List.take_left]

/-- A piece of a text, and the same piece with its carriage returns. -/
theorem returned_slice {before t : Text} (hclean : 0x0D ∉ t) {n : Nat} (hn : n ≤ t.length) :
    Returned (slice (before ++ t) before.length (before.length + n))
      (slice (before ++ t).withReturns before.withReturns.length
        (before.withReturns.length + (withReturns (t.take n)).length)) := by
  have hpiece := slice_append_append before (t.take n) (t.drop n)
  have hpiece' := slice_append_append before.withReturns (withReturns (t.take n))
    (withReturns (t.drop n))
  rw [← withReturns_append, ← withReturns_append, List.take_append_drop] at hpiece'
  rw [List.take_append_drop, List.length_take_of_le hn] at hpiece
  rw [hpiece', hpiece]
  exact ⟨fun h => hclean (List.mem_of_mem_take h), rfl⟩

/-- The tokens of what is left of a text without carriage returns, and those of the same text with
them. -/
theorem returned_tokensFrom {source : Text} {keep : Bool} {mode : Mode} {offset : Nat} {t : Text}
    (hclean : 0x0D ∉ t) (hagrees : mode.Agrees t)
    (hmode : ∀ name, mode = .rawText name → name ∈ rawEnvironments) (m : LineMark) {before : Text}
    (hsource : source = before ++ t) (hoffset : offset = before.length) :
    List.Forall₂ (Token.Returned source) (tokensFrom keep mode m offset t)
      (tokensFrom keep mode m before.withReturns.length t.withReturns) := by
  fun_induction tokensFrom keep mode m offset t generalizing before with
  | case1 mode m offset =>
    rw [withReturns_nil, tokensFrom]
    refine .cons ⟨rfl, rfl, .nil, fun _ _ _ h => absurd h List.not_mem_nil, ?_⟩ .nil
    simpa [slice, Token.atEnd, Lexeme.toToken] using Returned.nil
  | case2 mode m offset u rest x hc n ih =>
    obtain ⟨v, rest', ht⟩ := withReturns_eq_cons u rest
    have hread : Lexeme.read mode v rest' = x.withReturns (u :: rest) :=
      Lexeme.read_withReturns (fun h => hclean (h ▸ List.mem_cons_self)) hagrees hmode ht
    have hle : n ≤ (u :: rest).length := by
      have hfits : x.length ≤ (u :: rest).length := (Lexeme.fits_read hagrees).length_le
      have hbreak := breakLength_le ((u :: rest).drop x.length)
      rw [List.length_drop] at hbreak
      omega
    have hrest := ih (fun h => hclean (List.mem_of_mem_drop h)) trivial (by simp)
      (show source = before ++ (u :: rest).take n ++ (u :: rest).drop n by
        rw [hsource, List.append_assoc, List.take_append_drop])
      (by rw [hoffset, List.length_append, List.length_take_of_le hle])
    have hbehind : 0x0D ∉ (u :: rest).drop x.length := fun h => hclean (List.mem_of_mem_drop h)
    have hdrop : (v :: rest').drop (x.withReturns (u :: rest)).length
        = withReturns ((u :: rest).drop x.length) := by
      rw [← ht]
      exact drop_withReturns _ _
    -- The comment goes with its line break, of one unit or of two.
    have hlen : (x.withReturns (u :: rest)).length
        + breakLength ((v :: rest').drop (x.withReturns (u :: rest)).length)
          = (withReturns ((u :: rest).take n)).length := by
      rw [hdrop, breakLength_withReturns hbehind, List.take_add, withReturns_append,
        List.length_append]
      rfl
    have hafter : m.afterComment (breakLength ((v :: rest').drop (x.withReturns (u :: rest)).length))
        = m.afterComment (breakLength ((u :: rest).drop x.length)) := by
      rw [hdrop]
      exact LineMark.afterComment_congr (breakLength_withReturns_eq_zero_iff hbehind)
    have hc' : (x.withReturns (u :: rest)).kind = .comment ∧ keep = false := hc
    rw [withReturns_append, List.length_append, ← drop_withReturns, ht] at hrest
    rw [ht, tokensFrom]
    simp only [hread, if_pos hc', hafter, hlen]
    exact hrest
  | case3 mode m offset u rest x hc ih =>
    obtain ⟨v, rest', ht⟩ := withReturns_eq_cons u rest
    have hread : Lexeme.read mode v rest' = x.withReturns (u :: rest) :=
      Lexeme.read_withReturns (fun h => hclean (h ▸ List.mem_cons_self)) hagrees hmode ht
    have hfits : x.Fits (u :: rest) := Lexeme.fits_read hagrees
    have hrest := ih (fun h => hclean (List.mem_of_mem_drop h)) hfits.agrees
      (fun name hname => (Lexeme.begins_of_mode hname).2.2)
      (show source = before ++ (u :: rest).take x.length ++ (u :: rest).drop x.length by
        rw [hsource, List.append_assoc, List.take_append_drop])
      (by rw [hoffset, List.length_append, List.length_take_of_le hfits.length_le])
    have hc' : ¬ ((x.withReturns (u :: rest)).kind = .comment ∧ keep = false) := hc
    rw [withReturns_append, List.length_append, ← drop_withReturns, ht] at hrest
    rw [ht, tokensFrom]
    simp only [hread, if_neg hc']
    rw [LineMark.after_withReturns fun hk => ?_]
    · refine .cons ⟨rfl, rfl, ⟨Lexeme.return_not_mem_read hclean, rfl⟩, ?_, ?_⟩ hrest
      · exact fun hbreak hraw _ => Lexeme.isLineBreak_of_mem_read hbreak hraw
      · rw [hsource]
        simp only [hoffset]
        exact returned_slice hclean hfits.length_le
    · have hk : x.kind = .text := hk
      exact fun v => Lexeme.isLineBreak_of_mem_read (by rw [hk]; decide) (by rw [hk]; decide)

/-- The tokens of a source without carriage returns, and those of the same source with them. -/
theorem returned_tokens {source : Text} (hclean : 0x0D ∉ source) (keep : Bool) :
    List.Forall₂ (Token.Returned source) (source.tokens keep) (source.withReturns.tokens keep) := by
  have hagrees : Mode.normal.Agrees source := trivial
  rw [tokens_eq_tokensFrom, tokens_eq_tokensFrom]
  exact returned_tokensFrom hclean hagrees (by simp) {} (List.nil_append source).symm rfl

end Text

end LatexMarkdown
