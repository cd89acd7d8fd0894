import LatexMarkdown.Proofs.Lexemes
/-!
  Lexemes in front of a line feed.

  A lexeme is the same whatever stands behind a line feed that comes after its text
  (`Lexeme.read_append`), but for two: the body of a raw environment that is not ended, and a
  carriage return that makes one break with the line feed.

  What the scanner looks ahead for, names and markers, goes no further than a line feed or a percent
  sign (`CodeUnit.Stops`).
-/
namespace LatexMarkdown

/-- A unit that goes on neither a name nor a marker: a line feed or a percent sign. -/
def CodeUnit.Stops (v : CodeUnit) : Prop := v = 0x0A ∨ v = 0x25

theorem CodeUnit.stops_lineFeed : CodeUnit.Stops 0x0A := .inl rfl

theorem CodeUnit.stops_percent : CodeUnit.Stops 0x25 := .inr rfl

namespace Text

variable {p : CodeUnit → Bool} {v : CodeUnit}

/-- A class is left at a unit that is not of it. -/
theorem takeWhile_append (hp : p v = false) (t e : Text) :
    (t ++ v :: e).takeWhile p = t.takeWhile p := by
  induction t with
  | nil => simp [hp]
  | cons u rest ih => rw [List.cons_append, List.takeWhile_cons, List.takeWhile_cons, ih]

theorem dropWhile_append (hp : p v = false) (t e : Text) :
    (t ++ v :: e).dropWhile p = t.dropWhile p ++ v :: e := by
  induction t with
  | nil => simp [hp]
  | cons u rest ih =>
    rw [List.cons_append, List.dropWhile_cons, List.dropWhile_cons, ih]
    split <;> rfl

theorem head?_append {u : CodeUnit} (hu : u ≠ v) (t e : Text) :
    (t ++ v :: e).head? = some u ↔ t.head? = some u := by
  cases t with
  | nil => simp [hu.symm]
  | cons w rest => simp

theorem breakLength_cons_cons (u v : CodeUnit) (rest : Text) :
    breakLength (u :: v :: rest)
      = if u = 0x0D ∧ v = 0x0A then 2 else if u.isLineBreak then 1 else 0 := by
  by_cases h : u = 0x0D ∧ v = 0x0A
  · obtain ⟨rfl, rfl⟩ := h
    rfl
  · rw [if_neg h]
    unfold breakLength
    split
    · next heq =>
      obtain ⟨hu, hrest⟩ := List.cons.inj heq
      exact absurd ⟨hu, (List.cons.inj hrest).1⟩ h
    · next heq => rw [(List.cons.inj heq).1]
    · next heq => cases heq

theorem breakLength_singleton (u : CodeUnit) :
    breakLength [u] = if u.isLineBreak then 1 else 0 := by
  unfold breakLength
  split
  · next heq => cases (List.cons.inj heq).2
  · next heq => rw [(List.cons.inj heq).1]
  · next heq => cases heq

/-- Only a carriage return at the end of the text makes one break with the line feed. -/
theorem breakLength_append {t : Text} (hne : t ≠ []) (hcr : t ≠ [0x0D]) (e : Text) :
    breakLength (t ++ 0x0A :: e) = breakLength t := by
  obtain ⟨u, rest, rfl⟩ := List.exists_cons_of_ne_nil hne
  cases rest with
  | cons v rest =>
    rw [List.cons_append, List.cons_append, breakLength_cons_cons, breakLength_cons_cons]
  | nil =>
    have hu : u ≠ 0x0D := by
      rintro rfl
      exact hcr rfl
    rw [List.singleton_append, breakLength_cons_cons, if_neg fun h => hu h.1,
      breakLength_singleton]

end Text

/-- A name in braces ends before a unit that stops it. -/
theorem environmentName?_append {v : CodeUnit} (hv : v.Stops) (t e : Text) :
    environmentName? (t ++ v :: e) = environmentName? t := by
  have hspace : v.isLineSpace = false := by rcases hv with rfl | rfl <;> decide
  have hname : v.isEnvironmentName = false := by rcases hv with rfl | rfl <;> decide
  have hclose : 0x7D ≠ v := by rcases hv with rfl | rfl <;> decide
  have hopen : v ≠ 0x7B := by rcases hv with rfl | rfl <;> decide
  simp only [environmentName?, Text.takeWhile_append hspace, Text.dropWhile_append hspace]
  cases t.dropWhile CodeUnit.isLineSpace with
  | nil =>
    simp only [List.nil_append]
    split
    · next heq => exact absurd (List.cons.inj heq).1 hopen
    · rfl
  | cons u inner =>
    by_cases hu : u = 0x7B
    · subst hu
      simp only [List.cons_append, Text.takeWhile_append hname, Text.dropWhile_append hname,
        Text.head?_append hclose]
    · rw [List.cons_append]
      split
      · next heq => exact absurd (List.cons.inj heq).1 hu
      · split
        · next heq => exact absurd (List.cons.inj heq).1 hu
        · rfl

namespace Lexeme

variable {v : CodeUnit}

theorem commandName_append_stop (hv : v.Stops) (t e : Text) :
    commandName (t ++ v :: e) = commandName t := by
  have hletter : v.isLetter = false := by rcases hv with rfl | rfl <;> decide
  have hstar : 0x2A ≠ v := by rcases hv with rfl | rfl <;> decide
  simp only [commandName, Text.takeWhile_append hletter, Text.dropWhile_append hletter,
    Text.head?_append hstar]

theorem ofMarker?_append (hv : v.Stops) (name after e : Text) :
    ofMarker? name (after ++ v :: e) = ofMarker? name after := by
  simp only [ofMarker?, environmentName?_append hv]

theorem modeAfter_append (name after e : Text) :
    modeAfter name (after ++ 0x0A :: e) = modeAfter name after := by
  cases after with
  | nil =>
    -- A line feed delimits nothing.
    have hbreak : (!(CodeUnit.isLetter 0x0A || CodeUnit.isLineSpace 0x0A
        || CodeUnit.isLineBreak 0x0A)) = false := by decide
    simp only [modeAfter, List.nil_append, hbreak]
    simp
  | cons d rest => rfl

theorem ofCommand_append (t e : Text) : ofCommand (t ++ 0x0A :: e) = ofCommand t := by
  have hdrop : (t ++ 0x0A :: e).drop (commandName t).length
      = t.drop (commandName t).length ++ 0x0A :: e :=
    List.drop_append_of_le_length ( commandName_prefix t).length_le
  have hstop := CodeUnit.stops_lineFeed
  simp only [ofCommand, commandName_append_stop hstop, hdrop, ofMarker?_append hstop,
    modeAfter_append]

theorem ofEscape_append (t e : Text) : ofEscape (t ++ 0x0A :: e) = ofEscape t := by
  cases t with
  | nil => rfl
  | cons c rest =>
    have hcommand := ofCommand_append (c :: rest) e
    have hspelled : ∀ (kind : TokenKind) (n : Nat) (flags : TokenFlags), n ≤ 2 →
        spelled kind (0x5C :: c :: (rest ++ 0x0A :: e)) n flags
          = spelled kind (0x5C :: c :: rest) n flags := by
      intro kind n flags hn
      have hle : n ≤ (0x5C :: c :: rest).length := by
        simp only [List.length_cons]
        omega
      unfold spelled
      rw [← List.cons_append, ← List.cons_append, List.take_append_of_le_length hle]
    rw [List.cons_append] at hcommand ⊢
    simp only [ofEscape, hcommand, hspelled _ 2 _ (Nat.le_refl 2)]
    rw [hspelled .text _ _ (by split <;> omega)]

/-- Markup is read the same, but for a carriage return at the end. -/
theorem ofMarkup_append {u : CodeUnit} {rest : Text} (hcr : u :: rest ≠ [0x0D]) (e : Text) :
    ofMarkup u (rest ++ 0x0A :: e) = ofMarkup u rest := by
  have hplain : CodeUnit.isPlain 0x0A = false := by decide
  have hline : (!CodeUnit.isLineBreak 0x0A) = false := by decide
  have hdollar : (0x24 : CodeUnit) ≠ 0x0A := by decide
  have hlength := Text.breakLength_append (List.cons_ne_nil u rest) hcr e
  have hle := Text.breakLength_le (u :: rest)
  unfold ofMarkup
  cases hc : Category.ofUnit u with
  | escape => exact ofEscape_append rest e
  | mathShift =>
    simp only [Text.head?_append hdollar]
    split
    · next hhead =>
      obtain ⟨more, rfl⟩ := List.head?_eq_some_iff.mp hhead
      rfl
    · rfl
  | comment => simp only [Text.takeWhile_append (p := fun v => !v.isLineBreak) hline]
  | lineBreak =>
    rw [List.cons_append] at hlength
    simp only [hlength, spelled]
    rw [← List.cons_append, List.take_append_of_le_length hle]
  | other => simp only [Text.takeWhile_append hplain]
  | groupOpen | groupClose | bracketOpen | bracketClose | alignmentTab | tie => rfl

end Lexeme

/-! ## Raw text -/

/-- No marker of an environment goes on past a unit that stops it. -/
theorem startsWithEndMarker_append {name : Text} {v : CodeUnit} (hv : v.Stops) (hname : v ∉ name)
    (t e : Text) : startsWithEndMarker name (t ++ v :: e) = startsWithEndMarker name t := by
  have htab : v.isTabSpace = false := by rcases hv with rfl | rfl <;> decide
  have hmatch : ∀ (l s : Text), v ∉ l → l.isPrefixOf (s ++ v :: e) = l.isPrefixOf s := by
    intro l
    induction l with
    | nil => intro s _; simp
    | cons u l ih =>
      intro s hl
      have hu : u ≠ v := fun h => hl (h ▸ List.mem_cons_self)
      cases s with
      | nil => simp [List.isPrefixOf, hu]
      | cons w s =>
        have hrest := ih s fun h => hl (List.mem_cons_of_mem u h)
        simp only [List.cons_append, List.isPrefixOf, hrest]
  have hmarker : v ∉ (0x7B :: name) ++ [0x7D] := by
    intro h
    rcases List.mem_append.mp h with h | h
    · rcases List.mem_cons.mp h with h | h
      · exact absurd h (by rcases hv with rfl | rfl <;> decide)
      · exact hname h
    · exact absurd (List.mem_singleton.mp h) (by rcases hv with rfl | rfl <;> decide)
  have hcommand : v ∉ ([0x5C, 0x65, 0x6E, 0x64] : Text) := by
    rcases hv with rfl | rfl <;> decide
  have hend : ∀ rest : Text, startsWithEndMarker name ((0x5C :: 0x65 :: 0x6E :: 0x64 :: rest))
      = ((0x7B :: name) ++ [0x7D]).isPrefixOf (rest.dropWhile CodeUnit.isTabSpace) := fun _ => rfl
  by_cases ht : ∃ rest, t = 0x5C :: 0x65 :: 0x6E :: 0x64 :: rest
  · obtain ⟨rest, rfl⟩ := ht
    simp only [List.cons_append, hend, Text.dropWhile_append htab]
    exact hmatch _ _ hmarker
  · -- A marker begins with the four units of its command, none of which stops it.
    have hnot : ∀ s : Text, (¬ ∃ rest, s = 0x5C :: 0x65 :: 0x6E :: 0x64 :: rest) →
        startsWithEndMarker name s = false := by
      intro s hs
      unfold startsWithEndMarker
      split
      · next rest => exact absurd ⟨rest, rfl⟩ hs
      · rfl
    rw [hnot t ht]
    apply hnot
    rintro ⟨rest, hrest⟩
    have hfour : ([0x5C, 0x65, 0x6E, 0x64] : Text).isPrefixOf (t ++ v :: e) = true := by
      rw [hrest]
      rfl
    rw [hmatch _ _ hcommand, List.isPrefixOf_iff_prefix] at hfour
    obtain ⟨more, rfl⟩ := hfour
    exact ht ⟨more, rfl⟩

/-- The first end marker of a text is the first one of what goes on behind it. -/
theorem endMarkerOffset?_append {name : Text} {v : CodeUnit} (hv : v.Stops) (hname : v ∉ name)
    {t : Text} {n : Nat} (h : endMarkerOffset? name t = some n) (e : Text) :
    endMarkerOffset? name (t ++ v :: e) = some n := by
  induction t generalizing n with
  | nil => simp [endMarkerOffset?] at h
  | cons u rest ih =>
    have hmarker := startsWithEndMarker_append hv hname (u :: rest) e
    rw [List.cons_append] at hmarker ⊢
    rw [endMarkerOffset?] at h ⊢
    rw [hmarker]
    split at h
    · next hs => rw [if_pos hs, h]
    · next hs =>
      obtain ⟨m, hm, rfl⟩ := Option.map_eq_some_iff.mp h
      rw [if_neg hs, ih hm]
      rfl

namespace Lexeme

/-- No name of a raw environment goes over lines. -/
theorem lineFeed_not_mem_rawEnvironments :
    ∀ name ∈ rawEnvironments, (0x0A : CodeUnit) ∉ name := by decide

/-- A text in a mode is complete in front of a line feed: it is not the body of a raw environment
without an end, nor a carriage return. -/
def Complete (mode : Mode) (t : Text) : Prop :=
  match mode with
  | .normal => t ≠ [0x0D]
  | .rawText name => name ∈ rawEnvironments ∧ (endMarkerOffset? name t).isSome = true
  | .verbatim d => d.isLineBreak = false

theorem Complete.of_agrees {mode : Mode} {t : Text} (h : mode.Agrees t)
    (hraw : ∀ name, mode = .rawText name →
      name ∈ rawEnvironments ∧ (endMarkerOffset? name t).isSome = true)
    (hcr : ¬ (mode = .normal ∧ t = [0x0D])) : Complete mode t := by
  cases mode with
  | normal => exact fun ht => hcr ⟨rfl, ht⟩
  | rawText name => exact hraw name rfl
  | verbatim d => exact h.2

theorem ofVerbatim_append {d : CodeUnit} (hd : d.isLineBreak = false) (rest e : Text) :
    ofVerbatim d (rest ++ 0x0A :: e) = ofVerbatim d rest := by
  have hstop : ((0x0A : CodeUnit) != d && !CodeUnit.isLineBreak 0x0A) = false := by
    have hbreak : CodeUnit.isLineBreak 0x0A = true := by decide
    simp [hbreak]
  have hne : d ≠ 0x0A := by
    rintro rfl
    exact absurd hd (by decide)
  simp only [ofVerbatim, Text.takeWhile_append (p := fun c => c != d && !c.isLineBreak) hstop]
  rw [List.drop_append_of_le_length (List.takeWhile_prefix _).length_le]
  simp only [Text.head?_append hne]

/-- A lexeme is read the same in front of a line feed. -/
theorem read_append {mode : Mode} {u : CodeUnit} {rest : Text}
    (h : Complete mode (u :: rest)) (e : Text) :
    read mode u (rest ++ 0x0A :: e) = read mode u rest := by
  cases mode with
  | normal => exact ofMarkup_append h e
  | verbatim d => exact ofVerbatim_append h rest e
  | rawText name =>
    obtain ⟨hname, hsome⟩ := h
    obtain ⟨n, hn⟩ := Option.isSome_iff_exists.mp hsome
    have hoffset := endMarkerOffset?_append CodeUnit.stops_lineFeed
      (lineFeed_not_mem_rawEnvironments name hname) hn e
    rw [List.cons_append] at hoffset
    simp only [read, ofRawBody, hn, hoffset]
    cases n with
    | zero =>
      apply ofMarkup_append
      intro heq
      -- An end marker is no carriage return.
      have hhead := startsWithEndMarker_head (startsWithEndMarker_of_offset hn)
      rw [List.drop_zero, heq] at hhead
      exact absurd hhead (by decide)
    | succ n =>
      have hle : n + 1 ≤ (u :: rest).length := by
        have hfits := fits_ofRawBody name u rest
        rw [ofRawBody, hn] at hfits
        exact hfits.length_le
      simp only [spelled]
      rw [← List.cons_append, List.take_append_of_le_length hle]

theorem mode_modeAfter (name after environment : Text) :
    modeAfter name after ≠ .rawText environment := by
  unfold modeAfter
  split
  · split <;> simp
  · simp

/-- A command is an environment marker, or it is what it is called. -/
theorem ofCommand_cases (t : Text) :
    ((ofCommand t).kind = .envBegin ∧ (ofCommand t).mode =
        if (ofCommand t).text ∈ rawEnvironments then .rawText (ofCommand t).text else .normal) ∨
      ((ofCommand t).kind = .envEnd ∧ (ofCommand t).mode = .normal) ∨
        ((ofCommand t).kind = .command ∧ ∀ name, (ofCommand t).mode ≠ .rawText name) := by
  have hmarker : ∀ (command after : Text) (x : Lexeme), ofMarker? command after = some x →
      (x.kind = .envBegin ∧ x.mode = if x.text ∈ rawEnvironments then .rawText x.text else .normal) ∨
        (x.kind = .envEnd ∧ x.mode = .normal) := by
    intro command after x hx
    unfold ofMarker? at hx
    split at hx
    · obtain ⟨⟨environment, n⟩, _, rfl⟩ := Option.map_eq_some_iff.mp hx
      exact .inl ⟨rfl, rfl⟩
    · split at hx
      · obtain ⟨_, _, rfl⟩ := Option.map_eq_some_iff.mp hx
        exact .inr ⟨rfl, rfl⟩
      · cases hx
  generalize hx : ofCommand t = x
  simp only [ofCommand] at hx
  split at hx
  · next marker hm =>
    subst hx
    exact (hmarker _ _ _ hm).imp_right .inl
  · subst hx
    exact .inr (.inr ⟨rfl, fun name => mode_modeAfter _ _ name⟩)

/-- Markup is a command or an environment marker, or what is behind it is read as ever. -/
theorem ofMarkup_cases (u : CodeUnit) (rest : Text) :
    (∃ t, ofMarkup u rest = ofCommand t) ∨
      ((ofMarkup u rest).mode = .normal ∧ (ofMarkup u rest).kind ≠ .envBegin) := by
  have hescape : ∀ t, (∃ t', ofEscape t = ofCommand t') ∨
      ((ofEscape t).mode = .normal ∧ (ofEscape t).kind ≠ .envBegin) := by
    intro t
    unfold ofEscape
    split
    · simp [spelled]
    · split
      · exact .inl ⟨_, rfl⟩
      · right
        repeat' split
        all_goals simp [spelled]
  unfold ofMarkup
  cases Category.ofUnit u
  case escape => exact hescape rest
  case mathShift => right; simp only; split <;> simp [spelled]
  all_goals simp [spelled]

/-- The body of a raw environment is read only behind the begin marker of one. -/
theorem begins_of_mode {mode : Mode} {u : CodeUnit} {rest name : Text}
    (h : (read mode u rest).mode = .rawText name) :
    (read mode u rest).kind = .envBegin ∧ (read mode u rest).text = name ∧
      name ∈ rawEnvironments := by
  obtain heq | ⟨-, hmode⟩ := read_cases mode u rest
  · rw [heq] at h ⊢
    obtain ⟨t, heq⟩ | ⟨hmode, -⟩ := ofMarkup_cases u rest
    · rw [heq] at h ⊢
      obtain ⟨hk, hmode⟩ | ⟨-, hmode⟩ | ⟨-, hmode⟩ := ofCommand_cases t
      · rw [hmode] at h
        split at h
        · next hraw =>
          cases h
          exact ⟨hk, rfl, hraw⟩
        · cases h
      · rw [hmode] at h
        cases h
      · exact absurd h (hmode name)
    · rw [hmode] at h
      cases h
  · rw [hmode] at h
    cases h

end Lexeme

end LatexMarkdown
