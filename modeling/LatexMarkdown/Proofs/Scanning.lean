import LatexMarkdown.Token.Scanner
import Mathlib.Data.List.TakeWhile
/-!
  The token list of a text, read off its lexemes.

  `Scanner.tokens` goes through a state with lines and columns.  `Text.tokensFrom` lists the same
  tokens by recursion on the text alone: the offset goes up by the length of every lexeme, and
  `LineMark` is all that has to be known of the line so far.  Main statement:
  `Scanner.tokens_eq_tokensFrom`, and `Text.tokens_eq_tokensFrom` for a whole text.

  What it rests on is that no lexeme ends between a carriage return and its line feed
  (`Lexeme.Fits`), so moving to the end of a lexeme never overshoots.
-/
namespace LatexMarkdown

/-- What is said of the units of a text is decided on the text, not on all the units there are. -/
instance CodeUnit.decidableForallMem (p : CodeUnit → Prop) [DecidablePred p] (t : Text) :
    Decidable (∀ u ∈ t, p u) :=
  List.decidableBAll p t

/-! ## Line breaks that are cut in two -/

/-- Between the units before and after place `n` a line break of two units is cut. -/
def Text.Cuts (t : Text) (n : Nat) : Prop :=
  0 < n ∧ t[n - 1]? = some 0x0D ∧ t[n]? = some 0x0A

namespace Text

theorem not_cuts_zero (t : Text) : ¬ t.Cuts 0 := fun h => Nat.lt_irrefl 0 h.1

/-- A place behind units none of which breaks a line cuts nothing. -/
theorem not_cuts_of_forall {t : Text} {n : Nat}
    (h : ∀ u ∈ t.take n, CodeUnit.isLineBreak u = false) : ¬ t.Cuts n := by
  rintro ⟨hn, hr, _⟩
  have hmem : (0x0D : CodeUnit) ∈ t.take n := by
    rw [List.mem_take_iff_getElem]
    obtain ⟨hlt, heq⟩ := List.getElem?_eq_some_iff.mp hr
    exact ⟨n - 1, by omega, heq⟩
  exact absurd (h _ hmem) (by decide)

/-- A cut behind the first unit is a cut of the text as well. -/
theorem cuts_cons {u : CodeUnit} {t : Text} {n : Nat} (h : t.Cuts n) :
    Text.Cuts (u :: t) (n + 1) := by
  obtain ⟨hn, hr, hl⟩ := h
  obtain ⟨m, rfl⟩ : ∃ m, n = m + 1 := ⟨n - 1, by omega⟩
  exact ⟨by omega, by simpa using hr, by simpa using hl⟩

end Text

namespace Place

/-- A move to a place that cuts no line break arrives there. -/
theorem moveTo_of_not_cuts {p : Place} {t : Text} (target : Nat) (hle : p.offset ≤ target)
    (hlen : target ≤ p.offset + t.length) (hcut : ¬ t.Cuts (target - p.offset)) :
    (p.moveTo target t).1.offset = target ∧
      (p.moveTo target t).2 = t.drop (target - p.offset) := by
  fun_induction moveTo target p t with
  | case1 p rest h | case3 p u rest _ h =>
    have heq : target = p.offset := by omega
    simp [heq]
  | case2 p rest h ih =>
    -- The target is not the place between the two units.
    have hne : target ≠ p.offset + 1 := by
      rintro rfl
      exact hcut ⟨by omega, by simp, by simp⟩
    simp only [List.length_cons] at hlen
    have hoff : (p.nextLine 2).offset = p.offset + 2 := rfl
    have hsub : target - p.offset = (target - (p.nextLine 2).offset) + 1 + 1 := by omega
    have hmoved := ih (by omega) (by omega) fun hc =>
      hcut (hsub ▸ Text.cuts_cons (Text.cuts_cons hc))
    rw [hsub]
    simpa using hmoved
  | case4 p u rest _ h _ ih =>
    simp only [List.length_cons] at hlen
    have hoff : (p.nextLine 1).offset = p.offset + 1 := rfl
    have hsub : target - p.offset = (target - (p.nextLine 1).offset) + 1 := by omega
    have hmoved := ih (by omega) (by omega) fun hc => hcut (hsub ▸ Text.cuts_cons hc)
    rw [hsub]
    simpa using hmoved
  | case5 p u rest _ h _ ih =>
    simp only [List.length_cons] at hlen
    have hoff : p.next.offset = p.offset + 1 := rfl
    have hsub : target - p.offset = (target - p.next.offset) + 1 := by omega
    have hmoved := ih (by omega) (by omega) fun hc => hcut (hsub ▸ Text.cuts_cons hc)
    rw [hsub]
    simpa using hmoved
  | case6 p =>
    simp only [List.length_nil] at hlen
    refine ⟨?_, by simp⟩
    show p.offset = target
    omega

end Place

/-! ## Lexemes end between line breaks -/

/-- A mode that reading may be in before a text: the delimiter of a `\verb` argument stands at the
front of it, and breaks no line. -/
def Mode.Agrees (mode : Mode) (t : Text) : Prop :=
  match mode with
  | .verbatim d => t.head? = some d ∧ d.isLineBreak = false
  | .normal | .rawText _ => True

/-- A lexeme read off the front of a text: it does not go past the end, it cuts no line break, the
mode after it agrees with what follows, and only line breaks and raw text go over lines. -/
structure Lexeme.Fits (x : Lexeme) (t : Text) : Prop where
  length_le : x.length ≤ t.length
  not_cuts : ¬ t.Cuts x.length
  agrees : x.mode.Agrees (t.drop x.length)
  unbroken : x.kind ≠ .newLine → x.kind ≠ .rawText →
    ∀ u ∈ t.take x.length, CodeUnit.isLineBreak u = false

/-- What is left behind the units of a class at the front of a text. -/
theorem Text.drop_length_takeWhile (p : CodeUnit → Bool) (t : Text) :
    t.drop (t.takeWhile p).length = t.dropWhile p := by
  have hlen : (t.takeWhile p ++ t.dropWhile p).drop (t.takeWhile p).length = t.dropWhile p :=
    List.drop_append_length
  rwa [List.takeWhile_append_dropWhile] at hlen

/-- A name in braces is space, the opening brace, the units of the name, the closing brace. -/
theorem environmentName?_eq_some_iff {t name : Text} {n : Nat} :
    environmentName? t = some (name, n) ↔
      ∃ space rest, t = space ++ 0x7B :: (name ++ 0x7D :: rest) ∧ n = space.length + name.length + 2 ∧
        name ≠ [] ∧ (∀ u ∈ space, CodeUnit.isLineSpace u = true) ∧
        ∀ u ∈ name, CodeUnit.isEnvironmentName u = true := by
  constructor
  · intro h
    simp only [environmentName?] at h
    split at h
    · next inner hdrop =>
      split at h
      · next hname =>
        simp only [Option.some.injEq, Prod.mk.injEq] at h
        obtain ⟨rfl, rfl⟩ := h
        obtain ⟨hne, hclose⟩ := hname
        obtain ⟨rest, hrest⟩ := List.head?_eq_some_iff.mp hclose
        refine ⟨t.takeWhile CodeUnit.isLineSpace, rest, ?_, by omega, hne, ?_, ?_⟩
        · rw [← hrest, List.takeWhile_append_dropWhile, ← hdrop, List.takeWhile_append_dropWhile]
        · exact fun u hu => List.mem_takeWhile_imp hu
        · exact fun u hu => List.mem_takeWhile_imp hu
      · exact absurd h (by simp)
    · exact absurd h (by simp)
  · rintro ⟨space, rest, rfl, rfl, hne, hspace, hname⟩
    have hopen : CodeUnit.isLineSpace 0x7B = false := by decide
    have hclose : CodeUnit.isEnvironmentName 0x7D = false := by decide
    have htake : (space ++ 0x7B :: (name ++ 0x7D :: rest)).takeWhile CodeUnit.isLineSpace = space := by
      rw [List.takeWhile_append_of_pos hspace]
      simp [hopen]
    have hdrop : (space ++ 0x7B :: (name ++ 0x7D :: rest)).dropWhile CodeUnit.isLineSpace
        = 0x7B :: (name ++ 0x7D :: rest) := by
      rw [List.dropWhile_append_of_pos hspace]
      simp [hopen]
    have htakeName : (name ++ 0x7D :: rest).takeWhile CodeUnit.isEnvironmentName = name := by
      rw [List.takeWhile_append_of_pos hname]
      simp [hclose]
    have hdropName : (name ++ 0x7D :: rest).dropWhile CodeUnit.isEnvironmentName
        = 0x7D :: rest := by
      rw [List.dropWhile_append_of_pos hname]
      simp [hclose]
    simp only [environmentName?, hdrop, htake, htakeName, hdropName, List.head?_cons]
    simp [hne]
    omega

namespace Lexeme

/-- A lexeme that spans units none of which breaks a line fits. -/
theorem fits_of_append {x : Lexeme} {t : Text} (span rest : Text) (ht : t = span ++ rest)
    (hlen : x.length = span.length) (h : ∀ u ∈ span, CodeUnit.isLineBreak u = false)
    (ha : x.mode.Agrees rest) : x.Fits t := by
  subst ht
  have hspan : ∀ u ∈ (span ++ rest).take x.length, CodeUnit.isLineBreak u = false := by
    rwa [hlen, List.take_append_length]
  refine ⟨by simp [hlen], Text.not_cuts_of_forall hspan, ?_, fun _ _ => hspan⟩
  rwa [hlen, List.drop_append_length]

/-- Classes that leave out both line breaks have none among their units. -/
theorem isLineBreak_eq_false {p : CodeUnit → Bool} {u : CodeUnit} (h : p u = true)
    (hr : p 0x0D = false := by decide) (hl : p 0x0A = false := by decide) :
    u.isLineBreak = false := by
  rw [← Bool.not_eq_true]
  intro hb
  simp only [CodeUnit.isLineBreak, Bool.or_eq_true, beq_iff_eq] at hb
  rcases hb with rfl | rfl
  · rw [hl] at h
    exact absurd h (by decide)
  · rw [hr] at h
    exact absurd h (by decide)

/-- A text goes on with the name at its front. -/
theorem commandName_prefix (t : Text) : commandName t <+: t := by
  simp only [commandName]
  split
  · next h =>
    obtain ⟨rest, hrest⟩ := List.head?_eq_some_iff.mp h
    refine ⟨rest, ?_⟩
    rw [List.append_assoc, List.singleton_append, ← hrest, List.takeWhile_append_dropWhile]
  · rw [List.append_nil]
    exact List.takeWhile_prefix _

theorem isLineBreak_of_mem_commandName {t : Text} {u : CodeUnit} (h : u ∈ commandName t) :
    u.isLineBreak = false := by
  simp only [commandName, List.mem_append] at h
  rcases h with h | h
  · exact isLineBreak_eq_false (List.mem_takeWhile_imp h)
  · split at h
    · rw [List.mem_singleton] at h
      subst h
      decide
    · exact absurd h (by simp)

theorem fits_ofMarker? {name after : Text} {x : Lexeme} (h : ofMarker? name after = some x)
    (hname : ∀ u ∈ name, CodeUnit.isLineBreak u = false) : x.Fits (0x5C :: (name ++ after)) := by
  have key : ∀ (environment : Text) (n : Nat) (mode : Mode) (kind : TokenKind),
      environmentName? after = some (environment, n) → (∀ t, mode.Agrees t) →
      Fits { kind, length := 1 + name.length + n, text := environment, mode }
        (0x5C :: (name ++ after)) := by
    intro environment n mode kind he hmode
    obtain ⟨space, rest, rfl, rfl, -, hspace, henv⟩ := environmentName?_eq_some_iff.mp he
    refine fits_of_append (0x5C :: (name ++ (space ++ 0x7B :: (environment ++ [0x7D]))))
      rest (by simp) ?_ ?_ (hmode _)
    · simp only [List.length_cons, List.length_append, List.length_nil]
      omega
    · intro u hu
      simp only [List.mem_cons, List.mem_append, List.not_mem_nil, or_false] at hu
      rcases hu with rfl | hu | hu | rfl | hu | rfl
      · decide
      · exact hname u hu
      · exact isLineBreak_eq_false (hspace u hu)
      · decide
      · exact isLineBreak_eq_false (henv u hu)
      · decide
  unfold ofMarker? at h
  split at h
  · obtain ⟨⟨environment, n⟩, he, rfl⟩ := Option.map_eq_some_iff.mp h
    exact key _ _ _ _ he fun _ => by split <;> trivial
  · split at h
    · obtain ⟨⟨environment, n⟩, he, rfl⟩ := Option.map_eq_some_iff.mp h
      exact key _ _ _ _ he fun _ => trivial
    · exact absurd h (by simp)

theorem agrees_modeAfter (name after : Text) : (modeAfter name after).Agrees after := by
  unfold modeAfter
  split
  · split
    · next h =>
      have hd := h.2
      simp only [Bool.not_eq_true', Bool.or_eq_false_iff] at hd
      exact ⟨rfl, hd.2⟩
    · trivial
  · trivial

theorem fits_ofCommand (t : Text) : (ofCommand t).Fits (0x5C :: t) := by
  obtain ⟨after, hafter⟩ := commandName_prefix t
  have hdrop : (commandName t ++ after).drop (commandName t).length = after :=
    List.drop_append_length
  rw [hafter] at hdrop
  have hname : ∀ u ∈ commandName t, CodeUnit.isLineBreak u = false :=
    fun u hu => isLineBreak_of_mem_commandName hu
  simp only [ofCommand, hdrop]
  cases hm : ofMarker? (commandName t) after with
  | some marker =>
    have hfits := fits_ofMarker? hm hname
    rwa [hafter] at hfits
  | none =>
    refine fits_of_append (0x5C :: commandName t) after (by simp [hafter]) ?_ ?_
      (agrees_modeAfter _ _)
    · simp only [List.length_cons]
      omega
    · intro u hu
      rcases List.mem_cons.mp hu with rfl | hu
      · decide
      · exact hname u hu

theorem fits_ofEscape (t : Text) : (ofEscape t).Fits (0x5C :: t) := by
  cases t with
  | nil => exact fits_of_append [0x5C] [] rfl rfl (by decide) trivial
  | cons c rest =>
    have htwo : ∀ x : Lexeme, x.length = 2 → x.mode = .normal → c.isLineBreak = false →
        x.Fits (0x5C :: c :: rest) := by
      intro x hlen hmode hc
      refine fits_of_append [0x5C, c] rest rfl hlen ?_ (hmode ▸ trivial)
      intro u hu
      simp only [List.mem_cons, List.not_mem_nil, or_false] at hu
      rcases hu with rfl | rfl
      · decide
      · exact hc
    simp only [ofEscape]
    split
    · exact fits_ofCommand _
    split
    · next h => exact htwo _ rfl rfl (h ▸ by decide)
    split
    · next h => exact htwo _ rfl rfl (by rcases h with rfl | rfl <;> decide)
    split
    · next h => exact htwo _ rfl rfl (by rcases h with rfl | rfl <;> decide)
    split
    · next h => exact htwo _ rfl rfl (isLineBreak_eq_false h)
    split
    · next h => exact htwo _ rfl rfl (isLineBreak_eq_false h)
    · by_cases hc : c.isLineBreak = true
      · rw [if_pos hc]
        exact fits_of_append [0x5C] (c :: rest) rfl rfl (by decide) trivial
      · rw [if_neg hc]
        exact htwo _ rfl rfl (by simpa using hc)

theorem fits_lineBreak {u : CodeUnit} (h : u.isLineBreak = true) (rest : Text) :
    (spelled .newLine (u :: rest) (Text.breakLength (u :: rest))).Fits (u :: rest) := by
  unfold Text.breakLength
  split
  · next rest' heq =>
    -- Both units of the pair are in.
    rw [heq]
    exact ⟨by simp, fun hc => absurd hc.2.1 (by simp), trivial, fun hk => absurd rfl hk⟩
  · next v tail hpair heq =>
    obtain ⟨rfl, rfl⟩ := List.cons.inj heq
    rw [if_pos h]
    refine ⟨by simp, ?_, trivial, fun hk => absurd rfl hk⟩
    rintro ⟨-, hr, hl⟩
    obtain ⟨tail', rfl⟩ : ∃ tail', rest = 0x0A :: tail' :=
      List.head?_eq_some_iff.mp (by simpa [List.head?_eq_getElem?] using hl)
    exact hpair tail' (by simpa using hr) rfl
  · next heq => exact absurd heq (by simp)

theorem isLineBreak_of_category_ne {u : CodeUnit} (h : Category.ofUnit u ≠ .lineBreak) :
    u.isLineBreak = false := by
  rw [← Bool.not_eq_true]
  intro hb
  simp only [CodeUnit.isLineBreak, Bool.or_eq_true, beq_iff_eq] at hb
  rcases hb with rfl | rfl <;> exact h rfl

theorem eq_of_category_escape {u : CodeUnit} (h : Category.ofUnit u = .escape) : u = 0x5C := by
  unfold Category.ofUnit at h
  split at h <;> simp_all

theorem fits_ofMarkup (u : CodeUnit) (rest : Text) : (ofMarkup u rest).Fits (u :: rest) := by
  have hrun : ∀ (x : Lexeme) (p : CodeUnit → Bool), Category.ofUnit u ≠ .lineBreak →
      x.length = 1 + (rest.takeWhile p).length → x.mode = .normal →
      (∀ v, p v = true → CodeUnit.isLineBreak v = false) → x.Fits (u :: rest) := by
    intro x p hu hlen hmode hp
    refine fits_of_append (u :: rest.takeWhile p) (rest.dropWhile p) ?_ ?_ ?_
      (hmode ▸ trivial)
    · rw [List.cons_append, List.takeWhile_append_dropWhile]
    · rw [List.length_cons, hlen, Nat.add_comm]
    · intro v hv
      rcases List.mem_cons.mp hv with rfl | hv
      · exact isLineBreak_of_category_ne hu
      · exact hp v (List.mem_takeWhile_imp hv)
  have hsingle : ∀ x : Lexeme, Category.ofUnit u ≠ .lineBreak → x.length = 1 →
      x.mode = .normal → x.Fits (u :: rest) := fun x hu hlen hmode =>
    hrun x (fun _ => false) hu (by simp [hlen]) hmode (by simp)
  unfold ofMarkup
  cases h : Category.ofUnit u with
  | escape => exact eq_of_category_escape h ▸ fits_ofEscape rest
  | lineBreak => exact fits_lineBreak (isLineBreak_of_category h) rest
  | mathShift =>
    simp only
    split
    · next hd =>
      obtain ⟨rest', rfl⟩ := List.head?_eq_some_iff.mp hd
      refine fits_of_append [u, 0x24] rest' rfl rfl ?_ trivial
      intro v hv
      simp only [List.mem_cons, List.not_mem_nil, or_false] at hv
      rcases hv with rfl | rfl
      · exact isLineBreak_of_category_ne (by simp [h])
      · decide
    · exact hsingle _ (by simp [h]) rfl rfl
  | comment => exact hrun _ _ (by simp [h]) rfl rfl fun v hv => by simpa using hv
  | other =>
    refine hrun _ CodeUnit.isPlain (by simp [h]) ?_ rfl fun v hv => isLineBreak_eq_false hv
    simp [Nat.add_comm]
  | groupOpen | groupClose | bracketOpen | bracketClose | alignmentTab | tie =>
    exact hsingle _ (by simp [h]) rfl rfl

/-! ## Raw text -/

/-- An end marker begins with a backslash. -/
theorem startsWithEndMarker_head {name t : Text} (h : startsWithEndMarker name t = true) :
    t.head? = some 0x5C := by
  unfold startsWithEndMarker at h
  split at h
  · rfl
  · exact absurd h (by simp)

/-- Where an end marker is found, it stands. -/
theorem startsWithEndMarker_of_offset {name t : Text} {n : Nat}
    (h : endMarkerOffset? name t = some n) : startsWithEndMarker name (t.drop n) = true := by
  induction t generalizing n with
  | nil => exact absurd h (by simp [endMarkerOffset?])
  | cons u rest ih =>
    simp only [endMarkerOffset?] at h
    split at h
    · next hs =>
      cases Option.some.inj h
      exact hs
    · obtain ⟨m, hm, rfl⟩ := Option.map_eq_some_iff.mp h
      exact ih hm

theorem fits_ofRawBody (environment : Text) (u : CodeUnit) (rest : Text) :
    (ofRawBody environment u rest).Fits (u :: rest) := by
  unfold ofRawBody
  split
  · exact fits_ofMarkup u rest
  · next n _ hn =>
    have hhead := startsWithEndMarker_head (startsWithEndMarker_of_offset hn)
    rw [List.head?_drop] at hhead
    obtain ⟨hlt, -⟩ := List.getElem?_eq_some_iff.mp hhead
    refine ⟨Nat.le_of_lt hlt, ?_, trivial, fun _ hk => absurd rfl hk⟩
    rintro ⟨-, -, hl⟩
    rw [length_spelled, hhead] at hl
    exact absurd hl (by decide)
  · refine ⟨by simp, ?_, trivial, fun _ hk => absurd rfl hk⟩
    rintro ⟨-, -, hl⟩
    exact absurd hl (by simp)

theorem fits_ofVerbatim {d : CodeUnit} (hd : d.isLineBreak = false) (rest : Text) :
    (ofVerbatim d rest).Fits (d :: rest) := by
  simp only [ofVerbatim]
  generalize hp : (fun c : CodeUnit => c != d && !c.isLineBreak) = p
  have hbody : ∀ v ∈ rest.takeWhile p, CodeUnit.isLineBreak v = false := by
    intro v hv
    have hpv := List.mem_takeWhile_imp hv
    rw [← hp] at hpv
    simpa using (Bool.and_eq_true_iff.mp hpv).2
  have hsplit : rest.takeWhile p ++ rest.dropWhile p = rest := List.takeWhile_append_dropWhile
  rw [Text.drop_length_takeWhile]
  split
  · next h =>
    obtain ⟨rest', hrest⟩ := List.head?_eq_some_iff.mp h
    refine fits_of_append (d :: (rest.takeWhile p ++ [d])) rest' ?_ ?_ ?_ trivial
    · rw [List.cons_append, List.append_assoc, List.singleton_append, ← hrest, hsplit]
    · simp only [List.length_cons, List.length_append, List.length_nil]
      omega
    · intro v hv
      simp only [List.mem_cons, List.mem_append, List.not_mem_nil, or_false] at hv
      rcases hv with rfl | hv | rfl
      · exact hd
      · exact hbody v hv
      · exact hd
  · refine fits_of_append (d :: rest.takeWhile p) (rest.dropWhile p) ?_ ?_ ?_
      trivial
    · rw [List.cons_append, hsplit]
    · rw [List.length_cons, Nat.add_comm]
    · intro v hv
      rcases List.mem_cons.mp hv with rfl | hv
      · exact hd
      · exact hbody v hv

/-- Every lexeme fits. -/
theorem fits_read {mode : Mode} {u : CodeUnit} {rest : Text} (h : mode.Agrees (u :: rest)) :
    (read mode u rest).Fits (u :: rest) := by
  cases mode with
  | normal => exact fits_ofMarkup u rest
  | rawText environment => exact fits_ofRawBody environment u rest
  | verbatim d =>
    obtain ⟨hu, hd⟩ := h
    cases Option.some.inj hu
    exact fits_ofVerbatim hd rest

/-! ## No lexeme is an end of file -/

/-- The kinds of what a backslash and a letter begin. -/
theorem kind_ofCommand_mem (t : Text) : (ofCommand t).kind ∈ [TokenKind.command, .envBegin, .envEnd] := by
  simp only [ofCommand]
  split
  · next marker hm =>
    unfold ofMarker? at hm
    split at hm
    · obtain ⟨_, _, rfl⟩ := Option.map_eq_some_iff.mp hm
      simp
    · split at hm
      · obtain ⟨_, _, rfl⟩ := Option.map_eq_some_iff.mp hm
        simp
      · exact absurd hm (by simp)
  · simp

/-- The kinds of what a backslash begins. -/
theorem kind_ofEscape_mem (t : Text) :
    (ofEscape t).kind ∈ [TokenKind.command, .envBegin, .envEnd, .text, .lineBreak, .mathInline,
      .mathDisplay] := by
  unfold ofEscape
  split
  · simp [spelled]
  · split
    · exact List.mem_append_left _ (kind_ofCommand_mem _)
    · repeat' split
      all_goals simp [spelled]

theorem kind_ofMarkup_ne_endOfFile (u : CodeUnit) (rest : Text) :
    (ofMarkup u rest).kind ≠ .endOfFile := by
  unfold ofMarkup
  cases Category.ofUnit u
  case escape =>
    intro h
    exact absurd (h ▸ kind_ofEscape_mem rest) (by decide)
  case mathShift => simp only; split <;> simp [spelled]
  all_goals simp [spelled]

/-- What is read raw is no markup, and what is behind it is read as ever. -/
theorem read_cases (mode : Mode) (u : CodeUnit) (rest : Text) :
    read mode u rest = ofMarkup u rest ∨
      ((read mode u rest).kind = .rawText ∧ (read mode u rest).mode = .normal) := by
  cases mode with
  | normal => exact .inl rfl
  | rawText environment =>
    simp only [read, ofRawBody]
    split
    · exact .inl rfl
    · exact .inr ⟨rfl, rfl⟩
    · exact .inr ⟨rfl, rfl⟩
  | verbatim d =>
    simp only [read, ofVerbatim]
    split
    · exact .inr ⟨rfl, rfl⟩
    · exact .inr ⟨rfl, rfl⟩

theorem kind_read_ne_endOfFile (mode : Mode) (u : CodeUnit) (rest : Text) :
    (read mode u rest).kind ≠ .endOfFile := by
  obtain heq | ⟨hraw, -⟩ := read_cases mode u rest
  · rw [heq]
    exact kind_ofMarkup_ne_endOfFile u rest
  · rw [hraw]
    decide

end Lexeme

/-! ## Kinds of one category -/

/-- The category that tokens of a kind begin with, for kinds that only markup of one category has. -/
def TokenKind.category? : TokenKind → Option Category
  | .newLine => some .lineBreak
  | .groupOpen => some .groupOpen
  | .groupClose => some .groupClose
  | .bracketOpen => some .bracketOpen
  | .bracketClose => some .bracketClose
  | .alignmentTab => some .alignmentTab
  | .comment => some .comment
  | _ => none

namespace Lexeme

theorem category_of_ofMarkup {u : CodeUnit} {rest : Text} {category : Category}
    (h : (ofMarkup u rest).kind.category? = some category) : Category.ofUnit u = category := by
  unfold ofMarkup at h
  cases hc : Category.ofUnit u <;> rw [hc] at h
  case escape =>
    -- What a backslash begins is of none of these kinds.
    have hnone : ∀ k ∈ [TokenKind.command, .envBegin, .envEnd, .text, .lineBreak, .mathInline,
        .mathDisplay], k.category? = none := by decide
    rw [hnone _ (kind_ofEscape_mem rest)] at h
    cases h
  case mathShift =>
    simp only at h
    split at h <;> cases h
  all_goals simp_all [spelled, TokenKind.category?]

/-- In every mode a lexeme of such a kind is markup, and begins with a unit of its category. -/
theorem read_of_category {mode : Mode} {u : CodeUnit} {rest : Text} {category : Category}
    (h : (read mode u rest).kind.category? = some category) :
    read mode u rest = ofMarkup u rest ∧ Category.ofUnit u = category := by
  obtain heq | ⟨hraw, -⟩ := read_cases mode u rest
  · rw [heq] at h
    exact ⟨heq, category_of_ofMarkup h⟩
  · rw [hraw] at h
    cases h

end Lexeme

/-! ## Tokens without a scanner -/

/-- What is known of a line before a place on it. -/
structure LineMark where
  /-- Something other than space stands on it. -/
  hasContent : Bool := false
  /-- A line break comes right before the place. -/
  afterBreak : Bool := false
  deriving DecidableEq, Repr

/-- The line after a lexeme. -/
def LineMark.after (m : LineMark) (x : Lexeme) : LineMark where
  hasContent := !(x.kind == .newLine) && (m.hasContent || !(x.kind == .text && x.text.isBlank))
  afterBreak := x.kind == .newLine

/-- The line after a dropped comment with a line break of so many units behind it. -/
def LineMark.afterComment (m : LineMark) (breakLength : Nat) : LineMark where
  hasContent := breakLength == 0 && m.hasContent
  afterBreak := breakLength != 0 || m.afterBreak

/-- Behind a line break the line is a new one, whatever stood before. -/
theorem LineMark.after_lineBreak {x : Lexeme} (h : x.kind = .newLine) (m : LineMark) :
    m.after x = ⟨false, true⟩ := by
  simp [after, h]

/-- A lexeme at an offset as a token. -/
def Lexeme.toToken (x : Lexeme) (m : LineMark) (offset : Nat) : Token where
  kind := x.kind
  flags := { x.flags with
    atLineStart := !m.hasContent
    afterBreak := m.afterBreak
    blankLine := x.kind == .newLine && !m.hasContent }
  start := offset
  stop := offset + x.length
  text := x.text

/-- The end-of-file token at an offset. -/
def Token.atEnd (m : LineMark) (offset : Nat) : Token :=
  ({ kind := .endOfFile, length := 0, text := [] } : Lexeme).toToken m offset

/-- The tokens of a text that stands at an offset and is read in the given mode. -/
def Text.tokensFrom (keep : Bool) (mode : Mode) (m : LineMark) (offset : Nat) : Text → List Token
  | [] => [.atEnd m offset]
  | u :: rest =>
    let x := Lexeme.read mode u rest
    if x.kind = .comment ∧ keep = false then
      let n := x.length + Text.breakLength ((u :: rest).drop x.length)
      tokensFrom keep .normal (m.afterComment (Text.breakLength ((u :: rest).drop x.length)))
        (offset + n) ((u :: rest).drop n)
    else x.toToken m offset :: tokensFrom keep x.mode (m.after x) (offset + x.length)
      ((u :: rest).drop x.length)
  termination_by t => t.length
  decreasing_by
    all_goals
      have := Lexeme.length_read_pos mode u rest
      simp only [List.length_drop, List.length_cons]
      omega

namespace Text

/-- There is a token at the end at least. -/
theorem tokensFrom_ne_nil (keep : Bool) (mode : Mode) (m : LineMark) (offset : Nat) (t : Text) :
    tokensFrom keep mode m offset t ≠ [] := by
  fun_induction tokensFrom keep mode m offset t with
  | case1 => simp
  | case2 mode m offset u rest x hc n ih => exact ih
  | case3 => simp

/-- No token starts before where the text begins. -/
theorem le_start_tokensFrom {keep : Bool} {mode : Mode} {m : LineMark} {offset : Nat} {t : Text} :
    ∀ tok ∈ tokensFrom keep mode m offset t, offset ≤ tok.start := by
  fun_induction tokensFrom keep mode m offset t with
  | case1 mode m offset =>
    intro tok htok
    rw [List.mem_singleton.mp htok]
    exact Nat.le_refl _
  | case2 mode m offset u rest x hc n ih =>
    exact fun tok htok => Nat.le_trans (Nat.le_add_right _ _) (ih tok htok)
  | case3 mode m offset u rest x hc ih =>
    intro tok htok
    rcases List.mem_cons.mp htok with rfl | htok
    · exact Nat.le_refl _
    · exact Nat.le_trans (Nat.le_add_right _ _) (ih tok htok)

theorem breakLength_le (t : Text) : breakLength t ≤ t.length := by
  unfold breakLength
  split
  · simp
  · split <;> simp
  · simp

theorem breakLength_of_not_isLineBreak {u : CodeUnit} (h : u.isLineBreak = false) (rest : Text) :
    breakLength (u :: rest) = 0 := by
  unfold breakLength
  split
  · next heq =>
    rw [(List.cons.inj heq).1] at h
    exact absurd h (by decide)
  · next heq =>
    rw [(List.cons.inj heq).1] at h
    simp [h]
  · rfl

/-- The end of a line break cuts none. -/
theorem not_cuts_breakLength (t : Text) : ¬ t.Cuts (breakLength t) := by
  cases t with
  | nil => exact not_cuts_zero []
  | cons u rest =>
    cases hu : u.isLineBreak with
    | true => exact (Lexeme.fits_lineBreak hu rest).not_cuts
    | false =>
      rw [breakLength_of_not_isLineBreak hu]
      exact not_cuts_zero _

/-- Behind a place that cuts nothing, the end of a line break cuts nothing. -/
theorem not_cuts_add_breakLength {t : Text} {n : Nat} (h : ¬ t.Cuts n) :
    ¬ t.Cuts (n + breakLength (t.drop n)) := by
  rintro ⟨hpos, hr, hl⟩
  by_cases hb : breakLength (t.drop n) = 0
  · rw [hb] at hpos hr hl
    exact h ⟨hpos, hr, hl⟩
  · refine not_cuts_breakLength (t.drop n) ⟨Nat.pos_of_ne_zero hb, ?_, ?_⟩
    · rw [List.getElem?_drop, ← hr]
      congr 1
      omega
    · rw [List.getElem?_drop]
      exact hl

end Text

namespace Scanner

/-- What the scanner knows of its line. -/
def lineMark (s : Scanner) : LineMark := ⟨s.lineHasContent, s.afterBreak⟩

/-- The tokens to come depend on the next scan alone. -/
theorem tokens_eq_of_scan_eq {s t : Scanner} (h : s.scan = t.scan) : s.tokens = t.tokens := by
  rw [tokens.eq_def s, tokens.eq_def t, h]

/-- A lexeme that fits is placed where it stands. -/
theorem emit_of_fits {s : Scanner} {x : Lexeme} (h : x.Fits s.rest) :
    (s.emit x).place.offset = s.place.offset + x.length ∧
      (s.emit x).rest = s.rest.drop x.length ∧
      (s.emit x).current = x.toToken s.lineMark s.place.offset := by
  obtain ⟨hoff, hrest⟩ := Place.moveTo_of_not_cuts (p := s.place) (t := s.rest)
    (s.place.offset + x.length) (by omega) (by have := h.length_le; omega)
    (by rw [Nat.add_sub_cancel_left]; exact h.not_cuts)
  rw [Nat.add_sub_cancel_left] at hrest
  refine ⟨hoff, hrest, ?_⟩
  simp only [emit, Lexeme.toToken, lineMark, hoff]

/-- Dropping a comment moves behind it and its line break. -/
theorem skipComment_of_not_cuts {s : Scanner} {n : Nat} (hle : n ≤ s.rest.length)
    (hcut : ¬ s.rest.Cuts n) :
    (s.skipComment n).place.offset
        = s.place.offset + (n + Text.breakLength (s.rest.drop n)) ∧
      (s.skipComment n).rest = s.rest.drop (n + Text.breakLength (s.rest.drop n)) := by
  have hb := Text.breakLength_le (s.rest.drop n)
  rw [List.length_drop] at hb
  obtain ⟨hoff, hrest⟩ := Place.moveTo_of_not_cuts (p := s.place) (t := s.rest)
    (s.place.offset + (n + Text.breakLength (s.rest.drop n))) (by omega) (by omega)
    (by rw [Nat.add_sub_cancel_left]; exact Text.not_cuts_add_breakLength hcut)
  rw [Nat.add_sub_cancel_left] at hrest
  simp only [skipComment, Nat.add_assoc]
  exact ⟨hoff, hrest⟩

theorem lineMark_skipComment (s : Scanner) (n : Nat) :
    (s.skipComment n).lineMark
      = s.lineMark.afterComment (Text.breakLength (s.rest.drop n)) := rfl

theorem lineMark_emit (s : Scanner) (x : Lexeme) : (s.emit x).lineMark = s.lineMark.after x := rfl

theorem tokens_of_rest_nil {s : Scanner} (h : s.rest = []) :
    s.tokens = [.atEnd s.lineMark s.place.offset] := by
  have hscan : s.scan = s.emit { kind := .endOfFile, length := 0, text := [], mode := s.mode } := by
    unfold scan
    split
    · rfl
    · next heq => exact absurd (h.symm.trans heq) (by simp)
  have hplaced := emit_of_fits (s := s)
    (x := { kind := .endOfFile, length := 0, text := [], mode := .normal })
    ⟨by simp, Text.not_cuts_zero _, trivial, by simp⟩
  have hcurrent : s.scan.current = .atEnd s.lineMark s.place.offset := by
    rw [hscan]
    exact hplaced.2.2
  rw [tokens.eq_def]
  simp only [hcurrent]
  exact dif_pos rfl

theorem tokens_of_kind_ne {s : Scanner} (h : s.scan.current.kind ≠ .endOfFile) :
    s.tokens = s.scan.current :: s.scan.tokens := by
  rw [tokens.eq_def]
  exact dif_neg h

theorem scan_of_rest_cons {s : Scanner} {u : CodeUnit} {rest : Text} (h : s.rest = u :: rest) :
    s.scan = if (Lexeme.read s.mode u rest).kind = .comment ∧ s.keepComments = false then
        (s.skipComment (Lexeme.read s.mode u rest).length).scan
      else s.emit (Lexeme.read s.mode u rest) := by
  rw [scan.eq_def]
  split
  · next heq => exact absurd (h.symm.trans heq) (by simp)
  · next u' rest' heq =>
    obtain ⟨rfl, rfl⟩ := List.cons.inj (h.symm.trans heq)
    rfl

/-- The tokens of a scanner are those of the text that it has left. -/
theorem tokens_eq_tokensFrom (s : Scanner) (h : s.mode.Agrees s.rest) :
    s.tokens = s.rest.tokensFrom s.keepComments s.mode s.lineMark s.place.offset := by
  induction hn : s.rest.length using Nat.strong_induction_on generalizing s with
  | _ n ih =>
    subst hn
    cases hr : s.rest with
    | nil => rw [tokens_of_rest_nil hr, Text.tokensFrom]
    | cons u rest =>
      have hfits : (Lexeme.read s.mode u rest).Fits s.rest := hr ▸ Lexeme.fits_read (hr ▸ h)
      have hpos := Lexeme.length_read_pos s.mode u rest
      have hscan := scan_of_rest_cons hr
      rw [Text.tokensFrom]
      by_cases hc : (Lexeme.read s.mode u rest).kind = .comment ∧ s.keepComments = false
      · rw [if_pos hc] at hscan
        simp only [if_pos hc]
        rw [tokens_eq_of_scan_eq hscan]
        obtain ⟨hoff, hrest⟩ := skipComment_of_not_cuts hfits.length_le hfits.not_cuts
        rw [ih _ (length_rest_skipComment_lt _ hpos hr) _ (by exact trivial) rfl, hoff, hrest,
          lineMark_skipComment, hr]
        rfl
      · rw [if_neg hc] at hscan
        simp only [if_neg hc]
        obtain ⟨hoff, hrest, hcurrent⟩ := emit_of_fits hfits
        have hagrees : (s.emit (Lexeme.read s.mode u rest)).mode.Agrees
            (s.emit (Lexeme.read s.mode u rest)).rest := by
          rw [hrest]
          exact hfits.agrees
        have hkind : s.scan.current.kind ≠ .endOfFile := by
          rw [hscan, hcurrent]
          exact Lexeme.kind_read_ne_endOfFile _ _ _
        rw [tokens_of_kind_ne hkind, hscan, hcurrent,
          ih _ (length_rest_emit_lt hpos hr) _ hagrees rfl, hoff, hrest, lineMark_emit, hr]
        rfl

end Scanner

/-- The tokens of a text by its lexemes. -/
theorem Text.tokens_eq_tokensFrom (source : Text) (keep : Bool) :
    source.tokens keep = source.tokensFrom keep .normal {} 0 :=
  Scanner.tokens_eq_tokensFrom (.ofText source keep) trivial

end LatexMarkdown
