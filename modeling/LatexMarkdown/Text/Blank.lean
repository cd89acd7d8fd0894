import LatexMarkdown.Text
/-!
  The white-space classes.

  Four classes are in use and none contains another's whole job: line breaks, the space of a
  source line, the space that inline content collapses, and the Unicode space that trimming and
  mathematics go by.
-/
namespace LatexMarkdown

namespace CodeUnit

/-- Line feed and carriage return. -/
def isLineBreak (u : CodeUnit) : Bool := u == 0x0A || u == 0x0D

/-- Space within a source line: space, tab, vertical tab, form feed and the no-break space. -/
def isLineSpace (u : CodeUnit) : Bool :=
  u == 0x20 || u == 0x09 || u == 0x0B || u == 0x0C || u == 0xA0

/-- Space of a source text, line breaks included. -/
def isSourceSpace (u : CodeUnit) : Bool := u.isLineSpace || u.isLineBreak

/-- Space that inline content collapses: the ASCII space characters alone. -/
def isInlineSpace (u : CodeUnit) : Bool :=
  u == 0x20 || u == 0x09 || u == 0x0C || u == 0x0B || u == 0x0D || u == 0x0A

/-- Unicode space separators, the ASCII space controls, the line and paragraph separators and the
byte order mark. -/
def isUnicodeSpace (u : CodeUnit) : Bool :=
  (0x09 ≤ u && u ≤ 0x0D) || u == 0x20 || u == 0xA0 || u == 0x1680 || (0x2000 ≤ u && u ≤ 0x200A)
    || u == 0x2028 || u == 0x2029 || u == 0x202F || u == 0x205F || u == 0x3000 || u == 0xFEFF

/-- Space or tab. -/
def isTabSpace (u : CodeUnit) : Bool := u == 0x20 || u == 0x09

theorem isInlineSpace_of_isLineBreak {u : CodeUnit} (h : u.isLineBreak = true) :
    u.isInlineSpace = true := by
  simp only [isLineBreak, Bool.or_eq_true, beq_iff_eq] at h
  rcases h with h | h <;> subst h <;> decide

theorem isUnicodeSpace_of_isInlineSpace {u : CodeUnit} (h : u.isInlineSpace = true) :
    u.isUnicodeSpace = true := by
  simp only [isInlineSpace, Bool.or_eq_true, beq_iff_eq] at h
  rcases h with ((((h | h) | h) | h) | h) | h <;> subst h <;> decide

end CodeUnit

namespace Text

/-- Nothing but source space; true of the empty text. -/
def isBlank (t : Text) : Bool := t.all CodeUnit.isSourceSpace

@[simp] theorem isBlank_nil : isBlank [] = true := rfl

@[simp] theorem isBlank_cons (u : CodeUnit) (t : Text) :
    isBlank (u :: t) = (u.isSourceSpace && isBlank t) := rfl

@[simp] theorem isBlank_append (s t : Text) : isBlank (s ++ t) = (isBlank s && isBlank t) := by
  simp [isBlank]

/-- Without the Unicode space at the front. -/
def trimStart (t : Text) : Text := t.dropWhile CodeUnit.isUnicodeSpace

/-- Without the Unicode space at the back. -/
def trimEnd (t : Text) : Text := (t.reverse.dropWhile CodeUnit.isUnicodeSpace).reverse

/-- Without the Unicode space at either end. -/
def trim (t : Text) : Text := t.trimStart.trimEnd

/-- Every maximal run of units satisfying `p` made a single space; `inRun` says that the units
just before belong to such a run whose space is already out. -/
def collapseFrom (p : CodeUnit → Bool) (inRun : Bool) : Text → Text
  | [] => []
  | u :: rest =>
    if p u then
      if inRun then collapseFrom p true rest else 0x20 :: collapseFrom p true rest
    else u :: collapseFrom p false rest

/-- Every maximal run of units satisfying `p` made a single space. -/
def collapse (p : CodeUnit → Bool) (t : Text) : Text := collapseFrom p false t

theorem collapseFrom_of_none {p : CodeUnit → Bool} {t : Text} (h : ∀ u ∈ t, p u = false)
    (inRun : Bool) : collapseFrom p inRun t = t := by
  induction t generalizing inRun with
  | nil => rfl
  | cons u rest ih =>
    have hu := h u (by simp)
    have hrest : ∀ v ∈ rest, p v = false := fun v hv => h v (by simp [hv])
    simp [collapseFrom, hu, ih hrest]

end Text

end LatexMarkdown
