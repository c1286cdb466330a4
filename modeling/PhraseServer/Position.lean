/-
  Positions in a buffer and the targets a client may seek.

  A position counts lines from one and columns and offsets in UTF-8 bytes from
  zero.  `Position.after` moves a position over characters, `Position.advance`
  over a text.  A target is a byte offset or a line and column; it *admits* the
  positions at or before it.

  * `after_append`: moving over two pieces is moving over the first, then the
    second;
  * `offset_after`: the offset grows by the number of bytes passed;
  * `line_col_after`: so does the column, unless a line is left behind.
-/
namespace PhraseServer

/-- The number of UTF-8 bytes of characters. -/
def byteLength : List Char → Nat
  | [] => 0
  | c :: cs => c.utf8Size + byteLength cs

/-! ## Positions -/

/-- A place in a buffer. -/
structure Position where
  /-- Line, counted from one. -/
  line : Nat
  /-- Byte column in the line, counted from zero. -/
  col : Nat
  /-- Byte offset in the buffer. -/
  offset : Nat
deriving DecidableEq, Repr, Inhabited

namespace Position

/-- The start of every buffer. -/
def origin : Position := ⟨1, 0, 0⟩

/-- The position behind one character: a newline opens the next line, any other
    character moves the column by its width in bytes. -/
def step (p : Position) (c : Char) : Position :=
  if c = '\n' then ⟨p.line + 1, 0, p.offset + 1⟩
  else ⟨p.line, p.col + c.utf8Size, p.offset + c.utf8Size⟩

/-- The position behind a run of characters. -/
def after (p : Position) (cs : List Char) : Position := cs.foldl step p

/-- The position behind a text. -/
def advance (p : Position) (text : String) : Position := p.after text.toList

/-- Positions are ordered by offset alone; equality looks at every field. -/
instance : Ord Position := ⟨fun p q => compare p.offset q.offset⟩

@[simp] theorem after_nil (p : Position) : p.after [] = p := rfl

@[simp] theorem after_cons (p : Position) (c : Char) (cs : List Char) :
    p.after (c :: cs) = (p.step c).after cs := rfl

theorem after_append (p : Position) (cs ds : List Char) :
    p.after (cs ++ ds) = (p.after cs).after ds := by
  simp [after, List.foldl_append]

theorem offset_step (p : Position) (c : Char) : (p.step c).offset = p.offset + c.utf8Size := by
  by_cases h : c = '\n'
  · subst h; rfl
  · simp [step, h]

theorem offset_after (p : Position) (cs : List Char) :
    (p.after cs).offset = p.offset + byteLength cs := by
  induction cs generalizing p with
  | nil => rfl
  | cons c cs ih => simp [ih, offset_step, byteLength, Nat.add_assoc]

/-- Characters lead to a later line, or further on in the same one. -/
theorem line_col_after (p : Position) (cs : List Char) :
    p.line < (p.after cs).line ∨
      ((p.after cs).line = p.line ∧ (p.after cs).col = p.col + byteLength cs) := by
  induction cs generalizing p with
  | nil => exact Or.inr ⟨rfl, rfl⟩
  | cons c cs ih =>
    rw [after_cons, byteLength]
    by_cases h : c = '\n'
    · have hline : (p.step c).line = p.line + 1 := by simp [step, h]
      rcases ih (p.step c) with h' | ⟨h', -⟩ <;> left <;> omega
    · have hline : (p.step c).line = p.line := by simp [step, h]
      have hcol : (p.step c).col = p.col + c.utf8Size := by simp [step, h]
      rcases ih (p.step c) with h' | ⟨hline', hcol'⟩
      · left; omega
      · right; omega

end Position

/-! ## Targets -/

/-- Where a client asks to go. -/
inductive SeekTarget where
  /-- A byte offset. -/
  | offset (offset : Nat)
  /-- A line, counted from one, and a byte column in it. -/
  | lineCol (line col : Nat)
deriving DecidableEq, Repr

namespace SeekTarget

/-- Whether a position lies at or before the target: by offset, or by line and
    then column. -/
def admits : SeekTarget → Position → Bool
  | .offset n, p => p.offset ≤ n
  | .lineCol line col, p => p.line < line || (p.line = line && p.col ≤ col)

/-- The target at a position. -/
def ofPosition (p : Position) : SeekTarget := .offset p.offset

end SeekTarget

/-! ## Spans -/

/-- What covers a stretch of a buffer. -/
class Spanned (α : Type) where
  /-- The position of the first character. -/
  start : α → Position
  /-- The position behind the last character. -/
  stop : α → Position

end PhraseServer
