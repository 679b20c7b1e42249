import SchemeLayout.Layout.Indentation

/-!
Indenting the lines of a text anew.

Lines are taken from the top, and each is indented by what stands above it, in
the text as the lines above have left it.  Blank lines lose their blanks; lines
that start inside a string or a block comment are left alone.
-/

set_option autoImplicit false

namespace SchemeLayout

namespace Source

/-- Whether a line start lies inside a string or a block comment. -/
def insideLiteral (source : Source) (start : Nat) : Bool :=
  0 < start &&
    (source.classAt? (start - 1) == some .stringRest || source.classAt? (start - 1) == some .comment)

/-- The column of the line that starts at `start`: zero for a blank line. -/
def lineColumn (source : Source) (style : Style) (start : Nat) : Nat :=
  if start + source.indentRun start = source.lineEnd start then 0
  else source.indentation style start

theorem lineColumn_lt_size (source : Source) (style : Style) (start : Nat) :
    source.lineColumn style start < UInt32.size := by
  rw [lineColumn]
  split
  · decide
  · exact UInt32.toNat_lt_size _

/-- The text with the indentation at `start` replaced by that of a column. -/
def setIndent (source : Source) (start column : Nat) : Bytes :=
  source.bytes.take start ++
    (spaces column ++ source.bytes.drop (start + source.indentRun start))

theorem setIndent_of_range_eq {source : Source} {start column : Nat}
    (there : source.range start (start + source.indentRun start) = spaces column) :
    source.setIndent start column = source.bytes := by
  rw [setIndent, ← there, range, Nat.add_sub_cancel_left, ← List.drop_drop,
    List.take_append_drop, List.take_append_drop]

end Source

/-- Indent one line, if the text has it. -/
def reindentLine (style : Style) (source : Source) (line : Nat) : Source :=
  match source.lineStartOf? line with
  | none => source
  | some start =>
      if source.insideLiteral start then source
      else
        let column := source.lineColumn style start
        if source.range start (start + source.indentRun start) = spaces column then source
        else .ofBytes (source.setIndent start column)

/-- Indent the lines from `first` up to, but not including, `last`. -/
def reindent (style : Style) (bytes : Bytes) (first last : Nat) : Bytes :=
  let source := Source.ofBytes bytes
  let stop := min last source.lineCount
  ((List.range' first (stop - first)).foldl (reindentLine style) source).bytes

def reindentAll (style : Style) (bytes : Bytes) : Bytes :=
  reindent style bytes 0 (Source.ofBytes bytes).lineCount

theorem bytes_reindentLine (style : Style) (source : Source) (line : Nat) :
    (reindentLine style source line).bytes = match source.lineStartOf? line with
      | none => source.bytes
      | some start =>
          if source.insideLiteral start then source.bytes
          else source.setIndent start (source.lineColumn style start) := by
  unfold reindentLine
  split
  · rfl
  · split
    · rfl
    · simp only
      split
      next there => exact (Source.setIndent_of_range_eq there).symm
      next => rfl

theorem reindent_of_le {style : Style} {bytes : Bytes} {first last : Nat}
    (empty : last ≤ first) : reindent style bytes first last = bytes := by
  have none : min last (Source.ofBytes bytes).lineCount - first = 0 := by omega
  simp [reindent, none]

end SchemeLayout
