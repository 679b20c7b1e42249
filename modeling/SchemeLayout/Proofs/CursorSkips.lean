import SchemeLayout.Lexer.CursorPass
import SchemeLayout.Proofs.CursorMoves
import SchemeLayout.Proofs.TokenClasses

/-!
The cursor skips what the grammar describes.

From in front of the body of a comment, a string or an atom the cursor moves to its
end, without a fault.  Comments and atoms are skipped byte by byte, strings from one
mark to the next, bar sections in one go.
-/

set_option autoImplicit false

namespace SchemeLayout

namespace Cursor

variable {bytes : Bytes} {cursor : Cursor bytes} {char : Char} {rest : List Char}

theorem head?_of_roleAhead {role : ByteRole} {only : Char} (isOnly : role.char? = some only)
    (isRole : roleAhead rest = role) : rest.head? = some only := by
  cases rest with
  | nil =>
      rw [← isRole] at isOnly
      contradiction
  | cons char rest => exact congrArg some ((ByteRole.ofChar_eq_iff isOnly).mp isRole)

/-! ## Block comments -/

theorem skipBlock_of_ordinary (depth : Nat) (cursor : Cursor bytes)
    (inside : cursor.pos < bytes.length)
    (ordinary : ByteRole.of (bytes.getD cursor.pos 0) = .ordinary) :
    cursor.skipBlock depth = cursor.advance.skipBlock depth := by
  have isCurrent : cursor.current = .ok _ := read_of_le_length (Nat.le_of_lt inside)
  have isNext : cursor.peek = .ok _ := read_of_le_length inside
  rw [skipBlock.eq_def, dif_neg (Nat.not_le.mpr inside)]
  simp only [isCurrent, isNext, ordinary]

theorem skipBlock_eq (depth : Nat) (isAt : cursor.At (char :: rest)) (single : char.utf8Size = 1) :
    cursor.skipBlock depth =
      match ByteRole.ofChar char, roleAhead rest with
      | .hash, .bar => (cursor.advanceBy 2).skipBlock (depth + 1)
      | .bar, .hash =>
          match depth with
          | 0 => .error (.unopened cursor.pos)
          | 1 => .ok (cursor.advanceBy 2)
          | depth + 2 => (cursor.advanceBy 2).skipBlock (depth + 1)
      | _, _ => cursor.advance.skipBlock depth := by
  obtain ⟨byte, isCurrent, role⟩ := isAt.current
  obtain ⟨next, isNext, nextRole⟩ := isAt.peek single
  rw [skipBlock.eq_def, dif_neg (Nat.not_le.mpr isAt.pos_lt)]
  simp only [isCurrent, isNext, role, nextRole]
  rfl

/-- Over a character that starts no mark. -/
theorem skipBlock_plain (depth : Nat) (isAt : cursor.At (char :: rest))
    (notOpening : char = '#' → rest.head? ≠ some '|')
    (notClosing : char = '|' → rest.head? ≠ some '#') :
    ∃ next : Cursor bytes, next.At rest ∧ cursor.skipBlock depth = next.skipBlock depth := by
  rcases utf8Size_eq_one_or_ordinary char with single | ordinary
  · refine ⟨cursor.advance, isAt.advance single, ?_⟩
    rw [skipBlock_eq depth isAt single]
    split
    next isHash isBar =>
      refine absurd ?_ (notOpening ((ByteRole.ofChar_eq_iff rfl).mp isHash))
      exact head?_of_roleAhead rfl isBar
    next isBar isHash =>
      refine absurd ?_ (notClosing ((ByteRole.ofChar_eq_iff rfl).mp isBar))
      exact head?_of_roleAhead rfl isHash
    next => rfl
  · exact isAt.scan_ordinary (skipBlock_of_ordinary depth) ordinary

theorem skipBlock_of_commentBody {depth : Nat} {body : List Char}
    (isBody : CommentBody depth body rest) (isAt : cursor.At (body ++ rest)) :
    ∃ next, cursor.skipBlock (depth + 1) = .ok next ∧ next.At rest := by
  induction isBody generalizing cursor with
  | @closed rest =>
      refine ⟨cursor.advanceBy 2, ?_, isAt.advanceBy ['|', '#'] rfl⟩
      rw [skipBlock_eq _ isAt rfl]
      rfl
  | ended =>
      have length := isAt.pos_add
      refine ⟨cursor, ?_, isAt⟩
      rw [skipBlock.eq_def, dif_pos (by simp at length; omega)]
  | @opens depth body rest _ inductionHypothesis =>
      rw [skipBlock_eq _ isAt rfl]
      exact inductionHypothesis (isAt.advanceBy ['#', '|'] rfl)
  | @closes depth body rest _ inductionHypothesis =>
      rw [skipBlock_eq _ isAt rfl]
      exact inductionHypothesis (isAt.advanceBy ['|', '#'] rfl)
  | plain notOpening notClosing isBody inductionHypothesis =>
      rw [← isBody.head?_append] at notOpening notClosing
      obtain ⟨next, behind, same⟩ := skipBlock_plain _ isAt notOpening notClosing
      rw [same]
      exact inductionHypothesis behind

/-! ## Strings -/

/-- The parts that are passed over in the search for a string mark. -/
def isStringText (role : ByteRole) : Bool := role != .doubleQuote && role != .backslash

theorem isStringText_of (byte : UInt8) :
    (byte != 0x22 && byte != 0x5C) = isStringText (.of byte) := by
  revert byte
  exact forall_byte (by decide +kernel)

theorem isStringText_ofChar (char : Char) :
    isStringText (.ofChar char) = true ↔ char ≠ '"' ∧ char ≠ '\\' := by
  have isQuote : ByteRole.ofChar char = .doubleQuote ↔ char = '"' := ByteRole.ofChar_eq_iff rfl
  have isEscape : ByteRole.ofChar char = .backslash ↔ char = '\\' := ByteRole.ofChar_eq_iff rfl
  simp [isStringText, isQuote, isEscape]

theorem skipString_stop (isAt : cursor.At rest)
    (stops : ∀ char ∈ rest.head?, isStringText (.ofChar char) = false) :
    cursor.skipString =
      match roleAhead rest with
      | .doubleQuote => .ok cursor.advance
      | .backslash =>
          match cursor.advance.advanceChar with
          | .error fault => .error fault
          | .ok next =>
              if cursor.pos < next.pos ∧ cursor.pos < bytes.length then next.skipString
              else .error (.stalled cursor.pos)
      | _ => .ok cursor := by
  obtain ⟨mark, isMark, role⟩ := isAt.current
  rw [current, read_of_le_length isAt.within, Except.ok.injEq] at isMark
  have isSeek : cursor.seekStringMark = .ok (mark, cursor) := by
    rw [seekStringMark, if_pos isAt.within, isAt.eatWhile_stop isStringText_of stops, ← isMark]
  rw [skipString.eq_def, isSeek]
  simp only [role]
  rfl

theorem skipString_over {next final : Cursor bytes} (isText : char ≠ '"' ∧ char ≠ '\\')
    (isAt : cursor.At (char :: rest)) (behind : next.At rest)
    (skipped : next.skipString = .ok final) : cursor.skipString = .ok final := by
  have inside := isAt.pos_lt
  have moved := At.pos_eq [char] isAt behind
  have isSeek : cursor.seekStringMark = next.seekStringMark := by
    rw [seekStringMark, seekStringMark, if_pos isAt.within, if_pos behind.within,
      isAt.eatWhile_over isStringText_of rfl ((isStringText_ofChar char).mpr isText) behind]
  rw [skipString.eq_def] at skipped ⊢
  rw [isSeek]
  cases isFound : next.seekStringMark with
  | error fault =>
      rw [isFound] at skipped
      contradiction
  | ok answer =>
      obtain ⟨mark, found⟩ := answer
      rw [isFound] at skipped
      simp only at skipped ⊢
      generalize ByteRole.of mark = role at skipped
      cases role with
      | backslash =>
          cases isAfter : found.advance.advanceChar with
          | error fault => simp [isAfter] at skipped
          | ok after =>
              simp only [isAfter] at skipped ⊢
              split at skipped
              next further => rw [dif_pos ⟨by omega, inside⟩, skipped]
              next => contradiction
      | _ => exact skipped

theorem skipString_nil (isAt : cursor.At []) : cursor.skipString = .ok cursor := by
  rw [skipString_stop isAt (by simp)]
  rfl

theorem skipString_escape {next : Cursor bytes} (isAt : cursor.At ('\\' :: rest))
    (isNext : cursor.advance.advanceChar = .ok next) (moved : cursor.pos < next.pos) :
    cursor.skipString = next.skipString := by
  have role : roleAhead ('\\' :: rest) = .backslash := rfl
  rw [skipString_stop isAt (by rintro char ⟨⟩; rfl)]
  simp only [role, isNext, if_pos (And.intro moved isAt.pos_lt)]

theorem skipString_of_stringBody {body : List Char} (isBody : StringBody body rest)
    (isAt : cursor.At (body ++ rest)) : ∃ next, cursor.skipString = .ok next ∧ next.At rest := by
  induction isBody generalizing cursor with
  | closed =>
      refine ⟨cursor.advance, ?_, isAt.advance rfl⟩
      rw [skipString_stop isAt (by rintro char ⟨⟩; rfl)]
      rfl
  | ended => exact ⟨cursor, skipString_nil isAt, isAt⟩
  | cutEscape =>
      obtain ⟨next, isNext, behind⟩ := (isAt.advance rfl).advanceChar_nil
      have moved := At.pos_eq ['\\'] isAt behind
      have positive := byteLength_pos (List.cons_ne_nil '\\' [])
      rw [skipString_escape isAt isNext (by omega)]
      exact ⟨next, skipString_nil behind, behind⟩
  | @escape char body rest _ inductionHypothesis =>
      obtain ⟨next, isNext, behind⟩ := (isAt.advance rfl).advanceChar
      have moved := At.pos_eq ['\\', char] isAt behind
      have positive := byteLength_pos (List.cons_ne_nil '\\' [char])
      rw [skipString_escape isAt isNext (by omega)]
      exact inductionHypothesis behind
  | @plain char body rest notQuote notEscape _ inductionHypothesis =>
      have behind : (⟨cursor.pos + byteLength [char]⟩ : Cursor bytes).At (body ++ rest) :=
        At.move [char] isAt rfl
      obtain ⟨next, skipped, isNext⟩ := inductionHypothesis behind
      exact ⟨next, skipString_over ⟨notQuote, notEscape⟩ isAt behind skipped, isNext⟩

/-! ## Atoms -/

theorem skipAtomRest_nil (isAt : cursor.At []) : cursor.skipAtomRest = .ok cursor := by
  have length := isAt.pos_add
  rw [byteLength_nil] at length
  rw [skipAtomRest.eq_def, dif_pos (by omega)]

theorem skipAtomRest_step {byte : UInt8} (inside : cursor.pos < bytes.length)
    (isCurrent : cursor.current = .ok byte) (notDelimiter : (ByteRole.of byte).endsAtom = false)
    (moved : cursor.pos < (cursor.skipAtomByte byte).pos) :
    cursor.skipAtomRest = (cursor.skipAtomByte byte).skipAtomRest := by
  rw [skipAtomRest.eq_def, dif_neg (Nat.not_le.mpr inside)]
  simp only [isCurrent, notDelimiter, Bool.false_eq_true, if_false, dif_pos moved]

theorem skipAtomByte_of_ne_bar {byte : UInt8} (inside : cursor.pos < bytes.length)
    (notBar : ByteRole.of byte ≠ .bar) : cursor.skipAtomByte byte = cursor.advance := by
  rw [skipAtomByte, if_neg notBar, advanceBy, advance, Nat.max_eq_left (Nat.le_of_lt inside),
    Nat.min_eq_left inside]

theorem skipAtomRest_advance {byte : UInt8} (inside : cursor.pos < bytes.length)
    (isCurrent : cursor.current = .ok byte) (notDelimiter : (ByteRole.of byte).endsAtom = false)
    (notBar : ByteRole.of byte ≠ .bar) : cursor.skipAtomRest = cursor.advance.skipAtomRest := by
  have isNext := skipAtomByte_of_ne_bar inside notBar
  rw [skipAtomRest_step inside isCurrent notDelimiter (by rw [isNext, pos_advance]; omega), isNext]

theorem skipAtomRest_of_ordinary (cursor : Cursor bytes) (inside : cursor.pos < bytes.length)
    (ordinary : ByteRole.of (bytes.getD cursor.pos 0) = .ordinary) :
    cursor.skipAtomRest = cursor.advance.skipAtomRest :=
  skipAtomRest_advance inside (read_of_le_length (Nat.le_of_lt inside)) (by rw [ordinary]; rfl)
    (by rw [ordinary]; decide)

/-- Over a character that neither ends the atom nor opens a bar section. -/
theorem skipAtomRest_plain (isAt : cursor.At (char :: rest))
    (notDelimiter : isDelimiterChar char = false) (notBar : char ≠ '|') :
    ∃ next : Cursor bytes, next.At rest ∧ cursor.skipAtomRest = next.skipAtomRest := by
  rcases utf8Size_eq_one_or_ordinary char with single | ordinary
  · obtain ⟨byte, isCurrent, role⟩ := isAt.current
    have isRole : ByteRole.of byte = .ofChar char := role
    refine ⟨cursor.advance, isAt.advance single, ?_⟩
    refine skipAtomRest_advance isAt.pos_lt isCurrent ?_ ?_
    · rw [isRole, endsAtom_ofChar, notDelimiter]
    · rw [isRole]
      exact ofChar_ne rfl notBar
  · exact isAt.scan_ordinary skipAtomRest_of_ordinary ordinary

/-- The parts that are passed over inside a bar section. -/
def isBarText (role : ByteRole) : Bool := role ≠ .bar

theorem isBarText_of (byte : UInt8) : decide (ByteRole.of byte ≠ .bar) = isBarText (.of byte) := rfl

/-- Over a bar section. -/
theorem skipAtomRest_bars {inner : List Char} (isAt : cursor.At ('|' :: (inner ++ rest)))
    (noBar : '|' ∉ inner) {later : List Char}
    (behind : ∀ bar : Cursor bytes, bar.At rest → (bar.advanceBy 1).At later)
    (stops : ∀ char ∈ rest.head?, char = '|') :
    ∃ next : Cursor bytes, next.At later ∧ cursor.skipAtomRest = next.skipAtomRest := by
  obtain ⟨byte, isCurrent, role⟩ := isAt.current
  have isBar : ByteRole.of byte = .bar := role
  have isNext : cursor.skipAtomByte byte =
      (cursor.advance.eatWhile fun inner => ByteRole.of inner ≠ .bar).advanceBy 1 := by
    rw [skipAtomByte, if_pos isBar]
  have eaten : (cursor.advance.eatWhile fun inner => ByteRole.of inner ≠ .bar).At rest := by
    refine At.eatWhile isBarText_of rfl ?_ ?_ (isAt.advance rfl)
    · intro char member
      exact decide_eq_true (ofChar_ne rfl fun isBar => noBar (isBar ▸ member))
    · intro char isNext
      rw [stops char isNext]
      rfl
  refine ⟨cursor.skipAtomByte byte, ?_, ?_⟩
  · rw [isNext]
    exact behind _ eaten
  · refine skipAtomRest_step isAt.pos_lt isCurrent (by rw [isBar]; rfl) ?_
    rw [isNext]
    refine Nat.lt_of_lt_of_le ?_ (pos_le_pos_advanceBy _ 1)
    exact Nat.lt_of_lt_of_le (Nat.lt_succ_self _) (pos_le_pos_eatWhile _ cursor.advance)

theorem skipAtomRest_of_atomBody {body : List Char} (isBody : AtomBody body rest)
    (isAt : cursor.At (body ++ rest)) : ∃ next, cursor.skipAtomRest = .ok next ∧ next.At rest := by
  induction isBody generalizing cursor with
  | @ended rest isEnd =>
      refine ⟨cursor, ?_, isAt⟩
      cases rest with
      | nil => exact skipAtomRest_nil isAt
      | cons char rest =>
          obtain ⟨byte, isCurrent, role⟩ := isAt.current
          have isDelimiter : (ByteRole.of byte).endsAtom = true := by
            rw [role]
            exact (endsAtom_ofChar char).trans (isEnd char rfl)
          rw [skipAtomRest.eq_def, dif_neg (Nat.not_le.mpr isAt.pos_lt)]
          simp only [isCurrent, isDelimiter, if_true]
  | plain notDelimiter notBar _ inductionHypothesis =>
      obtain ⟨next, behind, same⟩ := skipAtomRest_plain isAt notDelimiter notBar
      rw [same]
      exact inductionHypothesis behind
  | @bars inner body rest noBar _ inductionHypothesis =>
      rw [List.cons_append, List.append_assoc] at isAt
      have closing (bar : Cursor bytes) (atBar : bar.At ('|' :: (body ++ rest))) :
          (bar.advanceBy 1).At (body ++ rest) :=
        atBar.advanceBy ['|'] rfl
      obtain ⟨next, behind, same⟩ := skipAtomRest_bars isAt noBar closing (by rintro char ⟨⟩; rfl)
      rw [same]
      exact inductionHypothesis behind
  | @cutBars inner noBar =>
      obtain ⟨next, behind, same⟩ := skipAtomRest_bars isAt noBar
        (fun bar atBar => atBar.advanceBy_nil 1) (by simp)
      rw [same]
      exact ⟨next, skipAtomRest_nil behind, behind⟩

theorem skipAtom_literal {named : Cursor bytes} (isAt : cursor.At ('#' :: '\\' :: rest))
    (isNamed : (cursor.advanceBy 2).advanceChar = .ok named) :
    cursor.skipAtom = named.skipAtomRest := by
  obtain ⟨byte, isCurrent, role⟩ := isAt.current
  obtain ⟨next, isNext, nextRole⟩ := isAt.peek rfl
  have isHash : ByteRole.of byte = .hash := role
  have isEscape : ByteRole.of next = .backslash := nextRole
  simp only [skipAtom, isCurrent, isNext, isHash, isEscape, isNamed, bind, Except.bind, if_true]

theorem skipAtom_plain (isAt : cursor.At (char :: rest))
    (behindHash : char = '#' → rest.head? ≠ some '\\') : cursor.skipAtom = cursor.skipAtomRest := by
  obtain ⟨byte, isCurrent, role⟩ := isAt.current
  have isRole : ByteRole.of byte = .ofChar char := role
  by_cases isHash : char = '#'
  · subst isHash
    obtain ⟨next, isNext, nextRole⟩ := isAt.peek rfl
    have notEscape : ByteRole.of next ≠ .backslash := by
      intro isEscape
      exact behindHash rfl (head?_of_roleAhead rfl (nextRole.symm.trans isEscape))
    simp only [skipAtom, isCurrent, isNext, notEscape, bind, Except.bind, if_false]
    split <;> rfl
  · have notHash : ByteRole.of byte ≠ .hash := by
      rw [isRole]
      exact ofChar_ne rfl isHash
    simp only [skipAtom, isCurrent, notHash, bind, Except.bind, if_false]

theorem skipAtom_of_atom {chars : List Char} (isToken : IsToken .atom chars rest)
    (isAt : cursor.At (chars ++ rest)) : ∃ next, cursor.skipAtom = .ok next ∧ next.At rest := by
  cases isToken with
  | character isBody =>
      obtain ⟨named, isNamed, behind⟩ := At.advanceChar (isAt.advanceBy ['#', '\\'] rfl)
      rw [skipAtom_literal isAt isNamed]
      exact skipAtomRest_of_atomBody isBody behind
  | cutCharacter =>
      obtain ⟨named, isNamed, behind⟩ := At.advanceChar_nil (isAt.advanceBy ['#', '\\'] rfl)
      rw [skipAtom_literal isAt isNamed]
      exact ⟨named, skipAtomRest_nil behind, behind⟩
  | atom _ _ _ behindHash isBody =>
      rw [skipAtom_plain isAt fun isHash isEscape => (behindHash isHash _ isEscape).2.2 rfl]
      exact skipAtomRest_of_atomBody isBody isAt

end Cursor

end SchemeLayout
