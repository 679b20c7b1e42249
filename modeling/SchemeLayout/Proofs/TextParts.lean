import SchemeLayout.Proofs.NavigatorSpans
import SchemeLayout.Proofs.SignificantBytes
import SchemeLayout.Proofs.TokenPass
import SchemeLayout.Layout.Column

/-!
The classes of the parts of a text.

To cut a text off does not change the classes in front of the cut, with one
exception: behind a hash that starts an atom, where the next byte could make the
hash a quoting mark or the start of a comment.  Behind white space between tokens
the lexer starts anew, so there a text can be classified in two parts, and blanks
can be put in or taken away.  The cursor pass finds the same classes, as it agrees
with the lexer on whole texts.
-/

set_option autoImplicit false

namespace SchemeLayout

/-- The cursor pass over a text finds the class table of its snapshot. -/
theorem Source.classify_cursor (text : String) :
    (⟨0⟩ : Cursor (encode text)).classify = .ok (Source.ofString text).classes := by
  obtain ⟨tokens, splits⟩ := exists_tokenizes text.toList
  have atStart := Cursor.At.start text
  generalize (⟨0⟩ : Cursor (encode text)) = cursor at atStart
  have mayStart : true = false → ∀ char ∈ text.toList.head?, isDelimiterChar char = true := by
    simp
  obtain ⟨final, isFinal, _⟩ := Cursor.classifyFrom_of_tokenizes splits atStart mayStart
  rw [Cursor.classify, isFinal, ofString, classes_ofBytes, classify_encode, splits.classifyFrom_eq]
  rfl

/-! ## Text that is cut off -/

namespace LexState

/-- The state behind a hash that starts an atom is reached behind such a hash only. -/
theorem eq_hash_of_step {state : LexState} {role : ByteRole} {next : Option ByteRole}
    (reached : (state.step role next).2 = atomHash) :
    role = .hash ∧ (state = between ∨ state = afterComma) := by
  have fromBetween (isNext : (stepBetween role next).2 = atomHash) : role = .hash := by
    cases role with
    | hash => rfl
    | _ => contradiction
  have notFromAtom : (stepAtom role next).2 ≠ atomHash := by
    unfold stepAtom
    split
    next isEnd =>
      intro isNext
      rw [fromBetween isNext] at isEnd
      contradiction
    next => split <;> simp
  cases state with
  | between => exact ⟨fromBetween reached, .inl rfl⟩
  | afterComma =>
      simp only [step] at reached
      split at reached
      · contradiction
      · exact ⟨fromBetween reached, .inr rfl⟩
  | lineComment =>
      simp only [step] at reached
      split at reached
      next isBreak =>
        rw [isBreak] at reached
        contradiction
      next => contradiction
  | blockComment depth pending =>
      simp only [step, stepBlock] at reached
      repeat' split at reached
      all_goals contradiction
  | string | atomBar =>
      simp only [step] at reached
      split at reached <;> contradiction
  | stringEscape | charLiteral => contradiction
  | atom => exact absurd reached notFromAtom
  | atomHash =>
      simp only [step] at reached
      split at reached
      · contradiction
      · exact absurd reached notFromAtom

/-- Only a hash that would start an atom looks at the next byte. -/
theorem step_of_ne_atomHash {state : LexState} {role : ByteRole}
    (settled : (state.step role none).2 ≠ atomHash) (next : Option ByteRole) :
    state.step role next = state.step role none := by
  by_cases isHash : role = .hash
  · subst isHash
    cases state with
    | between | afterComma => exact absurd rfl settled
    | _ => rfl
  · exact state.step_of_ne_hash isHash next none

end LexState

/-- What follows a text decides on the class of its last byte alone. -/
theorem exists_take_classify {front : Bytes} (notEmpty : front ≠ []) :
    ∃ (before : LexState) (role : ByteRole) (passed : List ByteClass),
      stateBehind front = (before.step role none).2 ∧
      classify front = passed ++ [(before.step role none).1] ∧
      ∀ back, (classify (front ++ back)).take front.length =
        passed ++ [(before.step role (back.map ByteRole.of).head?).1] := by
  have rolesNotEmpty : front.map ByteRole.of ≠ [] := by simpa using notEmpty
  have isLast := List.getLast?_eq_some_getLast rolesNotEmpty
  generalize (front.map ByteRole.of).getLast rolesNotEmpty = role at isLast
  obtain ⟨before, passed, length, isState, isRead⟩ := LexState.between.exists_last_step isLast
  refine ⟨before, role, passed, isState, ?_, fun back => ?_⟩
  · have alone := isRead []
    rwa [List.append_nil] at alone
  · have isLength : (passed ++ [(before.step role (back.map ByteRole.of).head?).1]).length =
        front.length := by
      rw [List.length_append, List.length_singleton, length, List.length_map]
    rw [classify, List.map_append, isRead, List.append_cons passed, List.take_left' isLength]

/-- The classes of a text stay, whatever follows it, unless it ends with a hash that starts
an atom.  A bracket makes such a hash a quoting mark. -/
theorem take_classify_append_iff (front : Bytes) :
    (∀ back : String, (classify (front ++ encode back)).take front.length = classify front) ↔
      stateBehind front ≠ .atomHash := by
  by_cases isEmpty : front = []
  · subst isEmpty
    exact ⟨fun _ => by decide, fun _ back => rfl⟩
  · obtain ⟨before, role, passed, isState, isClasses, isRead⟩ := exists_take_classify isEmpty
    rw [isState, isClasses]
    constructor
    · intro stays isHash
      have changed := (stays "(").symm.trans (isRead (encode "("))
      rw [show ((encode "(").map ByteRole.of).head? = some .opening by decide,
        List.append_cancel_left_eq, List.cons.injEq] at changed
      obtain ⟨rfl, rfl | rfl⟩ := LexState.eq_hash_of_step isHash
      · exact absurd changed.1 (by decide)
      · exact absurd changed.1 (by decide)
    · intro settled back
      rw [isRead, LexState.step_of_ne_atomHash settled]

theorem Source.take_classes_of_ne_hash {front : String}
    (notHash : (encode front).getLast? ≠ some 0x23) (back : String) :
    (Source.ofString (front ++ back)).classes.take (encode front).length =
      (Source.ofString front).classes := by
  have noHash : ((encode front).map ByteRole.of).getLast? ≠ some .hash := by
    rw [List.getLast?_map, ne_eq, Option.map_eq_some_iff]
    rintro ⟨byte, isLast, isHash⟩
    rw [isLast, (ByteRole.of_eq_hash_iff byte).mp isHash] at notHash
    contradiction
  simp only [ofString, classes_ofBytes, encode_append]
  exact take_classify_of_ne_hash noHash (encode back)

theorem getLast?_encode_ne_hash {front back : String}
    (notHash : (encode front).length = 0 ∨
      (Source.ofString (front ++ back)).byteAt ((encode front).length - 1) ≠ 0x23) :
    (encode front).getLast? ≠ some 0x23 := by
  intro isHash
  rw [List.getLast?_eq_getElem?] at isHash
  have inside := (List.getElem?_eq_some_iff.mp isHash).1
  rcases notHash with isEmpty | notHash
  · omega
  · apply notHash
    rw [Source.byteAt, Source.ofString, Source.bytes_ofBytes, encode_append,
      List.getD_eq_getElem?_getD, List.getElem?_append_left inside, isHash, Option.getD_some]

theorem getLast?_encode_delimiter {delimiter : String} (isDelimiter : delimiter ∈ lineDelimiters)
    (text : String) : (encode (text ++ delimiter)).getLast? ≠ some 0x23 := by
  have isLast : ∃ byte, (encode delimiter).getLast? = some byte ∧ byte ≠ 0x23 := by
    revert delimiter
    decide
  obtain ⟨byte, isLast, notHash⟩ := isLast
  rw [encode_append, List.getLast?_append, isLast, Option.some_or, ne_eq, Option.some.injEq]
  exact notHash

/-- A text that is cut between two characters keeps its classes, if the cut does not stand
behind a hash; the cursor pass finds them too.  So what follows a line delimiter does not
change the class of a byte in front of it.  And the exception is as small as it can be:
what follows a text can change a class exactly if the text ends with a hash that
starts an atom. -/
theorem classes_of_cut (text : String) :
    (∀ cut, IsBoundary text cut → cut = 0 ∨ (Source.ofString text).byteAt (cut - 1) ≠ 0x23 →
      ∃ front : String, encode front = (encode text).take cut ∧
        (Source.ofString front).classes = (Source.ofString text).classes.take cut ∧
        (⟨0⟩ : Cursor (encode front)).classify = .ok ((Source.ofString text).classes.take cut)) ∧
    (∀ delimiter ∈ lineDelimiters, ∀ later other : String,
      (Source.ofString (text ++ delimiter ++ later)).classes.take
          (encode (text ++ delimiter)).length =
        (Source.ofString (text ++ delimiter ++ other)).classes.take
          (encode (text ++ delimiter)).length) ∧
    ((∀ later : String, (Source.ofString (text ++ later)).classes.take (encode text).length =
        (Source.ofString text).classes) ↔
      stateBehind (encode text) ≠ .atomHash) := by
  refine ⟨?_, ?_, ?_⟩
  · rintro cut ⟨front, back, rfl, rfl⟩ notHash
    have same := Source.take_classes_of_ne_hash (getLast?_encode_ne_hash notHash) back
    refine ⟨front, ?_, same.symm, ?_⟩
    · rw [encode_append, List.take_left]
    · rw [same, Source.classify_cursor]
  · intro delimiter isDelimiter later other
    have notHash := getLast?_encode_delimiter isDelimiter text
    rw [Source.take_classes_of_ne_hash notHash, Source.take_classes_of_ne_hash notHash]
  · simp only [Source.ofString, Source.classes_ofBytes, encode_append]
    exact take_classify_append_iff (encode text)

/-- A cut between the two bytes of a mark that closes a comment. -/
theorem classes_of_cut_mark :
    (Source.ofString "'λ #|x|").classes = (Source.ofString "'λ #|x|#(").classes.take 8 ∧
      (⟨0⟩ : Cursor (encode "'λ #|x|")).classify =
        .ok ((Source.ofString "'λ #|x|#(").classes.take 8) := by
  obtain ⟨front, isFront, same, isPass⟩ := (classes_of_cut "'λ #|x|#(").1 8
    ⟨"'λ #|x|", "#(", by decide +kernel, by decide +kernel⟩ (.inr (by decide +kernel))
  have isText : encode front = encode "'λ #|x|" := isFront.trans (by decide +kernel)
  obtain rfl : front = "'λ #|x|" := by
    rw [← decode_encode front, isText, decode_encode]
  exact ⟨same, isPass⟩

-- Behind a hash that starts an atom, a bracket changes the class of the hash.
example : (Source.ofString "a #").classes = [.atom, .space, .atom] ∧
    (Source.ofString "a #(").classes = [.atom, .space, .prefixMark, .opening] := by
  decide +kernel

/-! ## White space between tokens -/

/-- Behind white space between tokens the lexer is where it starts. -/
theorem stateBehind_of_space {left : Bytes} (isSpace : (classify left).getLast? = some .space) :
    stateBehind left = .between ∧ (left.map ByteRole.of).getLast? ≠ some .hash := by
  have notEmpty : left ≠ [] := by
    rintro rfl
    contradiction
  obtain ⟨role, isLast⟩ : ∃ role, (left.map ByteRole.of).getLast? = some role :=
    ⟨_, List.getLast?_eq_some_getLast (by simpa using notEmpty)⟩
  obtain ⟨before, isClass, isState⟩ := LexState.between.exists_step_of_getLast? isLast
  rw [classify, isClass, Option.some.injEq] at isSpace
  obtain ⟨isWhite, isBetween⟩ := LexState.of_step_eq_space isSpace
  refine ⟨isState.trans isBetween, ?_⟩
  rw [isLast]
  rintro ⟨⟩
  contradiction

/-- At the start of a text, and behind white space between tokens, the classes of two
texts are put one behind the other. -/
theorem classify_append_of_space {left : Bytes}
    (apart : left = [] ∨ (classify left).getLast? = some .space) (right : Bytes) :
    classify (left ++ right) = classify left ++ classify right := by
  rcases apart with rfl | isSpace
  · rfl
  · obtain ⟨isBetween, notHash⟩ := stateBehind_of_space isSpace
    rw [classify, List.map_append, classifyFrom_append .between notHash]
    rw [stateBehind] at isBetween
    rw [isBetween]
    rfl

theorem classify_blanks {run : Bytes} (blank : ∀ byte ∈ run, ByteRole.of byte = .blank) :
    classify run = List.replicate run.length .space := by
  induction run with
  | nil => rfl
  | cons byte run inductionHypothesis =>
      obtain ⟨isBlank, restBlank⟩ := List.forall_mem_cons.mp blank
      rw [List.length_cons, List.replicate_succ, ← inductionHypothesis restBlank]
      simp only [classify, List.map_cons, isBlank, classifyFrom]
      rfl

theorem classify_append_blanks_append {left : Bytes}
    (apart : left = [] ∨ (classify left).getLast? = some .space) {run : Bytes}
    (blank : ∀ byte ∈ run, ByteRole.of byte = .blank) (right : Bytes) :
    classify (left ++ (run ++ right)) =
      classify left ++ (List.replicate run.length .space ++ classify right) := by
  have alone := classify_blanks blank
  have runApart : run = [] ∨ (classify run).getLast? = some .space := by
    rw [alone, List.getLast?_replicate]
    cases run with
    | nil => exact .inl rfl
    | cons byte run => exact .inr rfl
  rw [classify_append_of_space apart, classify_append_of_space runApart, alone]

/-- Where the first of two texts is empty or ends with white space between tokens, the
classes of both together are those of the one and then those of the other, for the
snapshot and for the cursor pass.  A run of spaces and tabs between the two, and any
number of spaces in its place, are white space, and no other byte gets another class. -/
theorem classes_append_of_space (left right : String)
    (apart : left = "" ∨ (Source.ofString left).classes.getLast? = some .space) :
    (Source.ofString (left ++ right)).classes =
        (Source.ofString left).classes ++ (Source.ofString right).classes ∧
      (∃ leftClasses rightClasses,
        (⟨0⟩ : Cursor (encode left)).classify = .ok leftClasses ∧
        (⟨0⟩ : Cursor (encode right)).classify = .ok rightClasses ∧
        (⟨0⟩ : Cursor (encode (left ++ right))).classify = .ok (leftClasses ++ rightClasses)) ∧
      ∀ (run : Bytes) (width : Nat), (∀ byte ∈ run, byte = space ∨ byte = tab) →
        (Source.ofBytes (encode left ++ (run ++ encode right))).classes =
            (Source.ofString left).classes ++
              (List.replicate run.length .space ++ (Source.ofString right).classes) ∧
          (Source.ofBytes (encode left ++ (spaces width ++ encode right))).classes =
            (Source.ofString left).classes ++
              (List.replicate width .space ++ (Source.ofString right).classes) := by
  have isApart : encode left = [] ∨ (classify (encode left)).getLast? = some .space := by
    refine apart.imp_left ?_
    rintro rfl
    rfl
  have together : (Source.ofString (left ++ right)).classes =
      (Source.ofString left).classes ++ (Source.ofString right).classes := by
    simp only [Source.ofString, Source.classes_ofBytes, encode_append]
    exact classify_append_of_space isApart (encode right)
  refine ⟨together, ⟨_, _, Source.classify_cursor left, Source.classify_cursor right, ?_⟩, ?_⟩
  · rw [Source.classify_cursor, together]
  · intro run width isRun
    have blank : ∀ byte ∈ run, ByteRole.of byte = .blank := by
      intro byte member
      rcases isRun byte member with rfl | rfl <;> rfl
    have blankSpaces : ∀ byte ∈ spaces width, ByteRole.of byte = .blank := by
      intro byte member
      rw [List.eq_of_mem_replicate member]
      rfl
    have newSpaces := classify_append_blanks_append isApart blankSpaces (encode right)
    rw [length_spaces] at newSpaces
    exact ⟨classify_append_blanks_append isApart blank (encode right), newSpaces⟩

/-- Behind a line comment, a quoting mark with a tab and a space in front of it, and
without them. -/
theorem classes_append_of_space_at_line :
    (Source.ofString "(f ;|\n").classes.getLast? = some .space ∧
      (Source.ofString "(f ;|\n'x)").classes =
        (Source.ofString "(f ;|\n").classes ++ (Source.ofString "'x)").classes ∧
      (Source.ofString "(f ;|\n\t 'x)").classes =
        (Source.ofString "(f ;|\n").classes ++
          ([.space, .space] ++ (Source.ofString "'x)").classes) := by
  have isSpace : (Source.ofString "(f ;|\n").classes.getLast? = some .space := by decide +kernel
  obtain ⟨together, _, blanks⟩ := classes_append_of_space "(f ;|\n" "'x)" (.inr isSpace)
  have isText : "(f ;|\n" ++ "'x)" = "(f ;|\n'x)" := by decide +kernel
  have isIndented : encode "(f ;|\n" ++ ([tab, space] ++ encode "'x)") =
      encode "(f ;|\n\t 'x)" := by
    decide +kernel
  have isRun : ∀ byte ∈ [tab, space], byte = space ∨ byte = tab := by
    intro byte member
    rcases List.mem_cons.mp member with rfl | isSpace
    · exact .inr rfl
    · exact .inl (List.mem_singleton.mp isSpace)
  have indented := (blanks [tab, space] 0 isRun).1
  rw [isText] at together
  rw [isIndented] at indented
  exact ⟨isSpace, together, indented⟩

end SchemeLayout
