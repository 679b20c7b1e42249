import SchemeLayout.Proofs.IndentationAbove

/-!
White space does not move the indentation.

A white byte is trivia, or it continues a string or an atom.  In both cases the
forms in front of it and behind it start at the same places, so the layout gives
both offsets the same column.
-/

set_option autoImplicit false

namespace SchemeLayout

/-! ## A token that goes on -/

/-- A token that goes on stays one datum. -/
theorem Datum.concat {shape : Shape} {body : List ByteClass} (datum : Datum shape body)
    {cls : ByteClass} (goesOn : joined body.getLast? (some cls) = true) :
    Datum shape (body ++ [cls]) := by
  rcases (datum.joined_getLast? (some cls)).mp goesOn with ⟨rfl, next⟩ | ⟨rfl, next⟩
  · cases next
    cases datum with
    | @string first count firstIs =>
        rw [List.cons_append, ← List.replicate_succ']
        exact .string firstIs
  · cases next
    cases datum with
    | @atom count =>
        rw [← List.replicate_succ']
        exact .atom

/-- Where the forms start whose last one has this body: the marks in front of the body
come before it. -/
theorem map_start_formsBehind_datum {shape : Shape} {before body : List ByteClass}
    (datum : Datum shape body) (apart : joined before.getLast? body.head? = false) :
    (formsBehind (before.length + body.length) (before ++ body).reverse).map Form.start =
      (before.length - markLength before.reverse) ::
        (formsBehind (before.length - markLength before.reverse)
          (before.reverse.drop (markLength before.reverse))).map Form.start := by
  have read := readBackward_of_datum allTrivia_nil datum apart
  rw [List.append_nil] at read
  have left : (before ++ body).reverse.drop (body.length + markLength before.reverse) =
      before.reverse.drop (markLength before.reverse) := by
    rw [List.reverse_append, ← List.drop_drop, List.drop_left' List.length_reverse]
  have start : before.length + body.length - (body.length + markLength before.reverse) =
      before.length - markLength before.reverse := by
    omega
  rw [formsBehind_of_some _ read, List.map_cons, Reading.start_formBefore, Reading.size,
    List.length_nil, Nat.zero_add, Nat.add_comm (markLength _), left, start]

/-- The last token in front of a place where it goes on is a datum. -/
theorem exists_datum_of_goesOn {front : List ByteClass} {cls : ByteClass}
    (goesOn : joined front.getLast? (some cls) = true) :
    ∃ shape before body, front = before ++ body ∧ Datum shape body ∧
      joined before.getLast? body.head? = false := by
  rcases List.eq_nil_or_concat front with rfl | ⟨rest, last, isFront⟩
  · contradiction
  · rw [List.concat_eq_append] at isFront
    subst isFront
    rw [List.getLast?_concat] at goesOn
    have significant : last.isLead = false ∧ last ≠ .opening ∧ last ≠ .closing := by
      cases last <;> cases cls <;> first | contradiction | decide
    rcases exists_datum_or_unopened significant.1 significant.2.1 rest with
      found | ⟨isClosing, _⟩
    · exact found
    · exact absurd isClosing significant.2.2

/-- A form that goes on behind its end starts where it started before. -/
theorem map_start_formsBehind_concat {front : List ByteClass} {cls : ByteClass}
    (goesOn : joined front.getLast? (some cls) = true) :
    (formsBehind (front.length + 1) (front ++ [cls]).reverse).map Form.start =
      (formsBehind front.length front.reverse).map Form.start := by
  obtain ⟨shape, before, body, rfl, datum, apart⟩ := exists_datum_of_goesOn goesOn
  obtain ⟨first, inside, isBody, _, _⟩ := datum.exists_cons
  have isLast : joined body.getLast? (some cls) = true := by
    rwa [List.getLast?_append, Option.or_of_isSome (by simp [isBody])] at goesOn
  have longerApart : joined before.getLast? (body ++ [cls]).head? = false := by
    simpa [isBody] using apart
  have longer := map_start_formsBehind_datum (datum.concat isLast) longerApart
  rw [List.length_append, List.length_singleton, ← Nat.add_assoc, ← List.append_assoc] at longer
  rw [List.length_append, longer, map_start_formsBehind_datum datum apart]

/-! ## Behind a white byte -/

section

variable {classes : List ByteClass} {pos : Nat} {cls : ByteClass}

theorem formsBefore_take :
    formsBefore classes pos = formsBehind (classes.take pos).length (classes.take pos).reverse := by
  rw [formsBefore, before_eq, List.length_take]

/-- Over trivia and over the rest of a token the forms start at the same places. -/
theorem map_start_formsBefore_succ (isClass : classes[pos]? = some cls)
    (continues : cls.isTrivia = true ∨ joined (classes.take pos).getLast? (some cls) = true) :
    (formsBefore classes (pos + 1)).map Form.start = (formsBefore classes pos).map Form.start := by
  obtain ⟨within, isClass⟩ := List.getElem?_eq_some_iff.mp isClass
  have longer : classes.take (pos + 1) = classes.take pos ++ [cls] := by
    rw [List.take_succ_eq_append_getElem within, isClass]
  rw [formsBefore_take, formsBefore_take, longer, List.length_append,
    List.length_singleton]
  rcases continues with isTrivia | goesOn
  · have trivia : AllTrivia [cls] := by simpa [AllTrivia] using isTrivia
    rw [List.reverse_append]
    exact congrArg (List.map Form.start) (formsBehind_trivia_append trivia _ _)
  · exact map_start_formsBehind_concat goesOn

theorem openBackward_succ (isClass : classes[pos]? = some cls) (notOpening : cls ≠ .opening)
    (notClosing : cls ≠ .closing) :
    openBackward classes (pos + 1) 0 = openBackward classes pos 0 := by
  obtain ⟨within, isClass⟩ := List.getElem?_eq_some_iff.mp isClass
  have longer : classes.take (pos + 1) = classes.take pos ++ [cls] := by
    rw [List.take_succ_eq_append_getElem within, isClass]
  have stepped := openBackward_of_balanced longer (.singleton notOpening notClosing)
  rwa [List.length_take, Nat.min_eq_left (Nat.le_of_lt within)] at stepped

end

namespace Source

variable {source : Source} {style : Style} {offset other : Nat}

/-- What an offset is aligned with depends on where the forms in front of it start, and on
the list around it. -/
theorem alignment?_eq_of_starts {table : PolicyTable}
    (starts : (formsBefore source.classes offset).map Form.start =
      (formsBefore source.classes other).map Form.start)
    (around : openBackward source.classes offset 0 = openBackward source.classes other 0) :
    source.alignment? table offset = source.alignment? table other := by
  have sameLength := congrArg List.length starts
  rw [List.length_map, List.length_map] at sameLength
  rw [formsBefore_eq source.classes offset, formsBefore_eq source.classes other] at starts
  cases isLast : formBackward source.classes offset with
  | none =>
      cases isOther : formBackward source.classes other with
      | none =>
          rw [alignment?_of_nothing table isLast, alignment?_of_nothing table isOther, around]
      | some last => simp [isLast, isOther] at starts
  | some last =>
      cases isOther : formBackward source.classes other with
      | none => simp [isLast, isOther] at starts
      | some otherLast =>
          simp only [isLast, isOther, List.map_cons, List.cons.injEq] at starts
          have sameAnchor : source.anchor offset = source.anchor other := by
            simp only [anchor, formBefore?, isLast, isOther, Option.map_some, start_spanOf,
              starts.1]
          simp only [alignment?, sameAnchor, policyAlignment, lt_countPreceding_iff, sameLength]

/-- A white byte does not move the indentation, wherever it stands. -/
theorem indentation_succ_of_isWhite {byte : UInt8} (found : source.bytes[offset]? = some byte)
    (white : (ByteRole.of byte).isWhite = true) :
    source.indentation style (offset + 1) = source.indentation style offset := by
  have within : offset < source.classes.length := by
    rw [length_classes]
    exact (List.getElem?_eq_some_iff.mp found).1
  have isClass := List.getElem?_eq_getElem within
  generalize source.classes[offset] = cls at isClass
  have continues : cls.isTrivia = true ∨
      joined (source.classes.take offset).getLast? (some cls) = true := by
    cases isTrivia : cls.isTrivia with
    | true => exact .inl rfl
    | false =>
        rw [source.classes_eq] at isClass ⊢
        exact .inr (joined_classify_of_isWhite found white isClass isTrivia)
  have noBracket : ¬ (cls = .opening ∨ cls = .closing) := by
    intro isBracket
    rcases continues with isTrivia | goesOn
    · rcases isBracket with rfl | rfl <;> contradiction
    · rw [(joined_of_bracket isBracket _).2] at goesOn
      contradiction
  rw [not_or] at noBracket
  rw [indentation, indentation,
    alignment?_eq_of_starts (map_start_formsBefore_succ isClass continues)
      (openBackward_succ isClass noBracket.1 noBracket.2)]

/-- Neither does a run of white bytes. -/
theorem indentation_of_allWhite {above white below : Bytes}
    (split : source.bytes = above ++ (white ++ below))
    (allWhite : ∀ byte ∈ white, (ByteRole.of byte).isWhite = true) :
    source.indentation style (above.length + white.length) =
      source.indentation style above.length := by
  induction white generalizing above with
  | nil => rfl
  | cons byte white inductionHypothesis =>
      rw [List.forall_mem_cons] at allWhite
      have found : source.bytes[above.length]? = some byte := by simp [split]
      have later : source.bytes = (above ++ [byte]) ++ (white ++ below) := by simp [split]
      have passed := inductionHypothesis later allWhite.2
      rw [List.length_append, List.length_singleton] at passed
      rw [List.length_cons, ← indentation_succ_of_isWhite found allWhite.1, ← passed, Nat.add_assoc,
        Nat.add_comm 1]

end Source

end SchemeLayout
