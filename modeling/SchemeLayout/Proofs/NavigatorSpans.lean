import SchemeLayout.Proofs.Characters
import SchemeLayout.Proofs.ScanSafety
import SchemeLayout.Proofs.FormTree

/-!
The spans that a navigator remembers.

Every move answers without a fault, whatever the text and the offset are.  The span
stays within the text, a move that finds nothing leaves it alone, and a form that is
read lies on the side that the move looks at.

The ends of a span never lie inside an atom, a string or a comment, except where
the move itself starts inside one.  A character lies in one token as a whole, so a
move from a boundary between two characters finds a span between two boundaries.
-/

set_option autoImplicit false

namespace SchemeLayout

/-! ## Positions inside a token -/

/-- The position lies inside an atom, a string or a comment. -/
def CutsRun (classes : List ByteClass) (pos : Nat) : Prop :=
  cutsToken classes pos = true ∨
    (classes.take pos).getLast? = some .comment ∧ (classes.drop pos).head? = some .comment

section CutsRun

variable {classes : List ByteClass} {pos : Nat} {cls : ByteClass}

theorem not_cutsRun_of_last (isLast : (classes.take pos).getLast? = some cls)
    (significant : cls.isTrivia = false)
    (apart : joined (some cls) (classes.drop pos).head? = false) : ¬ CutsRun classes pos := by
  rintro (cut | ⟨isComment, _⟩)
  · rw [cutsToken, isLast, apart] at cut
    contradiction
  · rw [isLast, Option.some.injEq] at isComment
    subst isComment
    contradiction

theorem not_cutsRun_of_first (isFirst : (classes.drop pos).head? = some cls)
    (significant : cls.isTrivia = false)
    (apart : joined (classes.take pos).getLast? (some cls) = false) : ¬ CutsRun classes pos := by
  rintro (cut | ⟨_, isComment⟩)
  · rw [cutsToken, isFirst, apart] at cut
    contradiction
  · rw [isFirst, Option.some.injEq] at isComment
    subst isComment
    contradiction

theorem not_cutsRun_of_length_le (beyond : classes.length ≤ pos) : ¬ CutsRun classes pos := by
  have nothing : (classes.drop pos).head? = none := by rw [List.drop_of_length_le beyond]; rfl
  rintro (cut | ⟨_, isComment⟩)
  · rw [cutsToken, nothing, joined_none_right] at cut
    contradiction
  · rw [nothing] at isComment
    contradiction

theorem not_cutsRun_of_bracket (isBracket : cls = .opening ∨ cls = .closing)
    (isClass : classes[pos]? = some cls) :
    ¬ CutsRun classes pos ∧ ¬ CutsRun classes (pos + 1) := by
  have significant : cls.isTrivia = false := by rcases isBracket with rfl | rfl <;> rfl
  constructor
  · refine not_cutsRun_of_first ?_ significant (joined_of_bracket isBracket _).2
    rw [List.head?_drop, isClass]
  · refine not_cutsRun_of_last ?_ significant (joined_of_bracket isBracket _).1
    rw [List.getLast?_take, if_neg (Nat.succ_ne_zero pos), Nat.add_sub_cancel, isClass]
    rfl

end CutsRun

/-! ## The ends of a form -/

/-- A form, unless it takes all that is behind it, ends with a class of its own that
no token goes on from. -/
theorem ReadsForward.exists_last {rest : List ByteClass} {reading : Reading}
    (reads : ReadsForward rest reading) :
    reading.size = rest.length ∨
      ∃ inside cls, rest.take reading.size = inside ++ [cls] ∧ cls.isTrivia = false ∧
        joined (some cls) (rest.drop reading.size).head? = false := by
  cases reads with
  | @datum gap lead body after shape trivia marks datum apart =>
      right
      rw [Reading.size, take_parts, drop_parts]
      obtain ⟨inside, cls, rfl, notLead, _⟩ := datum.exists_concat
      rw [List.getLast?_concat] at apart
      refine ⟨gap ++ (lead ++ inside), cls, by simp, ?_, apart⟩
      cases cls <;> first | rfl | contradiction
  | @unclosed gap lead inner trivia marks unclosed =>
      left
      simp only [Reading.size, List.length_append, List.length_cons]
      omega
  | @dangling gap marks after trivia isMarks last atEnd =>
      right
      have passed := take_parts gap [] marks after
      obtain ⟨inside, rfl⟩ := List.getLast?_eq_some_iff.mp last
      exact ⟨gap ++ inside, .prefixMark, by simpa [Reading.size] using passed, rfl,
        joined_of_isLead_left rfl _⟩

/-- Behind a form, in front of the trivia that the move has passed, stands a class of
its own. -/
theorem ReadsBackward.exists_last {passed : List ByteClass} {reading : Reading}
    (reads : ReadsBackward passed reading) :
    ∃ front cls gap, passed = (front ++ [cls]) ++ gap ∧ cls.isTrivia = false ∧ AllTrivia gap ∧
      gap.length = reading.gap := by
  cases reads with
  | @datum front lead body gap shape trivia marks datum unmarked apart =>
      obtain ⟨inside, cls, rfl, notLead, _⟩ := datum.exists_concat
      refine ⟨front ++ (lead ++ inside), cls, gap, by simp, ?_, trivia, rfl⟩
      cases cls <;> first | rfl | contradiction
  | @unopened inner gap trivia unopened => exact ⟨inner, .closing, gap, by simp, rfl, trivia, rfl⟩
  | @dangling front marks gap trivia isMarks last unmarked =>
      obtain ⟨inside, rfl⟩ := List.getLast?_eq_some_iff.mp last
      exact ⟨front ++ inside, .prefixMark, gap, by simp, rfl, trivia, rfl⟩

section Ends

variable {classes : List ByteClass} {pos : Nat} {form : Form}

theorem not_cutsRun_stop_forward (found : formForward classes pos = some form) :
    ¬ CutsRun classes form.stop := by
  obtain ⟨reading, reads, rfl⟩ := exists_readsForward found
  have bounds := formForward_bounds found
  rw [Reading.stop_formAfter] at bounds ⊢
  rcases reads.exists_last with whole | ⟨inside, cls, isPassed, significant, apart⟩
  · refine not_cutsRun_of_length_le ?_
    rw [List.length_drop] at whole
    omega
  · rw [List.drop_drop] at apart
    refine not_cutsRun_of_last ?_ significant apart
    rw [List.take_add, isPassed, ← List.append_assoc, List.getLast?_concat]

/-- A form read forward starts at the position itself, or outside all tokens. -/
theorem not_cutsRun_start_forward (found : formForward classes pos = some form) :
    form.start = pos ∨ ¬ CutsRun classes form.start := by
  obtain ⟨reading, reads, rfl⟩ := exists_readsForward found
  have read := readForward_eq_some_iff.mpr reads
  have bounds := readForward_bounds read
  rw [Reading.size] at bounds
  show pos + reading.gap = pos ∨ ¬ CutsRun classes (pos + reading.gap)
  rcases Nat.eq_zero_or_pos reading.gap with noGap | someGap
  · exact .inl (by omega)
  · right
    have inside : reading.gap < (classes.drop pos).length := by omega
    obtain ⟨cls, isFirst⟩ : ∃ cls, ((classes.drop pos).drop reading.gap).head? = some cls :=
      ⟨_, by rw [List.head?_drop, List.getElem?_eq_getElem inside]⟩
    have significant : cls.isTrivia = false :=
      unwanted_after_run (gap_of_readForward read ▸ isFirst)
    rw [List.drop_drop] at isFirst
    refine not_cutsRun_of_first isFirst significant ?_
    -- The class in front of the form is the last of the trivia that the move has passed.
    have isLast : (classes.take (pos + reading.gap)).getLast? =
        ((classes.drop pos).take reading.gap).getLast? := by
      rw [List.take_add, List.getLast?_append, Option.or_of_isSome]
      rw [List.getLast?_isSome, ← List.length_pos_iff, List.length_take]
      omega
    rw [isLast]
    cases last : ((classes.drop pos).take reading.gap).getLast? with
    | none => rfl
    | some cls =>
        exact joined_of_isLead_left (reads.allTrivia_gap.isLead cls (List.mem_of_getLast? last)) _

theorem exists_readsBackward (found : formBackward classes pos = some form) :
    ∃ reading, ReadsBackward (classes.take pos) reading ∧
      form = reading.formBefore (classes.take pos).length := by
  obtain ⟨reading, read, rfl⟩ := Option.map_eq_some_iff.mp found
  rw [before_eq] at read
  exact ⟨reading, readBackward_reverse_eq_some_iff.mp read, by rw [List.length_take]⟩

theorem not_cutsRun_start_backward (found : formBackward classes pos = some form) :
    ¬ CutsRun classes form.start := by
  obtain ⟨reading, reads, rfl⟩ := exists_readsBackward found
  rw [Reading.start_formBefore]
  rcases reads.exists_first with whole | ⟨front, cls, rest, split, isStart, significant, apart⟩
  · rw [whole, Nat.sub_self]
    rintro (cut | ⟨isComment, _⟩)
    · rw [cutsToken, List.take_zero, List.getLast?_nil, joined_none_left] at cut
      contradiction
    · contradiction
  · rw [isStart]
    have isFirst : (classes.drop front.length).head? = some cls := by
      rw [drop_of_take_eq split]
      rfl
    exact not_cutsRun_of_first isFirst significant (by rwa [take_of_take_eq split])

/-- A form read backward ends at the position itself, or outside all tokens. -/
theorem not_cutsRun_stop_backward (found : formBackward classes pos = some form) :
    form.stop = pos ∨ ¬ CutsRun classes form.stop := by
  obtain ⟨reading, reads, rfl⟩ := exists_readsBackward found
  obtain ⟨front, cls, gap, split, significant, trivia, length⟩ := reads.exists_last
  have stop : (reading.formBefore (classes.take pos).length).stop = (front ++ [cls]).length := by
    show (classes.take pos).length - reading.gap = _
    rw [split, List.length_append, ← length, Nat.add_sub_cancel]
  rw [stop]
  have isLast : (classes.take (front ++ [cls]).length).getLast? = some cls := by
    rw [take_of_take_eq split, List.getLast?_concat]
  cases gap with
  | nil =>
      rw [List.append_nil] at split
      rcases Nat.le_total pos classes.length with within | beyond
      · left
        rw [← split, List.length_take, Nat.min_eq_left within]
      · right
        refine not_cutsRun_of_length_le (Nat.le_of_eq ?_)
        rw [← split, List.length_take, Nat.min_eq_right beyond]
  | cons blank gap =>
      right
      refine not_cutsRun_of_last isLast significant ?_
      rw [drop_of_take_eq split]
      have isTrivia := trivia blank (by simp)
      cases cls <;> cases blank <;> first | rfl | contradiction

end Ends

/-! ## Boundaries between characters -/

/-- The offset lies between two characters, or at an end of the text. -/
def IsBoundary (text : String) (offset : Nat) : Prop :=
  ∃ front back, text = front ++ back ∧ (encode front).length = offset

/-- An offset lies between two characters or inside one. -/
theorem boundary_or_inside {chars : List Char} {offset : Nat} (within : offset ≤ byteLength chars) :
    (∃ front back, chars = front ++ back ∧ byteLength front = offset) ∨
      ∃ front char back, chars = front ++ char :: back ∧ byteLength front < offset ∧
        offset < byteLength front + char.utf8Size := by
  induction chars generalizing offset with
  | nil => exact .inl ⟨[], [], rfl, (Nat.le_zero.mp within).symm⟩
  | cons char rest inductionHypothesis =>
      rw [byteLength_cons] at within
      rcases Nat.lt_or_ge offset char.utf8Size with inFirst | behind
      · rcases Nat.eq_zero_or_pos offset with rfl | positive
        · exact .inl ⟨[], char :: rest, rfl, rfl⟩
        · exact .inr ⟨[], char, rest, rfl, positive, by simpa using inFirst⟩
      · have later := inductionHypothesis (show offset - char.utf8Size ≤ byteLength rest by omega)
        rcases later with ⟨front, back, rfl, length⟩ | ⟨front, inner, back, rfl, isAfter, isBefore⟩
        · refine .inl ⟨char :: front, back, rfl, ?_⟩
          rw [byteLength_cons]
          omega
        · refine .inr ⟨char :: front, inner, back, rfl, ?_, ?_⟩ <;>
            rw [byteLength_cons] <;> omega

theorem LexState.step_ordinary_cases (state : LexState) (next : Option ByteRole) :
    (state.step .ordinary next).1 = .atom ∨ (state.step .ordinary next).1 = .stringRest ∨
      (state.step .ordinary next).1 = .comment := by
  cases state <;> simp [step, stepBetween, stepAtom, ByteRole.endsAtom]

/-- Inside a character one token goes on. -/
theorem cutsRun_of_inside {text : String} {front back : List Char} {char : Char} {offset : Nat}
    (split : text.toList = front ++ char :: back) (isAfter : byteLength front < offset)
    (isBefore : offset < byteLength front + char.utf8Size) :
    CutsRun (classify (encode text)) offset := by
  obtain ⟨passed, reached, length, whole, _⟩ :=
    exists_classifyFrom_append .between (rolesOf front) (rolesOf (char :: back))
  rw [length_rolesOf] at length
  have ordinary := (utf8Size_eq_one_or_ordinary char).resolve_left (by omega)
  obtain ⟨count, rfl⟩ : ∃ count, offset = passed.length + (count + 1) :=
    ⟨offset - passed.length - 1, by omega⟩
  obtain ⟨more, size⟩ : ∃ more, char.utf8Size = (count + 1) + (more + 1) :=
    ⟨char.utf8Size - (count + 1) - 1, by omega⟩
  have cases := reached.step_ordinary_cases (back.head?.map .ofChar)
  rw [classifyFrom_char, ordinary, size, ← List.replicate_append_replicate, List.append_assoc,
    ← List.append_assoc, ← rolesOf_append, ← split, ← classify_encode] at whole
  generalize (reached.step .ordinary (back.head?.map .ofChar)).1 = cls at whole cases
  have middle : (passed ++ List.replicate (count + 1) cls).length = passed.length + (count + 1) := by
    simp
  have isLast :
      ((classify (encode text)).take (passed.length + (count + 1))).getLast? = some cls := by
    rw [whole, List.take_left' middle, List.replicate_succ', ← List.append_assoc,
      List.getLast?_concat]
  have isNext : ((classify (encode text)).drop (passed.length + (count + 1))).head? = some cls := by
    rw [whole, List.drop_left' middle, List.replicate_succ]
    rfl
  rw [CutsRun, cutsToken, isLast, isNext]
  rcases cases with rfl | rfl | rfl
  · exact .inl rfl
  · exact .inl rfl
  · exact .inr ⟨rfl, rfl⟩

theorem isBoundary_of_not_cutsRun {text : String} {offset : Nat}
    (within : offset ≤ (encode text).length) (uncut : ¬ CutsRun (classify (encode text)) offset) :
    IsBoundary text offset := by
  rw [length_encode] at within
  rcases boundary_or_inside within with
    ⟨front, back, split, length⟩ | ⟨front, char, back, split, isAfter, isBefore⟩
  · refine ⟨.ofList front, .ofList back, ?_, ?_⟩
    · rw [← String.ofList_append, ← split, String.ofList_toList]
    · rw [length_encode, String.toList_ofList, length]
  · exact absurd (cutsRun_of_inside split isAfter isBefore) uncut

/-- Of two fronts of a text the longer one starts with the shorter one. -/
theorem exists_append_of_length_le {front rest passed back : String}
    (split : front ++ rest = passed ++ back)
    (ordered : (encode front).length ≤ (encode passed).length) :
    ∃ middle, passed = front ++ middle ∧ rest = middle ++ back := by
  have chars := congrArg String.toList split
  rw [String.toList_append, String.toList_append, List.append_eq_append_iff] at chars
  rcases chars with ⟨middle, isPassed, isRest⟩ | ⟨middle, isFront, isBack⟩
  · refine ⟨.ofList middle, ?_, ?_⟩ <;>
      rw [← String.toList_inj, String.toList_append, String.toList_ofList] <;> assumption
  · rw [length_encode, length_encode, isFront, byteLength_append] at ordered
    obtain rfl := eq_nil_of_byteLength (show byteLength middle = 0 by omega)
    rw [List.append_nil, String.toList_inj] at isFront
    rw [List.nil_append, String.toList_inj] at isBack
    exact ⟨"", by rw [isFront, String.append_empty], by rw [isBack, String.empty_append]⟩

/-- Between two boundaries a slice is the text that stands there. -/
theorem exists_slice_of_boundaries {text : String} {start stop : Nat}
    (isStart : IsBoundary text start) (isStop : IsBoundary text stop) (ordered : start ≤ stop) :
    ∃ front back, text = front ++ ((Source.ofString text).slice start stop ++ back) ∧
      (encode front).length = start ∧
      (encode (front ++ (Source.ofString text).slice start stop)).length = stop := by
  obtain ⟨front, rest, rfl, rfl⟩ := isStart
  obtain ⟨passed, back, split, rfl⟩ := isStop
  obtain ⟨middle, rfl, rfl⟩ := exists_append_of_length_le split ordered
  have isSlice : (Source.ofString (front ++ (middle ++ back))).slice (encode front).length
      (encode (front ++ middle)).length = middle := by
    rw [Source.slice, Source.range, Source.ofString, Source.bytes_ofBytes, encode_append,
      encode_append, encode_append, List.drop_left, List.length_append, Nat.add_sub_cancel_left,
      List.take_left, decode_encode]
  exact ⟨front, back, by rw [isSlice], rfl, by rw [isSlice]⟩

/-! ## Moves -/

namespace Navigator

variable {source : Source} {direction : Move} {offset : Nat} {span : FormSpan}

theorem locate_backward_eq :
    locate source offset .backward = .ok (some span) ↔
      ∃ form, formBackward source.classes offset = some form ∧ source.spanOf form = span := by
  simp [locate, Source.formBefore?]

theorem locate_up_eq :
    locate source offset .up = .ok (some span) ↔
      ∃ opening, openBackward source.classes offset 0 = some opening ∧
        ⟨opening, (closeForward source.classes (opening + 1) 0).getD source.length, .list⟩ = span := by
  simp [locate, Source.enclosing?]

/-- What a move finds lies within the text. -/
theorem locate_bounds (located : locate source offset direction = .ok (some span)) :
    span.start ≤ span.stop ∧ span.stop ≤ source.length := by
  have length := source.length_classes
  cases direction with
  | forward =>
      obtain ⟨form, found, rfl⟩ := locate_forward_eq.mp located
      have bounds := formForward_bounds found
      simp only [Source.start_spanOf, Source.stop_spanOf]
      omega
  | backward =>
      obtain ⟨form, found, rfl⟩ := locate_backward_eq.mp located
      have bounds := formBackward_bounds found
      simp only [Source.start_spanOf, Source.stop_spanOf]
      omega
  | up =>
      obtain ⟨opening, found, rfl⟩ := locate_up_eq.mp located
      have bounds := openBackward_lt found
      cases closed : closeForward source.classes (opening + 1) 0 with
      | none =>
          simp only [Option.getD_none]
          omega
      | some stop =>
          have closing := closeForward_bounds closed
          simp only [Option.getD_some]
          omega
  | down =>
      obtain ⟨form, found, _, rfl⟩ := locate_down_eq.mp located
      have bounds := formForward_bounds found
      cases closed : closeForward source.classes (form.body + 1) 0 with
      | none =>
          simp only [Option.map_none, Option.getD_none]
          omega
      | some stop =>
          have closing := closeForward_bounds closed
          simp only [Option.map_some, Option.getD_some]
          omega

/-- The bracket that closes a list stands in front of the end of the list. -/
theorem getElem?_of_closeForward {classes : List ByteClass} {pos stop : Nat}
    (closed : closeForward classes pos 0 = some stop) : classes[stop - 1]? = some .closing := by
  obtain ⟨inner, rest, split, _, rfl⟩ := closeForward_eq_some_iff.mp closed
  have isClosing : (classes.drop pos)[inner.length]? = some .closing := by simp [split]
  rwa [List.getElem?_drop] at isClosing

theorem getElem?_body_of_list {classes : List ByteClass} {pos : Nat} {form : Form}
    (found : formForward classes pos = some form) (isList : form.shape = .list) :
    classes[form.body]? = some .opening := by
  obtain ⟨reading, reads, rfl⟩ := exists_readsForward found
  obtain ⟨front, inner, split, length⟩ := reads.opening_of_list isList
  have isOpening : (classes.drop pos)[front.length]? = some .opening := by simp [split]
  rwa [List.getElem?_drop, length, ← Nat.add_assoc] at isOpening

/-- The ends of what a move finds lie outside all tokens, except where the move starts
inside one. -/
theorem locate_uncut (located : locate source offset direction = .ok (some span)) :
    (span.start = offset ∨ ¬ CutsRun source.classes span.start) ∧
      (span.stop = offset ∨ ¬ CutsRun source.classes span.stop) := by
  cases direction with
  | forward =>
      obtain ⟨form, found, rfl⟩ := locate_forward_eq.mp located
      exact ⟨not_cutsRun_start_forward found, .inr (not_cutsRun_stop_forward found)⟩
  | backward =>
      obtain ⟨form, found, rfl⟩ := locate_backward_eq.mp located
      exact ⟨.inr (not_cutsRun_start_backward found), not_cutsRun_stop_backward found⟩
  | up =>
      obtain ⟨opening, found, rfl⟩ := locate_up_eq.mp located
      refine ⟨.inr (not_cutsRun_of_bracket (.inl rfl) (getElem?_of_openBackward found)).1, .inr ?_⟩
      cases closed : closeForward source.classes (opening + 1) 0 with
      | none => exact not_cutsRun_of_length_le (by simp)
      | some stop =>
          have bounds := closeForward_bounds closed
          have behind := (not_cutsRun_of_bracket (.inr rfl) (getElem?_of_closeForward closed)).2
          rwa [Nat.sub_add_cancel (by omega)] at behind
  | down =>
      obtain ⟨form, found, isList, rfl⟩ := locate_down_eq.mp located
      refine ⟨.inr (not_cutsRun_of_bracket (.inl rfl) (getElem?_body_of_list found isList)).2,
        .inr ?_⟩
      cases closed : closeForward source.classes (form.body + 1) 0 with
      | none => exact not_cutsRun_of_length_le (by simp)
      | some stop => exact (not_cutsRun_of_bracket (.inr rfl) (getElem?_of_closeForward closed)).1

/-- A move finds a span and remembers it, or it leaves the navigator alone. -/
theorem move_cases (navigator : Navigator) (direction : Move) (offset : Nat) :
    (∃ span, locate navigator.source offset direction = .ok (some span) ∧
      navigator.move direction offset = (.ok true, { navigator with span := span })) ∨
    ((navigator.move direction offset).1 ≠ .ok true ∧
      (navigator.move direction offset).2 = navigator) := by
  unfold move settle
  split
  next span located => exact .inl ⟨span, located, rfl⟩
  next => exact .inr ⟨by simp, rfl⟩
  next => exact .inr ⟨by simp, rfl⟩

theorem move_eq_true_iff {navigator later : Navigator} :
    navigator.move direction offset = (.ok true, later) ↔
      ∃ span, locate navigator.source offset direction = .ok (some span) ∧
        later = { navigator with span := span } := by
  unfold move settle
  split
  next span located => simp [located, eq_comm]
  next located => simp [located]
  next located => simp [located]

/-- The navigator behind some moves. -/
def run (navigator : Navigator) (moves : List (Move × Nat)) : Navigator :=
  moves.foldl (fun current step => (current.move step.1 step.2).2) navigator

/-- The span lies within the text. -/
structure InText (navigator : Navigator) : Prop where
  ordered : navigator.span.start ≤ navigator.span.stop
  within : navigator.span.stop ≤ navigator.source.length

theorem InText.move {navigator : Navigator} (inText : navigator.InText) (direction : Move)
    (offset : Nat) : (navigator.move direction offset).2.InText := by
  rcases navigator.move_cases direction offset with ⟨span, located, moved⟩ | ⟨_, same⟩
  · have bounds := locate_bounds located
    rw [moved]
    exact ⟨bounds.1, bounds.2⟩
  · rwa [same]

theorem InText.run {navigator : Navigator} (inText : navigator.InText)
    (moves : List (Move × Nat)) : (navigator.run moves).InText := by
  induction moves generalizing navigator with
  | nil => exact inText
  | cons step moves inductionHypothesis => exact inductionHypothesis (inText.move step.1 step.2)

@[simp] theorem source_run (navigator : Navigator) (moves : List (Move × Nat)) :
    (navigator.run moves).source = navigator.source := by
  induction moves generalizing navigator with
  | nil => rfl
  | cons step moves inductionHypothesis =>
      exact (inductionHypothesis _).trans (source_move navigator step.1 step.2)

theorem lt_stop_of_forward (located : locate source offset .forward = .ok (some span)) :
    offset < span.stop := by
  obtain ⟨form, found, rfl⟩ := locate_forward_eq.mp located
  have bounds := formForward_bounds found
  rw [Source.stop_spanOf]
  omega

theorem start_lt_of_backward (located : locate source offset .backward = .ok (some span)) :
    span.start < offset := by
  obtain ⟨form, found, rfl⟩ := locate_backward_eq.mp located
  have bounds := formBackward_bounds found
  rw [Source.start_spanOf]
  omega

/-- A move from a boundary, or from behind the text, finds a span between two
boundaries. -/
theorem locate_boundaries {text : String}
    (located : locate (.ofString text) offset direction = .ok (some span))
    (isBoundary : IsBoundary text offset ∨ (encode text).length < offset) :
    IsBoundary text span.start ∧ IsBoundary text span.stop := by
  have bounds : span.start ≤ span.stop ∧ span.stop ≤ (encode text).length := locate_bounds located
  have isEnd {pos : Nat} (within : pos ≤ (encode text).length)
      (uncut : pos = offset ∨ ¬ CutsRun (classify (encode text)) pos) : IsBoundary text pos := by
    rcases uncut with rfl | uncut
    · exact isBoundary.resolve_right (Nat.not_lt.mpr within)
    · exact isBoundary_of_not_cutsRun within uncut
  obtain ⟨uncutStart, uncutStop⟩ := locate_uncut located
  exact ⟨isEnd (by omega) uncutStart, isEnd bounds.2 uncutStop⟩

/-- A run over a text within the limit makes no fault. -/
theorem runChecked_eq {navigator : Navigator} (inLimit : navigator.source.length ≤ maxLength)
    (moves : List (Move × Nat)) : navigator.runChecked moves = .ok (navigator.run moves) := by
  induction moves generalizing navigator with
  | nil => rfl
  | cons step moves inductionHypothesis =>
      rw [runChecked, moveChecked_eq inLimit]
      exact inductionHypothesis (by rwa [source_move])

/-- Whatever moves have been made over a text that a snapshot holds, neither they nor the
next one make a fault.  The span lies within the text afterwards, and it is the span
from before unless a form has been found.  A form found forward ends behind the
offset, one found backward starts in front of it.  From a boundary, or from behind the
text, the span found lies between two boundaries, and its text is what stands between
them. -/
theorem span_move_run (text : String) (moves : List (Move × Nat)) (direction : Move)
    (offset : Nat) :
    let earlier := Navigator.run { source := .ofString text } moves
    let answer := (earlier.move direction offset).1
    let later := (earlier.move direction offset).2
    ((encode text).length ≤ maxLength →
      Navigator.runChecked { source := .ofString text } moves = .ok earlier ∧
        earlier.moveChecked direction offset = .ok (answer, later)) ∧
    later.span.start ≤ later.span.stop ∧ later.span.stop ≤ (encode text).length ∧
    (answer ≠ .ok true → later.span = earlier.span) ∧
    (answer = .ok true → direction = .forward → offset < later.span.stop) ∧
    (answer = .ok true → direction = .backward → later.span.start < offset) ∧
    (answer = .ok true → IsBoundary text offset ∨ (encode text).length < offset →
      IsBoundary text later.span.start ∧ IsBoundary text later.span.stop ∧
      ∃ front back, text = front ++ (later.text ++ back) ∧
        (encode front).length = later.span.start ∧
        (encode (front ++ later.text)).length = later.span.stop) := by
  intro earlier answer later
  have start : InText { source := .ofString text } := ⟨Nat.le_refl 0, Nat.zero_le _⟩
  have isSource : earlier.source = .ofString text := source_run _ moves
  have sameSource : later.source = .ofString text := (source_move ..).trans isSource
  have inText : later.InText := (start.run moves).move direction offset
  have within := inText.within
  rw [sameSource] at within
  have found (succeeds : answer = .ok true) :
      locate (.ofString text) offset direction = .ok (some later.span) := by
    rcases earlier.move_cases direction offset with ⟨span, located, moved⟩ | ⟨fails, _⟩
    · rw [isSource] at located
      rw [located, show later = { earlier with span := span } from congrArg Prod.snd moved]
    · exact absurd succeeds fails
  refine ⟨?_, inText.ordered, within, ?_, ?_, ?_, ?_⟩
  · intro inLimit
    have inSnapshot : (Source.ofString text).length ≤ maxLength := inLimit
    exact ⟨runChecked_eq inSnapshot moves, moveChecked_eq (by rwa [isSource]) direction offset⟩
  · intro fails
    rcases earlier.move_cases direction offset with ⟨span, _, moved⟩ | ⟨_, same⟩
    · exact absurd (congrArg Prod.fst moved) fails
    · exact congrArg Navigator.span same
  · rintro succeeds rfl
    exact lt_stop_of_forward (found succeeds)
  · rintro succeeds rfl
    exact start_lt_of_backward (found succeeds)
  · intro succeeds isBoundary
    obtain ⟨isStart, isStop⟩ := locate_boundaries (found succeeds) isBoundary
    have isText : later.text = (Source.ofString text).slice later.span.start later.span.stop := by
      rw [Navigator.text, sameSource]
    refine ⟨isStart, isStop, ?_⟩
    rw [isText]
    exact exists_slice_of_boundaries isStart isStop inText.ordered

/-- Two moves, the first from inside a character and the second from behind the text,
and then one back over a character of two bytes. -/
theorem span_move_run_over_wide_character :
    let earlier := Navigator.run { source := .ofString "(λ é)" } [(.up, 2), (.forward, 9)]
    let later := (earlier.move .backward 6).2
    earlier.moveChecked .backward 6 = .ok (.ok true, later) ∧
      earlier.span = ⟨0, 7, .list⟩ ∧ later.span = ⟨4, 6, .symbol⟩ ∧
      ∃ front back, "(λ é)" = front ++ (later.text ++ back) ∧ (encode front).length = 4 ∧
        (encode (front ++ later.text)).length = 6 := by
  have isSpan : ((Navigator.run { source := .ofString "(λ é)" } [(.up, 2), (.forward, 9)]).move
      .backward 6).2.span = ⟨4, 6, .symbol⟩ := by
    decide +kernel
  have facts := span_move_run "(λ é)" [(.up, 2), (.forward, 9)] .backward 6
  have safe := (facts.1 (by decide +kernel)).2
  have isText := (facts.2.2.2.2.2.2
    rfl (.inl ⟨"(λ é", ")", by decide +kernel, by decide +kernel⟩)).2.2
  simp only [isSpan] at isText
  exact ⟨safe, by decide +kernel, isSpan, isText⟩

end Navigator

end SchemeLayout
