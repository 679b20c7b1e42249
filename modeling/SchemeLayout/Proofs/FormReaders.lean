import SchemeLayout.Proofs.FormGrammar

/-!
The readers of forms compute the grammar.

A body is decided by its first class when it is read forward and by its last
class when it is read backward.  Together with the runs around it this gives an
equivalence between each reader and its grammar.
-/

set_option autoImplicit false

namespace SchemeLayout

/-- Only a string can go on behind a string, and only an atom behind an atom. -/
theorem Datum.joined_getLast? {shape : Shape} {body : List ByteClass}
    (datum : Datum shape body) (next : Option ByteClass) :
    joined body.getLast? next = true ↔
      shape = .string ∧ next = some .stringRest ∨ shape = .atom ∧ next = some .atom := by
  have lastOf (rest : List ByteClass) {cls : ByteClass} (split : body = rest ++ [cls]) :
      joined body.getLast? next = joined (some cls) next := by
    rw [split, List.getLast?_concat]
  cases datum with
  | @list inner =>
      rw [lastOf (.opening :: inner) rfl]
      cases next with
      | none => simp
      | some next => cases next <;> simp [joined, ByteClass.joins]
  | @string first count firstIs =>
      have lastIs : ∃ rest cls, first :: List.replicate count .stringRest = rest ++ [cls] ∧
          (cls = .stringOpen ∨ cls = .stringRest) := by
        cases count with
        | zero => exact ⟨[], first, rfl, firstIs⟩
        | succ count =>
            exact ⟨first :: List.replicate count .stringRest, .stringRest,
              by rw [List.replicate_succ', List.cons_append], .inr rfl⟩
      obtain ⟨rest, cls, split, clsIs⟩ := lastIs
      rw [lastOf rest split]
      cases next with
      | none => simp
      | some next =>
          rcases clsIs with rfl | rfl <;> cases next <;> simp [joined, ByteClass.joins]
  | @atom count =>
      rw [lastOf (List.replicate count .atom) List.replicate_succ']
      cases next with
      | none => simp
      | some next => cases next <;> simp [joined, ByteClass.joins]

/-! ## Reading forward -/

theorem bodyForward_append {shape : Shape} {body rest : List ByteClass}
    (datum : Datum shape body) (apart : joined body.getLast? rest.head? = false) :
    bodyForward (body ++ rest) = (body.length, shape) := by
  have notJoined := mt (datum.joined_getLast? rest.head?).mpr (by simp [apart])
  cases datum with
  | @list inner balanced =>
      have matched : closeWithin 0 (inner ++ .closing :: rest) = some (inner.length + 1) :=
        closeWithin_eq_some_iff.mpr ⟨inner, rest, rfl, balanced, rfl⟩
      simp [bodyForward, matched]
  | @string first count firstIs =>
      have stop : runLength (· == .stringRest) rest = 0 := by
        refine runLength_eq_zero fun cls found => ?_
        cases cls <;> first | rfl | exact absurd (.inl ⟨rfl, found⟩) notJoined
      have run :
          runLength (· == .stringRest) (List.replicate count .stringRest ++ rest) = count := by
        rw [runLength_append (by simp), stop, List.length_replicate, Nat.add_zero]
      rcases firstIs with rfl | rfl <;> simp [bodyForward, run]
  | @atom count =>
      have stop : runLength (· == .atom) rest = 0 := by
        refine runLength_eq_zero fun cls found => ?_
        cases cls <;> first | rfl | exact absurd (.inr ⟨rfl, found⟩) notJoined
      have run : runLength (· == .atom) (List.replicate (count + 1) .atom ++ rest) = count + 1 := by
        rw [runLength_append (by simp), stop, List.length_replicate, Nat.add_zero]
      rw [List.replicate_succ, List.cons_append] at run ⊢
      simp [bodyForward, run]

theorem runLength_beq_eq {wanted : ByteClass} {run : List ByteClass}
    (inRun : ∀ cls ∈ run, (cls == wanted) = true) : run = List.replicate run.length wanted :=
  List.eq_replicate_of_mem fun cls member => by simpa using inRun cls member

/-- A significant class that closes nothing starts a body. -/
theorem exists_datum_or_unclosed {cls : ByteClass} (notLead : cls.isLead = false)
    (notClosing : cls ≠ .closing) (classes : List ByteClass) :
    (∃ shape body rest, cls :: classes = body ++ rest ∧ Datum shape body ∧
      joined body.getLast? rest.head? = false) ∨
    (cls = .opening ∧ closeWithin 0 classes = none) := by
  have apart {shape : Shape} {body rest : List ByteClass} (datum : Datum shape body)
      (stop : shape = .string ∧ rest.head? = some .stringRest ∨
        shape = .atom ∧ rest.head? = some .atom → False) :
      joined body.getLast? rest.head? = false := by
    rw [← Bool.not_eq_true, datum.joined_getLast?]
    exact stop
  cases cls with
  | space | comment | prefixMark => contradiction
  | closing => exact absurd rfl notClosing
  | opening =>
      cases matched : closeWithin 0 classes with
      | none => exact .inr ⟨rfl, rfl⟩
      | some count =>
          obtain ⟨inner, rest, rfl, balanced, _⟩ := closeWithin_eq_some_iff.mp matched
          exact .inl ⟨.list, .opening :: (inner ++ [.closing]), rest, by simp, .list balanced,
            apart (.list balanced) (by simp)⟩
  | stringOpen | stringRest =>
      obtain ⟨run, rest, rfl, inRun, stop⟩ := exists_run (· == .stringRest) classes
      rw [runLength_beq_eq inRun]
      refine .inl ⟨.string, _, rest, rfl, .string (by simp), apart (.string (by simp)) ?_⟩
      rintro (⟨_, found⟩ | ⟨impossible, _⟩)
      · exact absurd (stop _ found) (by decide)
      · contradiction
  | atom =>
      obtain ⟨run, rest, rfl, inRun, stop⟩ := exists_run (· == .atom) classes
      rw [runLength_beq_eq inRun, ← List.cons_append, ← List.replicate_succ]
      refine .inl ⟨.atom, _, rest, rfl, .atom, apart .atom ?_⟩
      rintro (⟨impossible, _⟩ | ⟨_, found⟩)
      · contradiction
      · exact absurd (stop _ found) (by decide)

/-- The reader forward, once trivia and lead have been split off. -/
theorem readForward_append {gap lead inner : List ByteClass} (trivia : AllTrivia gap)
    (marks : LeadMarks lead) (stop : ∀ cls ∈ inner.head?, cls.isLead = false) :
    readForward (gap ++ (lead ++ inner)) =
      match inner.head? with
      | none | some .closing =>
          if lead.length = 0 then none
          else some ⟨gap.length, 0, markLength (lead ++ inner), .danglingPrefix⟩
      | some _ => some ⟨gap.length, lead.length, (bodyForward inner).1, (bodyForward inner).2⟩ := by
  have noTrivia : ∀ cls ∈ (lead ++ inner).head?, cls.isTrivia = false := by
    intro cls found
    cases lead with
    | nil =>
        have notLead := stop cls (by simpa using found)
        cases cls <;> first | rfl | contradiction
    | cons mark lead =>
        have isMark := marks.first mark (by simp)
        simp only [List.cons_append, List.head?_cons, Option.mem_some_iff] at found
        subst found isMark
        rfl
  have gapRun : runLength ByteClass.isTrivia (gap ++ (lead ++ inner)) = gap.length := by
    rw [runLength_append trivia, runLength_eq_zero noTrivia, Nat.add_zero]
  have leadRun : runLength ByteClass.isLead (lead ++ inner) = lead.length := by
    rw [runLength_append marks.isLead, runLength_eq_zero stop, Nat.add_zero]
  cases first : inner.head? with
  | none => simp only [readForward, gapRun, List.drop_left, leadRun, first]
  | some cls => cases cls <;> simp only [readForward, gapRun, List.drop_left, leadRun, first]

theorem exists_gap_lead (classes : List ByteClass) :
    ∃ gap lead inner, classes = gap ++ (lead ++ inner) ∧ AllTrivia gap ∧ LeadMarks lead ∧
      ∀ cls ∈ inner.head?, cls.isLead = false := by
  obtain ⟨gap, rest, rfl, trivia, noTrivia⟩ := exists_run ByteClass.isTrivia classes
  obtain ⟨lead, inner, rfl, isLead, stop⟩ := exists_run ByteClass.isLead rest
  refine ⟨gap, lead, inner, rfl, trivia, ⟨isLead, ?_⟩, stop⟩
  intro cls found
  cases lead with
  | nil => simp at found
  | cons mark lead =>
      simp only [List.head?_cons, Option.mem_some_iff] at found
      subst found
      rcases (ByteClass.isLead_iff mark).mp (isLead mark (by simp)) with isMark | isTrivia
      · exact isMark
      · rw [noTrivia mark (by simp)] at isTrivia
        contradiction

theorem atListEnd_of_head? {classes : List ByteClass}
    (ended : classes.head? = none ∨ classes.head? = some .closing) : AtListEnd classes := by
  cases classes with
  | nil => exact .nil
  | cons cls rest =>
      rcases ended with nothing | closing
      · contradiction
      · cases closing
        exact .closing

theorem markLength_of_ended {classes : List ByteClass}
    (ended : classes.head? = none ∨ classes.head? = some .closing) : markLength classes = 0 := by
  cases atListEnd_of_head? ended with
  | nil => rfl
  | closing => rfl
  | trivia isTrivia =>
      rcases ended with nothing | closing
      · contradiction
      · cases closing
        contradiction

theorem ReadsForward.dangling_of_lead {gap lead inner : List ByteClass} (trivia : AllTrivia gap)
    (marks : LeadMarks lead) (nonempty : lead ≠ [])
    (ended : inner.head? = none ∨ inner.head? = some .closing) :
    ReadsForward (gap ++ (lead ++ inner))
      ⟨gap.length, 0, markLength (lead ++ inner), .danglingPrefix⟩ := by
  have unmarked : markLength inner = 0 := markLength_of_ended ended
  obtain ⟨front, blank, rfl, isLead, last, blankUnmarked⟩ := exists_marks lead
  have blankTrivia : AllTrivia blank :=
    allTrivia_of_markLength (fun cls member => marks.isLead cls (by simp [member])) blankUnmarked
  have counted : markLength (front ++ blank ++ inner) = front.length := by
    rw [List.append_assoc]
    exact markLength_append isLead last ((markLength_trivia_append blankTrivia inner).mpr unmarked)
  have frontNonempty : front ≠ [] := by
    rintro rfl
    cases blank with
    | nil => exact nonempty rfl
    | cons mark blank =>
        have isMark := marks.first mark (by simp)
        subst isMark
        exact absurd (blankTrivia .prefixMark (by simp)) (by decide)
  rw [counted, List.append_assoc]
  refine .dangling trivia ⟨isLead, ?_⟩ ?_ ?_
  · intro cls found
    refine marks.first cls ?_
    rw [List.head?_append, Option.mem_def.mp found]
    rfl
  · obtain ⟨rest, cls, split⟩ := (List.eq_nil_or_concat front).resolve_left frontNonempty
    rw [List.concat_eq_append] at split
    rw [split, List.getLast?_concat, last cls (by simp [split])]
  · exact .trivia_append blankTrivia (atListEnd_of_head? ended)

/-- The reader forward computes the grammar. -/
theorem readForward_eq_some_iff {classes : List ByteClass} {reading : Reading} :
    readForward classes = some reading ↔ ReadsForward classes reading := by
  constructor
  · intro found
    obtain ⟨gap, lead, inner, rfl, trivia, marks, stop⟩ := exists_gap_lead classes
    rw [readForward_append trivia marks stop] at found
    have dangling (ended : inner.head? = none ∨ inner.head? = some .closing)
        (same : (if lead.length = 0 then none else
          some (Reading.mk gap.length 0 (markLength (lead ++ inner)) .danglingPrefix)) =
            some reading) : ReadsForward (gap ++ (lead ++ inner)) reading := by
      split at same
      · contradiction
      next nonempty =>
        cases same
        exact .dangling_of_lead trivia marks (by rintro rfl; simp at nonempty) ended
    split at found
    next ended => exact dangling (.inl ended) found
    next ended => exact dangling (.inr ended) found
    next cls notClosing first =>
      obtain ⟨tail, rfl⟩ := List.head?_eq_some_iff.mp first
      have notLead := stop cls (by simp)
      rcases exists_datum_or_unclosed notLead notClosing tail with
        ⟨shape, body, rest, split, datum, apart⟩ | ⟨rfl, unclosed⟩
      · rw [split, bodyForward_append datum apart] at found
        cases found
        rw [split]
        exact .datum trivia marks datum apart
      · simp only [bodyForward, unclosed, Option.getD_none, Option.some.injEq] at found
        cases found
        exact .unclosed trivia marks unclosed
  · intro reads
    cases reads with
    | @datum gap lead body rest shape trivia marks datum apart =>
        obtain ⟨cls, tail, split, notLead, notClosing⟩ := datum.exists_cons
        have stop : ∀ first ∈ (body ++ rest).head?, first.isLead = false := by
          simpa [split] using notLead
        rw [readForward_append trivia marks stop, bodyForward_append datum apart]
        simp only [split, List.cons_append, List.head?_cons]
    | @unclosed gap lead inner trivia marks unclosed =>
        rw [readForward_append trivia marks (by simp [ByteClass.isLead, ByteClass.isTrivia])]
        simp [bodyForward, unclosed]
    | @dangling gap marks rest trivia isMarks last atEnd =>
        obtain ⟨blank, after, rfl, blankTrivia, ended⟩ := atEnd.exists_append
        have nonempty : marks ≠ [] := by
          rintro rfl
          contradiction
        have leading : LeadMarks (marks ++ blank) := by
          constructor
          · intro cls member
            rcases List.mem_append.mp member with inMarks | inBlank
            · exact isMarks.isLead cls inMarks
            · exact blankTrivia.isLead cls inBlank
          · intro cls found
            refine isMarks.first cls ?_
            rwa [List.head?_append, Option.or_of_isSome (by simpa using nonempty)] at found
        have stop : ∀ cls ∈ after.head?, cls.isLead = false := by
          rcases ended with nothing | closing
          · simp [nothing]
          · simp [closing, ByteClass.isLead, ByteClass.isTrivia]
        have counted : markLength (marks ++ (blank ++ after)) = marks.length := by
          refine markLength_append isMarks.isLead (by simp [last]) ?_
          rw [markLength_trivia_append blankTrivia]
          exact markLength_of_ended ended
        rw [← List.append_assoc marks, readForward_append trivia leading stop, List.append_assoc,
          counted]
        rcases ended with nothing | closing
        · simp [nothing, nonempty]
        · simp [closing, nonempty]

/-- The reader forward finds nothing only at the end of the enclosing list. -/
theorem readForward_eq_none_iff {classes : List ByteClass} :
    readForward classes = none ↔ AtListEnd classes := by
  constructor
  · intro missing
    obtain ⟨gap, lead, inner, rfl, trivia, marks, stop⟩ := exists_gap_lead classes
    rw [readForward_append trivia marks stop] at missing
    have ended (last : inner.head? = none ∨ inner.head? = some .closing)
        (empty : (if lead.length = 0 then none else
          some (Reading.mk gap.length 0 (markLength (lead ++ inner)) .danglingPrefix)) = none) :
        AtListEnd (gap ++ (lead ++ inner)) := by
      split at empty
      next noLead =>
        rw [List.length_eq_zero_iff.mp noLead, List.nil_append]
        exact .trivia_append trivia (atListEnd_of_head? last)
      next => contradiction
    split at missing
    next last => exact ended (.inl last) missing
    next last => exact ended (.inr last) missing
    next => contradiction
  · intro atEnd
    obtain ⟨gap, rest, rfl, trivia, ended⟩ := atEnd.exists_append
    have stop : ∀ cls ∈ rest.head?, cls.isLead = false := by
      rcases ended with nothing | closing
      · simp [nothing]
      · simp [closing, ByteClass.isLead, ByteClass.isTrivia]
    have empty := readForward_append trivia .nil stop
    rcases ended with nothing | closing
    · simpa [nothing] using empty
    · simpa [closing] using empty

theorem gap_of_readForward {classes : List ByteClass} {reading : Reading}
    (read : readForward classes = some reading) :
    reading.gap = runLength ByteClass.isTrivia classes := by
  simp only [readForward] at read
  split at read
  · split at read
    · contradiction
    · cases read
      rfl
  · split at read
    · contradiction
    · cases read
      rfl
  · cases read
    rfl

/-! ## Reading backward -/

theorem bodyBackward_append {shape : Shape} {front body : List ByteClass}
    (datum : Datum shape body) (apart : joined front.getLast? body.head? = false) :
    bodyBackward (front ++ body).reverse = (body.length, shape) := by
  rw [List.reverse_append]
  cases datum with
  | @list inner balanced =>
      have matched : openWithin 0 (inner.reverse ++ .opening :: front.reverse) =
          some (inner.length + 1) := by
        have read := openWithin_reverse_eq_some_iff.mpr
          ⟨front, inner, rfl, balanced, rfl⟩
        simpa using read
      simp [bodyBackward, matched]
  | @string first count firstIs =>
      rw [List.reverse_cons, List.reverse_replicate, List.append_assoc, List.singleton_append]
      rcases firstIs with rfl | rfl
      · cases count with
        | zero => simp [bodyBackward]
        | succ count =>
            have run : runLength (· == .stringRest)
                (List.replicate count .stringRest ++ .stringOpen :: front.reverse) = count := by
              rw [runLength_append (by simp), runLength_cons_neg rfl, List.length_replicate,
                Nat.add_zero]
            rw [List.replicate_succ, List.cons_append]
            simp only [bodyBackward, run]
            rw [List.drop_left' (List.length_replicate ..)]
            simp
      · have stop : runLength (· == .stringRest) front.reverse = 0 := by
          refine runLength_eq_zero fun cls found => ?_
          rw [List.head?_reverse] at found
          rw [Option.mem_def.mp found] at apart
          cases cls <;> first | rfl | contradiction
        have run : runLength (· == .stringRest)
            (List.replicate count .stringRest ++ front.reverse) = count := by
          rw [runLength_append (by simp), stop, List.length_replicate, Nat.add_zero]
        have notOpen : front.reverse.head? ≠ some .stringOpen := by
          intro found
          rw [List.head?_reverse] at found
          rw [found] at apart
          contradiction
        rw [show List.replicate count ByteClass.stringRest ++ .stringRest :: front.reverse =
          .stringRest :: (List.replicate count .stringRest ++ front.reverse) by
            rw [← List.singleton_append, ← List.append_assoc, ← List.replicate_succ',
              List.replicate_succ, List.cons_append]]
        simp only [bodyBackward, run]
        rw [List.drop_left' (List.length_replicate ..), if_neg notOpen]
        simp
  | @atom count =>
      have stop : runLength (· == .atom) front.reverse = 0 := by
        refine runLength_eq_zero fun cls found => ?_
        rw [List.head?_reverse] at found
        rw [Option.mem_def.mp found] at apart
        cases cls <;> first | rfl | contradiction
      have run : runLength (· == .atom) (List.replicate (count + 1) .atom ++ front.reverse) =
          count + 1 := by
        rw [runLength_append (by simp), stop, List.length_replicate, Nat.add_zero]
      rw [List.reverse_replicate]
      rw [List.replicate_succ, List.cons_append] at run ⊢
      simp [bodyBackward, run]

theorem exists_datum_or_unopened {cls : ByteClass} (notLead : cls.isLead = false)
    (notOpening : cls ≠ .opening) (classes : List ByteClass) :
    (∃ shape front body, classes ++ [cls] = front ++ body ∧ Datum shape body ∧
      joined front.getLast? body.head? = false) ∨
    (cls = .closing ∧ openWithin 0 classes.reverse = none) := by
  cases cls with
  | space | comment | prefixMark => contradiction
  | opening => exact absurd rfl notOpening
  | closing =>
      cases matched : openWithin 0 classes.reverse with
      | none => exact .inr ⟨rfl, rfl⟩
      | some count =>
          obtain ⟨front, inner, rfl, balanced, _⟩ := openWithin_reverse_eq_some_iff.mp matched
          refine .inl ⟨.list, front, .opening :: (inner ++ [.closing]), by simp, .list balanced, ?_⟩
          cases front.getLast? with
          | none => rfl
          | some last => cases last <;> rfl
  | stringOpen =>
      have datum : Datum .string (.stringOpen :: List.replicate 0 .stringRest) := .string (.inl rfl)
      refine .inl ⟨.string, classes, [.stringOpen], rfl, datum, ?_⟩
      cases classes.getLast? with
      | none => rfl
      | some last => cases last <;> rfl
  | stringRest =>
      obtain ⟨rest, run, rfl, inRun, stop⟩ := exists_run_back (· == .stringRest) classes
      rw [runLength_beq_eq inRun, List.append_assoc, ← List.replicate_succ']
      rcases List.eq_nil_or_concat rest with rfl | ⟨front, last, split⟩
      · exact .inl ⟨.string, [], _, rfl, List.replicate_succ ▸ .string (.inr rfl), rfl⟩
      · rw [List.concat_eq_append] at split
        subst split
        by_cases opened : last = .stringOpen
        · -- The opening quote belongs to the string, although it ends the run.
          subst opened
          refine .inl ⟨.string, front, .stringOpen :: List.replicate (run.length + 1) .stringRest,
            by simp, .string (.inl rfl), ?_⟩
          cases front.getLast? with
          | none => rfl
          | some last => cases last <;> rfl
        · refine .inl ⟨.string, front ++ [last], _, rfl,
            List.replicate_succ ▸ .string (.inr rfl), ?_⟩
          have notRest := stop last (by simp)
          rw [List.getLast?_concat, List.replicate_succ, List.head?_cons]
          cases last <;> first | rfl | contradiction
  | atom =>
      obtain ⟨rest, run, rfl, inRun, stop⟩ := exists_run_back (· == .atom) classes
      rw [runLength_beq_eq inRun, List.append_assoc, ← List.replicate_succ']
      refine .inl ⟨.atom, rest, _, rfl, .atom, ?_⟩
      rw [List.replicate_succ, List.head?_cons]
      cases found : rest.getLast? with
      | none => rfl
      | some last =>
          have notAtom := stop last found
          cases last <;> first | rfl | contradiction

section

variable {front gap : List ByteClass} {cls : ByteClass}

theorem reverse_append_cons (front gap : List ByteClass) (cls : ByteClass) :
    (front ++ cls :: gap).reverse = gap.reverse ++ (front ++ [cls]).reverse := by
  simp

theorem runLength_isTrivia_back (front : List ByteClass) (trivia : AllTrivia gap)
    (significant : cls.isTrivia = false) :
    runLength ByteClass.isTrivia (gap.reverse ++ (front ++ [cls]).reverse) = gap.length := by
  rw [runLength_append trivia.reverse, runLength_eq_zero (by simpa using significant),
    List.length_reverse, Nat.add_zero]

theorem readBackward_of_opening (trivia : AllTrivia gap) :
    readBackward (front ++ .opening :: gap).reverse = none := by
  have gapRun :=
    runLength_isTrivia_back front trivia (show ByteClass.opening.isTrivia = false from rfl)
  rw [reverse_append_cons]
  simp only [readBackward, gapRun, List.drop_left' (List.length_reverse ..)]
  simp

theorem readBackward_of_mark (trivia : AllTrivia gap) :
    readBackward (front ++ .prefixMark :: gap).reverse =
      some ⟨gap.length, 0, markLength (front ++ [ByteClass.prefixMark]).reverse, .danglingPrefix⟩ := by
  have gapRun := runLength_isTrivia_back front trivia
    (show ByteClass.prefixMark.isTrivia = false from rfl)
  rw [reverse_append_cons]
  simp only [readBackward, gapRun, List.drop_left' (List.length_reverse ..)]
  simp

theorem readBackward_of_body (trivia : AllTrivia gap) (notLead : cls.isLead = false)
    (notOpening : cls ≠ .opening) :
    readBackward (front ++ cls :: gap).reverse =
      some ⟨gap.length,
        markLength ((front ++ [cls]).reverse.drop (bodyBackward (front ++ [cls]).reverse).1),
        (bodyBackward (front ++ [cls]).reverse).1, (bodyBackward (front ++ [cls]).reverse).2⟩ := by
  have significant : cls.isTrivia = false := by
    cases cls <;> first | rfl | contradiction
  have gapRun := runLength_isTrivia_back front trivia significant
  have headIs : (front ++ [cls]).reverse.head? = some cls := by simp
  rw [reverse_append_cons]
  simp only [readBackward, gapRun, List.drop_left' (List.length_reverse ..), headIs]
  cases cls <;> first | rfl | contradiction

theorem readBackward_of_datum {shape : Shape} {body : List ByteClass} (trivia : AllTrivia gap)
    (datum : Datum shape body) (apart : joined front.getLast? body.head? = false) :
    readBackward (front ++ (body ++ gap)).reverse =
      some ⟨gap.length, markLength front.reverse, body.length, shape⟩ := by
  have bodyRead := bodyBackward_append datum apart
  have left : (front ++ body).reverse.drop body.length = front.reverse := by
    rw [List.reverse_append, List.drop_left' (List.length_reverse ..)]
  obtain ⟨rest, cls, rfl, notLead, notOpening⟩ := datum.exists_concat
  rw [← List.append_assoc] at bodyRead left
  rw [List.append_assoc, ← List.append_assoc front, List.singleton_append,
    readBackward_of_body trivia notLead notOpening, bodyRead, left]

theorem readBackward_of_unopened (trivia : AllTrivia gap)
    (unopened : openWithin 0 front.reverse = none) :
    readBackward (front ++ .closing :: gap).reverse =
      some ⟨gap.length, 0, front.length + 1, .list⟩ := by
  have body : bodyBackward (front ++ [ByteClass.closing]).reverse = (front.length + 1, .list) := by
    simp [bodyBackward, unopened]
  have nothing : (front ++ [ByteClass.closing]).reverse.drop (front.length + 1) = [] :=
    List.drop_eq_nil_of_le (by simp)
  rw [readBackward_of_body trivia rfl (by decide), body, nothing]
  rfl

end

/-- The reader backward computes the grammar. -/
theorem readBackward_reverse_eq_some_iff {classes : List ByteClass} {reading : Reading} :
    readBackward classes.reverse = some reading ↔ ReadsBackward classes reading := by
  constructor
  · intro found
    obtain ⟨rest, gap, rfl, trivia, stop⟩ := exists_run_back ByteClass.isTrivia classes
    rcases List.eq_nil_or_concat rest with rfl | ⟨front, cls, split⟩
    · have nothing : readBackward gap.reverse = none := by
        have gapRun : runLength ByteClass.isTrivia (gap.reverse ++ []) = gap.length := by
          rw [runLength_append (AllTrivia.reverse trivia), List.length_reverse]
          rfl
        rw [List.append_nil] at gapRun
        simp [readBackward, gapRun]
      rw [List.nil_append, nothing] at found
      contradiction
    · rw [List.concat_eq_append] at split
      subst split
      rw [List.append_assoc, List.singleton_append] at found ⊢
      by_cases isMark : cls = .prefixMark
      · subst isMark
        obtain ⟨rest, marks, split, isMarks, unmarked⟩ := exists_lead_back (front ++ [.prefixMark])
        rw [readBackward_of_mark trivia, split, isMarks.markLength_reverse unmarked] at found
        cases found
        rw [← List.singleton_append, ← List.append_assoc, split, List.append_assoc]
        refine .dangling trivia isMarks ?_ unmarked
        have nonempty : marks ≠ [] := by
          rintro rfl
          rw [List.append_nil] at split
          rw [Unmarked, ← split, List.reverse_concat] at unmarked
          exact absurd unmarked (Nat.ne_of_gt (markLength_cons_pos _))
        have last := congrArg List.getLast? split
        rw [List.getLast?_concat, List.getLast?_append, Option.or_of_isSome (by simpa using nonempty)]
          at last
        exact last.symm
      by_cases isOpening : cls = .opening
      · subst isOpening
        rw [readBackward_of_opening trivia] at found
        contradiction
      have notLead : cls.isLead = false := by
        have significant := stop cls (by simp)
        cases cls <;> first | rfl | contradiction
      rcases exists_datum_or_unopened notLead isOpening front with
        ⟨shape, before, body, split, datum, apart⟩ | ⟨rfl, unopened⟩
      · obtain ⟨rest, lead, rfl, marks, unmarked⟩ := exists_lead_back before
        rw [← List.singleton_append, ← List.append_assoc, split, List.append_assoc] at found ⊢
        rw [readBackward_of_datum trivia datum apart, marks.markLength_reverse unmarked] at found
        cases found
        rw [List.append_assoc]
        exact .datum trivia marks datum unmarked apart
      · rw [readBackward_of_unopened trivia unopened] at found
        cases found
        exact .unopened trivia unopened
  · intro reads
    cases reads with
    | datum trivia marks datum unmarked apart =>
        rw [← List.append_assoc, readBackward_of_datum trivia datum apart,
          marks.markLength_reverse unmarked]
    | unopened trivia unopened => exact readBackward_of_unopened trivia unopened
    | @dangling front marks gap trivia isMarks last unmarked =>
        have counted := isMarks.markLength_reverse unmarked
        obtain ⟨rest, rfl⟩ := List.getLast?_eq_some_iff.mp last
        rw [← List.append_assoc] at counted
        rw [List.append_assoc, ← List.append_assoc front, List.singleton_append,
          readBackward_of_mark trivia, counted]

/-- A form, unless it takes all that is in front of it, starts with a class of its own
that does not continue a token. -/
theorem ReadsBackward.exists_first {passed : List ByteClass} {reading : Reading}
    (reads : ReadsBackward passed reading) :
    reading.size = passed.length ∨
      ∃ front cls rest, passed = front ++ cls :: rest ∧
        passed.length - reading.size = front.length ∧ cls.isTrivia = false ∧
        joined front.getLast? (some cls) = false := by
  have notJoined (left : Option ByteClass) : joined left (some .prefixMark) = false := by
    cases left with
    | none => rfl
    | some left => cases left <;> rfl
  cases reads with
  | @datum front lead body gap shape trivia marks datum unmarked apart =>
      right
      cases lead with
      | nil =>
          obtain ⟨cls, rest, rfl, notLead, _⟩ := datum.exists_cons
          refine ⟨front, cls, rest ++ gap, rfl, ?_, ?_, ?_⟩
          · simp only [Reading.size, List.length_append, List.length_cons]
            omega
          · cases cls <;> first | rfl | contradiction
          · simpa using apart
      | cons mark lead =>
          obtain rfl := marks.first mark rfl
          refine ⟨front, .prefixMark, lead ++ (body ++ gap), rfl, ?_, rfl, notJoined _⟩
          simp only [Reading.size, List.length_append, List.length_cons]
          omega
  | @unopened inner gap trivia unopened =>
      left
      simp only [Reading.size, List.length_append, List.length_cons]
      omega
  | @dangling front marks gap trivia isMarks last unmarked =>
      right
      cases marks with
      | nil => contradiction
      | cons mark marks =>
          obtain rfl := isMarks.first mark rfl
          refine ⟨front, .prefixMark, marks ++ gap, rfl, ?_, rfl, notJoined _⟩
          simp only [Reading.size, List.length_append, List.length_cons]
          omega

end SchemeLayout
