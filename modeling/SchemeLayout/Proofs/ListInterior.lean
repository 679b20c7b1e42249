import SchemeLayout.Proofs.EnclosingLists

/-!
The inside of a list, read form by form.

A form that is read forward leaves the bracket in place that closes the enclosing
list, so the end of the list stays the same while reading goes on.  Reading finds
no more exactly where only trivia stand in front of that end.  It follows that the
forms read one after the other from the start of a list fill its inside, up to
trivia, and that the same holds outside all lists up to the first stray bracket.
-/

set_option autoImplicit false

namespace SchemeLayout

/-! ## The end of the enclosing list -/

/-- Where the list around a position ends: at the bracket that closes it, or with the
table if it is never closed. -/
def insideStop (classes : List ByteClass) (pos : Nat) : Nat :=
  ((closeForward classes pos 0).map (· - 1)).getD classes.length

/-- From `start` up to `stop` there is nothing but trivia. -/
def TriviaBetween (classes : List ByteClass) (start stop : Nat) : Prop :=
  ∀ pos, start ≤ pos → pos < stop → ∃ cls ∈ classes[pos]?, cls.isTrivia = true

/-- The list goes on behind a form as it went on in front of it. -/
theorem ReadsForward.closeWithin_eq {rest : List ByteClass} {reading : Reading}
    (reads : ReadsForward rest reading) :
    closeWithin 0 rest = (closeWithin 0 (rest.drop reading.size)).map (reading.size + ·) := by
  have bound := (readForward_bounds (readForward_eq_some_iff.mpr reads)).2
  rcases reads.balanced_or_unclosed with
    balanced | ⟨front, inner, rfl, balanced, unclosed, _, _, whole⟩
  · have passed := balanced.closeWithin_append 0 (rest.drop reading.size)
    rwa [List.take_append_drop, List.length_take, Nat.min_eq_left bound] at passed
  · have unmatched : closeWithin 0 (.opening :: inner) = none := by
      simp only [closeWithin, closeWithin_succ, unclosed, Option.bind_none, Option.map_none]
    rw [whole, List.drop_length, balanced.closeWithin_append, unmatched]
    rfl

section Positions

variable {classes : List ByteClass} {pos : Nat} {form : Form}

/-- To read a form forward leaves the bracket in place that closes the enclosing list. -/
theorem closeForward_stop (found : formForward classes pos = some form) :
    closeForward classes form.stop 0 = closeForward classes pos 0 := by
  obtain ⟨reading, reads, rfl⟩ := exists_readsForward found
  rw [Reading.stop_formAfter, closeForward, closeForward, reads.closeWithin_eq, List.drop_drop,
    Option.map_map]
  congr 1
  funext count
  exact Nat.add_assoc pos reading.size count

theorem insideStop_stop (found : formForward classes pos = some form) :
    insideStop classes form.stop = insideStop classes pos := by
  rw [insideStop, insideStop, closeForward_stop found]

/-- The list around a position ends in front of the bracket that closes it, or with the
table. -/
theorem insideStop_cases (classes : List ByteClass) (pos : Nat) :
    closeForward classes pos 0 = some (insideStop classes pos + 1) ∨
      closeForward classes pos 0 = none ∧ insideStop classes pos = classes.length := by
  cases closed : closeForward classes pos 0 with
  | none => exact .inr ⟨rfl, by rw [insideStop, closed]; rfl⟩
  | some stop =>
      left
      have bounds := closeForward_bounds closed
      simp only [insideStop, closed, Option.map_some, Option.getD_some, Option.some.injEq]
      omega

theorem le_insideStop (within : pos ≤ classes.length) : pos ≤ insideStop classes pos := by
  rcases insideStop_cases classes pos with closed | ⟨_, isEnd⟩
  · exact Nat.le_of_lt_succ (closeForward_bounds closed).1
  · exact isEnd ▸ within

theorem insideStop_le_length (classes : List ByteClass) (pos : Nat) :
    insideStop classes pos ≤ classes.length := by
  rcases insideStop_cases classes pos with closed | ⟨_, isEnd⟩
  · exact Nat.le_of_succ_le (closeForward_bounds closed).2
  · exact Nat.le_of_eq isEnd

theorem stop_le_insideStop (found : formForward classes pos = some form) :
    form.stop ≤ insideStop classes pos := by
  rw [← insideStop_stop found]
  exact le_insideStop (formForward_bounds found).2.2.2

theorem triviaBetween_of_drop {gap rest : List ByteClass} (split : classes.drop pos = gap ++ rest)
    (trivia : AllTrivia gap) : TriviaBetween classes pos (pos + gap.length) := by
  intro place behind isBefore
  obtain ⟨index, rfl⟩ := Nat.exists_eq_add_of_le behind
  have inGap : index < gap.length := Nat.lt_of_add_lt_add_left isBefore
  refine ⟨gap[index], ?_, trivia _ (List.getElem_mem inGap)⟩
  rw [← List.getElem?_drop, split, List.getElem?_append_left inGap]
  exact List.getElem?_eq_getElem inGap

theorem triviaBetween_start (found : formForward classes pos = some form) :
    TriviaBetween classes pos form.start := by
  obtain ⟨reading, reads, rfl⟩ := exists_readsForward found
  have bound := (readForward_bounds (readForward_eq_some_iff.mpr reads)).2
  have passed := triviaBetween_of_drop (List.take_append_drop reading.gap _).symm
    reads.allTrivia_gap
  rwa [List.length_take, Nat.min_eq_left] at passed
  simp only [Reading.size] at bound
  omega

theorem not_isTrivia_start (found : formForward classes pos = some form) {cls : ByteClass}
    (isClass : classes[form.start]? = some cls) : cls.isTrivia = false := by
  obtain ⟨reading, reads, rfl⟩ := exists_readsForward found
  have isGap := gap_of_readForward (readForward_eq_some_iff.mpr reads)
  have isFirst : ((classes.drop pos).drop reading.gap).head? = some cls := by
    rw [List.drop_drop, List.head?_drop]
    exact isClass
  rw [isGap] at isFirst
  exact unwanted_after_run isFirst

/-- Reading forward finds nothing exactly where only trivia stand in front of the end
of the enclosing list. -/
theorem formForward_eq_none_iff :
    formForward classes pos = none ↔ TriviaBetween classes pos (insideStop classes pos) := by
  constructor
  · intro missing
    have atEnd : AtListEnd (classes.drop pos) :=
      readForward_eq_none_iff.mp (Option.map_eq_none_iff.mp missing)
    obtain ⟨gap, rest, split, trivia, ended⟩ := atEnd.exists_append
    have reached : insideStop classes pos ≤ pos + gap.length := by
      rcases ended with nothing | closing
      · have length := congrArg List.length split
        rw [List.head?_eq_none_iff.mp nothing, List.append_nil, List.length_drop] at length
        have bound := insideStop_le_length classes pos
        omega
      · obtain ⟨after, rfl⟩ := List.head?_eq_some_iff.mp closing
        have closed := closeForward_eq_some_iff.mpr
          ⟨gap, after, split, Balanced.of_isLead trivia.isLead, rfl⟩
        rw [insideStop, closed]
        exact Nat.le_refl _
    intro place behind isBefore
    exact triviaBetween_of_drop split trivia place behind (Nat.lt_of_lt_of_le isBefore reached)
  · intro trivia
    rw [Option.eq_none_iff_forall_ne_some]
    intro form found
    have bounds := formForward_bounds found
    have inside := stop_le_insideStop found
    obtain ⟨cls, isClass, isTrivia⟩ := trivia form.start bounds.1 (by omega)
    rw [not_isTrivia_start found isClass] at isTrivia
    contradiction

end Positions

/-! ## Reading on -/

/-- The spans lie one behind the other from `start` to `stop`, none of them is empty,
and what lies in none of them is trivia. -/
structure Fills (classes : List ByteClass) (start stop : Nat) (spans : List FormSpan) : Prop where
  nonempty : ∀ span ∈ spans, span.start < span.stop
  inside : ∀ span ∈ spans, start ≤ span.start ∧ span.stop ≤ stop
  ordered : spans.Pairwise fun first second => first.stop ≤ second.start
  trivia : ∀ pos, start ≤ pos → pos < stop →
    (∀ span ∈ spans, pos < span.start ∨ span.stop ≤ pos) →
    ∃ cls ∈ classes[pos]?, cls.isTrivia = true

namespace Fills

variable {classes : List ByteClass} {start stop : Nat}

theorem nil (trivia : TriviaBetween classes start stop) : Fills classes start stop [] where
  nonempty := by simp
  inside := by simp
  ordered := .nil
  trivia pos behind isBefore _ := trivia pos behind isBefore

theorem cons {span : FormSpan} {spans : List FormSpan}
    (gap : TriviaBetween classes start span.start) (behind : start ≤ span.start)
    (nonempty : span.start < span.stop) (within : span.stop ≤ stop)
    (rest : Fills classes span.stop stop spans) : Fills classes start stop (span :: spans) where
  nonempty := by
    intro other member
    rcases List.mem_cons.mp member with rfl | later
    · exact nonempty
    · exact rest.nonempty other later
  inside := by
    intro other member
    rcases List.mem_cons.mp member with rfl | later
    · exact ⟨behind, within⟩
    · have bounds := rest.inside other later
      omega
  ordered := by
    refine List.pairwise_cons.mpr ⟨?_, rest.ordered⟩
    intro other later
    exact (rest.inside other later).1
  trivia := by
    intro pos isBehind isBefore outside
    rcases outside span List.mem_cons_self with inGap | later
    · exact gap pos isBehind inGap
    · exact rest.trivia pos later isBefore fun other member =>
        outside other (List.mem_cons_of_mem span member)

end Fills

namespace Navigator

theorem move_forward_eq_true_iff {navigator later : Navigator} {offset : Nat} :
    navigator.move .forward offset = (.ok true, later) ↔
      ∃ form, formForward navigator.source.classes offset = some form ∧
        later = { navigator with span := navigator.source.spanOf form } := by
  simp only [move_eq_true_iff, locate_forward_eq]
  constructor
  · rintro ⟨_, ⟨form, found, rfl⟩, isLater⟩
    exact ⟨form, found, isLater⟩
  · rintro ⟨form, found, isLater⟩
    exact ⟨_, ⟨form, found, rfl⟩, isLater⟩

theorem move_forward_eq_false_iff {navigator : Navigator} {offset : Nat} :
    (navigator.move .forward offset).1 = .ok false ↔
      formForward navigator.source.classes offset = none := by
  cases found : formForward navigator.source.classes offset with
  | none => simp [move, settle, locate, Source.formAfter?, found]
  | some form => simp [move, settle, locate, Source.formAfter?, found]

/-- The spans that moves forward find one after the other, each from the end of the
last, until a move fails. -/
def forwardSpans (navigator : Navigator) (offset : Nat) : List FormSpan :=
  match _moved : navigator.move .forward offset with
  | (.ok true, later) => later.span :: later.forwardSpans later.span.stop
  | _ => []
termination_by navigator.source.length - offset
decreasing_by
  obtain ⟨form, found, rfl⟩ := move_forward_eq_true_iff.mp _moved
  have bounds := formForward_bounds found
  have length := navigator.source.length_classes
  simp only [Source.stop_spanOf]
  omega

theorem formForward_eq_none_of_not_moved {navigator : Navigator} {offset : Nat}
    (notMoved : ∀ later, navigator.move .forward offset = (.ok true, later) → False) :
    formForward navigator.source.classes offset = none := by
  rw [Option.eq_none_iff_forall_ne_some]
  intro form found
  exact notMoved _ (move_forward_eq_true_iff.mpr ⟨form, found, rfl⟩)

/-- The spans fill what is left of the enclosing list. -/
theorem fills_forwardSpans (navigator : Navigator) (start : Nat) :
    Fills navigator.source.classes start (insideStop navigator.source.classes start)
      (navigator.forwardSpans start) := by
  fun_induction forwardSpans navigator start with
  | case1 navigator start later moved inductionHypothesis =>
      obtain ⟨form, found, rfl⟩ := move_forward_eq_true_iff.mp moved
      have bounds := formForward_bounds found
      simp only [Source.stop_spanOf, insideStop_stop found] at inductionHypothesis
      apply Fills.cons (triviaBetween_start found) bounds.1
      · exact Nat.lt_of_le_of_lt bounds.2.1 bounds.2.2.1
      · exact stop_le_insideStop found
      · exact inductionHypothesis
  | case2 navigator start notMoved =>
      exact .nil (formForward_eq_none_iff.mp (formForward_eq_none_of_not_moved notMoved))

/-- Wherever the moves read on, the enclosing list is the same and so is its end. -/
theorem insideStop_of_mem_forwardSpans (navigator : Navigator) (start : Nat) :
    ∀ offset ∈ start :: (navigator.forwardSpans start).map FormSpan.stop,
      insideStop navigator.source.classes offset = insideStop navigator.source.classes start := by
  fun_induction forwardSpans navigator start with
  | case1 navigator start later moved inductionHypothesis =>
      obtain ⟨form, found, rfl⟩ := move_forward_eq_true_iff.mp moved
      simp only [Source.stop_spanOf, insideStop_stop found] at inductionHypothesis
      intro offset member
      rcases List.mem_cons.mp member with rfl | later
      · rfl
      · exact inductionHypothesis offset later
  | case2 navigator start notMoved =>
      intro offset member
      rw [List.mem_singleton.mp member]

/-- Moves forward from `start` pass over all that lies in front of `stop`, and they fail
only because nothing but trivia is left there. -/
structure Exhausts (navigator : Navigator) (start stop : Nat) : Prop where
  fills : Fills navigator.source.classes start stop (navigator.forwardSpans start)
  ends : ∀ offset ∈ start :: (navigator.forwardSpans start).map FormSpan.stop,
    (navigator.move .forward offset).1 = .ok false ↔
      TriviaBetween navigator.source.classes offset stop

theorem exhausts_insideStop (navigator : Navigator) (start : Nat) :
    navigator.Exhausts start (insideStop navigator.source.classes start) where
  fills := navigator.fills_forwardSpans start
  ends := by
    intro offset member
    rw [← navigator.insideStop_of_mem_forwardSpans start offset member, move_forward_eq_false_iff,
      formForward_eq_none_iff]

end Navigator

/-! ## The inside of a list, and what is outside all lists -/

/-- Outside all lists reading stops at the first stray bracket, or at the end of the
table. -/
theorem insideStop_zero_cases (classes : List ByteClass) :
    NoStrayClose classes (insideStop classes 0) ∧
      (classes[insideStop classes 0]? = some .closing ∧
          openBackward classes (insideStop classes 0) 0 = none ∨
        insideStop classes 0 = classes.length) := by
  rcases insideStop_cases classes 0 with closed | ⟨unclosed, isEnd⟩
  · obtain ⟨inner, rest, split, balanced, length⟩ := closeForward_eq_some_iff.mp closed
    have isEnd : insideStop classes 0 = inner.length := by omega
    rw [List.drop_zero] at split
    have inFront : classes.take inner.length = inner := by rw [split, List.take_left]
    rw [isEnd]
    refine ⟨noStrayClose_of_closeWithin ?_, .inl ⟨by simp [split], ?_⟩⟩
    · rw [inFront, balanced.closeWithin_eq_none]
    · rw [openBackward, before_eq, inFront, balanced.openWithin_reverse_eq_none]
      rfl
  · refine ⟨noStrayClose_of_closeWithin ?_, .inr isEnd⟩
    rw [isEnd, List.take_length]
    exact Option.map_eq_none_iff.mp unclosed

namespace Navigator

/-- The move down from an opening bracket enters the list. -/
theorem move_down_of_opening (navigator : Navigator) {opening : Nat}
    (isOpening : navigator.source.classes[opening]? = some .opening) :
    navigator.move .down opening = (.ok true, { navigator with
      span := ⟨opening + 1, insideStop navigator.source.classes (opening + 1), .list⟩ }) := by
  have located : locate navigator.source opening .down = .ok (some
      ⟨opening + 1, insideStop navigator.source.classes (opening + 1), .list⟩) := by
    apply locate_down_eq.mpr
    refine ⟨_, formForward_of_opening isOpening, rfl, ?_⟩
    rw [insideStop, navigator.source.length_classes]
  exact move_eq_true_iff.mpr ⟨_, located, rfl⟩

/-- From every opening bracket the move down enters the list, and moves forward from
there read all that is in it: the spans found are not empty, lie one behind the other
within the list, and leave nothing but trivia out.  The list ends at the bracket that
closes it, or with the text.  Moves forward from the start of the text do the same
up to the first closing bracket that closes no list, or up to the end. -/
theorem forwardSpans_exhaust_lists (navigator : Navigator) :
    let classes := navigator.source.classes
    (∀ opening, classes[opening]? = some .opening →
      ∃ entered, navigator.move .down opening = (.ok true, entered) ∧
        entered.span.start = opening + 1 ∧
        (closeForward classes (opening + 1) 0 = some (entered.span.stop + 1) ∨
          closeForward classes (opening + 1) 0 = none ∧
            entered.span.stop = navigator.source.length) ∧
        entered.Exhausts entered.span.start entered.span.stop) ∧
    ∃ stop, NoStrayClose classes stop ∧
      (classes[stop]? = some .closing ∧ openBackward classes stop 0 = none ∨
        stop = navigator.source.length) ∧
      navigator.Exhausts 0 stop := by
  intro classes
  have length : classes.length = navigator.source.length := navigator.source.length_classes
  constructor
  · intro opening isOpening
    have isEnd := insideStop_cases classes (opening + 1)
    rw [length] at isEnd
    exact ⟨_, navigator.move_down_of_opening isOpening, rfl, isEnd, exhausts_insideStop _ _⟩
  · obtain ⟨noStray, isEnd⟩ := insideStop_zero_cases classes
    rw [length] at isEnd
    exact ⟨_, noStray, isEnd, navigator.exhausts_insideStop 0⟩

/-- A list with a dangling quote in front of a comment, an atom, and a stray bracket
behind them. -/
theorem forwardSpans_exhaust_dangling_quote :
    let navigator : Navigator := { source := .ofString "(a ';c\n) x) y" }
    (∃ entered, navigator.move .down 0 = (.ok true, entered) ∧ entered.span = ⟨1, 7, .list⟩ ∧
      entered.forwardSpans 1 = [⟨1, 2, .symbol⟩, ⟨3, 4, .atom⟩] ∧ entered.Exhausts 1 7) ∧
    navigator.forwardSpans 0 = [⟨0, 8, .list⟩, ⟨9, 10, .symbol⟩] ∧ navigator.Exhausts 0 10 := by
  intro navigator
  obtain ⟨inLists, stop, noStray, isEnd, outside⟩ := navigator.forwardSpans_exhaust_lists
  obtain ⟨entered, moved, _, _, inside⟩ := inLists 0 (by decide +kernel)
  obtain rfl : (navigator.move .down 0).2 = entered := congrArg Prod.snd moved
  have isSpan : (navigator.move .down 0).2.span = ⟨1, 7, .list⟩ := by decide +kernel
  rw [isSpan] at inside
  have least : stop < 11 := Nat.lt_succ_of_le (Nat.le_of_not_lt fun behind =>
    noStray 10 behind (by decide +kernel) (by decide +kernel))
  have only : ∀ pos < 11,
      navigator.source.classes[pos]? = some .closing ∧
          openBackward navigator.source.classes pos 0 = none ∨ pos = navigator.source.length →
        pos = 10 := by
    decide +kernel
  have isStop := only stop least isEnd
  exact ⟨⟨_, moved, isSpan, by decide +kernel, inside⟩, by decide +kernel, isStop ▸ outside⟩

end Navigator

end SchemeLayout
