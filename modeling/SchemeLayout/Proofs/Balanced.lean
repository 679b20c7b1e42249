import SchemeLayout.Form.Bracket

/-!
Balanced classes.

In balanced classes every bracket has its partner.  Both directions of bracket
matching pass over balanced classes and stop at the first bracket behind them
that has its partner on the other side, so each of them is decided by a balanced
stretch next to the position it starts from.
-/

set_option autoImplicit false

namespace SchemeLayout

/-- Every bracket is matched. -/
inductive Balanced : List ByteClass → Prop where
  | nil : Balanced []
  | leaf {cls : ByteClass} {rest : List ByteClass} :
      cls ≠ .opening → cls ≠ .closing → Balanced rest → Balanced (cls :: rest)
  | list {inner rest : List ByteClass} :
      Balanced inner → Balanced rest → Balanced (.opening :: (inner ++ .closing :: rest))

namespace Balanced

variable {left right : List ByteClass}

theorem append (first : Balanced left) (second : Balanced right) : Balanced (left ++ right) := by
  induction first with
  | nil => exact second
  | leaf notOpening notClosing _ inductionHypothesis =>
      exact .leaf notOpening notClosing inductionHypothesis
  | list innerBalanced _ _ inductionHypothesis =>
      rw [List.cons_append, List.append_assoc, List.cons_append]
      exact .list innerBalanced inductionHypothesis

theorem singleton {cls : ByteClass} (notOpening : cls ≠ .opening) (notClosing : cls ≠ .closing) :
    Balanced [cls] :=
  .leaf notOpening notClosing .nil

theorem of_isLead {classes : List ByteClass} (isLead : ∀ cls ∈ classes, cls.isLead = true) :
    Balanced classes := by
  induction classes with
  | nil => exact .nil
  | cons cls rest inductionHypothesis =>
      have first := isLead cls (by simp)
      refine .leaf ?_ ?_ (inductionHypothesis fun other member => isLead other (by simp [member]))
      · rintro rfl
        contradiction
      · rintro rfl
        contradiction

theorem flipped {classes : List ByteClass} (balanced : Balanced classes) :
    Balanced (classes.reverse.map .flip) := by
  induction balanced with
  | nil => exact .nil
  | @leaf cls rest notOpening notClosing _ inductionHypothesis =>
      rw [List.reverse_cons, List.map_append]
      refine inductionHypothesis.append ?_
      cases cls <;> first | contradiction | exact singleton (by decide) (by decide)
  | @list inner rest _ _ innerHypothesis restHypothesis =>
      have turned : (ByteClass.opening :: (inner ++ .closing :: rest)).reverse.map ByteClass.flip =
          rest.reverse.map ByteClass.flip ++
            ByteClass.opening :: (inner.reverse.map ByteClass.flip ++ ByteClass.closing :: []) := by
        simp [ByteClass.flip]
      rw [turned]
      exact restHypothesis.append (.list innerHypothesis .nil)

end Balanced

/-- Matching at depth `depth + 1` first leaves the innermost list, then goes on at
depth `depth`. -/
theorem closeWithin_succ (depth : Nat) (classes : List ByteClass) :
    closeWithin (depth + 1) classes =
      (closeWithin 0 classes).bind fun count =>
        (closeWithin depth (classes.drop count)).map (count + ·) := by
  -- Behind an opening bracket two lists have to be left, the second of them in the
  -- rest that the first leaves over, so the induction is on the length.
  induction bound : classes.length using Nat.strongRecOn generalizing depth classes with
  | _ size inductionHypothesis =>
      subst bound
      cases classes with
      | nil => simp [closeWithin]
      | cons cls rest =>
          have restHypothesis (deeper : Nat) :=
            inductionHypothesis rest.length (by simp) deeper rest rfl
          cases cls with
          | opening =>
              simp only [closeWithin, restHypothesis]
              cases inner : closeWithin 0 rest with
              | none => rfl
              | some count =>
                  have bounds := closeWithin_bounds inner
                  have laterHypothesis := inductionHypothesis (rest.drop count).length
                    (by simp only [List.length_drop, List.length_cons]; omega)
                    depth (rest.drop count) rfl
                  simp only [Option.bind_some, laterHypothesis]
                  cases closeWithin 0 (rest.drop count) with
                  | none => rfl
                  | some more =>
                      simp only [Option.bind_some, Option.map_some, Option.map_map,
                        List.drop_succ_cons, List.drop_drop]
                      congr 1
                      funext last
                      simp only [Function.comp_apply]
                      omega
          | closing =>
              simp only [closeWithin, Option.bind_some, List.drop_succ_cons, List.drop_zero]
              congr 1
              funext last
              omega
          | space | comment | prefixMark | stringOpen | stringRest | atom =>
              simp only [closeWithin, restHypothesis]
              cases closeWithin 0 rest with
              | none => rfl
              | some count =>
                  simp only [Option.bind_some, Option.map_some, Option.map_map,
                    List.drop_succ_cons]
                  congr 1
                  funext last
                  simp only [Function.comp_apply]
                  omega

/-- Matching passes over balanced classes at every depth. -/
theorem Balanced.closeWithin_append {front : List ByteClass} (balanced : Balanced front)
    (depth : Nat) (classes : List ByteClass) :
    closeWithin depth (front ++ classes) =
      (closeWithin depth classes).map (front.length + ·) := by
  induction balanced generalizing depth classes with
  | nil => simp
  | @leaf cls rest notOpening notClosing _ inductionHypothesis =>
      have skipped : closeWithin depth (cls :: (rest ++ classes)) =
          (closeWithin depth (rest ++ classes)).map (· + 1) := by
        cases cls <;> first | contradiction | (cases depth <;> rfl)
      rw [List.cons_append, skipped, inductionHypothesis, Option.map_map, List.length_cons]
      congr 1
      funext count
      simp only [Function.comp_apply]
      omega
  | @list inner rest _ _ innerHypothesis restHypothesis =>
      rw [List.cons_append, List.append_assoc, closeWithin, innerHypothesis, List.cons_append,
        closeWithin, restHypothesis]
      simp only [Option.map_map, List.length_cons, List.length_append]
      congr 1
      funext count
      simp only [Function.comp_apply]
      omega

/-- The bracket that closes a list is the first one behind balanced classes. -/
theorem closeWithin_eq_some_iff {classes : List ByteClass} {count : Nat} :
    closeWithin 0 classes = some count ↔
      ∃ inner rest, classes = inner ++ .closing :: rest ∧ Balanced inner ∧
        count = inner.length + 1 := by
  constructor
  · intro found
    induction bound : classes.length using Nat.strongRecOn generalizing classes count with
    | _ size inductionHypothesis =>
        subst bound
        cases classes with
        | nil => simp [closeWithin] at found
        | cons cls rest =>
            have restHypothesis {restCount : Nat} (restFound : closeWithin 0 rest = some restCount) :=
              inductionHypothesis rest.length (by simp) restFound rfl
            cases cls with
            | closing =>
                cases found
                exact ⟨[], rest, rfl, .nil, rfl⟩
            | opening =>
                simp only [closeWithin, closeWithin_succ, Option.map_eq_some_iff,
                  Option.bind_eq_some_iff] at found
                obtain ⟨_, ⟨innerCount, innerFound, laterCount, laterFound, rfl⟩, rfl⟩ := found
                obtain ⟨inner, later, rfl, innerBalanced, rfl⟩ := restHypothesis innerFound
                simp only [List.drop_append, List.drop_succ_cons, Nat.add_sub_cancel_left,
                  List.drop_eq_nil_of_le (Nat.le_succ inner.length), List.nil_append,
                  List.drop_zero] at laterFound
                obtain ⟨middle, rest, rfl, middleBalanced, rfl⟩ :=
                  inductionHypothesis later.length (by simp; omega) laterFound rfl
                refine ⟨.opening :: (inner ++ .closing :: middle), rest, by simp,
                  .list innerBalanced middleBalanced, ?_⟩
                simp only [List.length_cons, List.length_append]
                omega
            | space | comment | prefixMark | stringOpen | stringRest | atom =>
                simp only [closeWithin, Option.map_eq_some_iff] at found
                obtain ⟨restCount, restFound, rfl⟩ := found
                obtain ⟨inner, later, rfl, innerBalanced, rfl⟩ := restHypothesis restFound
                exact ⟨_ :: inner, later, rfl, .leaf (by decide) (by decide) innerBalanced, rfl⟩
  · rintro ⟨inner, rest, rfl, balanced, rfl⟩
    rw [balanced.closeWithin_append]
    rfl

theorem Balanced.closeWithin_eq_none {classes : List ByteClass} (balanced : Balanced classes) :
    closeWithin 0 classes = none := by
  have passed := balanced.closeWithin_append 0 []
  rwa [List.append_nil, closeWithin, Option.map_none] at passed

theorem balanced_of_closeWithin {classes : List ByteClass}
    (closed : closeWithin 0 (classes ++ [.closing]) = some (classes.length + 1)) :
    Balanced classes := by
  obtain ⟨inner, rest, split, balanced, length⟩ := closeWithin_eq_some_iff.mp closed
  obtain ⟨rfl, _⟩ := List.append_inj split (by omega)
  exact balanced

theorem Balanced.of_append {front rest : List ByteClass} (whole : Balanced (front ++ rest))
    (balanced : Balanced front) : Balanced rest := by
  have closed : closeWithin 0 (front ++ (rest ++ [.closing])) =
      some ((front ++ rest).length + 1) :=
    closeWithin_eq_some_iff.mpr ⟨front ++ rest, [], by simp, whole, rfl⟩
  rw [balanced.closeWithin_append, Option.map_eq_some_iff] at closed
  obtain ⟨count, found, same⟩ := closed
  rw [List.length_append] at same
  exact balanced_of_closeWithin (found.trans (congrArg some (by omega)))

/-- Classes that close nothing are balanced up to the first list they leave open. -/
theorem balanced_or_open_of_closeWithin {classes : List ByteClass}
    (unclosed : closeWithin 0 classes = none) :
    Balanced classes ∨ ∃ front rest, classes = front ++ .opening :: rest ∧ Balanced front ∧
      closeWithin 0 rest = none := by
  induction bound : classes.length using Nat.strongRecOn generalizing classes with
  | _ size inductionHypothesis =>
      subst bound
      cases classes with
      | nil => exact .inl .nil
      | cons cls rest =>
          cases cls with
          | closing => simp [closeWithin] at unclosed
          | opening =>
              cases inner : closeWithin 0 rest with
              | none => exact .inr ⟨[], rest, rfl, .nil, inner⟩
              | some count =>
                  obtain ⟨inside, later, rfl, insideBalanced, rfl⟩ :=
                    closeWithin_eq_some_iff.mp inner
                  have laterUnclosed : closeWithin 0 later = none := by
                    have paired : Balanced (.opening :: (inside ++ .closing :: [])) :=
                      .list insideBalanced .nil
                    have passed := paired.closeWithin_append 0 later
                    simp only [List.cons_append, List.append_assoc, List.nil_append] at passed
                    rw [passed, Option.map_eq_none_iff] at unclosed
                    exact unclosed
                  rcases inductionHypothesis later.length (by simp; omega) laterUnclosed rfl with
                    balanced | ⟨front, rest, rfl, frontBalanced, restUnclosed⟩
                  · exact .inl (.list insideBalanced balanced)
                  · exact .inr ⟨.opening :: (inside ++ .closing :: front), rest, by simp,
                      .list insideBalanced frontBalanced, restUnclosed⟩
          | space | comment | prefixMark | stringOpen | stringRest | atom =>
              have restUnclosed : closeWithin 0 rest = none := by
                simpa only [closeWithin, Option.map_eq_none_iff] using unclosed
              rcases inductionHypothesis rest.length (by simp) restUnclosed rfl with
                balanced | ⟨front, later, rfl, frontBalanced, laterUnclosed⟩
              · exact .inl (.leaf (by decide) (by decide) balanced)
              · exact .inr ⟨_ :: front, later, rfl, .leaf (by decide) (by decide) frontBalanced,
                  laterUnclosed⟩

/-- The bracket that opens a list is the last one in front of balanced classes. -/
theorem openWithin_reverse_eq_some_iff {classes : List ByteClass} {count : Nat} :
    openWithin 0 classes.reverse = some count ↔
      ∃ front inner, classes = front ++ .opening :: inner ∧ Balanced inner ∧
        count = inner.length + 1 := by
  rw [openWithin_eq, closeWithin_eq_some_iff]
  constructor
  · rintro ⟨inner, rest, turned, balanced, rfl⟩
    have whole : classes = (rest.reverse.map .flip) ++ .opening :: (inner.reverse.map .flip) := by
      have back := congrArg (fun list => (list.map ByteClass.flip).reverse) turned
      simpa [Function.comp_def, show ByteClass.flip .closing = .opening from rfl] using back
    exact ⟨_, _, whole, balanced.flipped, by simp⟩
  · rintro ⟨front, inner, rfl, balanced, rfl⟩
    exact ⟨inner.reverse.map .flip, front.reverse.map .flip, by simp [ByteClass.flip],
      balanced.flipped, by simp⟩

theorem Balanced.openWithin_reverse_eq_none {classes : List ByteClass}
    (balanced : Balanced classes) : openWithin 0 classes.reverse = none := by
  rw [openWithin_eq]
  exact balanced.flipped.closeWithin_eq_none

theorem balanced_or_closed_of_openWithin {classes : List ByteClass}
    (unopened : openWithin 0 classes.reverse = none) :
    Balanced classes ∨ ∃ front inner, classes = front ++ .closing :: inner ∧ Balanced inner ∧
      openWithin 0 front.reverse = none := by
  have back (list : List ByteClass) : ((list.reverse.map .flip).reverse.map .flip) = list := by
    simp [Function.comp_def]
  rw [openWithin_eq] at unopened
  rcases balanced_or_open_of_closeWithin unopened with
    balanced | ⟨inner, rest, turned, balanced, restUnopened⟩
  · left
    rw [← back classes]
    exact balanced.flipped
  · right
    refine ⟨rest.reverse.map .flip, inner.reverse.map .flip, ?_, balanced.flipped, ?_⟩
    · rw [← back classes, turned]
      simp [show ByteClass.flip .opening = .closing from rfl]
    · rw [openWithin_eq, back]
      exact restUnopened

/-- Behind a list that is never closed, some list is open at the end. -/
theorem exists_open_of_unclosed {rest : List ByteClass} (front : List ByteClass)
    (unclosed : closeWithin 0 rest = none) :
    ∃ before inner, front ++ .opening :: rest = before ++ .opening :: inner ∧ Balanced inner ∧
      front.length ≤ before.length := by
  induction bound : rest.length using Nat.strongRecOn generalizing front rest with
  | _ size inductionHypothesis =>
      subst bound
      rcases balanced_or_open_of_closeWithin unclosed with
        balanced | ⟨between, later, rfl, _, laterUnclosed⟩
      · exact ⟨front, rest, rfl, balanced, Nat.le_refl _⟩
      · obtain ⟨before, inner, split, balanced, length⟩ :=
          inductionHypothesis later.length (by simp; omega) (front ++ .opening :: between)
            laterUnclosed rfl
        refine ⟨before, inner, ?_, balanced, ?_⟩
        · rw [← split]
          simp
        · rw [List.length_append] at length
          omega

/-- A closing bracket that closes no list in front of it is met at depth zero, or
another one in front of it is. -/
theorem closeWithin_ne_none_of_unopened {front : List ByteClass} (rest : List ByteClass)
    (unopened : openWithin 0 front.reverse = none) :
    closeWithin 0 (front ++ .closing :: rest) ≠ none := by
  induction bound : front.length using Nat.strongRecOn generalizing front rest with
  | _ size inductionHypothesis =>
      subst bound
      rcases balanced_or_closed_of_openWithin unopened with
        balanced | ⟨before, inner, rfl, _, beforeUnopened⟩
      · rw [balanced.closeWithin_append]
        exact nofun
      · rw [List.append_assoc, List.cons_append]
        exact inductionHypothesis before.length (by simp) _ beforeUnopened rfl

/-- A list that opens in balanced classes is closed in them. -/
theorem Balanced.closeWithin_ne_none {front inner : List ByteClass}
    (balanced : Balanced (front ++ .opening :: inner)) : closeWithin 0 inner ≠ none := by
  intro unclosed
  obtain ⟨before, later, split, laterBalanced, _⟩ := exists_open_of_unclosed front unclosed
  rw [split] at balanced
  have opened := openWithin_reverse_eq_some_iff.mpr ⟨before, later, rfl, laterBalanced, rfl⟩
  rw [balanced.openWithin_reverse_eq_none] at opened
  contradiction

theorem closeForward_eq_some_iff {classes : List ByteClass} {pos stop : Nat} :
    closeForward classes pos 0 = some stop ↔
      ∃ inner rest, classes.drop pos = inner ++ .closing :: rest ∧ Balanced inner ∧
        stop = pos + inner.length + 1 := by
  simp only [closeForward, Option.map_eq_some_iff, closeWithin_eq_some_iff]
  constructor
  · rintro ⟨_, ⟨inner, rest, split, balanced, rfl⟩, rfl⟩
    exact ⟨inner, rest, split, balanced, by omega⟩
  · rintro ⟨inner, rest, split, balanced, rfl⟩
    exact ⟨_, ⟨inner, rest, split, balanced, rfl⟩, by omega⟩

theorem openBackward_eq_some_iff {classes : List ByteClass} {pos start : Nat} :
    openBackward classes pos 0 = some start ↔
      ∃ front inner, classes.take pos = front ++ .opening :: inner ∧ Balanced inner ∧
        start = front.length := by
  simp only [openBackward, before_eq, Option.map_eq_some_iff, openWithin_reverse_eq_some_iff]
  have position {front inner : List ByteClass}
      (split : classes.take pos = front ++ .opening :: inner) :
      min pos classes.length - (inner.length + 1) = front.length := by
    have length := congrArg List.length split
    simp only [List.length_take, List.length_append, List.length_cons] at length
    omega
  constructor
  · rintro ⟨_, ⟨front, inner, split, balanced, rfl⟩, rfl⟩
    exact ⟨front, inner, split, balanced, position split⟩
  · rintro ⟨front, inner, split, balanced, rfl⟩
    exact ⟨_, ⟨front, inner, split, balanced, rfl⟩, position split⟩

end SchemeLayout
