import SchemeLayout.Proofs.FormTree

/-!
The children of a list, enumerated from its start and from a position inside it.

Reading backward from a position until nothing is left gives the forms that
reading forward from the start of the enclosing list gives up to that position,
in reverse.  This holds of every class table, also of one that no text has, and
of positions behind its end.
-/

set_option autoImplicit false

namespace SchemeLayout

/-- The forms read one after the other from `start`, as long as they end at or
before `pos`. -/
def formsThrough (classes : List ByteClass) (start pos : Nat) : List Form :=
  (formsFrom classes start).takeWhile fun form => form.stop ≤ pos

variable {classes front inner : List ByteClass} {pos : Nat}

theorem formsFrom_eq_append_drop (uncut : cutsToken classes pos = false)
    (unprefixed : lastSignificant? classes pos ≠ some .prefixMark)
    (split : classes.take pos = front ++ inner) (balanced : Balanced inner) :
    formsFrom classes front.length =
      formsAhead front.length inner ++ formsAhead pos (classes.drop pos) := by
  rcases Nat.le_total pos classes.length with within | beyond
  · exact formsFrom_eq_append within uncut unprefixed split balanced
  · -- Nothing is left behind the position, so the front and the balanced classes are all.
    rw [List.drop_of_length_le beyond, formsAhead_of_none pos rfl, List.append_nil]
    rw [List.take_of_length_le beyond] at split
    subst split
    rw [formsFrom, List.drop_left, Nat.min_eq_left (by simp)]

/-- Up to a position that cuts no form, reading forward stays within the balanced
classes in front of it. -/
theorem formsThrough_eq (uncut : cutsToken classes pos = false)
    (unprefixed : lastSignificant? classes pos ≠ some .prefixMark)
    (split : classes.take pos = front ++ inner) (balanced : Balanced inner) :
    formsThrough classes front.length pos = formsAhead front.length inner := by
  have length := congrArg List.length split
  simp only [List.length_take, List.length_append] at length
  have inFront : ∀ form ∈ formsAhead front.length inner, decide (form.stop ≤ pos) = true := by
    intro form member
    have bounds := formsAhead_bounds member
    exact decide_eq_true (by omega)
  have behind :
      (formsAhead pos (classes.drop pos)).takeWhile (fun form => form.stop ≤ pos) = [] := by
    cases forms : formsAhead pos (classes.drop pos) with
    | nil => rfl
    | cons form rest =>
        have bounds := formsAhead_bounds (forms ▸ List.mem_cons_self)
        exact List.takeWhile_cons_of_neg (by simp only [decide_eq_true_eq]; omega)
  rw [formsThrough, formsFrom_eq_append_drop uncut unprefixed split balanced,
    List.takeWhile_append_of_pos inFront, behind, List.append_nil]

/-- From a position that cuts no token and no prefix mark off its form, the forms
found backward are those found forward from the start of the enclosing list, in
reverse.  Outside all lists, and with no stray bracket in front, the enumeration
forward starts with the table. -/
theorem formsBefore_eq_reverse_formsThrough (classes : List ByteClass) (pos : Nat)
    (uncut : cutsToken classes pos = false)
    (unprefixed : lastSignificant? classes pos ≠ some .prefixMark) :
    (∀ opening, openBackward classes pos 0 = some opening →
      formsBefore classes pos = (formsThrough classes (opening + 1) pos).reverse) ∧
    (openBackward classes pos 0 = none → NoStrayClose classes pos →
      formsBefore classes pos = (formsThrough classes 0 pos).reverse) := by
  constructor
  · intro opening around
    obtain ⟨front, inner, split, balanced, rfl⟩ := openBackward_eq_some_iff.mp around
    have inside : classes.take pos = (front ++ [.opening]) ++ inner := by simp [split]
    have forward := formsThrough_eq uncut unprefixed inside balanced
    rw [List.length_append, List.length_singleton] at forward
    rw [forward, formsBefore_eq_reverse_of_list split balanced]
  · intro outside noStray
    have balanced := balanced_take_of_noStrayClose outside noStray
    have split : classes.take pos = [] ++ classes.take pos := rfl
    have backward := formsBefore_of_take_eq split balanced (fresh_nil _)
    have forward := formsThrough_eq uncut unprefixed split balanced
    rw [List.reverse_nil, formsBehind_of_none _ rfl, List.append_nil] at backward
    rw [List.length_nil] at backward forward
    rw [forward, backward]

/-- The rest of a string, a quoted atom and a list stand in a list that is not closed;
an atom and a quoted string stand outside all lists. -/
theorem formsBefore_of_open_list_and_outside :
    formsBefore [.opening, .stringRest, .prefixMark, .space, .atom, .opening, .closing] 9 =
        [⟨5, 5, 7, .list⟩, ⟨2, 4, 5, .atom⟩, ⟨1, 1, 2, .string⟩] ∧
      formsBefore [.atom, .prefixMark, .comment, .stringOpen, .space, .opening] 5 =
        [⟨1, 3, 4, .string⟩, ⟨0, 0, 1, .atom⟩] := by
  have inList := (formsBefore_eq_reverse_formsThrough
    [.opening, .stringRest, .prefixMark, .space, .atom, .opening, .closing] 9
    (by decide) (by decide)).1
  have outside := (formsBefore_eq_reverse_formsThrough
    [.atom, .prefixMark, .comment, .stringOpen, .space, .opening] 5 (by decide) (by decide)).2
  constructor
  · rw [inList 0 (by decide)]
    decide +kernel
  · rw [outside (by decide) (by unfold NoStrayClose; decide)]
    decide +kernel

end SchemeLayout
