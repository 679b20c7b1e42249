import SchemeLayout.Layout.Anchor
import SchemeLayout.Layout.Column
import SchemeLayout.Form.Sibling
import SchemeLayout.Layout.Style

/-!
The column a new line starts at.

The anchor of the line and, for a list headed by a symbol, the policy of the
symbol decide on a position in front of the line.  The line is aligned with it, or
set in from it by a fixed distance.
-/

set_option autoImplicit false

namespace SchemeLayout

/-- The column of a position, or one at a distance to the right of it. -/
structure Alignment where
  pos : Nat
  distance : UInt32 := 0
  deriving DecidableEq, Repr

namespace Source

/-- The walk to the left over the forms in front of `offset`, as long as it is behind
the start of the line.  `previous` is the form that the walk has left last. -/
def walkLeft (source : Source) (lineStart previous offset : Nat) : Nat :=
  match _found : formBackward source.classes offset with
  | none => previous
  | some form =>
      if lineStart < offset then source.walkLeft lineStart offset form.start else previous
termination_by offset
decreasing_by
  have bounds := formBackward_bounds _found
  omega

/-- The first argument on the line where the form at `previous` starts.  The head
of the list and a form at the very start of the line do not count; if nothing is
left, the answer is `previous`. -/
def leftmostOnLine (source : Source) (previous : Nat) : Nat :=
  source.walkLeft (source.lineStart previous) previous previous

/-- Count on over the forms in front of `offset`, but not further than one above the
limit. -/
def countOn (source : Source) (limit count offset : Nat) : Nat :=
  match _found : formBackward source.classes offset with
  | none => count
  | some form =>
      if limit < count + 1 then count + 1 else source.countOn limit (count + 1) form.start
termination_by offset
decreasing_by
  have bounds := formBackward_bounds _found
  omega

/-- The number of forms in front of an offset, or one above the limit if there are more. -/
def countPreceding (source : Source) (offset limit : Nat) : Nat :=
  source.countOn limit 0 offset

section Walks

variable {source : Source} {offset : Nat}

theorem walkLeft_of_form {form : Form} (found : formBackward source.classes offset = some form)
    (lineStart previous : Nat) :
    source.walkLeft lineStart previous offset =
      if lineStart < offset then source.walkLeft lineStart offset form.start else previous := by
  rw [walkLeft]
  split
  next missing => rw [missing] at found; contradiction
  next again => rw [again] at found; cases found; rfl

theorem walkLeft_of_none (nothing : formBackward source.classes offset = none)
    (lineStart previous : Nat) : source.walkLeft lineStart previous offset = previous := by
  rw [walkLeft]
  split
  next => rfl
  next found => rw [found] at nothing; contradiction

/-- The walk ends at the last of the positions it passes that is behind the start of the line
and not that of the first form in the list. -/
theorem walkLeft_eq (source : Source) (lineStart previous offset : Nat) :
    source.walkLeft lineStart previous offset =
      ((offset :: (formsBefore source.classes offset).map Form.start).dropLast.takeWhile
        (lineStart < ·)).getLastD previous := by
  induction offset using Nat.strongRecOn generalizing previous with
  | _ offset inductionHypothesis =>
      rw [formsBefore_eq]
      cases found : formBackward source.classes offset with
      | none =>
          rw [walkLeft_of_none found]
          rfl
      | some form =>
          have bounds := formBackward_bounds found
          simp only [List.map_cons, List.dropLast_cons_cons, List.takeWhile_cons, decide_eq_true_eq]
          rw [walkLeft_of_form found]
          split
          · rw [inductionHypothesis form.start (by omega), List.getLastD_cons]
          · rfl

theorem countOn_of_form {form : Form} (found : formBackward source.classes offset = some form)
    (limit count : Nat) :
    source.countOn limit count offset =
      if limit < count + 1 then count + 1 else source.countOn limit (count + 1) form.start := by
  rw [countOn]
  split
  next missing => rw [missing] at found; contradiction
  next again => rw [again] at found; cases found; rfl

theorem countOn_of_none (nothing : formBackward source.classes offset = none)
    (limit count : Nat) : source.countOn limit count offset = count := by
  rw [countOn]
  split
  next => rfl
  next found => rw [found] at nothing; contradiction

/-- Counting on adds the forms in front of the offset, up to one above the limit. -/
theorem countOn_eq {limit count : Nat} (below : count ≤ limit) (offset : Nat) :
    source.countOn limit count offset =
      min (count + (formsBefore source.classes offset).length) (limit + 1) := by
  induction offset using Nat.strongRecOn generalizing count with
  | _ offset inductionHypothesis =>
      rw [formsBefore_eq]
      cases found : formBackward source.classes offset with
      | none =>
          rw [countOn_of_none found, List.length_nil]
          omega
      | some form =>
          have bounds := formBackward_bounds found
          rw [countOn_of_form found]
          simp only [List.length_cons]
          split
          · omega
          · rw [inductionHypothesis form.start (by omega) (by omega)]
            omega

theorem lt_countPreceding_iff {limit : Nat} :
    limit < source.countPreceding offset limit ↔
      limit < (formsBefore source.classes offset).length := by
  rw [countPreceding, countOn_eq (Nat.zero_le limit)]
  omega

/-- There are not more forms than bytes, so a word holds the count for every text within the
limit. -/
theorem countPreceding_le_length (source : Source) (offset limit : Nat) :
    source.countPreceding offset limit ≤ source.length := by
  have bound := length_formsBefore_le source.classes offset
  rw [source.length_classes] at bound
  rw [countPreceding, countOn_eq (Nat.zero_le limit)]
  omega

end Walks

def policyAlignment (source : Source) (policy : Policy) (offset previous opening : Nat) :
    Alignment :=
  match policy.fixedOffset? with
  | some distance => ⟨opening, distance⟩
  | none =>
      match policy with
      | .standard => ⟨source.leftmostOnLine previous, 0⟩
      | .binding threshold =>
          let body : Policy :=
            if threshold.toNat < source.countPreceding offset threshold.toNat then .sequence
            else .branch
          ⟨opening, body.fixedOffset?.getD 0⟩
      | .sequence | .definition | .branch | .verbatim => ⟨previous, 0⟩

theorem policyAlignment_of_fixedOffset? {policy : Policy} {distance : UInt32}
    (fixed : policy.fixedOffset? = some distance) (source : Source)
    (offset previous opening : Nat) :
    source.policyAlignment policy offset previous opening = ⟨opening, distance⟩ := by
  simp only [policyAlignment, fixed]

theorem policyAlignment_binding (source : Source) (threshold : UInt32)
    (offset previous opening : Nat) :
    source.policyAlignment (.binding threshold) offset previous opening =
      ⟨opening, if threshold.toNat < (formsBefore source.classes offset).length then bodyOffset
        else branchOffset⟩ := by
  simp only [policyAlignment, Policy.fixedOffset?, lt_countPreceding_iff]
  by_cases behindHeader : threshold.toNat < (formsBefore source.classes offset).length <;>
    simp [behindHeader]

/-- What a line that starts at `offset` is aligned with, if anything stands in front
of it. -/
def alignment? (source : Source) (table : PolicyTable) (offset : Nat) : Option Alignment :=
  match source.anchor offset with
  | .bufferStart => none
  | .firstInList opening => some ⟨opening, 1⟩
  | .topLevel previous | .leafHead previous => some ⟨previous, 0⟩
  | .listHead head => some ⟨head, 0⟩
  | .symbolHead previous opening symbol =>
      some (source.policyAlignment (table.policyFor symbol) offset previous opening)

/-- The column at which a line that starts at `offset` is indented. -/
def indentation (source : Source) (style : Style) (offset : Nat) : UInt32 :=
  match source.alignment? style.table offset with
  | none => 0
  | some alignment => source.column style.config.tabWidth alignment.pos + alignment.distance

end Source

end SchemeLayout
