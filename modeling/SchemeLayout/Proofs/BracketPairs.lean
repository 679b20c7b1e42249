import SchemeLayout.Proofs.EnclosingLists

/-!
Pairs of brackets.

Two brackets are a pair when the classes between them are balanced.  Matching
forward from the opening bracket and matching backward from the closing one both
come down to this, whatever stands around the pair, so each of them undoes the
other.  Two pairs never cross: a pair that opens inside another closes inside it.
-/

set_option autoImplicit false

namespace SchemeLayout

/-- Matching forward from the opening bracket at `opening` finds the one at `closing`. -/
def IsPair (classes : List ByteClass) (opening closing : Nat) : Prop :=
  classes[opening]? = some .opening ∧
    closeForward classes (opening + 1) 0 = some (closing + 1)

variable {classes : List ByteClass} {opening closing : Nat}

/-- What stands between the two brackets of a pair is balanced. -/
theorem isPair_iff_balanced :
    IsPair classes opening closing ↔
      ∃ front inner rest, classes = front ++ .opening :: (inner ++ .closing :: rest) ∧
        Balanced inner ∧ opening = front.length ∧ closing = front.length + 1 + inner.length := by
  constructor
  · rintro ⟨isOpening, closed⟩
    obtain ⟨front, later, rfl, rfl⟩ := exists_append_of_getElem? isOpening
    obtain ⟨inner, rest, split, balanced, stop⟩ := closeForward_eq_some_iff.mp closed
    have behind : (front ++ .opening :: later).drop (front.length + 1) = later := by simp
    rw [behind] at split
    subst split
    exact ⟨front, inner, rest, rfl, balanced, rfl, by omega⟩
  · rintro ⟨front, inner, rest, rfl, balanced, rfl, rfl⟩
    refine ⟨by simp, ?_⟩
    apply closeForward_eq_some_iff.mpr
    exact ⟨inner, rest, by simp, balanced, rfl⟩

/-- Matching backward from the closing bracket of a pair finds the opening one. -/
theorem isPair_iff_openBackward :
    IsPair classes opening closing ↔
      classes[closing]? = some .closing ∧ openBackward classes closing 0 = some opening := by
  rw [isPair_iff_balanced]
  constructor
  · rintro ⟨front, inner, rest, rfl, balanced, rfl, rfl⟩
    have split : front ++ .opening :: (inner ++ .closing :: rest) =
        (front ++ .opening :: inner) ++ .closing :: rest := by simp
    have length : front.length + 1 + inner.length = (front ++ .opening :: inner).length := by
      simp only [List.length_append, List.length_cons]
      omega
    rw [split, length]
    refine ⟨by simp, ?_⟩
    apply openBackward_eq_some_iff.mpr
    exact ⟨front, inner, List.take_left, balanced, rfl⟩
  · rintro ⟨isClosing, opened⟩
    obtain ⟨passed, rest, rfl, rfl⟩ := exists_append_of_getElem? isClosing
    obtain ⟨front, inner, split, balanced, rfl⟩ := openBackward_eq_some_iff.mp opened
    rw [List.take_left] at split
    subst split
    refine ⟨front, inner, rest, by simp, balanced, rfl, ?_⟩
    simp only [List.length_append, List.length_cons]
    omega

/-- A pair that opens inside another one closes inside it. -/
theorem IsPair.closing_lt {innerOpening innerClosing : Nat} (outer : IsPair classes opening closing)
    (inner : IsPair classes innerOpening innerClosing) (isBehind : opening < innerOpening)
    (isInside : innerOpening < closing) : innerClosing < closing := by
  have aroundOuter : Encloses classes opening (innerOpening + 1) := by
    refine ⟨by omega, outer.1, ?_⟩
    intro stop closed
    rw [outer.2, Option.some.injEq] at closed
    omega
  have aroundInner : Encloses classes innerOpening (innerOpening + 1) := by
    refine ⟨by omega, inner.1, ?_⟩
    intro stop closed
    exact (closeForward_bounds closed).1
  have ends : innerClosing + 1 ≤ closing + 1 := by
    simpa only [listStop, outer.2, inner.2, Option.getD_some] using
      aroundOuter.listStop_le aroundInner isBehind
  -- One closing bracket cannot belong to both pairs, since it finds one opening bracket.
  have differ : innerClosing ≠ closing := by
    rintro rfl
    have found := (isPair_iff_openBackward.mp outer).2
    rw [(isPair_iff_openBackward.mp inner).2, Option.some.injEq] at found
    omega
  omega

/-- Two pairs lie one behind the other or one inside the other. -/
theorem IsPair.apart_or_inside {laterOpening laterClosing : Nat}
    (first : IsPair classes opening closing) (later : IsPair classes laterOpening laterClosing)
    (isBehind : opening < laterOpening) : closing < laterOpening ∨ laterClosing < closing := by
  rcases Nat.lt_trichotomy closing laterOpening with apart | same | inside
  · exact .inl apart
  · have isClosing := (isPair_iff_openBackward.mp first).1
    rw [same, later.1] at isClosing
    contradiction
  · exact .inr (first.closing_lt later isBehind inside)

/-- The two directions of matching undo each other, and the pairs that they find never
cross. -/
theorem matching_involutive_and_noncrossing (classes : List ByteClass) :
    (∀ opening closing, classes[opening]? = some .opening → classes[closing]? = some .closing →
      opening < closing →
        (closeForward classes (opening + 1) 0 = some (closing + 1) ↔
          openBackward classes closing 0 = some opening)) ∧
    ∀ opening closing laterOpening laterClosing, IsPair classes opening closing →
      IsPair classes laterOpening laterClosing → opening < laterOpening →
        closing < laterOpening ∨ laterClosing < closing := by
  constructor
  · intro opening closing isOpening isClosing _
    constructor
    · intro closed
      exact (isPair_iff_openBackward.mp ⟨isOpening, closed⟩).2
    · intro opened
      exact (isPair_iff_openBackward.mpr ⟨isClosing, opened⟩).2
  · intro opening closing laterOpening laterClosing first later
    exact first.apart_or_inside later

/-- In `)(((a))`, behind a stray bracket and in a list that is never closed, one pair lies
inside the other. -/
theorem matching_in_unbalanced_table :
    let classes : List ByteClass := [.closing, .opening, .opening, .opening, .atom, .closing,
      .closing]
    openBackward classes 6 0 = some 2 ∧ closeForward classes 3 0 = some 7 ∧ (6 < 3 ∨ 5 < 6) := by
  intro classes
  have facts := matching_involutive_and_noncrossing classes
  have opened : openBackward classes 6 0 = some 2 := by decide
  have closed := (facts.1 2 6 rfl rfl (by decide)).mpr opened
  have outer : IsPair classes 2 6 := ⟨rfl, closed⟩
  have inner : IsPair classes 3 5 := ⟨rfl, by decide⟩
  exact ⟨opened, closed, facts.2 2 6 3 5 outer inner (by decide)⟩

end SchemeLayout
