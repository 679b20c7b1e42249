/-!
Blank characters and trimming.

A character is blank when it has the Unicode property White_Space.
-/

set_option autoImplicit false

namespace SchemeLayout

/-- The characters with the Unicode property White_Space. -/
def isBlank (char : Char) : Bool :=
  let code := char.toNat
  (0x09 ≤ code && code ≤ 0x0D) || code == 0x20 || code == 0x85 || code == 0xA0 ||
    code == 0x1680 || (0x2000 ≤ code && code ≤ 0x200A) || code == 0x2028 ||
    code == 0x2029 || code == 0x202F || code == 0x205F || code == 0x3000

def trim (chars : List Char) : List Char :=
  ((chars.dropWhile isBlank).reverse.dropWhile isBlank).reverse

@[simp] theorem trim_nil : trim [] = [] := rfl

theorem trim_eq_self {chars : List Char}
    (first : ∀ char ∈ chars.head?, isBlank char = false)
    (last : ∀ char ∈ chars.getLast?, isBlank char = false) : trim chars = chars := by
  have dropFront : chars.dropWhile isBlank = chars := by
    cases chars with
    | nil => rfl
    | cons char rest => simp [first char (by simp)]
  have dropBack : chars.reverse.dropWhile isBlank = chars.reverse := by
    cases reversed : chars.reverse with
    | nil => rfl
    | cons char rest =>
        have isLast : char ∈ chars.getLast? := by
          rw [← List.head?_reverse, reversed]
          simp
        simp [last char isLast]
  rw [trim, dropFront, dropBack, List.reverse_reverse]

/-- Split a text at the first occurrence of `mark`, which neither part keeps. -/
def splitAtFirst (mark : Char) : List Char → Option (List Char × List Char)
  | [] => none
  | char :: rest =>
      if char = mark then
        some ([], rest)
      else
        (splitAtFirst mark rest).map fun parts => (char :: parts.1, parts.2)

theorem splitAtFirst_eq_some_iff {mark : Char} {chars before after : List Char} :
    splitAtFirst mark chars = some (before, after) ↔
      mark ∉ before ∧ chars = before ++ mark :: after := by
  induction chars generalizing before with
  | nil => simp [splitAtFirst]
  | cons char rest inductionHypothesis =>
      by_cases isMark : char = mark
      · cases before with
        | nil => simp [splitAtFirst, isMark, eq_comm]
        | cons head tail =>
            simp only [splitAtFirst, isMark, if_true, Option.some.injEq, Prod.mk.injEq,
              List.cons_append, List.cons.injEq, List.mem_cons, not_or]
            constructor
            · rintro ⟨impossible, _⟩
              cases impossible
            · rintro ⟨⟨different, _⟩, same, _⟩
              exact absurd same different
      · cases before with
        | nil => simp [splitAtFirst, isMark]
        | cons head tail =>
            simp only [splitAtFirst, isMark, if_false, Option.map_eq_some_iff, Prod.exists,
              Prod.mk.injEq, List.cons.injEq, List.cons_append, List.mem_cons, not_or]
            constructor
            · rintro ⟨first, second, found, ⟨sameHead, sameTail⟩, sameRest⟩
              subst sameHead sameTail sameRest
              have parts := inductionHypothesis.mp found
              exact ⟨⟨fun same => isMark same.symm, parts.1⟩, rfl, parts.2⟩
            · rintro ⟨⟨_, absent⟩, sameHead, sameTail⟩
              exact ⟨tail, after, inductionHypothesis.mpr ⟨absent, sameTail⟩,
                ⟨sameHead, rfl⟩, rfl⟩

theorem splitAtFirst_eq_none_iff {mark : Char} {chars : List Char} :
    splitAtFirst mark chars = none ↔ mark ∉ chars := by
  induction chars with
  | nil => simp [splitAtFirst]
  | cons char rest inductionHypothesis =>
      by_cases isMark : char = mark
      · simp [splitAtFirst, isMark]
      · have different : mark ≠ char := fun same => isMark same.symm
        simp [splitAtFirst, isMark, inductionHypothesis, different]

end SchemeLayout
