import SchemeLayout.Proofs.TextParts

/-!
The cursor pass is safe and complete.

Below the pass over the tokens there are four loops, which skip block comments,
strings, atoms and bar sections.  Each is a repetition of rounds.  A round that
starts inside the text, and in a comment that has been opened, reads inside the
buffer, and if the loop goes on after it, then it has moved the cursor on, has not
left the text, and has not closed the comment.  So every loop comes to its end, every
token takes a byte at least, and the pass comes to the end of the text with one class
for each byte.  None of this asks for whole characters: it holds for any bytes.
-/

set_option autoImplicit false

namespace SchemeLayout

namespace Cursor

variable {bytes : Bytes} {cursor : Cursor bytes}

/-! ## Moves -/

theorem current_of_le (within : cursor.pos ≤ bytes.length) :
    cursor.current = .ok (bytes.getD cursor.pos 0) :=
  read_of_le_length within

theorem peek_of_lt (inside : cursor.pos < bytes.length) :
    cursor.peek = .ok (bytes.getD (cursor.pos + 1) 0) :=
  read_of_le_length inside

theorem atEnd_of_lt (inside : cursor.pos < bytes.length) : cursor.atEnd = false :=
  decide_eq_false (Nat.not_le.mpr inside)

/-- Where the text has a byte that plays a part, there is a byte of the text. -/
theorem lt_length_of_role {index : Nat}
    (notOrdinary : ByteRole.of (bytes.getD index 0) ≠ .ordinary) : index < bytes.length := by
  apply Nat.lt_of_not_le
  intro outside
  rw [List.getD_eq_getElem?_getD, List.getElem?_eq_none outside] at notOrdinary
  exact notOrdinary rfl

/-- A cursor inside the text moves on, and does not leave it. -/
theorem advanceBy_moves (inside : cursor.pos < bytes.length) (count : Nat) :
    cursor.pos < (cursor.advanceBy (count + 1)).pos ∧
      (cursor.advanceBy (count + 1)).pos ≤ bytes.length := by
  rw [pos_advanceBy_of_le (Nat.le_of_lt inside)]
  omega

theorem exists_advanceChar (within : cursor.pos ≤ bytes.length) :
    ∃ next, cursor.advanceChar = .ok next ∧ cursor.pos ≤ next.pos ∧ next.pos ≤ bytes.length := by
  refine ⟨_, by rw [advanceChar, current_of_le within], pos_le_pos_advanceBy .., ?_⟩
  rw [pos_advanceBy_of_le within]
  exact Nat.min_le_right ..

theorem exists_seekStringMark (within : cursor.pos ≤ bytes.length) :
    ∃ found : Cursor bytes, cursor.seekStringMark = .ok (bytes.getD found.pos 0, found) ∧
      cursor.pos ≤ found.pos ∧ found.pos ≤ bytes.length :=
  ⟨_, by rw [seekStringMark, if_pos within], pos_le_pos_eatWhile .., pos_eatWhile_le within⟩

theorem drop_eq_cons (inside : cursor.pos < bytes.length) :
    bytes.drop cursor.pos = bytes.getD cursor.pos 0 :: bytes.drop cursor.advance.pos := by
  rw [List.drop_eq_getElem_cons inside, List.getD_eq_getElem?_getD,
    List.getElem?_eq_getElem inside]
  rfl

/-- A search passes over a wanted byte. -/
theorem eatWhile_of_wanted {wanted : UInt8 → Bool} (inside : cursor.pos < bytes.length)
    (isWanted : wanted (bytes.getD cursor.pos 0) = true) :
    cursor.eatWhile wanted = cursor.advance.eatWhile wanted := by
  rw [eatWhile, eatWhile, drop_eq_cons inside, List.takeWhile_cons_of_pos isWanted,
    List.length_cons, pos_advance, Nat.add_right_comm, Nat.add_assoc]

theorem eatWhile_of_unwanted {wanted : UInt8 → Bool} (inside : cursor.pos < bytes.length)
    (notWanted : wanted (bytes.getD cursor.pos 0) = false) : cursor.eatWhile wanted = cursor := by
  rw [eatWhile, drop_eq_cons inside, List.takeWhile_cons_of_neg (by simp only [notWanted]; decide)]
  rfl

theorem skipAtomByte_moves (inside : cursor.pos < bytes.length) (byte : UInt8) :
    cursor.pos < (cursor.skipAtomByte byte).pos ∧
      (cursor.skipAtomByte byte).pos ≤ bytes.length := by
  unfold skipAtomByte
  split
  · generalize isWanted : (fun inner => decide (ByteRole.of inner ≠ .bar)) = wanted
    have eaten := pos_le_pos_eatWhile wanted cursor.advance
    have bound : (cursor.advance.eatWhile wanted).pos ≤ bytes.length := pos_eatWhile_le inside
    rw [pos_advance] at eaten
    rw [pos_advanceBy_of_le bound]
    omega
  · exact advanceBy_moves inside 0

/-! ## The loops -/

/-- The cursor stands in front of a mark that opens a block comment. -/
def OpensComment (cursor : Cursor bytes) : Prop :=
  ByteRole.of (bytes.getD cursor.pos 0) = .hash ∧
    ByteRole.of (bytes.getD (cursor.pos + 1) 0) = .bar
  deriving Decidable

/-- It stands in front of a mark that closes one. -/
def ClosesComment (cursor : Cursor bytes) : Prop :=
  ByteRole.of (bytes.getD cursor.pos 0) = .bar ∧
    ByteRole.of (bytes.getD (cursor.pos + 1) 0) = .hash
  deriving Decidable

/-- The loops by which the pass skips. -/
inductive Skip where
  /-- A block comment, of which `depth` marks are open. -/
  | comment (depth : Nat)
  | string
  | atom
  /-- A bar section in an atom. -/
  | bars
  deriving DecidableEq, Repr

/-- What a round of a loop comes to. -/
inductive Round (bytes : Bytes) where
  | goesOn (skip : Skip) (next : Cursor bytes)
  | ends (final : Cursor bytes)
  deriving DecidableEq, Repr

namespace Skip

/-- A round of a loop: what is done before the loop starts over.  No round asks whether
it moves the cursor. -/
def round (cursor : Cursor bytes) : Skip → Except Fault (Round bytes)
  | comment depth =>
      if cursor.atEnd then
        return .ends cursor
      else do
        let byte ← cursor.current
        let next ← cursor.peek
        if ByteRole.of byte = .hash ∧ ByteRole.of next = .bar then
          return .goesOn (.comment (depth + 1)) (cursor.advanceBy 2)
        else if ByteRole.of byte = .bar ∧ ByteRole.of next = .hash then
          match depth with
          | 0 => throw (.unopened cursor.pos)
          | 1 => return .ends (cursor.advanceBy 2)
          | depth + 2 => return .goesOn (.comment (depth + 1)) (cursor.advanceBy 2)
        else
          return .goesOn (.comment depth) cursor.advance
  | string => do
      let (mark, found) ← cursor.seekStringMark
      match ByteRole.of mark with
      | .doubleQuote => return .ends found.advance
      | .backslash => return .goesOn .string (← found.advance.advanceChar)
      | _ => return .ends found
  | atom =>
      if cursor.atEnd then
        return .ends cursor
      else do
        let byte ← cursor.current
        if (ByteRole.of byte).endsAtom then
          return .ends cursor
        else
          return .goesOn .atom (cursor.skipAtomByte byte)
  | bars =>
      if cursor.atEnd then
        return .ends cursor
      else do
        let byte ← cursor.current
        if ByteRole.of byte = .bar then
          return .ends cursor
        else
          return .goesOn .bars cursor.advance

/-- The whole loop. -/
def run (cursor : Cursor bytes) : Skip → Except Fault (Cursor bytes)
  | comment depth => cursor.skipBlock depth
  | string => cursor.skipString
  | atom => cursor.skipAtomRest
  | bars => .ok (cursor.eatWhile fun byte => ByteRole.of byte ≠ .bar)

/-- Where a loop may start: inside the text or at its end, and a comment of which no mark
is open in front of its first one. -/
structure Ready (skip : Skip) (cursor : Cursor bytes) : Prop where
  within : cursor.pos ≤ bytes.length
  opened : skip = .comment 0 → cursor.OpensComment

end Skip

namespace Round

/-- What is left of the loop after a round. -/
def finish : Round bytes → Except Fault (Cursor bytes)
  | goesOn skip next => skip.run next
  | ends final => .ok final

/-- A round keeps inside the text.  If the loop goes on, the cursor has moved on, and a
comment is still open. -/
def Advances (cursor : Cursor bytes) : Round bytes → Prop
  | goesOn skip next => cursor.pos < next.pos ∧ next.pos ≤ bytes.length ∧ skip ≠ .comment 0
  | ends final => cursor.pos ≤ final.pos ∧ final.pos ≤ bytes.length

end Round

namespace Skip

variable {skip : Skip}

/-! ### Rounds -/

theorem round_of_le (notString : skip ≠ .string) (outside : bytes.length ≤ cursor.pos) :
    skip.round cursor = .ok (.ends cursor) := by
  have atEnd : cursor.atEnd = true := decide_eq_true outside
  cases skip with
  | string => contradiction
  | _ => simp only [round, atEnd, if_true, pure, Except.pure]

theorem round_comment (depth : Nat) (inside : cursor.pos < bytes.length) :
    (comment depth).round cursor =
      if cursor.OpensComment then .ok (.goesOn (.comment (depth + 1)) (cursor.advanceBy 2))
      else if cursor.ClosesComment then
        match depth with
        | 0 => .error (.unopened cursor.pos)
        | 1 => .ok (.ends (cursor.advanceBy 2))
        | depth + 2 => .ok (.goesOn (.comment (depth + 1)) (cursor.advanceBy 2))
      else .ok (.goesOn (.comment depth) cursor.advance) := by
  simp only [round, atEnd_of_lt inside, Bool.false_eq_true, if_false,
    current_of_le (Nat.le_of_lt inside), peek_of_lt inside, bind, Except.bind, pure, Except.pure]
  rfl

theorem round_atom (inside : cursor.pos < bytes.length) :
    atom.round cursor =
      if (ByteRole.of (bytes.getD cursor.pos 0)).endsAtom then .ok (.ends cursor)
      else .ok (.goesOn .atom (cursor.skipAtomByte (bytes.getD cursor.pos 0))) := by
  simp only [round, atEnd_of_lt inside, Bool.false_eq_true, if_false,
    current_of_le (Nat.le_of_lt inside), bind, Except.bind, pure, Except.pure]

theorem round_bars (inside : cursor.pos < bytes.length) :
    bars.round cursor =
      if ByteRole.of (bytes.getD cursor.pos 0) = .bar then .ok (.ends cursor)
      else .ok (.goesOn .bars cursor.advance) := by
  simp only [round, atEnd_of_lt inside, Bool.false_eq_true, if_false,
    current_of_le (Nat.le_of_lt inside), bind, Except.bind, pure, Except.pure]

theorem exists_round_comment {depth : Nat} (ready : (comment depth).Ready cursor)
    (inside : cursor.pos < bytes.length) :
    ∃ result, (comment depth).round cursor = .ok result ∧ result.Advances cursor := by
  have twoOn := advanceBy_moves inside 1
  rw [round_comment depth inside]
  by_cases opens : cursor.OpensComment
  · rw [if_pos opens]
    exact ⟨_, rfl, twoOn.1, twoOn.2, by simp⟩
  · rw [if_neg opens]
    split
    next =>
      rcases depth with _ | _ | depth
      · exact absurd (ready.opened rfl) opens
      · exact ⟨_, rfl, Nat.le_of_lt twoOn.1, twoOn.2⟩
      · exact ⟨_, rfl, twoOn.1, twoOn.2, by simp⟩
    next =>
      refine ⟨_, rfl, Nat.lt_succ_self _, inside, fun isStart => ?_⟩
      exact opens (ready.opened isStart)

theorem exists_round_string (within : cursor.pos ≤ bytes.length) :
    ∃ result, string.round cursor = .ok result ∧ result.Advances cursor := by
  obtain ⟨found, isFound, isAfter, stays⟩ := exists_seekStringMark within
  simp only [round, isFound, bind, Except.bind, pure, Except.pure]
  split
  next isQuote =>
    have inside : found.pos < bytes.length := lt_length_of_role (by rw [isQuote]; decide)
    exact ⟨_, rfl, Nat.le_trans isAfter (Nat.le_succ _), inside⟩
  next isEscape =>
    have inside : found.pos < bytes.length := lt_length_of_role (by rw [isEscape]; decide)
    obtain ⟨next, isNext, further, behind⟩ :=
      exists_advanceChar (show found.advance.pos ≤ _ from inside)
    rw [isNext]
    exact ⟨_, rfl, Nat.lt_of_le_of_lt isAfter further, behind, by simp⟩
  next => exact ⟨_, rfl, isAfter, stays⟩

/-- A round that may start reads inside the buffer, and moves on if it is not the last. -/
theorem Ready.exists_round (ready : skip.Ready cursor) :
    ∃ result, skip.round cursor = .ok result ∧ result.Advances cursor := by
  by_cases isString : skip = .string
  · subst isString
    exact exists_round_string ready.within
  · by_cases inside : cursor.pos < bytes.length
    · cases skip with
      | comment depth => exact exists_round_comment ready inside
      | string => contradiction
      | atom =>
          obtain ⟨moved, stays⟩ := skipAtomByte_moves inside (bytes.getD cursor.pos 0)
          rw [round_atom inside]
          split
          · exact ⟨_, rfl, Nat.le_refl _, ready.within⟩
          · exact ⟨_, rfl, moved, stays, by simp⟩
      | bars =>
          rw [round_bars inside]
          split
          · exact ⟨_, rfl, Nat.le_refl _, ready.within⟩
          · exact ⟨_, rfl, Nat.lt_succ_self _, inside, by simp⟩
    · refine ⟨.ends cursor, round_of_le isString (Nat.not_lt.mp inside), ?_⟩
      exact ⟨Nat.le_refl _, ready.within⟩

theorem within_of_goesOn {later : Skip} {next : Cursor bytes}
    (isRound : skip.round cursor = .ok (.goesOn later next)) : cursor.pos ≤ bytes.length := by
  apply Nat.le_of_not_lt
  intro outside
  by_cases isString : skip = .string
  · subst isString
    rw [round, seekStringMark, if_neg (Nat.not_le.mpr outside)] at isRound
    contradiction
  · rw [round_of_le isString (Nat.le_of_lt outside)] at isRound
    cases isRound

theorem Ready.of_goesOn {later : Skip} {next : Cursor bytes} (ready : skip.Ready cursor)
    (isRound : skip.round cursor = .ok (.goesOn later next)) :
    cursor.pos < next.pos ∧ later.Ready next := by
  obtain ⟨result, isResult, advances⟩ := ready.exists_round
  rw [isRound, Except.ok.injEq] at isResult
  subst isResult
  obtain ⟨moved, within, isOpen⟩ := advances
  exact ⟨moved, within, fun isStart => absurd isStart isOpen⟩

/-- Wherever a round starts: if the loop goes on after it, it has moved the cursor on. -/
theorem moves_of_goesOn {later : Skip} {next : Cursor bytes}
    (isRound : skip.round cursor = .ok (.goesOn later next)) :
    cursor.pos < next.pos ∧ next.pos ≤ bytes.length := by
  have within := within_of_goesOn isRound
  by_cases isStart : skip = .comment 0
  · -- This may be a comment that nobody opened: its depth does not matter here.
    subst isStart
    by_cases inside : cursor.pos < bytes.length
    · rw [round_comment 0 inside] at isRound
      split at isRound
      · cases isRound
        exact advanceBy_moves inside 1
      · split at isRound
        · contradiction
        · cases isRound
          exact ⟨Nat.lt_succ_self _, inside⟩
    · rw [round_of_le (by simp) (Nat.not_lt.mp inside)] at isRound
      cases isRound
  · have ready : skip.Ready cursor := ⟨within, fun same => absurd same isStart⟩
    obtain ⟨moved, laterReady⟩ := ready.of_goesOn isRound
    exact ⟨moved, laterReady.within⟩

/-! ### Loops -/

theorem skipBlock_of_round {depth : Nat} {result : Round bytes}
    (isRound : (comment depth).round cursor = .ok result) (inside : cursor.pos < bytes.length) :
    cursor.skipBlock depth = result.finish := by
  rw [skipBlock.eq_def, dif_neg (Nat.not_le.mpr inside)]
  simp only [current_of_le (Nat.le_of_lt inside), peek_of_lt inside]
  rw [round_comment depth inside] at isRound
  by_cases opens : cursor.OpensComment
  · rw [if_pos opens] at isRound
    cases isRound
    simp only [opens.1, opens.2]
    rfl
  · rw [if_neg opens] at isRound
    by_cases closes : cursor.ClosesComment
    · rw [if_pos closes] at isRound
      simp only [closes.1, closes.2]
      rcases depth with _ | _ | depth
      · contradiction
      · cases isRound
        rfl
      · cases isRound
        rfl
    · rw [if_neg closes] at isRound
      cases isRound
      split
      next isHash isBar => exact absurd ⟨isHash, isBar⟩ opens
      next isBar isHash => exact absurd ⟨isBar, isHash⟩ closes
      next => rfl

theorem skipString_of_round {result : Round bytes} (isRound : string.round cursor = .ok result)
    (within : cursor.pos ≤ bytes.length) : cursor.skipString = result.finish := by
  obtain ⟨found, isFound, isAfter, _⟩ := exists_seekStringMark within
  rw [skipString.eq_def]
  simp only [round, isFound, bind, Except.bind, pure, Except.pure] at isRound ⊢
  generalize isRole : ByteRole.of (bytes.getD found.pos 0) = role at isRound
  cases role with
  | backslash =>
      have inside : found.pos < bytes.length := lt_length_of_role (by rw [isRole]; decide)
      obtain ⟨next, isNext, further, _⟩ :=
        exists_advanceChar (show found.advance.pos ≤ _ from inside)
      rw [pos_advance] at further
      simp only [isNext] at isRound ⊢
      cases isRound
      rw [dif_pos (by omega)]
      rfl
  | _ =>
      cases isRound
      rfl

theorem skipAtomRest_of_round {result : Round bytes} (isRound : atom.round cursor = .ok result)
    (inside : cursor.pos < bytes.length) : cursor.skipAtomRest = result.finish := by
  rw [skipAtomRest.eq_def, dif_neg (Nat.not_le.mpr inside)]
  simp only [current_of_le (Nat.le_of_lt inside), dif_pos (skipAtomByte_moves inside _).1]
  rw [round_atom inside] at isRound
  split at isRound
  next isEnd =>
    cases isRound
    rw [if_pos isEnd]
    rfl
  next notEnd =>
    cases isRound
    rw [if_neg notEnd]
    rfl

theorem eatWhile_of_round {result : Round bytes} (isRound : bars.round cursor = .ok result)
    (inside : cursor.pos < bytes.length) : bars.run cursor = result.finish := by
  rw [run]
  rw [round_bars inside] at isRound
  split at isRound
  next isBar =>
    cases isRound
    rw [eatWhile_of_unwanted inside (decide_eq_false (not_not_intro isBar))]
    rfl
  next notBar =>
    cases isRound
    rw [eatWhile_of_wanted inside (decide_eq_true notBar)]
    rfl

theorem run_of_le (notString : skip ≠ .string) (outside : bytes.length ≤ cursor.pos) :
    skip.run cursor = .ok cursor := by
  cases skip with
  | comment depth => rw [run, skipBlock.eq_def, dif_pos outside]
  | string => contradiction
  | atom => rw [run, skipAtomRest.eq_def, dif_pos outside]
  | bars =>
      rw [run, eatWhile, List.drop_eq_nil_of_le outside]
      rfl

/-- A loop is a round and what is left of the loop after it. -/
theorem run_eq_finish {result : Round bytes} (within : cursor.pos ≤ bytes.length)
    (isRound : skip.round cursor = .ok result) : skip.run cursor = result.finish := by
  by_cases isString : skip = .string
  · subst isString
    exact skipString_of_round isRound within
  · by_cases inside : cursor.pos < bytes.length
    · cases skip with
      | comment depth => exact skipBlock_of_round isRound inside
      | string => contradiction
      | atom => exact skipAtomRest_of_round isRound inside
      | bars => exact eatWhile_of_round isRound inside
    · have outside := Nat.not_lt.mp inside
      rw [round_of_le isString outside, Except.ok.injEq] at isRound
      rw [run_of_le isString outside, ← isRound]
      rfl

/-- A loop that may start comes to its end inside the text. -/
theorem Ready.exists_run (ready : skip.Ready cursor) :
    ∃ final, skip.run cursor = .ok final ∧ cursor.pos ≤ final.pos ∧ final.pos ≤ bytes.length := by
  -- Every round that is not the last leaves less of the text.
  induction left : bytes.length - cursor.pos using Nat.strongRecOn generalizing skip cursor with
  | ind left inductionHypothesis =>
      obtain ⟨result, isRound, advances⟩ := ready.exists_round
      rw [run_eq_finish ready.within isRound]
      cases result with
      | ends final => exact ⟨final, rfl, advances⟩
      | goesOn later next =>
          obtain ⟨moved, laterReady⟩ := ready.of_goesOn isRound
          have within := laterReady.within
          obtain ⟨final, isFinal, further, stays⟩ :=
            inductionHypothesis (bytes.length - next.pos) (by omega) laterReady rfl
          exact ⟨final, isFinal, by omega, stays⟩

/-- If the loop goes on after its first round, it moves the cursor on. -/
theorem Ready.exists_run_of_goesOn {later : Skip} {next : Cursor bytes}
    (ready : skip.Ready cursor) (isRound : skip.round cursor = .ok (.goesOn later next)) :
    ∃ final, skip.run cursor = .ok final ∧ cursor.pos < final.pos ∧ final.pos ≤ bytes.length := by
  obtain ⟨moved, laterReady⟩ := ready.of_goesOn isRound
  obtain ⟨final, isFinal, further, stays⟩ := laterReady.exists_run
  rw [run_eq_finish ready.within isRound]
  exact ⟨final, isFinal, by omega, stays⟩

end Skip

/-! ## Tokens -/

theorem exists_skipBlock (inside : cursor.pos < bytes.length) (opens : cursor.OpensComment) :
    ∃ next, cursor.skipBlock 0 = .ok next ∧ cursor.pos < next.pos ∧ next.pos ≤ bytes.length := by
  have ready : (Skip.comment 0).Ready cursor := ⟨Nat.le_of_lt inside, fun _ => opens⟩
  apply ready.exists_run_of_goesOn
  rw [Skip.round_comment 0 inside, if_pos opens]

theorem exists_skipAtomRest (inside : cursor.pos < bytes.length)
    (notDelimiter : (ByteRole.of (bytes.getD cursor.pos 0)).endsAtom = false) :
    ∃ next, cursor.skipAtomRest = .ok next ∧ cursor.pos < next.pos ∧ next.pos ≤ bytes.length := by
  have ready : Skip.atom.Ready cursor := ⟨Nat.le_of_lt inside, by simp⟩
  apply ready.exists_run_of_goesOn
  rw [Skip.round_atom inside, notDelimiter]
  rfl

theorem exists_skipAtom (inside : cursor.pos < bytes.length)
    (notDelimiter : (ByteRole.of (bytes.getD cursor.pos 0)).endsAtom = false) :
    ∃ next, cursor.skipAtom = .ok next ∧ cursor.pos < next.pos ∧ next.pos ≤ bytes.length := by
  have isRest := exists_skipAtomRest inside notDelimiter
  simp only [skipAtom, current_of_le (Nat.le_of_lt inside), peek_of_lt inside, bind, Except.bind]
  split
  · split
    · obtain ⟨moved, within⟩ := advanceBy_moves inside 1
      obtain ⟨named, isNamed, further, stays⟩ := exists_advanceChar within
      have ready : Skip.atom.Ready named := ⟨stays, by simp⟩
      obtain ⟨next, isNext, behind, final⟩ := ready.exists_run
      rw [isNamed]
      exact ⟨next, isNext, by omega, final⟩
    · exact isRest
  · exact isRest

theorem exists_eatLine (inside : cursor.pos < bytes.length)
    (isSemicolon : ByteRole.of (bytes.getD cursor.pos 0) = .semicolon) :
    ∃ next, cursor.eatLine = .ok next ∧ cursor.pos < next.pos ∧ next.pos ≤ bytes.length := by
  have within := Nat.le_of_lt inside
  have isWanted : isLineText (.of (bytes.getD cursor.pos 0)) = true := by rw [isSemicolon]; rfl
  rw [← isLineText_of] at isWanted
  refine ⟨_, by rw [eatLine, if_pos within], ?_, pos_eatWhile_le within⟩
  rw [eatWhile_of_wanted inside isWanted]
  exact pos_le_pos_eatWhile _ cursor.advance

/-- There is one class for each byte between two places of the text. -/
structure Labels (classes : List ByteClass) (start stop : Cursor bytes) : Prop where
  within : stop.pos ≤ bytes.length
  length : start.pos + classes.length = stop.pos

theorem labels_fill {stop : Cursor bytes} (cls : ByteClass) (inOrder : cursor.pos ≤ stop.pos)
    (within : stop.pos ≤ bytes.length) : Labels (fill cls cursor stop) cursor stop := by
  refine ⟨within, ?_⟩
  rw [fill, List.length_replicate]
  omega

theorem Labels.append {classes rest : List ByteClass} {start middle stop : Cursor bytes}
    (front : Labels classes start middle) (back : Labels rest middle stop) :
    Labels (classes ++ rest) start stop := by
  refine ⟨back.within, ?_⟩
  rw [List.length_append, ← Nat.add_assoc, front.length, back.length]

/-- What is read takes a byte at least, and each of its bytes gets a class. -/
def Reads (cursor : Cursor bytes) (answer : Except Fault (List ByteClass × Cursor bytes)) : Prop :=
  ∃ classes next, answer = .ok (classes, next) ∧ cursor.pos < next.pos ∧ Labels classes cursor next

theorem reads_fill {next : Cursor bytes} (cls : ByteClass) (moved : cursor.pos < next.pos)
    (within : next.pos ≤ bytes.length) : cursor.Reads (.ok (fill cls cursor next, next)) :=
  ⟨_, _, rfl, moved, labels_fill cls (Nat.le_of_lt moved) within⟩

/-- At every byte of the text a token can be read, whether or not one may start there. -/
theorem reads_token (tokenStart : Bool) (inside : cursor.pos < bytes.length) :
    cursor.Reads (cursor.token tokenStart) := by
  have within := Nat.le_of_lt inside
  have isCurrent := current_of_le within
  have single (cls : ByteClass) :
      cursor.Reads (.ok (fill cls cursor cursor.advance, cursor.advance)) :=
    reads_fill cls (Nat.lt_succ_self _) inside
  generalize isRole : ByteRole.of (bytes.getD cursor.pos 0) = role
  have isAtom (notDelimiter : role.endsAtom = false) :
      ∃ next, cursor.skipAtom = .ok next ∧ cursor.Reads (.ok (fill .atom cursor next, next)) := by
    obtain ⟨next, isNext, moved, stays⟩ := exists_skipAtom inside (by rw [isRole, notDelimiter])
    exact ⟨next, isNext, reads_fill .atom moved stays⟩
  cases role with
  | blank | lineBreak | opening | closing =>
      simp only [token, isCurrent, isRole, bind, Except.bind, pure, Except.pure]
      exact single _
  | semicolon =>
      obtain ⟨next, isNext, moved, stays⟩ := exists_eatLine inside isRole
      simp only [token, isCurrent, isRole, isNext, bind, Except.bind, pure, Except.pure]
      exact reads_fill .comment moved stays
  | doubleQuote =>
      have ready : Skip.string.Ready cursor.advance := ⟨inside, by simp⟩
      obtain ⟨next, isNext, behind, stays⟩ := ready.exists_run
      rw [Skip.run] at isNext
      simp only [token, isCurrent, isRole, isNext, bind, Except.bind, pure, Except.pure]
      refine ⟨_, _, rfl, behind, .append ?_ (labels_fill .stringRest behind stays)⟩
      exact labels_fill .stringOpen (Nat.le_succ _) inside
  | atSign | bar | backslash | ordinary =>
      obtain ⟨next, isNext, reads⟩ := isAtom rfl
      simp only [token, isCurrent, isRole, isNext, bind, Except.bind, pure, Except.pure]
      exact reads
  | tick =>
      obtain ⟨next, isNext, reads⟩ := isAtom rfl
      simp only [token, isCurrent, isRole, isNext, bind, Except.bind, pure, Except.pure]
      split
      · exact single .prefixMark
      · exact reads
  | comma =>
      obtain ⟨next, isNext, reads⟩ := isAtom rfl
      have isBehind := current_of_le (show cursor.advance.pos ≤ _ from inside)
      simp only [token, isCurrent, isRole, isNext, isBehind, bind, Except.bind, pure, Except.pure]
      split
      · split
        next isAtSign =>
          have further : cursor.advance.pos < bytes.length :=
            lt_length_of_role (by rw [isAtSign]; decide)
          exact reads_fill .prefixMark (Nat.lt_succ_of_lt (Nat.lt_succ_self _)) further
        next => exact single .prefixMark
      · exact reads
  | hash =>
      obtain ⟨next, isNext, reads⟩ := isAtom rfl
      simp only [token, isCurrent, isRole, isNext, peek_of_lt inside, bind, Except.bind, pure,
        Except.pure]
      split
      next isBar =>
        obtain ⟨final, isFinal, moved, stays⟩ := exists_skipBlock inside ⟨isRole, isBar⟩
        rw [isFinal]
        exact reads_fill .comment moved stays
      next => exact single .prefixMark
      next => exact single .prefixMark
      next => exact single .prefixMark
      next => exact reads

/-! ## The pass -/

/-- From any place in the text the pass comes to the end of the text, with one class for
each byte that it passes. -/
theorem exists_classifyFrom (tokenStart : Bool) (within : cursor.pos ≤ bytes.length) :
    ∃ classes final, cursor.classifyFrom tokenStart = .ok (classes, final) ∧
      final.pos = bytes.length ∧ Labels classes cursor final := by
  induction left : bytes.length - cursor.pos using Nat.strongRecOn
    generalizing cursor tokenStart with
  | ind left inductionHypothesis =>
      rw [classifyFrom.eq_def]
      by_cases inside : cursor.pos < bytes.length
      · obtain ⟨classes, next, isToken, moved, labels⟩ := reads_token tokenStart inside
        obtain ⟨rest, final, isRest, atEnd, labelsRest⟩ :=
          inductionHypothesis (bytes.length - next.pos) (by omega)
            (classes.getLast? ≠ some .atom) labels.within rfl
        refine ⟨classes ++ rest, final, ?_, atEnd, labels.append labelsRest⟩
        rw [dif_neg (Nat.not_le.mpr inside), isToken]
        simp only [dif_pos moved, isRest]
      · refine ⟨[], cursor, ?_, by omega, within, rfl⟩
        rw [dif_pos (Nat.not_lt.mp inside)]

end Cursor

/-- The cursor pass over a text never reads outside its buffer, never searches from past
the end of the text, and closes no comment that is not open: it comes to the end of the
text, with one class for each byte, those of the snapshot.  It does so because from any
place in the text a token takes a byte at least, and because in each loop a round that
may start does not fail and leaves the rest of the loop to be done, in a comment that is
still open; and because no round after which a loop goes on stays where it is. -/
theorem classifyFrom_safe (text : String) :
    (∃ final : Cursor (encode text),
      (⟨0⟩ : Cursor (encode text)).classifyFrom true =
        .ok ((Source.ofString text).classes, final) ∧
      (⟨0⟩ : Cursor (encode text)).classify = .ok (Source.ofString text).classes ∧
      final.pos = (encode text).length ∧
      (Source.ofString text).classes.length = (encode text).length) ∧
    (∀ (cursor : Cursor (encode text)) (tokenStart : Bool),
      cursor.pos < (encode text).length → cursor.Reads (cursor.token tokenStart)) ∧
    (∀ (skip : Cursor.Skip) (cursor : Cursor (encode text)), skip.Ready cursor →
      ∃ result, skip.round cursor = .ok result ∧ result.Advances cursor ∧
        skip.run cursor = result.finish) ∧
    ∀ (skip later : Cursor.Skip) (cursor next : Cursor (encode text)),
      skip.round cursor = .ok (.goesOn later next) →
      cursor.pos < next.pos ∧ next.pos ≤ (encode text).length := by
  refine ⟨?_, fun cursor tokenStart => Cursor.reads_token tokenStart, ?_, ?_⟩
  · have isPass := Source.classify_cursor text
    have within : (⟨0⟩ : Cursor (encode text)).pos ≤ (encode text).length := Nat.zero_le _
    obtain ⟨classes, final, isFinal, atEnd, labels⟩ := Cursor.exists_classifyFrom true within
    have isClasses : classes = (Source.ofString text).classes := by
      rw [Cursor.classify, isFinal] at isPass
      exact Except.ok.inj isPass
    rw [isClasses] at isFinal labels
    refine ⟨final, isFinal, isPass, atEnd, ?_⟩
    rw [← atEnd, ← labels.length, Nat.zero_add]
  · intro skip cursor ready
    obtain ⟨result, isRound, advances⟩ := ready.exists_round
    exact ⟨result, isRound, advances, Cursor.Skip.run_eq_finish ready.within isRound⟩
  · intro skip later cursor next isRound
    exact Cursor.Skip.moves_of_goesOn isRound

/-- A string that is cut off behind the first byte of an escape. -/
theorem classifyFrom_safe_of_cut_escape :
    let bytes := encode "(\"\\"
    (⟨0⟩ : Cursor bytes).classifyFrom true = .ok ([.opening, .stringOpen, .stringRest], ⟨3⟩) ∧
      (⟨1⟩ : Cursor bytes).Reads ((⟨1⟩ : Cursor bytes).token true) ∧
      Cursor.Skip.string.run (⟨2⟩ : Cursor bytes) = Cursor.Skip.string.run (⟨3⟩ : Cursor bytes) ∧
      3 ≤ bytes.length := by
  intro bytes
  obtain ⟨⟨final, isPass, _, atEnd, _⟩, reads, rounds, moves⟩ := classifyFrom_safe "(\"\\"
  have isBytes : bytes = [0x28, 0x22, 0x5C] := by decide +kernel
  have isRound : Cursor.Skip.string.round (⟨2⟩ : Cursor bytes) = .ok (.goesOn .string ⟨3⟩) := by
    generalize bytes = same at isBytes
    subst isBytes
    rfl
  have ready : Cursor.Skip.string.Ready (⟨2⟩ : Cursor bytes) := ⟨by decide +kernel, by simp⟩
  obtain ⟨result, isResult, _, isRun⟩ := rounds .string ⟨2⟩ ready
  rw [isRound] at isResult
  cases isResult
  have isFinal : final = ⟨3⟩ := congrArg Cursor.mk (atEnd.trans (by decide +kernel))
  have isClasses : (Source.ofString "(\"\\").classes = [.opening, .stringOpen, .stringRest] := by
    decide +kernel
  rw [isFinal, isClasses] at isPass
  exact ⟨isPass, reads ⟨1⟩ true (by decide +kernel), isRun, (moves _ _ _ _ isRound).2⟩

end SchemeLayout
