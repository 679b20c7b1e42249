import SchemeLayout.Proofs.FormGrammar
import SchemeLayout.Source

/-!
The lexer, run over a text in parts.

`LexState.run` is the state that the lexer reaches; what it makes of a text is
what it makes of the front, followed by what it makes of the rest from there on.
Only a hash at the end of the front would look over to the rest.

The state knows the class of the last byte as far as a token is open, so white
space inside an atom or a string always continues the token.  Behind a line break
the lexer is between two tokens, or inside a string, a block comment or an atom.
-/

set_option autoImplicit false

namespace SchemeLayout

/-- Blanks and line breaks. -/
def ByteRole.isWhite : ByteRole → Bool
  | blank | lineBreak => true
  | _ => false

/-- The text is empty or ends with a line break. -/
def EndsWithBreak (bytes : Bytes) : Prop :=
  ∀ byte ∈ bytes.getLast?, byte = lineFeed ∨ byte = carriageReturn

theorem EndsWithBreak.getLast?_map {bytes : Bytes} (ended : EndsWithBreak bytes)
    (notEmpty : bytes ≠ []) : (bytes.map ByteRole.of).getLast? = some .lineBreak := by
  rw [List.getLast?_map, List.getLast?_eq_some_getLast notEmpty, Option.map_some,
    Option.some.injEq, ByteRole.of_eq_lineBreak_iff]
  exact ended _ (List.getLast?_eq_some_getLast notEmpty)

theorem EndsWithBreak.ne_hash {bytes : Bytes} (ended : EndsWithBreak bytes) :
    (bytes.map ByteRole.of).getLast? ≠ some .hash := by
  cases bytes with
  | nil => simp
  | cons byte rest =>
      rw [ended.getLast?_map (List.cons_ne_nil byte rest)]
      decide

/-! ## One part after the other -/

namespace LexState

theorem stepBetween_of_ne_hash {role : ByteRole} (notHash : role ≠ .hash)
    (next other : Option ByteRole) : stepBetween role next = stepBetween role other := by
  cases role with
  | hash => contradiction
  | _ => rfl

/-- Only behind a hash the lexer looks at the next byte. -/
theorem step_of_ne_hash {role : ByteRole} (notHash : role ≠ .hash) (state : LexState)
    (next other : Option ByteRole) : state.step role next = state.step role other := by
  have same := stepBetween_of_ne_hash notHash next other
  cases state with
  | between => exact same
  | afterComma | lineComment | atom | atomHash => simp only [step, stepAtom, same]
  | _ => rfl

/-- The state behind some bytes, of which the roles are given. -/
def run (state : LexState) : List ByteRole → LexState
  | [] => state
  | role :: rest => run (state.step role rest.head?).2 rest

/-- The last of some bytes is read from a state that does not depend on what follows;
only the last byte itself looks at it. -/
theorem exists_last_step (state : LexState) {roles : List ByteRole} {role : ByteRole}
    (isLast : roles.getLast? = some role) :
    ∃ (before : LexState) (passed : List ByteClass),
      passed.length + 1 = roles.length ∧ state.run roles = (before.step role none).2 ∧
      ∀ later, classifyFrom state (roles ++ later) =
        passed ++ (before.step role later.head?).1 ::
          classifyFrom (before.step role later.head?).2 later := by
  induction roles generalizing state with
  | nil => contradiction
  | cons first rest inductionHypothesis =>
      cases rest with
      | nil =>
          rw [List.getLast?_singleton, Option.some.injEq] at isLast
          subst isLast
          exact ⟨state, [], rfl, rfl, fun later => rfl⟩
      | cons second rest =>
          rw [List.getLast?_cons_cons] at isLast
          obtain ⟨before, passed, length, isState, isRead⟩ :=
            inductionHypothesis (state.step first (some second)).2 isLast
          refine ⟨before, (state.step first (some second)).1 :: passed, ?_, isState, ?_⟩
          · exact congrArg (· + 1) length
          · intro later
            exact congrArg ((state.step first (some second)).1 :: ·) (isRead later)

/-- The class of the last byte and the state behind it come from one step. -/
theorem exists_step_of_getLast? (state : LexState) {roles : List ByteRole} {role : ByteRole}
    (isLast : roles.getLast? = some role) :
    ∃ before : LexState,
      (classifyFrom state roles).getLast? = some (before.step role none).1 ∧
        state.run roles = (before.step role none).2 := by
  obtain ⟨before, passed, _, isState, isRead⟩ := state.exists_last_step isLast
  refine ⟨before, ?_, isState⟩
  have alone := isRead []
  rw [List.append_nil] at alone
  rw [alone]
  exact List.getLast?_concat

end LexState

theorem classifyFrom_append (state : LexState) {roles : List ByteRole}
    (notHash : roles.getLast? ≠ some .hash) (later : List ByteRole) :
    classifyFrom state (roles ++ later) =
      classifyFrom state roles ++ classifyFrom (state.run roles) later := by
  cases isLast : roles.getLast? with
  | none =>
      rw [List.getLast?_eq_none_iff.mp isLast]
      rfl
  | some role =>
      obtain ⟨before, passed, _, isState, isRead⟩ := state.exists_last_step isLast
      have same : before.step role later.head? = before.step role none :=
        before.step_of_ne_hash (fun isHash => notHash (isHash ▸ isLast)) _ _
      have alone := isRead []
      rw [List.append_nil] at alone
      rw [isRead later, alone, isState, same, List.append_assoc]
      rfl

theorem take_classifyFrom_append (state : LexState) {roles : List ByteRole}
    (notHash : roles.getLast? ≠ some .hash) (later : List ByteRole) :
    (classifyFrom state (roles ++ later)).take roles.length = classifyFrom state roles := by
  rw [classifyFrom_append state notHash, List.take_left' (length_classifyFrom state roles)]

/-- The classes of a text that does not end with a hash stay when more text follows. -/
theorem take_classify_of_ne_hash {above : Bytes}
    (notHash : (above.map ByteRole.of).getLast? ≠ some .hash) (below : Bytes) :
    (classify (above ++ below)).take above.length = classify above := by
  have same := take_classifyFrom_append .between notHash (below.map .of)
  rwa [List.length_map, ← List.map_append] at same

theorem take_classify_append {above : Bytes} (ended : EndsWithBreak above) (below : Bytes) :
    (classify (above ++ below)).take above.length = classify above :=
  take_classify_of_ne_hash ended.ne_hash below

namespace LexState

/-- Inside an atom. -/
def inAtom : LexState → Bool
  | atom | atomHash | charLiteral | atomBar => true
  | _ => false

/-- The lexer is inside an atom behind the bytes of atoms, and nowhere else. -/
theorem inAtom_step (state : LexState) (role : ByteRole) (next : Option ByteRole) :
    (state.step role next).2.inAtom = ((state.step role next).1 == .atom) := by
  have fromBetween : (stepBetween role next).2.inAtom = ((stepBetween role next).1 == .atom) := by
    cases role with
    | hash =>
        simp only [stepBetween]
        split <;> rfl
    | _ => rfl
  have fromAtom : (stepAtom role next).2.inAtom = ((stepAtom role next).1 == .atom) := by
    unfold stepAtom
    split
    · exact fromBetween
    · split <;> rfl
  cases state with
  | between => exact fromBetween
  | atom => exact fromAtom
  | afterComma =>
      simp only [step]
      split
      · rfl
      · exact fromBetween
  | lineComment =>
      simp only [step]
      split
      · exact fromBetween
      · rfl
  | atomHash =>
      simp only [step]
      split
      · rfl
      · exact fromAtom
  | blockComment depth pending =>
      simp only [step, stepBlock]
      repeat' split
      all_goals rfl
  | string | atomBar =>
      simp only [step]
      split <;> rfl
  | stringEscape | charLiteral => rfl

end LexState

/-- The classes of a front come first, even if it looks over to the rest, and the rest is
read from the state behind the front: inside an atom if the front ends with one. -/
theorem exists_classifyFrom_append (state : LexState) (front rest : List ByteRole) :
    ∃ passed reached, passed.length = front.length ∧
      classifyFrom state (front ++ rest) = passed ++ classifyFrom reached rest ∧
      state.run (front ++ rest) = reached.run rest ∧
      reached.inAtom = (passed.map (· == .atom)).getLastD state.inAtom := by
  induction front generalizing state with
  | nil => exact ⟨[], state, rfl, rfl, rfl, rfl⟩
  | cons role front inductionHypothesis =>
      have ahead := state.inAtom_step role (front ++ rest).head?
      generalize isReading : state.step role (front ++ rest).head? = reading at ahead
      obtain ⟨passed, reached, length, classes, behind, ends⟩ := inductionHypothesis reading.2
      refine ⟨reading.1 :: passed, reached, by simp [length], ?_, ?_, ?_⟩
      · rw [List.cons_append, classifyFrom, isReading, classes, List.cons_append]
      · rw [List.cons_append, LexState.run, isReading, behind]
      · rw [ends, List.map_cons, List.getLastD_cons, ahead]

/-! ## Single bytes -/

theorem exists_step_of_classifyFrom {state : LexState} {roles : List ByteRole} {pos : Nat}
    {cls : ByteClass} (isClass : (classifyFrom state roles)[pos]? = some cls) :
    ∃ (before : LexState) (role : ByteRole) (next : Option ByteRole),
      roles[pos]? = some role ∧ (before.step role next).1 = cls := by
  induction roles generalizing state pos with
  | nil => contradiction
  | cons role rest inductionHypothesis =>
      rw [classifyFrom] at isClass
      cases pos with
      | zero => exact ⟨state, role, rest.head?, rfl, Option.some.inj isClass⟩
      | succ pos => exact inductionHypothesis isClass

/-- The classes that a byte can have as a later byte of a token. -/
def ByteClass.isLater : ByteClass → Bool
  | comment | prefixMark | stringRest | atom => true
  | space | opening | closing | stringOpen => false

namespace LexState

/-- A byte continues a token, or it is read as it is between tokens. -/
theorem isLater_step_or (state : LexState) (role : ByteRole) (next : Option ByteRole) :
    (state.step role next).1.isLater = true ∨ state.step role next = stepBetween role next := by
  have fromAtom :
      (stepAtom role next).1.isLater = true ∨ stepAtom role next = stepBetween role next := by
    unfold stepAtom
    split
    · exact .inr rfl
    · split <;> exact .inl rfl
  cases state with
  | between => exact .inr rfl
  | afterComma =>
      simp only [step]
      split
      · exact .inl rfl
      · exact .inr rfl
  | lineComment =>
      simp only [step]
      split
      · exact .inr rfl
      · exact .inl rfl
  | blockComment | stringEscape | charLiteral => exact .inl rfl
  | string | atomBar =>
      left
      simp only [step]
      split <;> rfl
  | atom => exact fromAtom
  | atomHash =>
      simp only [step]
      split
      · exact .inl rfl
      · exact fromAtom

theorem eq_opening_of_step {state : LexState} {role : ByteRole} {next : Option ByteRole}
    (isOpening : (state.step role next).1 = .opening) : role = .opening := by
  rcases state.isLater_step_or role next with isLater | same
  · rw [isOpening] at isLater
    contradiction
  · rw [same] at isOpening
    cases role with
    | opening => rfl
    | hash =>
        simp only [stepBetween] at isOpening
        split at isOpening <;> contradiction
    | _ => contradiction

end LexState

/-- Only brackets open lists. -/
theorem exists_opening_of_classify {bytes : Bytes} {pos : Nat}
    (isOpening : (classify bytes)[pos]? = some .opening) :
    ∃ byte, bytes[pos]? = some byte ∧ ByteRole.of byte = .opening := by
  obtain ⟨before, role, next, found, opens⟩ := exists_step_of_classifyFrom isOpening
  rw [List.getElem?_map, Option.map_eq_some_iff] at found
  obtain ⟨byte, found, rfl⟩ := found
  exact ⟨byte, found, LexState.eq_opening_of_step opens⟩

/-! ## White space inside tokens -/

namespace LexState

/-- The class of the last byte fits the state: inside an atom or a string it belongs
to the token. -/
def Continues (previous : Option ByteClass) : LexState → Prop
  | string | stringEscape => previous = some .stringOpen ∨ previous = some .stringRest
  | atom | atomHash | charLiteral | atomBar => previous = some .atom
  | between | afterComma | lineComment | blockComment _ _ => True

theorem continues_stepBetween (role : ByteRole) (next : Option ByteRole) :
    (stepBetween role next).2.Continues (some (stepBetween role next).1) := by
  cases role with
  | hash =>
      simp only [stepBetween]
      split <;> simp [Continues]
  | _ => simp [stepBetween, Continues]

theorem continues_step (state : LexState) (role : ByteRole) (next : Option ByteRole) :
    (state.step role next).2.Continues (some (state.step role next).1) := by
  have fromBetween := continues_stepBetween role next
  have fromAtom : (stepAtom role next).2.Continues (some (stepAtom role next).1) := by
    unfold stepAtom
    split
    · exact fromBetween
    · split <;> rfl
  cases state with
  | between => exact fromBetween
  | afterComma =>
      simp only [step]
      split
      · trivial
      · exact fromBetween
  | lineComment =>
      simp only [step]
      split
      · exact fromBetween
      · trivial
  | blockComment depth pending =>
      simp only [step, stepBlock]
      repeat' split
      all_goals trivial
  | string =>
      simp only [step]
      split <;> simp [Continues]
  | stringEscape => exact .inr rfl
  | atom => exact fromAtom
  | atomHash =>
      simp only [step]
      split
      · rfl
      · exact fromAtom
  | charLiteral => rfl
  | atomBar =>
      simp only [step]
      split <;> rfl

/-- White space is trivia, or it continues a token. -/
theorem joined_step_of_isWhite {state : LexState} {previous : Option ByteClass}
    (continues : state.Continues previous) {role : ByteRole} (white : role.isWhite = true)
    (next : Option ByteRole) :
    (state.step role next).1.isTrivia = true ∨
      joined previous (some (state.step role next).1) = true := by
  have either : role = .blank ∨ role = .lineBreak := by
    cases role <;> simp_all [ByteRole.isWhite]
  rcases either with rfl | rfl <;>
    cases state with
    | string | stringEscape => rcases continues with rfl | rfl <;> exact .inr rfl
    | charLiteral | atomBar =>
        cases continues
        exact .inr rfl
    | _ => exact .inl rfl

end LexState

theorem joined_classifyFrom_of_isWhite {state : LexState} {previous : Option ByteClass}
    (continues : state.Continues previous) {roles : List ByteRole} {pos : Nat} {role : ByteRole}
    (found : roles[pos]? = some role) (white : role.isWhite = true) {cls : ByteClass}
    (isClass : (classifyFrom state roles)[pos]? = some cls) (significant : cls.isTrivia = false) :
    joined (((classifyFrom state roles).take pos).getLast?.or previous) (some cls) = true := by
  induction roles generalizing state previous pos with
  | nil => contradiction
  | cons first rest inductionHypothesis =>
      cases pos with
      | zero =>
          rw [List.getElem?_cons_zero, Option.some.injEq] at found
          subst found
          rw [classifyFrom, List.getElem?_cons_zero, Option.some.injEq] at isClass
          subst isClass
          have either := LexState.joined_step_of_isWhite continues white rest.head?
          exact either.resolve_left (by simp [significant])
      | succ pos =>
          rw [classifyFrom, List.getElem?_cons_succ] at isClass
          have rest := inductionHypothesis (state.continues_step first rest.head?)
            found isClass
          rw [classifyFrom, List.take_succ_cons, List.getLast?_cons]
          cases last : ((classifyFrom (state.step first _).2 _).take pos).getLast? with
          | none => simpa [last] using rest
          | some other => simpa [last] using rest

/-- White space that is neither blank nor part of a comment does not start a token. -/
theorem joined_classify_of_isWhite {bytes : Bytes} {pos : Nat} {byte : UInt8}
    (found : bytes[pos]? = some byte) (white : (ByteRole.of byte).isWhite = true)
    {cls : ByteClass} (isClass : (classify bytes)[pos]? = some cls)
    (significant : cls.isTrivia = false) :
    joined ((classify bytes).take pos).getLast? (some cls) = true := by
  have foundRole : (bytes.map ByteRole.of)[pos]? = some (ByteRole.of byte) := by
    rw [List.getElem?_map, found, Option.map_some]
  have continues : LexState.between.Continues none := trivial
  have joins := joined_classifyFrom_of_isWhite continues foundRole white isClass significant
  rwa [Option.or_none] at joins

/-! ## Behind a line break -/

/-- The state of the lexer behind a text. -/
def stateBehind (bytes : Bytes) : LexState := LexState.between.run (bytes.map .of)

namespace LexState

/-- Inside a string or a block comment. -/
def inLiteral : LexState → Bool
  | string | stringEscape | blockComment _ _ => true
  | _ => false

/-- A line break leaves the lexer inside a string or a block comment exactly if it
belongs to one; otherwise between tokens or inside an atom. -/
theorem step_lineBreak_cases (state : LexState) :
    let reading := state.step .lineBreak none
    (reading.2.inLiteral = (reading.1 == .stringRest || reading.1 == .comment)) ∧
      (reading.2.inLiteral = false →
        reading.2 = between ∨ reading.2 = atom ∨ reading.2 = atomBar) := by
  cases state <;> simp [step, stepBetween, stepAtom, stepBlock, inLiteral, ByteRole.endsAtom]

end LexState

/-- At the start of a line outside strings and block comments, the lexer is between
tokens or inside an atom. -/
theorem stateBehind_cases {above : Bytes} (ended : EndsWithBreak above)
    (outside : (stateBehind above).inLiteral = false) :
    stateBehind above = .between ∨ stateBehind above = .atom ∨ stateBehind above = .atomBar := by
  rcases List.eq_nil_or_concat above with rfl | ⟨front, byte, isAbove⟩
  · exact .inl rfl
  · obtain ⟨before, _, isState⟩ :=
      LexState.between.exists_step_of_getLast? (ended.getLast?_map (by simp [isAbove]))
    rw [stateBehind, isState] at outside ⊢
    exact before.step_lineBreak_cases.2 outside

end SchemeLayout
