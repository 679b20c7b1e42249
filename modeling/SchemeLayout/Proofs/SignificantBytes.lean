import SchemeLayout.Proofs.LexerRun

/-!
The significant bytes of a text.

All bytes but the white space between tokens are significant; with their classes
they are the tokens of the text.  Two readings of the same bytes from different
states are compared here.  The significant bytes tell the class of every byte, as
white space does not start a token; and a reading from inside an atom and one from
between two tokens that give every byte of a line the same class are in the same
state behind the line.
-/

set_option autoImplicit false

namespace SchemeLayout

/-- The bytes that are not white space between tokens, with their classes, read from
`state` on. -/
def significantFrom (state : LexState) (bytes : Bytes) : List (UInt8 × ByteClass) :=
  (bytes.zip (classifyFrom state (bytes.map .of))).filter (·.2 != .space)

def Source.significant (source : Source) : List (UInt8 × ByteClass) :=
  (source.bytes.zip source.classes).filter (·.2 != .space)

theorem Source.significant_eq (source : Source) :
    source.significant = significantFrom .between source.bytes := by
  rw [significant, source.classes_eq]
  rfl

theorem significantFrom_cons (state : LexState) (byte : UInt8) (rest : Bytes) :
    significantFrom state (byte :: rest) =
      if (state.step (.of byte) (rest.map .of).head?).1 = .space then
        significantFrom (state.step (.of byte) (rest.map .of).head?).2 rest
      else
        (byte, (state.step (.of byte) (rest.map .of).head?).1) ::
          significantFrom (state.step (.of byte) (rest.map .of).head?).2 rest := by
  simp only [significantFrom, List.map_cons, classifyFrom, List.zip_cons_cons, List.filter_cons,
    bne_iff_ne, ne_eq, ite_not]

theorem significantFrom_append (state : LexState) {front : Bytes}
    (notHash : (front.map ByteRole.of).getLast? ≠ some .hash) (back : Bytes) :
    significantFrom state (front ++ back) =
      significantFrom state front ++ significantFrom (state.run (front.map .of)) back := by
  rw [significantFrom, List.map_append, classifyFrom_append state notHash,
    List.zip_append (by simp), List.filter_append]
  rfl

/-- The significant bytes of the lines above come first. -/
theorem significantFrom_between_append {above : Bytes} (ended : EndsWithBreak above)
    (below : Bytes) :
    significantFrom .between (above ++ below) =
      significantFrom .between above ++ significantFrom (stateBehind above) below :=
  significantFrom_append .between ended.ne_hash below

/-! ## Indentation -/

section Indentation

variable {blanks : Bytes} (allBlank : ∀ byte ∈ blanks, ByteRole.of byte = .blank) (rest : Bytes)

include allBlank

/-- Between tokens, blanks are not significant. -/
theorem significantFrom_between_blanks :
    significantFrom .between (blanks ++ rest) = significantFrom .between rest := by
  induction blanks with
  | nil => rfl
  | cons byte blanks inductionHypothesis =>
      obtain ⟨isBlank, restBlank⟩ := List.forall_mem_cons.mp allBlank
      rw [List.cons_append, significantFrom_cons, isBlank]
      exact inductionHypothesis restBlank

/-- Blanks end an atom. -/
theorem significantFrom_atom_blanks :
    significantFrom .atom (blanks ++ rest) =
      if blanks = [] then significantFrom .atom rest else significantFrom .between rest := by
  cases blanks with
  | nil => rfl
  | cons byte blanks =>
      obtain ⟨isBlank, restBlank⟩ := List.forall_mem_cons.mp allBlank
      rw [if_neg (List.cons_ne_nil byte blanks), List.cons_append, significantFrom_cons, isBlank]
      exact significantFrom_between_blanks restBlank rest

/-- Between bars, all blanks belong to the atom. -/
theorem significantFrom_atomBar_blanks :
    significantFrom .atomBar (blanks ++ rest) =
      blanks.map (·, .atom) ++ significantFrom .atomBar rest := by
  induction blanks with
  | nil => rfl
  | cons byte blanks inductionHypothesis =>
      obtain ⟨isBlank, restBlank⟩ := List.forall_mem_cons.mp allBlank
      rw [List.cons_append, significantFrom_cons, isBlank, List.map_cons, List.cons_append,
        ← inductionHypothesis restBlank]
      rfl

end Indentation

theorem head?_significantFrom_atomBar (bytes : Bytes) :
    (significantFrom .atomBar bytes).head? = bytes.head?.map (·, .atom) := by
  cases bytes with
  | nil => rfl
  | cons byte rest =>
      have isAtom : (LexState.atomBar.step (.of byte) (rest.map .of).head?).1 = .atom := by
        simp only [LexState.step]
        split <;> rfl
      rw [significantFrom_cons, isAtom, if_neg (by decide)]
      rfl

/-! ## What the significant bytes tell -/

/-- White space is not significant exactly where it is read between tokens. -/
theorem LexState.of_step_eq_space {state : LexState} {role : ByteRole} {next : Option ByteRole}
    (isSpace : (state.step role next).1 = .space) :
    role.isWhite = true ∧ (state.step role next).2 = between := by
  rcases state.isLater_step_or role next with isLater | same
  · rw [isSpace] at isLater
    contradiction
  · rw [same] at isSpace ⊢
    cases role with
    | blank | lineBreak => exact ⟨rfl, rfl⟩
    | hash =>
        simp only [stepBetween] at isSpace
        split at isSpace <;> contradiction
    | _ => contradiction

/-- A token does not start with white space. -/
theorem not_isWhite_of_head?_significantFrom {bytes : Bytes} {byte : UInt8} {cls : ByteClass}
    (first : (significantFrom .between bytes).head? = some (byte, cls)) :
    (ByteRole.of byte).isWhite = false := by
  induction bytes with
  | nil => contradiction
  | cons start rest inductionHypothesis =>
      rw [significantFrom_cons] at first
      split at first
      next isSpace =>
        rw [(LexState.of_step_eq_space isSpace).2] at first
        exact inductionHypothesis first
      next notSpace =>
        obtain ⟨rfl, rfl⟩ := Prod.mk.inj (Option.some.inj first)
        rw [Bool.eq_false_iff]
        intro white
        apply notSpace
        cases role : ByteRole.of start with
        | blank | lineBreak => rfl
        | _ => simp [role, ByteRole.isWhite] at white

/-- A byte that one reading takes for white space is white space in the other as well,
if the significant bytes from there on are the same. -/
theorem step_eq_space_of_significantFrom_eq {state other : LexState} {byte : UInt8}
    {rest otherRest : Bytes}
    (same : significantFrom state (byte :: rest) = significantFrom other (byte :: otherRest))
    (isSpace : (state.step (.of byte) (rest.map .of).head?).1 = .space) :
    (other.step (.of byte) (otherRest.map .of).head?).1 = .space := by
  obtain ⟨white, isBetween⟩ := LexState.of_step_eq_space isSpace
  apply Decidable.byContradiction
  intro notSpace
  rw [significantFrom_cons, if_pos isSpace, isBetween, significantFrom_cons,
    if_neg notSpace] at same
  have notWhite := not_isWhite_of_head?_significantFrom (congrArg List.head? same)
  rw [white] at notWhite
  contradiction

/-- The significant bytes tell the classes of all bytes. -/
theorem take_classifyFrom_eq_of_significantFrom_eq {state other : LexState}
    {front rest otherRest : Bytes}
    (same : significantFrom state (front ++ rest) = significantFrom other (front ++ otherRest)) :
    (classifyFrom state ((front ++ rest).map .of)).take front.length =
      (classifyFrom other ((front ++ otherRest).map .of)).take front.length := by
  induction front generalizing state other with
  | nil => rfl
  | cons byte front inductionHypothesis =>
      rw [List.cons_append, List.cons_append] at same ⊢
      simp only [List.map_cons, classifyFrom, List.length_cons, List.take_succ_cons]
      by_cases isSpace : (state.step (.of byte) ((front ++ rest).map .of).head?).1 = .space
      · have isSpaceToo := step_eq_space_of_significantFrom_eq same isSpace
        rw [significantFrom_cons, significantFrom_cons, if_pos isSpace, if_pos isSpaceToo] at same
        rw [isSpace, isSpaceToo, inductionHypothesis same]
      · have notSpace : (other.step (.of byte) ((front ++ otherRest).map .of).head?).1 ≠ .space :=
          fun isSpaceToo => isSpace (step_eq_space_of_significantFrom_eq same.symm isSpaceToo)
        rw [significantFrom_cons, significantFrom_cons, if_neg isSpace, if_neg notSpace] at same
        obtain ⟨sameFirst, sameRest⟩ := List.cons.inj same
        rw [(Prod.mk.inj sameFirst).2, inductionHypothesis sameRest]

/-! ## Two readings of a line -/

/-- The states of two readings that have given the same bytes the same classes, the left
one from inside an atom and the right one from between two tokens. -/
inductive Alike : LexState → LexState → Prop where
  | same (state : LexState) : Alike state state
  | start : Alike .atom .between
  | hash : Alike .atom .atomHash
  | character : Alike .atom .charLiteral
  | leftBar : Alike .atomBar .atom
  | rightBar : Alike .atom .atomBar

namespace Alike

variable {left right : LexState}

theorem step (alike : Alike left right) {role : ByteRole} {next : Option ByteRole}
    (sameClass : (left.step role next).1 = (right.step role next).1) :
    Alike (left.step role next).2 (right.step role next).2 := by
  cases alike with
  | same => exact .same _
  | start =>
      cases role with
      | hash =>
          simp only [LexState.step, LexState.stepBetween] at sameClass ⊢
          split at sameClass
          · contradiction
          · contradiction
          · contradiction
          · contradiction
          · exact .hash
      | tick | comma => contradiction
      | _ => exact .same _
  | hash =>
      cases role with
      | backslash => exact .character
      | _ => exact .same _
  | character | leftBar | rightBar =>
      cases role with
      | blank | lineBreak | semicolon | doubleQuote | opening | closing => contradiction
      | _ => constructor

/-- A line break that has the same class in both readings ends the difference. -/
theorem step_lineBreak_eq (alike : Alike left right) {next : Option ByteRole}
    (sameClass : (left.step .lineBreak next).1 = (right.step .lineBreak next).1) :
    (left.step .lineBreak next).2 = (right.step .lineBreak next).2 := by
  cases alike with
  | same | start | hash => rfl
  | character | leftBar | rightBar => contradiction

theorem run_eq (alike : Alike left right) {roles : List ByteRole}
    (ended : roles.getLast? = some .lineBreak)
    (sameClasses : classifyFrom left roles = classifyFrom right roles) :
    left.run roles = right.run roles := by
  induction roles generalizing left right with
  | nil => contradiction
  | cons role rest inductionHypothesis =>
      obtain ⟨sameClass, sameRest⟩ := List.cons.inj sameClasses
      cases rest with
      | nil =>
          rw [List.getLast?_singleton, Option.some.injEq] at ended
          subst ended
          exact alike.step_lineBreak_eq sameClass
      | cons second rest =>
          rw [List.getLast?_cons_cons] at ended
          exact inductionHypothesis (alike.step sameClass) ended sameRest

end Alike

/-- Whether a line is read as the rest of an atom or from between two tokens: if its
bytes get the same classes, then what is significant is the same. -/
theorem significantFrom_atom_eq_between {front rest : Bytes}
    (ended : rest = [] ∨ (front.map ByteRole.of).getLast? = some .lineBreak)
    (sameClasses : classifyFrom .atom (front.map .of) = classifyFrom .between (front.map .of)) :
    significantFrom .atom (front ++ rest) = significantFrom .between (front ++ rest) := by
  have sameFront : significantFrom .atom front = significantFrom .between front := by
    rw [significantFrom, sameClasses, significantFrom]
  rcases ended with rfl | ended
  · rwa [List.append_nil]
  · rw [significantFrom_append _ (by simp [ended]), significantFrom_append _ (by simp [ended]),
      sameFront, Alike.start.run_eq ended sameClasses]

/-- Conversely, the bytes have the same classes if what is significant is the same, also
where the rest of the text differs. -/
theorem classifyFrom_eq_of_significantFrom_eq {state other : LexState}
    {front rest otherRest : Bytes}
    (ended : (rest = [] ∧ otherRest = []) ∨ (front.map ByteRole.of).getLast? = some .lineBreak)
    (same : significantFrom state (front ++ rest) = significantFrom other (front ++ otherRest)) :
    classifyFrom state (front.map .of) = classifyFrom other (front.map .of) := by
  have sameTake := take_classifyFrom_eq_of_significantFrom_eq same
  rcases ended with ⟨rfl, rfl⟩ | ended
  · rwa [List.append_nil, List.take_of_length_le (by simp), List.take_of_length_le (by simp)]
      at sameTake
  · rwa [List.map_append, List.map_append, ← List.length_map (f := ByteRole.of),
      take_classifyFrom_append _ (by simp [ended]), take_classifyFrom_append _ (by simp [ended])]
      at sameTake

end SchemeLayout
