import SchemeLayout.Lexer.Cursor
import SchemeLayout.Proofs.Characters

/-!
A cursor between two characters.

What a cursor reads and how far it moves is told by the characters that lie ahead
of it.  At the end of the text it reads the zero byte behind the text, which plays
no part.  Over the bytes of a longer character a cursor moves as over as many
ordinary bytes.
-/

set_option autoImplicit false

namespace SchemeLayout

/-! ## The width of a character -/

theorem charWidth_ofNat {value : Nat} (isByte : value < 256) :
    charWidth (UInt8.ofNat value) =
      if value < 0xC0 then 1 else if value < 0xE0 then 2 else if value < 0xF0 then 3
      else if value < 0xF8 then 4 else 1 := by
  have same : (UInt8.ofNat value).toNat = value := by simp [Nat.mod_eq_of_lt isByte]
  simp only [charWidth, UInt8.lt_iff_toNat_lt, same]
  rfl

/-- The first byte of a character tells how many there are. -/
theorem exists_lead (char : Char) :
    ∃ lead tail, String.utf8EncodeChar char = lead :: tail ∧ charWidth lead = char.utf8Size := by
  rw [← String.length_utf8EncodeChar]
  simp only [String.utf8EncodeChar]
  split
  · refine ⟨_, _, rfl, ?_⟩
    rw [charWidth_ofNat (by omega), if_pos (by omega)]
    rfl
  · split
    · refine ⟨_, _, rfl, ?_⟩
      rw [charWidth_ofNat (by omega), if_neg (by omega), if_pos (by omega)]
      rfl
    · split
      · refine ⟨_, _, rfl, ?_⟩
        rw [charWidth_ofNat (by omega), if_neg (by omega), if_neg (by omega), if_pos (by omega)]
        rfl
      · refine ⟨_, _, rfl, ?_⟩
        rw [charWidth_ofNat (by omega), if_neg (by omega), if_neg (by omega), if_neg (by omega),
          if_pos (by omega)]
        rfl

/-! ## Characters ahead -/

namespace Cursor

variable {bytes : Bytes} {cursor other : Cursor bytes}

/-- The characters ahead of the cursor. -/
structure At (cursor : Cursor bytes) (chars : List Char) : Prop where
  within : cursor.pos ≤ bytes.length
  ahead : bytes.drop cursor.pos = utf8Bytes chars

/-- The part that the next byte plays; at the end of the text, none. -/
def roleAhead (chars : List Char) : ByteRole := (chars.head?.map .ofChar).getD .ordinary

/-- What skips ordinary bytes one by one skips a run of them. -/
theorem scan_ordinary {Result : Type} {scan : Cursor bytes → Result}
    (skips : ∀ cursor : Cursor bytes, cursor.pos < bytes.length →
      ByteRole.of (bytes.getD cursor.pos 0) = .ordinary → scan cursor = scan cursor.advance)
    {run later : Bytes} (ordinary : ∀ byte ∈ run, ByteRole.of byte = .ordinary)
    (ahead : bytes.drop cursor.pos = run ++ later) :
    scan cursor = scan ⟨cursor.pos + run.length⟩ := by
  induction run generalizing cursor with
  | nil => rfl
  | cons byte run inductionHypothesis =>
      rw [List.forall_mem_cons] at ordinary
      have found : bytes[cursor.pos]? = some byte := by rw [← List.head?_drop, ahead]; rfl
      have inside : cursor.pos < bytes.length := (List.getElem?_eq_some_iff.mp found).1
      have behind : bytes.drop cursor.advance.pos = run ++ later := by
        rw [pos_advance, ← List.drop_drop, ahead]
        rfl
      have isOrdinary : ByteRole.of (bytes.getD cursor.pos 0) = .ordinary := by
        rw [List.getD_eq_getElem?_getD, found, Option.getD_some, ordinary.1]
      rw [skips cursor inside isOrdinary, inductionHypothesis ordinary.2 behind, pos_advance,
        List.length_cons, Nat.add_assoc, Nat.add_comm 1]

namespace At

variable {char : Char} {chars rest : List Char}

theorem start (text : String) : (⟨0⟩ : Cursor (encode text)).At text.toList :=
  ⟨Nat.zero_le _, encode_eq_utf8Bytes text⟩

theorem pos_add (isAt : cursor.At chars) : cursor.pos + byteLength chars = bytes.length := by
  have length := congrArg List.length isAt.ahead
  rw [List.length_drop, length_utf8Bytes] at length
  have within := isAt.within
  omega

theorem pos_lt (isAt : cursor.At (char :: rest)) : cursor.pos < bytes.length := by
  have length := isAt.pos_add
  have positive := byteLength_pos (List.cons_ne_nil char rest)
  omega

/-- A cursor that has moved over some characters stands in front of the others. -/
theorem move (front : List Char) (isAt : cursor.At (front ++ rest))
    (moved : other.pos = cursor.pos + byteLength front) : other.At rest := by
  have length := isAt.pos_add
  rw [byteLength_append] at length
  refine ⟨by omega, ?_⟩
  rw [moved, ← List.drop_drop, isAt.ahead, utf8Bytes_append,
    List.drop_left' (length_utf8Bytes front)]

theorem pos_eq (front : List Char) (isAt : cursor.At (front ++ rest)) (behind : other.At rest) :
    other.pos = cursor.pos + byteLength front := by
  have length := isAt.pos_add
  have later := behind.pos_add
  rw [byteLength_append] at length
  omega

theorem current (isAt : cursor.At chars) :
    ∃ byte, cursor.current = .ok byte ∧ ByteRole.of byte = roleAhead chars := by
  refine ⟨_, read_of_le_length isAt.within, ?_⟩
  have first : bytes[cursor.pos]? = (utf8Bytes chars).head? := by
    rw [← isAt.ahead, List.head?_drop]
  have roles := congrArg List.head? (map_of_utf8Bytes chars)
  rw [List.head?_map, ← first, head?_rolesOf] at roles
  rw [List.getD_eq_getElem?_getD, roleAhead, ← roles]
  cases bytes[cursor.pos]? <;> rfl

theorem advance (isAt : cursor.At (char :: rest)) (single : char.utf8Size = 1) :
    cursor.advance.At rest :=
  move [char] isAt (by simp [single])

theorem peek (isAt : cursor.At (char :: rest)) (single : char.utf8Size = 1) :
    ∃ byte, cursor.peek = .ok byte ∧ ByteRole.of byte = roleAhead rest :=
  (isAt.advance single).current

theorem advanceBy (front : List Char) {count : Nat} (isAt : cursor.At (front ++ rest))
    (isCount : byteLength front = count) : (cursor.advanceBy count).At rest := by
  have length := isAt.pos_add
  rw [byteLength_append] at length
  refine move front isAt ?_
  rw [pos_advanceBy_of_le isAt.within]
  omega

/-- At the end of the text a cursor stays. -/
theorem advanceBy_nil (isAt : cursor.At []) (count : Nat) : (cursor.advanceBy count).At [] := by
  have length := isAt.pos_add
  rw [byteLength_nil] at length
  refine move [] isAt ?_
  rw [pos_advanceBy_of_le isAt.within, byteLength_nil]
  omega

theorem advanceChar (isAt : cursor.At (char :: rest)) :
    ∃ next, cursor.advanceChar = .ok next ∧ next.At rest := by
  obtain ⟨lead, tail, isChar, width⟩ := exists_lead char
  have isLead : cursor.current = .ok lead := by
    have first : bytes[cursor.pos]? = some lead := by
      rw [← List.head?_drop, isAt.ahead, utf8Bytes_cons, isChar]
      rfl
    rw [Cursor.current, read_of_le_length isAt.within, List.getD_eq_getElem?_getD, first]
    rfl
  refine ⟨cursor.advanceBy (charWidth lead), ?_, ?_⟩
  · rw [Cursor.advanceChar, isLead]
  · exact advanceBy [char] isAt (by simp [width])

theorem advanceChar_nil (isAt : cursor.At []) :
    ∃ next, cursor.advanceChar = .ok next ∧ next.At [] := by
  obtain ⟨byte, isByte, _⟩ := isAt.current
  exact ⟨_, by rw [Cursor.advanceChar, isByte], isAt.advanceBy_nil _⟩

section EatWhile

variable {wanted : UInt8 → Bool} {role : ByteRole → Bool}
  (isWanted : ∀ byte, wanted byte = role (.of byte))

include isWanted

theorem eatWhile_stop (stops : ∀ char ∈ rest.head?, role (.ofChar char) = false)
    (isAt : cursor.At rest) : cursor.eatWhile wanted = cursor := by
  have nothing : (utf8Bytes rest).takeWhile wanted = [] := by
    cases rest with
    | nil => rfl
    | cons char rest =>
        obtain ⟨lead, tail, isChar, isRole, _⟩ :=
          List.map_eq_cons_iff.mp (map_of_utf8EncodeChar char)
        rw [utf8Bytes_cons, isChar, List.cons_append, List.takeWhile_cons_of_neg]
        rw [isWanted, isRole, stops char rfl]
        exact Bool.false_ne_true
  rw [Cursor.eatWhile, isAt.ahead, nothing]
  rfl

theorem eatWhile_over {next : Cursor bytes} (ordinary : role .ordinary = true)
    (isRole : role (.ofChar char) = true) (isAt : cursor.At (char :: rest))
    (behind : next.At rest) : cursor.eatWhile wanted = next.eatWhile wanted := by
  have allWanted : ∀ byte ∈ String.utf8EncodeChar char, wanted byte = true := by
    intro byte member
    rw [isWanted]
    rcases of_mem_utf8EncodeChar member with same | same <;> rw [same] <;> assumption
  have moved := pos_eq [char] isAt behind
  rw [Cursor.eatWhile, Cursor.eatWhile, isAt.ahead, behind.ahead, utf8Bytes_cons,
    List.takeWhile_append_of_pos allWanted, List.length_append, String.length_utf8EncodeChar, moved,
    byteLength_cons, byteLength_nil, Nat.add_zero, Nat.add_assoc]

/-- A run of characters with wanted bytes is eaten up to the first unwanted one. -/
theorem eatWhile {run : List Char} (ordinary : role .ordinary = true)
    (inRun : ∀ char ∈ run, role (.ofChar char) = true)
    (stops : ∀ char ∈ rest.head?, role (.ofChar char) = false) (isAt : cursor.At (run ++ rest)) :
    (cursor.eatWhile wanted).At rest := by
  induction run generalizing cursor with
  | nil => rwa [isAt.eatWhile_stop isWanted stops]
  | cons char run inductionHypothesis =>
      rw [List.forall_mem_cons] at inRun
      have behind : (⟨cursor.pos + byteLength [char]⟩ : Cursor bytes).At (run ++ rest) :=
        move [char] isAt rfl
      rw [isAt.eatWhile_over isWanted ordinary inRun.1 behind]
      exact inductionHypothesis inRun.2 behind

end EatWhile

/-- So it does with the bytes of an ordinary character. -/
theorem scan_ordinary {Result : Type} {scan : Cursor bytes → Result}
    (skips : ∀ cursor : Cursor bytes, cursor.pos < bytes.length →
      ByteRole.of (bytes.getD cursor.pos 0) = .ordinary → scan cursor = scan cursor.advance)
    (ordinary : ByteRole.ofChar char = .ordinary) (isAt : cursor.At (char :: rest)) :
    ∃ next : Cursor bytes, next.At rest ∧ scan cursor = scan next := by
  have allOrdinary : ∀ byte ∈ String.utf8EncodeChar char, ByteRole.of byte = .ordinary := by
    intro byte member
    rcases of_mem_utf8EncodeChar member with isRole | isRole
    · rw [isRole, ordinary]
    · exact isRole
  refine ⟨⟨cursor.pos + (String.utf8EncodeChar char).length⟩, ?_,
    Cursor.scan_ordinary skips allOrdinary isAt.ahead⟩
  exact move [char] isAt (by simp)

end At

end Cursor

end SchemeLayout
