import SchemeLayout.Proofs.LexerRun

/-!
The lexer, run over characters.

A character of more than one byte consists of ordinary bytes only, and the lexer
gives all of them one class.  So a text can be read character by character: the
role of a character decides on its class and on the state behind it.  Offsets
between two characters are boundaries.
-/

set_option autoImplicit false

namespace SchemeLayout

/-! ## Roles of characters -/

/-- The part a character plays at the start of a token. -/
def ByteRole.ofChar : Char → ByteRole
  | ' ' | '\t' | '\x0c' => blank
  | '\n' | '\r' => lineBreak
  | ';' => semicolon
  | '"' => doubleQuote
  | '(' | '[' => opening
  | ')' | ']' => closing
  | '\'' | '\x60' => tick
  | ',' => comma
  | '@' => atSign
  | '#' => hash
  | '|' => bar
  | '\\' => backslash
  | _ => ordinary

theorem ByteRole.of_eq_ordinary (byte : UInt8) (beyond : 128 ≤ byte.toNat) :
    ByteRole.of byte = ordinary := by
  revert byte
  exact forall_byte (by decide +kernel)

theorem ByteRole.of_ascii {char : Char} (ascii : char.val.toNat ≤ 127) :
    ByteRole.of (UInt8.ofNat char.val.toNat) = ofChar char := by
  have checked : ∀ value : Fin 128,
      ByteRole.of (UInt8.ofNat value) = ofChar (Char.ofNat value) := by
    decide +kernel
  have same := checked ⟨char.val.toNat, by omega⟩
  rwa [show Char.ofNat char.val.toNat = char from Char.ofNat_toNat char] at same

theorem ByteRole.ofChar_eq_ordinary {char : Char} (beyond : 127 < char.val.toNat) :
    ofChar char = ordinary := by
  unfold ofChar
  split <;> first | rfl | exact absurd beyond (by decide)

/-- The only character that plays a part, where there is one. -/
def ByteRole.char? : ByteRole → Option Char
  | semicolon => some ';'
  | doubleQuote => some '"'
  | comma => some ','
  | atSign => some '@'
  | hash => some '#'
  | bar => some '|'
  | backslash => some '\\'
  | blank | lineBreak | opening | closing | tick | ordinary => none

theorem ByteRole.ofChar_eq_iff {role : ByteRole} {char only : Char}
    (isOnly : role.char? = some only) : ofChar char = role ↔ char = only := by
  constructor
  · rintro rfl
    unfold ofChar at isOnly
    split at isOnly <;> first | exact Option.some.inj isOnly | contradiction
  · rintro rfl
    cases role <;> cases isOnly <;> rfl

theorem toNat_val_of_mem_utf8EncodeChar {char : Char} {byte : UInt8} (ascii : byte.toNat < 128)
    (member : byte ∈ String.utf8EncodeChar char) : char.val.toNat = byte.toNat := by
  have width : ∀ value : Nat, (UInt8.ofNat value).toNat = value % 256 := by simp
  simp only [String.utf8EncodeChar] at member
  split at member
  · rw [List.mem_singleton] at member
    subst member
    rw [width]
    omega
  · exfalso
    split at member
    · simp only [List.mem_cons, List.not_mem_nil, or_false] at member
      rcases member with rfl | rfl <;> rw [width] at ascii <;> omega
    · split at member
      · simp only [List.mem_cons, List.not_mem_nil, or_false] at member
        rcases member with rfl | rfl | rfl <;> rw [width] at ascii <;> omega
      · simp only [List.mem_cons, List.not_mem_nil, or_false] at member
        rcases member with rfl | rfl | rfl | rfl <;> rw [width] at ascii <;> omega

/-- A byte below 128 belongs to one character only. -/
theorem eq_of_mem_utf8EncodeChar {char only : Char} {byte : UInt8} (ascii : byte.toNat < 128)
    (isByte : only.val.toNat = byte.toNat) (member : byte ∈ String.utf8EncodeChar char) :
    char = only :=
  Char.ext (UInt32.toNat_inj.mp ((toNat_val_of_mem_utf8EncodeChar ascii member).trans isByte.symm))

theorem utf8EncodeChar_of_ascii {char : Char} (ascii : char.val.toNat ≤ 127) :
    String.utf8EncodeChar char = [UInt8.ofNat char.val.toNat] :=
  if_pos ascii

/-- Only an ordinary character has more than one byte. -/
theorem utf8Size_eq_one_or_ordinary (char : Char) :
    char.utf8Size = 1 ∨ ByteRole.ofChar char = .ordinary := by
  rcases Nat.lt_or_ge 127 char.val.toNat with beyond | ascii
  · exact .inr (ByteRole.ofChar_eq_ordinary beyond)
  · left
    rw [← String.length_utf8EncodeChar, utf8EncodeChar_of_ascii ascii]
    rfl

theorem utf8Size_of_ne_ordinary {char : Char} (notOrdinary : ByteRole.ofChar char ≠ .ordinary) :
    char.utf8Size = 1 :=
  (utf8Size_eq_one_or_ordinary char).resolve_right notOrdinary

/-- The roles of the bytes of a character: its own, and ordinary ones behind it. -/
theorem map_of_utf8EncodeChar (char : Char) :
    (String.utf8EncodeChar char).map ByteRole.of =
      ByteRole.ofChar char :: List.replicate (char.utf8Size - 1) .ordinary := by
  rcases Nat.lt_or_ge 127 char.val.toNat with beyond | ascii
  · have ordinary : ∀ role ∈ (String.utf8EncodeChar char).map ByteRole.of, role = .ordinary := by
      intro role member
      obtain ⟨byte, inChar, rfl⟩ := List.mem_map.mp member
      refine ByteRole.of_eq_ordinary byte (Nat.le_of_not_lt fun isAscii => ?_)
      have same := toNat_val_of_mem_utf8EncodeChar isAscii inChar
      omega
    rw [List.eq_replicate_of_mem ordinary, List.length_map, String.length_utf8EncodeChar,
      ByteRole.ofChar_eq_ordinary beyond, ← List.replicate_succ,
      Nat.sub_add_cancel char.utf8Size_pos]
  · rw [← String.length_utf8EncodeChar, utf8EncodeChar_of_ascii ascii, List.map_singleton,
      ByteRole.of_ascii ascii]
    rfl

theorem of_mem_utf8EncodeChar {char : Char} {byte : UInt8}
    (member : byte ∈ String.utf8EncodeChar char) :
    ByteRole.of byte = .ofChar char ∨ ByteRole.of byte = .ordinary := by
  have isRole := List.mem_map_of_mem (f := ByteRole.of) member
  rw [map_of_utf8EncodeChar, List.mem_cons] at isRole
  exact isRole.imp_right List.eq_of_mem_replicate

/-- The roles of the bytes of some characters. -/
def rolesOf (chars : List Char) : List ByteRole :=
  chars.flatMap fun char => ByteRole.ofChar char :: List.replicate (char.utf8Size - 1) .ordinary

/-- Number of bytes of some characters. -/
def byteLength : List Char → Nat
  | [] => 0
  | char :: rest => char.utf8Size + byteLength rest

@[simp] theorem rolesOf_nil : rolesOf [] = [] := rfl

@[simp] theorem rolesOf_cons (char : Char) (rest : List Char) :
    rolesOf (char :: rest) =
      ByteRole.ofChar char :: (List.replicate (char.utf8Size - 1) .ordinary ++ rolesOf rest) :=
  rfl

@[simp] theorem rolesOf_append (left right : List Char) :
    rolesOf (left ++ right) = rolesOf left ++ rolesOf right :=
  List.flatMap_append

@[simp] theorem byteLength_nil : byteLength [] = 0 := rfl

@[simp] theorem byteLength_cons (char : Char) (rest : List Char) :
    byteLength (char :: rest) = char.utf8Size + byteLength rest := rfl

@[simp] theorem byteLength_append (left right : List Char) :
    byteLength (left ++ right) = byteLength left + byteLength right := by
  induction left with
  | nil => simp
  | cons char rest inductionHypothesis =>
      rw [List.cons_append, byteLength_cons, byteLength_cons, inductionHypothesis, Nat.add_assoc]

theorem byteLength_pos {chars : List Char} (notEmpty : chars ≠ []) : 0 < byteLength chars := by
  cases chars with
  | nil => contradiction
  | cons char rest =>
      have positive := char.utf8Size_pos
      rw [byteLength_cons]
      omega

theorem eq_nil_of_byteLength {chars : List Char} (empty : byteLength chars = 0) : chars = [] :=
  Decidable.byContradiction fun notEmpty => Nat.ne_of_gt (byteLength_pos notEmpty) empty

@[simp] theorem length_rolesOf (chars : List Char) : (rolesOf chars).length = byteLength chars := by
  induction chars with
  | nil => rfl
  | cons char rest inductionHypothesis =>
      have positive := char.utf8Size_pos
      simp only [rolesOf_cons, List.length_cons, List.length_append, List.length_replicate,
        inductionHypothesis, byteLength_cons]
      omega

theorem head?_rolesOf (chars : List Char) : (rolesOf chars).head? = chars.head?.map .ofChar := by
  cases chars <;> rfl

/-- The bytes of some characters. -/
def utf8Bytes (chars : List Char) : Bytes := chars.flatMap String.utf8EncodeChar

@[simp] theorem utf8Bytes_cons (char : Char) (rest : List Char) :
    utf8Bytes (char :: rest) = String.utf8EncodeChar char ++ utf8Bytes rest := rfl

@[simp] theorem utf8Bytes_append (left right : List Char) :
    utf8Bytes (left ++ right) = utf8Bytes left ++ utf8Bytes right :=
  List.flatMap_append

theorem map_of_utf8Bytes (chars : List Char) :
    (utf8Bytes chars).map ByteRole.of = rolesOf chars := by
  rw [utf8Bytes, List.map_flatMap, rolesOf]
  simp only [map_of_utf8EncodeChar]

@[simp] theorem length_utf8Bytes (chars : List Char) :
    (utf8Bytes chars).length = byteLength chars := by
  rw [← length_rolesOf, ← map_of_utf8Bytes, List.length_map]

theorem encode_eq_utf8Bytes (text : String) : encode text = utf8Bytes text.toList := by
  rw [encode, ← String.utf8Encode_toList, List.utf8Encode, List.data_toByteArray, utf8Bytes]

theorem map_of_encode (text : String) : (encode text).map ByteRole.of = rolesOf text.toList := by
  rw [encode_eq_utf8Bytes, map_of_utf8Bytes]

theorem length_encode (text : String) : (encode text).length = byteLength text.toList := by
  rw [encode_eq_utf8Bytes, length_utf8Bytes]

theorem classify_encode (text : String) :
    classify (encode text) = classifyFrom .between (rolesOf text.toList) := by
  rw [classify, map_of_encode]

/-! ## Classes of characters -/

namespace LexState

/-- An ordinary byte behind another one changes nothing. -/
theorem step_ordinary_again (state : LexState) (next later : Option ByteRole) :
    (state.step .ordinary next).2.step .ordinary later = state.step .ordinary next := by
  cases state with
  | blockComment depth pending =>
      cases pending with
      | none => rfl
      | some mark => cases mark <;> rfl
  | _ => rfl

theorem run_replicate_ordinary (state : LexState) (next : Option ByteRole) (count : Nat)
    (rest : List ByteRole) :
    classifyFrom (state.step .ordinary next).2 (List.replicate count .ordinary ++ rest) =
      List.replicate count (state.step .ordinary next).1 ++
        classifyFrom (state.step .ordinary next).2 rest := by
  induction count with
  | zero => rfl
  | succ count inductionHypothesis =>
      rw [List.replicate_succ, List.cons_append, classifyFrom, step_ordinary_again,
        inductionHypothesis, List.replicate_succ, List.cons_append]

end LexState

/-- All bytes of a character get the class that its role gives. -/
theorem classifyFrom_char (state : LexState) (char : Char) (rest : List Char) :
    let reading := state.step (ByteRole.ofChar char) (rest.head?.map .ofChar)
    classifyFrom state (rolesOf (char :: rest)) =
      List.replicate char.utf8Size reading.1 ++ classifyFrom reading.2 (rolesOf rest) := by
  rcases utf8Size_eq_one_or_ordinary char with single | ordinary
  · rw [rolesOf_cons, single, Nat.sub_self, List.replicate_zero, List.nil_append, classifyFrom,
      head?_rolesOf]
    rfl
  · -- An ordinary byte does not look ahead, so the bytes behind it do not matter.
    have same := state.step_of_ne_hash (show ByteRole.ordinary ≠ .hash by decide)
    rw [rolesOf_cons, ordinary, classifyFrom, LexState.run_replicate_ordinary, ← List.cons_append,
      ← List.replicate_succ, Nat.sub_add_cancel char.utf8Size_pos]
    simp only [same _ (rest.head?.map .ofChar)]

end SchemeLayout
