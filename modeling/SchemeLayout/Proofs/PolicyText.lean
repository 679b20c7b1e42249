import SchemeLayout.Layout.Policy

/-!
The texts of policies.

A policy text is a name, for some names followed by a colon and a numeral, with
blanks around the parts.  `PolicyText` says which texts stand for a policy, and
`PolicyFault` what is wrong with every other one: the parts are told apart at the
first colon, the name is looked at first and the numeral last.  Reading gives the
one or the other, and what is written for a policy is read as that policy.
-/

set_option autoImplicit false

namespace SchemeLayout

/-! ## Blanks around a text -/

def AllBlank (chars : List Char) : Prop := ∀ char ∈ chars, isBlank char = true

/-- Without the blanks around it, `chars` is `core`. -/
structure TrimsTo (chars core : List Char) : Prop where
  around : ∃ before after, chars = before ++ (core ++ after) ∧ AllBlank before ∧ AllBlank after
  first : ∀ char ∈ core.head?, isBlank char = false
  last : ∀ char ∈ core.getLast?, isBlank char = false

theorem allBlank_takeWhile (chars : List Char) : AllBlank (chars.takeWhile isBlank) :=
  List.all_eq_true.mp List.all_takeWhile

theorem isBlank_of_head?_dropWhile {chars : List Char} {char : Char}
    (isFirst : char ∈ (chars.dropWhile isBlank).head?) : isBlank char = false := by
  have stopped := List.head?_dropWhile_not isBlank chars
  rwa [isFirst] at stopped

theorem trim_append_of_allBlank {before : List Char} (blank : AllBlank before) (chars : List Char) :
    trim (before ++ chars) = trim chars := by
  rw [trim, List.dropWhile_append_of_pos blank, trim]

theorem trim_of_allBlank {chars : List Char} (blank : AllBlank chars) : trim chars = [] := by
  rw [← List.append_nil chars, trim_append_of_allBlank blank, trim_nil]

/-- What is dropped from the back of a text is blank. -/
theorem exists_dropWhile_reverse (chars : List Char) :
    ∃ after, AllBlank after ∧ chars = (chars.reverse.dropWhile isBlank).reverse ++ after := by
  refine ⟨(chars.reverse.takeWhile isBlank).reverse, ?_, ?_⟩
  · intro char member
    exact allBlank_takeWhile _ char (List.mem_reverse.mp member)
  · rw [← List.reverse_append, List.takeWhile_append_dropWhile, List.reverse_reverse]

theorem trimsTo_trim (chars : List Char) : TrimsTo chars (trim chars) := by
  obtain ⟨after, blank, split⟩ := exists_dropWhile_reverse (chars.dropWhile isBlank)
  refine ⟨⟨chars.takeWhile isBlank, after, ?_, allBlank_takeWhile chars, blank⟩, ?_, ?_⟩
  · rw [trim, ← split, List.takeWhile_append_dropWhile]
  · intro char isFirst
    apply isBlank_of_head?_dropWhile
    rw [split, List.head?_append, ← trim, isFirst]
    rfl
  · intro char isLast
    rw [trim, List.getLast?_reverse] at isLast
    exact isBlank_of_head?_dropWhile isLast

namespace TrimsTo

variable {chars core : List Char}

theorem trim_eq (trims : TrimsTo chars core) : trim chars = core := by
  obtain ⟨before, after, rfl, blankBefore, blankAfter⟩ := trims.around
  rw [trim_append_of_allBlank blankBefore]
  cases core with
  | nil => exact trim_of_allBlank blankAfter
  | cons first rest =>
      have reversed : ∀ char ∈ after.reverse, isBlank char = true := by
        intro char member
        exact blankAfter char (List.mem_reverse.mp member)
      have stays (more : List Char) :
          (first :: rest ++ more).dropWhile isBlank = first :: rest ++ more :=
        List.dropWhile_cons_of_neg (by simp [trims.first first rfl])
      have kept := trim_eq_self trims.first trims.last
      rw [← List.append_nil (first :: rest), trim, stays, List.append_nil] at kept
      rw [trim, stays, List.reverse_append, List.dropWhile_append_of_pos reversed, kept]

theorem append_blanks (trims : TrimsTo chars core) {more : List Char} (blank : AllBlank more) :
    TrimsTo (chars ++ more) core := by
  obtain ⟨before, after, rfl, blankBefore, blankAfter⟩ := trims.around
  refine ⟨⟨before, after ++ more, ?_, blankBefore, ?_⟩, trims.first, trims.last⟩
  · simp only [List.append_assoc]
  · intro char member
    exact (List.mem_append.mp member).elim (blankAfter char) (blank char)

/-- Characters that are not blank are never trimmed off. -/
theorem mem_iff (trims : TrimsTo chars core) {char : Char} (visible : isBlank char = false) :
    char ∈ chars ↔ char ∈ core := by
  obtain ⟨before, after, rfl, blankBefore, blankAfter⟩ := trims.around
  have notBefore : char ∉ before := fun member => by simp [blankBefore char member] at visible
  have notAfter : char ∉ after := fun member => by simp [blankAfter char member] at visible
  simp [notBefore, notAfter]

end TrimsTo

theorem trim_eq_self_iff {chars : List Char} :
    trim chars = chars ↔ (∀ char ∈ chars.head?, isBlank char = false) ∧
      ∀ char ∈ chars.getLast?, isBlank char = false := by
  constructor
  · intro trimmed
    have trims := trimsTo_trim chars
    rw [trimmed] at trims
    exact ⟨trims.first, trims.last⟩
  · rintro ⟨first, last⟩
    exact trim_eq_self first last

theorem trim_append_blanks {after : List Char} (chars : List Char) (blank : AllBlank after) :
    trim (chars ++ after) = trim chars :=
  ((trimsTo_trim chars).append_blanks blank).trim_eq

/-- What stands around a visible character is trimmed on its outer side only. -/
theorem trim_append_cons {mark : Char} (visible : isBlank mark = false) (front back : List Char) :
    ∃ start stop, trim (front ++ mark :: back) = start ++ mark :: stop ∧
      (∃ before, AllBlank before ∧ front = before ++ start) ∧
      ∃ after, AllBlank after ∧ back = stop ++ after := by
  have stays (left right : List Char) :
      (left ++ mark :: right).dropWhile isBlank = left.dropWhile isBlank ++ mark :: right := by
    induction left with
    | nil => simp [visible]
    | cons char left inductionHypothesis =>
        rw [List.cons_append, List.dropWhile_cons, List.dropWhile_cons, inductionHypothesis]
        split <;> rfl
  refine ⟨front.dropWhile isBlank, (back.reverse.dropWhile isBlank).reverse, ?_, ?_,
    exists_dropWhile_reverse back⟩
  · rw [trim, stays, List.reverse_append, List.reverse_cons, List.append_assoc,
      List.singleton_append, stays, List.reverse_append, List.reverse_cons, List.reverse_reverse,
      List.append_assoc, List.singleton_append]
  · exact ⟨_, allBlank_takeWhile front, List.takeWhile_append_dropWhile.symm⟩

/-! ## Numerals -/

/-- The decimal digits of a number of 32 bits, with leading zeros or without. -/
structure IsDecimal (digits : List Char) (value : UInt32) : Prop where
  ne_nil : digits ≠ []
  isDigit : ∀ digit ∈ digits, digit.isDigit = true
  value_eq : Nat.ofDigitChars 10 digits 0 = value.toNat

/-- The digits of a number, behind a plus sign or without a sign. -/
def IsNumeral (chars : List Char) (value : UInt32) : Prop :=
  IsDecimal chars value ∨ ∃ digits, chars = '+' :: digits ∧ IsDecimal digits value

theorem isDecimal_unsigned_iff {chars : List Char} {value : UInt32} :
    IsDecimal (unsigned chars) value ↔ IsNumeral chars value := by
  by_cases signed : ∃ digits, chars = '+' :: digits
  · obtain ⟨digits, rfl⟩ := signed
    constructor
    · intro isDecimal
      exact .inr ⟨digits, rfl, isDecimal⟩
    · rintro (isDecimal | ⟨_, same, isDecimal⟩)
      · exact absurd (isDecimal.isDigit '+' List.mem_cons_self) (by decide)
      · cases same
        exact isDecimal
  · have same : unsigned chars = chars := by
      unfold unsigned
      split
      next digits => exact absurd ⟨digits, rfl⟩ signed
      next => rfl
    rw [same]
    constructor
    · exact .inl
    · rintro (isDecimal | ⟨digits, isSigned, _⟩)
      · exact isDecimal
      · exact absurd ⟨digits, isSigned⟩ signed

theorem readNumeral?_iff {chars : List Char} {value : UInt32} :
    readNumeral? chars = some value ↔ IsNumeral chars value := by
  rw [readNumeral?_eq_some_iff, ← isDecimal_unsigned_iff, List.all_eq_true]
  constructor
  · rintro ⟨notEmpty, digits, same⟩
    exact ⟨notEmpty, digits, same⟩
  · rintro ⟨notEmpty, digits, same⟩
    exact ⟨notEmpty, digits, same⟩

theorem readNumeral?_eq_none_iff {chars : List Char} :
    readNumeral? chars = none ↔ ∀ value, ¬ IsNumeral chars value := by
  rw [Option.eq_none_iff_forall_ne_some]
  simp only [ne_eq, readNumeral?_iff]

theorem not_isBlank_of_isDigit {char : Char} (isDigit : char.isDigit = true) :
    isBlank char = false := by
  have bounds : 48 ≤ char.toNat ∧ char.toNat ≤ 57 := by
    simpa [Char.isDigit, UInt32.le_iff_toNat_le] using isDigit
  simp only [isBlank, Bool.or_eq_false_iff, Bool.and_eq_false_iff, decide_eq_false_iff_not,
    beq_eq_false_iff_ne]
  omega

/-! ## Names and parts -/

/-- The names that stand for a policy on their own. -/
def plainNames : List (String × Policy) := [
  ("default", .standard),
  ("sequence", .sequence),
  ("definition", .definition),
  ("if", .branch),
  ("branch", .branch),
  ("none", .verbatim)]

/-- The names that need a threshold. -/
def thresholdNames : List String := ["with", "binding"]

namespace Policy

theorem meaning?_of_mem_plainNames {name : String} {policy : Policy}
    (named : (name, policy) ∈ plainNames) : meaning? name = some (.fixed policy) := by
  have checked : ∀ entry ∈ plainNames, meaning? entry.1 = some (.fixed entry.2) := by decide
  exact checked _ named

theorem meaning?_of_mem_thresholdNames :
    ∀ name ∈ thresholdNames, meaning? name = some .needsThreshold := by
  decide

theorem meaning?_of_not_mem {name : String} (notPlain : name ∉ plainNames.map Prod.fst)
    (notThreshold : name ∉ thresholdNames) : meaning? name = none := by
  simp only [plainNames, thresholdNames, List.map_cons, List.map_nil, List.mem_cons,
    List.not_mem_nil, or_false, not_or] at notPlain notThreshold
  simp [meaning?, notPlain, notThreshold]

end Policy

/-- A text consists of a name and, behind the first colon, of a threshold. -/
inductive PolicyParts (text : List Char) : List Char → Option (List Char) → Prop where
  | bare {name : List Char} : ':' ∉ text → TrimsTo text name → PolicyParts text name none
  | marked {front back name threshold : List Char} : text = front ++ ':' :: back → ':' ∉ front →
      TrimsTo front name → TrimsTo back threshold → PolicyParts text name (some threshold)

theorem exists_policyParts (text : List Char) : ∃ name threshold, PolicyParts text name threshold := by
  cases split : splitAtFirst ':' text with
  | none => exact ⟨_, _, .bare (splitAtFirst_eq_none_iff.mp split) (trimsTo_trim text)⟩
  | some parts =>
      obtain ⟨absent, isText⟩ := splitAtFirst_eq_some_iff.mp split
      exact ⟨_, _, .marked isText absent (trimsTo_trim _) (trimsTo_trim _)⟩

/-- To trim a text and then its parts is to trim the parts. -/
theorem PolicyParts.parse_eq {text : String} {name : List Char} {threshold : Option (List Char)}
    (parts : PolicyParts text.toList name threshold) :
    Policy.parse text = Policy.ofParts (.ofList name) threshold := by
  cases parts with
  | bare absent trims =>
      have unsplit : splitAtFirst ':' (trim text.toList) = none := by
        rw [splitAtFirst_eq_none_iff, trims.trim_eq, ← trims.mem_iff (by decide)]
        exact absent
      rw [Policy.parse, unsplit, trims.trim_eq]
  | @marked front back name threshold isText absent trimsName trimsThreshold =>
      obtain ⟨start, stop, trimmed, ⟨before, blankBefore, rfl⟩, after, blankAfter, rfl⟩ :=
        trim_append_cons (show isBlank ':' = false by decide) front back
      rw [← isText] at trimmed
      have split : splitAtFirst ':' (trim text.toList) = some (start, stop) :=
        splitAtFirst_eq_some_iff.mpr ⟨fun member => absent (List.mem_append_right _ member), trimmed⟩
      have isName : trim start = name := by
        rw [← trimsName.trim_eq, trim_append_of_allBlank blankBefore]
      have isThreshold : trim stop = threshold := by
        rw [← trimsThreshold.trim_eq, trim_append_blanks stop blankAfter]
      simp only [Policy.parse, split, isName, isThreshold]

/-! ## Reading -/

/-- A text stands for a policy. -/
inductive PolicyText (text : List Char) : Policy → Prop where
  | plain {name : List Char} {policy : Policy} : PolicyParts text name none →
      (.ofList name, policy) ∈ plainNames → PolicyText text policy
  | binding {name threshold : List Char} {value : UInt32} : PolicyParts text name (some threshold) →
      .ofList name ∈ thresholdNames → IsNumeral threshold value → PolicyText text (.binding value)

/-- What is wrong with a text that stands for no policy. -/
inductive PolicyFault (text : List Char) : PolicyError → Prop where
  | unknownPolicy {name : List Char} {threshold : Option (List Char)} :
      PolicyParts text name threshold →
      .ofList name ∉ plainNames.map Prod.fst → .ofList name ∉ thresholdNames →
      PolicyFault text (.unknownPolicy (.ofList name))
  | unexpectedThreshold {name threshold : List Char} : PolicyParts text name (some threshold) →
      .ofList name ∈ plainNames.map Prod.fst →
      PolicyFault text (.unexpectedThreshold (.ofList name))
  | missingThreshold {name : List Char} : PolicyParts text name none →
      .ofList name ∈ thresholdNames → PolicyFault text (.missingThreshold (.ofList name))
  | invalidThreshold {name threshold : List Char} : PolicyParts text name (some threshold) →
      .ofList name ∈ thresholdNames → (∀ value, ¬ IsNumeral threshold value) →
      PolicyFault text (.invalidThreshold (.ofList name) (.ofList threshold))

theorem PolicyText.parse_eq {text : String} {policy : Policy}
    (stands : PolicyText text.toList policy) : Policy.parse text = .ok policy := by
  cases stands with
  | plain parts named =>
      simp only [parts.parse_eq, Policy.ofParts, Policy.meaning?_of_mem_plainNames named]
  | binding parts named numeral =>
      simp only [parts.parse_eq, Policy.ofParts, Policy.meaning?_of_mem_thresholdNames _ named,
        readNumeral?_iff.mpr numeral]

theorem PolicyFault.parse_eq {text : String} {error : PolicyError}
    (fault : PolicyFault text.toList error) : Policy.parse text = .error error := by
  cases fault with
  | unknownPolicy parts notPlain notThreshold =>
      simp only [parts.parse_eq, Policy.ofParts,
        Policy.meaning?_of_not_mem notPlain notThreshold]
  | unexpectedThreshold parts named =>
      obtain ⟨⟨_, policy⟩, member, rfl⟩ := List.mem_map.mp named
      simp only [parts.parse_eq, Policy.ofParts, Policy.meaning?_of_mem_plainNames member]
  | missingThreshold parts named =>
      simp only [parts.parse_eq, Policy.ofParts, Policy.meaning?_of_mem_thresholdNames _ named]
  | invalidThreshold parts named noNumeral =>
      simp only [parts.parse_eq, Policy.ofParts, Policy.meaning?_of_mem_thresholdNames _ named,
        readNumeral?_eq_none_iff.mpr noNumeral]

/-- Every text stands for a policy or has a fault. -/
theorem exists_policyText_or_policyFault (text : List Char) :
    (∃ policy, PolicyText text policy) ∨ ∃ error, PolicyFault text error := by
  obtain ⟨name, threshold, parts⟩ := exists_policyParts text
  by_cases plain : .ofList name ∈ plainNames.map Prod.fst
  · cases threshold with
    | none =>
        obtain ⟨⟨_, policy⟩, member, isName⟩ := List.mem_map.mp plain
        exact .inl ⟨policy, .plain parts (isName ▸ member)⟩
    | some threshold => exact .inr ⟨_, .unexpectedThreshold parts plain⟩
  by_cases needed : .ofList name ∈ thresholdNames
  · cases threshold with
    | none => exact .inr ⟨_, .missingThreshold parts needed⟩
    | some threshold =>
        by_cases numeral : ∃ value, IsNumeral threshold value
        · obtain ⟨value, isNumeral⟩ := numeral
          exact .inl ⟨_, .binding parts needed isNumeral⟩
        · exact .inr ⟨_, .invalidThreshold parts needed (not_exists.mp numeral)⟩
  · exact .inr ⟨_, .unknownPolicy parts plain needed⟩

theorem parse_eq_ok_iff {text : String} {policy : Policy} :
    Policy.parse text = .ok policy ↔ PolicyText text.toList policy := by
  refine ⟨fun parsed => ?_, PolicyText.parse_eq⟩
  rcases exists_policyText_or_policyFault text.toList with ⟨other, stands⟩ | ⟨error, fault⟩
  · have same := stands.parse_eq
    rw [parsed] at same
    cases same
    exact stands
  · have failed := fault.parse_eq
    rw [parsed] at failed
    contradiction

theorem parse_eq_error_iff {text : String} {error : PolicyError} :
    Policy.parse text = .error error ↔ PolicyFault text.toList error := by
  refine ⟨fun failed => ?_, PolicyFault.parse_eq⟩
  rcases exists_policyText_or_policyFault text.toList with ⟨policy, stands⟩ | ⟨other, fault⟩
  · have parsed := stands.parse_eq
    rw [failed] at parsed
    contradiction
  · have same := fault.parse_eq
    rw [failed] at same
    cases same
    exact fault

/-! ## Writing -/

theorem trimsTo_self {chars : List Char} (visible : ∀ char ∈ chars, isBlank char = false) :
    TrimsTo chars chars where
  around := ⟨[], [], by simp, by simp [AllBlank], by simp [AllBlank]⟩
  first := fun char isFirst => visible char (List.mem_of_mem_head? isFirst)
  last := fun char isLast => visible char (List.mem_of_getLast? isLast)

theorem isDecimal_writeNumeral (value : UInt32) : IsDecimal (writeNumeral value.toNat) value := by
  have read := readNumeral?_writeNumeral value
  rwa [readNumeral?_iff, ← isDecimal_unsigned_iff, unsigned_writeNumeral] at read

theorem policyText_render (policy : Policy) : PolicyText policy.render.toList policy := by
  have plain {name : String} (absent : ':' ∉ name.toList)
      (visible : ∀ char ∈ name.toList, isBlank char = false)
      (named : (name, policy) ∈ plainNames) : PolicyText name.toList policy :=
    .plain (.bare absent (trimsTo_self visible)) (by rwa [String.ofList_toList])
  cases policy with
  | standard | sequence | definition | branch | verbatim =>
      exact plain (by decide) (by simp [Policy.render, isBlank]) (by decide)
  | binding threshold =>
      have decimal := isDecimal_writeNumeral threshold
      have split : (Policy.binding threshold).render.toList =
          ['w', 'i', 't', 'h'] ++ ':' :: writeNumeral threshold.toNat := by
        simp [Policy.render]
      refine .binding (.marked split (by decide) (trimsTo_self (by simp [isBlank]))
        (trimsTo_self fun digit member => ?_)) (by decide) (.inl decimal)
      exact not_isBlank_of_isDigit (decimal.isDigit digit member)

/-- A text is read as the policy it stands for, or its fault is reported.  What is written
for a policy stands for that policy. -/
theorem parse_iff_policyText :
    (∀ text policy, Policy.parse text = .ok policy ↔ PolicyText text.toList policy) ∧
    (∀ text error, Policy.parse text = .error error ↔ PolicyFault text.toList error) ∧
    ∀ policy, Policy.parse policy.render = .ok policy :=
  ⟨fun _ _ => parse_eq_ok_iff, fun _ _ => parse_eq_error_iff,
    fun policy => (policyText_render policy).parse_eq⟩

end SchemeLayout
