import SchemeLayout.Layout.PolicyTable
import SchemeLayout.Proofs.NavigatorSpans
import SchemeLayout.Proofs.PolicyText

/-!
Overrides for the symbols of a text.

An override is cut at its first equals sign, and the blanks around the symbol are
dropped.  So a symbol that a navigator finds can be given a policy if and only if
it contains no equals sign and neither starts nor ends with a blank.  For any other
symbol the override is refused, or it is read as one for another symbol.
-/

set_option autoImplicit false

namespace SchemeLayout

/-! ## Symbols that a navigator finds -/

theorem Source.atomKind_slice_of_symbol {source : Source} {form : Form}
    (isSymbol : (source.spanOf form).kind = .symbol) :
    atomKind (source.slice form.start form.stop).toList = .symbol := by
  cases shape : form.shape with
  | list | string | danglingPrefix => simp [spanOf, shape] at isSymbol
  | atom =>
      simp only [spanOf, shape] at isSymbol
      split at isSymbol
      next unmarked => rwa [unmarked]
      next => contradiction

namespace Navigator

/-- What is remembered as a symbol is a text of that kind. -/
def HoldsSymbol (navigator : Navigator) : Prop :=
  navigator.span.kind = .symbol → atomKind navigator.text.toList = .symbol

theorem atomKind_of_locate {source : Source} {direction : Move} {offset : Nat} {span : FormSpan}
    (located : locate source offset direction = .ok (some span)) (isSymbol : span.kind = .symbol) :
    atomKind (source.slice span.start span.stop).toList = .symbol := by
  cases direction with
  | forward =>
      obtain ⟨form, _, rfl⟩ := locate_forward_eq.mp located
      exact Source.atomKind_slice_of_symbol isSymbol
  | backward =>
      obtain ⟨form, _, rfl⟩ := locate_backward_eq.mp located
      exact Source.atomKind_slice_of_symbol isSymbol
  | up =>
      obtain ⟨opening, _, rfl⟩ := locate_up_eq.mp located
      contradiction
  | down =>
      obtain ⟨form, _, _, rfl⟩ := locate_down_eq.mp located
      contradiction

theorem HoldsSymbol.move {navigator : Navigator} (holds : navigator.HoldsSymbol) (direction : Move)
    (offset : Nat) : (navigator.move direction offset).2.HoldsSymbol := by
  rcases navigator.move_cases direction offset with ⟨span, located, moved⟩ | ⟨_, same⟩
  · rw [moved]
    exact atomKind_of_locate located
  · rwa [same]

theorem HoldsSymbol.run {navigator : Navigator} (holds : navigator.HoldsSymbol)
    (moves : List (Move × Nat)) : (navigator.run moves).HoldsSymbol := by
  induction moves generalizing navigator with
  | nil => exact holds
  | cons step moves inductionHypothesis => exact inductionHypothesis (holds.move step.1 step.2)

theorem text_ne_empty_of_symbol {text : String} {moves : List (Move × Nat)}
    (isSymbol : (Navigator.run { source := .ofString text } moves).span.kind = .symbol) :
    (Navigator.run { source := .ofString text } moves).text.toList ≠ [] := by
  have start : HoldsSymbol { source := .ofString text } := fun impossible => nomatch impossible
  have isKind := start.run moves isSymbol
  intro empty
  rw [empty] at isKind
  contradiction

end Navigator

/-! ## Overrides -/

/-- No policy text contains an equals sign. -/
theorem PolicyText.equals_not_mem {text : List Char} {policy : Policy}
    (stands : PolicyText text policy) : '=' ∉ text := by
  have visible : isBlank '=' = false := by decide
  cases stands with
  | @plain name _ parts named =>
      cases parts with
      | bare _ trims =>
          have checked : ∀ entry ∈ plainNames, '=' ∉ entry.1.toList := by decide
          have absent := checked _ named
          rwa [String.toList_ofList, ← trims.mem_iff visible] at absent
  | @binding name threshold value parts named numeral =>
      cases parts with
      | marked isText _ trimsName trimsThreshold =>
          have checked : ∀ name ∈ thresholdNames, '=' ∉ name.toList := by decide
          have notName := checked _ named
          rw [String.toList_ofList, ← trimsName.mem_iff visible] at notName
          have notDigit {digits : List Char} (decimal : IsDecimal digits value) : '=' ∉ digits :=
            fun member => absurd (decimal.isDigit '=' member) (by decide)
          have notThreshold : '=' ∉ threshold := by
            rcases numeral with decimal | ⟨digits, rfl, decimal⟩
            · exact notDigit decimal
            · simpa using notDigit decimal
          rw [← trimsThreshold.mem_iff visible] at notThreshold
          simp [isText, notName, notThreshold]

section Override

variable {symbol : String}

theorem parseOverride_of_not_mem (absent : '=' ∉ symbol.toList) (policy : Policy) :
    parseOverride (symbol ++ "=" ++ policy.render) =
      if trim symbol.toList = [] then .error (.malformedOverride (symbol ++ "=" ++ policy.render))
      else .ok (.ofList (trim symbol.toList), policy) := by
  have split : splitAtFirst '=' (symbol ++ "=" ++ policy.render).toList =
      some (symbol.toList, policy.render.toList) :=
    splitAtFirst_eq_some_iff.mpr ⟨absent, by simp⟩
  simp only [parseOverride, split, String.ofList_toList, (policyText_render policy).parse_eq]
  rfl

/-- An override for a symbol with an equals sign is cut inside the symbol, and what stands
behind the cut is no policy. -/
theorem exists_error_of_mem (present : '=' ∈ symbol.toList) (policy : Policy) :
    ∃ error, parseOverride (symbol ++ "=" ++ policy.render) = .error error := by
  cases cut : splitAtFirst '=' symbol.toList with
  | none => exact absurd present (splitAtFirst_eq_none_iff.mp cut)
  | some parts =>
      obtain ⟨front, back⟩ := parts
      obtain ⟨absent, isSymbol⟩ := splitAtFirst_eq_some_iff.mp cut
      have split : splitAtFirst '=' (symbol ++ "=" ++ policy.render).toList =
          some (front, back ++ '=' :: policy.render.toList) :=
        splitAtFirst_eq_some_iff.mpr ⟨absent, by simp [isSymbol]⟩
      simp only [parseOverride, split]
      by_cases empty : trim front = []
      · exact ⟨_, if_pos empty⟩
      · rw [if_neg empty]
        cases parsed : Policy.parse (.ofList (back ++ '=' :: policy.render.toList)) with
        | error error => exact ⟨error, rfl⟩
        | ok other =>
            have absent := (parse_eq_ok_iff.mp parsed).equals_not_mem
            simp at absent

/-- A symbol without an equals sign that neither starts nor ends with a blank. -/
structure Overridable (symbol : String) : Prop where
  equals_not_mem : '=' ∉ symbol.toList
  first : ∀ char ∈ symbol.toList.head?, isBlank char = false
  last : ∀ char ∈ symbol.toList.getLast?, isBlank char = false

theorem overridable_iff :
    Overridable symbol ↔ '=' ∉ symbol.toList ∧ trim symbol.toList = symbol.toList := by
  rw [trim_eq_self_iff]
  exact ⟨fun ⟨absent, first, last⟩ => ⟨absent, first, last⟩,
    fun ⟨absent, first, last⟩ => ⟨absent, first, last⟩⟩

instance : Decidable (Overridable symbol) := decidable_of_iff' _ overridable_iff

theorem parseOverride_of_overridable (overridable : Overridable symbol)
    (notEmpty : symbol.toList ≠ []) (policy : Policy) :
    parseOverride (symbol ++ "=" ++ policy.render) = .ok (symbol, policy) := by
  obtain ⟨absent, trimmed⟩ := overridable_iff.mp overridable
  rw [parseOverride_of_not_mem absent, trimmed, if_neg notEmpty, String.ofList_toList]

theorem parseOverride_of_not_overridable (notOverridable : ¬ Overridable symbol) (policy : Policy) :
    (∃ error, parseOverride (symbol ++ "=" ++ policy.render) = .error error) ∨
      ∃ other, other ≠ symbol ∧
        parseOverride (symbol ++ "=" ++ policy.render) = .ok (other, policy) := by
  by_cases present : '=' ∈ symbol.toList
  · exact .inl (exists_error_of_mem present policy)
  rw [parseOverride_of_not_mem present]
  by_cases empty : trim symbol.toList = []
  · exact .inl ⟨_, if_pos empty⟩
  · refine .inr ⟨.ofList (trim symbol.toList), fun same => ?_, if_neg empty⟩
    refine notOverridable (overridable_iff.mpr ⟨present, ?_⟩)
    rw [← String.toList_ofList (l := trim symbol.toList), same]

end Override

/-- A symbol that a navigator finds can be given a policy if and only if it contains no equals
sign and has no blank at an end.  The table then has this policy for it.  For any other
symbol the override is refused, or it is for another symbol and leaves this one alone. -/
theorem parseOverride_symbol_iff (text : String) (moves : List (Move × Nat)) (policy : Policy) :
    let navigator := Navigator.run { source := .ofString text } moves
    let symbol := navigator.text
    let answer := parseOverride (symbol ++ "=" ++ policy.render)
    navigator.span.kind = .symbol →
      (answer = .ok (symbol, policy) ↔ Overridable symbol) ∧
      (answer = .ok (symbol, policy) →
        ∀ table : PolicyTable, (table.insert symbol policy).policyFor symbol = policy) ∧
      (answer ≠ .ok (symbol, policy) → (∃ error, answer = .error error) ∨
        ∃ other, answer = .ok (other, policy) ∧ ∀ table : PolicyTable,
          (table.insert other policy).policyFor symbol = table.policyFor symbol) := by
  intro navigator symbol answer isSymbol
  have notEmpty : symbol.toList ≠ [] := Navigator.text_ne_empty_of_symbol isSymbol
  have given (overridable : Overridable symbol) : answer = .ok (symbol, policy) :=
    parseOverride_of_overridable overridable notEmpty policy
  have refused (notOverridable : ¬ Overridable symbol) : answer ≠ .ok (symbol, policy) := by
    intro read
    rcases parseOverride_of_not_overridable notOverridable policy with
      ⟨error, failed⟩ | ⟨other, different, readOther⟩
    · cases failed.symm.trans read
    · cases readOther.symm.trans read
      exact different rfl
  refine ⟨⟨fun read => ?_, given⟩, fun _ table => ?_, fun notRead => ?_⟩
  · exact Decidable.byContradiction fun notOverridable => refused notOverridable read
  · rw [PolicyTable.policyFor_insert, if_pos rfl]
  · rcases parseOverride_of_not_overridable (mt given notRead) policy with
      failed | ⟨other, different, read⟩
    · exact .inl failed
    · refine .inr ⟨other, read, fun table => ?_⟩
      rw [PolicyTable.policyFor_insert, if_neg different.symm]

/-- The symbol `define` is found and given a policy. -/
theorem parseOverride_symbol_define :
    let navigator := Navigator.run { source := .ofString "(define x)" } [(.forward, 1)]
    navigator.span.kind = .symbol ∧ navigator.text = "define" ∧ Overridable "define" ∧
      parseOverride (navigator.text ++ "=" ++ (Policy.binding 2).render) =
        .ok (navigator.text, .binding 2) ∧
      (PolicyTable.scheme.insert navigator.text (.binding 2)).policyFor navigator.text =
        .binding 2 := by
  intro navigator
  have isSymbol : navigator.span.kind = .symbol := by decide +kernel
  have isText : navigator.text = "define" := by decide +kernel
  have overridable : Overridable "define" := by decide
  obtain ⟨read, found, _⟩ :=
    parseOverride_symbol_iff "(define x)" [(.forward, 1)] (.binding 2) isSymbol
  have given := read.mpr (show Overridable navigator.text by rwa [isText])
  exact ⟨isSymbol, isText, overridable, given, found given .scheme⟩

/-- The symbol `=` is found, but its override is refused. -/
theorem parseOverride_equals_refused :
    let navigator := Navigator.run { source := .ofString "(= x 1)" } [(.forward, 1)]
    navigator.span = ⟨1, 2, .symbol⟩ ∧ navigator.text = "=" ∧
      parseOverride (navigator.text ++ "=" ++ Policy.verbatim.render) =
        .error (.malformedOverride "==none") := by
  intro navigator
  have isText : navigator.text = "=" := by decide +kernel
  refine ⟨by decide +kernel, isText, ?_⟩
  rw [isText]
  rfl

end SchemeLayout
