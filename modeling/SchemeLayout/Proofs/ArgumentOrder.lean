import Mathlib.Data.List.Basic
import SchemeLayout.Program.Options
import SchemeLayout.Proofs.PolicyText

/-!
The order of arguments.

Arguments that start with a dash are options, all others are positional.  The two
kinds are read past each other: only the order within each of them matters.  The
first option that cannot be read is reported; otherwise the last option of a kind
decides, for policies the last one for each symbol.
-/

set_option autoImplicit false

namespace SchemeLayout

/-! ## One option -/

def IsOption (text : String) : Prop := text.toList.head? = some '-'

instance (text : String) : Decidable (IsOption text) :=
  inferInstanceAs (Decidable (text.toList.head? = some '-'))

/-- An option that can be read, and what it asks for. -/
inductive OptionText : String → Argument → Prop where
  | check : OptionText "--check" .check
  | tabWidth {digits : String} {width : UInt32} : IsNumeral digits.toList width → width ≠ 0 →
      OptionText ("--tab-width=" ++ digits) (.tabWidth width)
  | policy {entry symbol : String} {policy : Policy} : parseOverride entry = .ok (symbol, policy) →
      OptionText ("--policy=" ++ entry) (.policy symbol policy)

/-- An option that cannot be read, and what is wrong with it. -/
inductive OptionFault : String → CommandError → Prop where
  | tabWidth {digits : String} : (∀ width, IsNumeral digits.toList width → width = 0) →
      OptionFault ("--tab-width=" ++ digits) (.invalidTabWidth digits)
  | policy {entry : String} {error : PolicyError} : parseOverride entry = .error error →
      OptionFault ("--policy=" ++ entry) (.policy error)
  | unknown {text : String} : IsOption text → text ≠ "--check" →
      (∀ rest, text ≠ "--tab-width=" ++ rest) → (∀ rest, text ≠ "--policy=" ++ rest) →
      OptionFault text (.unknownOption text)

namespace Argument

theorem after?_eq_some_iff {lead text rest : String} :
    after? lead text = some rest ↔ text = lead ++ rest := by
  rw [after?, Option.map_eq_some_iff, ← String.toList_inj, String.toList_append]
  constructor
  · rintro ⟨chars, found, rfl⟩
    rw [String.toList_ofList, List.append_eq_of_isPrefixOf?_eq_some found]
  · intro split
    exact ⟨rest.toList, List.isPrefixOf?_eq_some_iff_append_eq.mpr split.symm, String.ofList_toList⟩

theorem after?_eq_none_iff {lead text : String} :
    after? lead text = none ↔ ∀ rest, text ≠ lead ++ rest := by
  rw [Option.eq_none_iff_forall_ne_some]
  simp only [ne_eq, after?_eq_some_iff]

theorem parse_tabWidth (digits : String) :
    parse ("--tab-width=" ++ digits) = parseTabWidth digits := by
  have notCheck : "--tab-width=" ++ digits ≠ "--check" := by
    intro same
    have chars := congrArg String.toList same
    simp at chars
  simp only [parse, if_neg notCheck, after?_eq_some_iff.mpr rfl]

theorem parse_policy (entry : String) : parse ("--policy=" ++ entry) = parsePolicy entry := by
  have notCheck : "--policy=" ++ entry ≠ "--check" := by
    intro same
    have chars := congrArg String.toList same
    simp at chars
  have notWidth : after? "--tab-width=" ("--policy=" ++ entry) = none := by
    rw [after?_eq_none_iff]
    intro rest same
    have chars := congrArg String.toList same
    simp at chars
  simp only [parse, if_neg notCheck, notWidth, after?_eq_some_iff.mpr rfl]

theorem parse_of_not_isOption {text : String} (notOption : ¬ IsOption text) :
    parse text = .ok (.positional text) := by
  have notCheck : text ≠ "--check" := by
    rintro rfl
    exact notOption (by decide)
  have notWidth : after? "--tab-width=" text = none := by
    rw [after?_eq_none_iff]
    rintro rest rfl
    exact notOption (by simp [IsOption])
  have notPolicy : after? "--policy=" text = none := by
    rw [after?_eq_none_iff]
    rintro rest rfl
    exact notOption (by simp [IsOption])
  simp only [parse, if_neg notCheck, notWidth, notPolicy]
  exact if_neg notOption

end Argument

theorem OptionText.parse_eq {text : String} {argument : Argument}
    (reads : OptionText text argument) : Argument.parse text = .ok argument := by
  cases reads with
  | check => rfl
  | tabWidth numeral positive =>
      simp only [Argument.parse_tabWidth, Argument.parseTabWidth, readNumeral?_iff.mpr numeral,
        if_neg positive]
  | policy parsed => simp only [Argument.parse_policy, Argument.parsePolicy, parsed]

theorem OptionFault.parse_eq {text : String} {error : CommandError}
    (fault : OptionFault text error) : Argument.parse text = .error error := by
  cases fault with
  | @tabWidth digits onlyZero =>
      rw [Argument.parse_tabWidth, Argument.parseTabWidth]
      split
      next width found => exact if_pos (onlyZero width (readNumeral?_iff.mp found))
      next => rfl
  | policy failed => simp only [Argument.parse_policy, Argument.parsePolicy, failed]
  | unknown isOption notCheck notWidth notPolicy =>
      simp only [Argument.parse, if_neg notCheck, Argument.after?_eq_none_iff.mpr notWidth,
        Argument.after?_eq_none_iff.mpr notPolicy]
      exact if_pos isOption

/-- Every option can be read or has a fault. -/
theorem exists_optionText_or_optionFault {text : String} (isOption : IsOption text) :
    (∃ argument, OptionText text argument) ∨ ∃ error, OptionFault text error := by
  by_cases isCheck : text = "--check"
  · subst isCheck
    exact .inl ⟨_, .check⟩
  by_cases isWidth : ∃ digits, text = "--tab-width=" ++ digits
  · obtain ⟨digits, rfl⟩ := isWidth
    by_cases numeral : ∃ width, IsNumeral digits.toList width ∧ width ≠ 0
    · obtain ⟨width, isNumeral, positive⟩ := numeral
      exact .inl ⟨_, .tabWidth isNumeral positive⟩
    · refine .inr ⟨_, .tabWidth fun width isNumeral => ?_⟩
      exact Decidable.byContradiction fun positive => numeral ⟨width, isNumeral, positive⟩
  by_cases isPolicy : ∃ entry, text = "--policy=" ++ entry
  · obtain ⟨entry, rfl⟩ := isPolicy
    cases parsed : parseOverride entry with
    | ok override => exact .inl ⟨_, .policy parsed⟩
    | error error => exact .inr ⟨_, .policy parsed⟩
  · exact .inr ⟨_, .unknown isOption isCheck (not_exists.mp isWidth) (not_exists.mp isPolicy)⟩

theorem OptionFault.not_optionText {text : String} {error : CommandError}
    (fault : OptionFault text error) : ¬ ∃ argument, OptionText text argument := by
  rintro ⟨argument, reads⟩
  have parsed := reads.parse_eq
  rw [fault.parse_eq] at parsed
  contradiction

theorem OptionText.unique {text : String} {argument other : Argument}
    (reads : OptionText text argument) (readsOther : OptionText text other) : argument = other := by
  have same := reads.parse_eq
  rw [readsOther.parse_eq] at same
  cases same
  rfl

/-! ## Arguments in order -/

namespace Arguments

/-- Take in the arguments that some texts stand for, one after the other. -/
def takeIn (start : Arguments) (texts : List String) : Except CommandError Arguments :=
  (texts.mapM Argument.parse).map (List.foldl add start)

@[simp] theorem takeIn_nil (start : Arguments) : start.takeIn [] = .ok start := rfl

theorem takeIn_cons_of_ok {text : String} {argument : Argument}
    (parsed : Argument.parse text = .ok argument) (start : Arguments) (texts : List String) :
    start.takeIn (text :: texts) = (start.add argument).takeIn texts := by
  rw [takeIn, List.mapM_cons, parsed, takeIn]
  cases texts.mapM Argument.parse <;> rfl

theorem takeIn_cons_of_error {text : String} {error : CommandError}
    (failed : Argument.parse text = .error error) (start : Arguments) (texts : List String) :
    start.takeIn (text :: texts) = .error error := by
  rw [takeIn, List.mapM_cons, failed]
  rfl

/-- More positional arguments behind those there are. -/
def append (arguments : Arguments) (texts : List String) : Arguments :=
  { arguments with positional := arguments.positional ++ texts }

theorem add_append_of_optionText {text : String} {argument : Argument}
    (reads : OptionText text argument) (arguments : Arguments) (texts : List String) :
    (arguments.append texts).add argument = (arguments.add argument).append texts := by
  cases reads <;> rfl

theorem takeIn_append {options : List String} (areOptions : ∀ text ∈ options, IsOption text)
    (start : Arguments) (texts : List String) :
    (start.append texts).takeIn options = (start.takeIn options).map (·.append texts) := by
  induction options generalizing start with
  | nil => rfl
  | cons text options inductionHypothesis =>
      obtain ⟨isOption, others⟩ := List.forall_mem_cons.mp areOptions
      rcases exists_optionText_or_optionFault isOption with ⟨argument, reads⟩ | ⟨error, fault⟩
      · rw [takeIn_cons_of_ok reads.parse_eq, takeIn_cons_of_ok reads.parse_eq,
          add_append_of_optionText reads, inductionHypothesis others]
      · rw [takeIn_cons_of_error fault.parse_eq, takeIn_cons_of_error fault.parse_eq]
        rfl

end Arguments

/-! ## Options apart from positional arguments -/

def optionsOf (texts : List String) : List String := texts.filter fun text => IsOption text

def positionalsOf (texts : List String) : List String := texts.filter fun text => ¬ IsOption text

theorem isOption_of_mem_optionsOf {texts : List String} :
    ∀ text ∈ optionsOf texts, IsOption text := by
  intro text member
  simpa using (List.mem_filter.mp member).2

namespace Arguments

/-- The options can be taken in first and the positional arguments after them. -/
theorem takeIn_eq (start : Arguments) (texts : List String) :
    start.takeIn texts =
      (start.takeIn (optionsOf texts)).map (·.append (positionalsOf texts)) := by
  induction texts generalizing start with
  | nil => simp [optionsOf, positionalsOf, append, Except.map]
  | cons text texts inductionHypothesis =>
      by_cases isOption : IsOption text
      · have options : optionsOf (text :: texts) = text :: optionsOf texts := by
          simp [optionsOf, isOption]
        have positionals : positionalsOf (text :: texts) = positionalsOf texts := by
          simp [positionalsOf, isOption]
        rw [options, positionals]
        rcases exists_optionText_or_optionFault isOption with ⟨argument, reads⟩ | ⟨error, fault⟩
        · rw [takeIn_cons_of_ok reads.parse_eq, takeIn_cons_of_ok reads.parse_eq,
            inductionHypothesis]
        · rw [takeIn_cons_of_error fault.parse_eq, takeIn_cons_of_error fault.parse_eq]
          rfl
      · have options : optionsOf (text :: texts) = optionsOf texts := by
          simp [optionsOf, isOption]
        have positionals : positionalsOf (text :: texts) = text :: positionalsOf texts := by
          simp [positionalsOf, isOption]
        have added : start.add (.positional text) = start.append [text] := rfl
        rw [options, positionals, takeIn_cons_of_ok (Argument.parse_of_not_isOption isOption),
          inductionHypothesis, added, takeIn_append isOption_of_mem_optionsOf]
        cases start.takeIn (optionsOf texts) with
        | error error => rfl
        | ok arguments => simp [Except.map, append]

theorem parse_eq (texts : List String) :
    parse texts = (takeIn {} (optionsOf texts)).map (·.append (positionalsOf texts)) :=
  takeIn_eq {} texts

/-- Only the order within each of the two kinds matters. -/
theorem parse_congr {texts mixed : List String} (sameOptions : optionsOf mixed = optionsOf texts)
    (samePositionals : positionalsOf mixed = positionalsOf texts) : parse mixed = parse texts := by
  rw [parse_eq, sameOptions, samePositionals, ← parse_eq]

theorem parse_eq_error_iff_takeIn {texts : List String} {error : CommandError} :
    parse texts = .error error ↔ takeIn {} (optionsOf texts) = .error error := by
  rw [parse_eq]
  cases takeIn {} (optionsOf texts) <;> simp [Except.map]

theorem takeIn_of_optionFault {front back : List String} {text : String} {error : CommandError}
    (passed : ∀ earlier ∈ front, ∃ argument, OptionText earlier argument)
    (fault : OptionFault text error) (start : Arguments) :
    start.takeIn (front ++ text :: back) = .error error := by
  induction front generalizing start with
  | nil => exact takeIn_cons_of_error fault.parse_eq start back
  | cons earlier front inductionHypothesis =>
      obtain ⟨⟨argument, reads⟩, others⟩ := List.forall_mem_cons.mp passed
      rw [List.cons_append, takeIn_cons_of_ok reads.parse_eq]
      exact inductionHypothesis others (start.add argument)

theorem exists_optionFault_of_takeIn {options : List String}
    (areOptions : ∀ text ∈ options, IsOption text) {start : Arguments} {error : CommandError}
    (failed : start.takeIn options = .error error) :
    ∃ front text back, options = front ++ text :: back ∧
      (∀ earlier ∈ front, ∃ argument, OptionText earlier argument) ∧ OptionFault text error := by
  induction options generalizing start with
  | nil => contradiction
  | cons text options inductionHypothesis =>
      obtain ⟨isOption, others⟩ := List.forall_mem_cons.mp areOptions
      rcases exists_optionText_or_optionFault isOption with ⟨argument, reads⟩ | ⟨problem, fault⟩
      · rw [takeIn_cons_of_ok reads.parse_eq] at failed
        obtain ⟨front, faulty, back, rfl, passed, fault⟩ := inductionHypothesis others failed
        exact ⟨text :: front, faulty, back, rfl,
          List.forall_mem_cons.mpr ⟨⟨argument, reads⟩, passed⟩, fault⟩
      · rw [takeIn_cons_of_error fault.parse_eq] at failed
        cases failed
        exact ⟨[], text, options, rfl, by simp, fault⟩

theorem takeIn_eq_error_iff {options : List String} (areOptions : ∀ text ∈ options, IsOption text)
    (start : Arguments) {error : CommandError} :
    start.takeIn options = .error error ↔ ∃ front text back, options = front ++ text :: back ∧
      (∀ earlier ∈ front, ∃ argument, OptionText earlier argument) ∧ OptionFault text error := by
  constructor
  · exact exists_optionFault_of_takeIn areOptions
  · rintro ⟨front, text, back, rfl, passed, fault⟩
    exact takeIn_of_optionFault passed fault start

/-- If options are taken in, the first of them has been read. -/
theorem exists_optionText_of_takeIn_cons {text : String} {options : List String}
    {start arguments : Arguments} (isOption : IsOption text)
    (taken : start.takeIn (text :: options) = .ok arguments) :
    ∃ argument, OptionText text argument ∧
      (start.add argument).takeIn options = .ok arguments := by
  rcases exists_optionText_or_optionFault isOption with ⟨argument, reads⟩ | ⟨error, fault⟩
  · rw [takeIn_cons_of_ok reads.parse_eq] at taken
    exact ⟨argument, reads, taken⟩
  · rw [takeIn_cons_of_error fault.parse_eq] at taken
    contradiction

theorem exists_optionText_of_takeIn {options : List String}
    (areOptions : ∀ text ∈ options, IsOption text) {start arguments : Arguments}
    (taken : start.takeIn options = .ok arguments) :
    ∀ text ∈ options, ∃ argument, OptionText text argument := by
  induction options generalizing start with
  | nil => simp
  | cons text options inductionHypothesis =>
      obtain ⟨isOption, others⟩ := List.forall_mem_cons.mp areOptions
      obtain ⟨argument, reads, takenRest⟩ := exists_optionText_of_takeIn_cons isOption taken
      exact List.forall_mem_cons.mpr ⟨⟨argument, reads⟩, inductionHypothesis others takenRest⟩

end Arguments

/-! ## The last option decides -/

/-- The value that the last of some texts has, among those that have one, and the initial
value if there are none. -/
def LastOf {α : Type} (reads : String → α → Prop) (texts : List String) (initial value : α) : Prop :=
  (∃ front text back, texts = front ++ text :: back ∧ reads text value ∧
    ∀ later ∈ back, ∀ other, ¬ reads later other) ∨
  (∀ text ∈ texts, ∀ other, ¬ reads text other) ∧ value = initial

namespace LastOf

variable {α : Type} {reads : String → α → Prop} {text : String} {texts : List String}
  {initial first value : α}

theorem cons (last : LastOf reads texts first value)
    (step : reads text first ∨ (∀ other, ¬ reads text other) ∧ first = initial) :
    LastOf reads (text :: texts) initial value := by
  rcases last with ⟨front, later, back, rfl, isLater, nothing⟩ | ⟨nothing, rfl⟩
  · exact .inl ⟨text :: front, later, back, rfl, isLater, nothing⟩
  · rcases step with isFirst | ⟨notFirst, rfl⟩
    · exact .inl ⟨[], text, texts, rfl, isFirst, nothing⟩
    · exact .inr ⟨List.forall_mem_cons.mpr ⟨notFirst, nothing⟩, rfl⟩

end LastOf

namespace Arguments

/-- A part of the arguments that some options set and the others leave alone is what the last
of these options sets. -/
theorem lastOf_takeIn {α : Type} (part : Arguments → α) {reads : String → α → Prop}
    (step : ∀ (arguments : Arguments) {text : String} {argument : Argument},
      OptionText text argument → reads text (part (arguments.add argument)) ∨
        (∀ other, ¬ reads text other) ∧ part (arguments.add argument) = part arguments)
    {options : List String} (areOptions : ∀ text ∈ options, IsOption text)
    {start arguments : Arguments} (taken : start.takeIn options = .ok arguments) :
    LastOf reads options (part start) (part arguments) := by
  induction options generalizing start with
  | nil =>
      cases taken
      exact .inr ⟨by simp, rfl⟩
  | cons text options inductionHypothesis =>
      obtain ⟨isOption, others⟩ := List.forall_mem_cons.mp areOptions
      obtain ⟨argument, reads, takenRest⟩ := exists_optionText_of_takeIn_cons isOption taken
      exact (inductionHypothesis others takenRest).cons (step start reads)

section Taken

variable {options : List String} {arguments : Arguments}
  (areOptions : ∀ text ∈ options, IsOption text)
  (taken : takeIn {} options = .ok arguments)

include areOptions taken

theorem positional_of_takeIn : arguments.positional = [] := by
  have last : LastOf (fun _ _ => False) options [] arguments.positional := by
    refine lastOf_takeIn Arguments.positional (fun arguments text argument reads => .inr ?_)
      areOptions taken
    exact ⟨by simp, by cases reads <;> rfl⟩
  rcases last with ⟨_, _, _, _, impossible, _⟩ | ⟨_, same⟩
  · exact impossible.elim
  · exact same

theorem check_of_takeIn : arguments.options.check = true ↔ "--check" ∈ options := by
  have last : LastOf (fun text set => text = "--check" ∧ set = true) options false
      arguments.options.check := by
    refine lastOf_takeIn (·.options.check) (fun arguments text argument reads => ?_) areOptions taken
    cases reads with
    | check => exact .inl ⟨rfl, rfl⟩
    | tabWidth => exact .inr ⟨fun _ isCheck => by simp [← String.toList_inj] at isCheck, rfl⟩
    | policy => exact .inr ⟨fun _ isCheck => by simp [← String.toList_inj] at isCheck, rfl⟩
  rcases last with ⟨front, text, back, rfl, ⟨rfl, isSet⟩, _⟩ | ⟨nothing, isUnset⟩
  · simp [isSet]
  · have absent : "--check" ∉ options := fun member => nothing _ member true ⟨rfl, rfl⟩
    simp [isUnset, absent]

theorem tabWidth_of_takeIn :
    LastOf (fun text width => OptionText text (.tabWidth width)) options 8
      arguments.options.style.config.tabWidth := by
  refine lastOf_takeIn (·.options.style.config.tabWidth) (fun arguments text argument reads => ?_)
    areOptions taken
  cases argument with
  | tabWidth width => exact .inl reads
  | check | policy | positional =>
      exact .inr ⟨fun _ other => (nomatch reads.unique other), rfl⟩

theorem policyFor_of_takeIn (symbol : String) :
    LastOf (fun text policy => OptionText text (.policy symbol policy)) options
      (PolicyTable.scheme.policyFor symbol) (arguments.options.style.table.policyFor symbol) := by
  refine lastOf_takeIn (·.options.style.table.policyFor symbol)
    (fun arguments text argument reads => ?_) areOptions taken
  cases argument with
  | check | tabWidth | positional =>
      exact .inr ⟨fun _ other => (nomatch reads.unique other), rfl⟩
  | policy entry policy =>
      simp only [add, PolicyTable.policyFor_insert]
      by_cases same : symbol = entry
      · subst same
        exact .inl (by simpa using reads)
      · refine .inr ⟨fun other isOther => ?_, if_neg same⟩
        cases reads.unique isOther
        exact same rfl

end Taken

/-- Options and positional arguments do not interfere.  Only the order within each of the two
kinds matters.  The first option that cannot be read is reported.  If all can be read, the
positional arguments are those given, and the last option of a kind decides, with the
policies of the keywords and a tab width of eight to begin with. -/
theorem parse_separates_options (texts : List String) :
    parse texts = parse (optionsOf texts ++ positionalsOf texts) ∧
    (∀ mixed, optionsOf mixed = optionsOf texts → positionalsOf mixed = positionalsOf texts →
      parse mixed = parse texts) ∧
    ((∃ error, parse texts = .error error) ↔
      ∃ text ∈ optionsOf texts, ¬ ∃ argument, OptionText text argument) ∧
    (∀ error, parse texts = .error error ↔
      ∃ front text back, optionsOf texts = front ++ text :: back ∧
        (∀ earlier ∈ front, ∃ argument, OptionText earlier argument) ∧ OptionFault text error) ∧
    ((∀ text ∈ optionsOf texts, ∃ argument, OptionText text argument) →
      ∃ arguments, parse texts = .ok arguments ∧ arguments.positional = positionalsOf texts ∧
        (arguments.options.check = true ↔ "--check" ∈ optionsOf texts) ∧
        LastOf (fun text width => OptionText text (.tabWidth width)) (optionsOf texts) 8
          arguments.options.style.config.tabWidth ∧
        ∀ symbol, LastOf (fun text policy => OptionText text (.policy symbol policy))
          (optionsOf texts) (PolicyTable.scheme.policyFor symbol)
          (arguments.options.style.table.policyFor symbol)) := by
  have areOptions : ∀ text ∈ optionsOf texts, IsOption text := isOption_of_mem_optionsOf
  refine ⟨(parse_congr ?_ ?_).symm, fun _ => parse_congr, ⟨?_, ?_⟩, ?_, ?_⟩
  · simp [optionsOf, positionalsOf, List.filter_filter]
  · simp [optionsOf, positionalsOf, List.filter_filter]
  · rintro ⟨error, failed⟩
    rw [parse_eq_error_iff_takeIn, takeIn_eq_error_iff areOptions] at failed
    obtain ⟨front, text, back, split, _, fault⟩ := failed
    exact ⟨text, by simp [split], fault.not_optionText⟩
  · rintro ⟨text, member, unreadable⟩
    cases taken : takeIn {} (optionsOf texts) with
    | error error => exact ⟨error, parse_eq_error_iff_takeIn.mpr taken⟩
    | ok arguments =>
        exact absurd (exists_optionText_of_takeIn areOptions taken text member) unreadable
  · intro error
    rw [parse_eq_error_iff_takeIn, takeIn_eq_error_iff areOptions]
  · intro readable
    cases taken : takeIn {} (optionsOf texts) with
    | error error =>
        obtain ⟨front, text, back, split, _, fault⟩ := (takeIn_eq_error_iff areOptions {}).mp taken
        exact absurd (readable text (by simp [split])) fault.not_optionText
    | ok arguments =>
        have check := check_of_takeIn areOptions taken
        have tabWidth := tabWidth_of_takeIn areOptions taken
        have policyFor := policyFor_of_takeIn areOptions taken
        refine ⟨arguments.append (positionalsOf texts), ?_, ?_, check, tabWidth, policyFor⟩
        · rw [parse_eq, taken]
          rfl
        · rw [append, positional_of_takeIn areOptions taken, List.nil_append]

/-- Two tab widths, an override and the check between two positional arguments, in two
orders. -/
theorem parse_separates_options_in_two_orders :
    let texts := ["a.scm", "--tab-width=4", "--policy=x=none", "12", "--check", "--tab-width=+02"]
    let mixed := ["--tab-width=4", "--policy=x=none", "--check", "a.scm", "--tab-width=+02", "12"]
    parse mixed = parse texts ∧
    (∀ text ∈ optionsOf texts, ∃ argument, OptionText text argument) ∧
    ∃ arguments, parse texts = .ok arguments ∧ arguments.positional = ["a.scm", "12"] ∧
      arguments.options.check = true ∧
      LastOf (fun text width => OptionText text (.tabWidth width)) (optionsOf texts) 8
        arguments.options.style.config.tabWidth ∧
      LastOf (fun text policy => OptionText text (.policy "x" policy)) (optionsOf texts)
        (PolicyTable.scheme.policyFor "x") (arguments.options.style.table.policyFor "x") := by
  intro texts mixed
  have facts := parse_separates_options texts
  have four : OptionText ("--tab-width=" ++ "4") (.tabWidth 4) :=
    .tabWidth (readNumeral?_iff.mp (by decide)) (by decide)
  have two : OptionText ("--tab-width=" ++ "+02") (.tabWidth 2) :=
    .tabWidth (readNumeral?_iff.mp (by decide)) (by decide)
  have verbatim : OptionText ("--policy=" ++ "x=none") (.policy "x" .verbatim) :=
    .policy rfl
  have readable : ∀ text ∈ optionsOf texts, ∃ argument, OptionText text argument := by
    have options : optionsOf texts =
        ["--tab-width=4", "--policy=x=none", "--check", "--tab-width=+02"] := by decide
    simp only [options, List.forall_mem_cons]
    exact ⟨⟨_, four⟩, ⟨_, verbatim⟩, ⟨_, .check⟩, ⟨_, two⟩, by simp⟩
  obtain ⟨arguments, parsed, positional, check, tabWidth, policyFor⟩ := facts.2.2.2.2 readable
  exact ⟨facts.2.1 mixed (by decide) (by decide), readable, arguments, parsed,
    positional.trans (by decide), check.mpr (by decide), tabWidth, policyFor "x"⟩

end Arguments

end SchemeLayout
