import SchemeLayout.Program.Run
import SchemeLayout.Proofs.ArgumentOrder

/-!
The check option of the format command.

Put in anywhere among the arguments, the option changes nothing of what the command
works on: the style, the file and its content, or the failure that comes before
them.  It only changes what is made of them, from printing the formatted text to
telling whether that is the content of the file.
-/

set_option autoImplicit false

namespace SchemeLayout

/-- `checked` is `texts` with the check option put in, any number of times. -/
inductive InsertsCheck : List String → List String → Prop where
  | nil : InsertsCheck [] []
  | keep {text : String} {texts checked : List String} :
      InsertsCheck texts checked → InsertsCheck (text :: texts) (text :: checked)
  | insert {texts checked : List String} :
      InsertsCheck texts checked → InsertsCheck texts ("--check" :: checked)

/-! ## Parsing -/

namespace Arguments

theorem add_check_add (arguments : Arguments) (argument : Argument) :
    (arguments.add .check).add argument = (arguments.add argument).add .check := by
  cases argument <;> rfl

/-- One more argument in front of both is taken in on both sides, or fails on both. -/
theorem takeIn_cons_congr {start other : Arguments} {texts checked : List String}
    (same : ∀ argument, (start.add argument).takeIn checked =
      ((other.add argument).takeIn texts).map (·.add .check)) (text : String) :
    start.takeIn (text :: checked) = (other.takeIn (text :: texts)).map (·.add .check) := by
  cases parsed : Argument.parse text with
  | error error =>
      rw [takeIn_cons_of_error parsed, takeIn_cons_of_error parsed]
      rfl
  | ok argument =>
      rw [takeIn_cons_of_ok parsed, takeIn_cons_of_ok parsed]
      exact same argument

section Inserted

variable {texts checked : List String} (inserted : InsertsCheck texts checked)

include inserted

/-- Where the check is already asked for, further requests change nothing. -/
theorem takeIn_add_check (start : Arguments) :
    (start.add .check).takeIn checked = (start.takeIn texts).map (·.add .check) := by
  induction inserted generalizing start with
  | nil => rfl
  | @keep text texts checked _ inductionHypothesis =>
      apply takeIn_cons_congr
      intro argument
      rw [add_check_add]
      exact inductionHypothesis (start.add argument)
  | @insert texts checked _ inductionHypothesis =>
      rw [takeIn_cons_of_ok OptionText.check.parse_eq, add_check_add]
      exact inductionHypothesis start

/-- The check is asked for besides all else, whatever comes before its first request. -/
theorem takeIn_of_insertsCheck (absent : "--check" ∉ texts) (present : "--check" ∈ checked)
    (start : Arguments) : start.takeIn checked = (start.takeIn texts).map (·.add .check) := by
  induction inserted generalizing start with
  | nil => contradiction
  | @keep text texts checked _ inductionHypothesis =>
      rw [List.mem_cons, not_or] at absent
      have presentLater := (List.mem_cons.mp present).resolve_left absent.1
      apply takeIn_cons_congr
      intro argument
      exact inductionHypothesis absent.2 presentLater (start.add argument)
  | @insert texts checked insertedLater _ =>
      rw [takeIn_cons_of_ok OptionText.check.parse_eq]
      exact takeIn_add_check insertedLater start

end Inserted

variable {texts : List String} {arguments : Arguments} (parsed : parse texts = .ok arguments)

include parsed

theorem exists_takeIn_of_parse :
    ∃ options, takeIn {} (optionsOf texts) = .ok options ∧
      options.append (positionalsOf texts) = arguments := by
  rw [parse_eq] at parsed
  cases taken : takeIn {} (optionsOf texts) with
  | error error => simp [taken, Except.map] at parsed
  | ok options =>
      rw [taken] at parsed
      exact ⟨options, rfl, Except.ok.inj parsed⟩

theorem positional_of_parse : arguments.positional = positionalsOf texts := by
  obtain ⟨options, taken, rfl⟩ := exists_takeIn_of_parse parsed
  rw [append, positional_of_takeIn isOption_of_mem_optionsOf taken, List.nil_append]

theorem check_of_parse : arguments.options.check = true ↔ "--check" ∈ texts := by
  obtain ⟨options, taken, rfl⟩ := exists_takeIn_of_parse parsed
  have isOption : IsOption "--check" := by decide
  simp only [append, check_of_takeIn isOption_of_mem_optionsOf taken, optionsOf,
    List.mem_filter, isOption, decide_true, and_true]

theorem filePath_eq_ok {path : String} (isPath : arguments.filePath = .ok path) :
    positionalsOf texts = [path] := by
  rw [← positional_of_parse parsed]
  unfold filePath at isPath
  split at isPath
  next only isOnly =>
    cases isPath
    exact isOnly
  next => contradiction
  next => contradiction

end Arguments

/-! ## The format command -/

/-- The text of a file is its content. -/
theorem Command.readText_eq_ok {path : String} {result : ReadResult} {content : Bytes}
    (isText : readText path result = .ok content) : result = .ok content := by
  unfold readText at isText
  split at isText
  next => contradiction
  next => contradiction
  next bytes =>
    split at isText
    · cases isText
      rfl
    · contradiction

/-- What the format command works on. -/
structure FormatJob where
  options : Options
  path : String
  content : Bytes

namespace FormatJob

def withCheck (job : FormatJob) : FormatJob :=
  { job with options := { job.options with check := true } }

def outcome (job : FormatJob) : FormatOutcome := Command.formatText job.options job.content

def output (job : FormatJob) : Output := Program.formatOutput job.options job.path job.outcome

theorem output_of_not_check {job : FormatJob} (noCheck : job.options.check = false) :
    job.output = { stdout := job.outcome.text } := by
  simp [output, Program.formatOutput, noCheck]

/-- With the check, only whether the text changes comes out. -/
theorem output_withCheck (job : FormatJob) :
    job.withCheck.output =
      if job.outcome.text = job.content then {}
      else { status := 2, stderr := job.path ++ ": indentation differs\n" } := by
  have changed : job.outcome.isChanged = true ↔ job.outcome.text ≠ job.content :=
    Command.isChanged_formatText job.options job.content
  have isOutput : job.withCheck.output =
      if job.outcome.isChanged then
        { status := 2, stderr := job.path ++ ": indentation differs\n" }
      else {} := rfl
  rw [isOutput]
  by_cases unchanged : job.outcome.text = job.content
  · rw [if_neg (mt changed.mp (not_not_intro unchanged)), if_pos unchanged]
  · rw [if_pos (changed.mpr unchanged), if_neg unchanged]

end FormatJob

namespace Program

/-- The job that some arguments describe, or a failure with its hint. -/
def formatJob (read : String → ReadResult) (texts : List String) :
    Except (CommandError × String) FormatJob :=
  match Arguments.parse texts with
  | .error error => .error (error, "")
  | .ok arguments =>
      match arguments.filePath with
      | .error error => .error (error, formatUsage)
      | .ok path =>
          match Command.readText path (read path) with
          | .error error => .error (error, "")
          | .ok content => .ok ⟨arguments.options, path, content⟩

/-- The format command does its job, or fails with the hint. -/
theorem run_format (read : String → ReadResult) (texts : List String) :
    run read ("fmt" :: texts) =
      match formatJob read texts with
      | .error (error, hint) => fail error hint
      | .ok job => job.output := by
  have isFormat : plan ("fmt" :: texts) = planFormat texts := by
    rw [plan, if_pos rfl]
  rw [run, isFormat, planFormat, formatJob]
  cases Arguments.parse texts with
  | error error => rfl
  | ok arguments =>
      cases isPath : arguments.filePath with
      | error error => simp only [isPath]
      | ok path =>
          simp only [isPath, Command.formatFile]
          cases Command.readText path (read path) with
          | error error => rfl
          | ok content => rfl

/-- The check option leaves the job as it is, and every failure before it. -/
theorem formatJob_of_insertsCheck (read : String → ReadResult) {texts checked : List String}
    (inserted : InsertsCheck texts checked) (absent : "--check" ∉ texts)
    (present : "--check" ∈ checked) :
    formatJob read checked = (formatJob read texts).map FormatJob.withCheck := by
  have parsed : Arguments.parse checked = (Arguments.parse texts).map (·.add .check) :=
    Arguments.takeIn_of_insertsCheck inserted absent present {}
  rw [formatJob, formatJob, parsed]
  cases Arguments.parse texts with
  | error error => rfl
  | ok arguments =>
      have samePath : (arguments.add .check).filePath = arguments.filePath := rfl
      simp only [Except.map, samePath]
      cases arguments.filePath with
      | error error => rfl
      | ok path =>
          dsimp only
          cases Command.readText path (read path) with
          | error error => rfl
          | ok content => rfl

theorem formatJob_eq_ok {read : String → ReadResult} {texts : List String} {job : FormatJob}
    (isJob : formatJob read texts = .ok job) :
    positionalsOf texts = [job.path] ∧ read job.path = .ok job.content ∧
      (job.options.check = true ↔ "--check" ∈ texts) := by
  unfold formatJob at isJob
  split at isJob
  · contradiction
  next arguments parsed =>
    split at isJob
    · contradiction
    next path isPath =>
      split at isJob
      · contradiction
      next content isText =>
        cases isJob
        exact ⟨Arguments.filePath_eq_ok parsed isPath, Command.readText_eq_ok isText,
          Arguments.check_of_parse parsed⟩

/-- The format command with the check option, put in anywhere, agrees with the command without
it.  Where that prints a text, the check prints nothing; it succeeds if the text is the
content of the file, and otherwise names the path.  Where that fails, the check fails in the
same way. -/
theorem run_check_agrees (read : String → ReadResult) {texts checked : List String}
    (absent : "--check" ∉ texts) (inserted : InsertsCheck texts checked)
    (present : "--check" ∈ checked) :
    let plain := run read ("fmt" :: texts)
    let check := run read ("fmt" :: checked)
    (plain.status = 0 ∨ plain.status = 1) ∧
    (plain.status = 0 → plain.stderr = "" ∧ ∃ path content, positionalsOf texts = [path] ∧
      read path = .ok content ∧ check.stdout = [] ∧
      (plain.stdout = content → check.status = 0 ∧ check.stderr = "") ∧
      (plain.stdout ≠ content → check.status = 2 ∧
        check.stderr = path ++ ": indentation differs\n")) ∧
    (plain.status = 1 → check.status = 1 ∧ check.stderr = plain.stderr ∧ check.stdout = []) := by
  intro plain check
  have isPlain : plain = _ := run_format read texts
  have isCheck : check = _ := run_format read checked
  rw [formatJob_of_insertsCheck read inserted absent present] at isCheck
  cases isJob : formatJob read texts with
  | error failure =>
      simp only [isJob] at isPlain
      simp only [isJob, Except.map] at isCheck
      rw [isPlain, isCheck]
      exact ⟨.inr rfl, nofun, fun _ => ⟨rfl, rfl, rfl⟩⟩
  | ok job =>
      obtain ⟨isPath, isContent, isChecked⟩ := formatJob_eq_ok isJob
      have noCheck : job.options.check = false := by simpa using mt isChecked.mp absent
      simp only [isJob, FormatJob.output_of_not_check noCheck] at isPlain
      simp only [isJob, Except.map, FormatJob.output_withCheck] at isCheck
      rw [isPlain, isCheck]
      refine ⟨.inl rfl, fun _ => ⟨rfl, job.path, job.content, isPath, isContent, ?_, ?_, ?_⟩, nofun⟩
      · split <;> rfl
      · intro unchanged
        rw [if_pos unchanged]
        exact ⟨rfl, rfl⟩
      · intro changed
        rw [if_neg changed]
        exact ⟨rfl, rfl⟩

/-- A file that is not formatted, with the check in front of the other arguments and behind
them. -/
theorem run_check_agrees_on_changed_file :
    let read := (FileTree.ofFiles [("a.scm", .file (encode "(a\nb)"))]).read
    let checked := ["--check", "--tab-width=4", "a.scm", "--check"]
    run read ["fmt", "--tab-width=4", "a.scm"] = { stdout := encode "(a\n b)" } ∧
      InsertsCheck ["--tab-width=4", "a.scm"] checked ∧
      (run read ("fmt" :: checked)).status = 2 ∧ (run read ("fmt" :: checked)).stdout = [] ∧
      (run read ("fmt" :: checked)).stderr = "a.scm: indentation differs\n" := by
  intro read checked
  have plain : run read ["fmt", "--tab-width=4", "a.scm"] = { stdout := encode "(a\n b)" } := by
    decide +kernel
  have inserted : InsertsCheck ["--tab-width=4", "a.scm"] checked :=
    .insert (.keep (.keep (.insert .nil)))
  have agrees := run_check_agrees read (by decide) inserted (by decide)
  rw [plain] at agrees
  obtain ⟨_, path, content, isPath, isContent, nothing, _, differs⟩ := agrees.2.1 rfl
  have isFile : path = "a.scm" := by
    have only : positionalsOf ["--tab-width=4", "a.scm"] = ["a.scm"] := by decide
    simpa [only, eq_comm] using isPath
  subst isFile
  have isText : read "a.scm" = .ok (encode "(a\nb)") := by decide +kernel
  rw [isText, Except.ok.injEq] at isContent
  have reported := differs (by rw [← isContent]; decide +kernel)
  exact ⟨plain, inserted, reported.1, nothing, reported.2⟩

end Program

end SchemeLayout
