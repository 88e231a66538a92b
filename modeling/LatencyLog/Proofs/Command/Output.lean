import LatencyLog.Command
import LatencyLog.Proofs.Average.Range
import LatencyLog.Proofs.Summary.HeldTexts
import LatencyLog.Proofs.Summary.Order

/-! # What the command prints

* `LeadsToTexts`: a path leads to a source of some texts.
* `Refuses`: the message that says why there is no average of what a path leads to.
* `IsPrinted`: the text that is printed for lines.
* `Command.run_cases`: the usage, an average, or an error.

Nothing is assumed of how paths are opened.
-/

namespace LatencyLog

set_option autoImplicit false

/-! ## Opening -/

section

variable {openAt : String → Except ReadFailure Source} {path : String}

/-- A path can be opened, and what there is to read of it are the lines of some texts. -/
def LeadsToTexts (openAt : String → Except ReadFailure Source) (path : String)
    (texts : List (List Char)) : Prop :=
  ∃ source, openAt path = .ok source ∧ source.HoldsTexts texts

/-- Why there is no average of what a path leads to: it cannot be opened, or it fails to be read
after some lines. A line that is no text is such a failure too. -/
inductive Refuses (openAt : String → Except ReadFailure Source) (path : String) :
    String → Prop where
  | cannotOpen {failure : ReadFailure} (h : openAt path = .error failure) :
      Refuses openAt path ("cannot open " ++ path ++ ": " ++ failure.message)
  | readFailed {source read : Source} {texts : List (List Char)} {failure : ReadFailure}
      (opened : openAt path = .ok source) (begins : read <+: source.steps)
      (fails : FailsAfter texts failure read) :
      Refuses openAt path
        ("read failed at line " ++ toString (texts.length + 1) ++ ": " ++ failure.message)

theorem result_of_leadsToTexts {texts : List (List Char)} (h : LeadsToTexts openAt path texts) :
    (Pass.ofOpened path (openAt path)).result = .ok (Summary.ofOutcomes (outcomes texts)) := by
  obtain ⟨source, opened, held⟩ := h
  rw [opened]
  exact held.result_eq

/-- A path that leads to no source of texts gives an error, and its message says why. -/
theorem exists_refusal (h : ¬∃ texts, LeadsToTexts openAt path texts) :
    ∃ error, (Pass.ofOpened path (openAt path)).result = .error error ∧
      Refuses openAt path error.message := by
  cases opened : openAt path with
  | error failure => exact ⟨.cannotOpen path failure, rfl, .cannotOpen opened⟩
  | ok source =>
    rcases holdsTexts_or_failsAfter source with ⟨texts, held⟩ | ⟨texts, f, read, begins, fails⟩
    · exact absurd ⟨texts, source, opened, held⟩ h
    · have pass := (pass_of_failsAfter fails begins).2
      exact ⟨_, congrArg Pass.result pass, .readFailed opened begins fails⟩

end

/-! ## The printed average of lines -/

/-- What is printed for the lines of a file: `0` just where no line is a sample, and otherwise the
average of the samples, as a decimal that denotes it and nothing else. -/
structure IsPrinted (texts : List (List Char)) (text : String) : Prop where
  zero_iff : text = "0" ↔
    ∀ line ∈ texts, ∀ value, Outcome.ofLine (String.ofList line) ≠ .sample value
  mean : text ≠ "0" → ∃ v, Average.ofSamples (samplesOf texts) = .value v ∧
    (∃ body, text.toList = Binary64.signed v.negative body ∧
      (PositionalForm body ∨ ScientificForm 2 body)) ∧
    text ∉ ["NaN", "inf", "-inf", "-0.0"] ∧ ∀ w, Binary64.IsReading text.toList w ↔ w = v

theorem samplesOf_eq_nil_iff (texts : List (List Char)) :
    samplesOf texts = [] ↔
      ∀ line ∈ texts, ∀ value, Outcome.ofLine (String.ofList line) ≠ .sample value := by
  rw [samplesOf, List.filterMap_eq_nil_iff, outcomes, List.forall_mem_map]
  refine forall₂_congr fun line _ => ?_
  cases Outcome.ofLine (String.ofList line) with
  | sample value => exact iff_of_false (Option.some_ne_none value) fun none => none value rfl
  | skipped cause => exact iff_of_true rfl (by rintro value ⟨⟩)

theorem isPrinted_average {texts : List (List Char)} (few : texts.length < 2 ^ 64) :
    IsPrinted texts (Average.ofSamples (samplesOf texts)).text := by
  have count : (Tally.empty.extend (samplesOf texts)).count = (samplesOf texts).length :=
    Tally.count_empty_extend _
  constructor
  · rw [Average.text_eq_zero_iff, Average.ofSamples, average_eq_empty_iff, count,
      List.length_eq_zero_iff, samplesOf_eq_nil_iff]
  · intro other
    have some : (Tally.empty.extend (samplesOf texts)).count ≠ 0 := by
      intro zero
      rw [Ne, Average.text_eq_zero_iff, Average.ofSamples, average_eq_empty_iff] at other
      exact other zero
    have bound : (Tally.empty.extend (samplesOf texts)).count < 2 ^ 64 := by
      rw [count]
      exact (length_samplesOf_le texts).trans_lt few
    rw [Average.ofSamples, Tally.average_eq_mean some]
    exact ⟨_, rfl, Tally.form_text_mean some bound, Tally.text_mean_notMem some bound,
      Binary64.isReading_text_iff (Tally.isNaN_mean some bound)⟩

/-! ## The command -/

namespace Command

variable (program : String) {arguments : List String}
  {openAt : String → Except ReadFailure Source} {path : String}

theorem run_of_other_count (openAt : String → Except ReadFailure Source)
    (other : arguments.length ≠ 1) :
    run program arguments openAt = ⟨1, "Usage: " ++ program ++ " filename\n", ""⟩ := by
  match arguments with
  | [] => rfl
  | [_] => exact absurd rfl other
  | _ :: _ :: _ => rfl

theorem run_of_leadsToTexts {texts : List (List Char)} (h : LeadsToTexts openAt path texts) :
    run program [path] openAt =
      ⟨0, (Average.ofSamples (samplesOf texts)).text ++ "\n", ""⟩ := by
  rw [run, ofPass, result_of_leadsToTexts h]
  rfl

theorem run_of_error {error : PassError}
    (h : (Pass.ofOpened path (openAt path)).result = .error error) :
    run program [path] openAt = ⟨1, "", "❌ " ++ error.message ++ "\n"⟩ := by
  rw [run, ofPass, h]

/-- **What the command prints**, however paths are opened. With any other count of arguments than
one it is the usage. For a path that leads to texts, which are the lines of its bytes if reading
them meets no fault, it is their average. In every other case it is an error, on the other
stream. -/
theorem run_cases (arguments : List String) (openAt : String → Except ReadFailure Source)
    (few : ∀ path ∈ arguments, ∀ texts, LeadsToTexts openAt path texts → texts.length < 2 ^ 64) :
    (arguments.length ≠ 1 ∧
      run program arguments openAt = ⟨1, "Usage: " ++ program ++ " filename\n", ""⟩) ∨
    (∃ path source texts text, arguments = [path] ∧ openAt path = .ok source ∧
      source.HoldsTexts texts ∧
      (source.FaultFree → universalLines source.bytes = texts.map Utf8.encode) ∧
      run program arguments openAt = ⟨0, text ++ "\n", ""⟩ ∧ IsPrinted texts text) ∨
    (∃ path message, arguments = [path] ∧ (¬∃ texts, LeadsToTexts openAt path texts) ∧
      (∀ source, openAt path = .ok source → source.FaultFree →
        ¬∃ texts : List (List Char), universalLines source.bytes = texts.map Utf8.encode) ∧
      run program arguments openAt = ⟨1, "", "❌ " ++ message ++ "\n"⟩ ∧
      Refuses openAt path message) := by
  by_cases one : arguments.length = 1
  · obtain ⟨path, rfl⟩ := List.length_eq_one_iff.mp one
    by_cases readable : ∃ texts, LeadsToTexts openAt path texts
    · obtain ⟨texts, held⟩ := readable
      have printed := isPrinted_average (few path List.mem_cons_self texts held)
      have shown := run_of_leadsToTexts program held
      obtain ⟨source, opened, held⟩ := held
      exact Or.inr (Or.inl ⟨path, source, texts, _, rfl, opened, held,
        fun free => (holdsTexts_iff free texts).mp held, shown, printed⟩)
    · obtain ⟨error, result, refused⟩ := exists_refusal readable
      refine Or.inr (Or.inr ⟨path, _, rfl, readable, ?_, run_of_error program result, refused⟩)
      rintro source opened free ⟨texts, lines⟩
      exact readable ⟨texts, source, opened, (holdsTexts_iff free texts).mpr lines⟩
  · exact Or.inl ⟨one, run_of_other_count program openAt one⟩

/-- A file with one sample, whose average has an exponent, by its path from the root. -/
theorem run_of_wide_sample :
    let bytes := Utf8.encode "\x7b\"AverageLatency\":100000000000000000\x7d\n".toList
    let folder : Folder := ⟨[⟨["tmp", "log"], .file (.ok (Source.ofBytes bytes))⟩], ["home"]⟩
    (∀ path ∈ ["/tmp/log"], ∀ texts, LeadsToTexts folder.openAt path texts →
        texts.length < 2 ^ 64) ∧
      run "average" ["/tmp/log"] folder.openAt = ⟨0, "1e+17\n", ""⟩ ∧
      ∃ texts, universalLines bytes = texts.map Utf8.encode ∧ IsPrinted texts "1e+17" := by
  intro bytes folder
  have opened : folder.openAt "/tmp/log" = .ok (Source.ofBytes bytes) := by decide +kernel
  have free : (Source.ofBytes bytes).FaultFree := by decide
  have few : ∀ path ∈ ["/tmp/log"], ∀ texts, LeadsToTexts folder.openAt path texts →
      texts.length < 2 ^ 64 := by
    rintro path member texts ⟨source, opened', held⟩
    rw [List.mem_singleton.mp member, opened] at opened'
    cases opened'
    have count := congrArg List.length ((holdsTexts_iff free texts).mp held)
    rw [List.length_map] at count
    rw [← count]
    decide +kernel
  have result : run "average" ["/tmp/log"] folder.openAt = ⟨0, "1e+17\n", ""⟩ := by
    decide +kernel
  refine ⟨few, result, ?_⟩
  rcases run_cases "average" ["/tmp/log"] folder.openAt few with
    ⟨other, -⟩ | ⟨path, source, texts, text, same, opened', -, lines, printed, isPrinted⟩ |
      ⟨_, _, -, -, -, wrong, -⟩
  · exact absurd rfl other
  · cases same
    rw [opened] at opened'
    cases opened'
    rw [result] at printed
    injection printed with _ shown _
    obtain rfl : "1e+17" = text := (String.append_left_inj "\n").mp shown
    have whole : (Source.ofBytes bytes).bytes = bytes := List.append_nil bytes
    exact ⟨texts, whole ▸ lines free, isPrinted⟩
  · rw [result] at wrong
    injection wrong with status
    cases status

/-- A failure after the first line. -/
example :
    let failure : ReadFailure := ⟨.other "Other", "Input/output error (os error 5)"⟩
    run "average" ["log"] (fun _ => .ok [.buffer (Utf8.encode "[]\n".toList), .failure failure]) =
      ⟨1, "", "❌ read failed at line 2: Input/output error (os error 5)\n"⟩ := by
  decide +kernel

end Command

end LatencyLog
