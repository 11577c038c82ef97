import SoftError.Proofs.Outcome
import SoftError.Proofs.Text.Line
import SoftError.Stimulus.Parse

/-!
# Written stimuli

A text shows a stimulus by its lines that are not blank, each without the blanks around it, and is
read as the stimulus whose steps are written that way. A step without inputs would be a blank
line, so writing keeps all steps exactly if there are none of these. No step that was read is one.
-/

namespace SoftError

namespace Level

theorem ofChar?_eq_some_iff {c : Char} {v : Level} : ofChar? c = some v ↔ c = v.toChar := by
  constructor
  · intro h
    unfold ofChar? at h
    split at h <;> cases h <;> rfl
  · rintro rfl
    exact ofChar?_toChar v

theorem toChar_injective : Function.Injective toChar := fun v _ h =>
  Option.some.inj ((ofChar?_toChar v).symm.trans (ofChar?_eq_some_iff.mpr h))

theorem isBlank_toChar (v : Level) : Text.isBlank v.toChar = false := by
  cases v <;> decide

end Level

namespace Stimulus

variable {s : Stimulus} {steps steps' : List (List Level)} {step : List Level} {width : Nat}

theorem stepText_injective : Function.Injective stepText :=
  List.map_injective_iff.mpr Level.toChar_injective

theorem isBlank_of_mem_stepText : ∀ c ∈ stepText step, Text.isBlank c = false :=
  List.forall_mem_map.mpr fun v _ => v.isBlank_toChar

theorem trim_stepText (step : List Level) : Text.trim (stepText step) = stepText step :=
  Text.trim_eq (fun c hc => isBlank_of_mem_stepText c (List.mem_of_mem_head? hc))
    fun c hc => isBlank_of_mem_stepText c (List.mem_of_mem_getLast? hc)

theorem newline_notMem_stepText (step : List Level) : '\n' ∉ stepText step := fun h =>
  absurd (isBlank_of_mem_stepText _ h) (by decide)

theorem misfit?_eq_none (h : ∀ step ∈ steps, step.length = width) (t : Nat) :
    misfit? width t steps = none := by
  induction steps generalizing t with
  | nil => rfl
  | cons step steps ih =>
    obtain ⟨hStep, hSteps⟩ := List.forall_mem_cons.mp h
    rw [misfit?, if_pos hStep, ih hSteps]

theorem ofSteps_eq_ok_iff : ofSteps width steps = .ok s ↔ s.width = width ∧ s.steps = steps := by
  unfold ofSteps
  split
  · constructor
    · intro h
      cases h
      exact ⟨rfl, rfl⟩
    · rintro ⟨rfl, rfl⟩
      rfl
  · rename_i hFound
    refine ⟨fun h => (nomatch h), ?_⟩
    rintro ⟨rfl, rfl⟩
    rw [misfit?_eq_none s.width_eq] at hFound
    cases hFound

section Lines

/-- What the lines show: those that are not blank, without the blanks around them. -/
def visible (lines : List (List Char)) : List (List Char) :=
  (lines.map Text.trim).filter (· ≠ [])

theorem visible_cons (line : List Char) (lines : List (List Char)) :
    visible (line :: lines) = visible [line] ++ visible lines :=
  List.filter_append [Text.trim line] (lines.map Text.trim)

theorem parseStep_stepText (t : Nat) (step : List Level) :
    parseStep t (stepText step) = .ok step := by
  induction step with
  | nil => rfl
  | cons v step ih =>
    rw [stepText, List.map_cons, parseStep, Level.ofChar?_toChar]
    exact congrArg (· >>= fun rest => pure (v :: rest)) ih

theorem eq_stepText_of_parseStep {t : Nat} {cs : List Char} (h : parseStep t cs = .ok step) :
    cs = stepText step := by
  induction cs generalizing step with
  | nil =>
    cases h
    rfl
  | cons c cs ih =>
    unfold parseStep at h
    split at h
    · cases h
    · rename_i v hv
      obtain ⟨rest, hRest, h⟩ := exists_of_bind_eq_ok h
      cases h
      rw [Level.ofChar?_eq_some_iff.mp hv, ih hRest]
      rfl

theorem ne_nil_of_mem_visible {line : List Char} {lines : List (List Char)}
    (h : line ∈ visible lines) : line ≠ [] :=
  of_decide_eq_true (List.mem_filter.mp h).2

theorem visible_singleton {line : List Char} (h : Text.trim line ≠ []) :
    visible [line] = [Text.trim line] :=
  List.filter_cons_of_pos (decide_eq_true h)

theorem parseLine_eq_ok_iff {line : List UInt8} :
    parseLine steps line = .ok steps' ↔ ∃ text, Text.decode line = some text ∧
      steps'.map stepText = steps.map stepText ++ visible [text] := by
  unfold parseLine
  cases Text.decode line with
  | none => simp
  | some text =>
    simp only [Option.some.injEq, exists_eq_left']
    split
    · rename_i hBlank
      have hNone : visible [text] = [] := by simp [visible, hBlank]
      rw [hNone, List.append_nil, (List.map_injective_iff.mpr stepText_injective).eq_iff,
        Except.ok.injEq, eq_comm]
    · rename_i hText
      rw [visible_singleton hText]
      constructor
      · intro h
        obtain ⟨step, hStep, h⟩ := exists_of_bind_eq_ok h
        cases h
        rw [eq_stepText_of_parseStep hStep, List.map_append]
        rfl
      · intro h
        obtain ⟨old, new, rfl, hOld, hNew⟩ := List.map_eq_append_iff.mp h
        obtain rfl := List.map_injective_iff.mpr stepText_injective hOld
        obtain ⟨step, rfl, hStep⟩ := List.map_eq_singleton_iff.mp hNew
        rw [← hStep, parseStep_stepText]
        rfl

theorem foldlM_parseLine_eq_ok_iff {raw : List (List UInt8)} :
    raw.foldlM parseLine steps = .ok steps' ↔ ∃ lines, raw.map Text.decode = lines.map some ∧
      steps'.map stepText = steps.map stepText ++ visible lines := by
  induction raw generalizing steps with
  | nil =>
    constructor
    · intro h
      cases h
      exact ⟨[], rfl, (List.append_nil _).symm⟩
    · rintro ⟨lines, hNil, hSteps⟩
      obtain rfl := List.map_eq_nil_iff.mp hNil.symm
      have hSteps : steps'.map stepText = steps.map stepText := hSteps.trans (List.append_nil _)
      rw [List.map_injective_iff.mpr stepText_injective hSteps]
      rfl
  | cons line raw ih =>
    rw [List.foldlM_cons]
    constructor
    · intro h
      obtain ⟨mid, hLine, h⟩ := exists_of_bind_eq_ok h
      obtain ⟨text, hDecode, hMid⟩ := parseLine_eq_ok_iff.mp hLine
      obtain ⟨lines, hRaw, hLines⟩ := ih.mp h
      refine ⟨text :: lines, by rw [List.map_cons, hDecode, hRaw, List.map_cons], ?_⟩
      rw [hLines, hMid, List.append_assoc, ← visible_cons]
    · rintro ⟨lines, hRaw, hLines⟩
      obtain ⟨text, lines, rfl, hDecode, hRaw⟩ := List.map_eq_cons_iff.mp hRaw.symm
      rw [visible_cons, ← List.append_assoc] at hLines
      obtain ⟨mid, rest, rfl, hMid, hRest⟩ := List.map_eq_append_iff.mp hLines
      rw [parseLine_eq_ok_iff.mpr ⟨text, hDecode.symm, hMid⟩]
      exact ih.mpr ⟨lines, hRaw.symm, by rw [List.map_append, hRest]⟩

end Lines

/-- Exactly the visible lines are read. -/
theorem parse_eq_ok_iff {bytes : List UInt8} :
    parse bytes width = .ok s ↔ s.width = width ∧
      ∃ lines, (Text.allLines bytes).map Text.decode = lines.map some ∧
        s.steps.map stepText = visible lines := by
  rw [parse]
  constructor
  · intro h
    obtain ⟨steps, hLines, h⟩ := exists_of_bind_eq_ok h
    obtain ⟨hWidth, rfl⟩ := ofSteps_eq_ok_iff.mp h
    exact ⟨hWidth, foldlM_parseLine_eq_ok_iff.mp hLines⟩
  · rintro ⟨hWidth, hLines⟩
    have hFold : (Text.allLines bytes).foldlM parseLine [] = .ok s.steps :=
      foldlM_parseLine_eq_ok_iff.mpr hLines
    rw [hFold]
    exact ofSteps_eq_ok_iff.mpr ⟨hWidth, rfl⟩

theorem allLines_text (s : Stimulus) :
    Text.allLines (Text.encode s.text) = s.steps.map fun step => Text.encode (stepText step) := by
  rw [text]
  induction s.steps with
  | nil => rfl
  | cons step steps ih =>
    rw [List.flatMap_cons, Text.encode_append, Text.encode_append, Text.encode_newline,
      List.append_assoc, List.singleton_append,
      Text.allLines_append (Text.newline_notMem_encode (newline_notMem_stepText step)), ih,
      List.map_cons]

theorem visible_map_stepText (steps : List (List Level)) :
    visible (steps.map stepText) = (steps.map stepText).filter (· ≠ []) := by
  have hTrim : Text.trim ∘ stepText = stepText := funext trim_stepText
  rw [visible, List.map_map, hTrim]

/-- All steps are read back, unless some of them are written as blank lines. -/
theorem parse_text_iff :
    parse (Text.encode s.text) s.width = .ok s ↔ ∀ step ∈ s.steps, step ≠ [] := by
  have hDecode : (Text.allLines (Text.encode s.text)).map Text.decode =
      (s.steps.map stepText).map some := by
    rw [allLines_text, List.map_map, List.map_map]
    exact List.map_congr_left fun step _ => Text.decode_encode (stepText step)
  rw [parse_eq_ok_iff]
  constructor
  · rintro ⟨-, lines, hLines, hSteps⟩ step hStep rfl
    obtain rfl := List.map_injective_iff.mpr (Option.some_injective _) (hDecode.symm.trans hLines)
    exact ne_nil_of_mem_visible (hSteps ▸ List.mem_map_of_mem hStep) rfl
  · intro h
    refine ⟨rfl, _, hDecode, ?_⟩
    rw [visible_map_stepText, eq_comm, List.filter_eq_self]
    refine List.forall_mem_map.mpr fun step hStep => decide_eq_true ?_
    exact mt List.map_eq_nil_iff.mp (h step hStep)

/-- A stimulus with inputs is read back from its text, and so is every stimulus that was read from
some text. -/
theorem text_round_trip (s : Stimulus) :
    (0 < s.width → parse (Text.encode s.text) s.width = .ok s) ∧
      ∀ bytes width, parse bytes width = .ok s → parse (Text.encode s.text) width = .ok s := by
  constructor
  · intro hWidth
    refine parse_text_iff.mpr fun step hStep => ?_
    rw [← List.length_pos_iff, s.width_eq step hStep]
    exact hWidth
  · intro bytes width h
    obtain ⟨rfl, lines, -, hSteps⟩ := parse_eq_ok_iff.mp h
    refine parse_text_iff.mpr fun step hStep => ?_
    rintro rfl
    exact ne_nil_of_mem_visible (hSteps ▸ List.mem_map_of_mem hStep) rfl

/-- Two steps between blank lines, with an ideographic space, a no-break space and a carriage
return around them and no line feed at the end. -/
def spacedText : List UInt8 :=
  Text.encode "\n\u3000\t01?\r\n \u2003\r\n\n??1\u00a0".toList

def spaced : Stimulus := ⟨3, [[.low, .high, .free], [.free, .free, .high]], by decide⟩

theorem spaced_round_trip :
    (0 < spaced.width ∧ parse (Text.encode spaced.text) spaced.width = .ok spaced) ∧
      parse spacedText 3 = .ok spaced ∧ spaced.text = "01?\n??1\n".toList ∧
      parse (Text.encode spaced.text) 3 = .ok spaced := by
  have hWidth : 0 < spaced.width := by decide
  have hRead : parse spacedText 3 = .ok spaced := by decide +kernel
  obtain ⟨hWritten, hAgain⟩ := text_round_trip spaced
  exact ⟨⟨hWidth, hWritten hWidth⟩, hRead, by decide, hAgain spacedText 3 hRead⟩

end Stimulus

end SoftError
