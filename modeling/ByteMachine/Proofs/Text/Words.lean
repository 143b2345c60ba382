import ByteMachine.Text.Blank
import ByteMachine.Text.Numeral

/-!
# Words and decimal numerals

Splitting at blanks is core's `List.splitOnP`, so words joined by single spaces split back into
the same words. The decimal digits of a number are no blanks, and every digit reader of the
assembler reads them back as that number.
-/

namespace ByteMachine.Text

theorem pieces_eq_splitOnP (cs : List Char) : pieces cs = cs.splitOnP isBlank := by
  induction cs with
  | nil => rfl
  | cons c rest ih =>
      obtain ⟨w, ws, h⟩ := List.exists_cons_of_ne_nil (List.splitOnP_ne_nil isBlank rest)
      rw [pieces, ih, h, List.splitOnP_cons_eq_if_modifyHead, h]
      by_cases hc : isBlank c <;> simp [hc]

theorem pieces_ne_nil (cs : List Char) : pieces cs ≠ [] := by
  rw [pieces_eq_splitOnP]
  exact List.splitOnP_ne_nil isBlank cs

/-- A text that starts with a character that is no blank starts its first word with it. -/
theorem words_cons_of_not_blank {c : Char} (hc : isBlank c = false) (cs : List Char) :
    ∃ w ws, words (c :: cs) = (c :: w) :: ws := by
  obtain ⟨w, ws, h⟩ := List.exists_cons_of_ne_nil (pieces_ne_nil cs)
  exact ⟨w, ws.filter (fun w => !w.isEmpty), by simp [words, pieces, h, hc]⟩

/-- A text is blank-free when none of its characters is blank. -/
def BlankFree (cs : List Char) : Prop := ∀ c ∈ cs, isBlank c = false

-- decided by one pass of a Boolean test, whichever instances for bounded quantifiers are in scope
instance : DecidablePred BlankFree := fun cs =>
  decidable_of_iff (cs.all fun c => !isBlank c) (by simp [BlankFree])

theorem BlankFree.any_isBlank {cs : List Char} (h : BlankFree cs) : cs.any isBlank = false :=
  List.any_eq_false.2 fun c hc => by simp [h c hc]

/-- Words joined by single spaces split back into the same words. -/
theorem splitOnP_intercalate_space {ws : List (List Char)} (hfree : ∀ w ∈ ws, BlankFree w)
    (hne : ws ≠ []) : ([' '].intercalate ws).splitOnP isBlank = ws := by
  induction ws with
  | nil => exact absurd rfl hne
  | cons w rest ih =>
      have hw : BlankFree w := hfree w List.mem_cons_self
      cases rest with
      | nil => simpa using List.splitOnP_eq_singleton hw
      | cons w' rest' =>
          have htail := ih (fun v hv => hfree v (List.mem_cons_of_mem _ hv)) (by simp)
          rw [List.intercalate_cons_cons, List.append_assoc, List.singleton_append,
            List.splitOnP_append_cons_of_forall_mem hw ' ' rfl, htail]

/-- Non-empty blank-free words joined by single spaces are the words of their text. -/
theorem words_intercalate_space {ws : List (List Char)}
    (hws : ∀ w ∈ ws, w ≠ [] ∧ BlankFree w) (hne : ws ≠ []) :
    words ([' '].intercalate ws) = ws := by
  rw [words, pieces_eq_splitOnP,
    splitOnP_intercalate_space (fun w hw => (hws w hw).2) hne]
  refine List.filter_eq_self.2 fun w hw => ?_
  simpa [List.isEmpty_iff] using (hws w hw).1

theorem char_le_iff (c d : Char) : c ≤ d ↔ c.toNat ≤ d.toNat := UInt32.le_iff_toNat_le

theorem isBlank_eq_false_of_isDigit {c : Char} (h : c.isDigit = true) : isBlank c = false := by
  have h' := Char.isDigit_iff_toNat.1 h
  simp only [Char.reduceToNat] at h'
  simp only [isBlank, Bool.or_eq_false_iff, Bool.and_eq_false_iff, decide_eq_false_iff_not,
    beq_eq_false_iff_ne, ne_eq]
  omega

/-- The decimal digits of a number contain no blank. -/
theorem blankFree_toDigits (n : Nat) : BlankFree (Nat.toDigits 10 n) := fun _ hc =>
  isBlank_eq_false_of_isDigit (Nat.isDigit_of_mem_toDigits (by decide) (by decide) hc)

/-- A decimal digit is a digit of radix 10, worth its distance from `0`. -/
theorem digitValue_ten_of_isDigit {c : Char} (h : c.isDigit = true) :
    digitValue 10 c = some (c.toNat - '0'.toNat) := by
  have h' := Char.isDigit_iff_toNat.1 h
  have hrange : '0' ≤ c ∧ c ≤ '9' := by simp only [char_le_iff]; exact h'
  simp only [Char.reduceToNat] at h'
  simp only [digitValue, if_pos hrange, Char.reduceToNat]
  rw [if_pos (by omega)]

/-- Reading decimal digits after `acc` is core's `Nat.ofDigitChars`. -/
theorem digitsValueFrom_ten {cs : List Char} (h : ∀ c ∈ cs, c.isDigit = true) (acc : Nat) :
    digitsValueFrom 10 acc cs = some (Nat.ofDigitChars 10 cs acc) := by
  induction cs generalizing acc with
  | nil => simp [digitsValueFrom, Nat.ofDigitChars_nil]
  | cons c rest ih =>
      have hc := h c List.mem_cons_self
      simp only [digitsValueFrom, digitValue_ten_of_isDigit hc]
      rw [ih (fun d hd => h d (List.mem_cons_of_mem _ hd)), Nat.ofDigitChars_cons, Nat.mul_comm]

/-- The decimal digits of a number read back as the number. -/
theorem digitsValue_toDigits (n : Nat) : digitsValue 10 (Nat.toDigits 10 n) = some n := by
  have hd : ∀ c ∈ Nat.toDigits 10 n, c.isDigit = true :=
    fun _ hc => Nat.isDigit_of_mem_toDigits (by decide) (by decide) hc
  rw [digitsValue, if_neg (by simp [List.isEmpty_iff, Nat.toDigits_ne_nil]),
    digitsValueFrom_ten hd, Nat.ofDigitChars_ten_toDigits]

end ByteMachine.Text
