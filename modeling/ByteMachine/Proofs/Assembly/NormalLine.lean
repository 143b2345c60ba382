import ByteMachine.Assembly.Program
import ByteMachine.Proofs.Assembly.Encode

/-!
# Lines in normal form

A line in normal form is a list of non-empty blank-free words joined by single spaces, with no
comment in it. Cleaning leaves such a line as it is and its words are the ones it was built
from, so assembling it comes down to the family check and the table.

When the line carries an operand word `w` between a known lead and trail, the scan of the slot
patterns can be followed without knowing `w`: a pattern whose lead or trail parts ways with the
line's, or whose slot would take a text holding one of the lead's blanks, is passed over for
every `w`. The first pattern not passed over in this way is the one that takes the word.

## Main statements

* `cleanLine_intercalate`, `encodeLine_intercalate`: cleaning and assembling a line in normal
  form that spells no pattern exactly.
* `fillSlot_of_takerOf`: the slot scan reaches the pattern that `takerOf` names.
* `opcodeOf_around`: a line with an operand word spells no pattern of the table exactly.
-/

namespace ByteMachine.Assembly

open Text

/-! ## Cleaning and splitting -/

theorem beforeComment_of_not_mem {cs : List Char} (h : '/' ∉ cs) : beforeComment cs = cs := by
  induction cs with
  | nil => rfl
  | cons c rest ih =>
      have hc : c ≠ '/' := fun hc => h (hc ▸ List.mem_cons_self)
      rw [beforeComment.eq_2 c rest (fun _ h' _ => hc h'),
        ih fun hr => h (List.mem_cons_of_mem _ hr)]

/-- A text that starts with a character that is not blank loses nothing on the left. -/
theorem trimLeft_cons {c : Char} {cs : List Char} (hc : isBlank c = false) :
    trimLeft (c :: cs) = c :: cs := by
  simp [trimLeft, hc]

/-- What holds of the space and of every character of the words holds of their text. -/
theorem forall_mem_intercalate_space (P : Char → Prop) (hsp : P ' ') :
    ∀ {ws : List (List Char)}, (∀ w ∈ ws, ∀ c ∈ w, P c) →
      ∀ c ∈ [' '].intercalate ws, P c
  | [], _ => by simp
  | [w], hws => by simpa using hws w List.mem_cons_self
  | w :: w' :: rest, hws => by
      intro c hc
      rw [List.intercalate_cons_cons, List.mem_append, List.mem_append] at hc
      rcases hc with (hc | hc) | hc
      · exact hws w List.mem_cons_self c hc
      · simp only [List.mem_singleton] at hc
        exact hc ▸ hsp
      · exact forall_mem_intercalate_space P hsp (fun v hv => hws v (List.mem_cons_of_mem _ hv)) c hc

section Ends

variable {ws : List (List Char)}

theorem intercalate_space_eq_cons (hws : ∀ w ∈ ws, w ≠ [] ∧ BlankFree w) (hne : ws ≠ []) :
    ∃ c cs, [' '].intercalate ws = c :: cs ∧ isBlank c = false := by
  obtain ⟨w, rest, rfl⟩ := List.exists_cons_of_ne_nil hne
  obtain ⟨c, cs, rfl⟩ := List.exists_cons_of_ne_nil (hws w List.mem_cons_self).1
  refine ⟨c, cs ++ (if rest = [] then [] else ' ' :: [' '].intercalate rest), ?_, ?_⟩
  · cases rest with
    | nil => simp
    | cons w' rest' => simp [List.intercalate_cons_cons]
  · exact (hws _ List.mem_cons_self).2 c List.mem_cons_self

theorem intercalate_space_eq_concat (hws : ∀ w ∈ ws, w ≠ [] ∧ BlankFree w) (hne : ws ≠ []) :
    ∃ cs d, [' '].intercalate ws = cs ++ [d] ∧ isBlank d = false := by
  induction ws with
  | nil => exact absurd rfl hne
  | cons w rest ih =>
      cases rest with
      | nil =>
          have hw := hws w List.mem_cons_self
          refine ⟨w.dropLast, w.getLast hw.1, ?_, hw.2 _ (List.getLast_mem hw.1)⟩
          rw [List.intercalate_singleton, List.dropLast_append_getLast]
      | cons w' rest' =>
          obtain ⟨cs, d, hcs, hd⟩ :=
            ih (fun v hv => hws v (List.mem_cons_of_mem _ hv)) (List.cons_ne_nil _ _)
          refine ⟨w ++ [' '] ++ cs, d, ?_, hd⟩
          rw [List.intercalate_cons_cons, hcs]
          simp

/-- A line in normal form starts and ends with a character that is not blank, so trimming
leaves it as it is. -/
theorem trim_intercalate (hws : ∀ w ∈ ws, w ≠ [] ∧ BlankFree w) (hne : ws ≠ []) :
    trim ([' '].intercalate ws) = [' '].intercalate ws := by
  obtain ⟨c, cs, hcs, hc⟩ := intercalate_space_eq_cons hws hne
  obtain ⟨ds, d, hds, hd⟩ := intercalate_space_eq_concat hws hne
  rw [trim, hcs, trimLeft_cons hc, ← hcs, hds, List.reverse_append, List.reverse_singleton,
    List.singleton_append, trimLeft_cons hd]
  simp

/-- Cleaning leaves a line in normal form as it is. -/
theorem cleanLine_intercalate (hws : ∀ w ∈ ws, w ≠ [] ∧ BlankFree w ∧ '/' ∉ w) (hne : ws ≠ []) :
    cleanLine ([' '].intercalate ws) = [' '].intercalate ws := by
  have hslash : '/' ∉ [' '].intercalate ws := fun h =>
    forall_mem_intercalate_space (fun c => c ≠ '/') (by decide)
      (fun w hw c hc hcw => (hws w hw).2.2 (hcw ▸ hc)) '/' h rfl
  rw [cleanLine, beforeComment_of_not_mem hslash,
    trim_intercalate (fun w hw => ⟨(hws w hw).1, (hws w hw).2.1⟩) hne]

theorem normalForm_intercalate (hws : ∀ w ∈ ws, w ≠ [] ∧ BlankFree w) (hne : ws ≠ []) :
    normalForm ([' '].intercalate ws) = [' '].intercalate ws := by
  rw [normalForm, words_intercalate_space hws hne]

end Ends

/-- A line in normal form whose operands its family accepts, and which spells no pattern
exactly, is assembled by the slot scan. -/
theorem encodeLine_intercalate {lineNo : Nat} {f : List Char} {ops : List (List Char)}
    (hws : ∀ w ∈ f :: ops, w ≠ [] ∧ BlankFree w)
    (hacc : accepts (String.ofList f) (ops.map String.ofList) = some true)
    (hnone : opcodeOf (String.ofList ([' '].intercalate (f :: ops))) = none) :
    encodeLine lineNo ([' '].intercalate (f :: ops)) =
      fillSlot lineNo (String.ofList ([' '].intercalate (f :: ops)))
        ([' '].intercalate (f :: ops)) slotPatterns := by
  have hnorm := normalForm_intercalate hws (List.cons_ne_nil _ _)
  have htext : " ".intercalate ((words ([' '].intercalate (f :: ops))).map String.ofList) =
      String.ofList ([' '].intercalate (f :: ops)) := by
    rw [← String.ofList_toList (s := " ".intercalate _), normalForm_toList, hnorm]
  rw [encodeLine]
  simp only [htext, String.toList_ofList]
  rw [words_intercalate_space hws (List.cons_ne_nil _ _), List.map_cons]
  simp only [hacc, hnone]

/-- The line number only ever names a failure. -/
theorem fillSlot_lineNo {lineNo : Nat} {text : String} {line : List Char}
    {pats : List SlotPattern} {ps : List Piece} (h : fillSlot lineNo text line pats = .ok ps)
    (lineNo' : Nat) : fillSlot lineNo' text line pats = .ok ps := by
  induction pats with
  | nil => cases h
  | cons p rest ih =>
      rw [fillSlot] at h ⊢
      cases hb : between? p.lead p.trail line with
      | none => rw [hb] at h; exact ih h
      | some mid =>
          rw [hb] at h
          dsimp only at h ⊢
          by_cases hbad : (mid.isEmpty || mid.any isBlank) = true
          · rw [if_pos hbad] at h ⊢; exact ih h
          · rw [if_neg hbad] at h ⊢
            cases hs : p.slot with
            | none => rw [hs] at h; exact ih h
            | label => rw [hs] at h; exact h
            | number =>
                rw [hs] at h
                dsimp only at h ⊢
                cases hv : numeralValue? mid with
                | none => rw [hv] at h; exact ih h
                | some v =>
                    rw [hv] at h
                    dsimp only at h ⊢
                    by_cases hlt : v < 256
                    · rw [if_pos hlt] at h ⊢; exact h
                    · rw [if_neg hlt] at h; cases h

theorem encodeLine_lineNo {lineNo : Nat} {line : List Char} {ps : List Piece}
    (h : encodeLine lineNo line = .ok ps) (lineNo' : Nat) : encodeLine lineNo' line = .ok ps := by
  rw [encodeLine] at h ⊢
  cases hws : (words line).map String.ofList with
  | nil => rw [hws] at h; cases h
  | cons family ops =>
      rw [hws] at h
      dsimp only at h ⊢
      cases hacc : accepts family ops with
      | none => rw [hacc] at h; cases h
      | some ok =>
          cases ok with
          | false => rw [hacc] at h; cases h
          | true =>
              rw [hacc] at h
              dsimp only at h ⊢
              cases hb : opcodeOf (" ".intercalate (family :: ops)) with
              | some b => rw [hb] at h; exact h
              | none =>
                  rw [hb] at h
                  exact fillSlot_lineNo h lineNo'

/-! ## The slot scan -/

/-- Neither text is a prefix of the other. -/
def Diverge (a b : List Char) : Bool := !(a.isPrefixOf b || b.isPrefixOf a)

theorem diverge_eq_false {a b cs : List Char} (ha : a <+: cs) (hb : b <+: cs) :
    Diverge a b = false := by
  rcases List.prefix_or_prefix_of_prefix ha hb with h | h <;> simp [Diverge, h]

/-- The scan passes over `r` for every line `lead ++ w ++ trail`: the lead or the trail of `r`
parts ways with the line's, or its slot would take a text that holds a blank of the lead. -/
def passesOver (r : SlotPattern) (lead trail : List Char) : Bool :=
  Diverge r.lead lead || Diverge r.trail.reverse trail.reverse ||
    (r.lead.isPrefixOf lead && (lead.drop r.lead.length).any isBlank && r.trail.isSuffixOf trail)

section Scan

variable {r p : SlotPattern} {lead trail w : List Char} {lineNo : Nat} {text : String}

/-- What a pattern that the scan passes over would take holds a blank. -/
theorem any_isBlank_of_passesOver (h : passesOver r lead trail = true) {mid : List Char}
    (hmid : between? r.lead r.trail (lead ++ w ++ trail) = some mid) : mid.any isBlank = true := by
  have hline := between?_eq_some_iff.1 hmid
  have hlead : r.lead <+: lead ++ w ++ trail := ⟨mid ++ r.trail, by rw [hline]; simp⟩
  have htrail : r.trail <:+ lead ++ w ++ trail := ⟨r.lead ++ mid, by rw [hline]⟩
  simp only [passesOver, Bool.or_eq_true, Bool.and_eq_true, List.isPrefixOf_iff_prefix,
    List.isSuffixOf_iff_suffix] at h
  rcases h with (h | h) | ⟨⟨⟨rem, hrem⟩, hblank⟩, ⟨t0, ht0⟩⟩
  · -- the leads part ways, yet both start the line
    rw [diverge_eq_false hlead (by rw [List.append_assoc]; exact List.prefix_append _ _)] at h
    cases h
  · -- the trails part ways, yet both end the line
    rw [diverge_eq_false (List.reverse_prefix.2 htrail)
      (List.reverse_prefix.2 (List.suffix_append _ _))] at h
    cases h
  · -- the slot of `r` would take the rest of the lead, with its blank
    have hrest : rem = lead.drop r.lead.length := by simp [← hrem]
    subst ht0 hrem
    have hmid' : mid = rem ++ w ++ t0 := by
      have := hline
      simp only [List.append_assoc, List.append_cancel_left_eq] at this
      simpa [List.append_assoc] using (List.append_cancel_right (by simpa using this)).symm
    rw [← hrest] at hblank
    simp [hmid', hblank]

theorem fillSlot_cons_of_passesOver (h : passesOver r lead trail = true) (rest : List SlotPattern) :
    fillSlot lineNo text (lead ++ w ++ trail) (r :: rest) =
      fillSlot lineNo text (lead ++ w ++ trail) rest := by
  rw [fillSlot]
  cases hb : between? r.lead r.trail (lead ++ w ++ trail) with
  | none => rfl
  | some mid =>
      dsimp only
      rw [if_pos (by simp [any_isBlank_of_passesOver h hb])]

/-- The pattern that takes the operand word of every line `lead ++ w ++ trail`: the first with
that lead and trail, when the scan passes over every pattern before it. -/
def takerOf (lead trail : List Char) : List SlotPattern → Option SlotPattern
  | [] => none
  | r :: rest =>
    if r.lead = lead ∧ r.trail = trail then some r
    else if passesOver r lead trail then takerOf lead trail rest else none

theorem takerOf_mem {pats : List SlotPattern} (h : takerOf lead trail pats = some p) :
    p ∈ pats := by
  induction pats with
  | nil => cases h
  | cons r rest ih =>
      rw [takerOf] at h
      by_cases hr : r.lead = lead ∧ r.trail = trail
      · rw [if_pos hr, Option.some.injEq] at h
        exact h ▸ List.mem_cons_self
      · rw [if_neg hr] at h
        by_cases hpass : passesOver r lead trail = true
        · rw [if_pos hpass] at h
          exact List.mem_cons_of_mem _ (ih h)
        · rw [if_neg hpass] at h
          cases h

/-- The scan reaches the pattern that `takerOf` names, whatever the operand word. -/
theorem fillSlot_of_takerOf {pats : List SlotPattern} (h : takerOf lead trail pats = some p)
    (lineNo : Nat) (text : String) (w : List Char) :
    p.lead = lead ∧ p.trail = trail ∧ ∃ rest, fillSlot lineNo text (lead ++ w ++ trail) pats =
      fillSlot lineNo text (lead ++ w ++ trail) (p :: rest) := by
  induction pats with
  | nil => cases h
  | cons r rest ih =>
      rw [takerOf] at h
      by_cases hr : r.lead = lead ∧ r.trail = trail
      · rw [if_pos hr, Option.some.injEq] at h
        subst h
        exact ⟨hr.1, hr.2, rest, rfl⟩
      · rw [if_neg hr] at h
        by_cases hpass : passesOver r lead trail = true
        · rw [if_pos hpass] at h
          obtain ⟨hl, ht, rest', hrest'⟩ := ih h
          exact ⟨hl, ht, rest', (fillSlot_cons_of_passesOver hpass rest).trans hrest'⟩
        · rw [if_neg hpass] at h
          cases h

/-- The taking pattern reads a label operand as a reference to it. -/
theorem fillSlot_label (hslot : p.slot = .label) (hw : w ≠ []) (hfree : BlankFree w)
    (rest : List SlotPattern) :
    fillSlot lineNo text (p.lead ++ w ++ p.trail) (p :: rest) =
      .ok [.byte p.opcode, .label (String.ofList w)] := by
  have hfree' : (w.isEmpty || w.any isBlank) = false := by
    simp [hw, hfree.any_isBlank]
  rw [fillSlot, between?_eq_some_iff.2 rfl]
  simp only [hfree', hslot]
  rfl

/-- The taking pattern reads a numeral below 256 as the byte it stands for. -/
theorem fillSlot_number (hslot : p.slot = .number) (hw : w ≠ []) (hfree : BlankFree w) {v : Nat}
    (hv : numeralValue? w = some v) (hlt : v < 256) (rest : List SlotPattern) :
    fillSlot lineNo text (p.lead ++ w ++ p.trail) (p :: rest) =
      .ok [.byte p.opcode, .byte v.toUInt8] := by
  have hfree' : (w.isEmpty || w.any isBlank) = false := by
    simp [hw, hfree.any_isBlank]
  rw [fillSlot, between?_eq_some_iff.2 rfl]
  simp only [hfree', hslot, hv, if_pos hlt]
  rfl

end Scan

/-- No pattern of the table reads as `lead ++ w ++ trail` with a word `w` of the class `cls`. -/
def noPatternAround (lead trail : List Char) (cls : List Char → Bool) : Bool :=
  Isa.table.all fun j => (between? lead trail j.op.pattern.toList).all fun mid => !cls mid

/-- A line with an operand word of a class that no pattern has in that place spells no
pattern of the table exactly. -/
theorem opcodeOf_around {lead trail w : List Char} {cls : List Char → Bool}
    (h : noPatternAround lead trail cls = true) (hw : cls w = true) :
    opcodeOf (String.ofList (lead ++ w ++ trail)) = none := by
  cases hb : opcodeOf (String.ofList (lead ++ w ++ trail)) with
  | none => rfl
  | some b =>
      obtain ⟨j, hj, -, hpat⟩ := opcodeOf_eq_some hb
      have hall := List.all_eq_true.1 h j hj
      rw [hpat, String.toList_ofList, between?_eq_some_iff.2 rfl] at hall
      simp [hw] at hall

end ByteMachine.Assembly
