import Mathlib.Data.List.Chain
import Mathlib.Data.List.Nodup
import ByteMachine.Assembly.Line
import ByteMachine.Proofs.Text.Words

/-!
# What assembling one line produces

A line that assembles gives either the opcode whose pattern its normalized text spells exactly,
or the opcode of a pattern with a slot, followed by what fills the slot: a label reference or
an immediate byte. The table assigns every opcode once, so each of these opcodes decodes back to
the operation whose template the text was matched against.

## Main statements

* `decode_opcode`: every opcode of the table decodes to its own operation.
* `fillSlot_eq_ok`: a filled slot is a non-empty, blank-free word between the lead and the
  trail of a slot pattern.
* `encodeLine_eq_ok`: the two ways a line assembles.
-/

namespace ByteMachine

/-- The table's opcodes rise strictly, so no byte is assigned twice. -/
theorem Isa.opcodes_rising : (Isa.table.map (·.opcode.toNat)).IsChain (· < ·) := by
  decide +kernel

theorem Isa.opcodes_nodup : (Isa.table.map (·.opcode)).Nodup := by
  have h := List.isChain_iff_pairwise.1 Isa.opcodes_rising
  have hnat : (Isa.table.map (·.opcode.toNat)).Nodup := h.imp (fun hlt => Nat.ne_of_lt hlt)
  exact List.Nodup.of_map UInt8.toNat (by rw [List.map_map]; exact hnat)

/-- Every opcode of the table decodes to its own operation. -/
theorem decode_opcode {i : Instruction} (hi : i ∈ Isa.table) : decode i.opcode = some i.op := by
  have hsome : (Isa.table.find? (·.opcode == i.opcode)).isSome := by
    rw [List.find?_isSome]
    exact ⟨i, hi, by simp⟩
  obtain ⟨j, hj⟩ := Option.isSome_iff_exists.1 hsome
  have hjmem := List.mem_of_find?_eq_some hj
  have hjop : j.opcode = i.opcode := by simpa using List.find?_some hj
  have hji : j = i := List.inj_on_of_nodup_map Isa.opcodes_nodup hjmem hi hjop
  simp [decode, hj, hji]

/-- A text that the table spells exactly is the pattern of the operation at its opcode. -/
theorem opcodeOf_eq_some {s : String} {b : UInt8} (h : opcodeOf s = some b) :
    ∃ i ∈ Isa.table, i.opcode = b ∧ i.op.pattern = s := by
  obtain ⟨⟨t, i⟩, hfind, rfl⟩ := Option.map_eq_some_iff.1 h
  have hmem := List.mem_of_find?_eq_some hfind
  have hts : t = s := by simpa using List.find?_some hfind
  obtain ⟨i', hi', hpair⟩ := List.mem_map.1 hmem
  simp only [Prod.mk.injEq] at hpair
  obtain ⟨hpat, rfl⟩ := hpair
  exact ⟨i', hi', rfl, hpat.trans hts⟩

namespace Assembly

open Text

theorem dropLead?_eq_some_iff {lead cs rest : List Char} :
    dropLead? lead cs = some rest ↔ cs = lead ++ rest := by
  induction lead generalizing cs with
  | nil => simp [dropLead?, eq_comm]
  | cons l ls ih =>
      cases cs with
      | nil => simp [dropLead?]
      | cons c cs =>
          by_cases hlc : l = c
          · subst hlc
            simp [dropLead?, ih]
          · simp [dropLead?, hlc, Ne.symm hlc]

/-- The text between a lead and a trail is what the two surround. -/
theorem between?_eq_some_iff {lead trail cs mid : List Char} :
    between? lead trail cs = some mid ↔ cs = lead ++ mid ++ trail := by
  simp only [between?, Option.bind_eq_some_iff, Option.map_eq_some_iff, dropLead?_eq_some_iff]
  constructor
  · rintro ⟨rest, rfl, m, hm, rfl⟩
    have : rest = m.reverse ++ trail := by
      simpa using congrArg List.reverse hm
    simp [this]
  · rintro rfl
    exact ⟨mid ++ trail, by simp, mid.reverse, by simp, by simp⟩

/-- The slot patterns are the templates of the table's operations that have a slot. -/
theorem mem_slotPatterns {p : SlotPattern} (hp : p ∈ slotPatterns) :
    ∃ i ∈ Isa.table, i.op.slot ≠ .none ∧ p.opcode = i.opcode ∧
      p.lead = i.op.template.lead.toList ∧ p.slot = i.op.slot ∧
      p.trail = i.op.template.trail.toList := by
  obtain ⟨i, hi, hp⟩ := List.mem_filterMap.1 hp
  by_cases hs : i.op.template.slot = .none
  · simp [hs] at hp
  · simp only [hs, if_false, Option.some.injEq] at hp
    subst hp
    exact ⟨i, hi, hs, rfl, rfl, rfl, rfl⟩

/-- The pieces of a slot filled with the word `mid`: a label reference, or the byte that a
numeral below 256 stands for. -/
def SlotFill (p : SlotPattern) (mid : List Char) (ps : List Piece) : Prop :=
  (p.slot = .label ∧ ps = [.byte p.opcode, .label (String.ofList mid)]) ∨
    (p.slot = .number ∧ ∃ v, numeralValue? mid = some v ∧ v < 256 ∧
      ps = [.byte p.opcode, .byte v.toUInt8])

/-- A filled slot is a non-empty, blank-free word between the lead and trail of one of the
patterns tried. -/
theorem fillSlot_eq_ok {lineNo : Nat} {text : String} {line : List Char}
    {pats : List SlotPattern} {ps : List Piece} (h : fillSlot lineNo text line pats = .ok ps) :
    ∃ p ∈ pats, ∃ mid, line = p.lead ++ mid ++ p.trail ∧ mid ≠ [] ∧ BlankFree mid ∧
      SlotFill p mid ps := by
  induction pats with
  | nil => simp [fillSlot] at h
  | cons p rest ih =>
      have next : fillSlot lineNo text line rest = .ok ps →
          ∃ q ∈ p :: rest, ∃ mid, line = q.lead ++ mid ++ q.trail ∧ mid ≠ [] ∧ BlankFree mid ∧
            SlotFill q mid ps := fun hr => by
        obtain ⟨q, hq, rest'⟩ := ih hr
        exact ⟨q, List.mem_cons_of_mem _ hq, rest'⟩
      rw [fillSlot] at h
      cases hb : between? p.lead p.trail line with
      | none => rw [hb] at h; exact next h
      | some mid =>
          rw [hb] at h
          dsimp only at h
          have hline := between?_eq_some_iff.1 hb
          by_cases hbad : (mid.isEmpty || mid.any isBlank) = true
          · rw [if_pos hbad] at h; exact next h
          · rw [if_neg hbad] at h
            simp only [Bool.or_eq_true, List.isEmpty_iff, List.any_eq_true, not_or,
              not_exists, not_and] at hbad
            have hfree : BlankFree mid := fun c hc => by simpa using hbad.2 c hc
            cases hs : p.slot with
            | none => simp only [hs] at h; exact next h
            | label =>
                simp only [hs] at h
                exact ⟨p, List.mem_cons_self, mid, hline, hbad.1, hfree,
                  .inl ⟨hs, (Except.ok.inj h).symm⟩⟩
            | number =>
                simp only [hs] at h
                cases hv : numeralValue? mid with
                | none => simp only [hv] at h; exact next h
                | some v =>
                    simp only [hv] at h
                    by_cases hlt : v < 256
                    · rw [if_pos hlt] at h
                      exact ⟨p, List.mem_cons_self, mid, hline, hbad.1, hfree,
                        .inr ⟨hs, v, hv, hlt, (Except.ok.inj h).symm⟩⟩
                    · rw [if_neg hlt] at h; cases h

/-- A line's words joined by single spaces. -/
def normalForm (line : List Char) : List Char := [' '].intercalate (words line)

theorem normalForm_toList (line : List Char) :
    (" ".intercalate ((words line).map String.ofList)).toList = normalForm line := by
  simp [normalForm, Function.comp_def]

/-- A line assembles either to the opcode of the pattern its words spell, or to a filled slot. -/
theorem encodeLine_eq_ok {lineNo : Nat} {line : List Char} {ps : List Piece}
    (h : encodeLine lineNo line = .ok ps) :
    (∃ b, opcodeOf (String.ofList (normalForm line)) = some b ∧ ps = [.byte b]) ∨
      (opcodeOf (String.ofList (normalForm line)) = none ∧
        fillSlot lineNo (String.ofList line) (normalForm line) slotPatterns = .ok ps) := by
  have hnorm : " ".intercalate ((words line).map String.ofList) = String.ofList (normalForm line) := by
    rw [← normalForm_toList, String.ofList_toList]
  rw [encodeLine] at h
  split at h
  · cases h
  · rename_i family ops hws
    split at h
    · cases h
    · cases h
    · simp only [hnorm] at h
      cases hb : opcodeOf (String.ofList (normalForm line)) with
      | some b =>
          rw [hb] at h
          exact .inl ⟨b, rfl, (Except.ok.inj h).symm⟩
      | none =>
          rw [hb, String.toList_ofList] at h
          exact .inr ⟨rfl, h⟩

theorem encodeLine_nil (lineNo : Nat) :
    encodeLine lineNo [] = .error (.unknownInstruction lineNo "") := rfl

/-- No family of instructions starts with a colon. -/
theorem accepts_colon (w : List Char) (ops : List String) :
    accepts (String.ofList (':' :: w)) ops = none := by
  unfold accepts
  split <;> first
    | rfl
    | (rename_i h; have h' := congrArg String.toList h; simp at h')

/-- A line that starts with a colon, as a label declaration does, is no instruction. -/
theorem encodeLine_colon (lineNo : Nat) (rest : List Char) :
    encodeLine lineNo (':' :: rest) =
      .error (.unknownInstruction lineNo (String.ofList (':' :: rest))) := by
  obtain ⟨w, ws, hw⟩ := words_cons_of_not_blank (c := ':') (by decide) rest
  simp only [encodeLine, hw, List.map_cons, accepts_colon]

end Assembly

end ByteMachine
