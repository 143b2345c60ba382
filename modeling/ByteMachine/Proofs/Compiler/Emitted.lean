import ByteMachine.Compiler.Generate
import ByteMachine.Proofs.Assembly.NormalLine

/-!
# The lines that code generation emits

Code generation writes few kinds of line: fourteen operations without an operand, four with a
byte operand, jumps on seven conditions to labels named `L` and a decimal number, and the
declarations of such labels. Each kind is a line in normal form that assembles to the opcode of
its operation followed by its operand, whatever the byte or the label's number.

For an operation with an operand this rests on two facts of the table, decided once for the
eleven such operations: the slot scan reaches the operation's own pattern for every operand
word, and no pattern of the table reads as the line exactly.

## Main statements

* `encodeLine_emitted`: an emitted instruction line assembles to its operation's opcode and its
  operand.
* `cleanLine_label`: an emitted label line declares its label.
-/

namespace ByteMachine.Compiler

open Assembly Text

/-- The name of the label numbered `k`. -/
def labelName (k : Nat) : String := "L" ++ toString k

theorem labelName_toList (k : Nat) : (labelName k).toList = 'L' :: Nat.toDigits 10 k := by
  simp [labelName, Nat.toList_repr]

theorem labelName_injective : Function.Injective labelName := by
  intro k k' h
  have hdigits : Nat.toDigits 10 k = Nat.toDigits 10 k' := by
    simpa [labelName_toList] using congrArg String.toList h
  have hk := digitsValue_toDigits k
  rw [hdigits, digitsValue_toDigits k', Option.some.injEq] at hk
  exact hk.symm

/-- The operations that code generation emits without an operand. -/
def plainOps : List Op :=
  ([.halt, .move .a .b, .compare .a (.constant 0), .compare .a (.register .b), .input .a,
    .output .a, .alu (.negate .a), .alu (.complement .a)] : List Op) ++
  [BinaryOp.add, .sub, .mul, .div, .bitAnd, .bitOr].map fun o => .alu (.binary o .a .b)

/-- The operations that code generation emits with a byte operand. -/
def byteOps : List Op := [.loadImmediate .a, .saveDirect .a, .loadDirect .a, .loadDirect .b]

/-- The conditions of the jumps that code generation emits. -/
def jumpConditions : List Condition :=
  [.always, .equal, .notEqual, .less, .lessEqual, .greater, .greaterEqual]

/-- The lines that code generation emits. -/
inductive Emitted : Line → Prop
  | plain {op : Op} (h : op ∈ plainOps) : Emitted (.instr op .none)
  | byte {op : Op} (h : op ∈ byteOps) (v : UInt8) : Emitted (.instr op (.byte v))
  | jump {c : Condition} (h : c ∈ jumpConditions) (k : Nat) :
      Emitted (.instr (.jump c) (.label (labelName k)))
  | label (k : Nat) : Emitted (.label (labelName k))

/-- The pieces that follow the opcode of an instruction line with the operand. -/
def Arg.pieces : Arg → List Piece
  | .none => []
  | .byte v => [.byte v]
  | .label name => [.label name]

/-! ## Operand words -/

/-- The operand words that code generation writes into a slot: decimal digits for a byte, and
`L` followed by decimal digits for a label. -/
def wordClass : Slot → List Char → Bool
  | .number, w => !w.isEmpty && w.all Char.isDigit
  | .label, 'L' :: ds => !ds.isEmpty && ds.all Char.isDigit
  | _, _ => false

theorem toLower_of_isDigit {c : Char} (h : c.isDigit = true) : c.toLower = c := by
  have h' := Char.isDigit_iff_toNat.1 h
  simp only [Char.reduceToNat] at h'
  have hupper : ¬ (c.val ≥ 'A'.val ∧ c.val ≤ 'Z'.val) := by
    rintro ⟨hA, -⟩
    have : 65 ≤ c.toNat := by simpa [UInt32.le_iff_toNat_le] using hA
    omega
  exact dif_neg hupper

/-- A run of decimal digits is read in radix 10, whatever its first digits. -/
theorem numeralParts_of_isDigit {w : List Char} (h : ∀ c ∈ w, c.isDigit = true) :
    numeralParts w = (10, w) := by
  unfold numeralParts
  split
  · rename_i p rest
    have hp : p.toLower = p := toLower_of_isDigit (h p (by simp))
    have hdigit := h p (by simp)
    rw [hp]
    -- a digit is none of the radix letters
    have hx : p ≠ 'x' := by rintro rfl; simp at hdigit
    have hb : p ≠ 'b' := by rintro rfl; simp at hdigit
    have ho : p ≠ 'o' := by rintro rfl; simp at hdigit
    simp [hx, hb, ho]
  · rfl

section Digits

variable (n : Nat)

theorem isDigit_of_mem_toDigits_ten {c : Char} (hc : c ∈ Nat.toDigits 10 n) : c.isDigit = true :=
  Nat.isDigit_of_mem_toDigits (by decide) (by decide) hc

theorem numeralValue_toDigits : numeralValue? (Nat.toDigits 10 n) = some n := by
  rw [numeralValue?, numeralParts_of_isDigit (fun _ hc => isDigit_of_mem_toDigits_ten n hc)]
  exact digitsValue_toDigits n

theorem slash_not_mem_toDigits : '/' ∉ Nat.toDigits 10 n := fun h => by
  simpa using isDigit_of_mem_toDigits_ten n h

theorem all_isDigit_toDigits : (Nat.toDigits 10 n).all Char.isDigit = true :=
  List.all_eq_true.2 fun _ hc => isDigit_of_mem_toDigits_ten n hc

theorem wordClass_number_toDigits : wordClass .number (Nat.toDigits 10 n) = true := by
  simp [wordClass, Nat.toDigits_ne_nil, all_isDigit_toDigits]

theorem wordClass_label_labelName : wordClass .label (labelName n).toList = true := by
  simp [wordClass, labelName_toList, Nat.toDigits_ne_nil, all_isDigit_toDigits]

theorem blankFree_labelName : BlankFree (labelName n).toList := by
  rw [labelName_toList]
  intro c hc
  rcases List.mem_cons.1 hc with rfl | hc
  · decide
  · exact blankFree_toDigits n c hc

theorem slash_not_mem_labelName : '/' ∉ (labelName n).toList := by
  rw [labelName_toList]
  simpa using slash_not_mem_toDigits n

/-- Digits between two blank-free texts without a slash make a word of a line in normal form. -/
theorem word_toDigits (pre suf : List Char) (hpre : BlankFree pre ∧ '/' ∉ pre)
    (hsuf : BlankFree suf ∧ '/' ∉ suf) :
    pre ++ Nat.toDigits 10 n ++ suf ≠ [] ∧ BlankFree (pre ++ Nat.toDigits 10 n ++ suf) ∧
      '/' ∉ pre ++ Nat.toDigits 10 n ++ suf := by
  refine ⟨by simp [Nat.toDigits_ne_nil], fun c hc => ?_, ?_⟩
  · simp only [List.mem_append] at hc
    rcases hc with (hc | hc) | hc
    · exact hpre.1 c hc
    · exact blankFree_toDigits n c hc
    · exact hsuf.1 c hc
  · simp [hpre.2, hsuf.2, slash_not_mem_toDigits]

theorem word_labelName :
    (labelName n).toList ≠ [] ∧ BlankFree (labelName n).toList ∧ '/' ∉ (labelName n).toList :=
  ⟨by simp [labelName_toList], blankFree_labelName n, slash_not_mem_labelName n⟩

end Digits

/-! ## The table -/

/-- The table facts behind the lines of an operation with a slot, `lead ++ w ++ trail` with an
operand word `w` of the slot's class: the slot scan reaches the operation's own pattern, and no
pattern reads as such a line exactly. -/
def slotFits (op : Op) : Bool :=
  ((takerOf op.template.lead.toList op.template.trail.toList slotPatterns).bind
      fun p => decode p.opcode) == some op &&
    noPatternAround op.template.lead.toList op.template.trail.toList (wordClass op.slot)

/-- Assembling the pattern of an operation without an operand gives the operation's opcode. -/
def plainFits (op : Op) : Bool :=
  match encodeLine 0 (cleanLine op.pattern.toList) with
  | .ok [.byte b] => decode b == some op
  | _ => false

/-- Every operation the generator emits fits the table. One kernel evaluation checks them all:
most of its cost is building the table's patterns, which the two kinds of operation share. -/
theorem emittedOps_fit :
    (∀ op ∈ byteOps ++ jumpConditions.map Op.jump, slotFits op = true) ∧
      ∀ op ∈ plainOps, plainFits op = true := by
  decide +kernel

theorem slotOps_fit : ∀ op ∈ byteOps ++ jumpConditions.map Op.jump, slotFits op = true :=
  emittedOps_fit.1

theorem plainOps_fit : ∀ op ∈ plainOps, plainFits op = true :=
  emittedOps_fit.2

/-- The condition word of every emitted conditional jump is a word the jump family accepts. -/
theorem jumpSymbols_fit : ∀ c ∈ jumpConditions, c ≠ .always →
    c.symbol.toList ≠ [] ∧ BlankFree c.symbol.toList ∧ '/' ∉ c.symbol.toList ∧
      (Condition.ofSymbol? c.symbol).isSome := by
  decide

/-! ## Assembling emitted lines -/

/-- A line of an operation with a slot, in normal form with an operand word of the slot's class,
is assembled through the operation's own pattern. -/
theorem encodeLine_slot {op : Op} (hfit : slotFits op = true) {w f : List Char}
    {ops : List (List Char)}
    (hline : op.template.lead.toList ++ w ++ op.template.trail.toList =
      [' '].intercalate (f :: ops))
    (hws : ∀ x ∈ f :: ops, x ≠ [] ∧ BlankFree x ∧ '/' ∉ x)
    (hacc : accepts (String.ofList f) (ops.map String.ofList) = some true)
    (hcls : wordClass op.slot w = true) (lineNo : Nat) :
    ∃ p : SlotPattern, decode p.opcode = some op ∧ p.slot = op.slot ∧ ∃ rest,
      encodeLine lineNo (cleanLine (op.template.lead.toList ++ w ++ op.template.trail.toList)) =
        fillSlot lineNo (String.ofList (op.template.lead.toList ++ w ++ op.template.trail.toList))
          (p.lead ++ w ++ p.trail) (p :: rest) := by
  simp only [slotFits, Bool.and_eq_true, beq_iff_eq] at hfit
  obtain ⟨htaker, hnone⟩ := hfit
  obtain ⟨p, hp, hdec⟩ := Option.bind_eq_some_iff.1 htaker
  -- the pattern reached is a pattern of the table, and its opcode decodes to `op`
  obtain ⟨i, hi, -, hopc, -, hpslot, -⟩ := mem_slotPatterns (takerOf_mem hp)
  have hiop : i.op = op := by
    rw [hopc, decode_opcode hi, Option.some.injEq] at hdec
    exact hdec
  have hws' : ∀ x ∈ f :: ops, x ≠ [] ∧ BlankFree x := fun x hx => ⟨(hws x hx).1, (hws x hx).2.1⟩
  have hexact := opcodeOf_around hnone hcls
  rw [hline] at hexact
  obtain ⟨hlead, htrail, rest, hscan⟩ := fillSlot_of_takerOf hp lineNo
    (String.ofList (op.template.lead.toList ++ w ++ op.template.trail.toList)) w
  refine ⟨p, hdec, hpslot.trans (hiop ▸ rfl), rest, ?_⟩
  rw [hline, cleanLine_intercalate hws (List.cons_ne_nil _ _),
    encodeLine_intercalate hws' hacc hexact, ← hline, hscan, hlead, htrail]

/-- A line of an operation with a number slot assembles to the operation's opcode and the byte,
when its words around the byte's digits are ones its family accepts. -/
theorem encodeLine_numberSlot {op : Op} {v : UInt8} {f : List Char} {ops : List (List Char)}
    (hfit : slotFits op = true) (hslot : op.slot = .number)
    (hline : op.template.lead.toList ++ Nat.toDigits 10 v.toNat ++ op.template.trail.toList =
      [' '].intercalate (f :: ops))
    (hws : ∀ x ∈ f :: ops, x ≠ [] ∧ BlankFree x ∧ '/' ∉ x)
    (hacc : accepts (String.ofList f) (ops.map String.ofList) = some true) (lineNo : Nat) :
    ∃ b, decode b = some op ∧
      encodeLine lineNo (cleanLine (Line.instr op (.byte v)).text.toList) =
        .ok [.byte b, .byte v] := by
  have hbyte := numeralValue_toDigits v.toNat
  have hword := word_toDigits v.toNat [] [] (by decide) (by decide)
  simp only [List.nil_append, List.append_nil] at hword
  have htext : (Line.instr op (.byte v)).text.toList =
      op.template.lead.toList ++ Nat.toDigits 10 v.toNat ++ op.template.trail.toList := by
    simp [Line.text, Nat.toList_repr]
  obtain ⟨p, hdec, hpslot, rest, henc⟩ := encodeLine_slot hfit hline hws hacc
    (by rw [hslot]; exact wordClass_number_toDigits v.toNat) lineNo
  refine ⟨p.opcode, hdec, ?_⟩
  rw [htext, henc, fillSlot_number (hpslot.trans hslot) hword.1 hword.2.1 hbyte v.toNat_lt]
  simp

/-- An emitted line of an operation with a byte operand assembles to the operation's opcode
and the byte. -/
theorem encodeLine_byteOp {op : Op} (hop : op ∈ byteOps) (v : UInt8) (lineNo : Nat) :
    ∃ b, decode b = some op ∧
      encodeLine lineNo (cleanLine (Line.instr op (.byte v)).text.toList) =
        .ok [.byte b, .byte v] := by
  have hfit := slotOps_fit op (List.mem_append_left _ hop)
  have hbyte := numeralValue_toDigits v.toNat
  have hword := word_toDigits v.toNat [] [] (by decide) (by decide)
  simp only [List.nil_append, List.append_nil] at hword
  have hram := word_toDigits v.toNat "ram[".toList "]".toList (by decide) (by decide)
  have hslot : op.slot = .number := by
    simp only [byteOps, List.mem_cons, List.not_mem_nil, or_false] at hop
    rcases hop with rfl | rfl | rfl | rfl <;> rfl
  -- the words of each byte line: its family, then the operands around the digits
  obtain ⟨f, ops, hline, hws, hacc⟩ : ∃ f ops,
      op.template.lead.toList ++ Nat.toDigits 10 v.toNat ++ op.template.trail.toList =
        [' '].intercalate (f :: ops) ∧ (∀ x ∈ f :: ops, x ≠ [] ∧ BlankFree x ∧ '/' ∉ x) ∧
        accepts (String.ofList f) (ops.map String.ofList) = some true := by
    simp only [byteOps, List.mem_cons, List.not_mem_nil, or_false] at hop
    rcases hop with rfl | rfl | rfl | rfl
    · refine ⟨"load".toList, ["rom".toList, "a".toList, Nat.toDigits 10 v.toNat], ?_, ?_, ?_⟩
      · simp [Op.template, Register.name, List.intercalate_cons_cons, toString]
      · intro x hx
        simp only [List.mem_cons, List.not_mem_nil, or_false] at hx
        rcases hx with rfl | rfl | rfl | rfl
        · decide
        · decide
        · decide
        · exact hword
      · simp [accepts, isRegister, isNumeral, Register.ofName?, hbyte]
    · refine ⟨"save".toList, ["a".toList, "ram[".toList ++ Nat.toDigits 10 v.toNat ++ "]".toList],
        ?_, ?_, ?_⟩
      · simp [Op.template, Register.name, List.intercalate_cons_cons, toString]
      · intro x hx
        simp only [List.mem_cons, List.not_mem_nil, or_false] at hx
        rcases hx with rfl | rfl | rfl
        · decide
        · decide
        · exact hram
      · simp [accepts, isRegister, isNumeral, Register.ofName?, isRamRegister, isRamNumber,
          ramInner?, hbyte]
    · refine ⟨"load".toList, ["ram[".toList ++ Nat.toDigits 10 v.toNat ++ "]".toList, "a".toList],
        ?_, ?_, ?_⟩
      · simp [Op.template, Register.name, List.intercalate_cons_cons]
      · intro x hx
        simp only [List.mem_cons, List.not_mem_nil, or_false] at hx
        rcases hx with rfl | rfl | rfl
        · decide
        · exact hram
        · decide
      · simp [accepts, isRegister, isNumeral, Register.ofName?, isRamRegister, isRamNumber,
          ramInner?, hbyte]
    · refine ⟨"load".toList, ["ram[".toList ++ Nat.toDigits 10 v.toNat ++ "]".toList, "b".toList],
        ?_, ?_, ?_⟩
      · simp [Op.template, Register.name, List.intercalate_cons_cons]
      · intro x hx
        simp only [List.mem_cons, List.not_mem_nil, or_false] at hx
        rcases hx with rfl | rfl | rfl
        · decide
        · exact hram
        · decide
      · simp [accepts, isRegister, isNumeral, Register.ofName?, isRamRegister, isRamNumber,
          ramInner?, hbyte]
  exact encodeLine_numberSlot hfit hslot hline hws hacc lineNo

/-- An emitted jump assembles to the opcode of its condition and a reference to its label. -/
theorem encodeLine_jumpOp {c : Condition} (hc : c ∈ jumpConditions) (k lineNo : Nat) :
    ∃ b, decode b = some (.jump c) ∧
      encodeLine lineNo (cleanLine (Line.instr (.jump c) (.label (labelName k))).text.toList) =
        .ok [.byte b, .label (labelName k)] := by
  have hfit := slotOps_fit (.jump c) (List.mem_append_right _ (List.mem_map_of_mem hc))
  have hword := word_labelName k
  have hname : labelName k ≠ "" := fun h => by
    simpa [labelName_toList] using congrArg String.toList h
  have hjslot : (Op.jump c).slot = .label := by
    cases c <;> rfl
  have htext : (Line.instr (.jump c) (.label (labelName k))).text.toList =
      (Op.jump c).template.lead.toList ++ (labelName k).toList ++
        (Op.jump c).template.trail.toList := by
    simp [Line.text]
  -- the words of a jump: the family, the condition word unless it is unconditional, the label
  obtain ⟨f, ops, hline, hws, hacc⟩ : ∃ f ops,
      (Op.jump c).template.lead.toList ++ (labelName k).toList ++
          (Op.jump c).template.trail.toList = [' '].intercalate (f :: ops) ∧
        (∀ x ∈ f :: ops, x ≠ [] ∧ BlankFree x ∧ '/' ∉ x) ∧
        accepts (String.ofList f) (ops.map String.ofList) = some true := by
    by_cases halways : c = .always
    · subst halways
      refine ⟨"jmp".toList, [(labelName k).toList], ?_, ?_, ?_⟩
      · simp [Op.template, List.intercalate_cons_cons]
      · intro x hx
        simp only [List.mem_cons, List.not_mem_nil, or_false] at hx
        rcases hx with rfl | rfl
        · decide
        · exact hword
      · simp [accepts, jumpAccepts, hname]
    · obtain ⟨hsym, hsymfree, hsymslash, hsymok⟩ := jumpSymbols_fit c hc halways
      refine ⟨"jmp".toList, [c.symbol.toList, (labelName k).toList], ?_, ?_, ?_⟩
      · simp [Op.template, List.intercalate_cons_cons, toString]
      · intro x hx
        simp only [List.mem_cons, List.not_mem_nil, or_false] at hx
        rcases hx with rfl | rfl | rfl
        · decide
        · exact ⟨hsym, hsymfree, hsymslash⟩
        · exact hword
      · simp [accepts, jumpAccepts, hname, hsymok]
  obtain ⟨p, hdec, hpslot, rest, henc⟩ := encodeLine_slot hfit hline hws hacc
    (by rw [hjslot]; exact wordClass_label_labelName k) lineNo
  refine ⟨p.opcode, hdec, ?_⟩
  rw [htext, henc, fillSlot_label (hpslot.trans hjslot) hword.1 hword.2.1, String.ofList_toList]

/-- An emitted instruction line assembles to its operation's opcode followed by its operand. -/
theorem encodeLine_emitted {op : Op} {arg : Arg} (h : Emitted (.instr op arg)) (lineNo : Nat) :
    ∃ b, decode b = some op ∧
      encodeLine lineNo (cleanLine (Line.instr op arg).text.toList) = .ok (.byte b :: arg.pieces) := by
  cases h with
  | plain hop =>
      have hfit := plainOps_fit op hop
      rw [plainFits] at hfit
      split at hfit
      · rename_i b henc
        exact ⟨b, by simpa using hfit, encodeLine_lineNo henc lineNo⟩
      · cases hfit
  | byte hop v => exact encodeLine_byteOp hop v lineNo
  | jump hc k => exact encodeLine_jumpOp hc k lineNo

/-- An emitted label line is the declaration of its label, which the first pass reads back. -/
theorem cleanLine_label (k : Nat) :
    cleanLine (Line.label (labelName k)).text.toList = ':' :: (labelName k).toList ∧
      trim (labelName k).toList = (labelName k).toList := by
  have hword := word_labelName k
  have hcolon : (Line.label (labelName k)).text.toList = [' '].intercalate
      [':' :: (labelName k).toList] := by
    simp [Line.text]
  refine ⟨?_, ?_⟩
  · rw [hcolon, cleanLine_intercalate _ (List.cons_ne_nil _ _)]
    · rw [List.intercalate_singleton]
    · intro x hx
      simp only [List.mem_cons, List.not_mem_nil, or_false] at hx
      subst hx
      refine ⟨List.cons_ne_nil _ _, fun c hc => ?_, ?_⟩
      · rcases List.mem_cons.1 hc with rfl | hc
        · decide
        · exact hword.2.1 c hc
      · simpa using hword.2.2
  · have hws : ∀ w ∈ [(labelName k).toList], w ≠ [] ∧ BlankFree w := by
      intro w hw
      rw [List.mem_singleton] at hw
      exact hw ▸ ⟨hword.1, hword.2.1⟩
    simpa using @trim_intercalate [(labelName k).toList] hws (List.cons_ne_nil _ _)

end ByteMachine.Compiler
