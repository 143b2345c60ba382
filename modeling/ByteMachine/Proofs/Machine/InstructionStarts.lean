import ByteMachine.Proofs.Assembly.LabelTable
import ByteMachine.Proofs.Listing.Assembled
import ByteMachine.Proofs.Compiler.Placement
import ByteMachine.Proofs.Machine.Runs
import ByteMachine.Proofs.Machine.Compare

/-!
# Control stays on instruction starts

Load an assembled program into the machine and run it for any number of steps, halts included.
Before every step the program counter is the offset of an instruction line or lies in the zero
ROM after the program. The assembler gives each line as many bytes as the machine fetches for
its opcode, each label the offset of the line after it, and zero ROM runs as no-operations,
wrapping from 0xFFFF back to offset 0.

Two kinds of lines escape this. A relative jump (`jmpr`) may land anywhere in page 0. And a jump
whose target word is the placeholder `{label}` itself, such as `jmp {label}`, matches its
pattern's text exactly and assembles to the opcode alone; the machine then takes the next two
bytes of the program as the address, which may fall inside an instruction.

## Main statements

* `step_instructionStart`: one step keeps control at an instruction start.
* `control_stays_on_instruction_starts`: every run of a program without relative jumps whose
  lines spell no slot pattern.
* `placeholder_jump_enters_instruction`: a program with `jmp {label}` whose first step lands
  inside an instruction.
-/

namespace ByteMachine

open Assembly Text

/-! ## The first word of a relative jump -/

theorem mem_pieces_blankFree {cs w : List Char} (hw : w ∈ Text.pieces cs) : BlankFree w := by
  induction cs generalizing w with
  | nil =>
      simp only [Text.pieces, List.mem_singleton] at hw
      subst hw
      intro c hc
      cases hc
  | cons c rest ih =>
      rw [Text.pieces] at hw
      split at hw
      · simp only [List.mem_singleton] at hw
        subst hw
        intro d hd
        cases hd
      · rename_i v vs hrest
        have hv : ∀ u ∈ v :: vs, BlankFree u := fun u hu => ih (hrest ▸ hu)
        by_cases hc : Text.isBlank c = true
        · rw [if_pos hc] at hw
          rcases List.mem_cons.1 hw with rfl | hw
          · intro d hd
            cases hd
          · exact hv w hw
        · rw [if_neg hc] at hw
          rcases List.mem_cons.1 hw with rfl | hw
          · intro d hd
            rcases List.mem_cons.1 hd with rfl | hd
            · simpa using hc
            · exact hv v List.mem_cons_self d hd
          · exact hv w (List.mem_cons_of_mem _ hw)

/-- The words of a text are non-empty and hold no blank. -/
theorem mem_words {cs w : List Char} (hw : w ∈ Text.words cs) : w ≠ [] ∧ BlankFree w := by
  rw [Text.words, List.mem_filter] at hw
  exact ⟨by simpa [List.isEmpty_iff] using hw.2, mem_pieces_blankFree hw.1⟩

/-- Words joined by single spaces start with the word `f` when their text starts with `f` and a
space. -/
theorem head_of_intercalate_starts {ws : List (List Char)} {f : List Char}
    (hws : ∀ w ∈ ws, w ≠ [] ∧ BlankFree w) (hf : BlankFree f)
    (hpre : f ++ [' '] <+: [' '].intercalate ws) : ws.head? = some f := by
  -- the text before the first blank is the first word on both sides
  have hfirst : ∀ u t : List Char, BlankFree u →
      (u ++ ' ' :: t).takeWhile (fun c => !Text.isBlank c) = u := by
    intro u t hu
    rw [List.takeWhile_append_of_pos (by simpa [BlankFree] using hu)]
    simp [Text.isBlank]
  obtain ⟨t, ht⟩ := hpre
  rcases ws with _ | ⟨w, _ | ⟨w', rest⟩⟩
  · simp at ht
  · -- a single word holds no space
    have hw := (hws w List.mem_cons_self).2
    rw [List.intercalate_singleton] at ht
    exact absurd (hw ' ' (by rw [← ht]; simp)) (by decide)
  · rw [List.intercalate_cons_cons, List.append_assoc, List.append_assoc,
      List.singleton_append] at ht
    have := congrArg (List.takeWhile fun c => !Text.isBlank c) ht
    rw [List.singleton_append, hfirst f t hf, hfirst w _ (hws w List.mem_cons_self).2] at this
    simp [this]

theorem jumpRelative_lead_starts_jmpr (c : Condition) :
    "jmpr ".toList <+: (Op.jumpRelative c).template.lead.toList := by
  cases c <;> decide

theorem jumpRelative_pattern_starts_jmpr (c : Condition) :
    "jmpr ".toList <+: (Op.jumpRelative c).pattern.toList := by
  cases c <;> decide

/-- A line that assembles to a relative jump is a `jmpr` line: its first word is `jmpr`. -/
theorem words_head_of_jumpRelative {lineNo : Nat} {line : List Char} {ps : List Piece}
    {b : UInt8} {c : Condition} (henc : encodeLine lineNo line = .ok ps)
    (hb : ps.head? = some (.byte b)) (hdec : decode b = some (.jumpRelative c)) :
    (Text.words line).head? = some "jmpr".toList := by
  -- the line's normal form starts with `jmpr `, from the pattern it spells or the one it fills
  have hnorm : "jmpr ".toList <+: normalForm line := by
    rcases encodeLine_eq_ok henc with ⟨b', hb', rfl⟩ | ⟨_, hfill⟩
    · obtain ⟨i, hi, rfl, hpat⟩ := opcodeOf_eq_some hb'
      cases hb
      rw [decode_opcode hi, Option.some.injEq] at hdec
      have hstart := jumpRelative_pattern_starts_jmpr c
      rwa [← hdec, hpat, String.toList_ofList (l := normalForm line)] at hstart
    · obtain ⟨p, hp, mid, hline, -, -, hslot⟩ := fillSlot_eq_ok hfill
      obtain ⟨i, hi, -, hopc, hlead, -, -⟩ := mem_slotPatterns hp
      have hbp : b = p.opcode := by
        rcases hslot with ⟨-, rfl⟩ | ⟨-, v, -, -, rfl⟩ <;> simpa using hb.symm
      rw [hbp, hopc, decode_opcode hi, Option.some.injEq] at hdec
      rw [hline, List.append_assoc, hlead, hdec]
      exact (jumpRelative_lead_starts_jmpr c).trans (List.prefix_append _ _)
  exact head_of_intercalate_starts (fun w hw => mem_words hw) (by decide) hnorm

/-! ## The bytes of an assembled line -/

theorem Op.slot_jump (c : Condition) : (Op.jump c).slot = .label := by
  cases c <;> rfl

/-- An assembled line's pieces start with its opcode. -/
theorem encodeLine_head {lineNo : Nat} {line : List Char} {ps : List Piece}
    (h : encodeLine lineNo line = .ok ps) : ∃ b rest, ps = .byte b :: rest := by
  rcases encodeLine_eq_ok h with ⟨b, -, rfl⟩ | ⟨-, hfill⟩
  · exact ⟨b, [], rfl⟩
  · obtain ⟨p, -, mid, -, -, -, ⟨-, rfl⟩ | ⟨-, v, -, -, rfl⟩⟩ := fillSlot_eq_ok hfill
    · exact ⟨p.opcode, _, rfl⟩
    · exact ⟨p.opcode, _, rfl⟩

/-- The bytes of a line that assembles and spells no slot pattern: an opcode whose operation is
as long as the line, followed for a jump by the big-endian offset of a label of the table. -/
theorem resolved_line {lineNo : Nat} {line : List Char} {ps : List Piece} {labels : LabelTable}
    {bs : List UInt8} (henc : encodeLine lineNo line = .ok ps) (hspell : ¬ SpellsSlotPattern line)
    (hres : resolve labels ps = .ok bs) :
    ∃ b op more, ps.head? = some (.byte b) ∧ bs = b :: more ∧ decode b = some op ∧
      bs.length = op.length ∧
      ∀ c, op = .jump c → ∃ (name : String) (off : Nat), labels[name]? = some off ∧ off ≤ 0xFFFF ∧
        more = [(off / 256).toUInt8, (off % 256).toUInt8] := by
  rcases encodeLine_eq_ok henc with ⟨b, hb, rfl⟩ | ⟨_, hfill⟩
  · -- the words spell the pattern of an operation, which then has no slot
    obtain ⟨i, hi, rfl, hpat⟩ := opcodeOf_eq_some hb
    have hslot : i.op.slot = .none := by
      by_contra hne
      exact hspell ⟨i, hi, hne, by rw [hpat, String.toList_ofList]⟩
    have hbs : bs = [i.opcode] := by
      simp only [resolve_eq_mapM, List.mapM_cons, resolvePiece, List.mapM_nil, ok_bind] at hres
      exact (Except.ok.inj hres).symm
    refine ⟨i.opcode, i.op, [], rfl, hbs, decode_opcode hi,
      by simp [hbs, Op.length, hslot, Slot.size], fun c hc => ?_⟩
    rw [hc, Op.slot_jump] at hslot
    cases hslot
  · obtain ⟨p, hp, mid, -, -, -, hfill⟩ := fillSlot_eq_ok hfill
    obtain ⟨i, hi, -, hopc, -, hs, -⟩ := mem_slotPatterns hp
    have hdec : decode p.opcode = some i.op := hopc ▸ decode_opcode hi
    rcases hfill with ⟨hlabel, rfl⟩ | ⟨hnum, v, -, hlt, rfl⟩
    · -- a label operand: the big-endian offset of the label
      simp only [resolve_eq_mapM, List.mapM_cons, resolvePiece, List.mapM_nil, ok_bind] at hres
      cases hoff : labels[String.ofList mid]? with
      | none => simp [hoff] at hres
      | some off =>
          by_cases hle : off ≤ 0xFFFF
          · simp only [hoff, if_pos hle, ok_bind, pure_eq_ok, map_ok, Except.ok.injEq,
              List.flatten_cons, List.flatten_nil, List.append_nil, List.cons_append,
              List.nil_append] at hres
            subst hres
            exact ⟨p.opcode, i.op, _, rfl, rfl, hdec, by simp [Op.length, ← hs, hlabel, Slot.size],
              fun _ _ => ⟨_, off, hoff, hle, rfl⟩⟩
          · simp [hoff, hle] at hres
    · -- a numeral operand, which no jump takes
      simp only [resolve_eq_mapM, List.mapM_cons, resolvePiece, List.mapM_nil, ok_bind,
        pure_eq_ok, map_ok, Except.ok.injEq, List.flatten_cons, List.flatten_nil,
        List.append_nil, List.cons_append, List.nil_append] at hres
      subst hres
      refine ⟨p.opcode, i.op, _, rfl, rfl, hdec, by simp [Op.length, ← hs, hnum, Slot.size],
        fun c hc => ?_⟩
      rw [hc, Op.slot_jump, hnum] at hs
      cases hs

/-! ## Where a step leaves the program counter -/

namespace Machine

/-- The address a jump reads, high byte first. -/
theorem address_toNat (hi lo : UInt8) :
    (hi.toUInt16 * 256 + lo.toUInt16).toNat = hi.toNat * 256 + lo.toNat := by
  have := hi.toNat_lt
  have := lo.toNat_lt
  simp [UInt16.toNat_add, UInt16.toNat_mul]
  omega

/-- A jump fetches its two address bytes and goes to that address when its condition holds. -/
theorem exec_jump_pc (m : Machine) (c : Condition) :
    (m.exec (.jump c)).machine.pc.toNat =
      if c.holds m.flags then (m.romAt m.pc).toNat * 256 + (m.romAt (m.pc + 1)).toNat
      else (m.pc.toNat + 2) % 65536 := by
  by_cases h : c.holds m.flags
  · simp only [exec, fetch, h, if_true]
    exact address_toNat _ _
  · simp [exec, fetch, h, UInt16.toNat_add]

/-- After its opcode is fetched, an operation other than a relative jump moves the program counter
over its operand bytes, or, for a jump that is taken, to the address those bytes hold. -/
theorem exec_pc (m : Machine) (op : Op) (hrel : ∀ c, op ≠ .jumpRelative c) :
    (m.exec op).machine.pc.toNat = (m.pc.toNat + op.slot.size) % 65536 ∨
      ∃ c, op = .jump c ∧ (m.exec op).machine.pc.toNat =
        (m.romAt m.pc).toNat * 256 + (m.romAt (m.pc + 1)).toNat := by
  have hpc := m.pc.toNat_lt
  cases op
  case jump c =>
    rw [exec_jump_pc]
    split
    · exact .inr ⟨c, rfl, rfl⟩
    · exact .inl (by rw [Op.slot_jump]; rfl)
  case jumpRelative c => exact absurd rfl (hrel c)
  case compare r rhs =>
    left
    cases rhs <;> simp [exec, Op.slot, Op.template, Slot.size, Nat.mod_eq_of_lt hpc]
  all_goals
    left
    simp [exec, fetch, Op.slot, Op.template, Slot.size, UInt16.toNat_add, Nat.mod_eq_of_lt hpc]

/-- A step whose opcode decodes moves the program counter over the whole instruction, or, for a
jump that is taken, to the address after the opcode. -/
theorem step_pc {m : Machine} {op : Op} (hdec : decode (m.romAt m.pc) = some op)
    (hrel : ∀ c, op ≠ .jumpRelative c) :
    m.step.machine.pc.toNat = (m.pc.toNat + op.length) % 65536 ∨
      ∃ c, op = .jump c ∧ m.step.machine.pc.toNat =
        (m.romAt (m.pc + 1)).toNat * 256 + (m.romAt (m.pc + 1 + 1)).toNat := by
  rw [step_of_decode hdec]
  rcases exec_pc m.fetch.2 op hrel with h | ⟨c, hc, h⟩
  · left
    rw [h]
    simp only [fetch, Op.length, UInt16.toNat_add, UInt16.toNat_one]
    omega
  · exact .inr ⟨c, hc, by simpa [fetch, romAt] using h⟩

/-- The ROM loaded with a program reads the program, and zero past its end. -/
theorem romAt_romOf {m : Machine} {bytes : List UInt8} (hrom : m.rom = romOf bytes)
    (a : UInt16) : m.romAt a = bytes.getD a.toNat 0 := by
  simp [romAt, hrom, romOf, Vector.get]

/-- Steps never write the ROM, whatever they run into. -/
theorem iterate_step_rom (m : Machine) (n : Nat) :
    ((fun m : Machine => m.step.machine)^[n] m).rom = m.rom := by
  induction n with
  | zero => rfl
  | succ n ih => rw [Function.iterate_succ_apply', step_rom, ih]

end Machine

/-! ## An assembled program in ROM -/

/-- Lines placed one after another from `offset` and resolved line by line: the bytes of each line
follow those of the lines before it. -/
theorem resolved_at {labels : LabelTable} {offset : Nat} {xs : List Placed}
    {bss : List (List UInt8)} (hcons : Consecutive offset xs)
    (hres : List.Forall₂ (fun x b => resolve labels x.pieces = .ok b) xs bss) :
    ∀ x ∈ xs, ∃ bs pre post, resolve labels x.pieces = .ok bs ∧
      bss.flatten = pre ++ bs ++ post ∧ offset + pre.length = x.offset := by
  induction hres generalizing offset with
  | nil =>
      intro x hx
      cases hx
  | @cons y b ys bs' hy _ ih =>
      cases hcons with
      | cons hoff hnext =>
          intro x hx
          rcases List.mem_cons.1 hx with rfl | hx
          · exact ⟨b, [], bs'.flatten, hy, by simp, by simp [hoff]⟩
          · obtain ⟨bs, pre, post, hbs, hflat, hpos⟩ := ih hnext x hx
            refine ⟨bs, b ++ pre, post, hbs, by simp [hflat], ?_⟩
            rw [List.length_append, resolve_length hy]
            omega

/-- Where a placed line ends, the next line starts, or the placed lines end. -/
theorem Assembly.Consecutive.next {offset : Nat} {xs : List Placed} (h : Consecutive offset xs) :
    ∀ x ∈ xs, x.offset + Piece.totalSize x.pieces ∈ xs.map Placed.offset ∨
      x.offset + Piece.totalSize x.pieces =
        offset + Piece.totalSize (xs.flatMap Placed.pieces) := by
  induction h with
  | nil =>
      intro x hx
      cases hx
  | @cons offset p rest hp hrest ih =>
      intro x hx
      rcases List.mem_cons.1 hx with rfl | hx
      · cases hrest with
        | nil => exact .inr (by simp [hp])
        | cons hq _ => exact .inl (by simp [hp, hq])
      · rcases ih x hx with h | h
        · exact .inl (List.mem_cons_of_mem _ h)
        · right
          rw [h, List.flatMap_cons, Piece.totalSize_append, Nat.add_assoc]

section Program

variable {lines : List String} {bytes : List UInt8}

/-- What assembling a program gives: the table binds the labels the lines declare, the bytes are
as many as the instruction lines take, and each instruction line's resolved bytes lie at its
offset. -/
theorem assembled_layout (h : assemble lines = .ok bytes) :
    (∀ n off, (firstPass lines).labels[n]? = some off ↔ DeclaredAt 1 0 lines n off) ∧
      bytes.length = codeBytes 1 lines ∧
      ∀ x ∈ placed lines, ∃ bs pre post,
        resolve (firstPass lines).labels x.pieces = .ok bs ∧
          bytes = pre ++ bs ++ post ∧ pre.length = x.offset := by
  have hbind : (firstPass lines).result >>= resolve (firstPass lines).labels = .ok bytes := h
  obtain ⟨ps, hps, hres⟩ := bind_eq_ok.1 hbind
  have hpieces := passFrom_pieces hps
  rw [Array.toList_empty, List.nil_append] at hpieces
  subst hpieces
  refine ⟨firstPass_ok_table hps, resolve_length hres, ?_⟩
  obtain ⟨bss, hbss, rfl⟩ := resolve_flatMap hres
  intro x hx
  obtain ⟨bs, pre, post, hbs, hflat, hpos⟩ :=
    resolved_at (consecutive_placedFrom 0 1 lines) hbss x hx
  exact ⟨bs, pre, post, hbs, hflat, by simpa using hpos⟩

/-- Where control may stand in an assembled program: at the offset of an instruction line, or in
the zero ROM after the program. -/
def InstructionStart (lines : List String) (bytes : List UInt8) (pc : Nat) : Prop :=
  pc ∈ (placed lines).map Placed.offset ∨ bytes.length ≤ pc

/-- A program starts at an instruction start: its first instruction line, or its end when it has
none. -/
theorem instructionStart_zero (h : assemble lines = .ok bytes) : InstructionStart lines bytes 0 := by
  have hcons := consecutive_placedFrom 0 1 lines
  unfold InstructionStart
  cases hp : placed lines with
  | nil =>
      right
      have hnil : placedFrom 0 1 lines = [] := hp
      rw [(assembled_layout h).2.1, codeBytes, hnil]
      rfl
  | cons x xs =>
      left
      rw [show placedFrom 0 1 lines = x :: xs from hp] at hcons
      cases hcons with
      | cons hx _ => simp [hx]

/-- Every label of an assembled program is bound to an instruction start. -/
theorem label_instructionStart (h : assemble lines = .ok bytes) {name : String} {off : Nat}
    (hoff : (firstPass lines).labels[name]? = some off) : InstructionStart lines bytes off := by
  obtain ⟨htable, hsize, -⟩ := assembled_layout h
  obtain ⟨pre, raw, post, hsplit, -, rfl⟩ := (htable name off).1 hoff
  rw [Nat.zero_add]
  rcases codeBytes_prefix 0 1 pre (raw :: post) with hs | hs
  · left
    rw [hsplit]
    simpa [placed] using hs
  · right
    rw [hsize, hsplit, hs]

/-- The bytes after an instruction line start the next line, or end the program. -/
theorem next_instructionStart (h : assemble lines = .ok bytes) {x : Placed}
    (hx : x ∈ placed lines) : InstructionStart lines bytes (x.offset + Piece.totalSize x.pieces) := by
  rcases (consecutive_placedFrom 0 1 lines).next x hx with hn | hn
  · exact .inl hn
  · right
    rw [hn, (assembled_layout h).2.1, Nat.zero_add]
    rfl

/-- Counting on past the end of the ROM wraps to offset 0, itself an instruction start. -/
theorem instructionStart_wrap (h : assemble lines = .ok bytes) {k : Nat} (hk : k ≤ 65536)
    (hstart : InstructionStart lines bytes k) : InstructionStart lines bytes (k % 65536) := by
  rcases Nat.lt_or_ge k 65536 with hlt | hge
  · rwa [Nat.mod_eq_of_lt hlt]
  · rw [show k = 65536 by omega, Nat.mod_self]
    exact instructionStart_zero h

theorem getD_append_middle (pre bs post : List UInt8) {i : Nat} (hi : i < bs.length) :
    (pre ++ bs ++ post).getD (pre.length + i) 0 = bs.getD i 0 := by
  simp [List.getD_eq_getElem?_getD, List.getElem?_append_left, List.getElem?_append_right, hi]

/-- One step keeps control at an instruction start. At an instruction line the machine fetches
exactly the line's bytes and goes on to the next line or, for a jump, to a label; in the zero ROM
after the program it runs a no-operation; and either may wrap to offset 0. -/
theorem step_instructionStart (h : assemble lines = .ok bytes) (hlen : bytes.length ≤ romSize)
    (hrel : ∀ x ∈ placed lines, (Text.words x.line).head? ≠ some "jmpr".toList)
    (hslot : ∀ x ∈ placed lines, ¬ SpellsSlotPattern x.line)
    {m : Machine} (hrom : m.rom = Machine.romOf bytes)
    (hpc : InstructionStart lines bytes m.pc.toNat) :
    InstructionStart lines bytes m.step.machine.pc.toNat := by
  have hpc16 := m.pc.toNat_lt
  rcases hpc with hstart | hend
  · obtain ⟨x, hx, hxpc⟩ := List.mem_map.1 hstart
    obtain ⟨bs, pre, post, hres, hbytes, hpos⟩ := (assembled_layout h).2.2 x hx
    have henc := encodeLine_of_mem_placedFrom hx
    obtain ⟨b, op, more, hhead, rfl, hdec, hoplen, hjump⟩ := resolved_line henc (hslot x hx) hres
    have hfit : x.offset + op.length ≤ 65536 := by
      have := congrArg List.length hbytes
      simp only [List.length_append] at this
      simp only [romSize] at hlen
      omega
    -- the bytes from the program counter on are the line's
    have hread : ∀ (a : UInt16) (i : Nat), a.toNat = x.offset + i → i < op.length →
        m.romAt a = (b :: more).getD i 0 := by
      intro a i ha hi
      rw [Machine.romAt_romOf hrom, ha, ← hpos, hbytes]
      exact getD_append_middle pre (b :: more) post (by omega)
    have hb : m.romAt m.pc = b := hread m.pc 0 hxpc.symm (by rw [Op.length]; omega)
    have hnotrel : ∀ c, op ≠ .jumpRelative c := by
      rintro c rfl
      exact hrel x hx (words_head_of_jumpRelative henc hhead hdec)
    rcases Machine.step_pc (m := m) (by rw [hb]; exact hdec) hnotrel with
      hnext | ⟨c, rfl, htarget⟩
    · -- on to the next line, or to the end of the program
      rw [hnext, ← hxpc]
      apply instructionStart_wrap h hfit
      rw [← hoplen, resolve_length hres]
      exact next_instructionStart h hx
    · -- a jump that is taken lands on a label
      obtain ⟨name, off, hoff, hle, rfl⟩ := hjump c rfl
      have hlen3 : (Op.jump c).length = 3 := by simp [Op.length, Op.slot_jump, Slot.size]
      have hhi := hread (m.pc + 1) 1 (by simp [UInt16.toNat_add]; omega) (by omega)
      have hlo := hread (m.pc + 1 + 1) 2 (by simp [UInt16.toNat_add]; omega) (by omega)
      simp only [List.getD_cons_succ, List.getD_cons_zero] at hhi hlo
      rw [htarget, hhi, hlo, toNat_toUInt8_of_lt (by omega), toNat_toUInt8_of_lt (by omega),
        Nat.div_add_mod']
      exact label_instructionStart h hoff
  · -- the zero ROM after the program runs as no-operations
    have hzero : m.romAt m.pc = 0 := by
      simp [Machine.romAt_romOf hrom, List.getD_eq_getElem?_getD, List.getElem?_eq_none hend]
    have hnop : Op.nop.length = 1 := rfl
    have hdec : decode (m.romAt m.pc) = some .nop := by
      rw [hzero]
      decide
    rcases Machine.step_pc hdec (by simp) with
      hnext | ⟨c, hc, -⟩
    · rw [hnext, hnop]
      exact instructionStart_wrap h (by omega) (.inr (by omega))
    · cases hc

/-- Control never enters the middle of an instruction. Load an assembled program of at most
64 KiB, whose lines hold no relative jump and spell no slot pattern, into any machine and run it
for any number of steps, halts included: before every step the program counter is the offset of
an instruction line, or lies in the zero ROM after the program. -/
theorem control_stays_on_instruction_starts (h : assemble lines = .ok bytes)
    (hlen : bytes.length ≤ romSize)
    (hrel : ∀ x ∈ placed lines, (Text.words x.line).head? ≠ some "jmpr".toList)
    (hslot : ∀ x ∈ placed lines, ¬ SpellsSlotPattern x.line) (m : Machine) (n : Nat) :
    InstructionStart lines bytes
      ((fun m : Machine => m.step.machine)^[n] (m.load bytes)).pc.toNat := by
  -- the run keeps the program in ROM, and each step keeps control at a start
  induction n with
  | zero => exact instructionStart_zero h
  | succ n ih =>
      rw [Function.iterate_succ_apply']
      exact step_instructionStart h hlen hrel hslot (Machine.iterate_step_rom _ n) ih

/-- A loop that writes 7 forever stays on its two instructions. -/
theorem output_loop_stays_on_instruction_starts :
    assemble [":top", "out 7", "jmp top"] = .ok [0xF8, 7, 0x30, 0, 0] ∧
      InstructionStart [":top", "out 7", "jmp top"] [0xF8, 7, 0x30, 0, 0]
        ((fun m : Machine => m.step.machine)^[20] (({} : Machine).load [0xF8, 7, 0x30, 0, 0])).pc.toNat := by
  have h : assemble [":top", "out 7", "jmp top"] = .ok [0xF8, 7, 0x30, 0, 0] := by decide +kernel
  exact ⟨h, control_stays_on_instruction_starts h (by decide) (by decide +kernel)
    (by decide +kernel) {} 20⟩

end Program

/-- The line `jmp {label}` assembles to its opcode alone, so the jump takes the next two bytes of
the program for its address: here the opcode `0x04` of `mov b a` makes it offset 4, the operand of
`out 7`. -/
theorem placeholder_jump_enters_instruction :
    assemble [":\x7blabel\x7d", "jmp \x7blabel\x7d", "nop", "mov b a", "out 7", "halt"] =
        .ok [0x30, 0x00, 0x04, 0xF8, 0x07, 0xFF] ∧
      ¬ InstructionStart [":\x7blabel\x7d", "jmp \x7blabel\x7d", "nop", "mov b a", "out 7", "halt"]
        [0x30, 0x00, 0x04, 0xF8, 0x07, 0xFF]
        (({} : Machine).load [0x30, 0x00, 0x04, 0xF8, 0x07, 0xFF]).step.machine.pc.toNat := by
  have hstarts : (placed [":\x7blabel\x7d", "jmp \x7blabel\x7d", "nop", "mov b a", "out 7",
      "halt"]).map Placed.offset = [0, 1, 2, 3, 5] := by decide +kernel
  have hrom : (({} : Machine).load [0x30, 0x00, 0x04, 0xF8, 0x07, 0xFF]).rom =
      Machine.romOf [0x30, 0x00, 0x04, 0xF8, 0x07, 0xFF] := rfl
  -- the step runs the jump from the fetched state, whose ROM is the same
  have hfetched : (({} : Machine).load [0x30, 0x00, 0x04, 0xF8, 0x07, 0xFF]).fetch.2.rom =
      Machine.romOf [0x30, 0x00, 0x04, 0xF8, 0x07, 0xFF] := rfl
  have hpc : (({} : Machine).load [0x30, 0x00, 0x04, 0xF8, 0x07, 0xFF]).step.machine.pc.toNat = 4 := by
    have hdec : decode ((({} : Machine).load [0x30, 0x00, 0x04, 0xF8, 0x07, 0xFF]).romAt 0) =
        some (.jump .always) := by
      rw [Machine.romAt_romOf hrom]
      decide
    rw [Machine.step_of_decode hdec,
      Machine.exec_jump_pc, if_pos (show Condition.holds _ .always = true from rfl),
      Machine.romAt_romOf hfetched, Machine.romAt_romOf hfetched]
    rfl
  refine ⟨by decide +kernel, ?_⟩
  rw [hpc]
  rintro (h | h)
  · rw [hstarts] at h
    simp at h
  · simp at h

end ByteMachine
