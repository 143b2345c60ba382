import ByteMachine.Proofs.Compiler.Assemblable
/-!
# Where assembled code lies in the ROM

Generated lines, once assembled and loaded from address 0, lie in the ROM one after another:
each instruction line is an opcode of its operation followed by its operand, a byte or the two
big-endian bytes of the offset at which its label is declared, and each label line stands at the
number of bytes before it. `CodeAt` says this of a run of lines from an offset, against a map from
labels to offsets; it splits along appended code, so the code of each part of a program can be
read off the whole.

## Main statements

* `codeAt_append`: lines placed from an offset are their two parts, placed one after the other.
* `codeAt_assembled`: the code of a program, once assembled, lies in the ROM from address 0, with
  each label at the offset the first pass binds it to.
-/

namespace ByteMachine.Compiler

open Assembly Machine

/-- The number of bytes lines assemble to. -/
def codeSize (ls : List Line) : Nat := ls.foldr (fun l n => l.size + n) 0

@[simp] theorem codeSize_nil : codeSize [] = 0 := rfl

@[simp] theorem codeSize_cons (l : Line) (ls : List Line) :
    codeSize (l :: ls) = l.size + codeSize ls := rfl

@[simp] theorem codeSize_append (ls ls' : List Line) :
    codeSize (ls ++ ls') = codeSize ls + codeSize ls' := by
  induction ls with
  | nil => simp
  | cons l ls ih => simp [ih, Nat.add_assoc]

@[simp] theorem size_label (name : String) : (Line.label name).size = 0 := rfl

@[simp] theorem size_plain (op : Op) : (Line.plain op).size = 1 := rfl

@[simp] theorem size_byte (op : Op) (v : UInt8) : (Line.instr op (.byte v)).size = 2 := rfl

@[simp] theorem size_jumpTo (c : Condition) (name : String) : (jumpTo c name).size = 3 := rfl

@[simp] theorem size_loadConst (v : UInt8) : (loadConst v).size = 2 := rfl

@[simp] theorem size_storeA (addr : UInt8) : (storeA addr).size = 2 := rfl

@[simp] theorem size_loadFrom (addr : UInt8) (r : Register) : (loadFrom addr r).size = 2 := rfl

@[simp] theorem size_testA : testA.size = 1 := rfl

section Placed

variable (rom : Vector UInt8 romSize) (pos : String → Option Nat)

/-- The operand of an instruction, placed at `o`: nothing, a byte, or the two big-endian bytes of
the offset of a label. -/
def ArgAt (o : Nat) : Arg → Prop
  | .none => True
  | .byte v => rom[o]? = some v
  | .label name => ∃ t, pos name = some t ∧ t < romSize ∧
      rom[o]? = some (t / 256).toUInt8 ∧ rom[o + 1]? = some (t % 256).toUInt8

/-- An instruction placed at `o`: an opcode of its operation, then its operand. -/
def InstrAt (o : Nat) (op : Op) (arg : Arg) : Prop :=
  ∃ b, decode b = some op ∧ rom[o]? = some b ∧ ArgAt rom pos (o + 1) arg

/-- Lines placed from `o` on: each instruction after the bytes of the lines before it, and each
label declared at the offset where it stands. -/
def CodeAt : Nat → List Line → Prop
  | _, [] => True
  | o, .label name :: rest => pos name = some o ∧ CodeAt o rest
  | o, .instr op arg :: rest =>
    InstrAt rom pos o op arg ∧ CodeAt (o + (Line.instr op arg).size) rest

variable {rom pos}

@[simp] theorem codeAt_nil (o : Nat) : CodeAt rom pos o [] := trivial

@[simp] theorem codeAt_label_cons {o : Nat} {name : String} {rest : List Line} :
    CodeAt rom pos o (.label name :: rest) ↔ pos name = some o ∧ CodeAt rom pos o rest :=
  Iff.rfl

@[simp] theorem codeAt_instr_cons {o : Nat} {op : Op} {arg : Arg} {rest : List Line} :
    CodeAt rom pos o (.instr op arg :: rest) ↔
      InstrAt rom pos o op arg ∧ CodeAt rom pos (o + (Line.instr op arg).size) rest :=
  Iff.rfl

/-- Lines placed from an offset are their two parts, placed one after the other. -/
theorem codeAt_append {o : Nat} {ls ls' : List Line} :
    CodeAt rom pos o (ls ++ ls') ↔ CodeAt rom pos o ls ∧ CodeAt rom pos (o + codeSize ls) ls' := by
  induction ls generalizing o with
  | nil => simp
  | cons l ls ih =>
      cases l with
      | instr op arg => simp [ih, Nat.add_assoc, and_assoc]
      | label name => simp [ih, and_assoc]

end Placed

/-! ## The assembled program -/

/-- The second pass only appends to the bytes it has finished. -/
theorem resolveAfter_prefix {labels : LabelTable} {done : Array UInt8} {ps : List Piece}
    {bytes : List UInt8} (h : resolveAfter labels done ps = .ok bytes) : done.toList <+: bytes := by
  induction ps generalizing done with
  | nil =>
      cases h
      exact List.prefix_refl _
  | cons p rest ih =>
      cases p with
      | byte b => exact (List.prefix_append _ [b]).trans (by simpa using ih h)
      | label name =>
          rw [resolveAfter] at h
          split at h
          · cases h
          · split at h
            · refine (List.prefix_append _ _).trans (by simpa using ih h)
            · cases h

/-- The bytes of a ROM loaded with a program, inside the program. -/
theorem romOf_getElem? {program : List UInt8} (hlen : program.length ≤ romSize) {i : Nat}
    (hi : i < program.length) : (romOf program)[i]? = program[i]? := by
  rw [Vector.getElem?_eq_getElem (Nat.lt_of_lt_of_le hi hlen), List.getElem?_eq_getElem hi]
  simp [romOf, List.getElem?_eq_getElem hi]

/-- Bytes the second pass has finished after `done` lie in the ROM loaded with its result. -/
theorem romOf_of_resolved {done : Array UInt8} {bs bytes : List UInt8}
    (hpre : done.toList ++ bs <+: bytes) (hlen : bytes.length ≤ romSize) {i : Nat}
    (hi : i < bs.length) : (romOf bytes)[done.size + i]? = bs[i]? := by
  obtain ⟨rest, rfl⟩ := hpre
  rw [romOf_getElem? hlen (by simp; omega), List.append_assoc,
    List.getElem?_append_right (by simp), List.getElem?_append_left (by simpa using hi)]
  simp

/-- Lines whose pieces the second pass resolves after `o` finished bytes lie in the ROM from
`o` on, when the label table binds each of their labels, declared once, at its offset. -/
theorem codeAt_of_resolve {table : LabelTable} {ls : List Line} {pss : List (List Piece)}
    (hF : List.Forall₂ Line.Encodes ls pss) {bytes : List UInt8} (hlen : bytes.length ≤ romSize) :
    ∀ {o : Nat} {done : Array UInt8}, done.size = o →
      resolveAfter table done pss.flatten = .ok bytes → (declared ls).Nodup →
      (∀ n ∈ declared ls, table[n]? = (labelOffsets o ls).lookup n) →
      CodeAt (romOf bytes) (fun n => table[n]?) o ls := by
  induction hF with
  | nil => intros; trivial
  | @cons l ps ls pss hl _ ih =>
      intro o done hsize h hnd htable
      subst hsize
      cases l with
      | label name =>
          rw [Line.Encodes] at hl
          subst hl
          simp only [declared_cons, Line.declaredLabel_label, Option.toList_some,
            List.singleton_append, List.mem_cons, forall_eq_or_imp, List.nodup_cons] at htable hnd
          refine ⟨by simpa [labelOffsets] using htable.1, ih rfl h hnd.2 fun n hn => ?_⟩
          -- a label declared further on is another label
          have hne : (n == name) = false := beq_eq_false_iff_ne.2 fun h => hnd.1 (h ▸ hn)
          rw [htable.2 n hn, labelOffsets, List.lookup_cons, hne]
      | instr op arg =>
          obtain ⟨b, hb, rfl⟩ := hl
          simp only [declared_cons, Line.declaredLabel_instr, Option.toList_none,
            List.nil_append, labelOffsets] at htable hnd
          rw [List.flatten_cons, List.cons_append, resolveAfter] at h
          -- the opcode and the operand bytes are the first the second pass finishes here
          cases arg with
          | none =>
              rw [Arg.pieces, List.nil_append] at h
              have hpre : done.toList ++ [b] <+: bytes := by simpa using resolveAfter_prefix h
              have hop := romOf_of_resolved hpre hlen (i := 0) (by simp)
              exact ⟨⟨b, hb, by simpa using hop, trivial⟩, ih (by simp; rfl) h hnd htable⟩
          | byte v =>
              rw [Arg.pieces, List.cons_append, List.nil_append, resolveAfter] at h
              have hpre : done.toList ++ [b, v] <+: bytes := by simpa using resolveAfter_prefix h
              have hop := romOf_of_resolved hpre hlen (i := 0) (by simp)
              have hv := romOf_of_resolved hpre hlen (i := 1) (by simp)
              have hv' : (romOf bytes)[done.size + 1]? = some v := by simpa using hv
              exact ⟨⟨b, hb, by simpa using hop, hv'⟩, ih (by simp) h hnd htable⟩
          | label name =>
              rw [Arg.pieces, List.cons_append, List.nil_append, resolveAfter] at h
              cases ht : table[name]? with
              | none =>
                  rw [ht] at h
                  cases h
              | some t =>
                  rw [ht] at h
                  dsimp only at h
                  split at h
                  · rename_i hlt
                    have hpre : done.toList ++ [b, (t / 256).toUInt8, (t % 256).toUInt8] <+:
                        bytes := by simpa using resolveAfter_prefix h
                    have hop := romOf_of_resolved hpre hlen (i := 0) (by simp)
                    have hhi := romOf_of_resolved hpre hlen (i := 1) (by simp)
                    have hlo := romOf_of_resolved hpre hlen (i := 2) (by simp)
                    have hrange : t < romSize := Nat.lt_succ_of_le hlt
                    exact ⟨⟨b, hb, by simpa using hop, t, ht, hrange, by simpa using hhi,
                      by simpa [Nat.add_assoc] using hlo⟩, ih (by simp; rfl) h hnd htable⟩
                  · cases h

/-- The code of a program, once assembled, lies in the ROM from address 0, with each label at the
offset the first pass binds it to. -/
theorem codeAt_assembled {program : List Source.Stmt} {lines : List Line}
    (hgen : generate program = .ok lines) {bytes : List UInt8}
    (hasm : assemble (lines.map Line.text) = .ok bytes) (hlen : bytes.length ≤ romSize) :
    CodeAt (romOf bytes) (fun n => (firstPass (lines.map Line.text)).labels[n]?) 0 lines := by
  obtain ⟨body, n, hbody, rfl⟩ := generate_labelled hgen
  have hL : Labelled 0 n (body ++ [Line.plain .halt]) :=
    hbody.append (Labelled.plain (by decide) n)
  obtain ⟨pss, hF, hres, htable⟩ := firstPass_emitted hL.emitted hL.nodup
  have hsecond : assemble ((body ++ [Line.plain .halt]).map Line.text) =
      resolveAfter (firstPass ((body ++ [Line.plain .halt]).map Line.text)).labels #[]
        pss.flatten := by
    rw [assemble, hres]
    rfl
  exact codeAt_of_resolve hF hlen rfl (hsecond ▸ hasm) hL.nodup fun n _ => htable n

end ByteMachine.Compiler
