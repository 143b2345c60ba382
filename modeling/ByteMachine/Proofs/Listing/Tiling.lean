import ByteMachine.Proofs.Listing.Assembled
/-!
# A listing tiles its bytes

A listing reads any byte string from its start, one entry at a time. Each entry is either a
whole instruction, an assigned opcode whose operand bytes all lie in the string, shown as its
pattern with the operand filled in, or a single raw byte, shown as `.byte 0xNN`, for an
unassigned opcode or an instruction that would run past the end. Either way the next entry
starts right after it, so the entries cover the string exactly, in order, with no byte left out
and none read twice.

`Tiles` states this of a list of entries and the bytes they cover; `entriesFrom_tiles` shows that
the listing walk produces such a list, by one step lemma (`entriesFrom_cons`) for each entry.

## Main statements

* `entriesFrom_cons`: the first entry of a listing and where the rest of the walk resumes.
* `entriesFrom_tiles`: the entries of a listing tile the bytes listed.
* `entries_tile`: the entries' bytes concatenate to the input, each entry starts at the total
  length of those before it, and each is a whole instruction or a raw byte.
-/

namespace ByteMachine

/-- The text of an operand in a listing: a byte in decimal, and the two big-endian bytes of an
address as `0x` and four upper-case hexadecimal digits. -/
def Slot.operandText : Slot → List UInt8 → String
  | .number, [n] => toString n.toNat
  | .label, [hi, lo] => "0x" ++ Text.hexText 4 (hi.toNat * 256 + lo.toNat)
  | _, _ => ""

/-- A template with a text in the place of its slot's placeholder. -/
def Template.fill (t : Template) (operand : String) : String := t.lead ++ operand ++ t.trail

namespace Entry

/-- The entry lists a whole instruction that ends by `total`: its first byte decodes to an
operation, the rest are as many operand bytes as the operation's slot takes, and its text is the
operation's pattern with the operand filled in. -/
def ListsInstruction (total : Nat) (e : Entry) : Prop :=
  ∃ b operand op, e.bytes = b :: operand ∧ decode b = some op ∧
    operand.length = op.slot.size ∧ e.offset + op.length ≤ total ∧
    e.text = op.template.fill (op.slot.operandText operand)

/-- The entry lists one byte raw: an unassigned opcode, or one whose operand would run past
`total`. -/
def ListsRaw (total : Nat) (e : Entry) : Prop :=
  ∃ b, e = raw e.offset b ∧
    (decode b = none ∨ ∃ op, decode b = some op ∧ total < e.offset + op.length)

end Entry

/-- `Tiles o bs es`: the entries `es` cut `bs`, read from offset `o`, into consecutive pieces,
each starting where the pieces before it end, and each a whole instruction or a raw byte of the
region that ends at `o + bs.length`. -/
inductive Tiles : Nat → List UInt8 → List Entry → Prop
  | nil (o : Nat) : Tiles o [] []
  | cons {o : Nat} {e : Entry} {rest : List UInt8} {es : List Entry}
      (offset : e.offset = o)
      (kind : e.ListsInstruction (o + (e.bytes ++ rest).length) ∨
        e.ListsRaw (o + (e.bytes ++ rest).length))
      (tail : Tiles (o + e.bytes.length) rest es) :
      Tiles o (e.bytes ++ rest) (e :: es)

namespace Tiles

variable {o : Nat} {bs : List UInt8} {es : List Entry}

/-- The entries' bytes, read in order, are the bytes tiled. -/
theorem flatMap_bytes (h : Tiles o bs es) : es.flatMap Entry.bytes = bs := by
  induction h with
  | nil => rfl
  | cons _ _ _ ih => rw [List.flatMap_cons, ih]

/-- Each entry starts at the offset of the tiling plus the bytes of the entries before it. -/
theorem offset_eq (h : Tiles o bs es) (i : Nat) (hi : i < es.length) :
    es[i].offset = o + ((es.take i).flatMap Entry.bytes).length := by
  induction h generalizing i with
  | nil => simp at hi
  | @cons o e rest es hoff _ _ ih =>
      cases i with
      | zero => simp [hoff]
      | succ i =>
          have hi' : i < es.length := by simpa using hi
          simp only [List.getElem_cons_succ, ih i hi', List.take_succ_cons, List.flatMap_cons,
            List.length_append]
          omega

/-- Each entry is a whole instruction or a raw byte of the region tiled. -/
theorem kinds (h : Tiles o bs es) :
    ∀ e ∈ es, e.ListsInstruction (o + bs.length) ∨ e.ListsRaw (o + bs.length) := by
  induction h with
  | nil => simp
  | @cons o e rest es _ hkind _ ih =>
      intro e' he'
      rcases List.mem_cons.1 he' with rfl | he'
      · exact hkind
      · -- the rest of the region ends where the whole does
        have hend : o + e.bytes.length + rest.length = o + (e.bytes ++ rest).length := by
          rw [List.length_append, Nat.add_assoc]
        rw [← hend]
        exact ih e' he'

end Tiles

/-! ## The listing walk -/

/-- The first entry of a listing of `b :: rest` from offset `o`: it starts at `o`, covers at least
`b`, is a whole instruction or a raw byte, and the walk resumes after it. -/
theorem entriesFrom_cons (o : Nat) (b : UInt8) (rest : List UInt8) :
    ∃ e rest', entriesFrom o (b :: rest) = e :: entriesFrom (o + e.bytes.length) rest' ∧
      b :: rest = e.bytes ++ rest' ∧ e.bytes ≠ [] ∧ e.offset = o ∧
      (e.ListsInstruction (o + (b :: rest).length) ∨ e.ListsRaw (o + (b :: rest).length)) := by
  rw [entriesFrom]
  cases hd : decode b with
  | none =>
      exact ⟨Entry.raw o b, rest, rfl, rfl, by simp [Entry.raw], rfl,
        .inr ⟨b, rfl, .inl hd⟩⟩
  | some op =>
      dsimp only
      split
      · -- no operand: the opcode alone, its pattern as it stands
        rename_i rest _ hs
        refine ⟨⟨o, [b], op.pattern⟩, rest, rfl, rfl, by simp, rfl,
          .inl ⟨b, [], op, rfl, hd, by simp [hs, Slot.size], by simp [Op.length, hs, Slot.size],
            ?_⟩⟩
        have ht : op.template.slot = .none := hs
        simp [Op.pattern, Template.pattern, Template.fill, ht, hs, Slot.placeholder,
          Slot.operandText]
      · -- a byte operand, written in decimal
        rename_i _ n rest' hs
        exact ⟨_, rest', rfl, rfl, by simp, rfl, .inl ⟨b, [n], op, rfl, hd,
          by simp [hs, Slot.size], by simp [Op.length, hs, Slot.size],
          by simp [Template.fill, hs, Slot.operandText]⟩⟩
      · -- an address operand, written as four hexadecimal digits
        rename_i _ hi lo rest' hs
        exact ⟨_, rest', rfl, rfl, by simp, rfl, .inl ⟨b, [hi, lo], op, rfl, hd,
          by simp [hs, Slot.size], by simp [Op.length, hs, Slot.size],
          by simp [Template.fill, hs, Slot.operandText]⟩⟩
      · -- an operand that would run past the end: the opcode alone, raw
        rename_i rest _ hnone hnum hlabel
        refine ⟨Entry.raw o b, rest, rfl, rfl, by simp [Entry.raw], rfl,
          .inr ⟨b, rfl, .inr ⟨op, hd, ?_⟩⟩⟩
        simp only [Op.length, List.length_cons, Entry.raw]
        cases hs : op.slot with
        | none => exact absurd hs hnone
        | number =>
            rcases rest with _ | ⟨n, rest'⟩
            · simp [Slot.size]
            · exact absurd rfl (hnum n rest' hs)
        | label =>
            rcases rest with _ | ⟨hi, _ | ⟨lo, rest'⟩⟩
            · simp [Slot.size]
            · simp [Slot.size]
            · exact absurd rfl (hlabel hi lo rest' hs)

/-- The entries of a listing tile the bytes listed. -/
theorem entriesFrom_tiles (o : Nat) : (bs : List UInt8) → Tiles o bs (entriesFrom o bs)
  | [] => by
      rw [entriesFrom]
      exact .nil o
  | b :: rest => by
      obtain ⟨e, rest', he, hbs, hne, hoff, hkind⟩ := entriesFrom_cons o b rest
      have hlen : rest'.length < (b :: rest).length := by
        rw [hbs, List.length_append]
        have := List.length_pos_of_ne_nil hne
        omega
      rw [he, hbs]
      rw [hbs] at hkind
      exact .cons hoff hkind (entriesFrom_tiles (o + e.bytes.length) rest')
termination_by bs => bs.length
decreasing_by exact hlen

/-- A listing tiles any byte string. Its entries' bytes, read in order, are the string; each
entry starts at the total length of the entries before it; and each is either a whole
instruction, an assigned opcode with all the operand bytes its slot takes, shown as its pattern
with the operand filled in, or a single raw byte, shown as `.byte 0xNN`, for an unassigned
opcode or an instruction that would run past the end of the string. -/
theorem entries_tile (bytes : List UInt8) :
    (entries bytes).flatMap Entry.bytes = bytes ∧
    (∀ (i : Nat) (hi : i < (entries bytes).length),
      (entries bytes)[i].offset = (((entries bytes).take i).flatMap Entry.bytes).length) ∧
    ∀ e ∈ entries bytes, e.ListsInstruction bytes.length ∨ e.ListsRaw bytes.length := by
  have h : Tiles 0 bytes (entries bytes) := entriesFrom_tiles 0 bytes
  refine ⟨h.flatMap_bytes, fun i hi => ?_, fun e he => ?_⟩
  · simpa using h.offset_eq i hi
  · simpa using h.kinds e he

end ByteMachine
