import ByteMachine.Assembly.Program
import ByteMachine.Proofs.Assembly.Encode
import ByteMachine.Proofs.Except

/-!
# Where the first pass puts each line

The first pass assembles the instruction lines one after another: each starts at the number of
bytes assembled before it, and its pieces follow those of the earlier lines. Label lines and
blank lines add nothing. The second pass resolves the pieces one at a time, so the bytes of a
program are the resolved pieces of its lines in order.
-/

namespace ByteMachine

@[simp] theorem Piece.totalSize_nil : Piece.totalSize [] = 0 := rfl

@[simp] theorem Piece.totalSize_cons (p : Piece) (ps : List Piece) :
    Piece.totalSize (p :: ps) = p.size + Piece.totalSize ps := rfl

@[simp] theorem Piece.totalSize_append (ps qs : List Piece) :
    Piece.totalSize (ps ++ qs) = Piece.totalSize ps + Piece.totalSize qs := by
  induction ps with
  | nil => simp
  | cons p ps ih => simp [ih, Nat.add_assoc]

end ByteMachine

namespace ByteMachine.Assembly

/-- An instruction line as the first pass assembled it. -/
structure Placed where
  /-- The line's number, counting from 1 over all lines. -/
  lineNo : Nat
  /-- The number of bytes assembled before the line. -/
  offset : Nat
  /-- The line without its comment and its outer blanks. -/
  line : List Char
  pieces : List Piece

/-- The instruction lines from `lineNo` on, placed from `offset`, as far as they assemble. -/
def placedFrom (offset lineNo : Nat) : List String → List Placed
  | [] => []
  | raw :: rest =>
    match cleanLine raw.toList with
    | [] => placedFrom offset (lineNo + 1) rest
    | ':' :: _ => placedFrom offset (lineNo + 1) rest
    | line =>
      match encodeLine lineNo line with
      | .ok ps => ⟨lineNo, offset, line, ps⟩ :: placedFrom (offset + Piece.totalSize ps) (lineNo + 1) rest
      | .error _ => []

/-- The instruction lines of a program, placed from offset 0. -/
def placed (lines : List String) : List Placed := placedFrom 0 1 lines

/-! ## One line at a time

The first pass and the placement read a line the same way: it is blank, a label line, or an
instruction line that assembles or fails. One lemma for each kind of line says what each of them
does with it; the statements about whole runs below are inductions over these. Each pass is
unfolded once, by its equation on a nonempty list, and the case of an instruction line is split
once (`placedFrom_cons_line`, `passFrom_cons_line`); the other lemmas cite those. -/

/-- Each line is blank, a label line, or an instruction line that assembles or fails. -/
theorem line_kinds (lineNo : Nat) (raw : String) :
    (cleanLine raw.toList = [] ∨ ∃ name, cleanLine raw.toList = ':' :: name) ∨
      (∃ ps, encodeLine lineNo (cleanLine raw.toList) = .ok ps) ∨
      ((cleanLine raw.toList ≠ [] ∧ ∀ name, cleanLine raw.toList ≠ ':' :: name) ∧
        ∃ e, encodeLine lineNo (cleanLine raw.toList) = .error e) := by
  by_cases hskip : cleanLine raw.toList = [] ∨ ∃ name, cleanLine raw.toList = ':' :: name
  · exact .inl hskip
  · rw [not_or, not_exists] at hskip
    cases h : encodeLine lineNo (cleanLine raw.toList) with
    | ok ps => exact .inr (.inl ⟨ps, rfl⟩)
    | error e => exact .inr (.inr ⟨hskip, e, rfl⟩)

/-- A line that assembles is neither blank nor a label line. -/
theorem not_skip_of_encodeLine_ok {lineNo : Nat} {line : List Char} {ps : List Piece}
    (h : encodeLine lineNo line = .ok ps) : line ≠ [] ∧ ∀ name, line ≠ ':' :: name := by
  refine ⟨fun hnil => ?_, fun name hcolon => ?_⟩
  · rw [hnil, encodeLine_nil] at h
    cases h
  · rw [hcolon, encodeLine_colon] at h
    cases h

@[simp] theorem placedFrom_nil (offset lineNo : Nat) : placedFrom offset lineNo [] = [] := rfl

theorem placedFrom_cons (offset lineNo : Nat) (raw : String) (rest : List String) :
    placedFrom offset lineNo (raw :: rest) =
      match cleanLine raw.toList with
      | [] => placedFrom offset (lineNo + 1) rest
      | ':' :: _ => placedFrom offset (lineNo + 1) rest
      | line =>
        match encodeLine lineNo line with
        | .ok ps =>
          ⟨lineNo, offset, line, ps⟩ :: placedFrom (offset + Piece.totalSize ps) (lineNo + 1) rest
        | .error _ => [] := rfl

/-- A blank line or a label line places nothing. -/
theorem placedFrom_cons_skip {offset lineNo : Nat} {raw : String}
    (h : cleanLine raw.toList = [] ∨ ∃ name, cleanLine raw.toList = ':' :: name)
    (rest : List String) :
    placedFrom offset lineNo (raw :: rest) = placedFrom offset (lineNo + 1) rest := by
  rcases h with h | ⟨name, h⟩
  · rw [placedFrom_cons, h]
  · -- the label pattern is a character literal, which the rewrite does not reduce
    rw [placedFrom_cons, h]
    rfl

/-- Any other line is placed as far as it assembles. -/
theorem placedFrom_cons_line {offset lineNo : Nat} {raw : String}
    (hnil : cleanLine raw.toList ≠ []) (hlabel : ∀ name, cleanLine raw.toList ≠ ':' :: name)
    (rest : List String) :
    placedFrom offset lineNo (raw :: rest) =
      match encodeLine lineNo (cleanLine raw.toList) with
      | .ok ps => ⟨lineNo, offset, cleanLine raw.toList, ps⟩ ::
          placedFrom (offset + Piece.totalSize ps) (lineNo + 1) rest
      | .error _ => [] := by
  rw [placedFrom_cons]
  split
  · rename_i hclean
    exact absurd hclean hnil
  · rename_i name hclean
    exact absurd hclean (hlabel name)
  · rfl

/-- An instruction line that assembles is placed after the bytes before it. -/
theorem placedFrom_cons_instr {offset lineNo : Nat} {raw : String} {ps : List Piece}
    (h : encodeLine lineNo (cleanLine raw.toList) = .ok ps) (rest : List String) :
    placedFrom offset lineNo (raw :: rest) =
      ⟨lineNo, offset, cleanLine raw.toList, ps⟩ ::
        placedFrom (offset + Piece.totalSize ps) (lineNo + 1) rest := by
  obtain ⟨hnil, hlabel⟩ := not_skip_of_encodeLine_ok h
  rw [placedFrom_cons_line hnil hlabel, h]

/-- An instruction line that does not assemble ends the placed lines. -/
theorem placedFrom_cons_error {offset lineNo : Nat} {raw : String} {e : AsmError}
    (hnil : cleanLine raw.toList ≠ []) (hlabel : ∀ name, cleanLine raw.toList ≠ ':' :: name)
    (h : encodeLine lineNo (cleanLine raw.toList) = .error e) (rest : List String) :
    placedFrom offset lineNo (raw :: rest) = [] := by
  rw [placedFrom_cons_line hnil hlabel, h]

theorem passFrom_nil (labels : LabelTable) (offset : Nat) (done : Array Piece) (lineNo : Nat) :
    passFrom labels offset done lineNo [] = ⟨labels, .ok done.toList⟩ := rfl

theorem passFrom_cons (labels : LabelTable) (offset : Nat) (done : Array Piece) (lineNo : Nat)
    (raw : String) (rest : List String) :
    passFrom labels offset done lineNo (raw :: rest) =
      match cleanLine raw.toList with
      | [] => passFrom labels offset done (lineNo + 1) rest
      | ':' :: name =>
        let label := String.ofList (Text.trim name)
        if label.isEmpty then ⟨labels, .error (.invalidOperand lineNo ":")⟩
        else if labels.contains label then ⟨labels, .error (.duplicateLabel lineNo label)⟩
        else passFrom (labels.insert label offset) offset done (lineNo + 1) rest
      | line =>
        match encodeLine lineNo line with
        | .ok ps =>
          passFrom labels (offset + Piece.totalSize ps) (done ++ ps.toArray) (lineNo + 1) rest
        | .error e => ⟨labels, .error e⟩ := rfl

/-- A blank line adds nothing. -/
theorem passFrom_cons_blank {labels : LabelTable} {offset : Nat} {done : Array Piece}
    {lineNo : Nat} {raw : String} (h : cleanLine raw.toList = []) (rest : List String) :
    passFrom labels offset done lineNo (raw :: rest) =
      passFrom labels offset done (lineNo + 1) rest := by
  rw [passFrom_cons, h]

/-- A label line binds its trimmed name to the bytes assembled before it, unless the name is
empty or already bound: then the pass stops at the line. -/
theorem passFrom_cons_colon {labels : LabelTable} {offset : Nat} {done : Array Piece}
    {lineNo : Nat} {raw : String} {name : List Char} (h : cleanLine raw.toList = ':' :: name)
    (rest : List String) :
    passFrom labels offset done lineNo (raw :: rest) =
      if (String.ofList (Text.trim name)).isEmpty then ⟨labels, .error (.invalidOperand lineNo ":")⟩
      else if labels.contains (String.ofList (Text.trim name)) then
        ⟨labels, .error (.duplicateLabel lineNo (String.ofList (Text.trim name)))⟩
      else
        passFrom (labels.insert (String.ofList (Text.trim name)) offset) offset done (lineNo + 1)
          rest := by
  rw [passFrom_cons, h]
  rfl

/-- Any other line goes on after its pieces, or stops the pass with its error. -/
theorem passFrom_cons_line {labels : LabelTable} {offset : Nat} {done : Array Piece}
    {lineNo : Nat} {raw : String}
    (hnil : cleanLine raw.toList ≠ []) (hlabel : ∀ name, cleanLine raw.toList ≠ ':' :: name)
    (rest : List String) :
    passFrom labels offset done lineNo (raw :: rest) =
      match encodeLine lineNo (cleanLine raw.toList) with
      | .ok ps =>
        passFrom labels (offset + Piece.totalSize ps) (done ++ ps.toArray) (lineNo + 1) rest
      | .error e => ⟨labels, .error e⟩ := by
  rw [passFrom_cons]
  split
  · rename_i hclean
    exact absurd hclean hnil
  · rename_i name hclean
    exact absurd hclean (hlabel name)
  · rfl

/-- An instruction line that assembles is placed after the bytes before it. -/
theorem passFrom_cons_instr {labels : LabelTable} {offset : Nat} {done : Array Piece}
    {lineNo : Nat} {raw : String} {ps : List Piece}
    (h : encodeLine lineNo (cleanLine raw.toList) = .ok ps) (rest : List String) :
    passFrom labels offset done lineNo (raw :: rest) =
      passFrom labels (offset + Piece.totalSize ps) (done ++ ps.toArray) (lineNo + 1) rest := by
  obtain ⟨hnil, hlabel⟩ := not_skip_of_encodeLine_ok h
  rw [passFrom_cons_line hnil hlabel, h]

/-- An instruction line that does not assemble stops the pass with its error. -/
theorem passFrom_cons_error {labels : LabelTable} {offset : Nat} {done : Array Piece}
    {lineNo : Nat} {raw : String} {e : AsmError}
    (hnil : cleanLine raw.toList ≠ []) (hlabel : ∀ name, cleanLine raw.toList ≠ ':' :: name)
    (h : encodeLine lineNo (cleanLine raw.toList) = .error e) (rest : List String) :
    passFrom labels offset done lineNo (raw :: rest) = ⟨labels, .error e⟩ := by
  rw [passFrom_cons_line hnil hlabel, h]

/-! ## Whole runs -/

/-- Placed lines follow each other: each starts where the one before ends. -/
inductive Consecutive : Nat → List Placed → Prop
  | nil (offset : Nat) : Consecutive offset []
  | cons {offset : Nat} {p : Placed} {rest : List Placed} (hp : p.offset = offset)
      (hrest : Consecutive (offset + Piece.totalSize p.pieces) rest) :
      Consecutive offset (p :: rest)

theorem consecutive_placedFrom (offset lineNo : Nat) (lines : List String) :
    Consecutive offset (placedFrom offset lineNo lines) := by
  induction lines generalizing offset lineNo with
  | nil => exact .nil offset
  | cons raw rest ih =>
      rcases line_kinds lineNo raw with hskip | ⟨ps, hps⟩ | ⟨⟨hnil, hlabel⟩, e, he⟩
      · rw [placedFrom_cons_skip hskip]
        exact ih offset (lineNo + 1)
      · rw [placedFrom_cons_instr hps]
        exact .cons rfl (ih _ _)
      · rw [placedFrom_cons_error hnil hlabel he]
        exact .nil offset

/-- Every placed line is a line that assembles to its pieces. -/
theorem encodeLine_of_mem_placedFrom {offset lineNo : Nat} {lines : List String} {p : Placed}
    (hp : p ∈ placedFrom offset lineNo lines) : encodeLine p.lineNo p.line = .ok p.pieces := by
  induction lines generalizing offset lineNo with
  | nil => cases hp
  | cons raw rest ih =>
      rcases line_kinds lineNo raw with hskip | ⟨ps, hps⟩ | ⟨⟨hnil, hlabel⟩, e, he⟩
      · rw [placedFrom_cons_skip hskip] at hp
        exact ih hp
      · rw [placedFrom_cons_instr hps] at hp
        rcases List.mem_cons.1 hp with rfl | hmem
        · exact hps
        · exact ih hmem
      · rw [placedFrom_cons_error hnil hlabel he] at hp
        cases hp

/-- A placed line is a cleaned line of the program, neither blank nor a label. -/
theorem line_of_mem_placedFrom {offset lineNo : Nat} {lines : List String} {p : Placed}
    (hp : p ∈ placedFrom offset lineNo lines) :
    ∃ raw ∈ lines, cleanLine raw.toList = p.line ∧ p.line ≠ [] ∧ p.line.head? ≠ some ':' := by
  induction lines generalizing offset lineNo with
  | nil => cases hp
  | cons raw rest ih =>
      rcases line_kinds lineNo raw with hskip | ⟨ps, hps⟩ | ⟨⟨hnil, hlabel⟩, e, he⟩
      · rw [placedFrom_cons_skip hskip] at hp
        obtain ⟨r, hr, h⟩ := ih hp
        exact ⟨r, List.mem_cons_of_mem _ hr, h⟩
      · rw [placedFrom_cons_instr hps] at hp
        rcases List.mem_cons.1 hp with rfl | hmem
        · -- the line assembles, so it is neither blank nor a label
          refine ⟨raw, List.mem_cons_self, rfl, fun hnil => ?_, fun hhead => ?_⟩
          · rw [show cleanLine raw.toList = [] from hnil, encodeLine_nil] at hps
            cases hps
          · cases hl : cleanLine raw.toList with
            | nil =>
                rw [hl, encodeLine_nil] at hps
                cases hps
            | cons c cs =>
                have hc : c = ':' := by simpa [hl] using hhead
                rw [hl, hc, encodeLine_colon] at hps
                cases hps
        · obtain ⟨r, hr, h⟩ := ih hmem
          exact ⟨r, List.mem_cons_of_mem _ hr, h⟩
      · rw [placedFrom_cons_error hnil hlabel he] at hp
        cases hp

/-- A new label is bound to the number of bytes assembled before it. -/
theorem passFrom_cons_label {labels : LabelTable} {offset : Nat} {done : Array Piece}
    {lineNo : Nat} {raw : String} {name : List Char} (h : cleanLine raw.toList = ':' :: name)
    (hne : Text.trim name ≠ []) (hfresh : labels.contains (String.ofList (Text.trim name)) = false)
    (rest : List String) :
    passFrom labels offset done lineNo (raw :: rest) =
      passFrom (labels.insert (String.ofList (Text.trim name)) offset) offset done (lineNo + 1)
        rest := by
  have hempty : (String.ofList (Text.trim name)).isEmpty = false := by
    simpa [String.isEmpty_iff] using hne
  rw [passFrom_cons_colon h]
  simp only [hempty, hfresh, Bool.false_eq_true, ↓reduceIte]

/-- A label line that the pass gets through leaves the pieces to the pass over the later lines,
with the label bound. -/
theorem passFrom_cons_colon_ok {labels : LabelTable} {offset : Nat} {done : Array Piece}
    {lineNo : Nat} {raw : String} {name : List Char} {rest : List String} {ps : List Piece}
    (h : cleanLine raw.toList = ':' :: name)
    (hok : (passFrom labels offset done lineNo (raw :: rest)).result = .ok ps) :
    ∃ labels', (passFrom labels' offset done (lineNo + 1) rest).result = .ok ps := by
  rw [passFrom_cons_colon h] at hok
  split at hok
  · cases hok
  · split at hok
    · cases hok
    · exact ⟨_, hok⟩

/-- When the first pass succeeds, its pieces are those of the placed lines, in order. -/
theorem passFrom_pieces {labels : LabelTable} {offset : Nat} {done : Array Piece} {lineNo : Nat}
    {lines : List String} {ps : List Piece}
    (h : (passFrom labels offset done lineNo lines).result = .ok ps) :
    ps = done.toList ++ (placedFrom offset lineNo lines).flatMap Placed.pieces := by
  induction lines generalizing labels offset done lineNo with
  | nil =>
      rw [passFrom_nil] at h
      simp [(Except.ok.inj h).symm]
  | cons raw rest ih =>
      rcases line_kinds lineNo raw with hskip | ⟨qs, hqs⟩ | ⟨⟨hnil, hlabel⟩, e, he⟩
      · rw [placedFrom_cons_skip hskip]
        rcases hskip with hblank | ⟨name, hcolon⟩
        · rw [passFrom_cons_blank hblank] at h
          exact ih h
        · obtain ⟨labels', h'⟩ := passFrom_cons_colon_ok hcolon h
          exact ih h'
      · rw [passFrom_cons_instr hqs] at h
        rw [placedFrom_cons_instr hqs, List.flatMap_cons, ih h]
        simp
      · rw [passFrom_cons_error hnil hlabel he] at h
        cases h

/-! ## The second pass -/

@[simp] theorem resolveAfter_nil (labels : LabelTable) (done : Array UInt8) :
    resolveAfter labels done [] = .ok done.toList := rfl

@[simp] theorem resolveAfter_byte (labels : LabelTable) (done : Array UInt8) (b : UInt8)
    (rest : List Piece) :
    resolveAfter labels done (.byte b :: rest) = resolveAfter labels (done.push b) rest := rfl

theorem resolveAfter_label (labels : LabelTable) (done : Array UInt8) (name : String)
    (rest : List Piece) :
    resolveAfter labels done (.label name :: rest) =
      match labels[name]? with
      | none => .error (.undefinedLabel name)
      | some off =>
        if off ≤ 0xFFFF then
          resolveAfter labels ((done.push (off / 256).toUInt8).push (off % 256).toUInt8) rest
        else .error (.labelOutOfRange name off) := rfl

/-- The bytes of one piece: the byte itself, or the big-endian offset of its label, which must
be declared and fit in two bytes. -/
def resolvePiece (labels : LabelTable) : Piece → Except AsmError (List UInt8)
  | .byte b => .ok [b]
  | .label name =>
    match labels[name]? with
    | none => .error (.undefinedLabel name)
    | some off =>
      if off ≤ 0xFFFF then .ok [(off / 256).toUInt8, (off % 256).toUInt8]
      else .error (.labelOutOfRange name off)

/-- The second pass resolves the pieces one at a time, stopping at the first that fails. -/
theorem resolveAfter_eq_mapM (labels : LabelTable) (done : Array UInt8) (ps : List Piece) :
    resolveAfter labels done ps =
      (fun bss => done.toList ++ bss.flatten) <$> ps.mapM (resolvePiece labels) := by
  induction ps generalizing done with
  | nil => simp [pure_eq_ok]
  | cons p rest ih =>
      cases p with
      | byte b =>
          rw [resolveAfter_byte, ih]
          simp [resolvePiece]
      | label name =>
          rw [resolveAfter_label]
          cases h : labels[name]? with
          | none => simp [resolvePiece, h]
          | some off =>
              by_cases hoff : off ≤ 0xFFFF
              · simp [resolvePiece, h, hoff, ih]
              · simp [resolvePiece, h, hoff]

theorem resolve_eq_mapM (labels : LabelTable) (ps : List Piece) :
    resolve labels ps = (fun bss => bss.flatten) <$> ps.mapM (resolvePiece labels) := by
  simpa [resolve] using resolveAfter_eq_mapM labels #[] ps

/-- The second pass succeeds exactly when every label that the pieces refer to is declared at an
offset that fits in two bytes. -/
theorem resolveAfter_ok_iff (labels : LabelTable) (done : Array UInt8) (ps : List Piece) :
    (∃ bytes, resolveAfter labels done ps = .ok bytes) ↔
      ∀ n, Piece.label n ∈ ps → ∃ off, labels[n]? = some off ∧ off ≤ 0xFFFF := by
  induction ps generalizing done with
  | nil => simp
  | cons p rest ih =>
      cases p with
      | byte b => simp [ih]
      | label name =>
          rw [resolveAfter_label]
          cases h : labels[name]? with
          | none => simp [h]
          | some off =>
              by_cases hoff : off ≤ 0xFFFF
              · simp [h, hoff, ih]
              · simp [h, hoff]

/-- The error of the second pass names a label the pieces refer to: one that is not declared,
or one declared past the two-byte range. -/
theorem resolveAfter_eq_error {labels : LabelTable} {done : Array UInt8} {ps : List Piece}
    {e : AsmError} (h : resolveAfter labels done ps = .error e) :
    ∃ n, Piece.label n ∈ ps ∧ (labels[n]? = none ∧ e = .undefinedLabel n ∨
      ∃ off, labels[n]? = some off ∧ 0xFFFF < off ∧ e = .labelOutOfRange n off) := by
  induction ps generalizing done with
  | nil => cases h
  | cons p rest ih =>
      cases p with
      | byte b =>
          obtain ⟨n, hn, he⟩ := ih h
          exact ⟨n, List.mem_cons_of_mem _ hn, he⟩
      | label name =>
          rw [resolveAfter_label] at h
          cases hl : labels[name]? with
          | none =>
              rw [hl] at h
              exact ⟨name, List.mem_cons_self, .inl ⟨hl, (Except.error.inj h).symm⟩⟩
          | some off =>
              rw [hl] at h
              dsimp only at h
              split at h
              · obtain ⟨n, hn, he⟩ := ih h
                exact ⟨n, List.mem_cons_of_mem _ hn, he⟩
              · rename_i hoff
                exact ⟨name, List.mem_cons_self,
                  .inr ⟨off, hl, Nat.lt_of_not_le hoff, (Except.error.inj h).symm⟩⟩

/-- Pieces that end in a byte resolve to bytes that end in it. -/
theorem resolveAfter_getLast {labels : LabelTable} {done : Array UInt8} {ps : List Piece}
    {b : UInt8} {bytes : List UInt8} (h : resolveAfter labels done (ps ++ [.byte b]) = .ok bytes) :
    bytes.getLast? = some b := by
  induction ps generalizing done with
  | nil =>
      simp only [List.nil_append, resolveAfter_byte, resolveAfter_nil] at h
      cases h
      simp
  | cons p rest ih =>
      cases p with
      | byte c => exact ih h
      | label name =>
          rw [List.cons_append, resolveAfter_label] at h
          cases hl : labels[name]? with
          | none => rw [hl] at h; cases h
          | some off =>
              rw [hl] at h
              dsimp only at h
              split at h
              · exact ih h
              · cases h

end ByteMachine.Assembly
