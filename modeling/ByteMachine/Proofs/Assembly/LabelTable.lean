import ByteMachine.Proofs.Assembly.Layout

/-!
# The label table of the first pass

The first pass starts from an empty label table on every call and reads the lines in order. A
label line binds its name to the number of bytes assembled so far. The pass stops at the first
line it cannot take: an empty label, a label declared before, or an instruction line that does
not assemble; its error names that line. So the table it leaves holds exactly the labels
declared on the lines before the failing line (on all lines when none fails), each bound to the
encoded size of the instruction lines above it, and a name declared twice fails at its second
declaration with the first binding in place.

## Main statements

* `passFrom_getsThrough`: every run of the pass gets through a prefix of its lines, as
  `GetsThrough` describes.
* `firstPass_label_table`: the table that the first pass leaves, on success and on failure.
-/

namespace ByteMachine

/-- The line that an error of the first pass names; the errors of the second pass name none. -/
def AsmError.line? : AsmError → Option Nat
  | .unknownInstruction n _ | .invalidOperand n _ | .duplicateLabel n _ | .numberRange n _ =>
    some n
  | .undefinedLabel _ | .labelOutOfRange _ _ => none

namespace Assembly

/-- The label a line declares: the trimmed text after its colon, when that is not empty. -/
def declaredName? (raw : String) : Option String :=
  match cleanLine raw.toList with
  | ':' :: name => if Text.trim name = [] then none else some (String.ofList (Text.trim name))
  | _ => none

/-- The encoded size of the instruction lines of `lines`, numbered from `lineNo`, as far as they
assemble: a byte counts one and a label reference two. -/
def codeBytes (lineNo : Nat) (lines : List String) : Nat :=
  Piece.totalSize ((placedFrom 0 lineNo lines).flatMap Placed.pieces)

/-- A line of `lines`, numbered from `lineNo`, declares `n` after instruction lines whose
encoded size is `off - base`. -/
def DeclaredAt (lineNo base : Nat) (lines : List String) (n : String) (off : Nat) : Prop :=
  ∃ pre raw post, lines = pre ++ raw :: post ∧ declaredName? raw = some n ∧
    off = base + codeBytes lineNo pre

/-! ## Errors name their line -/

theorem fillSlot_error_line {lineNo : Nat} {text : String} {line : List Char}
    {pats : List SlotPattern} {e : AsmError} (h : fillSlot lineNo text line pats = .error e) :
    e.line? = some lineNo := by
  induction pats with
  | nil => cases h; rfl
  | cons p rest ih =>
      rw [fillSlot] at h
      cases hb : between? p.lead p.trail line with
      | none => rw [hb] at h; exact ih h
      | some mid =>
          rw [hb] at h
          dsimp only at h
          by_cases hbad : (mid.isEmpty || mid.any Text.isBlank) = true
          · rw [if_pos hbad] at h; exact ih h
          · rw [if_neg hbad] at h
            cases hs : p.slot with
            | none => rw [hs] at h; exact ih h
            | label => rw [hs] at h; cases h
            | number =>
                rw [hs] at h
                dsimp only at h
                cases hv : numeralValue? mid with
                | none => rw [hv] at h; exact ih h
                | some v =>
                    rw [hv] at h
                    dsimp only at h
                    by_cases hlt : v < 256
                    · rw [if_pos hlt] at h; cases h
                    · rw [if_neg hlt] at h; cases h; rfl

/-- An instruction line that does not assemble fails with an error that names it. -/
theorem encodeLine_error_line {lineNo : Nat} {line : List Char} {e : AsmError}
    (h : encodeLine lineNo line = .error e) : e.line? = some lineNo := by
  rw [encodeLine] at h
  split at h
  · cases h; rfl
  · split at h
    · cases h; rfl
    · cases h; rfl
    · dsimp only at h
      split at h
      · cases h
      · exact fillSlot_error_line h

/-! ## Instruction lines and their bytes -/

/-- Where the lines are placed does not change their pieces. -/
theorem placedFrom_pieces (offset offset' lineNo : Nat) (lines : List String) :
    (placedFrom offset lineNo lines).flatMap Placed.pieces =
      (placedFrom offset' lineNo lines).flatMap Placed.pieces := by
  induction lines generalizing offset offset' lineNo with
  | nil => rfl
  | cons raw rest ih =>
      rcases line_kinds lineNo raw with hskip | ⟨ps, hps⟩ | ⟨⟨hnil, hlabel⟩, e, he⟩
      · rw [placedFrom_cons_skip hskip, placedFrom_cons_skip hskip]
        exact ih _ _ _
      · rw [placedFrom_cons_instr hps, placedFrom_cons_instr hps, List.flatMap_cons,
          List.flatMap_cons, ih _ (offset' + _)]
      · rw [placedFrom_cons_error hnil hlabel he, placedFrom_cons_error hnil hlabel he]

@[simp] theorem codeBytes_nil (lineNo : Nat) : codeBytes lineNo [] = 0 := rfl

theorem codeBytes_cons_skip {lineNo : Nat} {raw : String}
    (h : cleanLine raw.toList = [] ∨ ∃ name, cleanLine raw.toList = ':' :: name)
    (rest : List String) : codeBytes lineNo (raw :: rest) = codeBytes (lineNo + 1) rest := by
  rw [codeBytes, placedFrom_cons_skip h, codeBytes]

theorem codeBytes_cons_instr {lineNo : Nat} {raw : String} {ps : List Piece}
    (h : encodeLine lineNo (cleanLine raw.toList) = .ok ps) (rest : List String) :
    codeBytes lineNo (raw :: rest) = Piece.totalSize ps + codeBytes (lineNo + 1) rest := by
  rw [codeBytes, placedFrom_cons_instr h, List.flatMap_cons, Piece.totalSize_append, codeBytes,
    placedFrom_pieces _ 0]

/-- The bytes before some lines start the first instruction line after them, or no instruction
line is placed after them. -/
theorem codeBytes_prefix (offset lineNo : Nat) (pre suf : List String) :
    offset + codeBytes lineNo pre ∈ (placedFrom offset lineNo (pre ++ suf)).map Placed.offset ∨
      codeBytes lineNo pre = codeBytes lineNo (pre ++ suf) := by
  induction pre generalizing offset lineNo with
  | nil =>
      rw [List.nil_append, codeBytes_nil, Nat.add_zero]
      cases h : placedFrom offset lineNo suf with
      | nil =>
          right
          have hpieces := placedFrom_pieces offset 0 lineNo suf
          rw [h] at hpieces
          rw [codeBytes, ← hpieces]
          rfl
      | cons x xs =>
          left
          have hcons := consecutive_placedFrom offset lineNo suf
          rw [h] at hcons
          cases hcons with
          | cons hx _ => exact List.mem_map.2 ⟨x, List.mem_cons_self, hx⟩
  | cons raw pre ih =>
      rcases line_kinds lineNo raw with hskip | ⟨ps, hps⟩ | ⟨⟨hnil, hlabel⟩, e, he⟩
      · rw [List.cons_append, placedFrom_cons_skip hskip, codeBytes_cons_skip hskip,
          codeBytes_cons_skip hskip]
        exact ih offset (lineNo + 1)
      · rw [List.cons_append, placedFrom_cons_instr hps, codeBytes_cons_instr hps,
          codeBytes_cons_instr hps, List.map_cons, List.mem_cons, ← Nat.add_assoc,
          Nat.add_left_cancel_iff]
        exact (ih (offset + Piece.totalSize ps) (lineNo + 1)).imp_left .inr
      · right
        rw [List.cons_append, codeBytes, codeBytes, placedFrom_cons_error hnil hlabel he,
          placedFrom_cons_error hnil hlabel he]

/-! ## Declarations -/

theorem declaredName?_of_clean_nil {raw : String} (h : cleanLine raw.toList = []) :
    declaredName? raw = none := by
  delta declaredName?
  rw [h]

theorem declaredName?_of_clean_label {raw : String} {name : List Char}
    (h : cleanLine raw.toList = ':' :: name) :
    declaredName? raw = if Text.trim name = [] then none else
      some (String.ofList (Text.trim name)) := by
  delta declaredName?
  rw [h]
  rfl

theorem declaredName?_of_encodeLine {lineNo : Nat} {raw : String} {ps : List Piece}
    (h : encodeLine lineNo (cleanLine raw.toList) = .ok ps) : declaredName? raw = none := by
  delta declaredName?
  split
  · rename_i name hcolon
    rw [hcolon, encodeLine_colon] at h
    cases h
  · rfl

/-- A declaration in a run of lines is the first line's, or one further on, after the bytes of
the first line. -/
theorem declaredAt_cons {lineNo base s : Nat} {raw : String} {rest : List String}
    (hs : ∀ pre, codeBytes lineNo (raw :: pre) = s + codeBytes (lineNo + 1) pre)
    {n : String} {off : Nat} :
    DeclaredAt lineNo base (raw :: rest) n off ↔
      (declaredName? raw = some n ∧ off = base) ∨ DeclaredAt (lineNo + 1) (base + s) rest n off := by
  constructor
  · rintro ⟨pre, x, post, hsplit, hx, rfl⟩
    cases pre with
    | nil =>
        obtain ⟨rfl, rfl⟩ := List.cons.inj hsplit
        exact .inl ⟨hx, by simp⟩
    | cons y pre =>
        obtain ⟨rfl, rfl⟩ := List.cons.inj hsplit
        exact .inr ⟨pre, x, post, rfl, hx, by rw [hs]; omega⟩
  · rintro (⟨hx, rfl⟩ | ⟨pre, x, post, rfl, hx, rfl⟩)
    · exact ⟨[], raw, rest, rfl, hx, by simp⟩
    · exact ⟨raw :: pre, x, post, rfl, hx, by rw [hs]; omega⟩

theorem not_declaredAt_nil {lineNo base : Nat} {n : String} {off : Nat} :
    ¬ DeclaredAt lineNo base [] n off := by
  rintro ⟨pre, raw, post, h, -⟩
  simp at h

/-! ## What a run of the pass gets through -/

/-- The pass from the table `labels`, after `offset` bytes and at line `lineNo`, gets through the
lines `done` and stops before `rest`. The labels declared in `done` are new and distinct, and
the table that the pass leaves adds exactly these, each at the bytes before it. The pass either
took every line or failed at the first line of `rest`, naming it, as a duplicate when that line
declares a label the table holds. -/
structure GetsThrough (labels : LabelTable) (offset lineNo : Nat) (pass : FirstPass)
    (done rest : List String) : Prop where
  fresh : ∀ n ∈ done.filterMap declaredName?, labels[n]? = none
  once : (done.filterMap declaredName?).Nodup
  table : ∀ n off, pass.labels[n]? = some off ↔
    labels[n]? = some off ∨ DeclaredAt lineNo offset done n off
  stop : (rest = [] ∧ ∃ ps, pass.result = .ok ps) ∨
    ∃ raw rest' e, rest = raw :: rest' ∧ pass.result = .error e ∧
      e.line? = some (lineNo + done.length) ∧
      ∀ n, declaredName? raw = some n → n ∈ pass.labels →
        e = .duplicateLabel (lineNo + done.length) n

namespace GetsThrough

variable {labels : LabelTable} {offset lineNo : Nat} {pass : FirstPass} {done rest : List String}
  {raw : String}

/-- The pass fails at its first line. -/
theorem fail {e : AsmError} (he : e.line? = some lineNo)
    (hdup : ∀ n, declaredName? raw = some n → n ∈ labels → e = .duplicateLabel lineNo n) :
    GetsThrough labels offset lineNo ⟨labels, .error e⟩ [] (raw :: rest) where
  fresh := by simp
  once := by simp
  table _ _ := by simp [not_declaredAt_nil]
  stop := .inr ⟨raw, rest, e, rfl, rfl, by simpa using he, by simpa using hdup⟩

theorem stop_cons (h : GetsThrough labels offset (lineNo + 1) pass done rest) :
    (rest = [] ∧ ∃ ps, pass.result = .ok ps) ∨
      ∃ raw' rest' e, rest = raw' :: rest' ∧ pass.result = .error e ∧
        e.line? = some (lineNo + (raw :: done).length) ∧
        ∀ n, declaredName? raw' = some n → n ∈ pass.labels →
          e = .duplicateLabel (lineNo + (raw :: done).length) n := by
  have hlen : lineNo + (raw :: done).length = lineNo + 1 + done.length := by
    rw [List.length_cons]
    omega
  rw [hlen]
  exact h.stop

/-- A line that declares nothing, of `s` bytes, passes. -/
theorem cons_skip {s : Nat} (hname : declaredName? raw = none)
    (hs : ∀ pre, codeBytes lineNo (raw :: pre) = s + codeBytes (lineNo + 1) pre)
    (h : GetsThrough labels (offset + s) (lineNo + 1) pass done rest) :
    GetsThrough labels offset lineNo pass (raw :: done) rest where
  fresh := by simpa [List.filterMap_cons, hname] using h.fresh
  once := by simpa [List.filterMap_cons, hname] using h.once
  table n off := by simp [h.table, declaredAt_cons hs, hname]
  stop := h.stop_cons

/-- A line that declares a new label passes, and the rest of the lines see the label bound. -/
theorem cons_declare {l : String} (hname : declaredName? raw = some l) (hnew : labels[l]? = none)
    (hs : ∀ pre, codeBytes lineNo (raw :: pre) = codeBytes (lineNo + 1) pre)
    (h : GetsThrough (labels.insert l offset) offset (lineNo + 1) pass done rest) :
    GetsThrough labels offset lineNo pass (raw :: done) rest := by
  -- the labels of the later lines are not `l`, which the rest sees bound
  have hlater : ∀ n ∈ done.filterMap declaredName?, l ≠ n ∧ labels[n]? = none := by
    intro n hn
    have hfresh := h.fresh n hn
    by_cases hl : l = n
    · subst hl
      simp at hfresh
    · exact ⟨hl, by simpa [Std.TreeMap.getElem?_insert, hl] using hfresh⟩
  refine ⟨?_, ?_, fun n off => ?_, h.stop_cons⟩
  · simp only [List.filterMap_cons, hname, List.mem_cons, forall_eq_or_imp]
    exact ⟨hnew, fun n hn => (hlater n hn).2⟩
  · simp only [List.filterMap_cons, hname, List.nodup_cons]
    exact ⟨fun hl => (hlater l hl).1 rfl, h.once⟩
  · rw [h.table, declaredAt_cons (s := 0) (by simpa using hs), Nat.add_zero, hname]
    by_cases hl : l = n
    · subst hl
      simp [hnew, eq_comm]
    · simp [Std.TreeMap.getElem?_insert, hl]

end GetsThrough

/-- Every run of the pass gets through a prefix of its lines. The induction is on the lines,
with one case for each kind of line the pass reads. -/
theorem passFrom_getsThrough (labels : LabelTable) (offset : Nat) (acc : Array Piece)
    (lineNo : Nat) (lines : List String) :
    ∃ done rest, lines = done ++ rest ∧
      GetsThrough labels offset lineNo (passFrom labels offset acc lineNo lines) done rest := by
  induction lines generalizing labels offset acc lineNo with
  | nil =>
      refine ⟨[], [], rfl, by simp, by simp, fun n off => ?_, .inl ⟨rfl, _, rfl⟩⟩
      simp [passFrom_nil, not_declaredAt_nil]
  | cons raw rest ih =>
      rw [passFrom_cons]
      split
      · -- a blank line
        rename_i hclean
        obtain ⟨done, rest', hsplit, h⟩ := ih labels offset acc (lineNo + 1)
        refine ⟨raw :: done, rest', by rw [hsplit]; rfl, ?_⟩
        exact .cons_skip (s := 0) (declaredName?_of_clean_nil hclean)
          (fun pre => by rw [codeBytes_cons_skip (.inl hclean), Nat.zero_add]) (by simpa using h)
      · -- a label line: an empty name or a name declared before stops the pass
        rename_i name hclean
        have hskip : ∀ pre, codeBytes lineNo (raw :: pre) = codeBytes (lineNo + 1) pre :=
          fun pre => codeBytes_cons_skip (.inr ⟨name, hclean⟩) pre
        have hname := declaredName?_of_clean_label hclean
        dsimp only
        by_cases hempty : (String.ofList (Text.trim name)).isEmpty = true
        · have htrim : Text.trim name = [] := by simpa [String.isEmpty_iff] using hempty
          rw [if_pos hempty]
          refine ⟨[], raw :: rest, rfl, .fail rfl fun n hn => ?_⟩
          simp [hname, htrim] at hn
        · rw [if_neg hempty]
          have htrim : Text.trim name ≠ [] := by simpa [String.isEmpty_iff] using hempty
          rw [if_neg htrim] at hname
          by_cases hdup : labels.contains (String.ofList (Text.trim name)) = true
          · rw [if_pos hdup]
            refine ⟨[], raw :: rest, rfl, .fail rfl fun n hn _ => ?_⟩
            rw [hname, Option.some.injEq] at hn
            rw [hn]
          · rw [if_neg hdup]
            obtain ⟨done, rest', hsplit, h⟩ :=
              ih (labels.insert (String.ofList (Text.trim name)) offset) offset acc (lineNo + 1)
            refine ⟨raw :: done, rest', by rw [hsplit]; rfl, .cons_declare hname ?_ hskip h⟩
            exact Std.TreeMap.getElem?_eq_none_of_contains_eq_false (Bool.eq_false_iff.2 hdup)
      · -- an instruction line: it assembles, or its error stops the pass
        rename_i hnil hlabel
        split
        · rename_i ps hps
          obtain ⟨done, rest', hsplit, h⟩ :=
            ih labels (offset + Piece.totalSize ps) (acc ++ ps.toArray) (lineNo + 1)
          exact ⟨raw :: done, rest', by rw [hsplit]; rfl,
            .cons_skip (declaredName?_of_encodeLine hps) (codeBytes_cons_instr hps) h⟩
        · rename_i e he
          refine ⟨[], raw :: rest, rfl, .fail (encodeLine_error_line he) fun n hn => ?_⟩
          rw [declaredName?] at hn
          split at hn
          · rename_i name hcolon
            exact absurd hcolon (hlabel name)
          · cases hn

/-- When the first pass succeeds, its table holds exactly the labels that the lines declare,
each at the bytes of the instruction lines before it. -/
theorem firstPass_ok_table {lines : List String} {ps : List Piece}
    (h : (firstPass lines).result = .ok ps) (n : String) (off : Nat) :
    (firstPass lines).labels[n]? = some off ↔ DeclaredAt 1 0 lines n off := by
  obtain ⟨done, rest, hsplit, hg⟩ := passFrom_getsThrough ∅ 0 #[] 1 lines
  replace hg : GetsThrough ∅ 0 1 (firstPass lines) done rest := hg
  have hrest : rest = [] := by
    rcases hg.stop with ⟨hrest, -⟩ | ⟨-, -, e, -, he, -⟩
    · exact hrest
    · rw [h] at he
      cases he
  subst hrest
  rw [List.append_nil] at hsplit
  subst hsplit
  simpa using hg.table n off

/-- A run whose declarations are distinct holds no two declarations of one name. -/
theorem not_declared_twice {xs pre mid : List String} {raw raw' n : String}
    (hpre : pre ++ raw :: (mid ++ [raw']) <+: xs) (hnd : (xs.filterMap declaredName?).Nodup)
    (h : declaredName? raw = some n) (h' : declaredName? raw' = some n) : False := by
  have hsub := hnd.sublist (hpre.sublist.filterMap declaredName?)
  simp [List.filterMap_append, h, h', List.nodup_append] at hsub

/-- The label table that the first pass leaves; every call starts from the empty table, so
what earlier calls left does not matter. The pass gets through the lines `done`: all lines, or
those before the line its error names. The table holds exactly the labels declared in `done`,
each bound to the encoded size of the instruction lines before its declaration, and on success
the pieces take the encoded size of all instruction lines. A name declared twice makes the pass
fail: at its second declaration, with the first binding in place, when the pass gets that far. -/
theorem firstPass_label_table (lines : List String) :
    ∃ done rest, lines = done ++ rest ∧
      ((rest = [] ∧ ∃ ps, (firstPass lines).result = .ok ps ∧
          Piece.totalSize ps = codeBytes 1 lines) ∨
        ∃ e, (firstPass lines).result = .error e ∧ rest ≠ [] ∧
          e.line? = some (done.length + 1)) ∧
      (∀ n off, (firstPass lines).labels[n]? = some off ↔ DeclaredAt 1 0 done n off) ∧
      ∀ pre raw mid raw' post n, lines = pre ++ raw :: (mid ++ raw' :: post) →
        declaredName? raw = some n → declaredName? raw' = some n →
        (∃ e, (firstPass lines).result = .error e) ∧
        (pre.length + mid.length < done.length →
          (firstPass lines).result = .error (.duplicateLabel (pre.length + mid.length + 2) n) ∧
          (firstPass lines).labels[n]? = some (codeBytes 1 pre)) := by
  obtain ⟨done, rest, hsplit, h⟩ := passFrom_getsThrough ∅ 0 #[] 1 lines
  replace h : GetsThrough ∅ 0 1 (firstPass lines) done rest := h
  have htable : ∀ n off, (firstPass lines).labels[n]? = some off ↔ DeclaredAt 1 0 done n off := by
    simpa using h.table
  -- the lines up to a second declaration are never all in `done`
  have hshort : ∀ pre raw mid raw' post n, lines = pre ++ raw :: (mid ++ raw' :: post) →
      declaredName? raw = some n → declaredName? raw' = some n →
      done.length ≤ pre.length + mid.length + 1 := by
    intro pre raw mid raw' post n hlines hn hn'
    by_contra hlong
    have hpre : pre ++ raw :: (mid ++ [raw']) <+: done := by
      refine List.prefix_of_prefix_length_le ⟨post, ?_⟩ ⟨rest, hsplit.symm⟩ (by simp; omega)
      simp [hlines]
    exact not_declared_twice hpre h.once hn hn'
  refine ⟨done, rest, hsplit, ?_, htable, ?_⟩
  · rcases h.stop with ⟨rfl, ps, hps⟩ | ⟨raw, rest', e, rfl, he, hline, -⟩
    · refine .inl ⟨rfl, ps, hps, ?_⟩
      rw [passFrom_pieces hps, Array.toList_empty, List.nil_append]
      rfl
    · exact .inr ⟨e, he, List.cons_ne_nil _ _, by rw [hline, Nat.add_comm]⟩
  · intro pre raw mid raw' post n hlines hn hn'
    have hle := hshort pre raw mid raw' post n hlines hn hn'
    -- the pass stops at or before the second declaration
    have hfail : rest ≠ [] := by
      rintro rfl
      have hlen := congrArg List.length hlines
      rw [hsplit, List.append_nil] at hlen
      simp at hlen
      omega
    rcases h.stop with ⟨hrest, -⟩ | ⟨r, rest', e, rfl, he, hline, hdup⟩
    · exact absurd hrest hfail
    refine ⟨⟨e, he⟩, fun hlong => ?_⟩
    -- here `done` is exactly the lines before the second declaration
    obtain ⟨hdone, hrest⟩ : done = pre ++ raw :: mid ∧ r :: rest' = raw' :: post :=
      List.append_inj (by rw [← hsplit, hlines]; simp) (by simp; omega)
    obtain ⟨rfl, -⟩ := List.cons.inj hrest
    have hfirst : (firstPass lines).labels[n]? = some (codeBytes 1 pre) :=
      (htable n _).2 ⟨pre, raw, mid, hdone, hn, by simp⟩
    have hmem : n ∈ (firstPass lines).labels := by
      rw [Std.TreeMap.mem_iff_isSome_getElem?, hfirst]
      rfl
    refine ⟨?_, hfirst⟩
    rw [he, hdup n hn' hmem, hdone]
    simp
    omega

end Assembly

end ByteMachine
