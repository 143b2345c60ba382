import ByteMachine.Compiler.Pipeline
import ByteMachine.Proofs.Assembly.Layout
import ByteMachine.Proofs.Compiler.Labels

/-!
# Generated code assembles

The lines that code generation produces are emitted forms that declare each of their labels
once. The assembler's first pass therefore reads them without an error: an instruction line
gives its operation's opcode and its operand, and a label line binds its label to the number of
bytes before it. The second pass can then fail in one way only, at a jump whose label lies past
the two-byte address range; otherwise the bytes end with the opcode of the closing `halt`.

A label that no jump names is never resolved, so it may lie past that range without an error:
the end label of a loop without a condition is such a label.

## Main statements

* `passFrom_emitted`: the first pass over emitted lines with distinct labels.
* `Assembles`: what assembling lines gives, and `assembles_of_labelled` for generated code.
* `generated_code_assembles`: the code of every program assembles.
-/

namespace ByteMachine.Compiler

open Assembly Source

/-! ## The first pass over emitted lines -/

/-- The number of bytes a generated line assembles to. -/
def Line.size : Line → Nat
  | .instr _ arg => 1 + Piece.totalSize arg.pieces
  | .label _ => 0

/-- The pieces a generated line assembles to: its operation's opcode and then its operand, or
nothing for a label. -/
def Line.Encodes : Line → List Piece → Prop
  | .instr op arg, ps => ∃ b, decode b = some op ∧ ps = .byte b :: arg.pieces
  | .label _, ps => ps = []

/-- The labels that lines declare, each with the number of bytes before it, when the lines
start at `offset`. -/
def labelOffsets (offset : Nat) : List Line → List (String × Nat)
  | [] => []
  | .label n :: rest => (n, offset) :: labelOffsets offset rest
  | .instr op arg :: rest => labelOffsets (offset + (Line.instr op arg).size) rest

theorem labelOffsets_nil (offset : Nat) : labelOffsets offset [] = [] := rfl

theorem labelOffsets_label (offset : Nat) (n : String) (rest : List Line) :
    labelOffsets offset (.label n :: rest) = (n, offset) :: labelOffsets offset rest := rfl

theorem labelOffsets_instr (offset : Nat) (op : Op) (arg : Arg) (rest : List Line) :
    labelOffsets offset (.instr op arg :: rest) =
      labelOffsets (offset + (Line.instr op arg).size) rest := rfl

@[simp] theorem labelOffsets_map_fst (offset : Nat) (ls : List Line) :
    (labelOffsets offset ls).map Prod.fst = declared ls := by
  induction ls generalizing offset with
  | nil => rfl
  | cons l rest ih =>
      cases l with
      | instr op arg => simp [labelOffsets_instr, ih]
      | label n => simp [labelOffsets_label, ih]

theorem lookup_labelOffsets_isSome {offset : Nat} {ls : List Line} {n : String}
    (hn : n ∈ declared ls) : ((labelOffsets offset ls).lookup n).isSome := by
  rw [← labelOffsets_map_fst offset, List.mem_map] at hn
  obtain ⟨⟨m, off⟩, hmem, rfl⟩ := hn
  cases h : (labelOffsets offset ls).lookup m with
  | some _ => rfl
  | none =>
      have := List.lookup_eq_none_iff.1 h _ hmem
      simp at this

/-- The first pass over emitted lines that declare distinct labels, none of them already bound,
succeeds: each line gives its own pieces, and each label is bound to the bytes before it. -/
theorem passFrom_emitted {ls : List Line} (hem : ∀ l ∈ ls, Emitted l)
    (hnd : (declared ls).Nodup) (labels : LabelTable)
    (hfresh : ∀ n ∈ declared ls, labels.contains n = false) (offset : Nat) (done : Array Piece)
    (lineNo : Nat) :
    ∃ pss table, List.Forall₂ Line.Encodes ls pss ∧
      passFrom labels offset done lineNo (ls.map Line.text) =
        ⟨table, .ok (done.toList ++ pss.flatten)⟩ ∧
      ∀ n, table[n]? = ((labelOffsets offset ls).lookup n).or labels[n]? := by
  induction ls generalizing labels offset done lineNo with
  | nil => exact ⟨[], labels, .nil, by simp [passFrom], fun n => by simp [labelOffsets_nil]⟩
  | cons l rest ih =>
      have hrest : ∀ l ∈ rest, Emitted l := fun l hl => hem l (List.mem_cons_of_mem _ hl)
      cases l with
      | instr op arg =>
          obtain ⟨b, hb, henc⟩ := encodeLine_emitted (hem _ List.mem_cons_self) lineNo
          have hsize : Piece.totalSize (.byte b :: arg.pieces) = (Line.instr op arg).size := rfl
          obtain ⟨pss, table, hF, hpass, htable⟩ := ih hrest (by simpa using hnd) labels
            (by simpa using hfresh) (offset + (Line.instr op arg).size)
            (done ++ (.byte b :: arg.pieces).toArray) (lineNo + 1)
          refine ⟨(.byte b :: arg.pieces) :: pss, table, .cons ⟨b, hb, rfl⟩ hF, ?_, htable⟩
          rw [List.map_cons, passFrom_cons_instr henc, hsize, hpass]
          simp
      | label n =>
          -- a label line binds its label, which is new, and the rest sees it bound
          obtain ⟨k, rfl⟩ : ∃ k, n = labelName k := by
            cases hem _ List.mem_cons_self with
            | label k => exact ⟨k, rfl⟩
          obtain ⟨hclean, htrim⟩ := cleanLine_label k
          simp only [declared_cons, Line.declaredLabel_label, Option.toList_some,
            List.singleton_append, List.nodup_cons, List.mem_cons, forall_eq_or_imp] at hnd hfresh
          have hne : Text.trim (labelName k).toList ≠ [] := by
            rw [htrim, labelName_toList]
            exact List.cons_ne_nil _ _
          have hnew : labels.contains (String.ofList (Text.trim (labelName k).toList)) = false := by
            rw [htrim, String.ofList_toList]
            exact hfresh.1
          have hfresh' : ∀ m ∈ declared rest,
              (labels.insert (labelName k) offset).contains m = false := by
            intro m hm
            have hne : labelName k ≠ m := fun h => hnd.1 (h ▸ hm)
            simp [Std.TreeMap.contains_insert, hne, hfresh.2 m hm]
          obtain ⟨pss, table, hF, hpass, htable⟩ :=
            ih hrest hnd.2 (labels.insert (labelName k) offset) hfresh' offset done (lineNo + 1)
          refine ⟨[] :: pss, table, .cons rfl hF, ?_, fun m => ?_⟩
          · rw [List.map_cons, passFrom_cons_label hclean hne hnew, htrim, String.ofList_toList,
              hpass]
            simp
          · rw [htable m]
            by_cases hm : labelName k = m
            · subst hm
              have hnone : (labelOffsets offset rest).lookup (labelName k) = none :=
                List.lookup_eq_none_iff.2 fun p hp => by
                  have : p.1 ∈ declared rest := by
                    rw [← labelOffsets_map_fst offset]
                    exact List.mem_map_of_mem hp
                  exact bne_iff_ne.2 fun h => hnd.1 (h ▸ this)
              simp [labelOffsets_label, hnone]
            · have hbeq : (m == labelName k) = false := beq_eq_false_iff_ne.2 (Ne.symm hm)
              simp [labelOffsets_label, Std.TreeMap.getElem?_insert, hm, List.lookup_cons, hbeq]

/-- The first pass over emitted lines with distinct labels: each label is bound to the number of
bytes before it. -/
theorem firstPass_emitted {ls : List Line} (hem : ∀ l ∈ ls, Emitted l)
    (hnd : (declared ls).Nodup) :
    ∃ pss, List.Forall₂ Line.Encodes ls pss ∧
      (firstPass (ls.map Line.text)).result = .ok pss.flatten ∧
      ∀ n, (firstPass (ls.map Line.text)).labels[n]? = (labelOffsets 0 ls).lookup n := by
  obtain ⟨pss, table, hF, hpass, htable⟩ :=
    passFrom_emitted hem hnd ∅ (fun n _ => by simp) 0 #[] 1
  refine ⟨pss, hF, by rw [firstPass, hpass]; simp, fun n => ?_⟩
  rw [firstPass, hpass]
  simp [htable n]

/-- The label pieces of generated lines are their jumps. -/
theorem label_mem_flatten {ls : List Line} {pss : List (List Piece)}
    (hF : List.Forall₂ Line.Encodes ls pss) (n : String) :
    Piece.label n ∈ pss.flatten ↔ n ∈ targets ls := by
  induction hF with
  | nil => simp
  | @cons l ps ls pss hl _ ih =>
      cases l with
      | instr op arg =>
          obtain ⟨b, -, rfl⟩ := hl
          cases arg <;> simp [Arg.pieces, ih]
      | label m =>
          rw [Line.Encodes] at hl
          simp [hl, ih]

/-- The only opcode of `halt`. -/
theorem halt_opcode : ∀ i ∈ Isa.table, i.op = .halt → i.opcode = 0xFF := by
  decide +kernel

theorem decode_eq_halt {b : UInt8} (h : decode b = some .halt) : b = 0xFF := by
  obtain ⟨i, hfind, hop⟩ := Option.map_eq_some_iff.1 h
  have hb : i.opcode = b := by simpa using List.find?_some hfind
  rw [← hb]
  exact halt_opcode i (List.mem_of_find?_eq_some hfind) hop

/-! ## Labels of generated code -/

theorem declared_labelName {lines : List Line} (hem : ∀ l ∈ lines, Emitted l) {n : String}
    (hn : n ∈ declared lines) : ∃ k, n = labelName k := by
  obtain ⟨l, hl, hdecl⟩ := List.mem_filterMap.1 hn
  cases hem l hl with
  | plain _ => cases hdecl
  | byte _ _ => cases hdecl
  | jump _ _ => cases hdecl
  | label k => exact ⟨k, (Option.some.inj hdecl).symm⟩

namespace Labelled

variable {lo hi : Nat} {lines : List Line}

/-- Generated code declares no label twice. -/
theorem nodup (h : Labelled lo hi lines) : (declared lines).Nodup := by
  rw [List.nodup_iff_count_le_one]
  intro n
  by_cases hn : n ∈ declared lines
  · obtain ⟨k, rfl⟩ := declared_labelName h.emitted hn
    rw [h.declares k]
    split_ifs <;> omega
  · rw [List.count_eq_zero_of_not_mem hn]
    omega

/-- Generated code declares every label it jumps to exactly once. -/
theorem count_target (h : Labelled lo hi lines) {n : String} (hn : n ∈ targets lines) :
    (declared lines).count n = 1 := by
  obtain ⟨k, hk, hk', rfl⟩ := h.jumps n hn
  rw [h.declares k, if_pos ⟨hk, hk'⟩]

end Labelled

/-- The code of a program is the code of its statements, labelled from 0, and then `halt`. -/
theorem generate_labelled {program : List Stmt} {lines : List Line}
    (h : generate program = .ok lines) :
    ∃ body n, Labelled 0 n body ∧ lines = body ++ [Line.plain .halt] := by
  rw [generate] at h
  obtain ⟨⟨body, g⟩, hrun, rfl⟩ := map_eq_ok.1 h
  exact ⟨body, g.labels, stmtsCode_labelling program hrun, rfl⟩

/-! ## Assembling generated code -/

/-- What assembling lines gives: the first pass succeeds, every label a jump names is declared
exactly once and is bound, and the second pass fails exactly when one of these labels lies past
the two-byte range, with that label as the error; bytes that it gives end with `halt`. -/
structure Assembles (lines : List Line) : Prop where
  firstPass_ok : ∃ ps, (firstPass (lines.map Line.text)).result = .ok ps
  declared_once : ∀ n ∈ targets lines, (declared lines).count n = 1
  targets_bound : ∀ n ∈ targets lines, ∃ off, (firstPass (lines.map Line.text)).labels[n]? = some off
  ok_iff : (∃ bytes, assemble (lines.map Line.text) = .ok bytes) ↔
    ∀ n ∈ targets lines, ∃ off,
      (firstPass (lines.map Line.text)).labels[n]? = some off ∧ off ≤ 0xFFFF
  error_out_of_range : ∀ e, assemble (lines.map Line.text) = .error e →
    ∃ n ∈ targets lines, ∃ off, (firstPass (lines.map Line.text)).labels[n]? = some off ∧
      0xFFFF < off ∧ e = .labelOutOfRange n off
  ends_in_halt : ∀ bytes, assemble (lines.map Line.text) = .ok bytes →
    bytes.getLast? = some 0xFF

/-- Generated code with `halt` after it assembles. -/
theorem assembles_of_labelled {body : List Line} {n : Nat} (h : Labelled 0 n body) :
    Assembles (body ++ [Line.plain .halt]) := by
  have hL : Labelled 0 n (body ++ [Line.plain .halt]) :=
    h.append (Labelled.plain (by decide) n)
  obtain ⟨pss, hF, hres, htable⟩ := firstPass_emitted hL.emitted hL.nodup
  have hassemble : assemble ((body ++ [Line.plain .halt]).map Line.text) =
      resolveAfter (firstPass ((body ++ [Line.plain .halt]).map Line.text)).labels #[] pss.flatten := by
    rw [assemble, hres]
    rfl
  have hbound : ∀ m ∈ targets (body ++ [Line.plain .halt]),
      ∃ off, (firstPass ((body ++ [Line.plain .halt]).map Line.text)).labels[m]? = some off := by
    intro m hm
    have hdecl : m ∈ declared (body ++ [Line.plain .halt]) :=
      List.count_pos_iff.1 (by rw [hL.count_target hm]; omega)
    rw [htable m]
    exact Option.isSome_iff_exists.1 (lookup_labelOffsets_isSome hdecl)
  -- the pieces of the closing `halt` come last
  obtain ⟨pss', hlast⟩ : ∃ pss', pss.flatten = pss' ++ [.byte 0xFF] := by
    have hdrop := List.forall₂_drop body.length hF
    rw [List.drop_left] at hdrop
    obtain ⟨ps, rest, hps, hr, heq⟩ := List.forall₂_cons_left_iff.1 hdrop
    rw [List.forall₂_nil_left_iff] at hr
    subst hr
    obtain ⟨b, hb, rfl⟩ := hps
    refine ⟨(pss.take body.length).flatten, ?_⟩
    calc pss.flatten = (pss.take body.length ++ pss.drop body.length).flatten := by
          rw [List.take_append_drop]
      _ = (pss.take body.length).flatten ++ [.byte 0xFF] := by
          rw [List.flatten_append, heq, decode_eq_halt hb]
          simp [Arg.pieces]
  refine ⟨⟨_, hres⟩, fun m hm => hL.count_target hm, hbound, ?_, ?_, ?_⟩
  · rw [hassemble, resolveAfter_ok_iff]
    exact forall_congr' fun m => by rw [label_mem_flatten hF m]
  · intro e he
    rw [hassemble] at he
    obtain ⟨m, hm, hcase⟩ := resolveAfter_eq_error he
    rw [label_mem_flatten hF m] at hm
    rcases hcase with ⟨hnone, -⟩ | ⟨off, hoff, hlt, rfl⟩
    · obtain ⟨off, hoff⟩ := hbound m hm
      rw [hnone] at hoff
      cases hoff
    · exact ⟨m, hm, off, hoff, hlt, rfl⟩
  · intro bytes hbytes
    rw [hassemble, hlast] at hbytes
    exact resolveAfter_getLast hbytes

theorem generated_code_assembles_of {program : List Stmt} {lines : List Line}
    (h : generate program = .ok lines) : Assembles lines := by
  obtain ⟨body, n, hbody, rfl⟩ := generate_labelled h
  exact assembles_of_labelled hbody

theorem generateSource_eq_ok {source : String} {lines : List Line}
    (h : generateSource source = .ok lines) : ∃ program, generate program = .ok lines := by
  rw [generateSource] at h
  obtain ⟨tokens, -, h⟩ := bind_eq_ok.1 h
  obtain ⟨program, -, h⟩ := bind_eq_ok.1 h
  exact ⟨program, mapError_eq_ok.1 h⟩

/-- Generating code fails at reading, parsing or generating, never at assembling. -/
theorem generateSource_ne_assemble (source : String) (e : AsmError) :
    generateSource source ≠ .error (.assemble e) := by
  intro h
  rw [generateSource] at h
  rcases bind_eq_error.1 h with h | ⟨tokens, -, h⟩
  · obtain ⟨_, -, he⟩ := mapError_eq_error.1 h
    cases he
  rcases bind_eq_error.1 h with h | ⟨program, -, h⟩
  · obtain ⟨_, -, he⟩ := mapError_eq_error.1 h
    cases he
  · obtain ⟨_, -, he⟩ := mapError_eq_error.1 h
    cases he

/-- The code of every program assembles: its first pass succeeds, every jump names a label
declared exactly once, and the second pass either fails at a jump whose label lies past the
two-byte range or gives bytes that end with `halt`. -/
theorem generated_code_assembles {program : List Stmt} {lines : List Line}
    (h : generate program = .ok lines) : Assembles lines :=
  generated_code_assembles_of h

theorem output_program_assembles :
    generate [.output (.num "7")] = .ok [loadConst 7, .plain (.output .a), .plain .halt] ∧
      Assembles [loadConst 7, .plain (.output .a), .plain .halt] := by
  have h : generate [.output (.num "7")] =
      .ok [loadConst 7, .plain (.output .a), .plain .halt] := rfl
  exact ⟨h, generated_code_assembles h⟩

/-! ## A label that no jump names -/

/-- The code of a run of the same literal statement: one load of the literal each. -/
theorem stmtsCode_replicate_num {text : String} {v : UInt8} (hv : byteLiteral text = some v)
    (m : Nat) (g : Gen) :
    stmtsCode (List.replicate m (.expr (.num text))) g =
      .ok (List.replicate m (loadConst v), g) := by
  induction m generalizing g with
  | zero => rfl
  | succ m ih =>
      have hexpr : exprCode (.num text) = pure [loadConst v] := by
        rw [exprCode, hv]
      rw [List.replicate_succ, stmtsCode, stmtCode, hexpr]
      exact run_bind_eq_ok.2 ⟨_, g, rfl, run_bind_eq_ok.2 ⟨_, g, ih g, rfl⟩⟩

/-- The code of a loop without a condition, a step or an initializer, around a block whose code
creates no label: the start label, the body, the jump back, the end label that no jump names,
and `halt`. -/
theorem generate_endless_loop (b : List Stmt) (body : List Line)
    (hb : ∀ g, stmtsCode b g = .ok (body, g)) :
    generate [.forLoop none none none (.block b)] = .ok ([.label (labelName 0)] ++ body ++
      [jumpTo .always (labelName 0), .label (labelName 1), Line.plain .halt]) := by
  have hblock : ∀ g, stmtCode (.block b) g = .ok (body, g) := fun g => by
    rw [stmtCode]
    exact hb g
  have hloop : loopCode none (stmtCode (.block b)) none {} =
      .ok ([.label (labelName 0)] ++ body ++
        [jumpTo .always (labelName 0), .label (labelName 1)], { labels := 2 }) := by
    rw [loopCode_eq, run_bind_eq_ok]
    refine ⟨_, _, rfl, ?_⟩
    rw [run_bind_eq_ok]
    refine ⟨_, _, rfl, ?_⟩
    rw [run_bind_eq_ok]
    refine ⟨[], _, rfl, ?_⟩
    rw [run_bind_eq_ok]
    refine ⟨body, _, hblock _, ?_⟩
    rw [run_bind_eq_ok]
    refine ⟨[], _, rfl, ?_⟩
    simp only [Option.isSome_none, Bool.false_eq_true, ↓reduceIte, List.append_nil]
    rfl
  have hfor : stmtCode (.forLoop none none none (.block b)) {} =
      .ok ([.label (labelName 0)] ++ body ++
        [jumpTo .always (labelName 0), .label (labelName 1)], { labels := 2 }) := by
    rw [stmtCode, run_bind_eq_ok]
    refine ⟨[], _, rfl, ?_⟩
    rw [run_bind_eq_ok]
    exact ⟨_, _, hloop, rfl⟩
  rw [generate]
  refine map_eq_ok.2 ⟨([.label (labelName 0)] ++ body ++
    [jumpTo .always (labelName 0), .label (labelName 1)] ++ [], { labels := 2 }), ?_, by simp⟩
  rw [StateT.run, stmtsCode, run_bind_eq_ok]
  refine ⟨_, _, hfor, ?_⟩
  rw [run_bind_eq_ok]
  exact ⟨[], _, rfl, rfl⟩

theorem targets_replicate {l : Line} (hl : l.jumpTarget = none) (m : Nat) :
    targets (List.replicate m l) = [] := by
  induction m with
  | zero => rfl
  | succ m ih => simp [List.replicate_succ, hl, ih]

theorem labelOffsets_replicate (offset m : Nat) {l : Line} (hl : l.declaredLabel = none)
    (rest : List Line) :
    labelOffsets offset (List.replicate m l ++ rest) = labelOffsets (offset + m * l.size) rest := by
  induction m generalizing offset with
  | zero => simp
  | succ m ih =>
      cases l with
      | instr op arg =>
          rw [List.replicate_succ, List.cons_append, labelOffsets_instr, ih]
          congr 1
          rw [Nat.succ_mul]
          omega
      | label n => cases hl

/-- The end label of a loop without a condition is declared but never jumped to: with 32767
loads in the body it lies at offset 65537, past the two-byte range, and the code still
assembles. -/
theorem endless_loop_end_label_out_of_range :
    ∃ lines, generate [.forLoop none none none
        (.block (List.replicate 32767 (.expr (.num "1"))))] = .ok lines ∧
      (firstPass (lines.map Line.text)).labels[labelName 1]? = some 65537 ∧
      ∃ bytes, assemble (lines.map Line.text) = .ok bytes := by
  have hgen := generate_endless_loop _ _
    (stmtsCode_replicate_num (show byteLiteral "1" = some 1 by decide +kernel) 32767)
  obtain ⟨body, n, hbody, hlines⟩ := generate_labelled hgen
  have hL : Labelled 0 n (body ++ [Line.plain .halt]) :=
    hbody.append (Labelled.plain (by decide +kernel) n)
  rw [← hlines] at hL
  obtain ⟨-, -, -, htable⟩ := firstPass_emitted hL.emitted hL.nodup
  have h10 : (labelName 1 == labelName 0) = false :=
    beq_eq_false_iff_ne.2 (labelName_injective.ne (by decide))
  have hoffsets : labelOffsets 0 ([.label (labelName 0)] ++ List.replicate 32767 (loadConst 1) ++
      [jumpTo .always (labelName 0), .label (labelName 1), Line.plain .halt]) =
        [(labelName 0, 0), (labelName 1, 65537)] := by
    simp only [List.cons_append, List.nil_append, labelOffsets]
    rw [labelOffsets_replicate _ _ rfl]
    simp [labelOffsets, jumpTo, Line.plain, Line.size, loadConst, Arg.pieces, Piece.totalSize,
      Piece.size]
  refine ⟨_, hgen, by rw [htable, hoffsets]; simp [List.lookup_cons, h10], ?_⟩
  -- the only jump goes back to the start label, at offset 0
  refine (generated_code_assembles_of hgen).ok_iff.2 fun m hm => ⟨0, ?_, by omega⟩
  have htargets : targets ([.label (labelName 0)] ++ List.replicate 32767 (loadConst 1) ++
      [jumpTo .always (labelName 0), .label (labelName 1), Line.plain .halt]) = [labelName 0] := by
    rw [targets_append, targets_append, targets_replicate rfl]
    rfl
  rw [htargets, List.mem_singleton] at hm
  rw [hm, htable, hoffsets]
  simp

/-- A compiled program fails to assemble only at a label past the two-byte range, and its
machine code ends with `halt`. -/
theorem compile_assembly_outcome (source : String) :
    (∀ e, compile source = .error (.assemble e) → ∃ n off, 0xFFFF < off ∧ e = .labelOutOfRange n off) ∧
      ∀ c, compile source = .ok c → c.machineCode.getLast? = some 0xFF := by
  constructor
  · intro e h
    rw [compile] at h
    rcases bind_eq_error.1 h with hgen | ⟨lines, hgen, hrest⟩
    · exact absurd hgen (generateSource_ne_assemble source e)
    · obtain ⟨program, hprog⟩ := generateSource_eq_ok hgen
      rcases bind_eq_error.1 hrest with hasm | ⟨code, -, hpure⟩
      · obtain ⟨e₀, hasm, he⟩ := mapError_eq_error.1 hasm
        obtain ⟨n, -, off, -, hlt, rfl⟩ :=
          (generated_code_assembles_of hprog).error_out_of_range e₀ hasm
        exact ⟨n, off, hlt, (CompileError.assemble.inj he).symm⟩
      · cases hpure
  · intro c h
    rw [compile] at h
    obtain ⟨lines, hgen, hrest⟩ := bind_eq_ok.1 h
    obtain ⟨program, hprog⟩ := generateSource_eq_ok hgen
    obtain ⟨code, hasm, hpure⟩ := bind_eq_ok.1 hrest
    cases hpure
    exact (generated_code_assembles_of hprog).ends_in_halt code (mapError_eq_ok.1 hasm)

end ByteMachine.Compiler
