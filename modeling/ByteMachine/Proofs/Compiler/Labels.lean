import Mathlib.Data.List.Count
import ByteMachine.Proofs.Compiler.Emitted
import ByteMachine.Proofs.Except

/-!
# Labels of generated code

Code generation numbers its labels in the order it creates them, and every construct that
creates labels declares each of them exactly once and jumps only to them. So the code generated
between two states declares the labels numbered from the first state's count up to the second's,
each once, and every jump in it names one of them; a whole program declares every label it jumps
to exactly once.

The invariant is `Labelled`; `exprCode_labelled` and `stmtCode_labelled` show that every run of
code generation establishes it, one case per construct.
-/

namespace ByteMachine.Compiler

open Source

/-! ## Declared labels and jump targets -/

/-- The label that a line declares. -/
def Line.declaredLabel : Line → Option String
  | .label n => some n
  | .instr .. => none

/-- The label that a line jumps to. -/
def Line.jumpTarget : Line → Option String
  | .instr _ (.label n) => some n
  | _ => none

/-- The labels that lines declare, in order. -/
def declared (lines : List Line) : List String := lines.filterMap Line.declaredLabel

/-- The labels that lines jump to, in order. -/
def targets (lines : List Line) : List String := lines.filterMap Line.jumpTarget

@[simp] theorem Line.declaredLabel_instr (op : Op) (arg : Arg) :
    (Line.instr op arg).declaredLabel = none := rfl

@[simp] theorem Line.declaredLabel_label (n : String) : (Line.label n).declaredLabel = some n := rfl

@[simp] theorem Line.jumpTarget_none (op : Op) : (Line.instr op .none).jumpTarget = none := rfl

@[simp] theorem Line.jumpTarget_byte (op : Op) (v : UInt8) :
    (Line.instr op (.byte v)).jumpTarget = none := rfl

@[simp] theorem Line.jumpTarget_label (op : Op) (n : String) :
    (Line.instr op (.label n)).jumpTarget = some n := rfl

@[simp] theorem Line.jumpTarget_declare (n : String) : (Line.label n).jumpTarget = none := rfl

section Lists

variable (l : Line) (lines lines' : List Line)

@[simp] theorem declared_nil : declared [] = [] := rfl

@[simp] theorem declared_cons :
    declared (l :: lines) = (l.declaredLabel.toList ++ declared lines) := by
  cases h : l.declaredLabel <;> simp [declared, h]

@[simp] theorem declared_append : declared (lines ++ lines') = declared lines ++ declared lines' :=
  List.filterMap_append

@[simp] theorem targets_nil : targets [] = [] := rfl

@[simp] theorem targets_cons : targets (l :: lines) = (l.jumpTarget.toList ++ targets lines) := by
  cases h : l.jumpTarget <;> simp [targets, h]

@[simp] theorem targets_append : targets (lines ++ lines') = targets lines ++ targets lines' :=
  List.filterMap_append

end Lists

@[simp] theorem count_labelName_cons (j k : Nat) (ns : List String) :
    (labelName j :: ns).count (labelName k) = ns.count (labelName k) + if j = k then 1 else 0 := by
  rw [List.count_cons]
  by_cases h : j = k
  · simp [h]
  · simp [h, labelName_injective.ne h]

/-! ## The invariant -/

/-- Code generated while the label count went from `lo` to `hi`: its lines are emitted forms,
it declares each label numbered from `lo` below `hi` exactly once and no other, and it jumps only
to these labels. -/
structure Labelled (lo hi : Nat) (lines : List Line) : Prop where
  le : lo ≤ hi
  emitted : ∀ l ∈ lines, Emitted l
  declares : ∀ k, (declared lines).count (labelName k) = if lo ≤ k ∧ k < hi then 1 else 0
  jumps : ∀ n ∈ targets lines, ∃ k, lo ≤ k ∧ k < hi ∧ n = labelName k

namespace Labelled

variable {a b c : Nat} {lines lines' : List Line}

theorem nil (a : Nat) : Labelled a a [] :=
  ⟨le_refl a, by simp, by simp, by simp⟩

/-- Code generated one piece after another. -/
theorem append (h : Labelled a b lines) (h' : Labelled b c lines') :
    Labelled a c (lines ++ lines') := by
  refine ⟨h.le.trans h'.le, ?_, fun k => ?_, ?_⟩
  · intro l hl
    rcases List.mem_append.1 hl with hl | hl
    · exact h.emitted l hl
    · exact h'.emitted l hl
  · have hle := h.le
    have hle' := h'.le
    rw [declared_append, List.count_append, h.declares k, h'.declares k]
    split_ifs <;> omega
  · intro n hn
    rw [targets_append, List.mem_append] at hn
    rcases hn with hn | hn
    · obtain ⟨k, hk, hk', rfl⟩ := h.jumps n hn
      exact ⟨k, hk, lt_of_lt_of_le hk' h'.le, rfl⟩
    · obtain ⟨k, hk, hk', rfl⟩ := h'.jumps n hn
      exact ⟨k, le_trans h.le hk, hk', rfl⟩

theorem plain {op : Op} (hop : op ∈ plainOps) (a : Nat) : Labelled a a [.instr op .none] :=
  ⟨le_refl a, by simpa using Emitted.plain hop, by simp, by simp⟩

theorem byte {op : Op} (hop : op ∈ byteOps) (v : UInt8) (a : Nat) :
    Labelled a a [.instr op (.byte v)] :=
  ⟨le_refl a, by simpa using Emitted.byte hop v, by simp, by simp⟩

/-- The invariant does not depend on the order of the lines. -/
theorem perm (h : Labelled a b lines) (hp : lines.Perm lines') : Labelled a b lines' := by
  refine ⟨h.le, fun l hl => h.emitted l (hp.mem_iff.2 hl), fun k => ?_, fun n hn => ?_⟩
  · rw [declared, ← (hp.filterMap Line.declaredLabel).count_eq]
    exact h.declares k
  · exact h.jumps n ((hp.filterMap Line.jumpTarget).mem_iff.2 hn)

/-- Lines that declare the labels numbered from `k` below `k + m`, in order, and otherwise hold
emitted lines that jump only to these labels. -/
theorem frame {k m : Nat} {ls : List Line} (hem : ∀ l ∈ ls, Emitted l)
    (hdecl : declared ls = (List.range' k m).map labelName)
    (htgt : ∀ n ∈ targets ls, n ∈ declared ls) : Labelled k (k + m) ls := by
  refine ⟨Nat.le_add_right k m, hem, fun j => ?_, fun n hn => ?_⟩
  · rw [hdecl, List.count_map_of_injective _ _ labelName_injective]
    by_cases hj : k ≤ j ∧ j < k + m
    · rw [if_pos hj, List.count_eq_one_of_mem List.nodup_range' (by simp; omega)]
    · rw [if_neg hj, List.count_eq_zero_of_not_mem (by simp; omega)]
  · have hn' := htgt n hn
    rw [hdecl, List.mem_map] at hn'
    obtain ⟨j, hj, rfl⟩ := hn'
    rw [List.mem_range'_1] at hj
    exact ⟨j, hj.1, hj.2, rfl⟩

/-- A test that turns A into a flag: a compare, the flag 0, a jump on `c` past the flag 1 to a
fresh label, the flag 1, and the label. -/
theorem flag {x : Line} (hx : x = testA ∨ x = .plain (.compare .a (.register .b)))
    {c : Condition} (hc : c ∈ jumpConditions) (k : Nat) :
    Labelled k (k + 1)
      [x, loadConst 0, jumpTo c (labelName k), loadConst 1, .label (labelName k)] := by
  have hxe : Emitted x ∧ x.declaredLabel = none ∧ x.jumpTarget = none := by
    rcases hx with rfl | rfl
    · exact ⟨.plain (by decide), rfl, rfl⟩
    · exact ⟨.plain (by decide), rfl, rfl⟩
  refine frame ?_ (by simp [hxe.2.1, loadConst, jumpTo]) (by simp [hxe.2.2, loadConst, jumpTo])
  intro l hl
  simp only [List.mem_cons, List.not_mem_nil, or_false] at hl
  rcases hl with rfl | rfl | rfl | rfl | rfl
  · exact hxe.1
  · exact .byte (by decide) 0
  · exact .jump hc k
  · exact .byte (by decide) 1
  · exact .label k

/-- The frame of a short-circuit operator: a test of A, a jump on `c` to a fresh label, and the
label. -/
theorem skip {c : Condition} (hc : c ∈ jumpConditions) (k : Nat) :
    Labelled k (k + 1) [testA, jumpTo c (labelName k), .label (labelName k)] := by
  refine frame ?_ (by simp [testA, Line.plain, jumpTo]) (by simp [testA, Line.plain, jumpTo])
  intro l hl
  simp only [List.mem_cons, List.not_mem_nil, or_false] at hl
  rcases hl with rfl | rfl | rfl
  · exact .plain (by decide)
  · exact .jump hc k
  · exact .label k

/-- The frame of a conditional: the test, the jump to the else label, the jump from the end of
the then branch to the end label, and the two labels. -/
theorem branch (k : Nat) :
    Labelled k (k + 2) [testA, jumpTo .equal (labelName k), jumpTo .always (labelName (k + 1)),
      .label (labelName k), .label (labelName (k + 1))] := by
  refine frame ?_ (by simp [testA, Line.plain, jumpTo, List.range'_succ])
    (by simp [testA, Line.plain, jumpTo])
  intro l hl
  simp only [List.mem_cons, List.not_mem_nil, or_false] at hl
  rcases hl with rfl | rfl | rfl | rfl | rfl
  · exact .plain (by decide)
  · exact .jump (by decide) k
  · exact .jump (by decide) (k + 1)
  · exact .label k
  · exact .label (k + 1)

/-- The frame of a loop: the start label, the test when there is one, the jump back to the
start, and the end label. -/
theorem loop (k : Nat) (tested : Bool) :
    Labelled k (k + 2) ([.label (labelName k)] ++
      (if tested then [testA, jumpTo .equal (labelName (k + 1))] else []) ++
      [jumpTo .always (labelName k), .label (labelName (k + 1))]) := by
  have htest : ∀ l ∈ (if tested then [testA, jumpTo .equal (labelName (k + 1))] else []),
      Emitted l ∧ l.declaredLabel = none ∧ ∀ n, l.jumpTarget = some n → n = labelName (k + 1) := by
    intro l hl
    cases tested with
    | false => cases hl
    | true =>
        simp only [if_true, List.mem_cons, List.not_mem_nil, or_false] at hl
        rcases hl with rfl | rfl
        · exact ⟨.plain (by decide), rfl, by simp [testA, Line.plain]⟩
        · exact ⟨.jump (by decide) (k + 1), rfl, by simp [jumpTo]⟩
  refine frame ?_ ?_ ?_
  · intro l hl
    simp only [List.mem_append, List.mem_cons, List.not_mem_nil, or_false] at hl
    rcases hl with (rfl | hl) | rfl | rfl
    · exact .label k
    · exact (htest l hl).1
    · exact .jump (by decide) k
    · exact .label (k + 1)
  · cases tested <;> simp [testA, Line.plain, jumpTo, List.range'_succ]
  · cases tested <;> simp [testA, Line.plain, jumpTo]

/-- A short-circuit operator: the label is created first, then the two operands' code. -/
theorem shortCircuit {c : Condition} (hc : c ∈ jumpConditions) {k m n : Nat} {l r : List Line}
    (hl : Labelled (k + 1) m l) (hr : Labelled m n r) :
    Labelled k n (l ++ [testA, jumpTo c (labelName k)] ++ r ++ [.label (labelName k)]) :=
  ((skip hc k).append (hl.append hr)).perm (List.perm_iff_count.2 fun x => by
    simp only [List.count_append, List.count_cons, List.count_nil]; omega)

/-- A conditional: its two labels are created first, then the code of the condition and of the
two branches. -/
theorem conditional {k m₁ m₂ n : Nat} {c t e : List Line} (hc : Labelled (k + 2) m₁ c)
    (ht : Labelled m₁ m₂ t) (he : Labelled m₂ n e) :
    Labelled k n (c ++ [testA, jumpTo .equal (labelName k)] ++ t ++
      [jumpTo .always (labelName (k + 1)), .label (labelName k)] ++ e ++
      [.label (labelName (k + 1))]) :=
  ((branch k).append ((hc.append ht).append he)).perm (List.perm_iff_count.2 fun x => by
    simp only [List.count_append, List.count_cons, List.count_nil]; omega)

/-- A loop: its two labels are created first, then the code of the test, the body and the
step. -/
theorem loopAround {k m₁ m₂ n : Nat} {code b s : List Line} (tested : Bool)
    (hcode : Labelled (k + 2) m₁ code) (hb : Labelled m₁ m₂ b) (hs : Labelled m₂ n s) :
    Labelled k n ([.label (labelName k)] ++
      (code ++ if tested then [testA, jumpTo .equal (labelName (k + 1))] else []) ++ b ++ s ++
      [jumpTo .always (labelName k), .label (labelName (k + 1))]) :=
  ((loop k tested).append ((hcode.append hb).append hs)).perm (List.perm_iff_count.2 fun x => by
    simp only [List.count_append, List.count_cons, List.count_nil]; omega)

end Labelled

/-! ## Running code generation -/

section Run

variable {α β : Type}

theorem run_bind_eq_ok {x : GenM α} {f : α → GenM β} {g g'' : Gen} {b : β} :
    (x >>= f) g = .ok (b, g'') ↔ ∃ a g', x g = .ok (a, g') ∧ f a g' = .ok (b, g'') := by
  show StateT.bind x f g = _ ↔ _
  simp only [StateT.bind]
  constructor
  · intro h
    obtain ⟨⟨a, g'⟩, hx, hf⟩ := bind_eq_ok.1 h
    exact ⟨a, g', hx, hf⟩
  · rintro ⟨a, g', hx, hf⟩
    exact bind_eq_ok.2 ⟨(a, g'), hx, hf⟩

theorem run_pure_eq_ok {a b : α} {g g' : Gen} :
    (pure a : GenM α) g = .ok (b, g') ↔ b = a ∧ g' = g := by
  show Except.ok (a, g) = _ ↔ _
  simp [eq_comm]

theorem run_throw {e : CodegenError} {g g' : Gen} {b : α} :
    (throw e : GenM α) g ≠ .ok (b, g') := by
  intro h
  cases h

theorem run_throw_bind {e : CodegenError} {f : α → GenM β} {g g' : Gen} {b : β} :
    ((throw e : GenM α) >>= f) g ≠ .ok (b, g') := by
  intro h
  obtain ⟨a, g1, hx, -⟩ := run_bind_eq_ok.1 h
  exact run_throw hx

theorem freshLabel_eq_ok {g g' : Gen} {name : String} (h : freshLabel g = .ok (name, g')) :
    name = labelName g.labels ∧ g'.labels = g.labels + 1 := by
  cases h
  exact ⟨rfl, rfl⟩

theorem allocate_labels {owner : String} {g g' : Gen} {addr : UInt8}
    (h : allocate owner g = .ok (addr, g')) : g'.labels = g.labels := by
  simp only [allocate] at h
  obtain ⟨g0, g1, hget, h⟩ := run_bind_eq_ok.1 h
  cases hget
  split at h
  · exact absurd h run_throw_bind
  · obtain ⟨u, g2, hset, h⟩ := run_bind_eq_ok.1 h
    cases hset
    obtain ⟨-, rfl⟩ := run_pure_eq_ok.1 h
    rfl

theorem allocateScratch_labels {g g' : Gen} {addr : UInt8}
    (h : allocateScratch g = .ok (addr, g')) : g'.labels = g.labels := by
  simp only [allocateScratch] at h
  obtain ⟨g0, g1, hget, h⟩ := run_bind_eq_ok.1 h
  cases hget
  split at h
  · exact absurd h run_throw_bind
  · obtain ⟨u, g2, hset, h⟩ := run_bind_eq_ok.1 h
    cases hset
    obtain ⟨-, rfl⟩ := run_pure_eq_ok.1 h
    rfl

theorem bind_labels {name : String} {addr : UInt8} {g g' : Gen} {u : Unit}
    (h : bind name addr g = .ok (u, g')) : g'.labels = g.labels := by
  cases h
  rfl

theorem addressOf_labels {name : Token} {g g' : Gen} {addr : UInt8}
    (h : addressOf name g = .ok (addr, g')) : g' = g := by
  simp only [addressOf] at h
  obtain ⟨g0, g1, hget, h⟩ := run_bind_eq_ok.1 h
  cases hget
  cases hl : g.vars.lookup name.lexeme with
  | none => rw [hl] at h; exact absurd h run_throw
  | some a => rw [hl] at h; exact (run_pure_eq_ok.1 h).2

end Run

/-! ## Code generation keeps the invariant -/

/-- Every run of `x` generates code labelled by the labels it creates. -/
def Labelling (x : GenM (List Line)) : Prop :=
  ∀ ⦃g g' : Gen⦄ ⦃lines : List Line⦄, x g = .ok (lines, g') → Labelled g.labels g'.labels lines

theorem lowering_alu {op : BinOp} {alu : AluOp} (h : lowering op = .inl alu) :
    Op.alu alu ∈ plainOps := by
  cases op <;> simp only [lowering, Sum.inl.injEq, reduceCtorEq] at h <;> subst h <;>
    decide

theorem lowering_condition {op : BinOp} {c : Condition} (h : lowering op = .inr c) :
    c ∈ jumpConditions := by
  cases op <;> simp only [lowering, Sum.inr.injEq, reduceCtorEq] at h <;> subst h <;>
    decide

theorem operandsCode_labelling {first second : GenM (List Line)} (hfirst : Labelling first)
    (hsecond : Labelling second) (leaf : Bool) : Labelling (operandsCode first second leaf) := by
  intro g g' lines h
  simp only [operandsCode] at h
  obtain ⟨a, g1, ha, h⟩ := run_bind_eq_ok.1 h
  have hA := hfirst ha
  cases leaf with
  | true =>
      obtain ⟨b, g2, hb, h⟩ := run_bind_eq_ok.1 h
      obtain ⟨rfl, rfl⟩ := run_pure_eq_ok.1 h
      exact (hA.append (Labelled.plain (by decide) _)).append (hsecond hb)
  | false =>
      obtain ⟨s, g2, hs, h⟩ := run_bind_eq_ok.1 h
      obtain ⟨b, g3, hb, h⟩ := run_bind_eq_ok.1 h
      obtain ⟨rfl, rfl⟩ := run_pure_eq_ok.1 h
      have hS : g2.labels = g1.labels := allocateScratch_labels hs
      have hB := hsecond hb
      rw [hS] at hB
      exact ((hA.append (Labelled.byte (by decide) s _)).append hB).append
        (Labelled.byte (by decide) s _)

theorem compareCode_labelling {c : Condition} (hc : c ∈ jumpConditions) :
    Labelling (compareCode c) := by
  intro g g' lines h
  simp only [compareCode] at h
  obtain ⟨skip, g1, hskip, h⟩ := run_bind_eq_ok.1 h
  obtain ⟨rfl, rfl⟩ := run_pure_eq_ok.1 h
  obtain ⟨rfl, hlabels⟩ := freshLabel_eq_ok hskip
  rw [hlabels]
  exact Labelled.flag (.inr rfl) hc g.labels

theorem labelling_pure {lines : List Line} (h : ∀ a, Labelled a a lines) :
    Labelling (pure lines) := by
  intro g g' ls hrun
  obtain ⟨rfl, rfl⟩ := run_pure_eq_ok.1 hrun
  exact h _

theorem labelling_throw {e : CodegenError} : Labelling (throw e) :=
  fun _ _ _ h => absurd h run_throw

/-- The code of every expression is labelled by the labels its generation creates. -/
theorem exprCode_labelling (e : Expr) : Labelling (exprCode e) := by
  induction e using exprCode.induct with
  | case1 text v hv =>
      simp only [exprCode, hv]
      exact labelling_pure (Labelled.byte (by decide) v)
  | case2 text hv =>
      simp only [exprCode, hv]
      exact labelling_throw
  | case3 b => exact labelling_pure (Labelled.byte (by decide) _)
  | case4 => exact labelling_throw
  | case5 => exact labelling_throw
  | case6 => exact labelling_pure (Labelled.plain (by decide))
  | case7 e ih => exact ih
  | case8 name =>
      intro g g' lines h
      obtain ⟨addr, g1, haddr, h⟩ := run_bind_eq_ok.1 h
      obtain ⟨rfl, rfl⟩ := run_pure_eq_ok.1 h
      rw [addressOf_labels haddr]
      exact @Labelled.byte (.loadDirect .a) (by decide) addr _
  | case9 name value ih =>
      intro g g' lines h
      obtain ⟨addr, g1, haddr, h⟩ := run_bind_eq_ok.1 h
      obtain ⟨v, g2, hv, h⟩ := run_bind_eq_ok.1 h
      obtain ⟨rfl, rfl⟩ := run_pure_eq_ok.1 h
      have hV := ih hv
      rw [addressOf_labels haddr] at hV
      exact hV.append (Labelled.byte (by decide) addr _)
  | case10 op operand ih =>
      intro g g' lines h
      obtain ⟨v, g1, hv, h⟩ := run_bind_eq_ok.1 h
      have hV := ih hv
      cases op with
      | neg =>
          obtain ⟨rfl, rfl⟩ := run_pure_eq_ok.1 h
          exact hV.append (Labelled.plain (by decide) _)
      | bitNot =>
          obtain ⟨rfl, rfl⟩ := run_pure_eq_ok.1 h
          exact hV.append (Labelled.plain (by decide) _)
      | not =>
          obtain ⟨skip, g2, hskip, h⟩ := run_bind_eq_ok.1 h
          obtain ⟨rfl, rfl⟩ := run_pure_eq_ok.1 h
          obtain ⟨rfl, hlabels⟩ := freshLabel_eq_ok hskip
          rw [hlabels]
          exact hV.append (Labelled.flag (.inl rfl) (by decide) g1.labels)
  | case11 op left right ihl ihr =>
      -- the label after the right operand is created before either operand's code
      intro g g' lines h
      simp only [exprCode] at h
      obtain ⟨done, g1, hdone, h⟩ := run_bind_eq_ok.1 h
      obtain ⟨l, g2, hl, h⟩ := run_bind_eq_ok.1 h
      obtain ⟨r, g3, hr, h⟩ := run_bind_eq_ok.1 h
      obtain ⟨rfl, rfl⟩ := run_pure_eq_ok.1 h
      obtain ⟨rfl, hlabels⟩ := freshLabel_eq_ok hdone
      have hL := ihl hl
      rw [hlabels] at hL
      cases op <;> exact Labelled.shortCircuit (by decide) hL (ihr hr)
  | case12 op left right hord ih₁ ih₂ | case13 op left right hord ih₁ ih₂ =>
      -- the operands in the order they are computed, then the operator
      intro g g' lines h
      simp only [exprCode, hord, ↓reduceIte] at h
      obtain ⟨ops, g1, hops, h⟩ := run_bind_eq_ok.1 h
      have hO := operandsCode_labelling ih₁ ih₂ _ hops
      cases hlow : lowering op with
      | inl alu =>
          rw [hlow] at h
          obtain ⟨rfl, rfl⟩ := run_pure_eq_ok.1 h
          exact hO.append (Labelled.plain (lowering_alu hlow) _)
      | inr c =>
          rw [hlow] at h
          obtain ⟨cmp, g2, hcmp, h⟩ := run_bind_eq_ok.1 h
          obtain ⟨rfl, rfl⟩ := run_pure_eq_ok.1 h
          exact hO.append (compareCode_labelling (lowering_condition hlow) hcmp)

/-- A loop's code with the optional test and step read as code that may be empty. -/
theorem loopCode_eq (cond : Option (GenM (List Line))) (body : GenM (List Line))
    (step : Option (GenM (List Line))) :
    loopCode cond body step = (do
      let start ← freshLabel
      let done ← freshLabel
      let code ← cond.getD (pure [])
      let b ← body
      let s ← step.getD (pure [])
      pure ([.label start] ++
        (code ++ if cond.isSome then [testA, jumpTo .equal done] else []) ++ b ++ s ++
        [jumpTo .always start, .label done])) := by
  cases cond <;> cases step <;> simp [loopCode]

/-- A loop is labelled when its test, body and step are. -/
theorem loopCode_labelling {cond : Option (GenM (List Line))} {body : GenM (List Line)}
    {step : Option (GenM (List Line))} (hcond : ∀ c ∈ cond, Labelling c)
    (hbody : Labelling body) (hstep : ∀ st ∈ step, Labelling st) :
    Labelling (loopCode cond body step) := by
  -- an absent test or step is the empty code, which is labelled
  have hopt : ∀ o : Option (GenM (List Line)), (∀ x ∈ o, Labelling x) →
      Labelling (o.getD (pure [])) := by
    rintro (_ | x) hx
    · exact labelling_pure Labelled.nil
    · exact hx x rfl
  intro g g' lines h
  rw [loopCode_eq] at h
  obtain ⟨start, g1, hstart, h⟩ := run_bind_eq_ok.1 h
  obtain ⟨done, g2, hdone, h⟩ := run_bind_eq_ok.1 h
  obtain ⟨code, g3, hcode, h⟩ := run_bind_eq_ok.1 h
  obtain ⟨b, g4, hb, h⟩ := run_bind_eq_ok.1 h
  obtain ⟨s, g5, hs, h⟩ := run_bind_eq_ok.1 h
  obtain ⟨rfl, rfl⟩ := run_pure_eq_ok.1 h
  obtain ⟨rfl, h1⟩ := freshLabel_eq_ok hstart
  obtain ⟨rfl, h2⟩ := freshLabel_eq_ok hdone
  have hC := hopt cond hcond hcode
  rw [h2, h1] at hC
  rw [h1]
  exact Labelled.loopAround _ hC (hbody hb) (hopt step hstep hs)

mutual

/-- The code of every statement is labelled by the labels its generation creates. -/
theorem stmtCode_labelling : (s : Stmt) → Labelling (stmtCode s)
  | .expr e => exprCode_labelling e
  | .output e => by
      intro g g' lines h
      obtain ⟨v, g1, hv, h⟩ := run_bind_eq_ok.1 h
      obtain ⟨rfl, rfl⟩ := run_pure_eq_ok.1 h
      exact (exprCode_labelling e hv).append (Labelled.plain (by decide) _)
  | .varDecl name init => by
      intro g g' lines h
      obtain ⟨addr, g1, haddr, h⟩ := run_bind_eq_ok.1 h
      obtain ⟨u, g2, hbind, h⟩ := run_bind_eq_ok.1 h
      have hlabels : g2.labels = g.labels := (bind_labels hbind).trans (allocate_labels haddr)
      cases init with
      | none =>
          obtain ⟨rfl, rfl⟩ := run_pure_eq_ok.1 h
          rw [hlabels]
          exact Labelled.nil _
      | some e =>
          obtain ⟨v, g3, hv, h⟩ := run_bind_eq_ok.1 h
          obtain ⟨rfl, rfl⟩ := run_pure_eq_ok.1 h
          have hV := exprCode_labelling e hv
          rw [hlabels] at hV
          exact hV.append (Labelled.byte (by decide) addr _)
  | .block body => stmtsCode_labelling body
  | .ifElse cond th el => by
      intro g g' lines h
      obtain ⟨elseLabel, g1, helse, h⟩ := run_bind_eq_ok.1 h
      obtain ⟨endLabel, g2, hend, h⟩ := run_bind_eq_ok.1 h
      obtain ⟨c, g3, hc, h⟩ := run_bind_eq_ok.1 h
      obtain ⟨t, g4, ht, h⟩ := run_bind_eq_ok.1 h
      obtain ⟨e, g5, he, h⟩ := run_bind_eq_ok.1 h
      obtain ⟨rfl, rfl⟩ := run_pure_eq_ok.1 h
      obtain ⟨rfl, h1⟩ := freshLabel_eq_ok helse
      obtain ⟨rfl, h2⟩ := freshLabel_eq_ok hend
      have hC := exprCode_labelling cond hc
      rw [h2, h1] at hC
      rw [h1]
      exact Labelled.conditional hC (stmtCode_labelling th ht) (optStmtCode_labelling el he)
  | .whileLoop cond body =>
      loopCode_labelling (by simpa using exprCode_labelling cond) (stmtCode_labelling body)
        (by simp)
  | .forLoop init cond step body => by
      intro g g' lines h
      obtain ⟨i, g1, hi, h⟩ := run_bind_eq_ok.1 h
      obtain ⟨l, g2, hl, h⟩ := run_bind_eq_ok.1 h
      obtain ⟨rfl, rfl⟩ := run_pure_eq_ok.1 h
      have hL : Labelling (loopCode (cond.map exprCode) (stmtCode body) (step.map exprCode)) :=
        loopCode_labelling (by simp [exprCode_labelling]) (stmtCode_labelling body)
          (by simp [exprCode_labelling])
      exact (optStmtCode_labelling init hi).append (hL hl)
  | .funDecl .. => labelling_throw
  | .returnStmt .. => labelling_throw

/-- The code of every optional statement is labelled. -/
theorem optStmtCode_labelling : (s : Option Stmt) → Labelling (optStmtCode s)
  | some s => stmtCode_labelling s
  | none => labelling_pure Labelled.nil

/-- The code of every list of statements is labelled. -/
theorem stmtsCode_labelling : (ss : List Stmt) → Labelling (stmtsCode ss)
  | [] => labelling_pure Labelled.nil
  | s :: rest => by
      intro g g' lines h
      obtain ⟨a, g1, ha, h⟩ := run_bind_eq_ok.1 h
      obtain ⟨b, g2, hb, h⟩ := run_bind_eq_ok.1 h
      obtain ⟨rfl, rfl⟩ := run_pure_eq_ok.1 h
      exact (stmtCode_labelling s ha).append (stmtsCode_labelling rest hb)

end

end ByteMachine.Compiler
