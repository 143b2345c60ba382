import ByteMachine.Proofs.Compiler.Labels

/-!
# RAM claims of code generation

Code generation claims RAM bytes in the order it walks the program: one for each `var` statement,
from address 0 upward, and one for each binary operator whose second operand is not a leaf, a
spill byte from address 255 downward. The two kinds share the 256 bytes, so the claim that finds
none left fails and names its owner: the variable, or `temporary` for a spill.

`stmtsDemand` lists these claims in order, without generating any code, together with the error
other than running out of RAM at which code generation stops first, if there is one. `Settles`
says what a run then comes to: the first claim past the free bytes fails; otherwise the run
stops at that error, or succeeds with each claimed variable bound to the next address up.

`Spills` says what a successful run does with RAM: its spills take the bytes below the lowest
spill one by one, its code stores A to them in that order and to no other byte above the variable
cells, and reads each of them back into B once.

## Main statements

* `Follows.seq`: demands compose along the binds of code generation.
* `stmtCode_follows`: every run of code generation settles as its demand says.
* `stmtCode_spilling`: every successful run from a sound state spills as `Spills` says.
* `ram_claims_exhaust_at_256`: for a whole program, RAM runs out exactly at the 257th claim, and
  otherwise variables take the bytes from 0 up and spills the bytes from 255 down, all distinct.
-/

namespace ByteMachine.Compiler

open Source

/-! ## Claims and demands -/

/-- A claim on a RAM byte: by the declaration of a variable, or by a spill. -/
inductive Claim where
  | var (name : String)
  | spill
  deriving DecidableEq, Repr

/-- The name that the error of a claim that finds no byte gives. -/
def Claim.owner : Claim → String
  | .var n => n
  | .spill => "temporary"

/-- The number of variables among some claims. -/
def varCount (cs : List Claim) : Nat := cs.countP fun c => c matches .var _

/-- The number of spills among some claims. -/
def spillCount (cs : List Claim) : Nat := cs.count .spill

/-- The variables that claims bind, the latest first, numbered from `next` in the order of the
claims. -/
def bindings : List Claim → Nat → List (String × UInt8)
  | [], _ => []
  | .var n :: cs, next => bindings cs (next + 1) ++ [(n, next.toUInt8)]
  | .spill :: cs, next => bindings cs next

/-- The claims of some code generation, in order, and the error other than running out of RAM at
which it stops, if it does. -/
@[ext] structure Demand where
  claims : List Claim := []
  stop : Option CodegenError := none
  /-- Running out of RAM is never where a demand stops: that comes of its claims. -/
  stop_ne : ∀ o, stop ≠ some (.ramExhausted o) := by simp

namespace Demand

/-- A demand that stops at once with `e`. -/
def fail (e : CodegenError) (h : ∀ o, e ≠ .ramExhausted o) : Demand where
  stop := some e
  stop_ne o := by simpa using h o

/-- A single claim. -/
def claim (c : Claim) : Demand := { claims := [c] }

/-- A demand followed by another, when the first does not stop. -/
def append (d d' : Demand) : Demand :=
  { claims := d.claims ++ d'.claims, stop := d'.stop, stop_ne := d'.stop_ne }

/-- The scope `ns` extended by the variables that a demand claims, the latest first. -/
def scope (d : Demand) (ns : List String) : List String := (bindings d.claims 0).map Prod.fst ++ ns

/-- `d` in the scope of the names `ns`, and then, unless it stops, `d'` in the scope extended by
the variables that `d` claims. -/
def seq (d d' : List String → Demand) (ns : List String) : Demand :=
  match (d ns).stop with
  | some _ => d ns
  | none => (d ns).append (d' ((d ns).scope ns))

/-- Looking a name up: nothing when it is declared, and an error otherwise. -/
def lookup (name : String) (ns : List String) : Demand :=
  if name ∈ ns then {} else fail (.undefinedVariable name) (by simp)

/-- A spill, unless the second operand of a binary operator is a leaf. -/
def spillUnless (leaf : Bool) : List String → Demand :=
  fun _ => if leaf then {} else claim .spill

end Demand

open Demand

/-- What generating an expression's code claims, in the scope of the declared names. -/
def exprDemand : Expr → List String → Demand
  | .num text => fun _ =>
    if (byteLiteral text).isSome then {} else fail (.numberOutOfRange text) (by simp)
  | .bool _ => fun _ => {}
  | .str _ => fun _ => fail (.unsupported .strings) (by simp)
  | .call .. => fun _ => fail (.unsupported .calls) (by simp)
  | .input => fun _ => {}
  | .grouping e => exprDemand e
  | .var name => lookup name.lexeme
  | .assign name value => seq (lookup name.lexeme) (exprDemand value)
  | .unary _ operand => exprDemand operand
  | .logical _ left right => seq (exprDemand left) (exprDemand right)
  | .binary op left right =>
    if op.isOrdered then
      seq (exprDemand right) (seq (spillUnless left.isLeaf) (exprDemand left))
    else seq (exprDemand left) (seq (spillUnless right.isLeaf) (exprDemand right))

/-- What generating the code of an optional expression claims. -/
def optExprDemand : Option Expr → List String → Demand
  | some e => exprDemand e
  | none => fun _ => {}

mutual

/-- What generating a statement's code claims, in the scope of the declared names. -/
def stmtDemand : Stmt → List String → Demand
  | .expr e => exprDemand e
  | .output e => exprDemand e
  | .varDecl name init => seq (fun _ => claim (.var name.lexeme)) (optExprDemand init)
  | .block body => stmtsDemand body
  | .ifElse cond th el => seq (exprDemand cond) (seq (stmtDemand th) (optStmtDemand el))
  | .whileLoop cond body => seq (exprDemand cond) (stmtDemand body)
  | .forLoop init cond step body =>
    seq (optStmtDemand init) (seq (optExprDemand cond) (seq (stmtDemand body) (optExprDemand step)))
  | .funDecl .. => fun _ => fail (.unsupported .functions) (by simp)
  | .returnStmt .. => fun _ => fail (.unsupported .returns) (by simp)

/-- What generating the code of an optional statement claims. -/
def optStmtDemand : Option Stmt → List String → Demand
  | some s => stmtDemand s
  | none => fun _ => {}

/-- What generating the code of statements in order claims. -/
def stmtsDemand : List Stmt → List String → Demand
  | [] => fun _ => {}
  | s :: rest => seq (stmtDemand s) (stmtsDemand rest)

end

/-! ## Counting claims -/

section Counts

variable (c : Claim) (cs cs' : List Claim) (next : Nat)

@[simp] theorem varCount_nil : varCount [] = 0 := rfl

@[simp] theorem varCount_var (n : String) : varCount (.var n :: cs) = varCount cs + 1 :=
  List.countP_cons_of_pos rfl

@[simp] theorem varCount_spill : varCount (.spill :: cs) = varCount cs :=
  List.countP_cons_of_neg Bool.false_ne_true

@[simp] theorem varCount_append : varCount (cs ++ cs') = varCount cs + varCount cs' :=
  List.countP_append

@[simp] theorem spillCount_nil : spillCount [] = 0 := rfl

@[simp] theorem spillCount_var (n : String) : spillCount (.var n :: cs) = spillCount cs :=
  List.count_cons_of_ne (by simp)

@[simp] theorem spillCount_spill : spillCount (.spill :: cs) = spillCount cs + 1 :=
  List.count_cons_self

@[simp] theorem spillCount_append : spillCount (cs ++ cs') = spillCount cs + spillCount cs' :=
  List.count_append

/-- Each claim is a variable's or a spill's. -/
theorem varCount_add_spillCount : varCount cs + spillCount cs = cs.length := by
  induction cs with
  | nil => rfl
  | cons c cs ih =>
      cases c <;> simp [← ih] <;> omega

@[simp] theorem bindings_nil : bindings [] next = [] := rfl

theorem bindings_var (n : String) :
    bindings (.var n :: cs) next = bindings cs (next + 1) ++ [(n, next.toUInt8)] := rfl

theorem bindings_spill : bindings (.spill :: cs) next = bindings cs next := rfl

theorem bindings_append :
    bindings (cs ++ cs') next = bindings cs' (next + varCount cs) ++ bindings cs next := by
  induction cs generalizing next with
  | nil => simp
  | cons c cs ih =>
      cases c with
      | var n => simp [bindings_var, ih, Nat.add_assoc, Nat.add_comm 1]
      | spill => simp [bindings_spill, ih]

/-- The names that claims bind do not depend on the addresses. -/
theorem bindings_names : (bindings cs next).map Prod.fst = (bindings cs 0).map Prod.fst := by
  induction cs generalizing next with
  | nil => rfl
  | cons c cs ih =>
      cases c with
      | var n => simp [bindings_var, ih (next + 1), ih 1]
      | spill => simp [bindings_spill, ih next]

/-- Claims bind their variables to the addresses from `next` up, the latest first. -/
theorem bindings_addresses :
    (bindings cs next).map Prod.snd = ((List.range' next (varCount cs)).map Nat.toUInt8).reverse := by
  induction cs generalizing next with
  | nil => rfl
  | cons c cs ih =>
      cases c with
      | var n => simp [bindings_var, ih, List.range'_succ]
      | spill => simp [bindings_spill, ih]

end Counts

/-! ## Demands in sequence -/

namespace Demand

variable {d d' : List String → Demand} {ns : List String}

theorem seq_of_stop {e : CodegenError} (h : (d ns).stop = some e) : seq d d' ns = d ns := by
  delta seq
  rw [h]

theorem seq_of_go (h : (d ns).stop = none) :
    seq d d' ns = (d ns).append (d' ((d ns).scope ns)) := by
  delta seq
  rw [h]

/-- Nothing demanded first changes nothing. -/
@[simp] theorem seq_nothing_left : seq (fun _ => {}) d' = d' := by
  funext ns
  rw [seq_of_go rfl]
  ext <;> simp [append, scope]

/-- Nothing demanded after changes nothing. -/
@[simp] theorem seq_nothing_right : seq d (fun _ => {}) = d := by
  funext ns
  cases h : (d ns).stop with
  | some e => exact seq_of_stop h
  | none =>
      rw [seq_of_go h]
      ext <;> simp [append, h]

end Demand

/-! ## What a run comes to -/

/-- The bytes that claims can still take: from the next variable address up to the lowest spill. -/
def Gen.free (g : Gen) : Nat := g.scratchFloor - g.nextAddress

/-- The names declared in a state, the latest first. -/
def Gen.names (g : Gen) : List String := g.vars.map Prod.fst

/-- What a run of code generation that demands `d` from the state `g` comes to. The first claim
past the free bytes fails and names its owner. Otherwise the run stops at the error of `d`, or
succeeds with the claimed variables bound from the next address up and the spill bytes taken
from below the lowest spill. -/
inductive Settles {α : Type} (d : Demand) (g : Gen) : Except CodegenError (α × Gen) → Prop
  | exhausted {c : Claim} (hc : d.claims[g.free]? = some c) :
      Settles d g (.error (.ramExhausted c.owner))
  | stopped {e : CodegenError} (hfit : d.claims.length ≤ g.free) (he : d.stop = some e) :
      Settles d g (.error e)
  | done {a : α} {g' : Gen} (hfit : d.claims.length ≤ g.free) (hstop : d.stop = none)
      (hnext : g'.nextAddress = g.nextAddress + varCount d.claims)
      (hfloor : g'.scratchFloor = g.scratchFloor - spillCount d.claims)
      (hvars : g'.vars = bindings d.claims g.nextAddress ++ g.vars) :
      Settles d g (.ok (a, g'))

/-- Every run of `x` settles as `d` demands in the scope of the state it starts from. -/
def Follows {α : Type} (x : GenM α) (d : List String → Demand) : Prop :=
  ∀ g : Gen, Settles (d g.names) g (x g)

/-! ## Settling in sequence -/

section Settling

variable {α β : Type} {d d' : Demand} {g g₁ : Gen}

/-- A run that succeeds after the claims of `d` and then settles `d'` settles both in turn. -/
theorem Settles.append {a : α} {r : Except CodegenError (β × Gen)} (h : Settles d g (.ok (a, g₁)))
    (h' : Settles d' g₁ r) : Settles (d.append d') g r := by
  cases h with
  | done hfit hstop hnext hfloor hvars =>
      -- the free bytes shrink by one for each claim of `d`
      have hfree : g₁.free = g.free - d.claims.length := by
        have := varCount_add_spillCount d.claims
        simp only [Gen.free, hnext, hfloor]
        omega
      cases h' with
      | exhausted hc =>
          apply Settles.exhausted
          rw [Demand.append, List.getElem?_append_right hfit, ← hfree]
          exact hc
      | stopped hfit' he =>
          exact .stopped (by simp only [Demand.append, List.length_append]; omega) he
      | done hfit' hstop' hnext' hfloor' hvars' =>
          refine .done (by simp only [Demand.append, List.length_append]; omega) hstop' ?_ ?_ ?_
          · simp only [Demand.append, varCount_append, hnext', hnext]
            omega
          · simp only [Demand.append, spillCount_append, hfloor', hfloor]
            omega
          · rw [hvars', hvars, hnext, Demand.append, bindings_append, List.append_assoc]

/-- A run out of RAM within the claims of `d` is one within those of any demand after it. -/
theorem Settles.exhausted_append {c : Claim} (hc : d.claims[g.free]? = some c) (d' : Demand) :
    Settles (α := α) (d.append d') g (.error (.ramExhausted c.owner)) := by
  have hlt : g.free < d.claims.length := (List.getElem?_eq_some_iff.1 hc).1
  apply Settles.exhausted
  rw [Demand.append, List.getElem?_append_left hlt]
  exact hc

end Settling

section Run

variable {α β : Type}

theorem run_bind_of_error {x : GenM α} {f : α → GenM β} {g : Gen} {e : CodegenError}
    (h : x g = .error e) : (x >>= f) g = .error e := by
  show StateT.bind x f g = _
  simp only [StateT.bind, h]
  rfl

theorem run_bind_of_ok {x : GenM α} {f : α → GenM β} {g g₁ : Gen} {a : α}
    (h : x g = .ok (a, g₁)) : (x >>= f) g = f a g₁ := by
  show StateT.bind x f g = _
  simp only [StateT.bind, h]
  rfl

theorem addressOf_run (name : Token) (g : Gen) :
    addressOf name g = match g.vars.lookup name.lexeme with
      | some addr => .ok (addr, g)
      | none => .error (.undefinedVariable name.lexeme) := by
  change (match g.vars.lookup name.lexeme with
      | some addr => (pure addr : GenM UInt8)
      | none => throw (CodegenError.undefinedVariable name.lexeme)) g = _
  cases g.vars.lookup name.lexeme <;> rfl

theorem allocate_run (owner : String) (g : Gen) :
    allocate owner g = if g.scratchFloor ≤ g.nextAddress then .error (.ramExhausted owner)
      else .ok (g.nextAddress.toUInt8, { g with nextAddress := g.nextAddress + 1 }) := by
  show (allocate owner).run g = _
  by_cases h : g.scratchFloor ≤ g.nextAddress
  · simp [allocate, h]
    rfl
  · simp [allocate, h]
    rfl

theorem allocateScratch_run (g : Gen) :
    allocateScratch g = if g.scratchFloor ≤ g.nextAddress then .error (.ramExhausted "temporary")
      else .ok ((g.scratchFloor - 1).toUInt8, { g with scratchFloor := g.scratchFloor - 1 }) := by
  show allocateScratch.run g = _
  by_cases h : g.scratchFloor ≤ g.nextAddress
  · simp [allocateScratch, h]
    rfl
  · simp [allocateScratch, h]
    rfl

theorem bind_run (name : String) (addr : UInt8) (g : Gen) :
    bind name addr g = .ok ((), { g with vars := (name, addr) :: g.vars }) := rfl

end Run

/-! ## Demands of the generator's steps -/

section Steps

variable {α β : Type} {x : GenM α} {f : α → GenM β} {d d' : List String → Demand}

/-- Demands compose along binds: the first step's claims, then the rest's in the scope that the
first step's variables extend. -/
theorem Follows.seq (hx : Follows x d) (hf : ∀ a, Follows (f a) d') :
    Follows (x >>= f) (Demand.seq d d') := by
  intro g
  have hg := hx g
  generalize hr : x g = r at hg
  cases hg with
  | exhausted hc =>
      rw [run_bind_of_error hr]
      cases hs : (d g.names).stop with
      | some e =>
          rw [Demand.seq_of_stop hs]
          exact .exhausted hc
      | none =>
          rw [Demand.seq_of_go hs]
          exact .exhausted_append hc _
  | stopped hfit he =>
      rw [run_bind_of_error hr, Demand.seq_of_stop he]
      exact .stopped hfit he
  | @done a g₁ hfit hstop hnext hfloor hvars =>
      rw [run_bind_of_ok hr, Demand.seq_of_go hstop]
      -- the rest starts in the scope extended by the variables just bound
      have hnames : g₁.names = (d g.names).scope g.names := by
        rw [Gen.names, hvars, List.map_append, bindings_names, Demand.scope, Gen.names]
      have h' := hf a g₁
      rw [hnames] at h'
      exact Settles.append (.done (a := a) hfit hstop hnext hfloor hvars) h'

/-- A step that claims nothing after another changes nothing in its demand. -/
theorem Follows.seq_nothing (hx : Follows x d) (hf : ∀ a, Follows (f a) fun _ => {}) :
    Follows (x >>= f) d := by
  simpa using hx.seq hf

theorem follows_pure (a : α) : Follows (pure a : GenM α) fun _ => {} :=
  fun g => .done (Nat.zero_le _) rfl (by simp) (by simp) (by simp)

theorem follows_throw (e : CodegenError) (h : ∀ o, e ≠ .ramExhausted o) :
    Follows (throw e : GenM α) fun _ => fail e h :=
  fun _ => .stopped (Nat.zero_le _) rfl

/-- Creating a label claims nothing. -/
theorem follows_freshLabel_bind {f : String → GenM β} (hf : ∀ l, Follows (f l) d) :
    Follows (freshLabel >>= f) d := by
  have h : Follows freshLabel fun _ => {} :=
    fun g => .done (Nat.zero_le _) rfl (by simp) (by simp) (by simp)
  simpa using h.seq hf

/-- Looking a variable up claims nothing, and fails when the name is not declared. -/
theorem follows_addressOf (name : Token) : Follows (addressOf name) (lookup name.lexeme) := by
  intro g
  rw [addressOf_run]
  cases hl : g.vars.lookup name.lexeme with
  | none =>
      have hnot : name.lexeme ∉ g.names := by
        intro hmem
        obtain ⟨p, hp, hfst⟩ := List.mem_map.1 hmem
        have := List.lookup_eq_none_iff.1 hl p hp
        simp [hfst] at this
      rw [lookup, if_neg hnot]
      exact .stopped (Nat.zero_le _) rfl
  | some addr =>
      have hin : name.lexeme ∈ g.names := by
        obtain ⟨p, hp, hname⟩ := List.lookup_isSome_iff.1 (by rw [hl]; rfl)
        exact List.mem_map.2 ⟨p, hp, (beq_iff_eq.1 hname).symm⟩
      rw [lookup, if_pos hin]
      exact .done (Nat.zero_le _) rfl (by simp) (by simp) (by simp)

/-- A spill claims the byte below the lowest spill, and fails when none is free. -/
theorem follows_allocateScratch : Follows allocateScratch fun _ => claim .spill := by
  intro g
  rw [allocateScratch_run]
  split
  · rename_i h
    exact .exhausted (c := .spill) (by simp [claim, Gen.free, Nat.sub_eq_zero_of_le h])
  · exact .done (by simp [claim, Gen.free]; omega) rfl (by simp [claim]) (by simp [claim])
      (by simp [claim, bindings_spill])

/-- Declaring a variable claims the next address and binds the name to it at once. -/
theorem follows_declare (n : String) :
    Follows (allocate n >>= fun a => bind n a >>= fun _ => pure a) fun _ => claim (.var n) := by
  intro g
  by_cases h : g.scratchFloor ≤ g.nextAddress
  · have hrun : allocate n g = .error (.ramExhausted n) := by rw [allocate_run, if_pos h]
    rw [run_bind_of_error hrun]
    exact .exhausted (c := .var n) (by simp [claim, Gen.free, Nat.sub_eq_zero_of_le h])
  · have hrun := allocate_run n g
    rw [if_neg h] at hrun
    rw [run_bind_of_ok hrun, run_bind_of_ok (bind_run _ _ _)]
    exact .done (by simp [claim, Gen.free]; omega) rfl (by simp [claim]) (by simp [claim])
      (by simp [claim, bindings_var])

end Steps

/-! ## Every run of code generation settles as demanded -/

/-- The operands of a binary operator: the first's claims, a spill unless the second is a leaf,
and the second's claims. -/
theorem operandsCode_follows {first second : GenM (List Line)} {df ds : List String → Demand}
    (hf : Follows first df) (hs : Follows second ds) (leaf : Bool) :
    Follows (operandsCode first second leaf) (seq df (seq (spillUnless leaf) ds)) := by
  refine hf.seq fun _ => ?_
  cases leaf with
  | true =>
      have hleaf : spillUnless true = fun _ => {} := rfl
      rw [hleaf, seq_nothing_left]
      exact hs.seq_nothing fun _ => follows_pure _
  | false =>
      exact follows_allocateScratch.seq fun _ => hs.seq_nothing fun _ => follows_pure _

/-- Turning a compare into a flag claims nothing. -/
theorem follows_compareCode (c : Condition) : Follows (compareCode c) fun _ => {} :=
  follows_freshLabel_bind fun _ => follows_pure _

/-- The code of every expression settles as its demand says. -/
theorem exprCode_follows (e : Expr) : Follows (exprCode e) (exprDemand e) := by
  induction e using exprCode.induct with
  | case1 text v hv =>
      simpa [exprCode, exprDemand, hv] using follows_pure [loadConst v]
  | case2 text hv =>
      simpa [exprCode, exprDemand, hv] using
        follows_throw (α := List Line) (.numberOutOfRange text) (by simp)
  | case3 b => exact follows_pure _
  | case4 => exact follows_throw _ (by simp)
  | case5 => exact follows_throw _ (by simp)
  | case6 => exact follows_pure _
  | case7 e ih => exact ih
  | case8 name => exact (follows_addressOf name).seq_nothing fun _ => follows_pure _
  | case9 name value ih =>
      exact (follows_addressOf name).seq fun _ => ih.seq_nothing fun _ => follows_pure _
  | case10 op operand ih =>
      refine ih.seq_nothing fun _ => ?_
      cases op with
      | neg => exact follows_pure _
      | bitNot => exact follows_pure _
      | not => exact follows_freshLabel_bind fun _ => follows_pure _
  | case11 op left right ihl ihr =>
      exact follows_freshLabel_bind fun _ =>
        ihl.seq fun _ => ihr.seq_nothing fun _ => follows_pure _
  | case12 op left right hord ih₁ ih₂ | case13 op left right hord ih₁ ih₂ =>
      -- the operands in the order they are computed; the operator itself claims nothing
      simp only [exprCode, exprDemand, hord, ↓reduceIte]
      refine (operandsCode_follows ih₁ ih₂ _).seq_nothing fun _ => ?_
      generalize lowering op = r
      cases r with
      | inl alu => exact follows_pure _
      | inr c => exact (follows_compareCode c).seq_nothing fun _ => follows_pure _

/-- A loop: its test, its body and its step, one after the other. -/
theorem loopCode_follows {cond step : Option (GenM (List Line))} {body : GenM (List Line)}
    {dc db ds : List String → Demand} (hc : Follows (cond.getD (pure [])) dc)
    (hb : Follows body db) (hs : Follows (step.getD (pure [])) ds) :
    Follows (loopCode cond body step) (seq dc (seq db ds)) := by
  rw [loopCode_eq]
  exact follows_freshLabel_bind fun _ => follows_freshLabel_bind fun _ =>
    hc.seq fun _ => hb.seq fun _ => hs.seq_nothing fun _ => follows_pure _

theorem optExprCode_follows (e : Option Expr) :
    Follows ((e.map exprCode).getD (pure [])) (optExprDemand e) := by
  cases e with
  | none => exact follows_pure _
  | some e => exact exprCode_follows e

mutual

/-- The code of every statement settles as its demand says. -/
theorem stmtCode_follows : (s : Stmt) → Follows (stmtCode s) (stmtDemand s)
  | .expr e => exprCode_follows e
  | .output e => (exprCode_follows e).seq_nothing fun _ => follows_pure _
  | .varDecl name init => by
      -- the variable is bound before its initial value is computed
      have hinit : ∀ addr : UInt8, Follows (match init with
          | some e => do
            let v ← exprCode e
            pure (v ++ [storeA addr])
          | none => pure []) (optExprDemand init) := by
        intro addr
        cases init with
        | none => exact follows_pure _
        | some e => exact (exprCode_follows e).seq_nothing fun _ => follows_pure _
      have h := (follows_declare name.lexeme).seq hinit
      simp only [bind_assoc, pure_bind] at h
      exact h
  | .block body => stmtsCode_follows body
  | .ifElse cond th el =>
      follows_freshLabel_bind fun _ => follows_freshLabel_bind fun _ =>
        (exprCode_follows cond).seq fun _ => (stmtCode_follows th).seq fun _ =>
          (optStmtCode_follows el).seq_nothing fun _ => follows_pure _
  | .whileLoop cond body => by
      have h := loopCode_follows
        (show Follows ((some (exprCode cond)).getD (pure [])) (exprDemand cond) from
          exprCode_follows cond)
        (stmtCode_follows body) (show Follows ((none : Option (GenM (List Line))).getD (pure []))
          fun _ => {} from follows_pure [])
      rw [seq_nothing_right] at h
      exact h
  | .forLoop init cond step body =>
      (optStmtCode_follows init).seq fun _ =>
        (loopCode_follows (optExprCode_follows cond) (stmtCode_follows body)
          (optExprCode_follows step)).seq_nothing fun _ => follows_pure _
  | .funDecl .. => follows_throw _ (by simp)
  | .returnStmt .. => follows_throw _ (by simp)

theorem optStmtCode_follows : (s : Option Stmt) → Follows (optStmtCode s) (optStmtDemand s)
  | some s => stmtCode_follows s
  | none => follows_pure _

theorem stmtsCode_follows : (ss : List Stmt) → Follows (stmtsCode ss) (stmtsDemand ss)
  | [] => follows_pure _
  | s :: rest =>
      (stmtCode_follows s).seq fun _ => (stmtsCode_follows rest).seq_nothing fun _ => follows_pure _

end

/-! ## Spill bytes in the generated code -/

/-- The RAM byte that a line addresses directly with `op`, if it is such a line. -/
def Line.slotOf (op : Op) : Line → Option UInt8
  | .instr o (.byte s) => if o = op then some s else none
  | _ => none

/-- The RAM bytes that code addresses directly with `op`, in the order of its lines. -/
def slotsOf (op : Op) (lines : List Line) : List UInt8 := lines.filterMap (Line.slotOf op)

/-- The `k` bytes below `top` from the top down, the `j`-th being `top - 1 - j`: the spill bytes
that one claim after another takes while the lowest spill goes down from `top`. -/
def spillBytes (top k : Nat) : List UInt8 := (List.range k).map fun j => (top - 1 - j).toUInt8

section Slots

variable (op : Op)

@[simp] theorem slotsOf_nil : slotsOf op [] = [] := rfl

@[simp] theorem slotsOf_cons (l : Line) (lines : List Line) :
    slotsOf op (l :: lines) = (l.slotOf op).toList ++ slotsOf op lines := by
  cases h : l.slotOf op <;> simp [slotsOf, h]

@[simp] theorem slotsOf_append (lines lines' : List Line) :
    slotsOf op (lines ++ lines') = slotsOf op lines ++ slotsOf op lines' :=
  List.filterMap_append

@[simp] theorem slotOf_label (n : String) : (Line.label n).slotOf op = none := rfl

@[simp] theorem slotOf_plain (o : Op) : (Line.plain o).slotOf op = none := rfl

@[simp] theorem slotOf_jumpTo (c : Condition) (n : String) : (jumpTo c n).slotOf op = none := rfl

@[simp] theorem slotOf_testA : testA.slotOf op = none := rfl

@[simp] theorem slotOf_loadConst (v : UInt8) :
    (loadConst v).slotOf op = if Op.loadImmediate .a = op then some v else none := rfl

@[simp] theorem slotOf_storeA (s : UInt8) :
    (storeA s).slotOf op = if Op.saveDirect .a = op then some s else none := rfl

@[simp] theorem slotOf_loadFrom (s : UInt8) (r : Register) :
    (loadFrom s r).slotOf op = if Op.loadDirect r = op then some s else none := rfl

end Slots

@[simp] theorem spillBytes_zero (top : Nat) : spillBytes top 0 = [] := rfl

@[simp] theorem spillBytes_one (top : Nat) : spillBytes top 1 = [(top - 1).toUInt8] := rfl

/-- Taking `m` spill bytes and then `n` more takes `m + n`. -/
theorem spillBytes_add (top m n : Nat) :
    spillBytes top (m + n) = spillBytes top m ++ spillBytes (top - m) n := by
  simp only [spillBytes, List.range_add, List.map_append, List.map_map]
  congr 2
  funext j
  simp only [Function.comp_apply]
  congr 1
  omega

/-- Spill bytes below a top within RAM lie at or above the lowest of them. -/
theorem le_toNat_of_mem_spillBytes {top k : Nat} {x : UInt8} (htop : top ≤ 256)
    (hx : x ∈ spillBytes top k) : top - k ≤ x.toNat := by
  obtain ⟨j, hj, rfl⟩ := List.mem_map.1 hx
  rw [List.mem_range] at hj
  simp
  omega

/-! ## Sound states -/

/-- A state that code generation can go on from: every variable's cell lies below the next
variable address, which lies at or below the lowest spill, which lies within RAM. -/
structure Gen.Sound (g : Gen) : Prop where
  vars_lt : ∀ p ∈ g.vars, p.2.toNat < g.nextAddress
  next_le : g.nextAddress ≤ g.scratchFloor
  floor_le : g.scratchFloor ≤ 256

theorem Gen.sound_empty : ({} : Gen).Sound := ⟨by simp, by decide, le_refl _⟩

section Sound

variable {g g₁ g₂ : Gen}

theorem freshLabel_sound {l : String} (h : freshLabel g = .ok (l, g₁)) (hg : g.Sound) :
    g₁.Sound := by
  cases h
  exact ⟨hg.vars_lt, hg.next_le, hg.floor_le⟩

/-- A variable's cell lies below the next variable address. -/
theorem addressOf_lt {name : Token} {addr : UInt8} (h : addressOf name g = .ok (addr, g₁))
    (hg : g.Sound) : g₁ = g ∧ addr.toNat < g.nextAddress := by
  rw [addressOf_run] at h
  cases hl : g.vars.lookup name.lexeme with
  | none =>
      rw [hl] at h
      cases h
  | some a =>
      rw [hl] at h
      cases h
      obtain ⟨l₁, l₂, hvars, -⟩ := List.lookup_eq_some_iff.1 hl
      exact ⟨rfl, hg.vars_lt (name.lexeme, addr) (by simp [hvars])⟩

/-- Declaring a variable takes the next address, below the lowest spill, and binds the name to
it. -/
theorem declare_sound {n : String} {addr : UInt8} {u : Unit} (ha : allocate n g = .ok (addr, g₁))
    (hb : bind n addr g₁ = .ok (u, g₂)) (hg : g.Sound) :
    g₂.Sound ∧ g₂.nextAddress = g.nextAddress + 1 ∧ g₂.scratchFloor = g.scratchFloor ∧
      addr.toNat = g.nextAddress := by
  rw [allocate_run] at ha
  split at ha
  · cases ha
  · rename_i hlt
    cases ha
    cases hb
    have hfloor := hg.floor_le
    have haddr : g.nextAddress.toUInt8.toNat = g.nextAddress := by
      simp
      omega
    refine ⟨⟨?_, ?_, hfloor⟩, rfl, rfl, haddr⟩
    · intro p hp
      rcases List.mem_cons.1 hp with rfl | hp
      · simp only [haddr]
        omega
      · exact Nat.lt_succ_of_lt (hg.vars_lt p hp)
    · show g.nextAddress + 1 ≤ g.scratchFloor
      omega

/-- A spill takes the byte below the lowest spill, which lies above the next variable address. -/
theorem allocateScratch_ok {s : UInt8} (h : allocateScratch g = .ok (s, g₁)) :
    g.nextAddress < g.scratchFloor ∧ s = (g.scratchFloor - 1).toUInt8 ∧
      g₁.nextAddress = g.nextAddress ∧ g₁.scratchFloor = g.scratchFloor - 1 := by
  rw [allocateScratch_run] at h
  split at h
  · cases h
  · rename_i hlt
    cases h
    exact ⟨by omega, rfl, rfl, rfl⟩

theorem allocateScratch_sound {s : UInt8} (h : allocateScratch g = .ok (s, g₁)) (hg : g.Sound) :
    g₁.Sound := by
  rw [allocateScratch_run] at h
  split at h
  · cases h
  · cases h
    exact ⟨hg.vars_lt, by show g.nextAddress ≤ g.scratchFloor - 1; omega,
      by show g.scratchFloor - 1 ≤ 256; have := hg.floor_le; omega⟩

end Sound

/-! ## Runs and their spills -/

/-- What a run from `g` to `g'` that generated `lines` did with RAM. It starts and ends sound, and
its spills took the bytes from `g`'s lowest spill down to `g'`'s. Its code stores A to those
bytes from the top down, in the order they were taken, and elsewhere only to bytes below the next
variable address; and it reads each of them back into B once. -/
structure Spills (g g' : Gen) (lines : List Line) : Prop where
  start : g.Sound
  finish : g'.Sound
  next_le : g.nextAddress ≤ g'.nextAddress
  floor_le : g'.scratchFloor ≤ g.scratchFloor
  stores : (slotsOf (.saveDirect .a) lines).filter (fun s => g'.nextAddress ≤ s.toNat) =
    spillBytes g.scratchFloor (g.scratchFloor - g'.scratchFloor)
  reloads : (slotsOf (.loadDirect .b) lines).Perm
    (spillBytes g.scratchFloor (g.scratchFloor - g'.scratchFloor))

namespace Spills

variable {g g₁ g' : Gen} {lines lines' : List Line}

/-- A run that takes no spill byte, reads none back and stores A only to variable cells. -/
theorem keep (hg : g.Sound) (hg' : g'.Sound) (hn : g.nextAddress ≤ g'.nextAddress)
    (hf : g'.scratchFloor = g.scratchFloor) (hr : slotsOf (.loadDirect .b) lines = [])
    (hs : ∀ s ∈ slotsOf (.saveDirect .a) lines, s.toNat < g'.nextAddress) :
    Spills g g' lines := by
  refine ⟨hg, hg', hn, hf.le, ?_, ?_⟩
  · rw [hf, Nat.sub_self, spillBytes_zero, List.filter_eq_nil_iff]
    intro s hmem hle
    have := hs s hmem
    simp only [decide_eq_true_eq] at hle
    omega
  · rw [hr, hf, Nat.sub_self, spillBytes_zero]

/-- Code that touches no RAM, generated without a change of state. -/
theorem none (hg : g.Sound) (hr : slotsOf (.loadDirect .b) lines = [])
    (hs : slotsOf (.saveDirect .a) lines = []) : Spills g g lines :=
  keep hg hg le_rfl rfl hr (by simp [hs])

/-- The store of A to a variable's cell. -/
theorem store {addr : UInt8} (hg : g.Sound) (h : addr.toNat < g.nextAddress) :
    Spills g g [storeA addr] :=
  keep hg hg le_rfl rfl (by simp) (by simp [h])

/-- Runs one after another. -/
theorem trans (h : Spills g g₁ lines) (h' : Spills g₁ g' lines') :
    Spills g g' (lines ++ lines') := by
  have hf₁ := h.floor_le
  have hf₂ := h'.floor_le
  -- the spill bytes of the whole run are those of the first run, then those of the second
  have hsplit : spillBytes g.scratchFloor (g.scratchFloor - g'.scratchFloor) =
      spillBytes g.scratchFloor (g.scratchFloor - g₁.scratchFloor) ++
        spillBytes g₁.scratchFloor (g₁.scratchFloor - g'.scratchFloor) := by
    rw [show g.scratchFloor - g'.scratchFloor =
        (g.scratchFloor - g₁.scratchFloor) + (g₁.scratchFloor - g'.scratchFloor) by omega,
      spillBytes_add, show g.scratchFloor - (g.scratchFloor - g₁.scratchFloor) = g₁.scratchFloor
        by omega]
  -- the first run's spill bytes lie above every variable cell of the second
  have hfirst : (slotsOf (.saveDirect .a) lines).filter (fun s => g'.nextAddress ≤ s.toNat) =
      spillBytes g.scratchFloor (g.scratchFloor - g₁.scratchFloor) := by
    have hn := h'.next_le
    have hfin := h'.finish.next_le
    have hsub : (slotsOf (.saveDirect .a) lines).filter (fun s => g'.nextAddress ≤ s.toNat) =
        ((slotsOf (.saveDirect .a) lines).filter (fun s => g₁.nextAddress ≤ s.toNat)).filter
          (fun s => g'.nextAddress ≤ s.toNat) := by
      rw [List.filter_filter]
      refine List.filter_congr fun s _ => ?_
      by_cases hs : g'.nextAddress ≤ s.toNat
      · simp [hs]
        omega
      · simp [hs]
    rw [hsub, h.stores, List.filter_eq_self]
    intro s hs
    have := le_toNat_of_mem_spillBytes h.start.floor_le hs
    simp only [decide_eq_true_eq]
    omega
  refine ⟨h.start, h'.finish, h.next_le.trans h'.next_le, hf₂.trans hf₁, ?_, ?_⟩
  · rw [slotsOf_append, List.filter_append, hfirst, h'.stores, hsplit]
  · rw [slotsOf_append, hsplit]
    exact h.reloads.append h'.reloads

/-- A run followed by code that touches no RAM. -/
theorem append_quiet (h : Spills g g' lines) (hr : slotsOf (.loadDirect .b) lines' = [])
    (hs : slotsOf (.saveDirect .a) lines' = []) : Spills g g' (lines ++ lines') :=
  h.trans (none h.finish hr hs)

/-- A run followed by the store of A to a variable's cell. -/
theorem append_store {addr : UInt8} (h : Spills g g' lines) (ha : addr.toNat < g'.nextAddress) :
    Spills g g' (lines ++ [storeA addr]) :=
  h.trans (store h.finish ha)

/-- A run from a state with the same lowest spill and a next variable address no lower. -/
theorem before (h : Spills g₁ g' lines) (hg : g.Sound) (hn : g.nextAddress ≤ g₁.nextAddress)
    (hf : g₁.scratchFloor = g.scratchFloor) : Spills g g' lines := by
  refine ⟨hg, h.finish, hn.trans h.next_le, hf ▸ h.floor_le, ?_, ?_⟩
  · rw [← hf]
    exact h.stores
  · rw [← hf]
    exact h.reloads

/-- The operands of a binary operator with a spill: the store of A to the byte the spill takes,
the second operand's code, and the reload of that byte into B. -/
theorem spill {s : UInt8} (hg : g.Sound) (hs : allocateScratch g = .ok (s, g₁))
    (h : Spills g₁ g' lines) : Spills g g' ([storeA s] ++ lines ++ [loadFrom s .b]) := by
  obtain ⟨hlt, rfl, hn, hf⟩ := allocateScratch_ok hs
  have hst := h.stores
  have hre := h.reloads
  have hfl := h.floor_le
  have hnl := h.next_le
  rw [hf] at hst hre hfl
  rw [hn] at hnl
  have hfin := h.finish.next_le
  have htop := hg.floor_le
  -- the spill byte is the top one of those the whole run takes
  have hsplit : spillBytes g.scratchFloor (g.scratchFloor - g'.scratchFloor) =
      [(g.scratchFloor - 1).toUInt8] ++
        spillBytes (g.scratchFloor - 1) (g.scratchFloor - 1 - g'.scratchFloor) := by
    rw [show g.scratchFloor - g'.scratchFloor = 1 + (g.scratchFloor - 1 - g'.scratchFloor) by
      omega, spillBytes_add, spillBytes_one]
  have hkeep : g'.nextAddress ≤ ((g.scratchFloor - 1).toUInt8).toNat := by
    simp
    omega
  refine ⟨hg, h.finish, hnl, by omega, ?_, ?_⟩
  · have hs : slotsOf (.saveDirect .a) [storeA (g.scratchFloor - 1).toUInt8] =
        [(g.scratchFloor - 1).toUInt8] := by simp
    have hl : slotsOf (.saveDirect .a) [loadFrom (g.scratchFloor - 1).toUInt8 .b] = [] := by simp
    rw [slotsOf_append, slotsOf_append, List.filter_append, List.filter_append, hst, hsplit, hs, hl]
    simp only [List.filter_cons, hkeep, decide_true, ite_true, List.filter_nil, List.append_nil]
  · rw [slotsOf_append, slotsOf_append, hsplit]
    simp only [slotsOf_cons, slotOf_storeA, slotOf_loadFrom, slotsOf_nil, reduceCtorEq,
      if_false, if_true, Option.toList_none, Option.toList_some, List.nil_append,
      List.singleton_append, List.append_nil]
    exact (List.perm_append_singleton _ _).trans (hre.cons _)

end Spills

/-- Creating a label leaves RAM as it is. -/
theorem freshLabel_spills {g g₁ g' : Gen} {l : String} {lines : List Line}
    (h : freshLabel g = .ok (l, g₁)) (hg : g.Sound) (h' : Spills g₁ g' lines) :
    Spills g g' lines := by
  cases h
  exact h'.before hg le_rfl rfl

/-- Every run of `x` from a sound state is as `Spills` says. -/
def Spilling (x : GenM (List Line)) : Prop :=
  ∀ ⦃g g' : Gen⦄ ⦃lines : List Line⦄, g.Sound → x g = .ok (lines, g') → Spills g g' lines

theorem spilling_pure {lines : List Line} (hr : slotsOf (.loadDirect .b) lines = [])
    (hs : slotsOf (.saveDirect .a) lines = []) : Spilling (pure lines) := by
  intro g g' ls hg hrun
  obtain ⟨rfl, rfl⟩ := run_pure_eq_ok.1 hrun
  exact .none hg hr hs

theorem spilling_throw {e : CodegenError} : Spilling (throw e) :=
  fun _ _ _ _ h => absurd h run_throw

theorem operandsCode_spilling {first second : GenM (List Line)} (hfirst : Spilling first)
    (hsecond : Spilling second) (leaf : Bool) : Spilling (operandsCode first second leaf) := by
  intro g g' lines hg h
  simp only [operandsCode] at h
  obtain ⟨a, g1, ha, h⟩ := run_bind_eq_ok.1 h
  have hA := hfirst hg ha
  cases leaf with
  | true =>
      obtain ⟨b, g2, hb, h⟩ := run_bind_eq_ok.1 h
      obtain ⟨rfl, rfl⟩ := run_pure_eq_ok.1 h
      exact (hA.append_quiet (by simp) (by simp)).trans (hsecond hA.finish hb)
  | false =>
      obtain ⟨s, g2, hs, h⟩ := run_bind_eq_ok.1 h
      obtain ⟨b, g3, hb, h⟩ := run_bind_eq_ok.1 h
      obtain ⟨rfl, rfl⟩ := run_pure_eq_ok.1 h
      have hB := hsecond (allocateScratch_sound hs hA.finish) hb
      simpa only [List.append_assoc] using hA.trans (Spills.spill hA.finish hs hB)

theorem compareCode_spilling (c : Condition) : Spilling (compareCode c) := by
  intro g g' lines hg h
  obtain ⟨skip, g1, hskip, h⟩ := run_bind_eq_ok.1 h
  obtain ⟨rfl, rfl⟩ := run_pure_eq_ok.1 h
  exact freshLabel_spills hskip hg (.none (freshLabel_sound hskip hg) (by simp) (by simp))

/-- The code of every expression does with RAM what `Spills` says. -/
theorem exprCode_spilling (e : Expr) : Spilling (exprCode e) := by
  induction e using exprCode.induct with
  | case1 text v hv =>
      simp only [exprCode, hv]
      exact spilling_pure (by simp) (by simp)
  | case2 text hv =>
      simp only [exprCode, hv]
      exact spilling_throw
  | case3 b => exact spilling_pure (by simp) (by simp)
  | case4 => exact spilling_throw
  | case5 => exact spilling_throw
  | case6 => exact spilling_pure (by simp) (by simp)
  | case7 e ih => exact ih
  | case8 name =>
      intro g g' lines hg h
      obtain ⟨addr, g1, haddr, h⟩ := run_bind_eq_ok.1 h
      obtain ⟨rfl, rfl⟩ := run_pure_eq_ok.1 h
      obtain ⟨rfl, -⟩ := addressOf_lt haddr hg
      exact .none hg (by simp) (by simp)
  | case9 name value ih =>
      intro g g' lines hg h
      obtain ⟨addr, g1, haddr, h⟩ := run_bind_eq_ok.1 h
      obtain ⟨v, g2, hv, h⟩ := run_bind_eq_ok.1 h
      obtain ⟨rfl, rfl⟩ := run_pure_eq_ok.1 h
      obtain ⟨rfl, hlt⟩ := addressOf_lt haddr hg
      have hV := ih hg hv
      exact hV.append_store (hlt.trans_le hV.next_le)
  | case10 op operand ih =>
      intro g g' lines hg h
      obtain ⟨v, g1, hv, h⟩ := run_bind_eq_ok.1 h
      have hV := ih hg hv
      cases op with
      | neg =>
          obtain ⟨rfl, rfl⟩ := run_pure_eq_ok.1 h
          exact hV.append_quiet (by simp) (by simp)
      | bitNot =>
          obtain ⟨rfl, rfl⟩ := run_pure_eq_ok.1 h
          exact hV.append_quiet (by simp) (by simp)
      | not =>
          obtain ⟨skip, g2, hskip, h⟩ := run_bind_eq_ok.1 h
          obtain ⟨rfl, rfl⟩ := run_pure_eq_ok.1 h
          exact hV.trans (freshLabel_spills hskip hV.finish
            (.none (freshLabel_sound hskip hV.finish) (by simp) (by simp)))
  | case11 op left right ihl ihr =>
      intro g g' lines hg h
      obtain ⟨done, g1, hdone, h⟩ := run_bind_eq_ok.1 h
      obtain ⟨l, g2, hl, h⟩ := run_bind_eq_ok.1 h
      obtain ⟨r, g3, hr, h⟩ := run_bind_eq_ok.1 h
      obtain ⟨rfl, rfl⟩ := run_pure_eq_ok.1 h
      have hL := freshLabel_spills hdone hg (ihl (freshLabel_sound hdone hg) hl)
      exact ((hL.append_quiet (by simp) (by simp)).trans (ihr hL.finish hr)).append_quiet
        (by simp) (by simp)
  | case12 op left right hord ih₁ ih₂ | case13 op left right hord ih₁ ih₂ =>
      intro g g' lines hg h
      simp only [exprCode, hord, ↓reduceIte] at h
      obtain ⟨ops, g1, hops, h⟩ := run_bind_eq_ok.1 h
      have hO := operandsCode_spilling ih₁ ih₂ _ hg hops
      cases hlow : lowering op with
      | inl alu =>
          rw [hlow] at h
          obtain ⟨rfl, rfl⟩ := run_pure_eq_ok.1 h
          exact hO.append_quiet (by simp) (by simp)
      | inr c =>
          rw [hlow] at h
          obtain ⟨cmp, g2, hcmp, h⟩ := run_bind_eq_ok.1 h
          obtain ⟨rfl, rfl⟩ := run_pure_eq_ok.1 h
          exact hO.trans (compareCode_spilling c hO.finish hcmp)

/-- A loop does with RAM what its test, body and step do. -/
theorem loopCode_spilling {cond step : Option (GenM (List Line))} {body : GenM (List Line)}
    (hcond : ∀ c ∈ cond, Spilling c) (hbody : Spilling body) (hstep : ∀ st ∈ step, Spilling st) :
    Spilling (loopCode cond body step) := by
  -- an absent test or step is the empty code
  have hopt : ∀ o : Option (GenM (List Line)), (∀ x ∈ o, Spilling x) →
      Spilling (o.getD (pure [])) := by
    rintro (_ | x) hx
    · exact spilling_pure rfl rfl
    · exact hx x rfl
  intro g g' lines hg h
  rw [loopCode_eq] at h
  obtain ⟨start, g1, hstart, h⟩ := run_bind_eq_ok.1 h
  obtain ⟨done, g2, hdone, h⟩ := run_bind_eq_ok.1 h
  obtain ⟨code, g3, hcode, h⟩ := run_bind_eq_ok.1 h
  obtain ⟨b, g4, hb, h⟩ := run_bind_eq_ok.1 h
  obtain ⟨s, g5, hs, h⟩ := run_bind_eq_ok.1 h
  obtain ⟨rfl, rfl⟩ := run_pure_eq_ok.1 h
  have hg1 := freshLabel_sound hstart hg
  have hC := freshLabel_spills hstart hg
    (freshLabel_spills hdone hg1 (hopt cond hcond (freshLabel_sound hdone hg1) hcode))
  have htest : slotsOf (.loadDirect .b) (if cond.isSome then [testA, jumpTo .equal done] else []) =
      [] ∧ slotsOf (.saveDirect .a) (if cond.isSome then [testA, jumpTo .equal done] else []) =
      [] := by
    split <;> simp
  have hB := hbody (hC.finish) hb
  have hS := hopt step hstep hB.finish hs
  exact ((((Spills.none hg (by simp) (by simp)).trans (hC.append_quiet htest.1 htest.2)).trans
    hB).trans hS).append_quiet (by simp) (by simp)

mutual

/-- The code of every statement does with RAM what `Spills` says. -/
theorem stmtCode_spilling : (s : Stmt) → Spilling (stmtCode s)
  | .expr e => exprCode_spilling e
  | .output e => by
      intro g g' lines hg h
      obtain ⟨v, g1, hv, h⟩ := run_bind_eq_ok.1 h
      obtain ⟨rfl, rfl⟩ := run_pure_eq_ok.1 h
      exact (exprCode_spilling e hg hv).append_quiet (by simp) (by simp)
  | .varDecl name init => by
      intro g g' lines hg h
      obtain ⟨addr, g1, haddr, h⟩ := run_bind_eq_ok.1 h
      obtain ⟨u, g2, hbind, h⟩ := run_bind_eq_ok.1 h
      obtain ⟨hg2, hnext, hfloor, haddrNat⟩ := declare_sound haddr hbind hg
      cases init with
      | none =>
          obtain ⟨rfl, rfl⟩ := run_pure_eq_ok.1 h
          exact .keep hg hg2 (by omega) hfloor rfl (by simp)
      | some e =>
          obtain ⟨v, g3, hv, h⟩ := run_bind_eq_ok.1 h
          obtain ⟨rfl, rfl⟩ := run_pure_eq_ok.1 h
          -- the cell lies below the next variable address from the declaration on
          have hV := exprCode_spilling e hg2 hv
          have hle := hV.next_le
          exact (hV.before hg (by omega) hfloor).append_store (by omega)
  | .block body => stmtsCode_spilling body
  | .ifElse cond th el => by
      intro g g' lines hg h
      obtain ⟨elseLabel, g1, helse, h⟩ := run_bind_eq_ok.1 h
      obtain ⟨endLabel, g2, hend, h⟩ := run_bind_eq_ok.1 h
      obtain ⟨c, g3, hc, h⟩ := run_bind_eq_ok.1 h
      obtain ⟨t, g4, ht, h⟩ := run_bind_eq_ok.1 h
      obtain ⟨e, g5, he, h⟩ := run_bind_eq_ok.1 h
      obtain ⟨rfl, rfl⟩ := run_pure_eq_ok.1 h
      have hg1 := freshLabel_sound helse hg
      have hC := freshLabel_spills helse hg
        (freshLabel_spills hend hg1 (exprCode_spilling cond (freshLabel_sound hend hg1) hc))
      have hT := stmtCode_spilling th hC.finish ht
      have hE := optStmtCode_spilling el hT.finish he
      exact ((((hC.append_quiet (by simp) (by simp)).trans hT).append_quiet (by simp)
        (by simp)).trans hE).append_quiet (by simp) (by simp)
  | .whileLoop cond body =>
      loopCode_spilling (by simpa using exprCode_spilling cond) (stmtCode_spilling body) (by simp)
  | .forLoop init cond step body => by
      intro g g' lines hg h
      obtain ⟨i, g1, hi, h⟩ := run_bind_eq_ok.1 h
      obtain ⟨l, g2, hl, h⟩ := run_bind_eq_ok.1 h
      obtain ⟨rfl, rfl⟩ := run_pure_eq_ok.1 h
      have hL : Spilling (loopCode (cond.map exprCode) (stmtCode body) (step.map exprCode)) :=
        loopCode_spilling (by simp [exprCode_spilling]) (stmtCode_spilling body)
          (by simp [exprCode_spilling])
      have hI := optStmtCode_spilling init hg hi
      exact hI.trans (hL hI.finish hl)
  | .funDecl .. => spilling_throw
  | .returnStmt .. => spilling_throw

theorem optStmtCode_spilling : (s : Option Stmt) → Spilling (optStmtCode s)
  | some s => stmtCode_spilling s
  | none => spilling_pure rfl rfl

theorem stmtsCode_spilling : (ss : List Stmt) → Spilling (stmtsCode ss)
  | [] => spilling_pure rfl rfl
  | s :: rest => by
      intro g g' lines hg h
      obtain ⟨a, g1, ha, h⟩ := run_bind_eq_ok.1 h
      obtain ⟨b, g2, hb, h⟩ := run_bind_eq_ok.1 h
      obtain ⟨rfl, rfl⟩ := run_pure_eq_ok.1 h
      have hA := stmtCode_spilling s hg ha
      exact hA.trans (stmtsCode_spilling rest hA.finish hb)

end

/-! ## A whole program -/

/-- Code generation fails with an error exactly when its statements do. -/
theorem generate_eq_error (program : List Stmt) (e : CodegenError) :
    generate program = .error e ↔ (stmtsCode program).run {} = .error e := by
  rw [generate]
  cases (stmtsCode program).run {} with
  | error e' =>
      constructor
      · intro h
        cases h
        rfl
      · intro h
        cases h
        rfl
  | ok p =>
      constructor
      · intro h
        cases h
      · intro h
        cases h

/-- No two claims of a program that fits in RAM share an address: the variables take the bytes
from 0 up and the spills the bytes from 255 down. -/
theorem addresses_nodup (cs : List Claim) (h : cs.length ≤ 256) :
    ((bindings cs 0).map Prod.snd ++ spillBytes 256 (spillCount cs)).Nodup := by
  have hcount := varCount_add_spillCount cs
  -- a byte below 256 is the number it is made from
  have hinj : ∀ x < 256, ∀ y < 256, x.toUInt8 = y.toUInt8 → x = y := by
    intro x hx y hy hxy
    have := congrArg UInt8.toNat hxy
    simp at this
    omega
  rw [bindings_addresses, List.nodup_append]
  refine ⟨?_, ?_, ?_⟩
  · rw [List.nodup_reverse]
    refine List.Nodup.map_on (fun x hx y hy => hinj x ?_ y ?_) List.nodup_range'
    · have := List.mem_range'_1.1 hx
      omega
    · have := List.mem_range'_1.1 hy
      omega
  · refine List.Nodup.map_on (fun x hx y hy hxy => ?_) List.nodup_range
    rw [List.mem_range] at hx hy
    have := hinj _ (by omega) _ (by omega) hxy
    omega
  · intro a ha b hb hab
    subst hab
    have hlow := le_toNat_of_mem_spillBytes le_rfl hb
    obtain ⟨x, hx, rfl⟩ := List.mem_map.1 (List.mem_reverse.1 ha)
    have := List.mem_range'_1.1 hx
    simp at hlow
    omega

/-- RAM claims are disjoint and run out exactly at the 257th. List the claims that generating a
program makes, in the order it walks the program, up to the first error of another kind.
Generation fails for lack of RAM exactly when there is a 257th claim, and the error names that
claim's owner. Otherwise it stops at the other error if there is one. If not, it succeeds: the
`i`-th variable claimed is bound to address `i`, the `j`-th spill takes byte `255 - j`, and no
two claims share an address. The code stores A to the spill bytes in the order they were taken,
elsewhere only to variable cells, and reads each spill byte back into B once. -/
theorem ram_claims_exhaust_at_256 (program : List Stmt) :
    let d := stmtsDemand program []
    (∀ o, generate program = .error (.ramExhausted o) ↔
        ∃ c, d.claims[256]? = some c ∧ c.owner = o) ∧
      (d.claims.length ≤ 256 → ∀ e, d.stop = some e → generate program = .error e) ∧
      (d.claims.length ≤ 256 → d.stop = none →
        ∃ lines g, (stmtsCode program).run {} = .ok (lines, g) ∧
          g.vars = bindings d.claims 0 ∧
          ((bindings d.claims 0).map Prod.snd ++ spillBytes 256 (spillCount d.claims)).Nodup ∧
          (slotsOf (.saveDirect .a) lines).filter (fun s => varCount d.claims ≤ s.toNat) =
            spillBytes 256 (spillCount d.claims) ∧
          (slotsOf (.loadDirect .b) lines).Perm (spillBytes 256 (spillCount d.claims))) := by
  intro d
  have hcount := varCount_add_spillCount d.claims
  -- from the initial state 256 bytes are free and no name is declared
  have hset : Settles d {} ((stmtsCode program).run {}) := stmtsCode_follows program {}
  have hfree : Gen.free {} = 256 := rfl
  generalize hr : (stmtsCode program).run {} = r at hset
  cases hset with
  | exhausted hc =>
      -- a 257th claim: the run fails there
      rw [hfree] at hc
      have hlong : 256 < d.claims.length := (List.getElem?_eq_some_iff.1 hc).1
      refine ⟨fun o => ?_, fun hle => absurd hle (by omega), fun hle => absurd hle (by omega)⟩
      rw [generate_eq_error, hr]
      constructor
      · intro h
        exact ⟨_, hc, (CodegenError.ramExhausted.inj (Except.error.inj h))⟩
      · rintro ⟨c', hc', rfl⟩
        rw [hc] at hc'
        cases hc'
        rfl
  | stopped hfit he =>
      -- at most 256 claims, and another error
      rw [hfree] at hfit
      have hnone : d.claims[256]? = none := List.getElem?_eq_none hfit
      refine ⟨fun o => ?_, fun _ e' he' => ?_, fun _ hstop => ?_⟩
      · rw [generate_eq_error, hr, hnone]
        constructor
        · intro h
          exact absurd (he.trans (congrArg some (Except.error.inj h))) (d.stop_ne o)
        · rintro ⟨_, h, _⟩
          cases h
      · rw [generate_eq_error, hr, ← Option.some.inj (he.symm.trans he')]
      · rw [he] at hstop
        cases hstop
  | @done lines g hfit hstop hnext hfloor hvars =>
      -- at most 256 claims, and the run succeeds
      rw [hfree] at hfit
      have hnone : d.claims[256]? = none := List.getElem?_eq_none hfit
      refine ⟨fun o => ?_, fun _ e he => ?_, fun _ _ => ?_⟩
      · rw [generate_eq_error, hr, hnone]
        constructor
        · intro h
          cases h
        · rintro ⟨_, h, _⟩
          cases h
      · rw [hstop] at he
        cases he
      · -- the run took the bytes from 255 down to the final lowest spill
        have hspill := stmtsCode_spilling program Gen.sound_empty hr
        have hst := hspill.stores
        have hre := hspill.reloads
        have hnext' : g.nextAddress = varCount d.claims := by simpa using hnext
        have hfloor' : g.scratchFloor = 256 - spillCount d.claims := hfloor
        have hk : ({} : Gen).scratchFloor - g.scratchFloor = spillCount d.claims := by
          show 256 - g.scratchFloor = _
          omega
        rw [hk, hnext'] at hst
        rw [hk] at hre
        exact ⟨lines, g, rfl, by simpa using hvars, addresses_nodup d.claims hfit, hst, hre⟩

end ByteMachine.Compiler
