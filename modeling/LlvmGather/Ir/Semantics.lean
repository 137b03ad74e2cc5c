import LlvmGather.Ir.Core

/-!
What a function does when it runs. The meaning of single instructions is a parameter;
blocks are executed one at a time: the phis together, then the other instructions in
order, then the terminator. A run records the instructions that can be observed.
-/

namespace LlvmGather

/-- The meaning of constants, instructions and branches. An instruction without a
result has undefined behaviour on the given operands. -/
structure Semantics (Val World : Type) where
  const : Nat → Val
  exec : Inst → List Val → World → Option (Val × World)
  branch : Inst → List Val → World → Option Nat

structure Event (Val : Type) where
  id : Nat
  operands : List Val
  target : Option Nat

structure State (Val World : Type) where
  block : Nat
  prev : Option Nat
  env : Nat → Val
  world : World

inductive Outcome (Val World : Type)
  | running (state : State Val World)
  | returned (values : List Val)
  | undefined

def Inst.isObserved (inst : Inst) : Bool :=
  inst.isTerminator || inst.isLandingPad || inst.mayHaveSideEffects

def Func.phis (F : Func) (block : Nat) : List Inst := (F.insts block).filter Inst.isPhi

def Func.body (F : Func) (block : Nat) : List Inst :=
  (F.insts block).dropLast.filter fun inst => !inst.isPhi

section Execution

variable {Val World : Type} (sem : Semantics Val World) (args : Nat → Val)

def evalValue (env : Nat → Val) : Value → Val
  | .inst id => env id
  | .arg index => args index
  | .const id => sem.const id

def operandValues (inst : Inst) (env : Nat → Val) : List Val :=
  inst.operands.map (evalValue sem args env)

def observe (inst : Inst) (values : List Val) (target : Option Nat) : List (Event Val) :=
  if inst.isObserved then [⟨inst.id, values, target⟩] else []

def phiValue (prev : Option Nat) (env : Nat → Val) (inst : Inst) : Option Val :=
  match inst.incoming.find? (some ·.2 = prev) with
  | some entry => some (evalValue sem args env entry.1)
  | none => none

def assignPhis (prev : Option Nat) (old : Nat → Val) : List Inst → (Nat → Val) → Option (Nat → Val)
  | [], env => some env
  | inst :: rest, env =>
      match phiValue sem args prev old inst with
      | some value => assignPhis prev old rest (Function.update env inst.id value)
      | none => none

def execInst (inst : Inst) (memory : (Nat → Val) × World) :
    List (Event Val) × Option ((Nat → Val) × World) :=
  let values := operandValues sem args inst memory.1
  (observe inst values none, (sem.exec inst values memory.2).map fun result =>
    (Function.update memory.1 inst.id result.1, result.2))

def execInsts : List Inst → (Nat → Val) × World →
    List (Event Val) × Option ((Nat → Val) × World)
  | [], memory => ([], some memory)
  | inst :: rest, memory =>
      match (execInst sem args inst memory).2 with
      | some next =>
          ((execInst sem args inst memory).1 ++ (execInsts rest next).1, (execInsts rest next).2)
      | none => ((execInst sem args inst memory).1, none)

def execTerminator (block : Nat) (last : Inst) (memory : (Nat → Val) × World) :
    List (Event Val) × Outcome Val World :=
  let values := operandValues sem args last memory.1
  match sem.exec last values memory.2 with
  | none => (observe last values none, .undefined)
  | some (value, world) =>
      if last.isReturn then (observe last values none, .returned values)
      else
        match sem.branch last values memory.2 with
        | some target =>
            if target ∈ last.targets then
              (observe last values (some target),
                .running ⟨target, some block, Function.update memory.1 last.id value, world⟩)
            else (observe last values none, .undefined)
        | none => (observe last values none, .undefined)

def execBody (block : Nat) (body : List Inst) (last : Option Inst)
    (memory : (Nat → Val) × World) : List (Event Val) × Outcome Val World :=
  match (execInsts sem args body memory).2, last with
  | some next, some last =>
      ((execInsts sem args body memory).1 ++ (execTerminator sem args block last next).1,
        (execTerminator sem args block last next).2)
  | _, _ => ((execInsts sem args body memory).1, .undefined)

def runBlock (F : Func) (state : State Val World) : List (Event Val) × Outcome Val World :=
  match assignPhis sem args state.prev state.env (F.phis state.block) state.env with
  | some env =>
      execBody sem args state.block (F.body state.block) (F.getTerminator state.block)
        (env, state.world)
  | none => ([], .undefined)

def run (F : Func) : Nat → State Val World → List (Event Val) × Outcome Val World
  | 0, state => ([], .running state)
  | fuel + 1, state =>
      match (runBlock sem args F state).2 with
      | .running next =>
          ((runBlock sem args F state).1 ++ (run F fuel next).1, (run F fuel next).2)
      | outcome => ((runBlock sem args F state).1, outcome)

end Execution

def State.start {Val World : Type} (F : Func) (env : Nat → Val) (world : World) :
    State Val World :=
  ⟨F.entry, none, env, world⟩

inductive Outcome.Same {Val World : Type} : Outcome Val World → Outcome Val World → Prop
  | running {left right : State Val World} : left.block = right.block → left.world = right.world →
      Outcome.Same (.running left) (.running right)
  | returned {values : List Val} : Outcome.Same (.returned values) (.returned values)
  | undefined : Outcome.Same .undefined .undefined

/-- The transformed function does the same as the original, for every number of blocks. -/
def Preserves {Val World : Type} (sem : Semantics Val World) (F G : Func) : Prop :=
  ∀ args env world fuel,
    (run sem args F fuel (.start F env world)).1 = (run sem args G fuel (.start G env world)).1 ∧
    Outcome.Same (run sem args F fuel (.start F env world)).2
      (run sem args G fuel (.start G env world)).2

/-- The transformed function does the same as the original as long as the behaviour of
the original is defined, and has done the same up to the point where it stops being so. -/
def Refines {Val World : Type} (sem : Semantics Val World) (F G : Func) : Prop :=
  ∀ args env world fuel,
    ((run sem args F fuel (.start F env world)).1 = (run sem args G fuel (.start G env world)).1 ∧
      Outcome.Same (run sem args F fuel (.start F env world)).2
        (run sem args G fuel (.start G env world)).2) ∨
    ((run sem args F fuel (.start F env world)).2 = .undefined ∧
      (run sem args F fuel (.start F env world)).1 <+:
        (run sem args G fuel (.start G env world)).1)

def sampleSemantics : Semantics Nat (List Nat) where
  const id := id
  exec inst values world :=
    some (values.sum, if inst.mayHaveSideEffects then values ++ world else world)
  branch inst values _ := if values.headD 0 = 0 then inst.targets.getLast? else inst.targets.head?

end LlvmGather
