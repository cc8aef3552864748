import NexusTask.Config
import NexusTask.Executor.Retries

/-!
# `TaskChain`

`execute` submits a task for each step. The task of a step other than the first depends on the one
before, and its lambda calls the step with an empty `TaskResult`. An `Execution` is a call of
`execute` and the executor it is made on, whose other clients, scheduler and workers go on
meanwhile. A task's function is the lambda it was submitted with, so what the steps of the chain are
called with and return is read off the functions the executor has started, and those that have
returned.
-/

set_option autoImplicit false

namespace NexusTask

/-- `std::any`: empty, or a value. -/
abbrev TaskResult (α : Type) := Option α

variable {α : Type}

/-- What `then` accepts. -/
inductive StepFunction (α : Type)
  /-- Invocable with a `TaskResult`. -/
  | invocable (func : TaskResult α → TaskResult α)
  | nullary (func : TaskResult α)

/-- The lambda that `then` stores. -/
def StepFunction.wrapped : StepFunction α → TaskResult α → TaskResult α
  | .invocable func => func
  | .nullary func => fun _ => func

/-- A lambda that `execute` submits: what it calls, and with what. -/
structure Closure (α : Type) where
  func : TaskResult α → TaskResult α
  input : TaskResult α

def Closure.call (f : Closure α) : TaskResult α := f.func f.input

/-- An entry of `steps_`. -/
structure ChainStep (α : Type) where
  func : TaskResult α → TaskResult α
  name : Text

namespace ChainStep

variable (step : ChainStep α)

/-- What the lambda of step `i` passes: the first captures the initial input, and the others pass
`{}`. -/
def input (initialInput : TaskResult α) (i : Nat) : TaskResult α :=
  if i = 0 then initialInput else none

def closure (initialInput : TaskResult α) (i : Nat) : Closure α :=
  { func := step.func, input := input initialInput i }

def taskName (i : Nat) : Text :=
  if step.name = [] then "ChainStep_".toList ++ Nat.toDigits 10 i else step.name

end ChainStep

/-- A call of `submit`, or of `submit_with_dependencies`. -/
structure Submission (α : Type) where
  closure : Closure α
  name : Text
  dependencies : Option (List TaskId)

def Submission.call (s : Submission α) : Executor.Call :=
  match s.dependencies with
  | none => .submit {}
  | some deps => .submitWithDependencies {} deps

structure TaskChain (α : Type) where
  steps : List (ChainStep α)

namespace TaskChain

def new : TaskChain α := { steps := [] }

/-- `then`, a word that Lean keeps to itself. -/
def andThen (chain : TaskChain α) (func : StepFunction α) (name : Text := []) : TaskChain α :=
  { steps := chain.steps ++ [{ func := func.wrapped, name }] }

def clear (_ : TaskChain α) : TaskChain α := new

/-- Round `i` of the loop, `currentId` being the id that the round before returned. -/
def submission (chain : TaskChain α) (initialInput : TaskResult α) (i : Nat) (currentId : TaskId) :
    Option (Submission α) :=
  chain.steps[i]?.map fun step =>
    { closure := step.closure initialInput i
      name := step.taskName i
      dependencies := if i = 0 then none else some [currentId] }

end TaskChain

open Transition
open Executor (Action)

variable {m n : Nat}

/-- A call of `execute` by one of the clients of an executor, and the `m` others. -/
structure Execution (m n : Nat) where
  exec : Executor.State (m + 1) n
  /-- The ids of the tasks submitted so far. -/
  tasks : List TaskId

namespace Execution

/-- The client that calls `execute`. -/
def caller : Fin (m + 1) := ⟨0, Nat.succ_pos m⟩

inductive Event (m n : Nat)
  /-- The loop calls the executor. -/
  | submit
  | exec (a : Action (m + 1) n)

/-- A call that the caller does not make of itself. -/
def isForeign : Action (m + 1) n → Bool
  | .call c _ => c == caller
  | _ => false

/-- The last id returned. Without one it is 0, and so it is returned from an empty chain. -/
def currentId (p : Execution m n) : TaskId := p.tasks.getLastD 0

/-- The id that the caller's next step gets from `next_task_id_`. -/
def newTasks (p : Execution m n) : Action (m + 1) n → List TaskId
  | .client c _ =>
      match p.exec.clients c with
      | .newTask _ _ _ => if c = caller then [p.exec.nextTaskId] else []
      | _ => []
  | _ => []

def step (chain : TaskChain α) (initialInput : TaskResult α) (p : Execution m n) :
    Event m n → Option (Execution m n)
  | .submit =>
      (chain.submission initialInput p.tasks.length p.currentId).bind fun submission =>
        (Executor.step p.exec (.call caller submission.call)).map fun exec => { p with exec }
  | .exec a =>
      if isForeign a then none
      else (Executor.step p.exec a).map fun exec => { exec, tasks := p.tasks ++ p.newTasks a }

/-- On an executor just constructed. -/
def start (m n : Nat) : Execution m n := { exec := Executor.start (m + 1) n, tasks := [] }

/-- The step that the function of `u` calls, and what it calls it with. -/
def invocation (chain : TaskChain α) (initialInput : TaskResult α) (p : Execution m n)
    (u : TaskId) : Option (Nat × Closure α) :=
  if u ∈ p.tasks then
    chain.steps[p.tasks.idxOf u]?.map fun step =>
      (p.tasks.idxOf u, step.closure initialInput (p.tasks.idxOf u))
  else none

/-- The calls of the steps, in the order in which they were made. -/
def calls (chain : TaskChain α) (initialInput : TaskResult α) (p : Execution m n) :
    List (Nat × TaskResult α) :=
  p.exec.started.filterMap fun u =>
    (p.invocation chain initialInput u).map fun call => (call.1, call.2.input)

/-- What the steps have returned. -/
def results (chain : TaskChain α) (initialInput : TaskResult α) (p : Execution m n) :
    List (Nat × TaskResult α) :=
  p.exec.returned.filterMap fun u =>
    (p.invocation chain initialInput u).map fun call => (call.1, call.2.call)

end Execution
end NexusTask
