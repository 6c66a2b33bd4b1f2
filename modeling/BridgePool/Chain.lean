import BridgePool.Bridge.Answer
import BridgePool.Bridge.Execute
import BridgePool.Bridge.Setup

/-!
# The bridge on its host

The host runs one call after the other and keeps nothing of a call that stops. A store is
`Reachable` when it comes from the empty store by one successful set-up and then any calls.
-/

namespace BridgePool

/-- A call after the set-up. -/
inductive Call where
  | command (env : Env) (caller : Caller) (command : Command)
  | hostEvent (event : HostEvent)
  | upgrade

namespace Call

/-- What a call does. -/
def operation : Call → Operation Store Response
  | .command env caller c => Bridge.execute env caller c
  | .hostEvent event => Bridge.report event
  | .upgrade => Bridge.upgrade

/-- A call as the host runs it: a fault leaves the store as it was. -/
def run (c : Call) (s : Store) : Except Fault Response × Store :=
  c.operation.atomic.run s

end Call

namespace Chain

/-- A call together with what it answered. -/
structure Step where
  call : Call
  answer : Except Fault Response

/-- Runs calls one after the other; answers the steps and the store they lead to. -/
def play (s : Store) : List Call → List Step × Store
  | [] => ([], s)
  | c :: rest =>
    let (answer, s) := c.run s
    let (steps, s) := play s rest
    (⟨c, answer⟩ :: steps, s)

/-- The store that a successful set-up makes of the empty one. -/
def Founded (m : Setup) (s : Store) : Prop :=
  ∃ response, (Bridge.setUp m).run .empty = (.ok response, s)

/-- A whole history: a set-up, the steps after it, and the store at the end. -/
def History (m : Setup) (steps : List Step) (s : Store) : Prop :=
  ∃ s₀, Founded m s₀ ∧ play s₀ (steps.map Step.call) = (steps, s)

end Chain

/-- A store that comes from the empty one by a successful set-up and then any calls. -/
inductive Reachable : Store → Prop where
  | founded {m : Setup} {s : Store} : Chain.Founded m s → Reachable s
  | call {s : Store} (c : Call) : Reachable s → Reachable (c.run s).2

end BridgePool
