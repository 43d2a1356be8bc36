/-
# An endpoint as a machine

The interleaving semantics of a session: one event is one step of the network
thread, of one pool task or of the thread inside `sendFile` or `recvFile`. The
pool starts its tasks in the order of submission on a bounded number of workers;
letting every queued task step covers all of its schedules.
-/

import Sxaint.Machine.Run
import Sxaint.Net.Receive
import Sxaint.Net.Send

namespace Sxaint.Net

open Sxaint.Core Transition

/-- A step of one thread of an endpoint. -/
inductive Event
  | /-- The network thread hands a message to `handleRecv`. -/
    deliver (data : List UInt8)
  | /-- The network thread publishes the answer it has stored. -/
    network
  | /-- A task takes its next step. -/
    task (index : ℕ) (ok : Bool)
  | /-- The thread of `sendFile` or `recvFile` takes its next step. -/
    main (strategy : Strategy) (waitSnd : UInt32 → Int)

namespace Endpoint

variable (P : Platform)

/-- One step of a task: its new state and the endpoint without it. -/
def runTask (task : Task) (ok : Bool) (w : Endpoint) : Option (Task × Endpoint) :=
  match task with
  | .handshake hs pc =>
    (processHandshake P hs pc ok w).map fun (next, w) => (.handshake hs next, w)
  | .recvChunk header payload pc =>
    (processChunk P header payload pc w).map fun (next, w) => (.recvChunk header payload next, w)
  | .sendChunk job pc =>
    (sendChunkTask P job pc ok w).map fun (next, w) => (.sendChunk job next, w)

/-- One step of an endpoint. -/
def step (event : Event) (w : Endpoint) : Option Endpoint :=
  if w.fault = .crash then none
  else
    match event with
    | .deliver data =>
      match w.net with
      | .idle => some (handleRecv data w)
      | .publishAcked => none
    | .network =>
      match w.net with
      | .idle => none
      | .publishAcked => some { w with handshakeAcked := true, net := .idle }
    | .task index ok =>
      match w.tasks[index]? with
      | none => none
      | some task =>
        (runTask P task ok w).map fun (next, w) => { w with tasks := w.tasks.set index next }
    | .main strategy waitSnd => mainThread P strategy waitSnd w

/-- The task that takes a step in an event. -/
def taskAt (w : Endpoint) : Event → Option Task
  | .task index _ => w.tasks[index]?
  | _ => none

theorem index_of_taskAt {w : Endpoint} {event : Event} {task : Task}
    (found : w.taskAt event = some task) :
    ∃ index ok, event = .task index ok ∧ w.tasks[index]? = some task := by
  cases event with
  | task index ok => exact ⟨index, ok, rfl, found⟩
  | _ => cases found

/-- The handshake that is looked at in an event: its task enters the section under the
manifest lock. -/
def entering (w : Endpoint) (event : Event) : Option Handshake :=
  match w.taskAt event with
  | some (.handshake hs .enter) => some hs
  | _ => none

theorem mem_entering {w : Endpoint} {event : Event} {hs : Handshake} :
    hs ∈ w.entering event ↔ w.taskAt event = some (.handshake hs .enter) := by
  rw [Option.mem_def, entering]
  split
  · rename_i found heq
    rw [heq]
    simp
  · rename_i hother
    simp only [reduceCtorEq, false_iff]
    exact hother hs

/-- The machine of an endpoint that starts in a given state. -/
def machine (start : Endpoint) : Machine Endpoint Event where
  init := start
  step := step P

end Endpoint

end Sxaint.Net
