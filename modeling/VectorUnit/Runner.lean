import VectorUnit.Processor.Execution

/-!
# Runners

A `Runner` stands between a unit and a caller who requests executions (`Runner.request`) and pulls
their reports later, once each and in the order of the requests (`Runner.pull`). In the mode
`Runner.Mode.instant` an execution runs when it is requested. In the mode `Runner.Mode.threaded`
the unit belongs to a worker: requests queue up in its inbox, and it takes them on in steps of its
own. `Runner.step` is one of them: the worker receives the oldest request, runs the one it has
received, counts it, or replies. Running a request and counting it are two steps, and in between the
unit has run a request that is not among the finished ones.

The steps of the worker fall between those of the caller in any way. The caller only makes them
happen where it has to: four steps bring the reply that is due next (`Runner.awaitReply`). Whatever
touches the unit waits for all replies first (`Runner.act`).

A fault in the hands of the worker ends it. The caller learns of this when it waits for a reply
that never comes.
-/

namespace VectorUnit

/-- The outcome of a requested execution: what it came to, and the registers behind it. The unit
itself may have gone on since. -/
structure Report where
  tally : Tally
  /-- The registers after the execution. -/
  registers : Registers
deriving DecidableEq, Repr

/-- A requested execution. -/
structure Request where
  start : UInt32
  budget : UInt32
deriving DecidableEq, Repr

/-- The outcome of running a request on a unit, and the unit after it. -/
def Request.run (r : Request) (unit : Processor) : Except Fault (Report × Processor) :=
  match unit.execute r.start r.budget with
  | .ok (tally, unit) => .ok (⟨tally, unit.registers⟩, unit)
  | .error fault => .error fault

namespace Runner

/-! ### Modes -/

/-- Where requests run. -/
inductive Mode where
  /-- With the caller, who waits for them. -/
  | instant
  /-- With a worker. -/
  | threaded
deriving DecidableEq, Repr

namespace Mode

/-- The mode used when nothing is said. -/
def standard : Mode := threaded

instance : Inhabited Mode := ⟨standard⟩

/-- The name of the mode in text that users read and write. -/
def name : Mode → String
  | instant => "instant"
  | threaded => "threaded"

/-- The name of the mode in diagnostics. -/
def title : Mode → String
  | instant => "Instant"
  | threaded => "Threaded"

/-- Both modes. -/
def all : List Mode := [instant, threaded]

/-- The mode that a text names. -/
def ofText (text : String) : Except UnknownName Mode :=
  choose (all.map fun m => (m.name, m)) text

end Mode

/-- What the worker is at. -/
inductive Work where
  /-- It waits for a request. -/
  | idle
  /-- It has received a request. -/
  | received (request : Request)
  /-- It has run a request and not counted it yet. -/
  | ran (report : Report)
  /-- It has counted a request and not replied yet. -/
  | done (report : Report)
  /-- It is gone, and leaves a request without a reply. -/
  | died
deriving DecidableEq, Repr

/-- The number of requests that the worker has taken on without a reply so far. -/
def Work.size : Work → Nat
  | idle => 0
  | received _ => 1
  | ran _ => 1
  | done _ => 1
  | died => 1

end Runner

/-- A unit, the requests that are made to it, and the reports that were not pulled yet. -/
structure Runner where
  mode : Runner.Mode
  unit : Processor
  /-- The number of requests made. -/
  requested : Nat
  /-- The number of requests that have run and are counted. -/
  finished : Nat
  /-- Requests that the worker has not received, oldest first. -/
  inbox : List Request
  work : Runner.Work
  /-- Replies that the caller has not received, oldest first. -/
  replies : List Report
  /-- Reports that the caller may pull at once, oldest first. -/
  ready : List Report

namespace Runner

/-- A runner for a unit, in the given mode. -/
def create (mode : Mode) (unit : Processor) : Runner where
  mode := mode
  unit := unit
  requested := 0
  finished := 0
  inbox := []
  work := .idle
  replies := []
  ready := []

/-- The number of requests underway: the caller has not received their replies. -/
def underway (r : Runner) : Nat :=
  r.inbox.length + r.work.size + r.replies.length

/-- The number of outstanding requests: their reports were not pulled. -/
def outstanding (r : Runner) : Nat :=
  r.underway + r.ready.length

/-- Not all requests that were made are counted as finished. -/
def isWorking (r : Runner) : Bool :=
  r.requested != r.finished

/-! ### The worker -/

/-- One step of the worker. -/
def step (r : Runner) : Runner :=
  match r.work with
  | .idle =>
    match r.inbox with
    | [] => r
    | request :: rest => { r with inbox := rest, work := .received request }
  | .received request =>
    match request.run r.unit with
    | .ok (report, unit) => { r with unit := unit, work := .ran report }
    | .error _ => { r with work := .died }
  | .ran report => { r with finished := r.finished + 1, work := .done report }
  | .done report => { r with work := .idle, replies := r.replies ++ [report] }
  | .died => r

/-- A number of steps of the worker. -/
def steps (r : Runner) : (count : Nat) → Runner
  | 0 => r
  | count + 1 => steps r.step count

/-- What becomes of the runner when it is dropped: the worker takes on all requests that are
left. -/
def close (r : Runner) : Runner :=
  r.steps (4 * r.underway)

/-! ### Receiving replies -/

/-- Receives the reply to the oldest request underway, for which the worker takes as many steps as
it needs. -/
def awaitReply (r : Runner) : Except Fault (Report × Runner) :=
  -- With no reply in the way, the worker has at most to receive, to run, to count and to reply.
  let r := if r.replies.isEmpty then r.steps 4 else r
  match r.replies with
  | report :: rest => .ok (report, { r with replies := rest })
  | [] => .error .workerLost

/-- Receives a number of replies and keeps the reports ready. -/
def settleSome : (count : Nat) → Runner → Except Fault Runner
  | 0, r => .ok r
  | count + 1, r => do
    let (report, r) ← r.awaitReply
    settleSome count { r with ready := r.ready ++ [report] }

/-- Receives the replies to all requests underway. -/
def settle (r : Runner) : Except Fault Runner :=
  settleSome r.underway r

/-! ### Requests and reports -/

/-- Requests an execution. -/
def request (r : Runner) (start budget : UInt32) : Except Fault Runner :=
  let request : Request := ⟨start, budget⟩
  let r := { r with requested := r.requested + 1 }
  match r.mode with
  | .instant => do
    let (report, unit) ← request.run r.unit
    return { r with
      unit := unit
      finished := r.finished + 1
      ready := r.ready ++ [report] }
  | .threaded =>
    if r.work = .died then .error .workerLost
    else .ok { r with inbox := r.inbox ++ [request] }

/-- Pulls the report of the oldest request whose report was not pulled, if there is one. -/
def pull (r : Runner) : Except Fault (Option Report × Runner) :=
  match r.ready with
  | report :: rest => .ok (some report, { r with ready := rest })
  | [] =>
    if r.underway = 0 then .ok (none, r)
    else do
      let (report, r) ← r.awaitReply
      return (some report, r)

/-! ### Access to the unit -/

/-- The fault that the caller sees when an action on the unit fails. -/
def Mode.surface : Mode → Fault → Fault
  | instant, fault => fault
  | threaded, _ => .workerLost

/-- The runner after a fault. A worker does not survive one. -/
def afterFault (r : Runner) : Runner :=
  match r.mode with
  | .instant => r
  | .threaded => { r with work := .died }

/-- Acts on the unit when no request is underway any more. -/
def act {α : Type} (r : Runner) (action : Processor → Except Fault (α × Processor)) :
    Except Fault (α × Runner) := do
  let r ← r.settle
  match action r.unit with
  | .ok (a, unit) => return (a, { r with unit := unit })
  | .error fault => throw (r.mode.surface fault)

/-- Changes the unit. -/
def change (r : Runner) (f : Processor → Processor) : Except Fault Runner := do
  let ((), r) ← r.act fun unit => .ok ((), f unit)
  return r

/-- Looks at the unit. -/
def view {α : Type} (r : Runner) (f : Processor → α) : Except Fault (α × Runner) :=
  r.act fun unit => .ok (f unit, unit)

/-- Writes microcode. -/
def write (r : Runner) (offset : UInt32) (data : List UInt8) : Except Fault Runner :=
  r.change (·.write offset data)

/-- Tells the unit that microcode has changed. -/
def noteChange (r : Runner) (offset size : UInt32) : Except Fault Runner :=
  r.change (·.noteChange offset size)

/-- Resets the unit. -/
def reset (r : Runner) (full : Bool) : Except Fault Runner :=
  r.change (·.reset full)

/-- Sets the registers. -/
def withRegisters (r : Runner) (registers : Registers) : Except Fault Runner :=
  r.change (·.withRegisters registers)

/-- Reads the registers. -/
def registers (r : Runner) : Except Fault (Registers × Runner) :=
  r.view Processor.registers

/-- Reads the counters. -/
def counters (r : Runner) : Except Fault (Counters × Runner) :=
  r.view Processor.counters

/-- Saves the state of the unit. -/
def save (r : Runner) : Except Fault (SaveState × Runner) :=
  r.view Processor.save

/-- Loads a save state into the unit in place. The unit stays with the runner in any case. -/
def load (r : Runner) (s : SaveState) :
    Except Fault (Except SaveState.Misfit PUnit × Runner) :=
  r.act fun unit =>
    match (Processor.loadInPlace s).run unit with
    | .ok _ unit => .ok (.ok ⟨⟩, unit)
    | .error e unit => .ok (.error e, unit)

end Runner

end VectorUnit
