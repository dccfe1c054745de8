import VectorUnit.Runner

/-!
# What a runner has to answer

A `Runner.Ledger` is the plainest way to keep the promise of a runner. It runs each request when it
is made, enters the report, and counts how many of the reports were pulled: the report pulled next
is the one of the oldest request whose report was not pulled, and there is none exactly when all
were pulled. An access acts on the unit as the requests before it have left it.

A runner agrees with a ledger (`Runner.Agrees`) if the requests that still wait, run on its unit,
give the unit of the ledger, and if the reports that are there already, with those of the requests
that wait, are the reports that were not pulled, in their order. Steps of the worker keep this up
(`Runner.Agrees.step`), whenever they happen. A runner of either mode answers as the ledger does,
operation by operation (`Runner.Agrees.perform`).
-/

namespace VectorUnit

/-- Runs requests one after another. -/
def Request.runAll : List Request → Processor → Except Fault (List Report × Processor)
  | [], unit => .ok ([], unit)
  | request :: rest, unit => do
    let (report, unit) ← request.run unit
    let (reports, unit) ← runAll rest unit
    return (report :: reports, unit)

theorem Request.runAll_cons_eq_ok {request : Request} {rest : List Request}
    {unit unit' : Processor} {reports : List Report}
    (h : runAll (request :: rest) unit = .ok (reports, unit')) :
    ∃ report unit₁ later, request.run unit = .ok (report, unit₁) ∧
      runAll rest unit₁ = .ok (later, unit') ∧ reports = report :: later := by
  rw [runAll] at h
  obtain ⟨⟨report, unit₁⟩, hrun, h⟩ := exists_of_bind_eq_ok h
  obtain ⟨⟨later, unit₂⟩, hrest, h⟩ := exists_of_bind_eq_ok h
  obtain ⟨rfl, rfl⟩ := Prod.mk.inj (Except.ok.inj h)
  exact ⟨report, unit₁, later, hrun, hrest, rfl⟩

theorem Request.runAll_append {waiting : List Request} {request : Request}
    {unit unit₁ unit₂ : Processor} {reports : List Report} {report : Report}
    (h : runAll waiting unit = .ok (reports, unit₁))
    (hrun : request.run unit₁ = .ok (report, unit₂)) :
    runAll (waiting ++ [request]) unit = .ok (reports ++ [report], unit₂) := by
  induction waiting generalizing unit reports with
  | nil =>
    obtain ⟨rfl, rfl⟩ := Prod.mk.inj (Except.ok.inj h)
    rw [List.nil_append, runAll, hrun]
    rfl
  | cons first rest ih =>
    obtain ⟨report', unit', later, hfirst, hrest, rfl⟩ := runAll_cons_eq_ok h
    rw [List.cons_append, runAll, hfirst]
    change (runAll (rest ++ [request]) unit' >>= _) = _
    rw [ih hrest]
    rfl

theorem Request.length_of_runAll {waiting : List Request} {unit unit' : Processor}
    {reports : List Report} (h : runAll waiting unit = .ok (reports, unit')) :
    reports.length = waiting.length := by
  induction waiting generalizing unit reports with
  | nil =>
    obtain ⟨rfl, -⟩ := Prod.mk.inj (Except.ok.inj h)
    rfl
  | cons request rest ih =>
    obtain ⟨report, unit₁, later, -, hrest, rfl⟩ := runAll_cons_eq_ok h
    rw [List.length_cons, List.length_cons, ih hrest]

namespace Runner

/-! ### Operations -/

/-- Something that is done to the unit itself, and not requested of a runner. A runner at work has
to be waited for before the unit can be had. -/
inductive Access where
  | write (offset : UInt32) (data : List UInt8)
  | noteChange (offset size : UInt32)
  | reset (full : Bool)
  | setRegisters (regs : Registers)
  | registers
  | counters
  | save
  | load (s : SaveState)

/-- An operation on a runner: a run is requested, a report is pulled, the number of outstanding
requests is asked for, or the unit itself is. -/
inductive Operation where
  | request (start budget : UInt32)
  | pull
  | outstanding
  | access (a : Access)

/-- What an operation returns. It turns out not to depend on how far the worker has come, so that
both modes return the same. -/
inductive Answer where
  | done
  | pulled (report? : Option Report)
  | number (n : Nat)
  | registers (regs : Registers)
  | counters (c : Counters)
  | saved (s : SaveState)
  | refused (e : SaveState.Misfit)

/-- What an access to a unit returns, and the unit after it. -/
def Access.run (unit : Processor) : Access → Answer × Processor
  | .write offset data => (.done, unit.write offset data)
  | .noteChange offset size => (.done, unit.noteChange offset size)
  | .reset full => (.done, unit.reset full)
  | .setRegisters regs => (.done, unit.withRegisters regs)
  | .registers => (.registers unit.registers, unit)
  | .counters => (.counters unit.counters, unit)
  | .save => (.saved unit.save, unit)
  | .load s =>
    match (Processor.loadInPlace s).run unit with
    | .ok _ unit' => (.done, unit')
    | .error e unit' => (.refused e, unit')

/-- What an access through a runner returns, and the runner after it. It waits until nothing is
underway. -/
def access (r : Runner) : Access → Except Fault (Answer × Runner)
  | .write offset data => do return (.done, ← r.write offset data)
  | .noteChange offset size => do return (.done, ← r.noteChange offset size)
  | .reset full => do return (.done, ← r.reset full)
  | .setRegisters regs => do return (.done, ← r.withRegisters regs)
  | .registers => do
    let (regs, r) ← r.registers
    return (.registers regs, r)
  | .counters => do
    let (c, r) ← r.counters
    return (.counters c, r)
  | .save => do
    let (s, r) ← r.save
    return (.saved s, r)
  | .load s => do
    match ← r.load s with
    | (.ok _, r) => return (.done, r)
    | (.error e, r) => return (.refused e, r)

/-- What an operation returns, and the runner after it. -/
def perform (r : Runner) : Operation → Except Fault (Answer × Runner)
  | .request start budget => do return (.done, ← r.request start budget)
  | .pull => do
    let (report?, r) ← r.pull
    return (.pulled report?, r)
  | .outstanding => .ok (.number r.outstanding, r)
  | .access a => r.access a

/-- What some operations return one after another. -/
def answers (r : Runner) : List Operation → Except Fault (List Answer)
  | [] => .ok []
  | op :: rest => do
    let (a, r) ← r.perform op
    let later ← answers r rest
    return a :: later

/-- Every access acts on the unit when no request is underway any more. -/
theorem access_eq_act (r : Runner) (a : Access) :
    r.access a = r.act fun unit => .ok (a.run unit) := by
  rw [act]
  cases a with
  | load s =>
    rw [access, load, act]
    cases r.settle with
    | error fault => rfl
    | ok r' =>
      simp only [Access.run, bind, Except.bind]
      cases (Processor.loadInPlace s).run r'.unit <;> rfl
  | _ =>
    simp only [access, write, noteChange, reset, withRegisters, registers, counters, save, change,
      view, act]
    cases r.settle <;> rfl

/-! ### The ledger -/

/-- A unit, with an account of what was requested of it. Every request is carried out as soon as it
is made here, so a ledger has no worker and nothing ever waits. -/
structure Ledger where
  unit : Processor
  /-- The reports of all requests, in the order of the requests. -/
  reports : List Report
  /-- The number of reports that were pulled. -/
  pulled : Nat

namespace Ledger

/-- The ledger of a unit of which nothing was requested. -/
def create (unit : Processor) : Ledger :=
  ⟨unit, [], 0⟩

/-- What an operation returns, and the ledger after it. -/
def perform (l : Ledger) : Operation → Except Fault (Answer × Ledger)
  | .request start budget => do
    let (report, unit) ← Request.run ⟨start, budget⟩ l.unit
    return (.done, { l with unit := unit, reports := l.reports ++ [report] })
  | .pull =>
    .ok (.pulled l.reports[l.pulled]?, { l with pulled := min (l.pulled + 1) l.reports.length })
  | .outstanding => .ok (.number (l.reports.length - l.pulled), l)
  | .access a => .ok ((a.run l.unit).1, { l with unit := (a.run l.unit).2 })

/-- What some operations return one after another. -/
def answers (l : Ledger) : List Operation → Except Fault (List Answer)
  | [] => .ok []
  | op :: rest => do
    let (a, l) ← l.perform op
    let later ← answers l rest
    return a :: later

theorem answers_cons_eq_ok {l : Ledger} {op : Operation} {rest : List Operation}
    {as : List Answer} (h : l.answers (op :: rest) = .ok as) :
    ∃ a l' later, l.perform op = .ok (a, l') ∧ l'.answers rest = .ok later ∧
      as = a :: later := by
  rw [answers] at h
  obtain ⟨⟨a, l'⟩, hop, h⟩ := exists_of_bind_eq_ok h
  obtain ⟨later, hrest, h⟩ := exists_of_bind_eq_ok h
  exact ⟨a, l', later, hop, hrest, (Except.ok.inj h).symm⟩

end Ledger

/-! ### Steps of the worker -/

/-- The worker waits, and nothing is on its way, when no request is underway. -/
theorem idle_of_underway {r : Runner} (hzero : r.underway = 0) :
    r.work = .idle ∧ r.inbox = [] ∧ r.replies = [] := by
  simp only [underway, Nat.add_eq_zero_iff, List.length_eq_zero_iff] at hzero
  obtain ⟨⟨hinbox, hsize⟩, hreplies⟩ := hzero
  refine ⟨?_, hinbox, hreplies⟩
  cases hwork : r.work with
  | idle => rfl
  | _ => rw [hwork] at hsize; cases hsize

theorem step_of_idle {r : Runner} {request : Request} {rest : List Request}
    (hwork : r.work = .idle) (hinbox : r.inbox = request :: rest) :
    r.step = { r with inbox := rest, work := .received request } := by
  rw [step, hwork, hinbox]

theorem step_of_received {r : Runner} {request : Request} {report : Report} {unit : Processor}
    (hwork : r.work = .received request) (hrun : request.run r.unit = .ok (report, unit)) :
    r.step = { r with unit := unit, work := .ran report } := by
  rw [step, hwork]
  simp only [hrun]

theorem step_of_ran {r : Runner} {report : Report} (hwork : r.work = .ran report) :
    r.step = { r with finished := r.finished + 1, work := .done report } := by
  rw [step, hwork]

theorem step_of_done {r : Runner} {report : Report} (hwork : r.work = .done report) :
    r.step = { r with work := .idle, replies := r.replies ++ [report] } := by
  rw [step, hwork]

/-- A reply that is there is received without waiting for the worker. -/
theorem awaitReply_of_cons {r : Runner} {report : Report} {rest : List Report}
    (hreplies : r.replies = report :: rest) :
    r.awaitReply = .ok (report, { r with replies := rest }) := by
  have hthere : r.replies.isEmpty = false := by rw [hreplies, List.isEmpty_cons]
  rw [awaitReply, hthere, if_neg Bool.false_ne_true, hreplies]

theorem underway_pos_of_replies {r : Runner} (hreplies : r.replies ≠ []) : 0 < r.underway :=
  Nat.add_pos_right _ (List.length_pos_iff.mpr hreplies)

/-- A request is run at once or put behind the others. -/
theorem request_eq_ok {r r' : Runner} {start budget : UInt32}
    (h : r.request start budget = .ok r') :
    (r.mode = .instant ∧ ∃ report unit, Request.run ⟨start, budget⟩ r.unit = .ok (report, unit) ∧
        r' = { r with
          unit := unit
          requested := r.requested + 1
          finished := r.finished + 1
          ready := r.ready ++ [report] }) ∨
      (r.mode = .threaded ∧ r.work ≠ .died ∧
        r' = { r with requested := r.requested + 1, inbox := r.inbox ++ [⟨start, budget⟩] }) := by
  rw [request] at h
  dsimp only at h
  split at h
  · case h_1 hmode =>
    obtain ⟨⟨report, unit⟩, hrun, h⟩ := exists_of_bind_eq_ok h
    exact .inl ⟨hmode, report, unit, hrun, (Except.ok.inj h).symm⟩
  · case h_2 hmode =>
    split at h
    · cases h
    · case isFalse halive => exact .inr ⟨hmode, halive, (Except.ok.inj h).symm⟩

/-- A caller who does not have to wait finds a report that is ready, or a reply, or nothing. -/
theorem pull_eq_ok {r r' : Runner} {report? : Option Report}
    (hready : r.ready ≠ [] ∨ r.replies ≠ [] ∨ r.underway = 0)
    (h : r.pull = .ok (report?, r')) :
    (∃ report rest, r.ready = report :: rest ∧ report? = some report ∧
        r' = { r with ready := rest }) ∨
      (∃ report rest, r.ready = [] ∧ r.replies = report :: rest ∧ report? = some report ∧
        r' = { r with replies := rest }) ∨
      (report? = none ∧ r' = r) := by
  rw [pull] at h
  split at h
  · case h_1 report rest hcons =>
    obtain ⟨rfl, rfl⟩ := Prod.mk.inj (Except.ok.inj h)
    exact .inl ⟨report, rest, hcons, rfl, rfl⟩
  · case h_2 hnil =>
    split at h
    · obtain ⟨rfl, rfl⟩ := Prod.mk.inj (Except.ok.inj h)
      exact .inr (.inr ⟨rfl, rfl⟩)
    · case isFalse hpos =>
      have hreplies : r.replies ≠ [] := (hready.resolve_left fun hne => hne hnil).resolve_right hpos
      obtain ⟨report, rest, hcons⟩ := List.exists_cons_of_ne_nil hreplies
      rw [awaitReply_of_cons hcons] at h
      obtain ⟨rfl, rfl⟩ := Prod.mk.inj (Except.ok.inj h)
      exact .inr (.inl ⟨report, rest, hnil, hcons, rfl, rfl⟩)

/-- The worker has no part in the mode and in what the caller has received. -/
theorem step_keeps (r : Runner) : r.step.mode = r.mode ∧ r.step.ready = r.ready := by
  rw [step]
  split
  · split <;> exact ⟨rfl, rfl⟩
  · split <;> exact ⟨rfl, rfl⟩
  · exact ⟨rfl, rfl⟩
  · exact ⟨rfl, rfl⟩
  · exact ⟨rfl, rfl⟩

/-- The worker neither loses a request nor makes one up. -/
theorem underway_step (r : Runner) : r.step.underway = r.underway := by
  rw [step]
  split
  · case h_1 hwork =>
    split
    · rfl
    · case h_2 request rest hinbox =>
      simp only [underway, hwork, hinbox, Work.size, List.length_cons]
  · case h_2 request hwork =>
    split <;> simp only [underway, hwork, Work.size]
  · case h_3 report hwork => simp only [underway, hwork, Work.size]
  · case h_4 report hwork =>
    simp only [underway, hwork, Work.size, List.length_append, List.length_singleton]
    omega
  · rfl

theorem steps_keep (r : Runner) (count : Nat) : (r.steps count).mode = r.mode ∧
    (r.steps count).ready = r.ready ∧ (r.steps count).underway = r.underway := by
  induction count generalizing r with
  | zero => exact ⟨rfl, rfl, rfl⟩
  | succ count ih =>
    obtain ⟨hmode, hready, hunderway⟩ := ih r.step
    obtain ⟨hmode', hready'⟩ := r.step_keeps
    exact ⟨hmode.trans hmode', hready.trans hready', hunderway.trans r.underway_step⟩

/-! ### Agreement -/

/-- The requests that have not run, oldest first: the one in the hands of the worker, and those in
its inbox. -/
def waiting (r : Runner) : List Request :=
  match r.work with
  | .received request => request :: r.inbox
  | _ => r.inbox

/-- The reports of requests that have run and were not pulled, oldest first, wherever they are on
their way to the caller. -/
def known (r : Runner) : List Report :=
  match r.work with
  | .ran report => r.ready ++ r.replies ++ [report]
  | .done report => r.ready ++ r.replies ++ [report]
  | _ => r.ready ++ r.replies

/-- Every request that is outstanding waits or has a report that is known. -/
theorem outstanding_eq {r : Runner} (halive : r.work ≠ .died) :
    r.outstanding = r.known.length + r.waiting.length := by
  rw [Runner.outstanding, underway]
  cases hwork : r.work with
  | died => exact absurd hwork halive
  | _ =>
    simp only [known, waiting, hwork, Work.size, List.length_append, List.length_cons,
      List.length_nil]
    omega

/-- A runner will answer as a ledger does, once it has caught up: what waits in its inbox takes its
unit to that of the ledger, and the reports that it will have sent are the same. -/
structure Agrees (r : Runner) (l : Ledger) : Prop where
  alive : r.work ≠ .died
  /-- Nothing is ever underway in the instant mode. -/
  instant : r.mode = .instant → r.underway = 0
  /-- What waits leads to the unit of the ledger, and fills up its reports. -/
  results : ∃ later, Request.runAll r.waiting r.unit = .ok (later, l.unit) ∧
    r.known ++ later = l.reports.drop l.pulled
  pulled_le : l.pulled ≤ l.reports.length

namespace Agrees

variable {r : Runner} {l : Ledger}

theorem create (mode : Mode) (unit : Processor) :
    Agrees (Runner.create mode unit) (Ledger.create unit) :=
  ⟨nofun, fun _ => rfl, ⟨[], rfl, rfl⟩, Nat.le_refl _⟩

/-- **Worker.** A step of the worker changes nothing that is promised. It only brings the runner
nearer to the ledger. -/
theorem step (h : r.Agrees l) : r.step.Agrees l := by
  obtain ⟨halive, hinstant, ⟨later, hrun, hreports⟩, hle⟩ := h
  have hinstant' : r.step.mode = .instant → r.step.underway = 0 := by
    rw [r.step_keeps.1, underway_step]
    exact hinstant
  rw [waiting] at hrun
  rw [known] at hreports
  cases hwork : r.work with
  | idle =>
    rw [hwork] at hrun hreports
    cases hinbox : r.inbox with
    | nil =>
      have hsame : r.step = r := by rw [Runner.step, hwork, hinbox]
      rw [hsame]
      exact ⟨halive, hinstant, ⟨later, by rwa [waiting, hwork], by rwa [known, hwork]⟩, hle⟩
    | cons request rest =>
      -- the oldest request waits at the worker instead of in the inbox
      rw [hinbox] at hrun
      rw [step_of_idle hwork hinbox] at hinstant' ⊢
      exact ⟨nofun, hinstant', ⟨later, hrun, hreports⟩, hle⟩
  | received request =>
    -- its report is known from now on, ahead of those of the requests in the inbox
    rw [hwork] at hrun hreports
    obtain ⟨report, unit, rest, hfirst, hrest, rfl⟩ := Request.runAll_cons_eq_ok hrun
    rw [step_of_received hwork hfirst] at hinstant' ⊢
    refine ⟨nofun, hinstant', ⟨rest, hrest, ?_⟩, hle⟩
    rw [known, List.append_assoc]
    exact hreports
  | ran report =>
    -- it is known already, and is counted only now
    rw [hwork] at hrun hreports
    rw [step_of_ran hwork] at hinstant' ⊢
    exact ⟨nofun, hinstant', ⟨later, hrun, hreports⟩, hle⟩
  | done report =>
    rw [hwork] at hrun hreports
    rw [step_of_done hwork] at hinstant' ⊢
    refine ⟨nofun, hinstant', ⟨later, hrun, ?_⟩, hle⟩
    rw [known, ← List.append_assoc]
    exact hreports
  | died => exact absurd hwork halive

theorem steps (h : r.Agrees l) (count : Nat) : (r.steps count).Agrees l := by
  induction count generalizing r with
  | zero => exact h
  | succ count ih => exact ih h.step

/-! ### Waiting for replies -/

/-- Replies are there until the caller receives them. -/
theorem replies_step_ne_nil (hreplies : r.replies ≠ []) : r.step.replies ≠ [] := by
  rw [Runner.step]
  split
  · split <;> exact hreplies
  · split <;> exact hreplies
  · exact hreplies
  · exact List.append_ne_nil_of_left_ne_nil hreplies _
  · exact hreplies

theorem replies_step_of_done {report : Report} (hwork : r.work = .done report) :
    r.step.replies ≠ [] := by
  rw [step_of_done hwork]
  exact List.append_ne_nil_of_right_ne_nil _ (List.cons_ne_nil _ _)

theorem replies_steps_of_ran {report : Report} (hwork : r.work = .ran report) :
    r.step.step.replies ≠ [] := by
  rw [step_of_ran hwork]
  exact replies_step_of_done rfl

/-- A request that the worker has received can be run. -/
theorem exists_run_of_received (h : r.Agrees l) {request : Request}
    (hwork : r.work = .received request) :
    ∃ report unit, request.run r.unit = .ok (report, unit) := by
  obtain ⟨-, -, ⟨later, hrun, -⟩, -⟩ := h
  rw [waiting, hwork] at hrun
  obtain ⟨report, unit, rest, hfirst, -, -⟩ := Request.runAll_cons_eq_ok hrun
  exact ⟨report, unit, hfirst⟩

theorem replies_steps_of_received (h : r.Agrees l) {request : Request}
    (hwork : r.work = .received request) : r.step.step.step.replies ≠ [] := by
  obtain ⟨report, unit, hrun⟩ := h.exists_run_of_received hwork
  rw [step_of_received hwork hrun]
  exact replies_steps_of_ran rfl

/-- Four steps of the worker bring a reply, if a request is underway. -/
theorem replies_steps (h : r.Agrees l) (hpos : 0 < r.underway) : (r.steps 4).replies ≠ [] := by
  show r.step.step.step.step.replies ≠ []
  cases hwork : r.work with
  | idle =>
    cases hinbox : r.inbox with
    | nil =>
      have hreplies : r.replies ≠ [] := by
        intro hnil
        rw [underway, hwork, hinbox, hnil] at hpos
        cases hpos
      exact replies_step_ne_nil (replies_step_ne_nil (replies_step_ne_nil
        (replies_step_ne_nil hreplies)))
    | cons request rest =>
      exact h.step.replies_steps_of_received (by rw [step_of_idle hwork hinbox])
  | received request => exact replies_step_ne_nil (h.replies_steps_of_received hwork)
  | ran report => exact replies_step_ne_nil (replies_step_ne_nil (replies_steps_of_ran hwork))
  | done report =>
    exact replies_step_ne_nil (replies_step_ne_nil (replies_step_ne_nil
      (replies_step_of_done hwork)))
  | died => exact absurd hwork h.alive

/-- A reply that is received first is the first one that is not ready. -/
theorem receive (h : r.Agrees l) {report : Report} {rest : List Report}
    (hreplies : r.replies = report :: rest) :
    Agrees { r with replies := rest, ready := r.ready ++ [report] } l := by
  obtain ⟨halive, hinstant, ⟨later, hrun, hreports⟩, hle⟩ := h
  have hknown : known { r with replies := rest, ready := r.ready ++ [report] } = r.known := by
    simp only [known, hreplies, List.append_assoc, List.cons_append, List.nil_append]
  refine ⟨halive, fun hmode => ?_, ⟨later, hrun, hknown ▸ hreports⟩, hle⟩
  have hzero := hinstant hmode
  rw [underway, hreplies, List.length_cons] at hzero
  omega

/-- A reply can be awaited as long as a request is underway. -/
theorem awaitReply (h : r.Agrees l) (hpos : 0 < r.underway) :
    ∃ report r', r.awaitReply = .ok (report, r') ∧
      Agrees { r' with ready := r'.ready ++ [report] } l ∧ r'.ready = r.ready ∧
      r'.mode = r.mode ∧ r'.underway + 1 = r.underway := by
  -- the runner when the reply is there
  obtain ⟨r₁, hr₁, hagrees, hready, hmode, hunderway, hne⟩ : ∃ r₁,
      r₁ = (if r.replies.isEmpty then r.steps 4 else r) ∧ r₁.Agrees l ∧ r₁.ready = r.ready ∧
        r₁.mode = r.mode ∧ r₁.underway = r.underway ∧ r₁.replies ≠ [] := by
    by_cases hempty : r.replies.isEmpty = true
    · obtain ⟨hmode, hready, hunderway⟩ := r.steps_keep 4
      exact ⟨_, (if_pos hempty).symm, h.steps 4, hready, hmode, hunderway, h.replies_steps hpos⟩
    · refine ⟨_, (if_neg hempty).symm, h, rfl, rfl, rfl, fun hnil => hempty ?_⟩
      rw [hnil]
      rfl
  obtain ⟨report, rest, hreplies⟩ := List.exists_cons_of_ne_nil hne
  refine ⟨report, { r₁ with replies := rest }, ?_, hagrees.receive hreplies, hready, hmode, ?_⟩
  · rw [Runner.awaitReply, ← hr₁, hreplies]
  · rw [← hunderway, underway, underway, hreplies, List.length_cons]
    exact Nat.add_assoc _ _ _

/-- What agreement is when no request is underway. -/
theorem settled_iff (hzero : r.underway = 0) : r.Agrees l ↔ r.unit = l.unit ∧
    r.ready = l.reports.drop l.pulled ∧ l.pulled ≤ l.reports.length := by
  obtain ⟨hwork, hinbox, hreplies⟩ := idle_of_underway hzero
  have hwaiting : r.waiting = [] := by rw [waiting, hwork, hinbox]
  have hknown : r.known = r.ready := by simp only [known, hwork, hreplies, List.append_nil]
  constructor
  · rintro ⟨-, -, ⟨later, hrun, hreports⟩, hle⟩
    rw [hwaiting] at hrun
    obtain ⟨rfl, hunit⟩ := Prod.mk.inj (Except.ok.inj hrun)
    rw [hknown, List.append_nil] at hreports
    exact ⟨hunit, hreports, hle⟩
  · rintro ⟨hunit, hreports, hle⟩
    refine ⟨by rw [hwork]; exact nofun, fun _ => ?_, ⟨[], ?_, ?_⟩, hle⟩
    · rw [underway, hinbox, hwork, hreplies]
      rfl
    · rw [hwaiting, hunit]
      rfl
    · rw [hknown, List.append_nil, hreports]

theorem settleSome (count : Nat) (h : r.Agrees l) (hcount : r.underway = count) :
    ∃ r', Runner.settleSome count r = .ok r' ∧ r'.Agrees l ∧ r'.underway = 0 ∧
      r'.mode = r.mode := by
  induction count generalizing r with
  | zero => exact ⟨r, rfl, h, hcount, rfl⟩
  | succ count ih =>
    obtain ⟨report, r₁, hawait, hagrees, -, hmode, hunderway⟩ := h.awaitReply (by omega)
    have hcount₁ : underway { r₁ with ready := r₁.ready ++ [report] } = count :=
      Nat.succ.inj (hunderway.trans hcount)
    obtain ⟨r', hsettle, hagrees', hzero, hmode'⟩ := ih hagrees hcount₁
    refine ⟨r', ?_, hagrees', hzero, hmode'.trans hmode⟩
    rw [Runner.settleSome, hawait]
    exact hsettle

/-- **Access.** An access finds the unit as all requests before it have left it, for it waits until
the worker has caught up. -/
theorem access (h : r.Agrees l) (a : Access) : ∃ r', r.access a = .ok ((a.run l.unit).1, r') ∧
    r'.Agrees { l with unit := (a.run l.unit).2 } ∧ r'.mode = r.mode := by
  obtain ⟨r₁, hsettle, hagrees, hzero, hmode⟩ := h.settleSome r.underway rfl
  obtain ⟨hunit, hready, hle⟩ := (settled_iff hzero).mp hagrees
  have hzero' : underway { r₁ with unit := (a.run l.unit).2 } = 0 := hzero
  have hagrees' := (settled_iff (l := { l with unit := (a.run l.unit).2 }) hzero').mpr
    ⟨rfl, hready, hle⟩
  refine ⟨{ r₁ with unit := (a.run l.unit).2 }, ?_, hagrees', hmode⟩
  rw [access_eq_act, act, settle, hsettle, ← hunit]
  rfl

/-- **Request.** Whether it runs at once or waits, a request is promised its report. The ledger has
the report from the beginning. -/
theorem request (h : r.Agrees l) {start budget : UInt32} {report : Report} {unit : Processor}
    (hrun : Request.run ⟨start, budget⟩ l.unit = .ok (report, unit)) :
    ∃ r', r.request start budget = .ok r' ∧
      r'.Agrees { l with unit := unit, reports := l.reports ++ [report] } ∧
      r'.mode = r.mode := by
  have hle' : l.pulled ≤ (l.reports ++ [report]).length := by
    rw [List.length_append]
    exact Nat.le_add_right_of_le h.pulled_le
  have hdrop : (l.reports ++ [report]).drop l.pulled = l.reports.drop l.pulled ++ [report] :=
    List.drop_append_of_le_length h.pulled_le
  rw [Runner.request]
  cases hmode : r.mode with
  | instant =>
    -- nothing is underway, so the request finds the unit of the ledger
    have hzero := h.instant hmode
    obtain ⟨hunit, hready, -⟩ := (settled_iff hzero).mp h
    rw [hunit]
    dsimp only
    rw [hrun]
    refine ⟨_, rfl, (settled_iff ?_).mpr ⟨rfl, ?_, hle'⟩, rfl⟩
    · exact hzero
    · rw [hdrop, ← hready]
  | threaded =>
    -- the request waits behind all others and will find the unit that they leave
    obtain ⟨halive, -, ⟨later, hall, hreports⟩, -⟩ := h
    dsimp only
    rw [if_neg halive]
    refine ⟨_, rfl, ⟨halive, fun hinstant => ?_, ⟨later ++ [report], ?_, ?_⟩, hle'⟩, rfl⟩
    · cases hinstant
    · have hwaiting : ∀ m n, waiting { r with
          mode := m, requested := n, inbox := r.inbox ++ [⟨start, budget⟩] } =
          r.waiting ++ [⟨start, budget⟩] := by
        intro m n
        simp only [waiting]
        split <;> rfl
      rw [hwaiting]
      exact Request.runAll_append hall hrun
    · rw [hdrop, ← hreports, List.append_assoc]
      rfl

/-- **Pull.** The report that is ready first is the one of the oldest request not pulled, as reports
are sent in the order of the requests. -/
theorem take (h : r.Agrees l) {report : Report} {rest : List Report}
    (hready : r.ready = report :: rest) : l.reports[l.pulled]? = some report ∧
      Agrees { r with ready := rest }
        { l with pulled := min (l.pulled + 1) l.reports.length } := by
  obtain ⟨halive, hinstant, ⟨later, hrun, hreports⟩, hle⟩ := h
  have hknown : r.known = report :: known { r with ready := rest } := by
    simp only [known, hready]
    split <;> rfl
  rw [hknown, List.cons_append] at hreports
  have hhead : l.reports[l.pulled]? = some report := by
    rw [← List.head?_drop, ← hreports, List.head?_cons]
  have hlt : l.pulled < l.reports.length := (List.getElem?_eq_some_iff.mp hhead).1
  have hmin : min (l.pulled + 1) l.reports.length = l.pulled + 1 := Nat.min_eq_left hlt
  refine ⟨hhead, halive, hinstant, ⟨later, hrun, ?_⟩, Nat.min_le_right _ _⟩
  rw [hmin, ← List.drop_drop, ← hreports, List.drop_succ_cons, List.drop_zero]

/-- No report is pulled exactly when all were. -/
theorem pull (h : r.Agrees l) : ∃ r', r.pull = .ok (l.reports[l.pulled]?, r') ∧
    r'.Agrees { l with pulled := min (l.pulled + 1) l.reports.length } ∧ r'.mode = r.mode := by
  rw [Runner.pull]
  cases hready : r.ready with
  | cons report rest =>
    obtain ⟨hhead, hagrees⟩ := h.take hready
    exact ⟨_, by rw [hhead], hagrees, rfl⟩
  | nil =>
    by_cases hzero : r.underway = 0
    · -- neither ready nor underway: all reports were pulled
      obtain ⟨hunit, hdrop, hle⟩ := (settled_iff hzero).mp h
      rw [hready] at hdrop
      have hall : l.reports.length ≤ l.pulled := List.drop_eq_nil_iff.mp hdrop.symm
      have hnone : l.reports[l.pulled]? = none := List.getElem?_eq_none hall
      have hmin : min (l.pulled + 1) l.reports.length = l.pulled := by omega
      rw [hnone, hmin]
      exact ⟨r, if_pos hzero, h, rfl⟩
    · obtain ⟨report, r', hawait, hagrees, hready', hmode, -⟩ :=
        h.awaitReply (Nat.pos_of_ne_zero hzero)
      have hcons : r'.ready ++ [report] = [report] := by rw [hready', hready, List.nil_append]
      obtain ⟨hhead, hagrees'⟩ := hagrees.take hcons
      have hsame : { r' with ready := [] } = r' := by rw [← hready, ← hready']
      refine ⟨r', ?_, hsame ▸ hagrees', hmode⟩
      rw [hhead]
      dsimp only
      rw [if_neg hzero, hawait]
      rfl

theorem outstanding (h : r.Agrees l) : r.outstanding = l.reports.length - l.pulled := by
  obtain ⟨halive, -, ⟨later, hrun, hreports⟩, -⟩ := h
  rw [outstanding_eq halive, ← Request.length_of_runAll hrun, ← List.length_append, hreports,
    List.length_drop]

/-- **Operation.** What the ledger answers, the runner answers as well, and they go on agreeing, for
any steps that the worker takes in between. -/
theorem perform (h : r.Agrees l) {op : Operation} {a : Answer} {l' : Ledger}
    (hop : l.perform op = .ok (a, l')) :
    ∃ r', r.perform op = .ok (a, r') ∧ r'.Agrees l' ∧ r'.mode = r.mode := by
  cases op with
  | request start budget =>
    rw [Ledger.perform] at hop
    obtain ⟨⟨report, unit⟩, hrun, hop⟩ := exists_of_bind_eq_ok hop
    obtain ⟨rfl, rfl⟩ := Prod.mk.inj (Except.ok.inj hop)
    obtain ⟨r', hrequest, hagrees⟩ := h.request hrun
    refine ⟨r', ?_, hagrees⟩
    rw [Runner.perform, hrequest]
    rfl
  | pull =>
    obtain ⟨rfl, rfl⟩ := Prod.mk.inj (Except.ok.inj hop)
    obtain ⟨r', hpull, hagrees⟩ := h.pull
    refine ⟨r', ?_, hagrees⟩
    rw [Runner.perform, hpull]
    rfl
  | outstanding =>
    obtain ⟨rfl, rfl⟩ := Prod.mk.inj (Except.ok.inj hop)
    exact ⟨r, by rw [Runner.perform, h.outstanding], h, rfl⟩
  | access a =>
    obtain ⟨rfl, rfl⟩ := Prod.mk.inj (Except.ok.inj hop)
    exact h.access a

/-- In the instant mode, the runner fails where the ledger fails. -/
theorem perform_eq_error (h : r.Agrees l) (hmode : r.mode = .instant) {op : Operation}
    {fault : Fault} (hop : l.perform op = .error fault) : r.perform op = .error fault := by
  cases op with
  | request start budget =>
    obtain ⟨hunit, -, -⟩ := (settled_iff (h.instant hmode)).mp h
    rw [Ledger.perform] at hop
    rw [Runner.perform, Runner.request, hmode]
    dsimp only
    rw [hunit]
    rcases error_or_of_bind_eq_error hop with hrun | ⟨result, -, hop⟩
    · rw [hrun]
      rfl
    · cases hop
  | _ => cases hop

theorem answers (h : r.Agrees l) {ops : List Operation} {as : List Answer}
    (hops : l.answers ops = .ok as) : r.answers ops = .ok as := by
  induction ops generalizing r l as with
  | nil => exact hops
  | cons op rest ih =>
    obtain ⟨a, l', later, hop, hrest, rfl⟩ := Ledger.answers_cons_eq_ok hops
    obtain ⟨r', hperform, hagrees, -⟩ := h.perform hop
    rw [Runner.answers, hperform]
    change (r'.answers rest >>= _) = _
    rw [ih hagrees hrest]
    rfl

theorem answers_eq_error (h : r.Agrees l) (hmode : r.mode = .instant) {ops : List Operation}
    {fault : Fault} (hops : l.answers ops = .error fault) : r.answers ops = .error fault := by
  induction ops generalizing r l with
  | nil => cases hops
  | cons op rest ih =>
    rw [Ledger.answers] at hops
    rw [Runner.answers]
    rcases error_or_of_bind_eq_error hops with hop | ⟨⟨a, l'⟩, hop, hops⟩
    · rw [h.perform_eq_error hmode hop]
      rfl
    · obtain ⟨r', hperform, hagrees, hmode'⟩ := h.perform hop
      rw [hperform]
      change (r'.answers rest >>= _) = _
      rcases error_or_of_bind_eq_error hops with hrest | ⟨later, -, hops⟩
      · rw [ih hagrees (hmode'.trans hmode) hrest]
        rfl
      · cases hops

end Agrees

/-- **Instant mode.** A runner in the instant mode is the ledger: it answers each operation alike,
and nothing is ever underway. -/
theorem instant_answers (unit : Processor) (ops : List Operation) :
    (create .instant unit).answers ops = (Ledger.create unit).answers ops := by
  have h := Agrees.create .instant unit
  cases hops : (Ledger.create unit).answers ops with
  | ok as => exact h.answers hops
  | error fault => exact h.answers_eq_error rfl hops

end Runner

end VectorUnit
