import VectorUnit.Proofs.Interleaving

/-!
# What the counts of a runner tell

A caller can look at three counts at any time: the outstanding requests, the requests that have
finished, and whether the runner is working. They are kept in different places, and the worker may
be anywhere between running a request, counting it and replying. The truth that they are measured by
is what the caller has done: the operations that were carried out so far (`Exchange.carriedOut`),
the requests among them (`Exchange.made`) and the reports that were pulled (`Exchange.pulled`).

What is left for the worker leads the unit to where all operations would have led it if each had
been carried out at once (`Exchange.Counted.effect`). So a runner that is not working has run all
requests that were made, and so has the worker of a runner that is dropped. Every step of the worker
or the caller keeps the counts right, as long as the worker is alive (`Exchange.Counted.step`). See
`Runner.bracketed_of_steps`.
-/

namespace VectorUnit

/-- The operation that makes a request. -/
def Request.operation (request : Request) : Runner.Operation :=
  .request request.start request.budget

namespace Runner

/-! ### Carrying out operations at once -/

/-- The request that an operation makes. -/
def Operation.request? : Operation → Option Request
  | .request start budget => some ⟨start, budget⟩
  | _ => none

/-- The report that an operation has pulled. -/
def Answer.report? : Answer → Option Report
  | .pulled report? => report?
  | _ => none

/-- What a unit becomes if an operation is carried out at once. Pulling and counting leave it alone.
-/
def Operation.apply (unit : Processor) : Operation → Except Fault Processor
  | .request start budget => do
    let (_, unit) ← Request.run ⟨start, budget⟩ unit
    return unit
  | .access a => .ok (a.run unit).2
  | .pull => .ok unit
  | .outstanding => .ok unit

/-- What a unit becomes if some operations are carried out one after another. -/
def applyAll (unit : Processor) (ops : List Operation) : Except Fault Processor :=
  ops.foldlM Operation.apply unit

theorem applyAll_append (unit : Processor) (ops ops' : List Operation) :
    applyAll unit (ops ++ ops') = applyAll unit ops >>= fun unit => applyAll unit ops' :=
  List.foldlM_append

theorem applyAll_singleton (unit : Processor) (op : Operation) :
    applyAll unit [op] = op.apply unit := by
  rw [applyAll, List.foldlM_cons]
  cases op.apply unit <;> rfl

/-- The operations of some requests, which are left to do. -/
def operations (requests : List Request) : List Operation :=
  requests.map Request.operation

theorem applyAll_operations_cons {unit unit' : Processor} {report : Report}
    {request : Request} (rest : List Request)
    (hrun : request.run unit = .ok (report, unit')) :
    applyAll unit (operations (request :: rest)) = applyAll unit' (operations rest) := by
  have happly : Operation.apply unit request.operation = .ok unit' := by
    rw [Request.operation, Operation.apply, hrun]
    rfl
  rw [operations, List.map_cons, applyAll, List.foldlM_cons, happly]
  rfl

/-- No access returns a report. -/
theorem Access.report?_run (a : Access) (unit : Processor) : (a.run unit).1.report? = none := by
  cases a with
  | load s =>
    rw [Access.run]
    split
    · rfl
    · rfl
  | _ => rfl

/-! ### What the worker keeps -/

/-- The number of reports that the worker holds back for the reply. -/
def Work.held : Work → Nat
  | .ran _ => 1
  | .done _ => 1
  | _ => 0

/-- The number of requests that the worker has run and not counted. There is one only at the point
between the two. -/
def Work.uncounted : Work → Nat
  | .ran _ => 1
  | _ => 0

/-- The number of requests that are not counted as finished: they wait, or have only just run. -/
def unfinished (r : Runner) : Nat :=
  r.waiting.length + r.work.uncounted

theorem waiting_of_unfinished {r : Runner} (h : r.unfinished = 0) : r.waiting = [] :=
  List.length_eq_zero_iff.mp (Nat.add_eq_zero_iff.mp h).1

theorem length_known (r : Runner) :
    r.known.length = r.ready.length + r.replies.length + r.work.held := by
  rw [known]
  cases r.work <;> simp only [Work.held, List.length_append, List.length_singleton, Nat.add_zero]

/-- The report of a request is known before the request is counted. -/
theorem uncounted_le_known (r : Runner) : r.work.uncounted ≤ r.known.length := by
  rw [length_known]
  cases r.work <;> simp only [Work.uncounted, Work.held] <;> omega

/-- One runner goes on with the work of another: it makes no requests and pulls no reports. Requests
that wait are run, and those that have run are counted, so that nothing is lost on the way and the
unit is led to the same place. -/
structure GoesOn (r r' : Runner) : Prop where
  mode_eq : r'.mode = r.mode
  requested_eq : r'.requested = r.requested
  finished_eq : r'.finished + r'.unfinished = r.finished + r.unfinished
  unfinished_le : r'.unfinished ≤ r.unfinished
  /-- The report of a request is known when it has run, counted or not. -/
  known_eq : r'.known.length + (r.finished + r.work.uncounted) =
    r.known.length + (r'.finished + r'.work.uncounted)
  /-- What waits leads the unit to the same place. -/
  effect : applyAll r'.unit (operations r'.waiting) = applyAll r.unit (operations r.waiting)

namespace GoesOn

variable {r r' r'' : Runner}

theorem refl (r : Runner) : r.GoesOn r :=
  ⟨rfl, rfl, rfl, Nat.le_refl _, rfl, rfl⟩

theorem trans (h : r.GoesOn r') (h' : r'.GoesOn r'') : r.GoesOn r'' where
  mode_eq := h'.mode_eq.trans h.mode_eq
  requested_eq := h'.requested_eq.trans h.requested_eq
  finished_eq := h'.finished_eq.trans h.finished_eq
  unfinished_le := Nat.le_trans h'.unfinished_le h.unfinished_le
  known_eq := by
    have hknown := h.known_eq
    have hknown' := h'.known_eq
    omega
  effect := h'.effect.trans h.effect

/-- No request is run or counted by it. -/
theorem of_eq (hmode : r'.mode = r.mode) (hunit : r'.unit = r.unit)
    (hrequested : r'.requested = r.requested) (hfinished : r'.finished = r.finished)
    (huncounted : r'.work.uncounted = r.work.uncounted) (hwaiting : r'.waiting = r.waiting)
    (hknown : r'.known.length = r.known.length) : r.GoesOn r' where
  mode_eq := hmode
  requested_eq := hrequested
  finished_eq := by rw [hfinished, unfinished, unfinished, hwaiting, huncounted]
  unfinished_le := Nat.le_of_eq (by rw [unfinished, unfinished, hwaiting, huncounted])
  known_eq := by rw [hfinished, hknown, huncounted]
  effect := by rw [hunit, hwaiting]

end GoesOn

/-- A worker that is gone stays so. -/
theorem alive_of_step {r : Runner} (halive : r.step.work ≠ .died) : r.work ≠ .died := by
  intro hwork
  have hsame : r.step = r := by rw [step, hwork]
  rw [hsame] at halive
  exact halive hwork

/-- **Worker.** A step of a worker that survives it goes on with the work: what was waiting is in
its hands, or has been run, or has been counted. -/
theorem goesOn_step {r : Runner} (halive : r.step.work ≠ .died) : r.GoesOn r.step := by
  cases hwork : r.work with
  | idle =>
    cases hinbox : r.inbox with
    | nil =>
      have hsame : r.step = r := by rw [step, hwork, hinbox]
      rw [hsame]
      exact .refl r
    | cons request rest =>
      rw [step_of_idle hwork hinbox]
      refine .of_eq rfl rfl rfl rfl ?_ ?_ ?_
      · rw [hwork]
        rfl
      · rw [waiting, waiting, hwork, hinbox]
      · rw [known, known, hwork]
  | received request =>
    cases hrun : request.run r.unit with
    | error fault =>
      refine absurd ?_ halive
      rw [step, hwork]
      simp only [hrun]
    | ok result =>
      obtain ⟨report, unit⟩ := result
      have hwaiting : r.waiting = request :: r.inbox := by rw [waiting, hwork]
      -- it waits no more, but is not counted either
      have hunfinished : r.step.unfinished = r.unfinished := by
        rw [step_of_received hwork hrun, unfinished, unfinished, hwaiting, hwork]
        rfl
      have hknown : r.step.known.length = r.known.length + 1 := by
        rw [step_of_received hwork hrun, known, known, hwork]
        exact List.length_append
      have heffect : applyAll r.step.unit (operations r.step.waiting) =
          applyAll r.unit (operations r.waiting) := by
        rw [hwaiting, applyAll_operations_cons _ hrun, step_of_received hwork hrun]
        rfl
      refine ⟨r.step_keeps.1, ?_, ?_, Nat.le_of_eq hunfinished, ?_, heffect⟩
      · rw [step_of_received hwork hrun]
      · rw [hunfinished, step_of_received hwork hrun]
      · rw [hknown, hwork, step_of_received hwork hrun]
        exact Nat.add_right_comm _ _ _
  | ran report =>
    have hwaiting : r.waiting = r.inbox := by rw [waiting, hwork]
    have hknown : r.step.known = r.known := by
      rw [step_of_ran hwork, known, known, hwork]
    have hunfinished : r.step.unfinished + 1 = r.unfinished := by
      rw [unfinished, unfinished, hwaiting, hwork, step_of_ran hwork]
      rfl
    have hfinished : r.step.finished = r.finished + 1 := by
      rw [step_of_ran hwork]
    refine ⟨r.step_keeps.1, ?_, by omega, by omega, ?_, ?_⟩
    · rw [step_of_ran hwork]
    · rw [hknown, hwork, step_of_ran hwork]
      rfl
    · rw [hwaiting, step_of_ran hwork]
      rfl
  | done report =>
    rw [step_of_done hwork]
    refine .of_eq rfl rfl rfl rfl ?_ ?_ ?_
    · rw [hwork]
      rfl
    · rw [waiting, waiting, hwork]
    · rw [known, known, hwork]
      simp only [List.length_append]
      omega
  | died => exact absurd hwork (alive_of_step halive)

/-- A reply that is received and kept is known as before. -/
theorem goesOn_receive {r : Runner} {report : Report} {rest : List Report}
    (hreplies : r.replies = report :: rest) :
    r.GoesOn { r with replies := rest, ready := r.ready ++ [report] } := by
  refine .of_eq rfl rfl rfl rfl rfl rfl ?_
  rw [known, known, hreplies, List.append_assoc, List.singleton_append]

theorem finished_le_step (r : Runner) : r.finished ≤ r.step.finished := by
  rw [step]
  split
  · split <;> exact Nat.le_refl _
  · split <;> exact Nat.le_refl _
  · exact Nat.le_succ _
  · exact Nat.le_refl _
  · exact Nat.le_refl _

/-! ### What operations of the caller do -/

/-- An operation that is no access takes one runner to another and returns an answer. It leaves the
worker to its work, so a request that has only just run is counted later. -/
structure Performs (r : Runner) (op : Operation) (x : Answer) (r' : Runner) : Prop where
  work_eq : r'.work = r.work
  mode_eq : r'.mode = r.mode
  instant : r.mode = .instant → r.waiting = [] → r'.waiting = []
  requested_eq : r'.requested = r.requested + op.request?.toList.length
  finished_eq : r'.finished + r'.waiting.length =
    r.finished + r.waiting.length + op.request?.toList.length
  known_eq : x.report?.toList.length + r'.known.length + r.finished = r.known.length + r'.finished
  /-- The operation comes behind what waits. -/
  effect : (r.mode = .instant → r.waiting = []) →
    applyAll r'.unit (operations r'.waiting) = applyAll r.unit (operations r.waiting ++ [op])

/-- An operation that does not reach the unit leaves it as it is. -/
theorem applyAll_concat_of_ok {op : Operation} (hop : ∀ unit, op.apply unit = .ok unit)
    (unit : Processor) (ops : List Operation) :
    applyAll unit (ops ++ [op]) = applyAll unit ops := by
  rw [applyAll_append]
  cases applyAll unit ops with
  | error fault => rfl
  | ok unit' => exact (applyAll_singleton unit' op).trans (hop unit')

theorem performs_request {r r' : Runner} {start budget : UInt32}
    (h : r.request start budget = .ok r') : r.Performs (.request start budget) .done r' := by
  obtain ⟨hmode, report, unit, hrun, rfl⟩ | ⟨hmode, halive, rfl⟩ := request_eq_ok h
  · -- the request is run at once, as none waits
    refine ⟨rfl, rfl, fun _ => id, rfl, Nat.add_right_comm _ _ _, ?_, fun hnone => ?_⟩
    · simp only [length_known, Answer.report?, List.length_append, List.length_singleton,
        Option.toList_none, List.length_nil]
      omega
    · have hnothing : operations r.waiting = [] := by rw [hnone hmode, operations, List.map_nil]
      have happly : Operation.apply r.unit (.request start budget) = .ok unit := by
        rw [Operation.apply, hrun]
        rfl
      show applyAll unit (operations r.waiting) = _
      rw [hnothing, List.nil_append, applyAll_singleton, happly]
      rfl
  · -- it waits behind the others
    have hwaiting : ∀ n, waiting { r with
        requested := n, inbox := r.inbox ++ [⟨start, budget⟩] } =
        r.waiting ++ [⟨start, budget⟩] := by
      intro n
      simp only [waiting]
      split <;> rfl
    refine ⟨rfl, rfl, fun hinstant => ?_, rfl, ?_, ?_, fun _ => ?_⟩
    · cases hmode.symm.trans hinstant
    · rw [hwaiting, List.length_append]
      exact (Nat.add_assoc _ _ _).symm
    · simp only [length_known, Answer.report?, Option.toList_none, List.length_nil]
      omega
    · rw [hwaiting, operations, List.map_append]
      rfl

theorem performs_pull {r r' : Runner} {report? : Option Report}
    (hready : r.ready ≠ [] ∨ r.replies ≠ [] ∨ r.underway = 0)
    (h : r.pull = .ok (report?, r')) : r.Performs .pull (.pulled report?) r' := by
  have heffect : applyAll r.unit (operations r.waiting ++ [.pull]) = _ :=
    applyAll_concat_of_ok (fun _ => rfl) _ _
  obtain ⟨report, rest, hcons, rfl, rfl⟩ | ⟨report, rest, hnil, hcons, rfl, rfl⟩ | ⟨rfl, rfl⟩ :=
    pull_eq_ok hready h
  · refine ⟨rfl, rfl, fun _ => id, rfl, rfl, ?_, fun _ => heffect.symm⟩
    simp only [length_known, hcons, Answer.report?, Option.toList_some, List.length_cons,
      List.length_nil]
    omega
  · refine ⟨rfl, rfl, fun _ => id, rfl, rfl, ?_, fun _ => heffect.symm⟩
    simp only [length_known, hcons, Answer.report?, Option.toList_some, List.length_cons,
      List.length_nil]
    omega
  · exact ⟨rfl, rfl, fun _ => id, rfl, rfl, congrArg (· + r'.finished) (Nat.zero_add _),
      fun _ => heffect.symm⟩

theorem performs_outstanding (r : Runner) (n : Nat) :
    r.Performs .outstanding (.number n) r := by
  have heffect : applyAll r.unit (operations r.waiting ++ [.outstanding]) = _ :=
    applyAll_concat_of_ok (fun _ => rfl) _ _
  exact ⟨rfl, rfl, fun _ => id, rfl, rfl, congrArg (· + r.finished) (Nat.zero_add _),
    fun _ => heffect.symm⟩

/-! ### Dropping a runner -/

/-- The steps that the worker has still to take for what it has received: running it, counting it
and sending the report. -/
def Work.chores : Work → Nat
  | .idle => 0
  | .received _ => 3
  | .ran _ => 2
  | .done _ => 1
  | .died => 0

/-- The steps that the worker has still to take until it waits. -/
def chores (r : Runner) : Nat :=
  4 * r.inbox.length + r.work.chores

theorem chores_le (r : Runner) : r.chores ≤ 4 * r.underway := by
  rw [chores, underway]
  cases r.work <;> simp only [Work.chores, Work.size] <;> omega

theorem chores_step {r : Runner} (halive : r.step.work ≠ .died) :
    r.step.chores = r.chores - 1 := by
  cases hwork : r.work with
  | idle =>
    cases hinbox : r.inbox with
    | nil =>
      have hsame : r.step = r := by rw [step, hwork, hinbox]
      rw [hsame, chores, hwork, hinbox]
      rfl
    | cons request rest =>
      simp only [step_of_idle hwork hinbox, chores, hwork, hinbox, Work.chores, List.length_cons]
      omega
  | received request =>
    cases hrun : request.run r.unit with
    | error fault =>
      refine absurd ?_ halive
      rw [step, hwork]
      simp only [hrun]
    | ok result =>
      simp only [step_of_received hwork hrun, chores, hwork, Work.chores]
      omega
  | ran report =>
    simp only [step_of_ran hwork, chores, hwork, Work.chores]
    omega
  | done report =>
    simp only [step_of_done hwork, chores, hwork, Work.chores]
    omega
  | died => exact absurd hwork (alive_of_step halive)

theorem alive_of_steps {r : Runner} (count : Nat) (halive : (r.steps count).work ≠ .died) :
    r.work ≠ .died := by
  induction count generalizing r with
  | zero => exact halive
  | succ count ih => exact alive_of_step (ih halive)

/-- Some steps of a worker that survives them go on with the work, and bring it nearer to its
end. -/
theorem goesOn_steps {r : Runner} (count : Nat) (halive : (r.steps count).work ≠ .died) :
    r.GoesOn (r.steps count) ∧ (r.steps count).chores = r.chores - count := by
  induction count generalizing r with
  | zero => exact ⟨.refl r, rfl⟩
  | succ count ih =>
    have hstep := alive_of_steps count halive
    obtain ⟨hgoes, hchores⟩ := ih halive
    refine ⟨(goesOn_step hstep).trans hgoes, ?_⟩
    rw [steps, hchores, chores_step hstep, Nat.sub_sub, Nat.add_comm]

/-- **Drop.** The worker of a runner that is dropped takes on everything that is left, and is idle
at the end unless a fault ends it before. -/
theorem goesOn_close {r : Runner} (halive : r.close.work ≠ .died) :
    r.GoesOn r.close ∧ r.close.work = .idle ∧ r.close.inbox = [] := by
  obtain ⟨hgoes, hchores⟩ := goesOn_steps (4 * r.underway) halive
  have hzero : r.close.chores = 0 := hchores.trans (Nat.sub_eq_zero_of_le r.chores_le)
  rw [chores, Nat.add_eq_zero_iff] at hzero
  obtain ⟨hinbox, hwork⟩ := hzero
  refine ⟨hgoes, ?_, List.length_eq_zero_iff.mp (by omega)⟩
  cases hclosed : r.close.work with
  | idle => rfl
  | died => exact absurd hclosed halive
  | _ => rw [hclosed] at hwork; cases hwork

namespace Exchange

/-! ### What the caller has done -/

/-- A caller who begins to work with a new runner of either mode. -/
def begin (mode : Mode) (unit : Processor) (ops : List Operation) : Exchange :=
  ⟨Runner.create mode unit, ops, .none, []⟩

/-- The operations that were carried out so far. An access is carried out before its answer
comes. -/
def carriedOut (ops : List Operation) (e : Exchange) : List Operation :=
  match e.handover with
  | .served _ => ops.take (e.answers.length + 1)
  | _ => ops.take e.answers.length

/-- The requests that were made so far, in the order in which they were made. -/
def made (ops : List Operation) (e : Exchange) : List Request :=
  (e.carriedOut ops).filterMap Operation.request?

/-- The reports that were pulled so far. -/
def pulled (e : Exchange) : List Report :=
  e.answers.filterMap Answer.report?

/-- The counts of an exchange are right: each of them is told by the operations that were carried
out so far and by what waits for the worker, or is in its hands. Every step of the caller or the
worker keeps this, so it holds at every point of an exchange. -/
structure Counted (unit : Processor) (ops : List Operation) (e : Exchange) : Prop where
  script_eq : ops.drop e.answers.length = e.script
  /-- Only an access is handed over. -/
  handed : e.handover ≠ .none → ∃ a rest, e.script = .access a :: rest
  /-- An access is not answered with a report. -/
  served : ∀ x, e.handover = .served x → x.report? = none
  /-- In the instant mode requests are run and counted when they are made. -/
  instant : e.runner.mode = .instant → e.runner.unfinished = 0
  requested_eq : e.runner.requested = (e.made ops).length
  finished_eq : e.runner.finished + e.runner.unfinished = e.runner.requested
  known_eq : e.pulled.length + e.runner.known.length =
    e.runner.finished + e.runner.work.uncounted
  /-- What waits leads the unit to where all operations would have led. -/
  effect : applyAll e.runner.unit (operations e.runner.waiting) =
    applyAll unit (e.carriedOut ops)
  /-- An access leaves nothing that waits or is not counted. -/
  accessed : ∀ a, (e.carriedOut ops).getLast? = some (.access a) → e.runner.unfinished = 0

theorem filterMap_concat {α β : Type} (f : α → Option β) (as : List α) (a : α) :
    (as ++ [a]).filterMap f = as.filterMap f ++ (f a).toList := by
  rw [List.filterMap_append, List.filterMap_cons]
  cases f a <;> rfl

/-- The operation that the caller is at comes behind those that are done. -/
theorem take_succ_eq {ops rest : List Operation} {op : Operation} {n : Nat}
    (h : ops.drop n = op :: rest) : ops.take (n + 1) = ops.take n ++ [op] ∧
      ops.drop (n + 1) = rest := by
  have hlt : n < ops.length := by
    refine Nat.lt_of_not_le fun hle => ?_
    rw [List.drop_eq_nil_iff.mpr hle] at h
    cases h
  obtain ⟨hop, hrest⟩ := List.cons.inj ((List.drop_eq_getElem_cons hlt).symm.trans h)
  exact ⟨by rw [List.take_succ_eq_append_getElem hlt, hop], hrest⟩

namespace Counted

variable {unit : Processor} {ops : List Operation} {e e' : Exchange}

theorem begin (mode : Mode) (unit : Processor) (ops : List Operation) :
    Counted unit ops (begin mode unit ops) where
  script_eq := rfl
  handed h := absurd rfl h
  served x h := by cases h
  instant _ := rfl
  requested_eq := rfl
  finished_eq := rfl
  known_eq := rfl
  effect := rfl
  accessed _ _ := rfl

/-- The caller is not at an access unless he is at one. -/
theorem handover_eq (h : Counted unit ops e) {op : Operation} {rest : List Operation}
    (hscript : e.script = op :: rest) (hop : ∀ a, op ≠ .access a) : e.handover = .none := by
  cases hhandover : e.handover with
  | none => rfl
  | _ =>
    obtain ⟨a, rest', haccess⟩ := h.handed (by rw [hhandover]; exact nofun)
    exact absurd (List.cons.inj (hscript.symm.trans haccess)).1 (hop a)

/-- The counts stay right when the runner goes on with its work. -/
theorem goesOn (h : Counted unit ops e) {r : Runner} (hgoes : e.runner.GoesOn r) :
    Counted unit ops { e with runner := r } where
  script_eq := h.script_eq
  handed := h.handed
  served := h.served
  instant hmode := Nat.eq_zero_of_le_zero
    (h.instant (hgoes.mode_eq.symm.trans hmode) ▸ hgoes.unfinished_le)
  requested_eq := hgoes.requested_eq.trans h.requested_eq
  finished_eq := hgoes.finished_eq.trans (h.finished_eq.trans hgoes.requested_eq.symm)
  known_eq := by
    have hknown := h.known_eq
    have hgone := hgoes.known_eq
    show e.pulled.length + r.known.length = r.finished + r.work.uncounted
    omega
  effect := hgoes.effect.trans h.effect
  accessed a hlast := Nat.eq_zero_of_le_zero (h.accessed a hlast ▸ hgoes.unfinished_le)

/-- A worker that is alive was alive before, whoever took the step. -/
theorem alive_of_step (hstep : Step e e') (halive : e'.runner.work ≠ .died) :
    e.runner.work ≠ .died := by
  cases hstep with
  | work => exact Runner.alive_of_step halive
  | serve => exact halive
  | request _ hrequest => exact (performs_request hrequest).work_eq ▸ halive
  | pull _ hready hpull => exact (performs_pull hready hpull).work_eq ▸ halive
  | outstanding => exact halive
  | receive _ _ hreplies hreceive =>
    obtain ⟨report', rest', hcons⟩ := List.exists_cons_of_ne_nil hreplies
    rw [awaitReply_of_cons hcons] at hreceive
    obtain ⟨rfl, rfl⟩ := Prod.mk.inj (Except.ok.inj hreceive)
    exact halive
  | send => exact halive
  | finish => exact halive

/-- The counts stay right when the caller gets the answer to an operation that is no access. -/
theorem performed (h : Counted unit ops e) {op : Operation} {rest : List Operation}
    (hscript : e.script = op :: rest) (hop : ∀ a, op ≠ .access a) {x : Answer} {r : Runner}
    (hperforms : e.runner.Performs op x r) :
    Counted unit ops { e with runner := r, script := rest, answers := e.answers ++ [x] } := by
  have hnone := h.handover_eq hscript hop
  obtain ⟨htake, hdrop⟩ := take_succ_eq (h.script_eq.trans hscript)
  -- nothing is handed over, so what was carried out is what was answered, before and after
  have hlength : (e.answers ++ [x]).length = e.answers.length + 1 := List.length_append
  have hcarried : e.carriedOut ops = ops.take e.answers.length := by rw [carriedOut, hnone]
  have hcarried' : carriedOut ops { e with
      runner := r, script := rest, answers := e.answers ++ [x] } = e.carriedOut ops ++ [op] := by
    rw [hcarried, ← htake, ← hlength, carriedOut, hnone]
  constructor
  · exact hlength ▸ hdrop
  · exact fun hne => absurd hnone hne
  · exact fun x hserved => by cases hnone.symm.trans hserved
  · intro hmode
    have hinstant := hperforms.mode_eq.symm.trans hmode
    have hzero := h.instant hinstant
    have hwaiting := hperforms.instant hinstant (waiting_of_unfinished hzero)
    rw [unfinished, Nat.add_eq_zero_iff] at hzero
    show r.waiting.length + r.work.uncounted = 0
    rw [hwaiting, hperforms.work_eq, hzero.2]
    rfl
  · rw [made, hcarried', filterMap_concat, List.length_append]
    exact hperforms.requested_eq.trans (congrArg (· + _) h.requested_eq)
  · have hfinished := h.finished_eq
    have hfinished' := hperforms.finished_eq
    rw [unfinished] at hfinished
    show r.finished + (r.waiting.length + r.work.uncounted) = r.requested
    rw [hperforms.work_eq, hperforms.requested_eq]
    omega
  · have hpulled : pulled { e with runner := r, script := rest, answers := e.answers ++ [x] } =
        e.pulled ++ x.report?.toList := filterMap_concat _ _ _
    have hknown := h.known_eq
    have hknown' := hperforms.known_eq
    rw [hpulled, List.length_append]
    show _ + r.known.length = r.finished + r.work.uncounted
    rw [hperforms.work_eq]
    omega
  · have heffect := hperforms.effect fun hmode => waiting_of_unfinished (h.instant hmode)
    rw [hcarried', heffect, applyAll_append, applyAll_append, h.effect]
  · intro a hlast
    rw [hcarried', List.getLast?_concat] at hlast
    exact absurd (Option.some.inj hlast) (hop a)

/-- **Step.** Whoever takes a step, the counts stay right. An exchange has one case for each of its
steps, and only the worker can come to an end in one. -/
theorem step (h : Counted unit ops e) (hstep : Step e e') (halive : e'.runner.work ≠ .died) :
    Counted unit ops e' := by
  cases hstep with
  | work hbusy => exact h.goesOn (goesOn_step halive)
  | @serve a rest hscript hsent hidle hempty =>
    -- the access is carried out here and answered later, and no request is left to come before it
    have hwaiting : e.runner.waiting = [] := by rw [waiting, hidle, hempty]
    have hzero : e.runner.unfinished = 0 := by
      rw [unfinished, hwaiting, hidle]
      rfl
    obtain ⟨htake, -⟩ := take_succ_eq (h.script_eq.trans hscript)
    have hcarried : carriedOut ops { e with
        runner := { e.runner with unit := (a.run e.runner.unit).2 }
        handover := .served (a.run e.runner.unit).1 } = e.carriedOut ops ++ [.access a] := by
      rw [carriedOut, carriedOut, hsent]
      exact htake
    exact {
      script_eq := h.script_eq
      handed _ := ⟨a, rest, hscript⟩
      served x hserved := by
        obtain rfl := Handover.served.inj hserved
        exact a.report?_run e.runner.unit
      instant _ := hzero
      requested_eq := by
        rw [made, hcarried, List.filterMap_append]
        exact h.requested_eq.trans (congrArg List.length (List.append_nil _).symm)
      finished_eq := h.finished_eq
      known_eq := h.known_eq
      effect := by
        have heffect := h.effect
        rw [hwaiting] at heffect
        rw [hcarried, applyAll_append, ← heffect]
        show applyAll _ (operations e.runner.waiting) = _
        rw [hwaiting]
        rfl
      accessed _ _ := hzero }
  | request hscript hrequest =>
    exact h.performed hscript (fun a hop => by cases hop) (performs_request hrequest)
  | pull hscript hready hpull =>
    exact h.performed hscript (fun a hop => by cases hop) (performs_pull hready hpull)
  | outstanding hscript =>
    exact h.performed hscript (fun a hop => by cases hop) (performs_outstanding _ _)
  | receive hscript hnone hreplies hreceive =>
    obtain ⟨report', rest', hcons⟩ := List.exists_cons_of_ne_nil hreplies
    rw [awaitReply_of_cons hcons] at hreceive
    obtain ⟨rfl, rfl⟩ := Prod.mk.inj (Except.ok.inj hreceive)
    exact h.goesOn (goesOn_receive hcons)
  | @send a rest hscript hnone hzero =>
    have hcarried : carriedOut ops { e with handover := .sent } = e.carriedOut ops := by
      rw [carriedOut, carriedOut, hnone]
    exact {
      script_eq := h.script_eq
      handed _ := ⟨a, rest, hscript⟩
      served x hserved := by cases hserved
      instant := h.instant
      requested_eq := by rw [made, hcarried]; exact h.requested_eq
      finished_eq := h.finished_eq
      known_eq := h.known_eq
      effect := by rw [hcarried]; exact h.effect
      accessed := by rw [hcarried]; exact h.accessed }
  | @finish a rest x hscript hserved =>
    -- the answer makes no difference to what was carried out, for the access counted already
    have hlength : (e.answers ++ [x]).length = e.answers.length + 1 := List.length_append
    have hcarried : carriedOut ops { e with
        script := rest, handover := .none, answers := e.answers ++ [x] } = e.carriedOut ops := by
      rw [carriedOut, carriedOut, hserved]
      exact congrArg ops.take hlength
    have hpulled : pulled { e with
        script := rest, handover := .none, answers := e.answers ++ [x] } = e.pulled := by
      rw [pulled, filterMap_concat, h.served x hserved]
      exact List.append_nil _
    exact {
      script_eq := hlength ▸ (take_succ_eq (h.script_eq.trans hscript)).2
      handed hne := absurd rfl hne
      served x hserved := by cases hserved
      instant := h.instant
      requested_eq := by rw [made, hcarried]; exact h.requested_eq
      finished_eq := h.finished_eq
      known_eq := by rw [hpulled]; exact h.known_eq
      effect := by rw [hcarried]; exact h.effect
      accessed := by rw [hcarried]; exact h.accessed }

/-- **Course.** The counts are right at any point at which the worker is alive, by induction on the
steps so far. -/
theorem steps (h : Counted unit ops e) {n : Nat} (hsteps : Steps n e e')
    (halive : e'.runner.work ≠ .died) : Counted unit ops e' := by
  induction hsteps with
  | refl => exact h
  | step _ hstep ih => exact (ih h (alive_of_step hstep halive)).step hstep halive

theorem outstanding_add_pulled (h : Counted unit ops e) (halive : e.runner.work ≠ .died) :
    e.runner.outstanding + e.pulled.length = (e.made ops).length := by
  have hfinished := h.finished_eq.trans h.requested_eq
  have hknown := h.known_eq
  rw [unfinished] at hfinished
  rw [outstanding_eq halive]
  omega

/-- A runner is working as long as a request is not counted as finished. -/
theorem isWorking_eq_false_iff (h : Counted unit ops e) :
    e.runner.isWorking = false ↔ e.runner.unfinished = 0 := by
  rw [isWorking, bne_eq_false_iff_eq, ← h.finished_eq]
  omega

/-- When nothing waits, the unit is what all operations have made of it. -/
theorem applyAll_eq (h : Counted unit ops e) (hwaiting : e.runner.waiting = []) :
    applyAll unit (e.carriedOut ops) = .ok e.runner.unit := by
  rw [← h.effect, hwaiting]
  rfl

end Counted

/-! ### What the caller may rely on -/

/-- What the counts tell the caller at some point of an exchange, also between the running of a
request and its being counted. None of them is ever ahead of what has been done, and when no request
is left they are exact. -/
structure Bracketed (unit : Processor) (ops : List Operation) (e : Exchange) : Prop where
  outstanding_add_pulled : e.runner.outstanding + e.pulled.length = (e.made ops).length
  pulled_le : e.pulled.length ≤ e.runner.finished
  finished_le : e.runner.finished ≤ (e.made ops).length
  /-- The count of finished requests never goes back. -/
  finished_mono : ∀ n e', Steps n e e' → e.runner.finished ≤ e'.runner.finished
  /-- A runner that is not working has run all requests, and with them all else. -/
  applied : e.runner.isWorking = false → applyAll unit (e.carriedOut ops) = .ok e.runner.unit
  /-- It is not working when no request is outstanding. -/
  settled : e.runner.outstanding = 0 → e.runner.isWorking = false
  /-- Nor is it when the last thing carried out was an access. -/
  accessed : ∀ a, (e.carriedOut ops).getLast? = some (.access a) → e.runner.isWorking = false
  /-- A runner that is dropped runs all requests before its worker ends. -/
  closed : e.runner.close.work ≠ .died →
    e.runner.close.work = .idle ∧ e.runner.close.inbox = [] ∧
      e.runner.close.finished = (e.made ops).length ∧
      applyAll unit (e.carriedOut ops) = .ok e.runner.close.unit

/-- No step takes back that a request has finished. -/
theorem finished_le_of_step {e e' : Exchange} (hstep : Step e e') :
    e.runner.finished ≤ e'.runner.finished := by
  cases hstep with
  | work => exact e.runner.finished_le_step
  | serve => exact Nat.le_refl _
  | request _ hrequest =>
    obtain ⟨-, report, unit, -, rfl⟩ | ⟨-, -, rfl⟩ := request_eq_ok hrequest
    · exact Nat.le_succ _
    · exact Nat.le_refl _
  | pull _ hready hpull =>
    obtain ⟨report, rest, -, -, rfl⟩ | ⟨report, rest, -, -, -, rfl⟩ | ⟨-, rfl⟩ :=
      pull_eq_ok hready hpull
    · exact Nat.le_refl _
    · exact Nat.le_refl _
    · exact Nat.le_refl _
  | outstanding => exact Nat.le_refl _
  | receive _ _ hreplies hreceive =>
    obtain ⟨report', rest', hcons⟩ := List.exists_cons_of_ne_nil hreplies
    rw [awaitReply_of_cons hcons] at hreceive
    obtain ⟨rfl, rfl⟩ := Prod.mk.inj (Except.ok.inj hreceive)
    exact Nat.le_refl _
  | send => exact Nat.le_refl _
  | finish => exact Nat.le_refl _

theorem finished_le_of_steps {n : Nat} {e e' : Exchange} (hsteps : Steps n e e') :
    e.runner.finished ≤ e'.runner.finished := by
  induction hsteps with
  | refl => exact Nat.le_refl _
  | step _ hstep ih => exact Nat.le_trans ih (finished_le_of_step hstep)

end Exchange

open Exchange in
/-- **Counts.** However the steps of worker and caller have fallen so far, the counts are right. -/
theorem bracketed_of_steps {mode : Mode} {unit : Processor} {ops : List Operation} {n : Nat}
    {e : Exchange} (hsteps : Steps n (.begin mode unit ops) e) (halive : e.runner.work ≠ .died) :
    e.Bracketed unit ops := by
  have h := (Counted.begin mode unit ops).steps hsteps halive
  have hfinished := h.finished_eq.trans h.requested_eq
  have hknown := h.known_eq
  have huncounted := e.runner.uncounted_le_known
  refine ⟨h.outstanding_add_pulled halive, by omega, by omega,
    fun k e' hsteps' => finished_le_of_steps hsteps', fun hidle => ?_, fun hzero => ?_,
    fun a hlast => h.isWorking_eq_false_iff.mpr (h.accessed a hlast), fun hclosed => ?_⟩
  · exact h.applyAll_eq (waiting_of_unfinished (h.isWorking_eq_false_iff.mp hidle))
  · -- a request that has run is outstanding as well, and so is counted
    rw [outstanding_eq halive] at hzero
    rw [h.isWorking_eq_false_iff, unfinished]
    omega
  · obtain ⟨hgoes, hidle, hinbox⟩ := goesOn_close hclosed
    have hwaiting : e.runner.close.waiting = [] := by rw [waiting, hidle, hinbox]
    have hzero : e.runner.close.unfinished = 0 := by
      rw [unfinished, hwaiting, hidle]
      rfl
    have hcounted := h.goesOn hgoes
    have hrun : e.runner.close.finished + e.runner.close.unfinished = (e.made ops).length :=
      hcounted.finished_eq.trans hcounted.requested_eq
    rw [hzero] at hrun
    exact ⟨hidle, hinbox, hrun, hcounted.applyAll_eq hwaiting⟩

/-- Two requests, of which the second one is made before the first one has run. -/
def overlappingScript : List Operation :=
  [.request 0 8, .request 0 9, .pull]

/-- The worker has run the first request and has not counted it, so the runner has finished nothing
yet. -/
theorem bracketed_of_overlappingScript : ∃ new unit unit' e,
    Processor.create .compact .standard = .ok new ∧
      unit = new.write 0 (Pair.image [Pair.programEnd] 16) ∧
      applyAll unit [.request 0 8] = .ok unit' ∧
      Exchange.Steps 4 (.begin .threaded unit overlappingScript) e ∧ e.runner.work ≠ .died ∧
      e.runner.unit = unit' ∧ e.runner.outstanding = 2 ∧ e.runner.finished = 0 ∧
      e.runner.isWorking = true ∧ e.Bracketed unit overlappingScript := by
  obtain ⟨new, hnew, hok⟩ : ∃ new, Processor.create .compact .standard = .ok new ∧
      (Request.run ⟨0, 8⟩ (new.write 0 (Pair.image [Pair.programEnd] 16))).toBool = true :=
    ⟨_, rfl, by decide +kernel⟩
  generalize hunit : new.write 0 (Pair.image [Pair.programEnd] 16) = unit at hok
  cases hrun : Request.run ⟨0, 8⟩ unit with
  | error fault =>
    rw [hrun] at hok
    cases hok
  | ok result =>
    obtain ⟨report, unit'⟩ := result
    -- both requests are made, the first one is received, and it is run
    let made : Runner := { create .threaded unit with requested := 2, inbox := [⟨0, 8⟩, ⟨0, 9⟩] }
    let received : Runner := { made with inbox := [⟨0, 9⟩], work := .received ⟨0, 8⟩ }
    let ran : Runner := { received with unit := unit', work := .ran report }
    let calling (r : Runner) : Exchange := ⟨r, [.pull], .none, [.done, .done]⟩
    have hmade : Exchange.Steps 2 (.begin .threaded unit overlappingScript) (calling made) :=
      (Exchange.Steps.single (.request rfl rfl)).step (.request rfl rfl)
    have hreceived : Exchange.Step (calling made) (calling received) :=
      .work (.inr (List.cons_ne_nil _ _))
    have hran : Exchange.Step (calling received) (calling ran) := by
      have hstep : received.step = ran := step_of_received rfl hrun
      rw [← hstep]
      exact .work (.inl nofun)
    have hsteps := (hmade.step hreceived).step hran
    have halive : ran.work ≠ .died := nofun
    have happly : applyAll unit [.request 0 8] = .ok unit' := by
      rw [applyAll_singleton, Operation.apply, hrun]
      rfl
    exact ⟨new, unit, unit', calling ran, hnew, hunit.symm, happly, hsteps, halive, rfl, rfl, rfl,
      rfl, bracketed_of_steps hsteps halive⟩

end Runner

end VectorUnit
