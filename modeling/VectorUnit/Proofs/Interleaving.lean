import VectorUnit.Instruction.Assembly
import VectorUnit.Proofs.Ledger

/-!
# Callers and workers

In the threaded mode the caller and the worker take their steps in any order. An `Exchange` is a
caller at work: the runner, the operations that are left to do, and the answers received so far. One
`Exchange.Step` is a step of the worker, at any time, or one of the caller. The caller makes a
request without waiting for anything, and pulls a report as soon as there is one. An access takes
several steps: the caller receives the replies that are underway one by one, hands the access over,
and goes on when the worker has answered.

Every step keeps an exchange on course to the answers of the ledger (`Exchange.OnCourse.step`), as
long as an operation is left some step can be taken (`Exchange.OnCourse.exists_step`), and there are
no endless exchanges (`Exchange.OnCourse.stepsLeft_lt`). So the caller gets the answers that the
instant mode gives, however the steps fall (`Runner.threaded_answers`).
-/

namespace VectorUnit

namespace Runner

/-! ### Steps of an exchange -/

/-- What has become of the access that the caller is at. The worker comes to it only when all
requests that were made before have been run and counted. -/
inductive Handover where
  /-- The caller has not handed it over, or is at no access. -/
  | none
  /-- It is on its way to the worker. -/
  | sent
  /-- The worker has answered. -/
  | served (a : Answer)

/-- A caller at work with a runner: what the runner has come to, what the caller has still to ask of
it, and what it was told so far. -/
structure Exchange where
  runner : Runner
  /-- The operations that are left, the one that the caller is at first. -/
  script : List Operation
  handover : Handover
  /-- The answers to the operations that are done. -/
  answers : List Answer

namespace Exchange

/-- A caller who begins to work with a new runner that has a worker. -/
def start (unit : Processor) (ops : List Operation) : Exchange :=
  ⟨Runner.create .threaded unit, ops, .none, []⟩

/-- One step of the worker or the caller. Whichever of them can go on may be the next to do so, and
nothing else is said about when they are. -/
inductive Step : Exchange → Exchange → Prop where
  /-- The worker receives a request, runs it, counts it, or replies. -/
  | work {e : Exchange} (hbusy : e.runner.work ≠ .idle ∨ e.runner.inbox ≠ []) :
      Step e { e with runner := e.runner.step }
  /-- The worker carries out an access. -/
  | serve {e : Exchange} {a : Access} {rest : List Operation}
      (hscript : e.script = .access a :: rest) (hsent : e.handover = .sent)
      (hidle : e.runner.work = .idle) (hempty : e.runner.inbox = []) :
      Step e { e with
        runner := { e.runner with unit := (a.run e.runner.unit).2 }
        handover := .served (a.run e.runner.unit).1 }
  /-- The caller makes a request. -/
  | request {e : Exchange} {start budget : UInt32} {rest : List Operation} {r : Runner}
      (hscript : e.script = .request start budget :: rest)
      (hrequest : e.runner.request start budget = .ok r) :
      Step e { e with runner := r, script := rest, answers := e.answers ++ [.done] }
  /-- The caller pulls a report that is there, or learns that there will be none. -/
  | pull {e : Exchange} {rest : List Operation} {report? : Option Report} {r : Runner}
      (hscript : e.script = .pull :: rest)
      (hready : e.runner.ready ≠ [] ∨ e.runner.replies ≠ [] ∨ e.runner.underway = 0)
      (hpull : e.runner.pull = .ok (report?, r)) :
      Step e { e with runner := r, script := rest, answers := e.answers ++ [.pulled report?] }
  /-- The caller counts the outstanding requests. -/
  | outstanding {e : Exchange} {rest : List Operation} (hscript : e.script = .outstanding :: rest) :
      Step e { e with
        script := rest, answers := e.answers ++ [.number e.runner.outstanding] }
  /-- The caller, who is at an access, receives a reply that was underway. -/
  | receive {e : Exchange} {a : Access} {rest : List Operation} {report : Report} {r : Runner}
      (hscript : e.script = .access a :: rest) (hnone : e.handover = .none)
      (hreplies : e.runner.replies ≠ []) (hreceive : e.runner.awaitReply = .ok (report, r)) :
      Step e { e with runner := { r with ready := r.ready ++ [report] } }
  /-- The caller hands an access over, as nothing is underway any more. -/
  | send {e : Exchange} {a : Access} {rest : List Operation}
      (hscript : e.script = .access a :: rest) (hnone : e.handover = .none)
      (hzero : e.runner.underway = 0) : Step e { e with handover := .sent }
  /-- The caller receives the answer to an access. -/
  | finish {e : Exchange} {a : Access} {rest : List Operation} {x : Answer}
      (hscript : e.script = .access a :: rest) (hserved : e.handover = .served x) :
      Step e { e with script := rest, handover := .none, answers := e.answers ++ [x] }

/-- A number of steps of the worker and the caller, in any order. What holds after all of them,
whatever the order, is what a caller can count on. -/
inductive Steps : Nat → Exchange → Exchange → Prop where
  | refl (e : Exchange) : Steps 0 e e
  | step {n : Nat} {e e' e'' : Exchange} (hsteps : Steps n e e') (hstep : Step e' e'') :
      Steps (n + 1) e e''

/-! ### The course of an exchange -/

/-- The answers received, with those that the ledger has in store for what is left, are the given
ones. -/
inductive OnCourse (as : List Answer) (e : Exchange) : Prop where
  | calling {l : Ledger} {later : List Answer} (hagrees : e.runner.Agrees l)
      (hnone : e.handover = .none) (hrest : l.answers e.script = .ok later)
      (has : as = e.answers ++ later)
  | sent {l : Ledger} {a : Access} {rest : List Operation} {later : List Answer}
      (hagrees : e.runner.Agrees l) (hsent : e.handover = .sent)
      (hscript : e.script = .access a :: rest) (hzero : e.runner.underway = 0)
      (hrest : l.answers e.script = .ok later) (has : as = e.answers ++ later)
  | served {l : Ledger} {a : Access} {rest : List Operation} {x : Answer}
      {later : List Answer} (hagrees : e.runner.Agrees l) (hserved : e.handover = .served x)
      (hscript : e.script = .access a :: rest) (hzero : e.runner.underway = 0)
      (hrest : l.answers rest = .ok later) (has : as = e.answers ++ x :: later)

namespace OnCourse

variable {as : List Answer} {e e' : Exchange}

theorem start {unit : Processor} {ops : List Operation}
    (h : (Ledger.create unit).answers ops = .ok as) : OnCourse as (start unit ops) :=
  .calling (Agrees.create .threaded unit) rfl h rfl

theorem exists_agrees (h : OnCourse as e) : ∃ l, e.runner.Agrees l := by
  cases h with
  | calling hagrees => exact ⟨_, hagrees⟩
  | sent hagrees => exact ⟨_, hagrees⟩
  | served hagrees => exact ⟨_, hagrees⟩

/-- The answers received are the first ones. -/
theorem answers_prefix (h : OnCourse as e) : e.answers <+: as := by
  cases h with
  | calling _ _ _ has => exact ⟨_, has.symm⟩
  | sent _ _ _ _ _ has => exact ⟨_, has.symm⟩
  | served _ _ _ _ _ has => exact ⟨_, has.symm⟩

/-- All answers were received when no operation is left. -/
theorem answers_eq (h : OnCourse as e) (hdone : e.script = []) : e.answers = as := by
  cases h with
  | calling _ _ hrest has =>
    rw [hdone] at hrest
    obtain rfl := Except.ok.inj hrest
    rw [has, List.append_nil]
  | sent _ _ hscript => cases hdone.symm.trans hscript
  | served _ _ hscript => cases hdone.symm.trans hscript

/-- The ledger has an answer to an operation for which the caller does not wait. -/
theorem exists_perform (h : OnCourse as e) {op : Operation} {rest : List Operation}
    (hscript : e.script = op :: rest) (hop : ∀ a, op ≠ .access a) :
    e.handover = .none ∧ ∃ l a l' later, e.runner.Agrees l ∧ l.perform op = .ok (a, l') ∧
      l'.answers rest = .ok later ∧ as = e.answers ++ a :: later := by
  cases h with
  | @calling l later hagrees hnone hrest has =>
    rw [hscript] at hrest
    obtain ⟨a, l', later', hperform, hrest', rfl⟩ := Ledger.answers_cons_eq_ok hrest
    exact ⟨hnone, l, a, l', later', hagrees, hperform, hrest', has⟩
  | @sent _ a _ _ _ _ hscript' =>
    obtain ⟨rfl, -⟩ := List.cons.inj (hscript.symm.trans hscript')
    exact absurd rfl (hop a)
  | @served _ a _ _ _ _ _ hscript' =>
    obtain ⟨rfl, -⟩ := List.cons.inj (hscript.symm.trans hscript')
    exact absurd rfl (hop a)

/-- The exchange goes on with the answer of the ledger. -/
theorem answered {l : Ledger} {r : Runner} {a : Answer} {rest : List Operation}
    {later : List Answer} (hagrees : r.Agrees l) (hrest : l.answers rest = .ok later)
    (has : as = e.answers ++ a :: later) :
    OnCourse as ⟨r, rest, .none, e.answers ++ [a]⟩ := by
  refine .calling hagrees rfl hrest ?_
  rw [has, List.append_assoc, List.singleton_append]

/-- A caller who does not have to wait gets the answer of the ledger. -/
theorem performed (h : OnCourse as e) {op : Operation} {rest : List Operation}
    (hscript : e.script = op :: rest) (hop : ∀ a, op ≠ .access a) {a : Answer} {r : Runner}
    (hperform : e.runner.perform op = .ok (a, r)) :
    OnCourse as { e with runner := r, script := rest, answers := e.answers ++ [a] } := by
  obtain ⟨hnone, l, a', l', later, hagrees, hledger, hrest, has⟩ := h.exists_perform hscript hop
  obtain ⟨r', hperform', hagrees', -⟩ := hagrees.perform hledger
  obtain ⟨rfl, rfl⟩ := Prod.mk.inj (Except.ok.inj (hperform.symm.trans hperform'))
  rw [hnone]
  exact answered hagrees' hrest has

/-- **Step.** Whoever takes a step, the exchange stays on course: an answer that is given is the one
that the ledger gives, and a step of the worker gives none. -/
theorem step (h : OnCourse as e) (hstep : Step e e') : OnCourse as e' := by
  -- the worker has nothing to do while an access is handed over
  have hwait : e.runner.underway = 0 → ¬(e.runner.work ≠ .idle ∨ e.runner.inbox ≠ []) := by
    rintro hzero (hwork | hinbox)
    · exact hwork (idle_of_underway hzero).1
    · exact hinbox (idle_of_underway hzero).2.1
  cases hstep with
  | work hbusy =>
    cases h with
    | calling hagrees hnone hrest has => exact .calling hagrees.step hnone hrest has
    | sent _ _ _ hzero => exact absurd hbusy (hwait hzero)
    | served _ _ _ hzero => exact absurd hbusy (hwait hzero)
  | @serve a rest hscript hsent hidle hempty =>
    cases h with
    | calling _ hnone => cases hnone.symm.trans hsent
    | served _ hserved => cases hserved.symm.trans hsent
    | @sent l b rest' later hagrees _ hscript' hzero hrest has =>
      -- nothing is underway, so the worker has the unit of the ledger
      obtain ⟨hunit, hready, hle⟩ := (Agrees.settled_iff hzero).mp hagrees
      rw [hscript] at hrest
      obtain ⟨x, l', later', hop, hrest', rfl⟩ := Ledger.answers_cons_eq_ok hrest
      obtain ⟨rfl, rfl⟩ := Prod.mk.inj (Except.ok.inj hop)
      rw [← hunit] at has hrest'
      have hzero' : underway { e.runner with unit := (a.run e.runner.unit).2 } = 0 := hzero
      refine .served ?_ rfl hscript hzero' hrest' has
      exact (Agrees.settled_iff hzero').mpr ⟨rfl, hready, hle⟩
  | @request start budget rest r hscript hrequest =>
    refine h.performed hscript (by rintro a ⟨⟩) ?_
    rw [Runner.perform, hrequest]
    rfl
  | @pull rest report? r hscript hready hpull =>
    refine h.performed hscript (by rintro a ⟨⟩) ?_
    rw [Runner.perform, hpull]
    rfl
  | @outstanding rest hscript => exact h.performed hscript (by rintro a ⟨⟩) rfl
  | @receive a rest report r hscript hnone hreplies hreceive =>
    cases h with
    | @calling l later hagrees _ hrest has =>
      obtain ⟨report', r', hawait, hagrees', -⟩ :=
        hagrees.awaitReply (underway_pos_of_replies hreplies)
      obtain ⟨rfl, rfl⟩ := Prod.mk.inj (Except.ok.inj (hreceive.symm.trans hawait))
      exact .calling hagrees' hnone hrest has
    | sent _ hsent => cases hnone.symm.trans hsent
    | served _ hserved => cases hnone.symm.trans hserved
  | @send a rest hscript hnone hzero =>
    cases h with
    | calling hagrees _ hrest has => exact .sent hagrees rfl hscript hzero hrest has
    | sent _ hsent => cases hnone.symm.trans hsent
    | served _ hserved => cases hnone.symm.trans hserved
  | @finish a rest x hscript hserved =>
    cases h with
    | calling _ hnone => cases hnone.symm.trans hserved
    | sent _ hsent => cases hsent.symm.trans hserved
    | served hagrees hserved' hscript' _ hrest has =>
      obtain rfl := Handover.served.inj (hserved.symm.trans hserved')
      obtain ⟨-, rfl⟩ := List.cons.inj (hscript.symm.trans hscript')
      exact answered hagrees hrest has

/-! ### Progress -/

/-- **Progress.** As long as an operation is left, the worker or the caller can take a step. The
caller waits only for what the worker will send. -/
theorem exists_step (h : OnCourse as e) (hleft : e.script ≠ []) : ∃ e', Step e e' := by
  cases h with
  | @sent l a rest later hagrees hsent hscript hzero =>
    obtain ⟨hidle, hempty, -⟩ := idle_of_underway hzero
    exact ⟨_, .serve hscript hsent hidle hempty⟩
  | served _ hserved hscript => exact ⟨_, .finish hscript hserved⟩
  | @calling l later hagrees hnone hrest has =>
    obtain ⟨op, rest, hscript⟩ := List.exists_cons_of_ne_nil hleft
    rw [hscript] at hrest
    obtain ⟨a, l', later', hop, -, -⟩ := Ledger.answers_cons_eq_ok hrest
    obtain ⟨r', hperform, -⟩ := hagrees.perform hop
    -- what is underway waits for the worker, or its reply is there
    have hunderway : e.runner.underway ≠ 0 → e.runner.replies = [] →
        e.runner.work ≠ .idle ∨ e.runner.inbox ≠ [] := by
      intro hpos hreplies
      by_cases hwork : e.runner.work = .idle
      · refine .inr fun hinbox => hpos ?_
        rw [underway, hwork, hinbox, hreplies]
        rfl
      · exact .inl hwork
    cases op with
    | request start budget =>
      obtain ⟨r, hrequest, -⟩ := exists_of_bind_eq_ok hperform
      exact ⟨_, .request hscript hrequest⟩
    | pull =>
      obtain ⟨r, hpull, -⟩ := hagrees.pull
      by_cases hzero : e.runner.underway = 0
      · exact ⟨_, .pull hscript (.inr (.inr hzero)) hpull⟩
      · by_cases hreplies : e.runner.replies = []
        · exact ⟨_, .work (hunderway hzero hreplies)⟩
        · exact ⟨_, .pull hscript (.inr (.inl hreplies)) hpull⟩
    | outstanding => exact ⟨_, .outstanding hscript⟩
    | access a =>
      by_cases hzero : e.runner.underway = 0
      · exact ⟨_, .send hscript hnone hzero⟩
      -- replies are received one by one before the access is handed over
      · by_cases hreplies : e.runner.replies = []
        · exact ⟨_, .work (hunderway hzero hreplies)⟩
        · obtain ⟨report, r, hreceive, -⟩ := hagrees.awaitReply (Nat.pos_of_ne_zero hzero)
          exact ⟨_, .receive hscript hnone hreplies hreceive⟩

end OnCourse

end Exchange

/-! ### Termination -/

/-- The steps that a request has still to go through before its reply comes. -/
def Work.stepsLeft : Work → Nat
  | .idle => 0
  | .received _ => 4
  | .ran _ => 3
  | .done _ => 2
  | .died => 0

/-- A bound on the steps that requests underway have still to go through. -/
def stepsLeft (r : Runner) : Nat :=
  5 * r.inbox.length + r.work.stepsLeft + r.replies.length

theorem Agrees.stepsLeft_step_lt {r : Runner} {l : Ledger} (h : r.Agrees l)
    (hbusy : r.work ≠ .idle ∨ r.inbox ≠ []) : r.step.stepsLeft < r.stepsLeft := by
  cases hwork : r.work with
  | idle =>
    obtain ⟨request, rest, hinbox⟩ :=
      List.exists_cons_of_ne_nil (hbusy.resolve_left fun hne => hne hwork)
    simp only [step_of_idle hwork hinbox, stepsLeft, hwork, hinbox, Work.stepsLeft,
      List.length_cons]
    omega
  | received request =>
    obtain ⟨report, unit, hrun⟩ := h.exists_run_of_received hwork
    simp only [step_of_received hwork hrun, stepsLeft, hwork, Work.stepsLeft]
    omega
  | ran report =>
    simp only [step_of_ran hwork, stepsLeft, hwork, Work.stepsLeft]
    omega
  | done report =>
    simp only [step_of_done hwork, stepsLeft, hwork, Work.stepsLeft, List.length_append,
      List.length_singleton]
    omega
  | died => exact absurd hwork h.alive

theorem stepsLeft_request {r r' : Runner} {start budget : UInt32}
    (h : r.request start budget = .ok r') : r'.stepsLeft ≤ r.stepsLeft + 5 := by
  obtain ⟨-, report, unit, -, rfl⟩ | ⟨-, -, rfl⟩ := request_eq_ok h
  · exact Nat.le_add_right _ _
  · simp only [stepsLeft, List.length_append, List.length_singleton]
    omega

theorem stepsLeft_awaitReply {r r' : Runner} {report : Report} (hreplies : r.replies ≠ [])
    (h : r.awaitReply = .ok (report, r')) : r'.stepsLeft < r.stepsLeft := by
  obtain ⟨report', rest, hcons⟩ := List.exists_cons_of_ne_nil hreplies
  rw [awaitReply_of_cons hcons] at h
  obtain ⟨-, rfl⟩ := Prod.mk.inj (Except.ok.inj h)
  simp only [stepsLeft, hcons, List.length_cons]
  omega

/-- A caller who finds a report does not make more work. -/
theorem stepsLeft_pull {r r' : Runner} {report? : Option Report}
    (hready : r.ready ≠ [] ∨ r.replies ≠ [] ∨ r.underway = 0)
    (h : r.pull = .ok (report?, r')) : r'.stepsLeft ≤ r.stepsLeft := by
  obtain ⟨report, rest, -, -, rfl⟩ | ⟨report, rest, -, hreplies, -, rfl⟩ | ⟨-, rfl⟩ :=
    pull_eq_ok hready h
  · exact Nat.le_refl _
  · simp only [stepsLeft, hreplies, List.length_cons]
    omega
  · exact Nat.le_refl _

/-- The steps that an access has still to go through before its answer comes. -/
def Handover.stepsLeft : Handover → Nat
  | .none => 2
  | .sent => 1
  | .served _ => 0

namespace Exchange

/-- A bound on the steps that an exchange may still take, whoever takes them. Every step makes it
smaller. -/
def stepsLeft (e : Exchange) : Nat :=
  6 * e.script.length + e.runner.stepsLeft + e.handover.stepsLeft

/-- **Termination.** Every step uses up one of the steps that are left. So no order of steps keeps
the caller from its answers for ever. -/
theorem OnCourse.stepsLeft_lt {as : List Answer} {e e' : Exchange} (h : OnCourse as e)
    (hstep : Step e e') : e'.stepsLeft < e.stepsLeft := by
  cases hstep with
  | work hbusy =>
    obtain ⟨l, hagrees⟩ := h.exists_agrees
    have hlt := hagrees.stepsLeft_step_lt hbusy
    simp only [stepsLeft]
    omega
  | @serve a rest hscript hsent hidle hempty =>
    -- the worker is as far with its requests as before, and the access is one step further
    have hsame : Runner.stepsLeft { e.runner with unit := (a.run e.runner.unit).2 } =
        e.runner.stepsLeft := rfl
    simp only [stepsLeft, hsame, hsent, Handover.stepsLeft]
    omega
  | @request start budget rest r hscript hrequest =>
    have hle := stepsLeft_request hrequest
    simp only [stepsLeft, hscript, List.length_cons]
    omega
  | @pull rest report? r hscript hready hpull =>
    have hle := stepsLeft_pull hready hpull
    simp only [stepsLeft, hscript, List.length_cons]
    omega
  | @outstanding rest hscript =>
    simp only [stepsLeft, hscript, List.length_cons]
    omega
  | @receive a rest report r hscript hnone hreplies hreceive =>
    have hlt := stepsLeft_awaitReply hreplies hreceive
    have hsame : Runner.stepsLeft { r with ready := r.ready ++ [report] } = r.stepsLeft := rfl
    simp only [stepsLeft, hsame]
    omega
  | @send a rest hscript hnone hzero =>
    simp only [stepsLeft, hnone, Handover.stepsLeft]
    omega
  | @finish a rest x hscript hserved =>
    simp only [stepsLeft, hscript, hserved, Handover.stepsLeft, List.length_cons]
    omega

/-- A whole exchange stays on course, and takes no more steps than are left. -/
theorem OnCourse.steps {as : List Answer} {n : Nat} {e e' : Exchange} (h : OnCourse as e)
    (hsteps : Steps n e e') : OnCourse as e' ∧ n + e'.stepsLeft ≤ e.stepsLeft := by
  induction hsteps with
  | refl => exact ⟨h, Nat.le_of_eq (Nat.zero_add _)⟩
  | @step n e e' e'' hsteps hstep ih =>
    obtain ⟨hcourse, hle⟩ := ih h
    have hlt := hcourse.stepsLeft_lt hstep
    exact ⟨hcourse.step hstep, by omega⟩

/-! ### The exchange of a runner's own operations -/

theorem Steps.trans {n k : Nat} {e e' e'' : Exchange} (h : Steps n e e') (h' : Steps k e' e'') :
    Steps (n + k) e e'' := by
  induction h' with
  | refl => exact h
  | step _ hstep ih => exact .step (ih h) hstep

theorem Steps.single {e e' : Exchange} (hstep : Step e e') : Steps 1 e e' :=
  .step (.refl e) hstep

/-- Steps of the worker are steps of an exchange, except for those in which it waits. -/
theorem exists_steps_work (e : Exchange) (count : Nat) :
    ∃ n, Steps n e { e with runner := e.runner.steps count } := by
  induction count generalizing e with
  | zero => exact ⟨0, .refl e⟩
  | succ count ih =>
    obtain ⟨n, hsteps⟩ := ih { e with runner := e.runner.step }
    by_cases hidle : e.runner.work = .idle ∧ e.runner.inbox = []
    · have hsame : e.runner.step = e.runner := by rw [Runner.step, hidle.1, hidle.2]
      rw [hsame] at hsteps
      refine ⟨n, ?_⟩
      rw [Runner.steps, hsame]
      exact hsteps
    · exact ⟨_, (Steps.single (.work (Classical.not_and_iff_not_or_not.mp hidle))).trans hsteps⟩

/-- A reply that is awaited comes through steps of the worker, after which it is there. -/
theorem exists_steps_awaitReply {e : Exchange} {report : Report} {r : Runner}
    (hawait : e.runner.awaitReply = .ok (report, r)) :
    ∃ n r₁, Steps n e { e with runner := r₁ } ∧ r₁.replies ≠ [] ∧
      r₁.awaitReply = .ok (report, r) ∧ r₁.ready = e.runner.ready ∧
      r₁.underway = e.runner.underway := by
  by_cases hempty : e.runner.replies.isEmpty = true
  · obtain ⟨n, hsteps⟩ := e.exists_steps_work 4
    rw [awaitReply, if_pos hempty] at hawait
    obtain ⟨-, hready, hunderway⟩ := e.runner.steps_keep 4
    cases hreplies : (e.runner.steps 4).replies with
    | nil =>
      rw [hreplies] at hawait
      cases hawait
    | cons report' rest =>
      rw [hreplies] at hawait
      obtain ⟨rfl, rfl⟩ := Prod.mk.inj (Except.ok.inj hawait)
      refine ⟨n, _, hsteps, ?_, awaitReply_of_cons hreplies, hready, hunderway⟩
      rw [hreplies]
      exact List.cons_ne_nil _ _
  · refine ⟨0, e.runner, .refl e, ?_, hawait, rfl, rfl⟩
    exact fun hnil => hempty (by rw [hnil]; rfl)

/-- A report that is pulled is there after some steps of the worker. -/
theorem exists_steps_pull {e : Exchange} {report? : Option Report} {r : Runner}
    (hpull : e.runner.pull = .ok (report?, r)) :
    ∃ n r₁, Steps n e { e with runner := r₁ } ∧
      (r₁.ready ≠ [] ∨ r₁.replies ≠ [] ∨ r₁.underway = 0) ∧ r₁.pull = .ok (report?, r) := by
  by_cases hready : e.runner.ready = []
  · by_cases hzero : e.runner.underway = 0
    · exact ⟨0, _, .refl e, .inr (.inr hzero), hpull⟩
    · rw [pull, hready] at hpull
      dsimp only at hpull
      rw [if_neg hzero] at hpull
      obtain ⟨⟨report, r'⟩, hawait, hpull⟩ := exists_of_bind_eq_ok hpull
      obtain ⟨rfl, rfl⟩ := Prod.mk.inj (Except.ok.inj hpull)
      obtain ⟨n, r₁, hsteps, hreplies, hawait₁, hready₁, hunderway⟩ :=
        exists_steps_awaitReply hawait
      refine ⟨n, r₁, hsteps, .inr (.inl hreplies), ?_⟩
      rw [pull, hready₁, hready]
      dsimp only
      rw [hunderway, if_neg hzero, hawait₁]
      rfl
  · exact ⟨0, _, .refl e, .inl hready, hpull⟩

theorem exists_steps_settleSome {e : Exchange} {a : Access} {rest : List Operation}
    (hscript : e.script = .access a :: rest) (hnone : e.handover = .none) (count : Nat) {r : Runner}
    (hsettle : Runner.settleSome count e.runner = .ok r) :
    ∃ n, Steps n e { e with runner := r } := by
  induction count generalizing e with
  | zero =>
    obtain rfl := Except.ok.inj hsettle
    exact ⟨0, .refl e⟩
  | succ count ih =>
    rw [Runner.settleSome] at hsettle
    obtain ⟨⟨report, r'⟩, hawait, hsettle⟩ := exists_of_bind_eq_ok hsettle
    obtain ⟨n, r₁, hsteps, hreplies, hawait₁, -⟩ := exists_steps_awaitReply hawait
    have hreceive : Step { e with runner := r₁ }
        { e with runner := { r' with ready := r'.ready ++ [report] } } :=
      .receive hscript hnone hreplies hawait₁
    obtain ⟨k, hrest⟩ :=
      ih (e := { e with runner := { r' with ready := r'.ready ++ [report] } }) hscript hnone
        hsettle
    exact ⟨_, (hsteps.step hreceive).trans hrest⟩

/-- **The runner's own way.** An operation that a runner performs is an exchange in which the worker
takes the steps that the caller waits for, and no others. -/
theorem OnCourse.exists_steps_perform {as : List Answer} {e : Exchange} (h : OnCourse as e)
    (hnone : e.handover = .none) {op : Operation} {rest : List Operation}
    (hscript : e.script = op :: rest) {a : Answer} {r : Runner}
    (hperform : e.runner.perform op = .ok (a, r)) :
    ∃ n, Steps n e { e with runner := r, script := rest, answers := e.answers ++ [a] } := by
  cases op with
  | request start budget =>
    rw [Runner.perform] at hperform
    obtain ⟨r', hrequest, hperform⟩ := exists_of_bind_eq_ok hperform
    obtain ⟨rfl, rfl⟩ := Prod.mk.inj (Except.ok.inj hperform)
    exact ⟨1, .single (.request hscript hrequest)⟩
  | pull =>
    rw [Runner.perform] at hperform
    obtain ⟨⟨report?, r'⟩, hpull, hperform⟩ := exists_of_bind_eq_ok hperform
    obtain ⟨rfl, rfl⟩ := Prod.mk.inj (Except.ok.inj hperform)
    obtain ⟨n, r₁, hsteps, hready, hpull₁⟩ := exists_steps_pull hpull
    have hstep := Step.pull (e := { e with runner := r₁ }) hscript hready hpull₁
    exact ⟨_, hsteps.step hstep⟩
  | outstanding =>
    obtain ⟨rfl, rfl⟩ := Prod.mk.inj (Except.ok.inj hperform)
    exact ⟨1, .single (.outstanding hscript)⟩
  | access a =>
    obtain ⟨l, hagrees⟩ := h.exists_agrees
    obtain ⟨r₁, hsettle, -, hzero, -⟩ := hagrees.settleSome e.runner.underway rfl
    obtain ⟨n, hsteps⟩ := exists_steps_settleSome hscript hnone _ hsettle
    obtain ⟨hidle, hempty, -⟩ := idle_of_underway hzero
    rw [Runner.perform, access_eq_act, act, settle, hsettle] at hperform
    obtain ⟨rfl, rfl⟩ := Prod.mk.inj (Except.ok.inj hperform)
    have hsend := Step.send (e := { e with runner := r₁ }) hscript hnone hzero
    have hserve := Step.serve (e := { e with runner := r₁, handover := .sent }) hscript rfl hidle
      hempty
    have hfinish := Step.finish (e := { e with
      runner := { r₁ with unit := (a.run r₁.unit).2 }
      handover := .served (a.run r₁.unit).1 }) hscript rfl
    rw [← hnone] at hfinish
    exact ⟨_, ((hsteps.step hsend).step hserve).step hfinish⟩

/-- So is a whole script. -/
theorem OnCourse.exists_steps_answers {as : List Answer} {e : Exchange} (h : OnCourse as e)
    (hnone : e.handover = .none) {later : List Answer}
    (hanswers : e.runner.answers e.script = .ok later) :
    ∃ n r, Steps n e { e with runner := r, script := [], answers := e.answers ++ later } := by
  generalize hscript : e.script = ops at hanswers
  induction ops generalizing e later with
  | nil =>
    obtain rfl := Except.ok.inj hanswers
    refine ⟨0, e.runner, ?_⟩
    rw [List.append_nil, ← hscript]
    exact .refl e
  | cons op rest ih =>
    rw [Runner.answers] at hanswers
    obtain ⟨⟨a, r⟩, hperform, hanswers⟩ := exists_of_bind_eq_ok hanswers
    obtain ⟨later', hrest, hanswers⟩ := exists_of_bind_eq_ok hanswers
    obtain rfl := Except.ok.inj hanswers
    obtain ⟨n, hsteps⟩ := h.exists_steps_perform hnone hscript hperform
    obtain ⟨k, r', hsteps'⟩ := ih (h.steps hsteps).1 hnone rfl hrest
    have htrans := hsteps.trans hsteps'
    rw [List.append_assoc, List.singleton_append] at htrans
    exact ⟨_, r', htrans⟩

end Exchange

/-- **Threaded mode.** Let some operations give the answers `as` in the instant mode. Then the
ledger gives them, and so does a runner with a worker, which is an exchange like others. However the
steps of worker and caller fall, the answers that the caller has received are the first ones of
`as`, and all of them when no operation is left; until then some step can be taken, and there are at
most six for each operation, and two more. -/
theorem threaded_answers {unit : Processor} {ops : List Operation} {as : List Answer}
    (hinstant : (create .instant unit).answers ops = .ok as) :
    (Ledger.create unit).answers ops = .ok as ∧ (create .threaded unit).answers ops = .ok as ∧
      (∃ n r, Exchange.Steps n (.start unit ops) ⟨r, [], .none, as⟩) ∧
      ∀ n e, Exchange.Steps n (.start unit ops) e →
        e.answers <+: as ∧ (e.script = [] → e.answers = as) ∧
        (e.script ≠ [] → ∃ e', e.Step e') ∧ n ≤ 6 * ops.length + 2 := by
  have hledger : (Ledger.create unit).answers ops = .ok as := by
    rw [← instant_answers, hinstant]
  have hthreaded := (Agrees.create .threaded unit).answers hledger
  have hstart := Exchange.OnCourse.start hledger
  refine ⟨hledger, hthreaded, hstart.exists_steps_answers rfl hthreaded, fun n e hsteps => ?_⟩
  obtain ⟨hcourse, hle⟩ := hstart.steps hsteps
  refine ⟨hcourse.answers_prefix, hcourse.answers_eq, hcourse.exists_step, ?_⟩
  exact Nat.le_trans (Nat.le_add_right _ _) hle

/-- Requests whose replies an access receives before they are pulled. -/
def drainingScript : List Operation :=
  [.access (.write 0 (Pair.image [Pair.programEnd] 16)), .request 0 8, .request 0 9,
    .access .registers, .request 0 8, .pull, .outstanding, .pull, .pull, .pull]

theorem threaded_answers_of_drainingScript : ∃ unit as,
    Processor.create .compact .standard = .ok unit ∧
      (create .instant unit).answers drainingScript = .ok as ∧
      (create .threaded unit).answers drainingScript = .ok as ∧
      ∀ n e, Exchange.Steps n (.start unit drainingScript) e → e.script = [] →
        e.answers = as := by
  obtain ⟨unit, hnew, hok⟩ : ∃ unit, Processor.create .compact .standard = .ok unit ∧
      ((create .instant unit).answers drainingScript).toBool = true :=
    ⟨_, rfl, by decide +kernel⟩
  cases hinstant : (create .instant unit).answers drainingScript with
  | error fault =>
    rw [hinstant] at hok
    cases hok
  | ok as =>
    obtain ⟨-, hthreaded, -, hall⟩ := threaded_answers hinstant
    exact ⟨unit, as, hnew, hinstant, hthreaded, fun n e hsteps => (hall n e hsteps).2.1⟩

end Runner

end VectorUnit
