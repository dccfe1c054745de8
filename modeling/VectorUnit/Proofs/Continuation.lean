import VectorUnit.CommandLine.Session
import VectorUnit.Proofs.Ledger
import VectorUnit.Proofs.Resumption
import VectorUnit.Proofs.Steps

/-!
# Sessions that go on from a save state

A session may stop, write a save state, and be taken up by another session. What the second one
prints of its unit and would save of it is what a single session shows that runs as often as both
together (`CommandLine.Session.shows_of_splits`). Neither where requests run, nor the cache of the
unit, nor the other unit of the session has any part in it.

A session is followed over a directory: it opens its units (`Supplied.opened_image`,
`Supplied.opened_state`), makes its turns (`Units.Carry.turns`) and shows what they have come to
(`Ready.exists_shows`). Each turn makes one request of a unit and pulls its report, so between turns
a runner stands for a unit, whatever its mode (`Runner.Carries`). Runs leave a unit as they leave it
without a cache (`Processor.executions_spec`), where it makes no difference how many of them were
done before the save state was written (`Uncached.executions_add`).
-/

namespace VectorUnit

/-! ### Runs one after another -/

/-- The unit after a number of runs from one offset. -/
def Processor.executions (start budget : UInt32) : (count : Nat) → Processor →
    Except Fault Processor
  | 0, p => .ok p
  | count + 1, p => do
    let (_, p) ← p.execute start budget
    executions start budget count p

/-- The unit after a number of runs from one offset. -/
def Uncached.executions (start budget : UInt32) : (count : Nat) → Uncached → Option Uncached
  | 0, u => some u
  | count + 1, u => do
    let (_, u) ← u.execute start budget
    executions start budget count u

theorem Uncached.executions_add {start budget : UInt32} {first second : Nat} {u u' : Uncached}
    (h : executions start budget first u = some u') :
    executions start budget (first + second) u = executions start budget second u' := by
  induction first generalizing u with
  | zero =>
    obtain rfl := Option.some.inj h
    rw [Nat.zero_add]
  | succ first ih =>
    obtain ⟨⟨t, u₁⟩, hrun, h⟩ := Option.bind_eq_some_iff.mp h
    rw [Nat.succ_add, executions, hrun]
    exact ih h

/-- **Run.** Runs leave a unit as they leave it without a cache, if code has room and the arena may
be written. -/
theorem Processor.executions_spec {p : Processor} (hp : p.Sound) (start budget : UInt32)
    (count : Nat) : p.Yields (executions start budget count p) fun p' => p'.Sound ∧
      p'.config = p.config ∧
      Uncached.executions start budget count p.uncached = some p'.uncached := by
  induction count generalizing p with
  | zero => exact ⟨hp, rfl, rfl⟩
  | succ count ih =>
    have hspec := execute_spec hp start budget
    rw [executions, Uncached.executions]
    cases hrun : p.execute start budget with
    | error fault =>
      rw [hrun] at hspec
      exact hspec
    | ok result =>
      obtain ⟨t, p₁⟩ := result
      rw [hrun] at hspec
      obtain ⟨hsound, huncached, hunlocked⟩ : p₁.Sound ∧ _ := hspec
      rw [huncached, ← config_execute hrun]
      exact (ih hsound).of_isUnlocked_eq hunlocked

/-! ### Runners between turns -/

namespace Runner

variable {r : Runner} {u u' : Processor}

/-- A runner stands for a unit: when all its requests have run, it has that unit, and no report is
outstanding. -/
def Carries (r : Runner) (u : Processor) : Prop :=
  ∃ reports, r.Agrees ⟨u, reports, reports.length⟩

theorem carries_create (mode : Mode) (u : Processor) : (create mode u).Carries u :=
  ⟨[], Agrees.create mode u⟩

/-- **Turn.** A request is made, and its report is pulled. The runner stands for its unit after a
run then, in either mode. -/
theorem Carries.turn (h : r.Carries u) {start budget : UInt32} {t : Tally}
    (hrun : u.execute start budget = .ok (t, u')) :
    ∃ r₁ report? r₂, r.request start budget = .ok r₁ ∧ r₁.pull = .ok (report?, r₂) ∧
      r₂.Carries u' := by
  obtain ⟨reports, hagrees⟩ := h
  obtain ⟨report, hreport⟩ : ∃ report, Request.run ⟨start, budget⟩ u = .ok (report, u') :=
    ⟨⟨t, u'.registers⟩, by rw [Request.run, hrun]⟩
  obtain ⟨r₁, hrequest, hagrees₁, -⟩ := hagrees.request hreport
  obtain ⟨r₂, hpull, hagrees₂, -⟩ := hagrees₁.pull
  refine ⟨r₁, _, r₂, hrequest, hpull, reports ++ [report], ?_⟩
  have hpulled : min (reports.length + 1) (reports ++ [report]).length =
      (reports ++ [report]).length := by
    rw [List.length_append, List.length_singleton, Nat.min_self]
  rw [← hpulled]
  exact hagrees₂

theorem Carries.registers (h : r.Carries u) :
    ∃ r', r.registers = .ok (u.registers, r') ∧ r'.Carries u := by
  obtain ⟨reports, hagrees⟩ := h
  obtain ⟨r', haccess, hagrees', -⟩ := hagrees.access .registers
  obtain ⟨⟨registers, r₁⟩, hregisters, haccess⟩ := exists_of_bind_eq_ok haccess
  obtain ⟨heq, rfl⟩ := Prod.mk.inj (Except.ok.inj haccess)
  obtain rfl := Answer.registers.inj heq
  exact ⟨r₁, hregisters, reports, hagrees'⟩

theorem Carries.save (h : r.Carries u) : ∃ r', r.save = .ok (u.save, r') := by
  obtain ⟨reports, hagrees⟩ := h
  obtain ⟨r', haccess, -⟩ := hagrees.access .save
  obtain ⟨⟨saved, r₁⟩, hsave, haccess⟩ := exists_of_bind_eq_ok haccess
  obtain ⟨heq, rfl⟩ := Prod.mk.inj (Except.ok.inj haccess)
  obtain rfl := Answer.saved.inj heq
  exact ⟨r₁, hsave⟩

end Runner

namespace CommandLine

namespace Session

section Steps

variable {α β : Type} {x : Step (StateM Directory) α} {f : α → Step (StateM Directory) β} {c : α}
  {d d' : Directory} {path : String} {content : Content} {host : Host} {a : Arguments}
  {kind : UnitKind} {s : SaveState} {p p' : Processor}

/-! ### Steps of a session over a directory -/

theorem run_bind_of_ok (h : x.run d = (.ok c, d')) : (x >>= f).run d = (f c).run d' := by
  show (match x.run d with | (r, d) => ExceptT.bindCont f r d) = _
  rw [h]
  rfl

theorem run_of_eq_ok {y : Except Failure α} (h : y = .ok c) :
    (liftM y : Step (StateM Directory) α).run d = (.ok c, d) := by
  rw [h]
  rfl

theorem run_lift {y : StateM Directory α} (h : y.run d = (c, d')) :
    (liftM y : Step (StateM Directory) α).run d = (.ok c, d') := by
  show (Except.ok <$> y : StateM Directory _).run d = _
  rw [StateT.run_map, h]
  rfl

theorem run_readFile (h : d.read path = .ok content) :
    (readFile Directory.files path).run d = (.ok content, d) := by
  have hread : (Directory.files.read path).run d = (d.read path, d) := rfl
  rw [readFile, run_bind_of_ok (run_lift hread), h]
  rfl

theorem run_write (h : d.write path content = .ok d') :
    (Directory.files.write path content).run d = (.ok ⟨⟩, d') := by
  simp only [Directory.files, StateT.run_bind, StateT.run_get, pure_bind, h]
  rfl

theorem run_readState (h : d.read path = .ok content) (hdecode : SaveState.decode content = .ok s) :
    (readState Directory.files path).run d = (.ok s, d) := by
  rw [readState, run_bind_of_ok (run_readFile h), hdecode]
  rfl

/-- A unit is opened on an image. -/
theorem run_openUnit_image (hnew : Processor.create host (a.config kind) = .ok p)
    (hread : d.read path = .ok content) (hfits : content.length ≤ p.config.kind.memorySize) :
    (openUnit host Directory.files a kind (some path) none).run d =
      (.ok (.create a.mode (p.write 0 content)), d) := by
  have hcreate : createUnit host (a.config kind) = .ok p := by rw [createUnit, hnew]
  have himage : withImage p content = .ok (p.write 0 content) := if_pos hfits
  rw [openUnit, run_bind_of_ok (run_of_eq_ok hcreate)]
  simp only [pure_bind]
  rw [run_bind_of_ok (run_readFile hread), run_bind_of_ok (run_of_eq_ok himage)]
  rfl

/-- A unit is opened on a save state. -/
theorem run_openUnit_state (hnew : Processor.create host (a.config kind) = .ok p)
    (hload : p.load s = .ok p') :
    (openUnit host Directory.files a kind none (some s)).run d = (.ok (.create a.mode p'), d) := by
  have hcreate : createUnit host (a.config kind) = .ok p := by rw [createUnit, hnew]
  have hstate : withState p s = .ok p' := by rw [withState, hload]
  rw [openUnit, run_bind_of_ok (run_of_eq_ok hcreate)]
  dsimp only
  rw [run_bind_of_ok (run_of_eq_ok hstate)]
  rfl

theorem run_openUnits {state? : Option SaveState} {main : Runner} {other : Option Runner}
    (hstate : (readResumed Directory.files a).run d = (.ok state?, d))
    (hgiven : (a.image.isNone && state?.isNone) = false)
    (hmain : (openUnit host Directory.files a a.kind a.image state?).run d = (.ok main, d))
    (hother : (openOther host Directory.files a).run d = (.ok other, d)) :
    (openUnits host Directory.files a).run d = (.ok ⟨main, other⟩, d) := by
  rw [openUnits, run_bind_of_ok hstate]
  dsimp only
  rw [hgiven]
  show (openUnit host Directory.files a a.kind a.image state? >>= _).run d = _
  rw [run_bind_of_ok hmain, run_bind_of_ok hother]
  rfl

/-- A session opens its units, runs them, shows them and saves one. -/
theorem run_eq {units units' : Units} {printed : List String}
    (hopen : (openUnits host Directory.files a).run d = (.ok units, d))
    (hruns : runUnits a units = .ok (printed, units'))
    (hsave : (save Directory.files a units').run d = (.ok ⟨⟩, d')) :
    (run host Directory.files a).run d = (.success printed, d') := by
  have hopen' : StateT.run (openUnits host Directory.files a).run d = (.ok units, d) := hopen
  have hsave' : StateT.run (save Directory.files a units').run d = (.ok ⟨⟩, d') := hsave
  rw [run, StateT.run_bind, hopen']
  show StateT.run _ d = _
  dsimp only
  rw [hruns]
  dsimp only
  rw [StateT.run_bind, hsave']
  rfl

end Steps

/-! ### What sessions open -/

section Opening

variable {d : Directory} {path : String} {content : Content} {host : Host} {a : Arguments}
  {u : Processor} {v? : Option Processor}

/-- A session opens a unit, and perhaps another one, and nothing is written to its directory for
that. What follows is said about these units. -/
def Opens (host : Host) (a : Arguments) (d : Directory) (u : Processor) (v? : Option Processor) :
    Prop :=
  (openUnits host Directory.files a).run d = (.ok ⟨.create a.mode u, v?.map (.create a.mode)⟩, d)

/-- What a session needs is there, apart from a save state to go on from: memory for its arenas,
images that fit, and a place for the save state that it writes. -/
structure Supplied (host : Host) (a : Arguments) (d : Directory) : Prop where
  arena : (a.config a.kind).arenaSize < Arena.unmappableLength
  /-- The machine lets arenas of that length be written. -/
  unlocks : host.unlocks (max (a.config a.kind).arenaSize Arena.minLength) = true
  image : ∀ path, a.image = some path →
    ∃ content, d.read path = .ok content ∧ content.length ≤ a.kind.memorySize
  other : ∀ path, a.other = some path →
    ∃ content, d.read path = .ok content ∧ content.length ≤ a.kind.other.memorySize
  keepIn : ∀ path, a.keepIn = some path → ∀ content, ∃ d', d.write path content = .ok d'

/-- A session has what it needs, and in no run of its units the code of a block has no room. The
runs are taken one after another without a runner, which comes to the same. -/
structure Ready (host : Host) (a : Arguments) (d : Directory) : Prop extends
    Supplied host a d where
  room : ∀ u v?, Opens host a d u v? → ∀ w, w = u ∨ v? = some w → ∀ offset,
    Processor.executions a.start a.budget a.iterations w ≠ .error (.exhausted offset)

/-- A session opens sound units of the kinds that were asked for, and the machine lets their arenas
be written. -/
structure Opened (host : Host) (a : Arguments) (d : Directory) (u : Processor)
    (v? : Option Processor) : Prop where
  opens : Opens host a d u v?
  sound : u.Sound
  unlocked : u.isUnlocked = true
  config_eq : u.config = a.config a.kind
  other_sound : ∀ v, v? = some v → v.Sound
  other_unlocked : ∀ v, v? = some v → v.isUnlocked = true
  alone : a.other = none → v? = none

theorem Opens.unique {u' : Processor} {v'? : Option Processor} (h : Opens host a d u v?)
    (h' : Opens host a d u' v'?) : u' = u ∧ v'? = v? := by
  obtain ⟨hunits, -⟩ := Prod.mk.inj (h'.symm.trans h)
  obtain ⟨hmain, hother⟩ := Units.mk.inj (Except.ok.inj hunits)
  have hinj : Function.Injective (Runner.create a.mode) := fun _ _ => congrArg Runner.unit
  exact ⟨hinj hmain, Option.map_injective hinj hother⟩

/-- Without another unit, the runs of the unit are all that need room. -/
theorem Opened.ready (h : Opened host a d u v?) (hsupplied : Supplied host a d)
    (hother : a.other = none)
    (hruns : (Processor.executions a.start a.budget a.iterations u).toBool = true) :
    Ready host a d := by
  refine ⟨hsupplied, fun u' v'? hopens w hw offset hfault => ?_⟩
  obtain ⟨rfl, rfl⟩ := h.opens.unique hopens
  rw [h.alone hother] at hw
  obtain rfl := hw.resolve_right nofun
  rw [hfault] at hruns
  cases hruns

theorem Supplied.exists_create (h : Supplied host a d) (kind : UnitKind) :
    ∃ p, Processor.create host (a.config kind) = .ok p ∧ p.isUnlocked = true := by
  have hlength : (a.config kind).arenaSize < Arena.unmappableLength := h.arena
  obtain ⟨p, hnew⟩ : ∃ p, Processor.create host (a.config kind) = .ok p := by
    rw [Processor.create, Recompiler.create, Arena.reserve, if_neg (Nat.not_le.mpr hlength)]
    exact ⟨_, rfl⟩
  exact ⟨p, hnew, (Processor.isUnlocked_create hnew).trans h.unlocks⟩

/-- A new unit with an image. -/
theorem sound_write_create {config : Config} {p : Processor}
    (hnew : Processor.create host config = .ok p) (content : Content) :
    (p.write 0 content).Sound ∧ (p.write 0 content).config = config ∧
      (p.write 0 content).uncached = (Uncached.create config).write 0 content ∧
      (p.write 0 content).isUnlocked = p.isUnlocked := by
  obtain ⟨hsound, hcreate⟩ := Processor.sound_create hnew
  obtain ⟨hsound', huncached, hunlocked⟩ := Processor.write_spec hsound 0 content
  rw [hcreate] at huncached
  rw [Processor.config_write, Processor.config_create hnew]
  exact ⟨hsound', rfl, huncached, hunlocked⟩

/-- A unit is opened on an image that fits. -/
theorem Supplied.exists_unit (h : Supplied host a d) {kind : UnitKind}
    (hread : d.read path = .ok content) (hfits : content.length ≤ kind.memorySize) :
    ∃ p, Processor.create host (a.config kind) = .ok p ∧ p.isUnlocked = true ∧
      (openUnit host Directory.files a kind (some path) none).run d =
        (.ok (.create a.mode (p.write 0 content)), d) := by
  obtain ⟨p, hnew, hunlocked⟩ := h.exists_create kind
  have hfits' : content.length ≤ p.config.kind.memorySize := by
    rwa [Processor.config_create hnew]
  exact ⟨p, hnew, hunlocked, run_openUnit_image hnew hread hfits'⟩

theorem Supplied.exists_other (h : Supplied host a d) : ∃ v? : Option Processor,
    (openOther host Directory.files a).run d = (.ok (v?.map (.create a.mode)), d) ∧
      (∀ v, v? = some v → v.Sound ∧ v.isUnlocked = true) ∧ (a.other = none → v? = none) := by
  rw [openOther]
  cases hother : a.other with
  | none => exact ⟨none, rfl, nofun, fun _ => rfl⟩
  | some path =>
    obtain ⟨content, hread, hfits⟩ := h.other path hother
    obtain ⟨p, hnew, hunlocked, hopen⟩ := h.exists_unit hread hfits
    obtain ⟨hsound, -, -, hsame⟩ := sound_write_create hnew content
    refine ⟨some (p.write 0 content), ?_, fun v hv => ?_, nofun⟩
    case refine_2 =>
      obtain rfl := Option.some.inj hv
      exact ⟨hsound, hsame.trans hunlocked⟩
    dsimp only
    rw [run_bind_of_ok hopen]
    rfl

/-- **Image.** A session opens its unit on an image, whose content is written to the microcode from
its beginning. Nothing else was done to the unit. -/
theorem Supplied.opened_image (h : Supplied host a d) (himage : a.image = some path)
    (hresume : a.resumeFrom = none) (hread : d.read path = .ok content)
    (hfits : content.length ≤ a.kind.memorySize) :
    ∃ p v?, Processor.create host (a.config a.kind) = .ok p ∧
      Opened host a d (p.write 0 content) v? := by
  obtain ⟨p, hnew, hunlocked, hopen⟩ := h.exists_unit hread hfits
  obtain ⟨hsound, hconfig, -, hsame⟩ := sound_write_create hnew content
  obtain ⟨v?, hother, hothers, halone⟩ := h.exists_other
  have hstate : (readResumed Directory.files a).run d = (.ok none, d) := by
    rw [readResumed, hresume]
    rfl
  refine ⟨p, v?, hnew, run_openUnits hstate ?_ ?_ hother, hsound, hsame.trans hunlocked, hconfig,
    fun v hv => (hothers v hv).1, fun v hv => (hothers v hv).2, halone⟩
  · rw [himage]
    rfl
  · rwa [himage]

/-- **Save state.** A session opens its unit on a save state that fits, without an image. What is
read back from the file is the save state that was encoded there. -/
theorem Supplied.opened_state (h : Supplied host a d) {s : SaveState} (himage : a.image = none)
    (hresume : a.resumeFrom = some path) (hread : d.read path = .ok content)
    (hdecode : SaveState.decode content = .ok s) (hkind : s.kind = a.kind)
    (hsize : s.microcode.size = a.kind.memorySize) :
    ∃ p u v?, Processor.create host (a.config a.kind) = .ok p ∧ p.load s = .ok u ∧
      Opened host a d u v? ∧
      u.uncached = ⟨a.kind, a.blockLength, s.microcode, s.registers⟩ := by
  obtain ⟨p, hnew, hunlocked⟩ := h.exists_create a.kind
  obtain ⟨hsound, hcreate⟩ := Processor.sound_create hnew
  have hfits : (Uncached.create (a.config a.kind)).load s =
      .ok ⟨a.kind, a.blockLength, s.microcode, s.registers⟩ := by
    have hfit : s.fit (Uncached.create (a.config a.kind)).kind = .ok ⟨⟩ := if_pos ⟨hkind, hsize⟩
    rw [Uncached.load, hfit]
    rfl
  rcases Processor.load_spec hsound s with ⟨u, hload, hsound', huncached, hsame⟩ | ⟨e, -, hfails⟩
  · obtain ⟨v?, hother, hothers, halone⟩ := h.exists_other
    have hstate : (readResumed Directory.files a).run d = (.ok (some s), d) := by
      rw [readResumed, hresume]
      dsimp only
      rw [run_bind_of_ok (run_readState hread hdecode)]
      rfl
    have hopen := run_openUnit_state (a := a) (d := d) hnew hload
    rw [hcreate, hfits] at huncached
    refine ⟨p, u, v?, hnew, hload,
      ⟨run_openUnits hstate ?_ ?_ hother, hsound', hsame.trans hunlocked, ?_,
        fun v hv => (hothers v hv).1, fun v hv => (hothers v hv).2, halone⟩,
      (Except.ok.inj huncached).symm⟩
    · rw [himage]
      rfl
    · rwa [himage]
    · rw [Processor.config_load hload, Processor.config_create hnew]
  · rw [hcreate, hfits] at hfails
    cases hfails

end Opening

/-! ### The course of a session -/

/-- The units of a session stand for units, when all requests have run. In the threaded mode a
runner may be behind, and what it will have come to then is what counts. -/
structure Units.Carry (units : Units) (u : Processor) (v? : Option Processor) : Prop where
  main : units.main.Carries u
  other : Option.Rel Runner.Carries units.other v?

section Course

variable {d d' : Directory} {host : Host} {a : Arguments} {units : Units} {u u' : Processor}
  {v? v'? : Option Processor}

theorem carry_create (mode : Runner.Mode) (u : Processor) (v? : Option Processor) :
    Units.Carry ⟨.create mode u, v?.map (.create mode)⟩ u v? := by
  refine ⟨Runner.carries_create mode u, ?_⟩
  cases v? with
  | none => exact .none
  | some v => exact .some (Runner.carries_create mode v)

/-- **Turn.** In a turn each unit makes one run. Neither of them sees the other, so they may be
looked at one by one. -/
theorem Units.Carry.turn (h : units.Carry u v?) {t : Tally}
    (hmain : u.execute a.start a.budget = .ok (t, u'))
    (hother : Option.Rel (fun v v' => ∃ t, v.execute a.start a.budget = .ok (t, v')) v? v'?) :
    ∃ units', turn a units = .ok units' ∧ units'.Carry u' v'? := by
  obtain ⟨main, other⟩ := units
  obtain ⟨hcarries, hothers⟩ := h
  obtain ⟨r₁, report, r₂, hrequest, hpull, hcarries'⟩ := hcarries.turn hmain
  rw [Session.turn, hrequest]
  cases hothers with
  | none =>
    cases hother
    refine ⟨⟨r₂, none⟩, ?_, hcarries', .none⟩
    show (r₁.pull >>= _) = _
    rw [hpull]
    rfl
  | some hcarry =>
    cases hother with
    | some hother =>
      obtain ⟨t', hrun⟩ := hother
      obtain ⟨q₁, report', q₂, hrequest', hpull', hcarry'⟩ := hcarry.turn hrun
      refine ⟨⟨r₂, some q₂⟩, ?_, hcarries', .some hcarry'⟩
      show (Runner.request _ a.start a.budget >>= _) = _
      rw [hrequest']
      show (r₁.pull >>= fun x => q₁.pull >>= _) = _
      rw [hpull, hpull']
      rfl

/-- **Turns.** In a number of turns each unit makes as many runs, by induction on the turns. -/
theorem Units.Carry.turns (count : Nat) (h : units.Carry u v?)
    (hmain : Processor.executions a.start a.budget count u = .ok u')
    (hother : Option.Rel (fun v v' => Processor.executions a.start a.budget count v = .ok v')
      v? v'?) :
    ∃ units', turns a count units = .ok units' ∧ units'.Carry u' v'? := by
  induction count generalizing units u v? with
  | zero =>
    obtain rfl := Except.ok.inj hmain
    refine ⟨units, rfl, h.main, ?_⟩
    cases hother with
    | none => exact h.other
    | some hother =>
      obtain rfl := Except.ok.inj hother
      exact h.other
  | succ count ih =>
    obtain ⟨⟨t, u₁⟩, hrun, hmain⟩ := exists_of_bind_eq_ok hmain
    obtain ⟨v₁?, hfirst, hrest⟩ : ∃ v₁?, Option.Rel
        (fun v v' => ∃ t, v.execute a.start a.budget = .ok (t, v')) v? v₁? ∧
        Option.Rel (fun v v' => Processor.executions a.start a.budget count v = .ok v')
          v₁? v'? := by
      cases hother with
      | none => exact ⟨none, .none, .none⟩
      | some hother =>
        obtain ⟨⟨t', v₁⟩, hrun', hother⟩ := exists_of_bind_eq_ok hother
        exact ⟨some v₁, .some ⟨t', hrun'⟩, .some hother⟩
    obtain ⟨units₁, hturn, hcarry⟩ := h.turn hrun hfirst
    obtain ⟨units₂, hturns, hcarry'⟩ := ih hcarry hmain hrest
    refine ⟨units₂, ?_, hcarry'⟩
    rw [Session.turns, hturn]
    exact hturns

/-- The registers of the unit are printed, and then those of the other one, if there is one. -/
theorem Units.Carry.showUnits (h : units.Carry u v?) : ∃ rest units',
    showUnits a units = .ok (registerLines a.kind u.registers ++ rest, units') ∧
      units'.main.Carries u ∧ (v? = none → rest = []) := by
  obtain ⟨main, other⟩ := units
  obtain ⟨hcarries, hothers⟩ := h
  obtain ⟨r, hregisters, hcarries'⟩ := hcarries.registers
  rw [Session.showUnits, hregisters]
  cases hothers with
  | none => exact ⟨[], ⟨r, none⟩, by rw [List.append_nil]; rfl, hcarries', fun _ => rfl⟩
  | @some q v hcarry =>
    obtain ⟨q', hregisters', -⟩ := hcarry.registers
    refine ⟨registerLines a.kind.other v.registers, ⟨r, some q'⟩, ?_, hcarries', nofun⟩
    show (q.registers >>= _) = _
    rw [hregisters']
    rfl

/-- The save state of the unit is written where it was asked for. -/
theorem run_save (h : Supplied host a d) (hcarries : units.main.Carries u) : ∃ d',
    (save Directory.files a units).run d = (.ok ⟨⟩, d') ∧
      ∀ path, a.keepIn = some path → d'.read path = .ok u.save.encode := by
  rw [save]
  cases hkeep : a.keepIn with
  | none => exact ⟨d, rfl, nofun⟩
  | some path =>
    obtain ⟨r, hsave⟩ := hcarries.save
    obtain ⟨d', hwrite⟩ := h.keepIn path hkeep u.save.encode
    refine ⟨d', ?_, fun other hother => Option.some.inj hother ▸ Directory.read_write hwrite⟩
    have hsaved : surface units.main.save = .ok (u.save, r) := by
      rw [hsave]
      rfl
    dsimp only
    rw [run_bind_of_ok (run_of_eq_ok hsaved)]
    dsimp only
    rw [run_bind_of_ok (run_lift (run_write hwrite))]
    rfl

/-- A session over a directory ends well and shows its unit with a save state. Two sessions that
show the same save state have left the same microcode and the same registers. -/
structure Shows (host : Host) (a : Arguments) (d : Directory) (s : SaveState) : Prop where
  exitCode_eq : ((run host Directory.files a).run d).1.exitCode = 0
  /-- The registers of the unit are printed first, and nothing else if there is no other unit. -/
  printed_eq : ∃ rest, ((run host Directory.files a).run d).1.printed =
    registerLines a.kind s.registers ++ rest ∧ (a.other = none → rest = [])
  /-- The save state is that of the unit after all runs, whether or not it is written. -/
  save_eq : ∃ units printed units' r,
    (openUnits host Directory.files a).run d = (.ok units, d) ∧
      runUnits a units = .ok (printed, units') ∧ units'.main.save = .ok (s, r)
  /-- It is written where it was asked for. -/
  kept : ∀ path, a.keepIn = some path →
    ((run host Directory.files a).run d).2.read path = .ok s.encode

theorem Opened.executions_eq_ok (h : Opened host a d u v?)
    (hruns : Processor.executions a.start a.budget a.iterations u = .ok u') :
    u'.Sound ∧ u'.config = a.config a.kind ∧
      Uncached.executions a.start a.budget a.iterations u.uncached = some u'.uncached := by
  have hspec := Processor.executions_spec h.sound a.start a.budget a.iterations
  rw [hruns, h.config_eq] at hspec
  exact hspec

/-- The runs of a session have results. -/
theorem Ready.exists_executions (h : Ready host a d) (hopened : Opened host a d u v?) :
    ∃ u' v'?, Processor.executions a.start a.budget a.iterations u = .ok u' ∧
      Option.Rel (fun v v' => Processor.executions a.start a.budget a.iterations v = .ok v')
        v? v'? := by
  have hruns : ∀ w : Processor, w.Sound → w.isUnlocked = true → w = u ∨ v? = some w →
      ∃ w', Processor.executions a.start a.budget a.iterations w = .ok w' := by
    intro w hsound hunlocked hw
    have hspec := Processor.executions_spec hsound a.start a.budget a.iterations
    obtain ⟨w', hrun, -⟩ := hspec.exists_ok hunlocked (h.room u v? hopened.opens w hw)
    exact ⟨w', hrun⟩
  obtain ⟨u', hmain⟩ := hruns u hopened.sound hopened.unlocked (.inl rfl)
  cases hv : v? with
  | none => exact ⟨u', none, hmain, .none⟩
  | some v =>
    obtain ⟨v', hother⟩ :=
      hruns v (hopened.other_sound v hv) (hopened.other_unlocked v hv) (.inr hv)
    exact ⟨u', some v', hmain, .some hother⟩

/-- **Session.** A session makes all runs of its units, and shows what they have come to: the
registers that it prints and the save state that it writes are those of the units after these runs.
-/
theorem Ready.exists_shows (h : Ready host a d) (hopened : Opened host a d u v?) :
    ∃ u', Processor.executions a.start a.budget a.iterations u = .ok u' ∧
      Shows host a d u'.save := by
  obtain ⟨u', v'?, hmain, hother⟩ := h.exists_executions hopened
  obtain ⟨units, hturns, hcarry⟩ := (carry_create a.mode u v?).turns a.iterations hmain hother
  obtain ⟨rest, units', hshow, hcarries, halone⟩ := hcarry.showUnits (a := a)
  obtain ⟨d', hsave, hkept⟩ := run_save h.toSupplied hcarries
  have hrununits : runUnits a ⟨.create a.mode u, v?.map (.create a.mode)⟩ =
      .ok (registerLines a.kind u'.registers ++ rest, units') := by
    rw [runUnits, hturns]
    show surface (showUnits a units) = _
    rw [hshow]
    rfl
  obtain ⟨r, hsaved⟩ := hcarries.save
  have hrun := run_eq hopened.opens hrununits hsave
  have halone' : a.other = none → rest = [] := fun hnone => halone (by
    obtain rfl := hopened.alone hnone
    cases hother
    rfl)
  refine ⟨u', hmain, ?_, ?_, ⟨_, _, units', r, hopened.opens, hrununits, hsaved⟩, ?_⟩
  · rw [hrun]
    rfl
  · rw [hrun]
    exact ⟨rest, rfl, halone'⟩
  · rw [hrun]
    exact hkept

/-! ### Two sessions for one -/

/-- Two sessions run units of one kind from one offset with one budget, in blocks of one greatest
length. -/
structure RunsLike (a b : Arguments) : Prop where
  kind : a.kind = b.kind
  start : a.start = b.start
  budget : a.budget = b.budget
  blockLength : a.blockLength = b.blockLength

theorem RunsLike.create_eq {a b : Arguments} (h : RunsLike a b) :
    Uncached.create (a.config a.kind) = .create (b.config b.kind) := by
  rw [Uncached.create, Uncached.create]
  simp only [Arguments.config, h.kind, h.blockLength]

/-- The first session runs an image and writes a save state, from which the second one goes on
without an image. The whole session runs the image as often as both together. -/
structure Splits (first second whole : Arguments) (image state : String) : Prop where
  first_image : first.image = some image
  first_resumeFrom : first.resumeFrom = none
  first_keepIn : first.keepIn = some state
  first_alike : RunsLike first whole
  second_image : second.image = none
  second_resumeFrom : second.resumeFrom = some state
  second_alike : RunsLike second whole
  whole_image : whole.image = some image
  whole_resumeFrom : whole.resumeFrom = none
  iterations : whole.iterations = first.iterations + second.iterations

/-- **Continuation.** Where no code of a block is without room, a session that goes on from the save
state of another one ends with the registers and the microcode of a session that makes the runs of
both. Their modes, the ways in which they compare programs, the sizes of their caches and what else
they run make no difference. -/
theorem shows_of_splits {host : Host} {first second whole : Arguments} {image state : String}
    {d d₁ : Directory} {outcome : Outcome} (h : Splits first second whole image state)
    (hfirst : Ready host first d) (hrun : (run host Directory.files first).run d = (outcome, d₁))
    (hsecond : Ready host second d₁) (hwhole : Ready host whole d) :
    outcome.exitCode = 0 ∧ ∃ s s', Shows host second d₁ s ∧ Shows host whole d s' ∧
      s.microcode = s'.microcode ∧ s.registers = s'.registers := by
  obtain ⟨content, hread, hfits⟩ := hfirst.image image h.first_image
  obtain ⟨p₁, v₁?, hnew₁, hopened₁⟩ :=
    hfirst.opened_image h.first_image h.first_resumeFrom hread hfits
  obtain ⟨u₁, hruns₁, hshows₁⟩ := hfirst.exists_shows hopened₁
  obtain ⟨hsound₁, hconfig₁, hspec₁⟩ := hopened₁.executions_eq_ok hruns₁
  have hkind₁ : u₁.config.kind = second.kind := by
    rw [hconfig₁]
    exact h.first_alike.kind.trans h.second_alike.kind.symm
  -- the second session goes on with the unit that the first one had
  have hkept := hshows₁.kept state h.first_keepIn
  rw [hrun] at hkept
  obtain ⟨p₂, u₁', v₂?, -, -, hopened₂, hresumed⟩ := hsecond.opened_state h.second_image
    h.second_resumeFrom hkept hsound₁.decode_encode_save hkind₁
    (hsound₁.size_eq.trans (congrArg UnitKind.memorySize hkind₁))
  obtain ⟨u₂, hruns₂, hshows₂⟩ := hsecond.exists_shows hopened₂
  obtain ⟨-, -, hspec₂⟩ := hopened₂.executions_eq_ok hruns₂
  have hkind : second.kind = first.kind := h.second_alike.kind.trans h.first_alike.kind.symm
  have hlength : second.blockLength = first.blockLength :=
    h.second_alike.blockLength.trans h.first_alike.blockLength.symm
  have hsame : u₁'.uncached = u₁.uncached := by
    rw [hresumed, Processor.uncached, hconfig₁, hkind, hlength]
    rfl
  -- the whole session begins with the unit with which the first one began
  obtain ⟨p₃, v₃?, hnew₃, hopened₃⟩ := hwhole.opened_image h.whole_image h.whole_resumeFrom hread
    (h.first_alike.kind ▸ hfits)
  obtain ⟨u₃, hruns₃, hshows₃⟩ := hwhole.exists_shows hopened₃
  obtain ⟨-, -, hspec₃⟩ := hopened₃.executions_eq_ok hruns₃
  have hbegin : (p₃.write 0 content).uncached = (p₁.write 0 content).uncached := by
    obtain ⟨-, -, huncached₁, -⟩ := sound_write_create hnew₁ content
    obtain ⟨-, -, huncached₃, -⟩ := sound_write_create hnew₃ content
    rw [huncached₁, huncached₃, h.first_alike.create_eq]
  rw [h.first_alike.start, h.first_alike.budget] at hspec₁
  rw [hsame, h.second_alike.start, h.second_alike.budget] at hspec₂
  rw [hbegin, h.iterations, Uncached.executions_add hspec₁, hspec₂] at hspec₃
  have hend : u₂.uncached = u₃.uncached := Option.some.inj hspec₃
  have hexit := hshows₁.exitCode_eq
  rw [hrun] at hexit
  exact ⟨hexit, u₂.save, u₃.save, hshows₂, hshows₃, congrArg Uncached.microcode hend,
    congrArg Uncached.registers hend⟩

/-- A directory that holds an image, named `image`, and nothing else. -/
def imageOnly (image : Content) : Directory :=
  ⟨[(Place.working.child "image", image)]⟩

theorem read_imageOnly (image : Content) : (imageOnly image).read "image" = .ok image :=
  rfl

theorem write_imageOnly (image content : Content) : (imageOnly image).write "state" content =
    .ok ⟨(Place.working.child "state", content) :: (imageOnly image).entries⟩ :=
  rfl

/-- Runs the image in a VU0, and may write a save state. -/
def runsOfImage (iterations : Nat) (keepIn : Option String) : Arguments :=
  { Arguments.standard with
    image := some "image"
    kind := .vu0
    iterations := iterations
    mode := .instant
    keepIn := keepIn }

/-- Goes on from the save state `state`, with a thread of its own, and compares whole images. -/
def runsOfState (iterations : Nat) : Arguments :=
  { Arguments.standard with
    matchMode := .byImage
    kind := .vu0
    iterations := iterations
    resumeFrom := some "state" }

/-- An image that fits is all that its runs need. -/
theorem supplied_runsOfImage (iterations : Nat) {image : Content}
    (hfits : image.length ≤ UnitKind.vu0.memorySize) :
    Supplied .compact (runsOfImage iterations (some "state")) (imageOnly image) ∧
      Supplied .compact (runsOfImage iterations none) (imageOnly image) := by
  have himage : ∀ path, some "image" = some path → ∃ content,
      (imageOnly image).read path = .ok content ∧
        content.length ≤ UnitKind.vu0.memorySize := fun path hpath =>
    ⟨image, Option.some.inj hpath ▸ read_imageOnly image, hfits⟩
  have hplace : ∀ path, some "state" = some path → ∀ content, ∃ d',
      (imageOnly image).write path content = .ok d' := fun path hpath content =>
    ⟨_, Option.some.inj hpath ▸ write_imageOnly image content⟩
  have harena : ((runsOfImage 0 none).config .vu0).arenaSize < Arena.unmappableLength := by decide
  have hunlocks : Host.compact.unlocks
      (max ((runsOfImage 0 none).config .vu0).arenaSize Arena.minLength) = true := by decide
  exact ⟨⟨harena, hunlocks, himage, nofun, hplace⟩, ⟨harena, hunlocks, himage, nofun, nofun⟩⟩

/-- The runs of an image are ready where they have a result. -/
theorem ready_runsOfImage {iterations : Nat} {keepIn : Option String} {image : Content}
    {p : Processor} (h : Supplied host (runsOfImage iterations keepIn) (imageOnly image))
    (hfits : image.length ≤ UnitKind.vu0.memorySize)
    (hnew : Processor.create host ((runsOfImage iterations keepIn).config .vu0) = .ok p)
    (hruns : (Processor.executions 0 10000 iterations (p.write 0 image)).toBool = true) :
    Ready host (runsOfImage iterations keepIn) (imageOnly image) ∧
      ∃ v?, Opened host (runsOfImage iterations keepIn) (imageOnly image) (p.write 0 image) v? := by
  obtain ⟨p', v?, hnew', hopened⟩ := h.opened_image rfl rfl (read_imageOnly image) hfits
  obtain rfl := Except.ok.inj (hnew'.symm.trans hnew)
  exact ⟨hopened.ready h rfl hruns, v?, hopened⟩

theorem shows_of_splits_of_countingImage : ∃ d₁ outcome s s',
    (run .compact Directory.files (runsOfImage 1 (some "state"))).run
      (imageOnly Processor.countingImage) = (outcome, d₁) ∧ outcome.exitCode = 0 ∧
    Shows .compact (runsOfState 2) d₁ s ∧
    Shows .compact (runsOfImage 3 none) (imageOnly Processor.countingImage) s' ∧
    s.microcode = s'.microcode ∧ s.registers = s'.registers := by
  have hok : (Processor.create .compact ((runsOfImage 3 none).config .vu0)).toOption.any
      (fun p =>
        (Processor.executions 0 10000 3 (p.write 0 Processor.countingImage)).toBool &&
        (Processor.executions 0 10000 1 (p.write 0 Processor.countingImage)).toOption.any
          fun u => (Processor.create .compact ((runsOfState 2).config .vu0)).toOption.any
            fun p' => (p'.load u.save).toOption.any
              fun u' => (Processor.executions 0 10000 2 u').toBool) = true := by
    decide +kernel
  obtain ⟨p, hnew, hok⟩ := exists_ok_of_any hok
  obtain ⟨hthree, hok⟩ := Bool.and_eq_true_iff.mp hok
  obtain ⟨u, hone, hok⟩ := exists_ok_of_any hok
  obtain ⟨p', hnew', hok⟩ := exists_ok_of_any hok
  obtain ⟨u', hload, htwo⟩ := exists_ok_of_any hok
  have hfits : Processor.countingImage.length ≤ UnitKind.vu0.memorySize := by decide +kernel
  -- the first session, and what it writes
  obtain ⟨hready₁, v₁?, hopened₁⟩ := ready_runsOfImage (supplied_runsOfImage 1 hfits).1
    hfits hnew (congrArg Except.toBool hone)
  obtain ⟨u₁, hruns₁, hshows₁⟩ := hready₁.exists_shows hopened₁
  obtain rfl := Except.ok.inj (hruns₁.symm.trans hone)
  -- the second session
  obtain ⟨⟨outcome, d₁⟩, hrun⟩ : ∃ result, (run .compact Directory.files
      (runsOfImage 1 (some "state"))).run (imageOnly Processor.countingImage) = result := ⟨_, rfl⟩
  have hkept := hshows₁.kept "state" rfl
  rw [hrun] at hkept
  have hsupplied₂ : Supplied .compact (runsOfState 2) d₁ :=
    ⟨by decide, by decide, nofun, nofun, nofun⟩
  obtain ⟨hsound, hconfig, -⟩ := hopened₁.executions_eq_ok hruns₁
  have hkind : u₁.config.kind = .vu0 := congrArg Config.kind hconfig
  obtain ⟨p₂, u₂, v₂?, hnew₂, hload₂, hopened₂, -⟩ := hsupplied₂.opened_state rfl rfl hkept
    hsound.decode_encode_save hkind (hsound.size_eq.trans (congrArg UnitKind.memorySize hkind))
  obtain rfl := Except.ok.inj (hnew₂.symm.trans hnew')
  obtain rfl := Except.ok.inj (hload₂.symm.trans hload)
  have hready₂ := hopened₂.ready hsupplied₂ rfl htwo
  -- the whole session
  obtain ⟨hready₃, -⟩ := ready_runsOfImage (supplied_runsOfImage 3 hfits).2 hfits hnew
    hthree
  have hsplits : Splits (runsOfImage 1 (some "state")) (runsOfState 2) (runsOfImage 3 none)
      "image" "state" :=
    ⟨rfl, rfl, rfl, ⟨rfl, rfl, rfl, rfl⟩, rfl, rfl, ⟨rfl, rfl, rfl, rfl⟩, rfl, rfl, rfl⟩
  obtain ⟨hexit, s, s', hshows⟩ := shows_of_splits hsplits hready₁ hrun hready₂ hready₃
  exact ⟨d₁, outcome, s, s', hrun, hexit, hshows⟩

end Course

end Session

end CommandLine

end VectorUnit
