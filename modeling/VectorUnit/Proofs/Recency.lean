import VectorUnit.Proofs.Promotion

/-!
# The order of shelves and the order of use

Every block that is found, by a lookup or because a run goes on with its program, is a selection of
that program (`Processor.Selection`). Operations remember their selections until all programs are
forgotten (`Processor.remember`), the latest first.

A shelf does not list its programs by their latest selection. A run that goes on with a program puts
it to the front only where it is new to the shelf, and otherwise leaves it where it is, although it
becomes the shortcut. So the list follows the arrivals alone (`Processor.arrivals`): selections for
which programs were compared, and those of programs that are new to the shelf. It is in the order of
use, with the shortcut at the front, as long as no run comes back to a program which was not the
last one selected there (`Processor.steady`). See `Processor.recency_of_operations`, and
`Processor.returningRun` for a run that comes back.
-/

namespace VectorUnit

/-- Repetitions may be taken out before or after a filter. -/
theorem eraseDups_filter {α : Type} [BEq α] [LawfulBEq α] (test : α → Bool) (l : List α) :
    (l.filter test).eraseDups = l.eraseDups.filter test := by
  induction hn : l.length using Nat.strongRecOn generalizing l with
  | ind n ih =>
  cases l with
  | nil => rfl
  | cons a l =>
    subst hn
    have hrest := ih _ (Nat.lt_succ_of_le (List.length_filter_le (fun b => !b == a) l)) _ rfl
    rw [List.eraseDups_cons]
    cases htest : test a with
    | true =>
      -- the repetitions of the first member go before the filter or behind it
      have hcomm : (l.filter test).filter (fun b => !b == a) =
          (l.filter fun b => !b == a).filter test := by
        rw [List.filter_filter, List.filter_filter]
        simp only [Bool.and_comm]
      rw [List.filter_cons_of_pos htest, List.filter_cons_of_pos htest, List.eraseDups_cons,
        ← hrest, hcomm]
    | false =>
      have hsame : (l.filter fun b => !b == a).filter test = l.filter test := by
        rw [List.filter_filter]
        refine List.filter_congr fun b _ => ?_
        cases hb : test b with
        | true =>
          have hne : (b == a) = false := beq_eq_false_iff_ne.mpr fun h => by
            rw [h, htest] at hb
            cases hb
          rw [hne]
          rfl
        | false => rfl
      rw [List.filter_cons_of_neg (by rw [htest]; decide),
        List.filter_cons_of_neg (by rw [htest]; decide), ← hrest, hsame]

namespace Processor

/-! ### Selections -/

/-- A block that was found at an offset, and how it was looked up, unless it was that of the program
with which a run went on. -/
structure Selection extends Visit where
  manner : Option Manner
deriving DecidableEq

namespace Selection

/-- The program that is selected. -/
def program (e : Selection) : ProgramNumber := e.hit.program

/-- Programs were compared with live memory. -/
def compares (e : Selection) : Bool :=
  e.manner = some .matched || e.manner = some .created

end Selection

/-- The selections in the shelf of an offset. -/
def nearby (offset : Nat) (log : List Selection) : List Selection :=
  log.filter fun e => e.offset / Shelf.span = offset / Shelf.span

/-- A program is among those selected. -/
def selected (log : List Selection) (program : ProgramNumber) : Bool :=
  log.any fun e => e.program = program

/-- The programs of some selections, each once, by their latest selection. This is the order that a
list of most recent use would have. -/
def byUse (log : List Selection) : List ProgramNumber :=
  (log.map Selection.program).eraseDups

/-- The selections that bring their program to the front: those for which programs are compared, and
those of programs that were not selected before. -/
def arrivals : List Selection → List Selection
  | [] => []
  | e :: older =>
    if e.compares || !selected older e.program then e :: arrivals older else arrivals older

/-- A run has gone on with a program that was selected before, but was not the last one. This is the
case in which a shelf does not list its programs by use. -/
def Selection.returns (e : Selection) (older : List Selection) : Bool :=
  e.manner.isNone && selected older e.program &&
    older.head?.map Selection.program ≠ some e.program

/-- No run has come back to a program. -/
def steady : List Selection → Bool
  | [] => true
  | e :: older => !e.returns older && steady older

variable {e : Selection} {log older : List Selection} {program : ProgramNumber}

theorem byUse_cons (e : Selection) (log : List Selection) :
    byUse (e :: log) = e.program :: (byUse log).filter (· ≠ e.program) := by
  rw [byUse, List.map_cons, List.eraseDups_cons, eraseDups_filter, byUse]
  congr 2
  funext id
  rw [decide_not]
  rfl

theorem mem_byUse : program ∈ byUse log ↔ selected log program = true := by
  rw [byUse, List.mem_eraseDups, List.mem_map, selected, List.any_eq_true]
  simp only [decide_eq_true_eq]

/-- A program arrives with its first selection. -/
theorem selected_arrivals (log : List Selection) (program : ProgramNumber) :
    selected (arrivals log) program = selected log program := by
  induction log with
  | nil => rfl
  | cons e older ih =>
    rw [arrivals]
    split
    · exact congrArg _ ih
    · case isFalse hstays =>
      have hknown : selected older e.program = true := by
        rw [Bool.or_eq_true, not_or, Bool.not_eq_true', Bool.not_eq_false] at hstays
        exact hstays.2
      rw [ih]
      by_cases heq : e.program = program
      · subst heq
        rw [hknown, selected, List.any_cons, decide_eq_true rfl, Bool.true_or]
      · rw [selected, selected, List.any_cons, decide_eq_false heq, Bool.false_or]

theorem head?_byUse (log : List Selection) :
    (byUse log).head? = log.head?.map Selection.program := by
  cases log with
  | nil => rfl
  | cons e older => rw [byUse_cons, List.head?_cons, List.head?_cons, Option.map_some]

/-- A program that was the last one selected is where it would be put. -/
theorem byUse_cons_of_last (h : older.head?.map Selection.program = some e.program) :
    byUse (e :: older) = byUse older := by
  obtain ⟨last, hlast, hprogram⟩ := Option.map_eq_some_iff.mp h
  obtain ⟨rest, rfl⟩ := List.head?_eq_some_iff.mp hlast
  rw [byUse_cons, byUse_cons, ← hprogram, List.filter_cons_of_neg (by simp), List.filter_filter]
  simp only [Bool.and_self]

/-- **Order of use.** Arrivals are in the order of use if nothing comes back, and shortcuts only
lead to the program that was the last one. -/
theorem byUse_arrivals (hsteady : steady log = true)
    (hagain : ∀ e older, e :: older <:+ log → e.manner = some .shortcut →
      older.head?.map Selection.program = some e.program) :
    byUse (arrivals log) = byUse log := by
  induction log with
  | nil => rfl
  | cons e older ih =>
    rw [steady, Bool.and_eq_true, Bool.not_eq_true'] at hsteady
    have holder := ih hsteady.2 fun e' older' hsuffix =>
      hagain e' older' (hsuffix.trans (List.suffix_cons e older))
    rw [arrivals]
    split
    · rw [byUse_cons, byUse_cons, holder]
    · case isFalse hstays =>
      rw [Bool.or_eq_true, not_or, Bool.not_eq_true', Bool.not_eq_false] at hstays
      obtain ⟨hcompares, hknown⟩ := hstays
      rw [holder, byUse_cons_of_last]
      cases hmanner : e.manner with
      | none =>
        have hlast := hsteady.1
        rw [Selection.returns, hmanner, hknown] at hlast
        simpa using hlast
      | some manner =>
        cases manner with
        | shortcut => exact hagain e older (List.suffix_refl _) hmanner
        | matched => exact absurd (by rw [Selection.compares, hmanner]; rfl) hcompares
        | created => exact absurd (by rw [Selection.compares, hmanner]; rfl) hcompares

end Processor

/-! ### Shelves that follow the selections -/

namespace Shelf

open Processor

/-- A shelf lists the programs that were selected there by their arrivals, and its shortcut is the
block that was selected last. -/
structure Remembers (s : Shelf) (log : List Selection) : Prop where
  programs_eq : s.programs = byUse (arrivals log)
  shortcut : ∀ hit, s.shortcut = some hit → log.head?.map (fun e => e.shortcut) = some hit
  /-- Shortcuts were taken to the program that was the last one. -/
  again : ∀ e older, e :: older <:+ log → e.manner = some .shortcut →
    older.head?.map Selection.program = some e.program

namespace Remembers

variable {s : Shelf} {log : List Selection} {e : Selection} {hit : Hit} {offset : Nat}

theorem empty : Shelf.empty.Remembers [] :=
  ⟨rfl, nofun, fun e older hsuffix => by cases List.suffix_nil.mp hsuffix⟩

theorem mem_programs (h : s.Remembers log) (program : ProgramNumber) :
    program ∈ s.programs ↔ selected log program = true := by
  rw [h.programs_eq, mem_byUse, selected_arrivals]

theorem dropShortcut (h : s.Remembers log) : (s.setShortcut none).Remembers log :=
  ⟨h.programs_eq, nofun, h.again⟩

/-- One more selection, after which the list follows the arrivals. -/
theorem select {s' : Shelf} (h : s.Remembers log)
    (hprograms : s'.programs = byUse (arrivals (e :: log)))
    (hshortcut : s'.shortcut = some e.shortcut)
    (hagain : e.manner = some .shortcut → log.head?.map Selection.program = some e.program) :
    s'.Remembers (e :: log) := by
  refine ⟨hprograms, fun hit hhit => ?_, fun e' older hsuffix hmanner => ?_⟩
  · exact hshortcut.symm.trans hhit
  · rcases List.suffix_cons_iff.mp hsuffix with heq | hsuffix
    · obtain ⟨rfl, rfl⟩ := List.cons.inj heq
      exact hagain hmanner
    · exact h.again e' older hsuffix hmanner

/-- A selection that arrives, in a shelf that has its program at the front then. -/
theorem arrive {s' : Shelf} (h : s.Remembers log)
    (harrives : e.compares = true ∨ e.program ∉ s.programs)
    (hprograms : s'.programs = e.program :: s.programs.filter (· ≠ e.program))
    (hshortcut : s'.shortcut = some e.shortcut)
    (hagain : e.manner = some .shortcut → log.head?.map Selection.program = some e.program) :
    s'.Remembers (e :: log) := by
  refine h.select ?_ hshortcut hagain
  have harrives' : (e.compares || !selected log e.program) = true := by
    rw [h.mem_programs, Bool.not_eq_true] at harrives
    rw [Bool.or_eq_true, Bool.not_eq_true']
    exact harrives
  rw [arrivals, if_pos harrives', byUse_cons, ← h.programs_eq, hprograms]

/-- A selection that does not, in a shelf that stays as it is. -/
theorem stay {s' : Shelf} (h : s.Remembers log) (hcompares : e.compares = false)
    (hmem : e.program ∈ s.programs) (hprograms : s'.programs = s.programs)
    (hshortcut : s'.shortcut = some e.shortcut)
    (hagain : e.manner = some .shortcut → log.head?.map Selection.program = some e.program) :
    s'.Remembers (e :: log) := by
  refine h.select ?_ hshortcut hagain
  have hknown := (h.mem_programs e.program).mp hmem
  rw [arrivals, if_neg (by rw [hcompares, hknown]; decide), hprograms, h.programs_eq]

/-- **Lookup.** A shelf remembers a lookup once it is as the lookup leaves it, with the program
found in front and the shortcut set to it. -/
theorem fill {manner : Manner} (h : s.Remembers log) (hnodup : s.programs.Nodup)
    (hsuits : manner.Suits s hit.program) :
    (manner.fill hit s).Remembers (⟨⟨offset, hit⟩, some manner⟩ :: log) := by
  cases manner with
  | shortcut =>
    obtain ⟨id, hshortcut⟩ := hsuits
    obtain ⟨e, hlast, he⟩ := Option.map_eq_some_iff.mp (h.shortcut _ hshortcut)
    have hprogram : e.program = hit.program := congrArg Prod.fst he
    have hmem : hit.program ∈ s.programs := by
      rw [h.mem_programs, ← hprogram, selected, List.any_eq_true]
      exact ⟨e, List.mem_of_mem_head? hlast, decide_eq_true rfl⟩
    refine h.stay rfl hmem rfl rfl fun _ => ?_
    rw [hlast, Option.map_some, hprogram]
    rfl
  | matched => exact h.arrive (.inl rfl) (hsuits.place_eq hsuits.1 hnodup) rfl nofun
  | created => exact h.arrive (.inl rfl) (hsuits.place_eq hsuits.1 hnodup) rfl nofun

/-- **Going on.** So it does if a run has gone on there with a program. Only the shortcut is set
then: a program that is listed already keeps its place. -/
theorem chain (h : s.Remembers log) :
    ((s.enlist hit.program).setShortcut (some (hit.program, hit.id))).Remembers
      (⟨⟨offset, hit⟩, none⟩ :: log) := by
  by_cases hmem : hit.program ∈ s.programs
  · rw [enlist_of_mem hmem]
    exact h.stay rfl hmem rfl rfl nofun
  · rw [enlist_of_not_mem hmem]
    exact h.arrive (.inr hmem) (congrArg _ (filter_ne_of_not_mem hmem).symm) rfl nofun

end Remembers

end Shelf

namespace Processor

variable {p q : Processor} {log : List Selection} {offset : Nat} {program : ProgramNumber}

/-! ### Units that follow their selections -/

/-- The selections after a turn, which are forgotten with the programs if too little room is
left. -/
def Turn.select (log : List Selection) (t : Turn) : List Selection :=
  match t.lookup with
  | .ok (hit, _) =>
    ⟨⟨t.pc.toNat, hit⟩, if t.looksUp then some t.manner else none⟩ ::
      if t.isShort then [] else log
  | .error _ => log

/-- The selections after an operation. -/
def select (p : Processor) (log : List Selection) : Operation → List Selection
  | .reset _ => []
  | .findBlock offset =>
    match p.findBlock offset with
    | .ok (hit, _) =>
      ⟨⟨p.config.kind.pairOffset offset, hit⟩,
        some (p.manner (p.config.kind.pairOffset offset))⟩ :: log
    | .error _ => log
  | .execute start budget => (p.turns start budget).foldl Turn.select log
  | _ => log

/-- The selections that there have been after some operations since programs were forgotten last,
the latest first, and the unit then. -/
def remember (p : Processor) (log : List Selection) :
    List Operation → Except Fault (List Selection × Processor)
  | [] => .ok (log, p)
  | op :: rest => do
    let (_, q) ← p.perform op
    q.remember (p.select log op) rest

/-- All shelves of a unit remember the selections that were made there. The log goes back to when
programs were forgotten last, so every program in it is still stored. -/
def Remembers (p : Processor) (log : List Selection) : Prop :=
  ∀ offset s, p.cache.shelf? offset = some s → s.Remembers (nearby offset log)

theorem nearby_cons_of_near {e : Selection} (h : e.offset / Shelf.span = offset / Shelf.span) :
    nearby offset (e :: log) = e :: nearby offset log :=
  List.filter_cons_of_pos (decide_eq_true h)

theorem nearby_cons_of_far {e : Selection} (h : e.offset / Shelf.span ≠ offset / Shelf.span) :
    nearby offset (e :: log) = nearby offset log :=
  List.filter_cons_of_neg (by rw [decide_eq_false h]; decide)

theorem Remembers.congr (h : p.Remembers log) (hcache : q.cache = p.cache) : q.Remembers log := by
  rwa [Remembers, hcache]

theorem Remembers.markStale (h : p.Remembers log) : p.markStale.Remembers log := by
  rw [Processor.markStale]
  split
  · exact h
  · intro offset s hs
    obtain ⟨s', hs', rfl⟩ :=
      Option.map_eq_some_iff.mp ((p.cache.shelf?_dropShortcuts offset).symm.trans hs)
    exact (h offset s' hs').dropShortcut

/-- Nothing is remembered in a unit that has no programs. -/
theorem remembers_of_empty (h : ∀ s ∈ p.cache.shelves, s = .empty) : p.Remembers [] := by
  intro offset s hs
  obtain rfl := h s (Array.mem_of_getElem? hs)
  exact .empty

theorem remembers_forget (p : Processor) : p.forget.Remembers [] := by
  refine remembers_of_empty fun s hs => ?_
  obtain ⟨s', -, rfl⟩ := Array.mem_map.mp hs
  rfl

/-- **Selection.** A unit remembers one more selection, if its shelf does, as no other shelf is
touched by it. -/
theorem Remembers.select {e : Selection} (h : p.Remembers log)
    (hnear : ∀ s, q.cache.shelf? e.offset = some s → s.Remembers (e :: nearby e.offset log))
    (hfar : ∀ offset, e.offset / Shelf.span ≠ offset / Shelf.span →
      q.cache.shelf? offset = p.cache.shelf? offset) : q.Remembers (e :: log) := by
  intro offset s hs
  by_cases heq : e.offset / Shelf.span = offset / Shelf.span
  · have hlog : nearby offset log = nearby e.offset log := by rw [nearby, ← heq, nearby]
    rw [nearby_cons_of_near heq, hlog]
    exact hnear s ((Cache.shelf?_congr heq).trans hs)
  · rw [nearby_cons_of_far heq]
    exact h offset s (hfar offset heq ▸ hs)

theorem Remembers.findBlockAt {hit : Hit} (h : p.Remembers log) (hp : p.cache.Filed none)
    (hfind : p.findBlockAt offset = .ok (hit, q)) :
    q.Remembers (⟨⟨offset, hit⟩, some (p.manner offset)⟩ :: log) := by
  obtain ⟨s, hshelf, hsuits, hfilled, hfar⟩ := shelf?_findBlockAt hp hfind
  refine h.select (fun s' hs' => ?_) hfar
  obtain rfl := Option.some.inj (hfilled.symm.trans hs')
  exact (h offset s hshelf).fill (hp.serves _ s hshelf).nodup hsuits

theorem Remembers.enterProgram {hit : Hit} (h : p.Remembers log) (hp : p.cache.Filed none)
    (henter : p.enterProgram program offset = .ok (hit, q)) :
    q.Remembers (⟨⟨offset, hit⟩, none⟩ :: log) := by
  have hshelves := shelf?_enterProgram hp henter
  refine h.select (fun s' hs' => ?_) fun offset' hfar => by rw [hshelves, if_neg hfar]
  rw [hshelves, if_pos rfl] at hs'
  obtain ⟨s, hshelf, rfl⟩ := Option.map_eq_some_iff.mp hs'
  exact (h offset s hshelf).chain

/-! ### Turns -/

theorem Remembers.ensureRoom {t : Turn} (h : t.unit.Remembers log) :
    t.unit.ensureRoom.Remembers (if t.isShort then [] else log) := by
  rw [Processor.ensureRoom]
  cases hshort : t.isShort with
  | true =>
    rw [if_pos (of_decide_eq_true hshort), if_pos rfl]
    exact (remembers_forget t.unit).congr rfl
  | false =>
    rw [if_neg (of_decide_eq_false hshort), if_neg Bool.false_ne_true]
    exact h

/-- **Turn.** A turn adds its selection, and forgets the others if it has forgotten the programs. -/
theorem Turn.Begins.remembers {t : Turn} {hit : Hit} (ht : t.Begins anyProgram p)
    (hlookup : t.lookup = .ok (hit, q)) (h : t.unit.Remembers log) :
    (q.enter hit.block t.pc).Remembers (t.select log) := by
  have hroom : Step anyProgram t.unit t.unit.ensureRoom := .makeRoom
  have hfiled := (ht.inUse.step hroom).inFile.filed
  have hfound : q.Remembers (t.select log) := by
    rw [select, hlookup]
    rcases ht.lookup_cases hlookup with ⟨hlooks, hfind⟩ | ⟨hlooks, program, henter⟩
    · rw [hlooks]
      exact h.ensureRoom.findBlockAt hfiled hfind
    · rw [hlooks]
      exact h.ensureRoom.enterProgram hfiled henter
  exact hfound.congr rfl

/-- **Run.** A run adds those of its turns, one after another. -/
theorem Passage.remembers {pc : UInt32} {ts : List Turn} {cs : List Call}
    (hpassage : Passage p pc ts cs q) (h : p.Remembers log) :
    q.Remembers (ts.foldl Turn.select log) := by
  induction hpassage generalizing log with
  | stop => exact h
  | turn hbegins hlookup _ ih => exact ih (hbegins.remembers hlookup h)

/-! ### Operations -/

/-- **Operation.** Only lookups and runs add selections, and a reset forgets them. Everything else
may drop shortcuts, but leaves the lists. -/
theorem InUse.remembers_perform {op : Operation} {answer : Answer} (hp : p.InUse)
    (hperform : p.perform op = .ok (answer, q)) (h : p.Remembers log) :
    q.Remembers (p.select log op) := by
  cases performs_of_eq_ok hperform with
  | writeNone offset => exact h
  | @write offset data hne =>
    have hwritten : Remembers { p with microcode := p.microcode.write offset.toNat data } log :=
      h.congr rfl
    exact hwritten.markStale
  | noteChange offset size => exact h.markStale
  | reset full =>
    rw [reset_eq]
    exact (remembers_forget p).congr rfl
  | @load s _ hload =>
    obtain rfl := load_eq_ok hload
    have hloaded : Remembers { p with microcode := s.microcode, registers := s.registers } log :=
      h.congr rfl
    exact hloaded.markStale.congr rfl
  | refused hload => exact h
  | setRegisters registers => exact h.congr rfl
  | findBlock hfind =>
    rw [select, hfind]
    exact h.findBlockAt hp.inFile.filed hfind
  | @execute start _ _ _ hrun =>
    have hbegun : (p.beginRun (p.startPc start)).Remembers log := h.congr rfl
    exact (hp.passage_execute hrun).remembers hbegun

/-- **Operations.** All shelves remember what was selected there since programs were forgotten last.
-/
theorem InUse.remembers_operations {ops : List Operation} {log' : List Selection} (hp : p.InUse)
    (hremember : p.remember log ops = .ok (log', q)) (h : p.Remembers log) : q.Remembers log' := by
  induction ops generalizing p log with
  | nil =>
    obtain ⟨rfl, rfl⟩ := Prod.mk.inj (Except.ok.inj hremember)
    exact h
  | cons op rest ih =>
    obtain ⟨⟨answer, p₁⟩, hperform, hremember⟩ := exists_of_bind_eq_ok hremember
    exact ih (hp.of_perform hperform) hremember (hp.remembers_perform hperform h)

theorem remembers_create {host : Host} {config : Config} (h : create host config = .ok p) :
    p.Remembers [] := by
  refine remembers_of_empty fun s hs => ?_
  obtain ⟨-, hcache, -⟩ := create_eq_ok h
  rw [hcache] at hs
  exact (Array.mem_replicate.mp hs).2

/-- **Recency.** Whatever operations are done to a new unit, each shelf lists the programs that were
selected there by their last arrival, the latest first: the last selection for which programs were
compared, or else the first one. Its shortcut, if it has one, is the block that was selected last.
As long as no run has come back there to a program that was not the last one, the list is in the
order in which the programs were selected last, and the program of the shortcut is at the front. -/
theorem recency_of_operations {host : Host} {config : Config} {ops : List Operation}
    (hcreate : create host config = .ok p) (h : p.remember [] ops = .ok (log, q)) {s : Shelf}
    (hshelf : q.cache.shelf? offset = some s) :
    s.programs = byUse (arrivals (nearby offset log)) ∧
      (∀ hit, s.shortcut = some hit →
        (nearby offset log).head?.map (fun e => e.shortcut) = some hit) ∧
      (steady (nearby offset log) = true → s.programs = byUse (nearby offset log) ∧
        ∀ hit, s.shortcut = some hit → s.programs.head? = some hit.1) := by
  have hs :=
    (inUse_create hcreate).remembers_operations h (remembers_create hcreate) offset s hshelf
  refine ⟨hs.programs_eq, hs.shortcut, fun hsteady => ?_⟩
  have horder := hs.programs_eq.trans (byUse_arrivals hsteady hs.again)
  refine ⟨horder, fun hit hhit => ?_⟩
  obtain ⟨e, hlast, rfl⟩ := Option.map_eq_some_iff.mp (hs.shortcut hit hhit)
  rw [horder, head?_byUse, hlast]
  rfl

/-- A pair that ends a program and does something else. -/
def otherEnd : Pair :=
  .withFlags (Pair.Flag.mask .e) (Statement.word (.iaddiu 1 0 5))

/-- A program that ends at once is written over, run, and written back before it runs again. -/
def alternatingRuns : List Operation :=
  [.write 64 Pair.programEnd.toBytes, .execute 64 8, .write 64 otherEnd.toBytes, .execute 64 8,
    .write 64 Pair.programEnd.toBytes, .execute 64 8]

theorem recency_of_alternatingRuns : ∃ p log q s, create .compact .standard = .ok p ∧
    p.remember [] alternatingRuns = .ok (log, q) ∧ q.cache.shelf? 64 = some s ∧
    steady (nearby 64 log) = true ∧ byUse (nearby 64 log) = [⟨0⟩, ⟨1⟩] ∧
    s.programs = byUse (nearby 64 log) ∧ s.programs = byUse (arrivals (nearby 64 log)) := by
  obtain ⟨p, hnew, hok⟩ : ∃ p, create .compact .standard = .ok p ∧
      ((p.remember [] alternatingRuns).toOption.any fun r => (r.2.cache.shelf? 64).isSome &&
        steady (nearby 64 r.1) && byUse (nearby 64 r.1) = [⟨0⟩, ⟨1⟩]) = true :=
    ⟨_, rfl, by decide +kernel⟩
  obtain ⟨⟨log, q⟩, hremember, hok⟩ := exists_ok_of_any hok
  simp only [Bool.and_eq_true, decide_eq_true_eq, Option.isSome_iff_exists] at hok
  obtain ⟨⟨⟨s, hshelf⟩, hsteady⟩, huse⟩ := hok
  obtain ⟨harrivals, -, horder⟩ := recency_of_operations hnew hremember hshelf
  exact ⟨p, log, q, s, hnew, hremember, hshelf, hsteady, huse, (horder hsteady).1, harrivals⟩

/-- A jump runs to a program end, which is written over, run, and written back before the jump
runs again. -/
def returningRun : List Operation :=
  [.write 0 (Pair.ofLower (Statement.word (.b 7))).toBytes, .write 64 Pair.programEnd.toBytes,
    .execute 0 8, .write 64 otherEnd.toBytes, .execute 64 8, .write 64 Pair.programEnd.toBytes,
    .execute 0 8]

/-- The program of the jump was selected last at its target, where it is the shortcut and yet not at
the front. -/
theorem not_first_of_returningRun : ∃ p log q s, create .compact .standard = .ok p ∧
    p.remember [] returningRun = .ok (log, q) ∧ q.cache.shelf? 64 = some s ∧
    s.shortcut = some (⟨0⟩, ⟨1⟩) ∧ byUse (nearby 64 log) = [⟨0⟩, ⟨1⟩] ∧
    s.programs = [⟨1⟩, ⟨0⟩] := by
  obtain ⟨p, hnew, hok⟩ : ∃ p, create .compact .standard = .ok p ∧
      ((p.remember [] returningRun).toOption.any fun r =>
        (r.2.cache.shelf? 64).any fun s => s.shortcut = some (⟨0⟩, ⟨1⟩) &&
          byUse (nearby 64 r.1) = [⟨0⟩, ⟨1⟩] && s.programs = [⟨1⟩, ⟨0⟩]) = true :=
    ⟨_, rfl, by decide +kernel⟩
  obtain ⟨⟨log, q⟩, hremember, hok⟩ := exists_ok_of_any hok
  cases hshelf : q.cache.shelf? 64 with
  | none =>
    rw [hshelf] at hok
    cases hok
  | some s =>
    rw [hshelf, Option.any_some] at hok
    simp only [Bool.and_eq_true, decide_eq_true_eq] at hok
    exact ⟨p, log, q, s, hnew, hremember, hshelf, hok.1.1, hok.1.2, hok.2⟩

end Processor

end VectorUnit
