import VectorUnit.Proofs.Promotion
import VectorUnit.Proofs.Rematching

/-!
# Lookups as moves to the front

A lookup in a shelf without a shortcut goes through the list of the shelf until a program matches
live memory. That program is moved to the front, the others stay in their order, and the programs
up to that one are what was compared; if none matches then all were compared, and a new program is
put in front of the list (`Processor.reorders_of_uses`). So what a lookup selects is at the front of
the list then, and it is the shortcut. No program gets lost, none is listed twice, and all other
shelves stay as they are.
-/

namespace VectorUnit

namespace Shelf

variable {id : ProgramNumber}

/-- Taking a program out of a list leaves those before and behind it. -/
theorem filter_ne_middle {before after : List ProgramNumber} (h : (before ++ id :: after).Nodup) :
    (before ++ id :: after).filter (· ≠ id) = before ++ after := by
  have hothers : id ∉ before ++ after := (List.nodup_cons.mp (List.perm_middle.nodup_iff.mp h)).1
  rw [List.filter_append, List.filter_cons_of_neg (by simp), ← List.filter_append]
  exact filter_ne_of_not_mem hothers

/-- With a program in front of what was listed without it, a list holds that program and what it
held before, and nothing twice. -/
theorem cons_filter_ne {ids : List ProgramNumber} (h : ids.Nodup) (id : ProgramNumber) :
    (id :: ids.filter (· ≠ id)).Nodup ∧
      ∀ other, other ∈ id :: ids.filter (· ≠ id) ↔ other = id ∨ other ∈ ids := by
  refine ⟨List.nodup_cons.mpr ⟨by simp, h.filter _⟩, fun other => ?_⟩
  rw [List.mem_cons, List.mem_filter, decide_eq_true_iff]
  by_cases hsame : other = id
  · simp [hsame]
  · simp [hsame]

end Shelf

namespace Processor

variable {p p' q : Processor} {program : ProgramNumber}

/-- A program that is created has not been listed. -/
theorem Creates.not_mem {ids : List ProgramNumber} (h : p.Creates q program)
    (hids : ∀ id ∈ ids, id.value < p.cache.programs.size) : program ∉ ids := by
  intro hmem
  have hlt := hids program hmem
  rw [h.value_eq] at hlt
  exact Nat.lt_irrefl _ hlt

/-- What a selection has to do with the list without the program selected. -/
theorem Selects.filter_ne {ids : List ProgramNumber} (h : p.Selects q program ids)
    (hnodup : ids.Nodup) (hids : ∀ id ∈ ids, id.value < p.cache.programs.size) :
    (∃ before after, ids = before ++ program :: after ∧ p.FindsFirst q program before ∧
        ids.filter (· ≠ program) = before ++ after) ∨
      (p.FindsNone q program ids ∧ ids.filter (· ≠ program) = ids) := by
  cases h with
  | @found before after h =>
    exact .inl ⟨before, after, rfl, h, Shelf.filter_ne_middle hnodup⟩
  | missed h =>
    exact .inr ⟨h, Shelf.filter_ne_of_not_mem (h.creates.not_mem hids)⟩

/-- A lookup has gone through the list of a shelf, and has left another shelf in its place. The
programs of the list stay in it, each of them once, and only the one found has moved. -/
structure Reorders (p q : Processor) (hit : Hit) (s s' : Shelf) : Prop where
  /-- The first program that matches comes to the front of the others, or a new one does. -/
  order : (∃ before after, s.programs = before ++ hit.program :: after ∧
      p.FindsFirst q hit.program before ∧ s'.programs = hit.program :: (before ++ after)) ∨
    (p.FindsNone q hit.program s.programs ∧ s'.programs = hit.program :: s.programs)
  /-- It is the shortcut, and the one found last. -/
  shortcut_eq : s'.shortcut = some (hit.program, hit.id)
  recent_eq : q.recent = some hit.program
  /-- Nothing that was listed is lost, and nothing is listed twice. -/
  mem_iff : ∀ id, id ∈ s'.programs ↔ id = hit.program ∨ id ∈ s.programs
  nodup : s'.programs.Nodup

/-- **Lookup.** A lookup in a shelf without a shortcut goes through the list of the shelf, and
leaves that list in a new order. Other shelves are left as they are. -/
theorem InUse.reorders_findBlock (hp : p.InUse) (offset : UInt32) {s : Shelf}
    (hshelf : p.cache.shelf? (p.config.kind.pairOffset offset) = some s)
    (hnone : s.shortcut = none) :
    p.Yields (p.findBlock offset) fun (hit, q) => ∃ s',
      q.cache.shelf? (p.config.kind.pairOffset offset) = some s' ∧ p.Reorders q hit s s' ∧
        ∀ offset', p.config.kind.pairOffset offset / Shelf.span ≠ offset' / Shelf.span →
          q.cache.shelf? offset' = p.cache.shelf? offset' := by
  have hpair := p.config.kind.hasPair_pairOffset hp.stocked.size_eq offset
  have hfiled := hp.inFile.filed
  obtain ⟨hnodup, hlisted⟩ := hfiled.consistent.listed s (Array.mem_of_getElem? hshelf)
  refine (hp.stocked.yields_findBlockAt hfiled hpair).with_eq.mono ?_
  rintro ⟨hit, q⟩ ⟨hfind, -⟩
  obtain ⟨s₀, hshelf₀, hsuits, hfilled, hothers⟩ := shelf?_findBlockAt hfiled hfind
  obtain rfl := Option.some.inj (hshelf₀.symm.trans hshelf)
  refine ⟨_, hfilled, ?_, hothers⟩
  rw [Manner.fill, hsuits.place_eq hnone hnodup]
  obtain ⟨hnodup', hmem⟩ := Shelf.cons_filter_ne hnodup hit.program
  refine ⟨?_, rfl, recent_findBlockAt hfind, hmem, hnodup'⟩
  have hselects := hp.stocked.selects_findBlockAt hfind hshelf hnone
  rcases hselects.filter_ne hnodup hlisted with ⟨before, after, hsplit, hfirst, hrest⟩ |
    ⟨hmissed, hrest⟩
  · exact .inl ⟨before, after, hsplit, hfirst, congrArg _ hrest⟩
  · exact .inr ⟨hmissed, congrArg _ hrest⟩

/-- **First match.** Whatever was done to a new unit, a lookup in a shelf without a shortcut that
has a result selects the first program of the list that matches live memory, and has compared that
one and those before it; the others keep their order behind it. If none matches then all were
compared, and a new program is put in front of them. Either way the program selected is at the
front, nothing that was listed is lost, nothing is listed twice, and no other shelf is changed. -/
theorem reorders_of_uses {host : Host} {config : Config} (hcreate : create host config = .ok p)
    (h : Uses anyProgram p p') (offset : UInt32) :
    ∃ s, p'.cache.shelf? (config.kind.pairOffset offset) = some s ∧ (s.shortcut = none →
      p'.Yields (p'.findBlock offset) fun (hit, q) => ∃ s',
        q.cache.shelf? (config.kind.pairOffset offset) = some s' ∧ p'.Reorders q hit s s' ∧
          ∀ offset', config.kind.pairOffset offset / Shelf.span ≠ offset' / Shelf.span →
            q.cache.shelf? offset' = p'.cache.shelf? offset') := by
  have hp' := (inUse_create hcreate).uses h
  obtain rfl : p'.config = config := config_of_uses hcreate h
  have hpair := p'.config.kind.hasPair_pairOffset hp'.stocked.size_eq offset
  obtain ⟨s, hshelf⟩ := hp'.stocked.exists_shelf hpair
  exact ⟨s, hshelf, hp'.reorders_findBlock offset hshelf⟩

/-- Pairs are written one over the other, and each is looked up. -/
def lookUpEach (p : Processor) : List Pair → Except Fault Processor
  | [] => .ok p
  | pair :: rest => do
    let (_, q) ← (p.write 64 pair.toBytes).perform (.findBlock 64)
    q.lookUpEach rest

theorem uses_lookUpEach {pairs : List Pair} (h : p.lookUpEach pairs = .ok q) :
    Uses anyProgram p q := by
  induction pairs generalizing p with
  | nil =>
    obtain rfl := Except.ok.inj h
    exact .refl
  | cons pair rest ih =>
    obtain ⟨⟨a, p₁⟩, hfind, h⟩ := exists_of_bind_eq_ok h
    have hwritten : Uses anyProgram p (p.write 64 pair.toBytes) :=
      .single (.perform (show p.perform (.write 64 _) = .ok (.done, _) from rfl))
    exact (hwritten.tail (.perform hfind)).trans (ih h)

/-- A pair that ends a program and sets a register. -/
def endWith (value : UInt16) : Pair :=
  .withFlags (Pair.Flag.mask .e) (Statement.word (.iaddiu 1 0 value))

/-- Three programs are looked up one after the other, and the pair of the first is written back. -/
def takeTurns (p : Processor) : Except Fault Processor := do
  let q ← p.lookUpEach [endWith 1, endWith 2, endWith 3]
  return q.write 64 (endWith 1).toBytes

theorem uses_takeTurns (h : p.takeTurns = .ok q) : Uses anyProgram p q := by
  obtain ⟨p₁, heach, h⟩ := exists_of_bind_eq_ok h
  obtain rfl := Except.ok.inj h
  exact (uses_lookUpEach heach).tail
    (.perform (show p₁.perform (.write 64 _) = .ok (.done, _) from rfl))

/-- The first of the three is then found behind the two others. -/
theorem reorders_of_takeTurns : ∃ p p' s hit q s' before after,
    create .compact .standard = .ok p ∧ p.takeTurns = .ok p' ∧
      p'.cache.shelf? 64 = some s ∧ p'.findBlock 64 = .ok (hit, q) ∧
      q.cache.shelf? 64 = some s' ∧ s.programs = before ++ hit.program :: after ∧
      before.length = 2 ∧ p'.FindsFirst q hit.program before ∧
      s'.programs = hit.program :: (before ++ after) := by
  obtain ⟨p, hnew, hok⟩ : ∃ p, create .compact .standard = .ok p ∧
      p.takeTurns.toOption.any (fun p' =>
        (p'.cache.shelf? 64).all (fun s => s.shortcut = none) &&
          (p'.findBlock 64).toOption.any fun r =>
            r.2.counters.creations = p'.counters.creations &&
              r.2.counters.comparisons = p'.counters.comparisons + 3) = true :=
    ⟨_, rfl, by decide +kernel⟩
  obtain ⟨p', hturns, hok⟩ := exists_ok_of_any hok
  obtain ⟨hnone, hok⟩ := Bool.and_eq_true _ _ ▸ hok
  obtain ⟨⟨hit, q⟩, hfind, hok⟩ := exists_ok_of_any hok
  simp only [Bool.and_eq_true, decide_eq_true_iff] at hok
  obtain ⟨hcreations, hcomparisons⟩ := hok
  obtain ⟨s, hshelf, hlookup⟩ := reorders_of_uses hnew (uses_takeTurns hturns) 64
  rw [show Config.standard.kind.pairOffset 64 = 64 from rfl] at hshelf hlookup
  rw [hshelf, Option.all_some, decide_eq_true_iff] at hnone
  have hfound := hlookup hnone
  rw [hfind] at hfound
  obtain ⟨s', hshelf', hreorders, -⟩ := hfound
  rcases hreorders.order with ⟨before, after, hsplit, hfirst, hprograms⟩ | ⟨hmissed, -⟩
  · have hcompared := hfirst.comparisons_eq
    exact ⟨p, p', s, hit, q, s', before, after, hnew, hturns, hshelf, hfind, hshelf', hsplit,
      by omega, hfirst, hprograms⟩
  · have hcreated := hmissed.creates.creations_eq
    omega

end Processor

end VectorUnit
