import VectorUnit.Proofs.Following

/-!
# Lookups and the order of shelves

What a lookup does to the list of a shelf depends on how it comes by its program
(`Processor.Manner.place`). A program that matches live memory is moved to the front and one that is
created is put there, while a shortcut leaves the list as it is. Storing the block of the program
then changes the list in no way: a program with a block in a shelf is listed there already
(`Processor.shelf?_enterProgram`). No lookup touches any other shelf
(`Processor.shelf?_findBlockAt`).

A block of the program with which a run goes on is not looked up. It is entered, and a program that
has had no block in the shelf before is put in front of the others; one that has stays where it is.
-/

namespace VectorUnit

/-! ### Lists of programs -/

namespace Shelf

variable {s : Shelf} {id : ProgramNumber}

/-- There is nothing to take out of a list that does not hold a program. -/
theorem filter_ne_of_not_mem {ids : List ProgramNumber} (h : id ∉ ids) :
    ids.filter (· ≠ id) = ids := by
  refine List.filter_eq_self.mpr fun other hother => decide_eq_true ?_
  rintro rfl
  exact h hother

/-- Moving a program to the front leaves the others in their order. -/
theorem moveToFront_eq {ids : List ProgramNumber} (h : ids.Nodup) :
    moveToFront id ids = id :: ids.filter (· ≠ id) := by
  rw [moveToFront]
  split
  · case isTrue hhead =>
    obtain ⟨rest, rfl⟩ := List.head?_eq_some_iff.mp hhead
    rw [List.filter_cons_of_neg (by simp), filter_ne_of_not_mem (List.nodup_cons.mp h).1]
  · rfl

theorem enlist_of_mem (h : id ∈ s.programs) : s.enlist id = s :=
  if_pos (List.contains_iff_mem.mpr h)

theorem enlist_of_not_mem (h : id ∉ s.programs) : s.enlist id = s.push id :=
  if_neg (mt List.contains_iff_mem.mp h)

end Shelf

/-! ### Shelves of a cache -/

namespace Cache

variable {c c' : Cache} {offset : Nat} {program : ProgramNumber}

theorem shelf?_modify {f : Shelf → Shelf}
    (h : c'.shelves = c.shelves.modify (offset / Shelf.span) f) (offset' : Nat) :
    c'.shelf? offset' = if offset / Shelf.span = offset' / Shelf.span then
      (c.shelf? offset').map f else c.shelf? offset' := by
  rw [shelf?, h]
  exact Array.getElem?_modify

/-- Changing a shelf changes no other. -/
theorem shelf?_modifyShelf {f : Shelf → Shelf} (h : c.modifyShelf offset f = some c')
    (offset' : Nat) : c'.shelf? offset' = if offset / Shelf.span = offset' / Shelf.span then
      (c.shelf? offset').map f else c.shelf? offset' := by
  obtain ⟨-, rfl⟩ := modifyShelf_eq_some h
  exact shelf?_modify rfl offset'

theorem shelf?_dropShortcuts (c : Cache) (offset : Nat) :
    c.dropShortcuts.shelf? offset = (c.shelf? offset).map (·.setShortcut none) :=
  Array.getElem?_map ..

theorem shelf?_congr {offset' : Nat} (h : offset / Shelf.span = offset' / Shelf.span) :
    c.shelf? offset = c.shelf? offset' := by
  rw [shelf?, h, shelf?]

/-- A program that has a block is listed where the block starts. -/
theorem Filed.mem_programs {awaited : Option (ProgramNumber × Nat)} {s : Shelf} {id : BlockNumber}
    (hc : c.Filed awaited) (hshelf : c.shelf? offset = some s)
    (hentry : c.blockOf? program offset = some id) : program ∈ s.programs := by
  refine ((hc.serves _ s hshelf).mem_iff program).mpr (.inl ⟨offset, rfl, ?_⟩)
  rw [hentry]
  rfl

end Cache

namespace Processor

variable {p q : Processor} {offset : Nat} {program : ProgramNumber}

/-! ### Entering a program -/

/-- A program that is asked for a block is listed from then on. -/
theorem shelf?_blockAt {awaited : Option (ProgramNumber × Nat)} {id : BlockNumber}
    (hp : p.cache.Filed awaited) (hblock : p.blockAt program offset = .ok (id, q))
    (offset' : Nat) : q.cache.shelf? offset' =
      if offset / Shelf.span = offset' / Shelf.span then
        (p.cache.shelf? offset').map (·.enlist program)
      else p.cache.shelf? offset' := by
  obtain ⟨owner, howner, ⟨hid, rfl⟩ | ⟨-, b, p₁, cache, -, hadd, rfl⟩⟩ := blockAt_eq_ok hblock
  · split
    · case isTrue hnear =>
      cases hshelf : q.cache.shelf? offset' with
      | none => rfl
      | some s =>
        have hentry := (Cache.blockOf?_eq howner offset).trans hid
        have hmem := hp.mem_programs ((Cache.shelf?_congr hnear).trans hshelf) hentry
        rw [Option.map_some, Shelf.enlist_of_mem hmem]
    · rfl
  · obtain ⟨-, -, -, rfl⟩ := Cache.addBlock_eq_some hadd
    exact Cache.shelf?_modify rfl offset'

/-- A program that is entered is listed, and its block is the shortcut of the shelf. -/
theorem shelf?_enterProgram {awaited : Option (ProgramNumber × Nat)} {hit : Hit}
    (hp : p.cache.Filed awaited) (henter : p.enterProgram program offset = .ok (hit, q))
    (offset' : Nat) : q.cache.shelf? offset' =
      if offset / Shelf.span = offset' / Shelf.span then
        (p.cache.shelf? offset').map fun s =>
          (s.enlist hit.program).setShortcut (some (hit.program, hit.id))
      else p.cache.shelf? offset' := by
  obtain ⟨p₁, cache, hblock, hcache, -, rfl, rfl⟩ := enterProgram_eq_ok henter
  have hasked := shelf?_blockAt (p := { p with stale := false, recent := some hit.program }) hp
    hblock
  rw [Cache.shelf?_modifyShelf hcache, hasked]
  split
  · rw [Option.map_map]
    rfl
  · rfl

/-! ### Looking a block up -/

namespace Manner

/-- What a lookup makes of the list of its shelf, depending on how it comes by its program. Only a
comparison moves anything. -/
def place (manner : Manner) (program : ProgramNumber) (ids : List ProgramNumber) :
    List ProgramNumber :=
  match manner with
  | shortcut => ids
  | matched => Shelf.moveToFront program ids
  | created => program :: ids

/-- A program is one that a lookup in a shelf may come by in this manner. What the lookup does to
the list of the shelf follows from the manner and the program. -/
def Suits (manner : Manner) (s : Shelf) (program : ProgramNumber) : Prop :=
  match manner with
  | shortcut => ∃ id, s.shortcut = some (program, id)
  | matched => s.shortcut = none ∧ program ∈ s.programs
  | created => s.shortcut = none ∧ program ∉ s.programs

/-- The shelf after a lookup that has come by a program and its block. -/
def fill (manner : Manner) (hit : Hit) (s : Shelf) : Shelf :=
  ⟨some (hit.program, hit.id), manner.place hit.program s.programs⟩

/-- The program is listed then. -/
theorem mem_place {manner : Manner} {ids : List ProgramNumber}
    (h : manner = .shortcut → program ∈ ids) : program ∈ manner.place program ids := by
  cases manner with
  | shortcut => exact h rfl
  | matched => exact (Shelf.mem_touch ⟨none, ids⟩ program program).mpr (.inl rfl)
  | created => exact List.mem_cons_self

/-- A lookup that compares programs leaves its own in front of the others. -/
theorem Suits.place_eq {manner : Manner} {s : Shelf} (h : manner.Suits s program)
    (hnone : s.shortcut = none) (hnodup : s.programs.Nodup) :
    manner.place program s.programs = program :: s.programs.filter (· ≠ program) := by
  cases manner with
  | shortcut =>
    obtain ⟨id, hshortcut⟩ := h
    rw [hnone] at hshortcut
    cases hshortcut
  | matched => exact Shelf.moveToFront_eq hnodup
  | created => exact congrArg _ (Shelf.filter_ne_of_not_mem h.2).symm

end Manner

/-- Comparing programs changes the list of the shelf as the outcome says. -/
theorem shelf?_matchPrograms {s : Shelf} (hp : p.cache.Filed none)
    (hshelf : p.cache.shelf? offset = some s) (hnone : s.shortcut = none)
    (hmatch : p.matchPrograms offset = .ok (program, q)) :
    (p.manner offset).Suits s program ∧ p.manner offset ≠ .shortcut ∧
      ∀ offset', q.cache.shelf? offset' = if offset / Shelf.span = offset' / Shelf.span then
        (p.cache.shelf? offset').map fun s =>
          ⟨s.shortcut, (p.manner offset).place program s.programs⟩
        else p.cache.shelf? offset' := by
  obtain ⟨l, hlookup, ⟨hfound, cache, hcache, rfl⟩ | ⟨hfound, cache, hcache, rfl⟩⟩ :=
    matchPrograms_eq_ok hmatch
  · obtain ⟨s', hshelf', hmem, -⟩ := Cache.lookup_found hlookup hfound
    obtain rfl := Option.some.inj (hshelf.symm.trans hshelf')
    rw [manner_of_lookup hshelf hnone hlookup, hfound]
    exact ⟨⟨hnone, hmem⟩, nofun, Cache.shelf?_modifyShelf hcache⟩
  · obtain ⟨-, hnumber, hadded⟩ := Cache.addProgram_eq_some hcache
    have hnew : program ∉ s.programs := by
      intro hmem
      have hlt := (hp.consistent.listed s (Array.mem_of_getElem? hshelf)).2 _ hmem
      rw [hnumber] at hlt
      exact absurd hlt (Nat.lt_irrefl _)
    rw [manner_of_lookup hshelf hnone hlookup, hfound]
    exact ⟨⟨hnone, hnew⟩, nofun, Cache.shelf?_modify (congrArg Cache.shelves hadded)⟩

/-- **Lookup.** The shelf of the offset gets the block that is found as its shortcut and its list
as the manner of the lookup says, and all other shelves stay. -/
theorem shelf?_findBlockAt {hit : Hit} (hp : p.cache.Filed none)
    (hfind : p.findBlockAt offset = .ok (hit, q)) : ∃ s, p.cache.shelf? offset = some s ∧
      (p.manner offset).Suits s hit.program ∧
      q.cache.shelf? offset = some ((p.manner offset).fill hit s) ∧
      ∀ offset', offset / Shelf.span ≠ offset' / Shelf.span →
        q.cache.shelf? offset' = p.cache.shelf? offset' := by
  obtain ⟨s, hshelf, ⟨program, id, hshortcut, henter⟩ | ⟨hnone, program, p₁, hmatch, henter⟩⟩ :=
    findBlockAt_eq_ok hfind
  · obtain rfl := program_enterProgram henter
    have hentered := shelf?_enterProgram (p := { p with
      tracking := { p.tracking with reliance := .presumed }
      counters := { p.counters with shortcuts := p.counters.shortcuts + 1 } }) hp henter
    have hmem := (hp.consistent.shortcut _ s hshelf hit.program id hshortcut).1
    rw [manner_of_shortcut hshelf hshortcut]
    refine ⟨s, hshelf, ⟨id, hshortcut⟩, ?_, fun offset' hfar => by rw [hentered, if_neg hfar]⟩
    rw [hentered, if_pos rfl, hshelf, Option.map_some, Shelf.enlist_of_mem hmem]
    rfl
  · obtain rfl := program_enterProgram henter
    obtain ⟨awaited, hp₁, -⟩ := filed_matchPrograms hp hmatch
    have hentered := shelf?_enterProgram hp₁ henter
    obtain ⟨hsuits, hcompared, hmatched⟩ := shelf?_matchPrograms hp hshelf hnone hmatch
    have hmem : hit.program ∈ (p.manner offset).place hit.program s.programs :=
      Manner.mem_place fun hshortcut => absurd hshortcut hcompared
    have hplaced : p₁.cache.shelf? offset =
        some { s with programs := (p.manner offset).place hit.program s.programs } := by
      rw [hmatched, if_pos rfl, hshelf, Option.map_some]
    refine ⟨s, hshelf, hsuits, ?_, fun offset' hfar => ?_⟩
    · rw [hentered, if_pos rfl, hplaced, Option.map_some, Shelf.enlist_of_mem hmem]
      rfl
    · rw [hentered, if_neg hfar, hmatched, if_neg hfar]

end Processor

end VectorUnit
