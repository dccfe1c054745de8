import VectorUnit.Sequence
import VectorUnit.UnitKind

/-!
# Scanning for sequences

A memory made of whole pairs is scanned from the offset of any of its pairs (`Memory.HasPair`). The
scan never leaves the memory: it finds a sequence at every such offset (`Sequence.exists_scans`).

`Scans m offset room entries ending` lists the pairs that a scan takes, one at a time: a pair that
closes the sequence, with its delay slot; the last pair for which there is room; or a pair that lets
the scan pass on to the next one. What holds of every sequence found in memory is proved by
induction on it. A scan depends on nothing but the pairs that it takes (`Scans.congr`,
`ofMemory?_congr`), and its offsets fit into words as long as the size of the memory does
(`toNat_of_ofMemory?`).
-/

namespace VectorUnit

/-! ### Offsets of pairs -/

/-- A memory made of whole pairs has a pair at an offset. Every offset from which a unit ever scans
is of this kind, and so is the one behind it, around the end of memory. -/
structure Memory.HasPair (m : Memory) (offset : Nat) : Prop where
  whole : Pair.size ∣ m.size
  aligned : Pair.size ∣ offset
  inside : offset < m.size

namespace Memory.HasPair

variable {m : Memory} {offset : Nat}

theorem end_le (h : m.HasPair offset) : offset + Pair.size ≤ m.size := by
  obtain ⟨⟨a, ha⟩, ⟨b, hb⟩, hlt⟩ := h
  rw [Pair.size] at *
  omega

theorem pair?_eq (h : m.HasPair offset) : m.pair? offset = some (m.pair offset) := by
  rw [Memory.pair?, if_pos h.end_le]

/-- The pair behind, if this one is not the last. -/
theorem next (h : m.HasPair offset) (hlt : offset + Pair.size < m.size) :
    m.HasPair (offset + Pair.size) :=
  ⟨h.whole, Nat.dvd_add h.aligned (Nat.dvd_refl _), hlt⟩

/-- The pair behind, around the end of memory if need be. -/
theorem behind (h : m.HasPair offset) : m.HasPair ((offset + Pair.size) % m.size) :=
  ⟨h.whole, (Nat.dvd_mod_iff h.whole).mpr (Nat.dvd_add h.aligned (Nat.dvd_refl _)),
    Nat.mod_lt _ (Nat.zero_lt_of_lt h.inside)⟩

/-- Only the length of the memory matters. -/
theorem congr {m' : Memory} (h : m.HasPair offset) (hsize : m'.size = m.size) :
    m'.HasPair offset :=
  ⟨hsize ▸ h.whole, h.aligned, hsize ▸ h.inside⟩

section Words

variable (h : m.HasPair offset) (hsize : m.size < UInt32.size)
include h hsize

/-- The sum of an offset and the size of a pair does not overflow. -/
theorem toNat_add : (UInt32.ofNat offset + UInt32.ofNat Pair.size).toNat = offset + Pair.size := by
  have hend : offset + Pair.size < UInt32.size := Nat.lt_of_le_of_lt h.end_le hsize
  rw [← UInt32.ofNat_add, UInt32.toNat_ofNat_of_lt' hend]

theorem toNat_behind :
    ((UInt32.ofNat offset + UInt32.ofNat Pair.size) % UInt32.ofNat m.size).toNat =
      (offset + Pair.size) % m.size := by
  rw [UInt32.toNat_mod, h.toNat_add hsize, UInt32.toNat_ofNat_of_lt' hsize]

end Words

end Memory.HasPair

/-- Every masked offset is the offset of a pair in the memory of the unit. -/
theorem UnitKind.hasPair_pairOffset (k : UnitKind) {m : Memory} (hsize : m.size = k.memorySize)
    (offset : UInt32) : m.HasPair (k.pairOffset offset) := by
  refine ⟨?_, k.dvd_pairOffset offset, hsize ▸ k.pairOffset_lt offset⟩
  rw [hsize]
  cases k <;> decide

namespace Sequence

open Memory (HasPair)

variable {m : Memory} {offset room : Nat}

/-! ### Where a scan closes -/

/-- The way in which the pair at an offset closes a sequence, or the end of memory does. A pair for
which there is none lets the scan pass. -/
def closesAt (m : Memory) (offset : Nat) : Option Ending :=
  (closing (m.pair offset)).or (if m.size ≤ offset + Pair.size then some .memoryEnd else none)

theorem closingAt_eq (h : m.HasPair offset) : closingAt m offset = some (closesAt m offset) := by
  rw [closingAt, h.pair?_eq, Option.map_some, closesAt]

/-- A pair that lets the scan pass is not the last one of memory. -/
theorem lt_of_passes (h : closesAt m offset = none) : offset + Pair.size < m.size := by
  rw [closesAt, Option.or_eq_none_iff] at h
  obtain ⟨-, hend⟩ := h
  split at hend
  · cases hend
  · omega

theorem closing_of_passes (h : closesAt m offset = none) : closing (m.pair offset) = none := by
  rw [closesAt, Option.or_eq_none_iff] at h
  exact h.1

/-- The delay slot of a pair that closes a sequence in a given way. -/
def slotEntries (m : Memory) (offset : Nat) (t : Ending) : List Entry :=
  if t.hasSlot then [entryAt m ((offset + Pair.size) % m.size)] else []

/-- The entries that a scan takes from an offset, with room for `room` pairs behind the first one
before it has to end. -/
inductive Scans (m : Memory) : (offset room : Nat) → List Entry → Ending → Prop where
  | closes {offset room : Nat} {t : Ending} (h : closesAt m offset = some t) :
      Scans m offset room (entryAt m offset :: slotEntries m offset t) t
  | full {offset : Nat} (h : closesAt m offset = none) :
      Scans m offset 0 [entryAt m offset] .fullLength
  | passes {offset room : Nat} {es : List Entry} {t : Ending} (h : closesAt m offset = none)
      (rest : Scans m (offset + Pair.size) room es t) :
      Scans m offset (room + 1) (entryAt m offset :: es) t

/-! ### The scan of a memory -/

/-- Counting from `count` on adds `count`. -/
private theorem close_eq_map (m : Memory) (offset count room : Nat) :
    close m offset count room = (close m offset 0 room).map fun r => (count + r.1, r.2) := by
  induction room generalizing offset count with
  | zero =>
    cases h : closingAt m offset with
    | none => simp only [close, h, Option.map_none]
    | some t => simp only [close, h, Option.map_some, Nat.zero_add]
  | succ room ih =>
    simp only [close]
    split
    · rfl
    · rfl
    · -- both counts go on from there, one of them from zero
      rw [ih _ (count + 1), ih _ (0 + 1), Option.map_map]
      congr 1
      funext r
      simp only [Function.comp_apply, Nat.zero_add, Nat.add_assoc]

theorem straight_succ (m : Memory) (offset count : Nat) :
    straight m offset (count + 1) =
      entryAt m offset :: straight m (offset + Pair.size) count := by
  simp only [straight, List.range_succ_eq_map, List.map_cons, List.map_map, Nat.mul_zero,
    Nat.add_zero]
  congr 1
  apply List.map_congr_left
  intro i _
  simp only [Function.comp_apply, Nat.mul_succ]
  congr 1
  omega

/-- The entries that belong to a count of pairs and an ending. -/
private def taken (m : Memory) (offset : Nat) (r : Nat × Ending) : List Entry :=
  straight m offset r.1 ++ slotEntries m (offset + Pair.size * (r.1 - 1)) r.2

private theorem taken_one (m : Memory) (offset : Nat) (t : Ending) :
    taken m offset (1, t) = entryAt m offset :: slotEntries m offset t := by
  simp [taken, straight]

private theorem taken_succ (m : Memory) (offset count : Nat) (t : Ending) :
    taken m offset (1 + (count + 1), t) =
      entryAt m offset :: taken m (offset + Pair.size) (count + 1, t) := by
  have hlast : offset + Pair.size * (1 + (count + 1) - 1) =
      offset + Pair.size + Pair.size * (count + 1 - 1) := by
    rw [show 1 + (count + 1) - 1 = count + 1 by omega, Nat.mul_succ, Nat.add_sub_cancel]
    omega
  rw [taken, taken, hlast, Nat.add_comm 1, straight_succ, List.cons_append]

/-- What `close` counts is what a scan takes. -/
private theorem scans_of_close (h : m.HasPair offset) (room : Nat) :
    ∃ count t, close m offset 0 room = some (count + 1, t) ∧
      m.HasPair (offset + Pair.size * count) ∧
      Scans m offset room (taken m offset (count + 1, t)) t := by
  -- the three ways in which the first pair may end the scan or let it pass
  have hclose : ∀ t, closesAt m offset = some t →
      m.HasPair (offset + Pair.size * 0) ∧ Scans m offset room (taken m offset (1, t)) t := by
    intro t hc
    rw [taken_one]
    exact ⟨h, .closes hc⟩
  induction room generalizing offset with
  | zero =>
    rw [close, closingAt_eq h]
    cases hc : closesAt m offset with
    | some t => exact ⟨0, t, rfl, hclose t hc⟩
    | none =>
      refine ⟨0, .fullLength, rfl, h, ?_⟩
      rw [taken_one]
      exact .full hc
  | succ room ih =>
    rw [close, closingAt_eq h]
    cases hc : closesAt m offset with
    | some t => exact ⟨0, t, rfl, hclose t hc⟩
    | none =>
      have hnext := h.next (lt_of_passes hc)
      obtain ⟨count, t, hcount, hlast, hscans⟩ := ih hnext fun t ht => by
        rw [taken_one]
        exact ⟨hnext, .closes ht⟩
      refine ⟨1 + count, t, ?_, ?_, ?_⟩
      · rw [close_eq_map, hcount]
        simp only [Option.map_some, Nat.zero_add, Nat.add_assoc]
      · rwa [Nat.mul_add, Nat.mul_one, ← Nat.add_assoc]
      · rw [Nat.add_assoc, taken_succ]
        exact .passes hc hscans

/-- **A scan finds a sequence at the offset of every pair.** -/
theorem exists_scans (h : m.HasPair offset) (maxLength : Nat) :
    ∃ s, ofMemory? m offset maxLength = some s ∧ s.memLength = m.size ∧
      Scans m offset (maxLength - 1) s.entries s.ending := by
  obtain ⟨count, t, hclose, hlast, hscans⟩ := scans_of_close h (maxLength - 1)
  have hne : taken m offset (count + 1, t) ≠ [] := by
    rw [taken, straight_succ]
    exact List.cons_ne_nil _ _
  refine ⟨⟨taken m offset (count + 1, t), t, m.size, hne⟩, ?_, rfl, hscans⟩
  have hfound : ∀ es, es = taken m offset (count + 1, t) → ofEntries? es t m.size =
      some ⟨taken m offset (count + 1, t), t, m.size, hne⟩ := by
    rintro es rfl
    exact dif_pos hne
  -- the delay slot is a pair of memory, around its end if need be
  have hslot : slot? m (offset + Pair.size * count) =
      some (entryAt m ((offset + Pair.size * count + Pair.size) % m.size)) := by
    rw [slot?, hlast.behind.pair?_eq]
    rfl
  rw [ofMemory?, hclose, Option.bind_eq_bind, Option.bind_some]
  simp only [Nat.add_sub_cancel, hslot, Option.bind_eq_bind, Option.bind_some]
  by_cases ht : t.hasSlot = true
  · rw [if_pos ht]
    exact hfound _ (by rw [taken, slotEntries, if_pos ht, Nat.add_sub_cancel])
  · rw [if_neg ht]
    exact hfound _ (by rw [taken, slotEntries, if_neg ht, List.append_nil])

/-! ### What a scan takes -/

theorem Scans.ne_nil {es : List Entry} {t : Ending} (h : Scans m offset room es t) : es ≠ [] := by
  cases h <;> exact List.cons_ne_nil _ _

/-- Every entry is a pair of the memory, at its offset. -/
theorem Scans.entry_eq {es : List Entry} {t : Ending} (h : Scans m offset room es t)
    (hoffset : m.HasPair offset) {e : Entry} (he : e ∈ es) :
    m.HasPair e.offset ∧ e = entryAt m e.offset := by
  induction h with
  | closes hc =>
    rcases List.mem_cons.mp he with rfl | he
    · exact ⟨hoffset, rfl⟩
    · rw [slotEntries] at he
      split at he
      · obtain rfl := List.mem_singleton.mp he
        exact ⟨hoffset.behind, rfl⟩
      · cases he
  | full hc =>
    obtain rfl := List.mem_singleton.mp he
    exact ⟨hoffset, rfl⟩
  | passes hc rest ih =>
    rcases List.mem_cons.mp he with rfl | he
    · exact ⟨hoffset, rfl⟩
    · exact ih (hoffset.next (lt_of_passes hc)) he

/-- A scan takes the same entries in the same way whenever it is made. -/
theorem Scans.unique {es es' : List Entry} {t t' : Ending} (h : Scans m offset room es t)
    (h' : Scans m offset room es' t') : es = es' ∧ t = t' := by
  induction h generalizing es' t' with
  | closes hc =>
    cases h' with
    | closes hc' =>
      obtain rfl := Option.some.inj (hc.symm.trans hc')
      exact ⟨rfl, rfl⟩
    | full hc' => cases hc.symm.trans hc'
    | passes hc' => cases hc.symm.trans hc'
  | full hc =>
    cases h' with
    | closes hc' => cases hc.symm.trans hc'
    | full => exact ⟨rfl, rfl⟩
  | passes hc rest ih =>
    cases h' with
    | closes hc' => cases hc.symm.trans hc'
    | passes hc' rest' =>
      obtain ⟨rfl, rfl⟩ := ih rest'
      exact ⟨rfl, rfl⟩

/-- The sequence found at the offset of a pair is what a scan takes. -/
theorem ofMemory?_eq_some_iff (h : m.HasPair offset) {maxLength : Nat} {s : Sequence} :
    ofMemory? m offset maxLength = some s ↔
      s.memLength = m.size ∧ Scans m offset (maxLength - 1) s.entries s.ending := by
  obtain ⟨s', hs', hlength, hscans⟩ := exists_scans h maxLength
  constructor
  · intro hs
    obtain rfl := Option.some.inj (hs'.symm.trans hs)
    exact ⟨hlength, hscans⟩
  · rintro ⟨hlength', hscans'⟩
    obtain ⟨hentries, hending⟩ := hscans.unique hscans'
    rw [hs']
    -- a sequence is its entries, its ending and the length of its memory
    obtain ⟨es, t, n, hne⟩ := s
    obtain ⟨es', t', n', hne'⟩ := s'
    obtain rfl : n' = n := hlength.trans hlength'.symm
    obtain rfl : es' = es := hentries
    obtain rfl : t' = t := hending
    rfl

/-- **Words suffice.** In a memory of fewer than 2^32 bytes, the scan may keep offsets and the size
of the memory in words of 32 bits: neither these nor the sum from which the offset behind a pair is
taken are cut. -/
theorem toNat_of_ofMemory? (h : m.HasPair offset) {maxLength : Nat} {s : Sequence}
    (hs : ofMemory? m offset maxLength = some s) (hsize : m.size < UInt32.size) :
    (UInt32.ofNat s.memLength).toNat = s.memLength ∧ ∀ e ∈ s.entries,
      (UInt32.ofNat e.offset).toNat = e.offset ∧
      (UInt32.ofNat e.offset + UInt32.ofNat Pair.size).toNat = e.offset + Pair.size ∧
      ((UInt32.ofNat e.offset + UInt32.ofNat Pair.size) % UInt32.ofNat s.memLength).toNat =
        (e.offset + Pair.size) % s.memLength := by
  obtain ⟨hlength, hscans⟩ := (ofMemory?_eq_some_iff h).mp hs
  rw [hlength]
  refine ⟨UInt32.toNat_ofNat_of_lt' hsize, fun e he => ?_⟩
  have hpair : m.HasPair e.offset := (hscans.entry_eq h he).1
  exact ⟨UInt32.toNat_ofNat_of_lt' (Nat.lt_trans hpair.inside hsize), hpair.toNat_add hsize,
    hpair.toNat_behind hsize⟩

/-! ### What a scan depends on -/

theorem closesAt_congr {m' : Memory} (hsize : m'.size = m.size)
    (hpair : m'.pair offset = m.pair offset) : closesAt m' offset = closesAt m offset := by
  rw [closesAt, closesAt, hpair, hsize]

theorem entryAt_congr {m' : Memory} (hpair : m'.pair offset = m.pair offset) :
    entryAt m' offset = entryAt m offset := by
  rw [entryAt, entryAt, hpair]

/-- Another memory that has the pairs which a scan takes is scanned in the same way. -/
theorem Scans.congr {m' : Memory} {es : List Entry} {t : Ending} (h : Scans m offset room es t)
    (hsize : m'.size = m.size) (hpairs : ∀ e ∈ es, m'.pair e.offset = e.pair) :
    Scans m' offset room es t := by
  induction h with
  | @closes offset room t hc =>
    have hfirst : m'.pair offset = m.pair offset := hpairs (entryAt m offset) List.mem_cons_self
    have hslot : slotEntries m offset t = slotEntries m' offset t := by
      rw [slotEntries, slotEntries, hsize]
      split
      · case isTrue ht =>
        have hmem : entryAt m ((offset + Pair.size) % m.size) ∈
            entryAt m offset :: slotEntries m offset t := by
          rw [slotEntries, if_pos ht]
          exact List.mem_cons_of_mem _ List.mem_cons_self
        have hentry : entryAt m' ((offset + Pair.size) % m.size) =
            entryAt m ((offset + Pair.size) % m.size) :=
          entryAt_congr (hpairs (entryAt m ((offset + Pair.size) % m.size)) hmem)
        rw [hentry]
      · rfl
    rw [← entryAt_congr hfirst, hslot]
    exact .closes ((closesAt_congr hsize hfirst).trans hc)
  | @full offset hc =>
    have hfirst : m'.pair offset = m.pair offset := hpairs (entryAt m offset) List.mem_cons_self
    rw [← entryAt_congr hfirst]
    exact .full ((closesAt_congr hsize hfirst).trans hc)
  | @passes offset room es t hc rest ih =>
    have hfirst : m'.pair offset = m.pair offset := hpairs (entryAt m offset) List.mem_cons_self
    rw [← entryAt_congr hfirst]
    exact .passes ((closesAt_congr hsize hfirst).trans hc)
      (ih fun e he => hpairs e (List.mem_cons_of_mem _ he))

/-- The sequence at an offset depends on nothing but its pairs. -/
theorem ofMemory?_congr {m' : Memory} (h : m.HasPair offset) {maxLength : Nat} {s : Sequence}
    (hs : ofMemory? m offset maxLength = some s) (hsize : m'.size = m.size)
    (hpairs : ∀ e ∈ s.entries, m'.pair e.offset = m.pair e.offset) :
    ofMemory? m' offset maxLength = some s := by
  obtain ⟨hlength, hscans⟩ := (ofMemory?_eq_some_iff h).mp hs
  refine (ofMemory?_eq_some_iff (h.congr hsize)).mpr ⟨hlength.trans hsize.symm, ?_⟩
  refine hscans.congr hsize fun e he => (hpairs e he).trans ?_
  rw [(hscans.entry_eq h he).2]
  rfl

end Sequence

end VectorUnit
