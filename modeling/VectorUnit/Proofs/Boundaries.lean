import VectorUnit.Instruction.Assembly
import VectorUnit.Proofs.Recognition

/-!
# Block boundaries

Where a sequence ends can be said without scanning. A sequence reaches from an offset to the block
boundary (`Sequence.Delimits`) if its pairs stand one behind the other in memory, none in front of
the last ends anything but for one that has its delay slot behind it, and the way in which the
sequence ends is told by its last two pairs, the end of memory and the greatest length, in this
order. There is one such sequence at every pair of a memory, and it is the one that a scan finds
(`Sequence.delimits_iff_eq`). Only a delay slot ever stands at the other end of memory, and then it
has a range of its own.

A scan passes some pairs and closes at the next one (`Sequence.ClosesAfter`), so its entries are
known from their number (`Sequence.ScannedAs`).
-/

namespace VectorUnit

/-- A pair that closes a sequence without a delay slot: a kick or a debug bit. -/
def Pair.halts (p : Pair) : Bool :=
  p.opcode == .xgkick || p.dBit || p.tBit

/-- The offsets of the pairs in a range. -/
def Range.pairOffsets (r : Range) : List Nat :=
  (List.range ((r.stop - r.start) / Pair.size)).map fun i => r.start + Pair.size * i

namespace Sequence

open Memory (HasPair)

variable {m : Memory} {offset room : Nat} {s : Sequence}

/-! ### Counting the pairs that a scan passes -/

/-- The entries of `count` pairs one after another, around the end of memory if need be. -/
def around (m : Memory) (start count : Nat) : List Entry :=
  (List.range count).map fun i => entryAt m ((start + Pair.size * i) % m.size)

theorem straight_eq_around {count : Nat} (h : offset + Pair.size * count < m.size) :
    straight m offset (count + 1) = around m offset (count + 1) := by
  refine List.map_congr_left fun i hi => ?_
  have hle := Nat.mul_le_mul_left Pair.size (Nat.le_of_lt_succ (List.mem_range.mp hi))
  rw [Nat.mod_eq_of_lt (by omega)]

theorem around_succ (m : Memory) (start count : Nat) : around m start (count + 1) =
    around m start count ++ [entryAt m ((start + Pair.size * count) % m.size)] := by
  rw [around, List.range_succ, List.map_append, List.map_singleton, around]

/-- A scan from an offset passes some pairs and ends in the given way at the next one: because of
that pair, because memory ends behind it, or because there is no room for another one. -/
structure ClosesAfter (m : Memory) (offset room passed : Nat) (t : Ending) : Prop where
  passes : ∀ i < passed, closesAt m (offset + Pair.size * i) = none
  le_room : passed ≤ room
  ending_eq : t = (closesAt m (offset + Pair.size * passed)).getD .fullLength
  eq_room : closesAt m (offset + Pair.size * passed) = none → passed = room
  lt_size : offset + Pair.size * passed < m.size

/-- **Scan.** The entries of a scan are the pairs that it passes, the one at which it closes, and
the delay slot of that pair. -/
theorem Scans.exists_closesAfter {es : List Entry} {t : Ending} (h : Scans m offset room es t)
    (hoffset : offset < m.size) : ∃ passed, ClosesAfter m offset room passed t ∧
      es = straight m offset (passed + 1) ++ slotEntries m (offset + Pair.size * passed) t := by
  induction h with
  | @closes offset room t hc =>
    refine ⟨0, ⟨fun i hi => absurd hi (Nat.not_lt_zero i), Nat.zero_le _, ?_, fun hnone => ?_,
      hoffset⟩, ?_⟩
    · rw [Nat.mul_zero, Nat.add_zero, hc, Option.getD_some]
    · rw [Nat.mul_zero, Nat.add_zero, hc] at hnone
      cases hnone
    · rw [straight_succ]
      rfl
  | @full offset hc =>
    refine ⟨0, ⟨fun i hi => absurd hi (Nat.not_lt_zero i), Nat.le_refl _, ?_, fun _ => rfl,
      hoffset⟩, ?_⟩
    · rw [Nat.mul_zero, Nat.add_zero, hc, Option.getD_none]
    · rw [straight_succ]
      rfl
  | @passes offset room es t hc rest ih =>
    obtain ⟨passed, ⟨hpasses, hroom, hending, hfull, hlt⟩, rfl⟩ := ih (lt_of_passes hc)
    -- the pairs behind the first one are counted from there
    have hshift : ∀ i, offset + Pair.size * (i + 1) = offset + Pair.size + Pair.size * i := by
      intro i
      rw [Nat.mul_succ]
      omega
    rw [← hshift] at hlt hending hfull ⊢
    refine ⟨passed + 1, ⟨fun i hi => ?_, Nat.succ_le_succ hroom, hending, fun hnone => ?_, hlt⟩, ?_⟩
    · cases i with
      | zero => exact hc
      | succ i =>
        rw [hshift]
        exact hpasses i (Nat.lt_of_succ_lt_succ hi)
    · rw [hfull hnone]
    · rw [straight_succ m offset (passed + 1), List.cons_append]

/-! ### How a pair ends a sequence -/

theorem stopsBlock_eq (op : Opcode) : op.stopsBlock = (op == .xgkick) := by
  cases op <;> rfl

/-- What a pair says about the end of a sequence. -/
theorem closing_eq (p : Pair) : closing p =
    if p.eBit then some .programEnd
    else if p.isBranch then some .branch
    else if p.halts then some .halt
    else none := by
  rw [closing, stopsBlock_eq, Pair.halts]

/-- A pair that a scan passes neither halts nor has a delay slot. -/
theorem plain_of_passes (h : closesAt m offset = none) :
    (m.pair offset).hasDelaySlot = false ∧ (m.pair offset).halts = false := by
  have hclosing := closing_of_passes h
  rw [closing_eq] at hclosing
  rw [Pair.hasDelaySlot]
  grind

/-- What the pair at which a scan closes says about the end of the sequence, and what the end of
memory and the greatest length do otherwise. -/
inductive EndsWith (m : Memory) (offset room passed : Nat) (p : Pair) : Ending → Prop where
  | programEnd (h : p.eBit = true) : EndsWith m offset room passed p .programEnd
  | branch (hend : p.eBit = false) (h : p.isBranch = true) :
      EndsWith m offset room passed p .branch
  | halt (hslot : p.hasDelaySlot = false) (h : p.halts = true) :
      EndsWith m offset room passed p .halt
  | memoryEnd (hslot : p.hasDelaySlot = false) (hhalts : p.halts = false)
      (h : m.size ≤ offset + Pair.size * (passed + 1)) : EndsWith m offset room passed p .memoryEnd
  | fullLength (hslot : p.hasDelaySlot = false) (hhalts : p.halts = false)
      (hlt : offset + Pair.size * (passed + 1) < m.size) (h : passed = room) :
      EndsWith m offset room passed p .fullLength

variable {passed : Nat} {t : Ending}

theorem ClosesAfter.endsWith (h : ClosesAfter m offset room passed t) :
    EndsWith m offset room passed (m.pair (offset + Pair.size * passed)) t := by
  have hending := h.ending_eq
  have hroom := h.eq_room
  have hsucc : offset + Pair.size * passed + Pair.size = offset + Pair.size * (passed + 1) := by
    rw [Nat.mul_succ, Nat.add_assoc]
  -- what the pair says comes in the order in which a scan asks for it
  generalize hp : m.pair (offset + Pair.size * passed) = p at *
  rw [closesAt, closing_eq, hp, hsucc] at hending hroom
  have hslot : p.hasDelaySlot = (p.eBit || p.isBranch) := rfl
  cases heBit : p.eBit with
  | true =>
    rw [if_pos heBit] at hending
    exact hending ▸ .programEnd heBit
  | false =>
    rw [if_neg (Bool.not_eq_true _ ▸ heBit)] at hending hroom
    cases hbranch : p.isBranch with
    | true =>
      rw [if_pos hbranch] at hending
      exact hending ▸ .branch heBit hbranch
    | false =>
      rw [hbranch, heBit] at hslot
      rw [if_neg (Bool.not_eq_true _ ▸ hbranch)] at hending hroom
      cases hhalts : p.halts with
      | true =>
        rw [if_pos hhalts] at hending
        exact hending ▸ .halt hslot hhalts
      | false =>
        rw [if_neg (Bool.not_eq_true _ ▸ hhalts), Option.none_or] at hending hroom
        split at hending
        · case isTrue hle => exact hending ▸ .memoryEnd hslot hhalts hle
        · case isFalse hlt =>
          rw [if_neg hlt] at hroom
          exact hending ▸ .fullLength hslot hhalts (Nat.lt_of_not_le hlt) (hroom rfl)

namespace EndsWith

variable {p : Pair}

theorem hasSlot_eq (h : EndsWith m offset room passed p t) : t.hasSlot = p.hasDelaySlot := by
  cases h with
  | programEnd heBit => rw [Pair.hasDelaySlot, heBit]; rfl
  | branch _ hbranch => rw [Pair.hasDelaySlot, hbranch, Bool.or_true]; rfl
  | halt hslot => exact hslot.symm
  | memoryEnd hslot => exact hslot.symm
  | fullLength hslot => exact hslot.symm

theorem programEnd_iff (h : EndsWith m offset room passed p t) :
    t = .programEnd ↔ p.eBit = true := by
  have hslot := h.hasSlot_eq
  rw [Pair.hasDelaySlot] at hslot
  cases h with
  | programEnd heBit => simp only [heBit]
  | branch heBit => simp only [heBit, reduceCtorEq, Bool.false_eq_true]
  | halt | memoryEnd | fullLength =>
    obtain ⟨heBit, -⟩ := Bool.or_eq_false_iff.mp hslot.symm
    simp only [heBit, reduceCtorEq, Bool.false_eq_true]

theorem halt_iff (h : EndsWith m offset room passed p t) (hslot : t.hasSlot = false) :
    t = .halt ↔ p.halts = true := by
  cases h with
  | programEnd | branch => cases hslot
  | halt _ hhalts => simp only [hhalts]
  | memoryEnd _ hhalts | fullLength _ hhalts =>
    simp only [hhalts, reduceCtorEq, Bool.false_eq_true]

theorem memoryEnd_iff (h : EndsWith m offset room passed p t) (hslot : t.hasSlot = false)
    (hhalts : p.halts = false) :
    t = .memoryEnd ↔ m.size ≤ offset + Pair.size * (passed + 1) := by
  cases h with
  | programEnd | branch => cases hslot
  | halt _ hhalts' => cases hhalts.symm.trans hhalts'
  | memoryEnd _ _ hend => simp only [hend]
  | fullLength _ _ hlt => simp only [reduceCtorEq, Nat.not_le_of_lt hlt]

theorem passed_eq (h : EndsWith m offset room passed p .fullLength) : passed = room := by
  cases h with
  | fullLength _ _ _ hroom => exact hroom

end EndsWith

/-! ### The sequence up to the block boundary -/

/-- The entry in front of the last one, if there is one. -/
def penultimate? (s : Sequence) : Option Entry :=
  s.entries.dropLast.getLast?

theorem penultimate?_eq_some_iff {e : Entry} :
    s.penultimate? = some e ↔ ∃ i, i + 2 = s.length ∧ s.entries[i]? = some e := by
  rw [penultimate?, List.getLast?_dropLast, length]
  constructor
  · intro h
    split at h
    · cases h
    · exact ⟨_, by omega, h⟩
  · rintro ⟨i, hi, he⟩
    rw [if_neg (by omega), ← he]
    congr 1
    omega

/-- A branch that takes its delay slot along stands in front of it. -/
theorem branch?_eq (s : Sequence) : s.branch? = s.penultimate?.filter fun e => e.pair.isBranch := by
  rw [branch?, penultimate?]
  rcases hes : s.entries.reverse with _ | ⟨f, _ | ⟨e, rest⟩⟩ <;>
    obtain hes := List.reverse_eq_iff.mp hes <;> simp [hes, Option.filter_some]

/-- A sequence reaches from `start` to the block boundary, which lies behind `limit` pairs at the
latest and takes a delay slot along. -/
structure Delimits (m : Memory) (start limit : Nat) (s : Sequence) : Prop where
  memLength_eq : s.memLength = m.size
  /-- The pairs stand one behind the other in memory. -/
  entry : ∀ i e, s.entries[i]? = some e →
    e.offset = (start + Pair.size * i) % m.size ∧ m.pair? e.offset = some e.pair
  /-- None but a delay slot stands at the other end of memory. -/
  wraps : ∀ i < s.length, m.size ≤ start + Pair.size * i →
    i + 1 = s.length ∧ s.ending.hasSlot = true
  /-- In front of the last pair nothing ends a block, but for the pair with the delay slot. -/
  passes : ∀ i e, s.entries[i]? = some e → i + 1 < s.length →
    (e.pair.hasDelaySlot = false ∧ e.pair.halts = false) ∨
      (i + 2 = s.length ∧ s.ending.hasSlot = true)
  hasSlot_iff : s.ending.hasSlot = true ↔
    ∃ e, s.penultimate? = some e ∧ e.pair.hasDelaySlot = true
  programEnd_iff : s.ending = .programEnd ↔ ∃ e, s.penultimate? = some e ∧ e.pair.eBit = true
  /-- A pair with a delay slot is not left without it. -/
  last_plain : s.ending.hasSlot = false → s.last.pair.hasDelaySlot = false
  halt_iff : s.ending.hasSlot = false → (s.ending = .halt ↔ s.last.pair.halts = true)
  memoryEnd_iff : s.ending.hasSlot = false → s.last.pair.halts = false →
    (s.ending = .memoryEnd ↔ s.last.offset + Pair.size = m.size)
  length_eq : s.ending = .fullLength → s.length = limit
  length_le : s.length ≤ limit + 1
  hasSlot_of_length : s.length = limit + 1 → s.ending.hasSlot = true

section Delimits

variable {start limit : Nat} {s t : Sequence}

theorem last_eq_some (s : Sequence) : s.entries[s.length - 1]? = some s.last := by
  rw [length, last, ← List.getLast?_eq_getElem?, List.getLast?_eq_some_getLast]

theorem Delimits.entry_eq (hs : Delimits m start limit s) (ht : Delimits m start limit t) {i : Nat}
    {e f : Entry} (he : s.entries[i]? = some e) (hf : t.entries[i]? = some f) : e = f := by
  obtain ⟨hoffset, hpair⟩ := hs.entry i e he
  obtain ⟨hoffset', hpair'⟩ := ht.entry i f hf
  obtain ⟨_, _⟩ := e
  obtain ⟨_, _⟩ := f
  obtain rfl := hoffset.trans hoffset'.symm
  obtain rfl := Option.some.inj (hpair.symm.trans hpair')
  rfl

/-- A sequence with a delay slot is not shorter, for the pair in front of it is not passed. -/
theorem Delimits.length_le_of_slot (hs : Delimits m start limit s) (ht : Delimits m start limit t)
    (hslot : t.ending.hasSlot = true) : s.length ≤ t.length := by
  refine Nat.le_of_not_lt fun hlt => ?_
  have hsentries : s.length = s.entries.length := rfl
  obtain ⟨f, hf, hdelay⟩ := ht.hasSlot_iff.mp hslot
  obtain ⟨i, hi, hf⟩ := penultimate?_eq_some_iff.mp hf
  obtain ⟨e, he⟩ : ∃ e, s.entries[i]? = some e := ⟨_, List.getElem?_eq_getElem (by omega)⟩
  obtain rfl := hs.entry_eq ht he hf
  rcases hs.passes i e he (by omega) with ⟨hplain, -⟩ | ⟨hlast, -⟩
  · rw [hplain] at hdelay
    cases hdelay
  · omega

/-- Where one sequence ends without a delay slot, a longer one goes on after it as after all the
others, and not with a delay slot. -/
theorem Delimits.passes_last (hs : Delimits m start limit s) (ht : Delimits m start limit t)
    (hslot : t.ending.hasSlot = false) (hlt : t.length < s.length) :
    t.last.pair.halts = false ∧ ¬(t.length + 1 = s.length ∧ s.ending.hasSlot = true) := by
  have htpos := t.length_pos
  have hsentries : s.length = s.entries.length := rfl
  have hplain := ht.last_plain hslot
  obtain ⟨e, he⟩ : ∃ e, s.entries[t.length - 1]? = some e :=
    ⟨_, List.getElem?_eq_getElem (by omega)⟩
  obtain rfl := hs.entry_eq ht he t.last_eq_some
  have hnoSlot : ¬(t.length + 1 = s.length ∧ s.ending.hasSlot = true) := by
    rintro ⟨hlength, hsslot⟩
    obtain ⟨e, hpenultimate, hdelay⟩ := hs.hasSlot_iff.mp hsslot
    obtain ⟨i, hi, hi'⟩ := penultimate?_eq_some_iff.mp hpenultimate
    obtain rfl : i = t.length - 1 := by omega
    obtain rfl := Option.some.inj (hi'.symm.trans he)
    rw [hplain] at hdelay
    cases hdelay
  rcases hs.passes _ _ he (by omega) with ⟨-, hhalts⟩ | ⟨hlength, hsslot⟩
  · exact ⟨hhalts, hnoSlot⟩
  · exact absurd ⟨by omega, hsslot⟩ hnoSlot

/-- Of two sequences to the block boundary none is shorter. -/
theorem Delimits.length_le_length (hs : Delimits m start limit s)
    (ht : Delimits m start limit t) : s.length ≤ t.length := by
  refine Nat.le_of_not_lt fun hlt => ?_
  cases hslot : t.ending.hasSlot with
  | true => exact Nat.not_lt_of_le (hs.length_le_of_slot ht hslot) hlt
  | false =>
    obtain ⟨hhalts, hnoSlot⟩ := hs.passes_last ht hslot hlt
    cases hending : t.ending with
    | branch => rw [hending] at hslot; cases hslot
    | programEnd => rw [hending] at hslot; cases hslot
    | halt =>
      rw [(ht.halt_iff hslot).mp hending] at hhalts
      cases hhalts
    | memoryEnd =>
      -- the next pair of the longer one is at the other end of memory, so it is a delay slot
      have htpos := t.length_pos
      have hend := (ht.memoryEnd_iff hslot hhalts).mp hending
      have hinside : start + Pair.size * (t.length - 1) < m.size := by
        refine Nat.lt_of_not_le fun hle => ?_
        rw [(ht.wraps _ (by omega) hle).2] at hslot
        cases hslot
      rw [(ht.entry _ _ t.last_eq_some).1, Nat.mod_eq_of_lt hinside] at hend
      have hsucc :
          start + Pair.size * (t.length - 1) + Pair.size = start + Pair.size * t.length := by
        rw [Nat.add_assoc, ← Nat.mul_succ, Nat.succ_eq_add_one, Nat.sub_add_cancel htpos]
      exact hnoSlot (hs.wraps t.length hlt (by omega))
    | fullLength =>
      have hlimit := ht.length_eq hending
      have hle := hs.length_le
      exact hnoSlot ⟨by omega, hs.hasSlot_of_length (by omega)⟩

theorem Delimits.ending_eq (hs : Delimits m start limit s) (ht : Delimits m start limit t)
    (hentries : s.entries = t.entries) : s.ending = t.ending := by
  have hpenultimate : s.penultimate? = t.penultimate? := by
    rw [penultimate?, penultimate?, hentries]
  have hlast : s.last = t.last := by
    simp only [last, hentries]
  have hslot : s.ending.hasSlot = true ↔ t.ending.hasSlot = true := by
    rw [hs.hasSlot_iff, ht.hasSlot_iff, hpenultimate]
  have hprogram : s.ending = .programEnd ↔ t.ending = .programEnd := by
    rw [hs.programEnd_iff, ht.programEnd_iff, hpenultimate]
  have hhalt := hs.halt_iff
  have hhalt' := ht.halt_iff
  have hmemory := hs.memoryEnd_iff
  have hmemory' := ht.memoryEnd_iff
  rw [hlast] at hhalt hmemory
  cases hsending : s.ending <;> cases htending : t.ending <;>
    simp_all [Ending.hasSlot]

/-- There is no more than one sequence to the block boundary. -/
theorem Delimits.eq (hs : Delimits m start limit s) (ht : Delimits m start limit t) : s = t := by
  have hlength : s.length = t.length :=
    Nat.le_antisymm (hs.length_le_length ht) (ht.length_le_length hs)
  have hentries : s.entries = t.entries := List.ext_getElem hlength fun i hi hi' =>
    hs.entry_eq ht (List.getElem?_eq_getElem hi) (List.getElem?_eq_getElem hi')
  have hending := hs.ending_eq ht hentries
  have hmemLength := hs.memLength_eq.trans ht.memLength_eq.symm
  obtain ⟨es, e, n, hne⟩ := s
  obtain ⟨es', e', n', hne'⟩ := t
  obtain rfl : es = es' := hentries
  obtain rfl : e = e' := hending
  obtain rfl : n = n' := hmemLength
  rfl

end Delimits

/-! ### The sequence that a scan finds -/

theorem getElem?_around {start count i : Nat} {e : Entry} :
    (around m start count)[i]? = some e ↔
      i < count ∧ e = entryAt m ((start + Pair.size * i) % m.size) := by
  rw [around, List.getElem?_map, Option.map_eq_some_iff]
  constructor
  · rintro ⟨j, hj, rfl⟩
    obtain ⟨hlt, rfl⟩ := List.getElem?_eq_some_iff.mp hj
    rw [List.length_range] at hlt
    rw [List.getElem_range]
    exact ⟨hlt, rfl⟩
  · rintro ⟨hlt, rfl⟩
    exact ⟨i, List.getElem?_range hlt, rfl⟩

theorem ClosesAfter.entries_eq {t : Ending} (h : ClosesAfter m offset room passed t) :
    straight m offset (passed + 1) ++ slotEntries m (offset + Pair.size * passed) t =
      around m offset (passed + 1 + t.hasSlot.toNat) := by
  rw [straight_eq_around h.lt_size, slotEntries]
  cases t.hasSlot with
  | false => rw [if_neg Bool.false_ne_true, List.append_nil, Bool.toNat_false, Nat.add_zero]
  | true => rw [if_pos rfl, Bool.toNat_true, around_succ m offset (passed + 1), Nat.mul_succ,
      Nat.add_assoc]

/-- A sequence consists of the pairs that a scan passes and of those at which it closes, which are
two of them if there is a delay slot. This is what a scan finds, without the recursion. -/
structure ScannedAs (m : Memory) (offset room passed : Nat) (s : Sequence) : Prop
    extends ClosesAfter m offset room passed s.ending where
  hasPair : m.HasPair offset
  memLength_eq : s.memLength = m.size
  entries_eq : s.entries = around m offset (passed + 1 + s.ending.hasSlot.toNat)

/-- The sequence found in a memory was scanned. -/
theorem exists_scannedAs (h : m.HasPair offset) (maxLength : Nat) :
    ∃ s passed, ofMemory? m offset maxLength = some s ∧
      ScannedAs m offset (maxLength - 1) passed s := by
  obtain ⟨s, hs, hlength, hscans⟩ := exists_scans h maxLength
  obtain ⟨passed, hcloses, hentries⟩ := hscans.exists_closesAfter h.inside
  exact ⟨s, passed, hs, hcloses, h, hlength, hentries.trans hcloses.entries_eq⟩

namespace ScannedAs

theorem length_eq (h : ScannedAs m offset room passed s) :
    s.length = passed + 1 + s.ending.hasSlot.toNat := by
  rw [length, h.entries_eq, around, List.length_map, List.length_range]

theorem getElem?_iff (h : ScannedAs m offset room passed s) {i : Nat} {e : Entry} :
    s.entries[i]? = some e ↔
      i < s.length ∧ e = entryAt m ((offset + Pair.size * i) % m.size) := by
  rw [h.length_eq, h.entries_eq]
  exact getElem?_around

theorem closer (h : ScannedAs m offset room passed s) :
    m.HasPair (offset + Pair.size * passed) :=
  ⟨h.hasPair.whole, Nat.dvd_add h.hasPair.aligned (Nat.dvd_mul_right _ _), h.lt_size⟩

/-- The pairs in front of a delay slot are not wrapped. -/
theorem lt_size_of_le (h : ScannedAs m offset room passed s) {i : Nat} (hi : i ≤ passed) :
    offset + Pair.size * i < m.size :=
  Nat.lt_of_le_of_lt (Nat.add_le_add_left (Nat.mul_le_mul_left _ hi) _) h.lt_size

theorem getElem?_of_le (h : ScannedAs m offset room passed s) {i : Nat} (hi : i ≤ passed) :
    s.entries[i]? = some (entryAt m (offset + Pair.size * i)) := by
  have hlength := h.length_eq
  refine h.getElem?_iff.mpr ⟨by omega, ?_⟩
  rw [Nat.mod_eq_of_lt (h.lt_size_of_le hi)]

theorem entry (h : ScannedAs m offset room passed s) (i : Nat) (e : Entry)
    (he : s.entries[i]? = some e) :
    e.offset = (offset + Pair.size * i) % m.size ∧ m.pair? e.offset = some e.pair := by
  obtain ⟨-, rfl⟩ := h.getElem?_iff.mp he
  have hwhole := h.hasPair.whole
  have hpair : m.HasPair ((offset + Pair.size * i) % m.size) :=
    ⟨hwhole, (Nat.dvd_mod_iff hwhole).mpr (Nat.dvd_add h.hasPair.aligned (Nat.dvd_mul_right _ _)),
      Nat.mod_lt _ (Nat.zero_lt_of_lt h.hasPair.inside)⟩
  exact ⟨rfl, hpair.pair?_eq⟩

theorem wraps (h : ScannedAs m offset room passed s) (i : Nat) (hi : i < s.length)
    (hle : m.size ≤ offset + Pair.size * i) : i + 1 = s.length ∧ s.ending.hasSlot = true := by
  have hpassed : passed < i := Nat.lt_of_not_le fun hi =>
    absurd (h.lt_size_of_le hi) (Nat.not_lt_of_le hle)
  rw [h.length_eq] at hi ⊢
  cases hslot : s.ending.hasSlot with
  | false => rw [hslot, Bool.toNat_false] at hi; omega
  | true => rw [hslot, Bool.toNat_true] at hi; exact ⟨by rw [Bool.toNat_true]; omega, rfl⟩

/-- The pairs in front of the one at which a scan closes end nothing. -/
theorem plain_of_lt (h : ScannedAs m offset room passed s) {i : Nat} (hi : i < passed) {e : Entry}
    (he : s.entries[i]? = some e) : e.pair.hasDelaySlot = false ∧ e.pair.halts = false := by
  obtain rfl := Option.some.inj (he.symm.trans (h.getElem?_of_le (Nat.le_of_lt hi)))
  exact plain_of_passes (h.passes i hi)

theorem passes_or (h : ScannedAs m offset room passed s) (i : Nat) (e : Entry)
    (he : s.entries[i]? = some e) (hi : i + 1 < s.length) :
    (e.pair.hasDelaySlot = false ∧ e.pair.halts = false) ∨
      (i + 2 = s.length ∧ s.ending.hasSlot = true) := by
  rcases Nat.lt_or_ge i passed with hlt | hge
  · exact .inl (h.plain_of_lt hlt he)
  · rw [h.length_eq] at hi ⊢
    cases hslot : s.ending.hasSlot with
    | false => rw [hslot, Bool.toNat_false] at hi; omega
    | true => rw [hslot, Bool.toNat_true] at hi; exact .inr ⟨by rw [Bool.toNat_true]; omega, rfl⟩

theorem penultimate?_eq (h : ScannedAs m offset room passed s) (hslot : s.ending.hasSlot = true) :
    s.penultimate? = some (entryAt m (offset + Pair.size * passed)) := by
  have hlength := h.length_eq
  rw [hslot, Bool.toNat_true] at hlength
  exact penultimate?_eq_some_iff.mpr ⟨passed, hlength.symm, h.getElem?_of_le (Nat.le_refl _)⟩

/-- Without a delay slot the pair in front of the last one is passed. -/
theorem plain_penultimate (h : ScannedAs m offset room passed s)
    (hslot : s.ending.hasSlot = false) {e : Entry} (he : s.penultimate? = some e) :
    e.pair.hasDelaySlot = false := by
  have hlength := h.length_eq
  rw [hslot, Bool.toNat_false] at hlength
  obtain ⟨i, hi, he⟩ := penultimate?_eq_some_iff.mp he
  exact (h.plain_of_lt (by omega) he).1

theorem last_eq (h : ScannedAs m offset room passed s) (hslot : s.ending.hasSlot = false) :
    s.last = entryAt m (offset + Pair.size * passed) := by
  have hlength := h.length_eq
  rw [hslot, Bool.toNat_false] at hlength
  have hlast := s.last_eq_some
  rw [hlength, Nat.add_zero, Nat.add_sub_cancel, h.getElem?_of_le (Nat.le_refl _)] at hlast
  exact (Option.some.inj hlast).symm

theorem hasSlot_iff (h : ScannedAs m offset room passed s) : s.ending.hasSlot = true ↔
    ∃ e, s.penultimate? = some e ∧ e.pair.hasDelaySlot = true := by
  refine ⟨fun hslot => ⟨_, h.penultimate?_eq hslot, h.endsWith.hasSlot_eq ▸ hslot⟩, ?_⟩
  rintro ⟨e, he, hdelay⟩
  refine Bool.of_not_eq_false fun hslot => ?_
  rw [h.plain_penultimate hslot he] at hdelay
  cases hdelay

theorem programEnd_iff (h : ScannedAs m offset room passed s) : s.ending = .programEnd ↔
    ∃ e, s.penultimate? = some e ∧ e.pair.eBit = true := by
  constructor
  · intro hending
    exact ⟨_, h.penultimate?_eq (hending ▸ rfl), h.endsWith.programEnd_iff.mp hending⟩
  · rintro ⟨e, he, heBit⟩
    have hslot := h.hasSlot_iff.mpr ⟨e, he, by rw [Pair.hasDelaySlot, heBit, Bool.true_or]⟩
    obtain rfl := Option.some.inj (he.symm.trans (h.penultimate?_eq hslot))
    exact h.endsWith.programEnd_iff.mpr heBit

/-- Without a delay slot, the end of memory is behind the pair at which a scan closes. -/
theorem memoryEnd_iff (h : ScannedAs m offset room passed s) (hslot : s.ending.hasSlot = false)
    (hhalts : s.last.pair.halts = false) :
    s.ending = .memoryEnd ↔ s.last.offset + Pair.size = m.size := by
  rw [h.last_eq hslot] at hhalts ⊢
  rw [h.endsWith.memoryEnd_iff hslot hhalts, Nat.mul_succ, ← Nat.add_assoc]
  exact ⟨Nat.le_antisymm h.closer.end_le, fun heq => Nat.le_of_eq heq.symm⟩

/-- A scan finds the sequence to the block boundary. -/
theorem delimits (h : ScannedAs m offset room passed s) : s.Delimits m offset (room + 1) where
  memLength_eq := h.memLength_eq
  entry := h.entry
  wraps := h.wraps
  passes := h.passes_or
  hasSlot_iff := h.hasSlot_iff
  programEnd_iff := h.programEnd_iff
  last_plain hslot := by
    rw [h.last_eq hslot]
    exact h.endsWith.hasSlot_eq ▸ hslot
  halt_iff hslot := by
    rw [h.last_eq hslot]
    exact h.endsWith.halt_iff hslot
  memoryEnd_iff := h.memoryEnd_iff
  length_eq hending := by
    have hends := h.endsWith
    rw [hending] at hends
    rw [h.length_eq, hending, hends.passed_eq]
    rfl
  length_le := by
    have hroom := h.le_room
    have hslot := Bool.toNat_le s.ending.hasSlot
    rw [h.length_eq]
    omega
  hasSlot_of_length hlength := by
    have hroom := h.le_room
    rw [h.length_eq] at hlength
    refine Bool.of_not_eq_false fun hslot => ?_
    rw [hslot, Bool.toNat_false] at hlength
    omega

end ScannedAs

/-- **Block boundary.** What a scan finds is the one sequence that reaches to the block
boundary. -/
theorem delimits_iff_eq (h : m.HasPair offset) {maxLength : Nat}
    (hs : ofMemory? m offset maxLength = some s) {t : Sequence} :
    t.Delimits m offset (max maxLength 1) ↔ t = s := by
  obtain ⟨s', passed, hs', hscanned⟩ := exists_scannedAs h maxLength
  obtain rfl := Option.some.inj (hs.symm.trans hs')
  have hlimit : maxLength - 1 + 1 = max maxLength 1 := by omega
  have hdelimits := hlimit ▸ hscanned.delimits
  exact ⟨fun ht => ht.eq hdelimits, fun heq => heq ▸ hdelimits⟩

/-! ### The ranges up to the block boundary -/

theorem Range.consJoin_consJoin (a b c : Nat) (rs : List VectorUnit.Range) :
    Range.consJoin ⟨a, b⟩ (Range.consJoin ⟨b, c⟩ rs) = Range.consJoin ⟨a, c⟩ rs := by
  cases rs with
  | nil => exact if_pos rfl
  | cons r rest =>
    by_cases h : c = r.start
    · simp only [consJoin, if_pos h, ↓reduceIte]
    · simp only [consJoin, if_neg h, ↓reduceIte]

/-- Pairs one behind the other have one range. -/
theorem rangesOf_straight_append (m : Memory) (offset count : Nat) (es : List Entry) :
    rangesOf (straight m offset (count + 1) ++ es) =
      Range.consJoin ⟨offset, offset + Pair.size * (count + 1)⟩ (rangesOf es) := by
  induction count generalizing offset with
  | zero => rfl
  | succ count ih =>
    rw [straight_succ, List.cons_append]
    refine (congrArg (Range.consJoin ⟨offset, offset + Pair.size⟩) (ih _)).trans ?_
    rw [Range.consJoin_consJoin, Nat.mul_succ _ (count + 1)]
    congr 2
    omega

/-- The ranges of a scanned sequence: one up to its end, or one up to the end of memory and one for
the delay slot behind it. -/
theorem ScannedAs.ranges_eq (h : ScannedAs m offset room passed s) :
    (offset + Pair.size * (s.length - 1) < m.size ∧
        s.ranges = [⟨offset, offset + Pair.size * s.length⟩]) ∨
      (offset + Pair.size * (s.length - 1) = m.size ∧ s.ending.hasSlot = true ∧
        s.ranges = [⟨offset, m.size⟩, ⟨0, Pair.size⟩]) := by
  have hranges : s.ranges = Range.consJoin ⟨offset, offset + Pair.size * (passed + 1)⟩
      (rangesOf (slotEntries m (offset + Pair.size * passed) s.ending)) := by
    rw [← rangesOf_straight_append m, h.toClosesAfter.entries_eq, ← h.entries_eq]
    rfl
  rw [h.length_eq, hranges]
  cases hslot : s.ending.hasSlot with
  | false =>
    rw [slotEntries, hslot]
    exact .inl ⟨h.lt_size, rfl⟩
  | true =>
    have hsucc : offset + Pair.size * passed + Pair.size = offset + Pair.size * (passed + 1) := by
      rw [Nat.mul_succ, Nat.add_assoc]
    rw [slotEntries, hslot, if_pos rfl, hsucc]
    rcases Nat.lt_or_eq_of_le h.closer.end_le with hlt | heq
    · -- the delay slot stands behind the others
      rw [hsucc] at hlt
      refine .inl ⟨hlt, ?_⟩
      rw [Nat.mod_eq_of_lt hlt]
      exact if_pos rfl
    · -- the delay slot stands at the other end of memory
      rw [hsucc] at heq
      refine .inr ⟨heq, rfl, ?_⟩
      rw [heq, Nat.mod_self]
      exact if_neg (Nat.ne_of_gt (Nat.zero_lt_of_lt h.lt_size))

/-- The offsets of some pairs one behind the other. -/
theorem pairOffsets_eq (offset count : Nat) :
    Range.pairOffsets ⟨offset, offset + Pair.size * count⟩ =
      (List.range count).map fun i => offset + Pair.size * i := by
  rw [Range.pairOffsets, Nat.add_sub_cancel_left, Nat.mul_div_cancel_left _ (by decide)]

/-- The ranges of a sequence that starts at an offset list its pairs: a range without the end of
memory in it, and one for a delay slot at the other end of memory. -/
structure Spans (m : Memory) (start : Nat) (s : Sequence) : Prop where
  length_le : s.ranges.length = 1 ∨ s.ranges.length = 2
  length_iff : s.ranges.length = 2 ↔ m.size ≤ start + Pair.size * (s.length - 1)
  inside : ∀ r ∈ s.ranges, r.start < r.stop ∧ r.stop ≤ m.size
  aligned : ∀ r ∈ s.ranges, Pair.size ∣ r.start ∧ Pair.size ∣ r.stop
  flatMap_pairOffsets : s.ranges.flatMap Range.pairOffsets = s.entries.map Entry.offset

theorem ScannedAs.offsets_eq (h : ScannedAs m offset room passed s) :
    s.entries.map Entry.offset =
      (List.range s.length).map fun i => (offset + Pair.size * i) % m.size := by
  rw [h.length_eq, h.entries_eq, around, List.map_map]
  rfl

/-- In front of the last pair the end of memory is out of reach. -/
theorem ScannedAs.mod_size_eq (h : ScannedAs m offset room passed s) {i : Nat}
    (hi : i + 1 < s.length) : (offset + Pair.size * i) % m.size = offset + Pair.size * i := by
  have hslot := Bool.toNat_le s.ending.hasSlot
  have hlength := h.length_eq
  exact Nat.mod_eq_of_lt (h.lt_size_of_le (by omega))

theorem ScannedAs.spans (h : ScannedAs m offset room passed s) : s.Spans m offset := by
  obtain ⟨count, hcount⟩ := Nat.exists_eq_add_of_lt s.length_pos
  rw [Nat.zero_add] at hcount
  have hoffsets := h.offsets_eq
  have hplain : ∀ i < count, (offset + Pair.size * i) % m.size = offset + Pair.size * i :=
    fun i hi => h.mod_size_eq (hcount ▸ Nat.succ_lt_succ hi)
  have hranges := h.ranges_eq
  rw [hcount, Nat.add_sub_cancel] at hranges
  rw [hcount] at hoffsets
  have haligned : ∀ n, Pair.size ∣ offset + Pair.size * n := fun n =>
    Nat.dvd_add h.hasPair.aligned (Nat.dvd_mul_right _ _)
  rcases hranges with ⟨hlt, hranges⟩ | ⟨heq, -, hranges⟩
  · -- the last pair lies in memory behind the others, and there is one range
    have hpair : m.HasPair (offset + Pair.size * count) := ⟨h.hasPair.whole, haligned _, hlt⟩
    have hend := hpair.end_le
    rw [Nat.add_assoc, ← Nat.mul_succ] at hend
    constructor <;> rw [hranges]
    · exact .inl rfl
    · rw [hcount, Nat.add_sub_cancel]
      exact iff_of_false (by simp) (Nat.not_le_of_lt hlt)
    · exact List.forall_mem_singleton.mpr ⟨Nat.lt_add_of_pos_right (by simp [Pair.size]), hend⟩
    · exact List.forall_mem_singleton.mpr ⟨h.hasPair.aligned, haligned _⟩
    · rw [List.flatMap_singleton, pairOffsets_eq, hoffsets]
      refine List.map_congr_left fun i hi => ?_
      rcases Nat.lt_or_eq_of_le (Nat.le_of_lt_succ (List.mem_range.mp hi)) with hi | rfl
      · rw [hplain i hi]
      · rw [Nat.mod_eq_of_lt hlt]
  · -- the last pair is the delay slot at offset 0, a range of its own
    have hsize := h.hasPair.inside
    constructor <;> rw [hranges]
    · exact .inr rfl
    · rw [hcount, Nat.add_sub_cancel]
      exact iff_of_true rfl (Nat.le_of_eq heq.symm)
    · have hpositive := Nat.le_of_dvd (Nat.zero_lt_of_lt hsize) h.hasPair.whole
      exact List.forall_mem_cons.mpr ⟨⟨hsize, Nat.le_refl _⟩,
        List.forall_mem_singleton.mpr ⟨by decide, hpositive⟩⟩
    · exact List.forall_mem_cons.mpr ⟨⟨h.hasPair.aligned, h.hasPair.whole⟩,
        List.forall_mem_singleton.mpr ⟨Nat.dvd_zero _, Nat.dvd_refl _⟩⟩
    · have hfirst : Range.pairOffsets ⟨offset, m.size⟩ =
          (List.range count).map fun i => (offset + Pair.size * i) % m.size := by
        rw [List.map_congr_left fun i hi => hplain i (List.mem_range.mp hi), ← pairOffsets_eq, heq]
      calc [⟨offset, m.size⟩, ⟨0, Pair.size⟩].flatMap Range.pairOffsets
          = ((List.range count).map fun i => (offset + Pair.size * i) % m.size) ++ [0] := by
            rw [List.flatMap_cons, hfirst, List.flatMap_singleton]
            rfl
        _ = (List.range (count + 1)).map fun i => (offset + Pair.size * i) % m.size := by
            rw [List.range_succ, List.map_append, List.map_singleton, heq, Nat.mod_self]
        _ = s.entries.map Entry.offset := hoffsets.symm

/-! ### Scans find the block boundary -/

/-- **Scans end at the block boundary.** A scan from a pair of a memory finds the one sequence that
reaches to the block boundary, whose ranges are those of its pairs. A branch is found in it only in
front of a delay slot. -/
theorem exists_ofMemory?_delimits {m : Memory} {start : Nat} (hwhole : Pair.size ∣ m.size)
    (haligned : Pair.size ∣ start) (hinside : start < m.size) (maxLength : Nat) :
    ∃ s, ofMemory? m start maxLength = some s ∧
      (∀ t : Sequence, t.Delimits m start (max maxLength 1) ↔ t = s) ∧ s.Spans m start ∧
      (s.branch?.isSome = true → s.ending = .branch ∨ s.ending = .programEnd) := by
  have h : m.HasPair start := ⟨hwhole, haligned, hinside⟩
  obtain ⟨s, passed, hs, hscanned⟩ := exists_scannedAs h maxLength
  refine ⟨s, hs, fun t => delimits_iff_eq h hs, hscanned.spans, fun hbranch => ?_⟩
  obtain ⟨e, he⟩ := Option.isSome_iff_exists.mp hbranch
  rw [branch?_eq, Option.filter_eq_some_iff] at he
  have hslot := hscanned.hasSlot_iff.mpr
    ⟨e, he.1, by rw [Pair.hasDelaySlot, he.2, Bool.or_true]⟩
  cases hending : s.ending with
  | branch => exact .inl rfl
  | programEnd => exact .inr rfl
  | halt | memoryEnd | fullLength => rw [hending] at hslot; cases hslot

/-- A memory of two pairs, of which the first one adds to a register and the last one jumps. -/
def addAndJump (summand : Int8) : Memory :=
  .ofList (Pair.image
    [.ofLower (Statement.word (.iaddi 1 1 summand)), .ofLower (Statement.word (.jalr 1 1))] 16)

/-- A jump in the last pair of a memory takes along the first pair, even where no pair is wanted. -/
theorem exists_ofMemory?_delimits_of_jalr :
    ∃ s, ofMemory? (addAndJump 1) 8 0 = some s ∧
      (∀ t : Sequence, t.Delimits (addAndJump 1) 8 (max 0 1) ↔ t = s) ∧ s.Spans (addAndJump 1) 8 ∧
      (s.branch?.isSome = true → s.ending = .branch ∨ s.ending = .programEnd) :=
  exists_ofMemory?_delimits (by decide) (by decide) (by decide) 0

end Sequence

end VectorUnit
