import VectorUnit.Cache.Program
import VectorUnit.Proofs.BlockExecution

/-!
# Versions of microcode that a program recognizes

A program recognizes a memory when it matches it without looking at a digest
(`Program.Recognizes`). The bytes that it remembers are all that matters: a block that is compiled
from one memory and stored in a program is the block of every memory that the program recognizes
from then on (`Program.ofMemory?_of_recognizes`), also when nothing but excerpts are compared.

A program is faithful when that holds of all its blocks (`Program.Faithful`). New programs are, and
adding a block keeps a program faithful as long as it admits the memory from which the block was
compiled (`Program.Faithful.addBlock`): a program that compares excerpts admits every memory, for it
remembers what it is given, and one that compares whole images admits its own image only
(`Program.Admits`).
-/

namespace VectorUnit

/-! ### Ranges -/

namespace Range

/-- Two memories hold the same bytes in a range. What they hold elsewhere, and how long they are,
does not matter here. -/
def Agrees (r : Range) (m m' : Memory) : Prop :=
  ∀ i, r.start ≤ i → i < r.stop → m'.byte i = m.byte i

/-- A range lies in a memory of `memLength` bytes, and does not stop before it starts. Ranges of
sequences do, also of those that go around the end of memory. -/
structure Within (r : Range) (memLength : Nat) : Prop where
  start_le : r.start ≤ r.stop
  stop_le : r.stop ≤ memLength

/-- A range holds all bytes of another one. Joining ranges that touch loses nothing in this sense.
-/
structure Includes (r s : Range) : Prop where
  start_le : r.start ≤ s.start
  le_stop : s.stop ≤ r.stop

theorem Includes.refl (r : Range) : r.Includes r :=
  ⟨Nat.le_refl _, Nat.le_refl _⟩

theorem Agrees.of_includes {r s : Range} {m m' : Memory} (h : r.Agrees m m')
    (hincludes : r.Includes s) : s.Agrees m m' := fun i hstart hstop =>
  h i (Nat.le_trans hincludes.start_le hstart) (Nat.lt_of_lt_of_le hstop hincludes.le_stop)

end Range

namespace Sequence.Range

variable {r s : Range} {rs : List Range} {memLength : Nat}

theorem within_consJoin (hr : r.Within memLength) (hrs : ∀ s ∈ rs, s.Within memLength)
    (h : s ∈ consJoin r rs) : s.Within memLength := by
  cases rs with
  | nil =>
    obtain rfl := List.mem_singleton.mp h
    exact hr
  | cons t rest =>
    rw [consJoin] at h
    have ht := hrs t List.mem_cons_self
    split at h
    · case isTrue htouch =>
      rcases List.mem_cons.mp h with rfl | h
      · exact ⟨Nat.le_trans hr.start_le (htouch ▸ ht.start_le), ht.stop_le⟩
      · exact hrs s (List.mem_cons_of_mem _ h)
    · rcases List.mem_cons.mp h with rfl | h
      · exact hr
      · exact hrs s h

/-- Joining loses no bytes. -/
theorem exists_includes_consJoin (hr : r.start ≤ r.stop) (hrs : ∀ s ∈ rs, s.start ≤ s.stop)
    (h : s ∈ r :: rs) : ∃ t ∈ consJoin r rs, t.Includes s := by
  cases rs with
  | nil => exact ⟨s, h, .refl s⟩
  | cons t rest =>
    rw [consJoin]
    split
    · case isTrue htouch =>
      -- ranges that touch become one, which includes both
      have ht := hrs t List.mem_cons_self
      rcases List.mem_cons.mp h with rfl | h
      · exact ⟨_, List.mem_cons_self, Nat.le_refl _, htouch ▸ ht⟩
      · rcases List.mem_cons.mp h with rfl | h
        · exact ⟨_, List.mem_cons_self, htouch ▸ hr, Nat.le_refl _⟩
        · exact ⟨s, List.mem_cons_of_mem _ h, .refl s⟩
    · exact ⟨s, h, .refl s⟩

end Sequence.Range

namespace Sequence

/-- The ranges of some entries, each reaching to the end of its pair. -/
def rangesOf (es : List Entry) : List Range :=
  es.foldr (fun e rs => Range.consJoin ⟨e.offset, e.offset + Pair.size⟩ rs) []

theorem within_rangesOf {memLength : Nat} {es : List Entry}
    (hes : ∀ e ∈ es, e.offset + Pair.size ≤ memLength) :
    ∀ r ∈ rangesOf es, r.Within memLength := by
  induction es with
  | nil => exact fun r hr => by cases hr
  | cons e rest ih =>
    intro r hr
    refine Range.within_consJoin ⟨Nat.le_add_right _ _, hes e List.mem_cons_self⟩ ?_ hr
    exact ih fun e he => hes e (List.mem_cons_of_mem _ he)

theorem exists_includes_rangesOf {memLength : Nat} {es : List Entry}
    (hes : ∀ e ∈ es, e.offset + Pair.size ≤ memLength) {e : Entry} (he : e ∈ es) :
    ∃ r ∈ rangesOf es, r.Includes ⟨e.offset, e.offset + Pair.size⟩ := by
  induction es with
  | nil => cases he
  | cons f rest ih =>
    have hrest : ∀ e ∈ rest, e.offset + Pair.size ≤ memLength := fun e he =>
      hes e (List.mem_cons_of_mem _ he)
    have hjoin := fun {s} => Range.exists_includes_consJoin (s := s)
      (r := ⟨f.offset, f.offset + Pair.size⟩) (Nat.le_add_right _ _)
      fun r hr => (within_rangesOf hrest r hr).start_le
    rcases List.mem_cons.mp he with rfl | he
    · exact hjoin List.mem_cons_self
    · obtain ⟨r, hr, hincludes⟩ := ih hrest he
      obtain ⟨t, ht, hlarger⟩ := hjoin (List.mem_cons_of_mem _ hr)
      exact ⟨t, ht, Nat.le_trans hlarger.start_le hincludes.start_le,
        Nat.le_trans hincludes.le_stop hlarger.le_stop⟩

variable {m : Memory} {offset maxLength : Nat} {s : Sequence}

theorem entry_end_le (h : m.HasPair offset) (hs : ofMemory? m offset maxLength = some s) :
    ∀ e ∈ s.entries, e.offset + Pair.size ≤ m.size := fun _ he =>
  (((ofMemory?_eq_some_iff h).mp hs).2.entry_eq h he).1.end_le

/-- The ranges of a sequence lie in the memory in which it was found. -/
theorem within_ranges (h : m.HasPair offset) (hs : ofMemory? m offset maxLength = some s) :
    ∀ r ∈ s.ranges, r.Within m.size :=
  within_rangesOf (entry_end_le h hs)

/-- The ranges of a sequence cover all its pairs. -/
theorem exists_includes_ranges (h : m.HasPair offset)
    (hs : ofMemory? m offset maxLength = some s) {e : Entry} (he : e ∈ s.entries) :
    ∃ r ∈ s.ranges, r.Includes ⟨e.offset, e.offset + Pair.size⟩ :=
  exists_includes_rangesOf (entry_end_le h hs) he

end Sequence

namespace Memory

/-- Memories with the same eight bytes have the same pair there. -/
theorem pair_eq_of_agrees {m m' : Memory} {offset : Nat}
    (h : Range.Agrees ⟨offset, offset + Pair.size⟩ m m') : m'.pair offset = m.pair offset := by
  have hbyte : ∀ i, i < Pair.size → m'.byte (offset + i) = m.byte (offset + i) := fun i hi =>
    h _ (Nat.le_add_right _ _) (Nat.add_lt_add_left hi _)
  simp only [Memory.pair, Pair.ofBytes, Pair.size] at hbyte ⊢
  rw [hbyte 0 (by decide), hbyte 1 (by decide), hbyte 2 (by decide), hbyte 3 (by decide),
    hbyte 4 (by decide), hbyte 5 (by decide), hbyte 6 (by decide), hbyte 7 (by decide)]

theorem size_slice (m : Memory) {r : Range} (h : r.Within m.size) :
    (m.slice r.start r.stop).size = r.stop - r.start := by
  have hstop : r.stop ≤ m.bytes.size := h.stop_le
  rw [slice, Array.size_extract, Nat.min_eq_left hstop]

theorem getElem_slice (m : Memory) {start stop i : Nat} (h : i < (m.slice start stop).size) :
    (m.slice start stop)[i] = m.byte (start + i) := by
  have hlt : start + i < m.bytes.size := by
    rw [slice, Array.size_extract] at h
    omega
  rw [byte, Array.getD_eq_getD_getElem?, Array.getElem?_eq_getElem hlt, Option.getD_some]
  exact Array.getElem_extract h

theorem holds_iff {m : Memory} {start : Nat} {bytes : Array UInt8} :
    m.holds start bytes = true ↔ start + bytes.size ≤ m.size ∧
      ∀ i (h : i < bytes.size), m.byte (start + i) = bytes[i] := by
  rw [holds, Bool.and_eq_true, decide_eq_true_iff, Nat.all_eq_finRange_all, List.all_eq_true]
  refine and_congr_right fun _ => ⟨fun h i hi => ?_, fun h i _ => ?_⟩
  · exact eq_of_beq (h ⟨i, hi⟩ (List.mem_finRange _))
  · exact beq_iff_eq.mpr (h i.val i.isLt)

/-- A memory holds a slice of another one exactly when they agree there. -/
theorem holds_slice_iff {m m' : Memory} {r : Range} (h : r.Within m.size)
    (hsize : m'.size = m.size) :
    m'.holds r.start (m.slice r.start r.stop) = true ↔ r.Agrees m m' := by
  have hlength := m.size_slice h
  have hstart := h.start_le
  have hstop := h.stop_le
  rw [holds_iff]
  constructor
  · rintro ⟨-, hbytes⟩ i hi hlt
    obtain ⟨k, rfl⟩ := Nat.exists_eq_add_of_le hi
    have hk : k < (m.slice r.start r.stop).size := by omega
    rw [hbytes k hk, m.getElem_slice hk]
  · intro hagrees
    refine ⟨by omega, fun i hi => ?_⟩
    rw [m.getElem_slice hi]
    exact hagrees _ (Nat.le_add_right _ _) (by omega)

end Memory

/-- A sequence depends on nothing but the bytes of its ranges. -/
theorem Sequence.ofMemory?_of_agrees {m m' : Memory} {offset maxLength : Nat} {s : Sequence}
    (h : m.HasPair offset) (hs : ofMemory? m offset maxLength = some s) (hsize : m'.size = m.size)
    (hagrees : ∀ r ∈ s.ranges, r.Agrees m m') : ofMemory? m' offset maxLength = some s := by
  refine ofMemory?_congr h hs hsize fun e he => ?_
  obtain ⟨r, hr, hincludes⟩ := exists_includes_ranges h hs he
  exact Memory.pair_eq_of_agrees ((hagrees r hr).of_includes hincludes)

namespace Program

/-! ### Recognizing memories -/

/-- A program matches a memory, whatever the digest of the memory. Without a digest all bytes that
the program remembers are compared, so nothing is taken on trust. -/
def Recognizes (p : Program) (m : Memory) : Prop :=
  p.matchesMemory m none = true

/-- What matches a memory with a digest matches it without. -/
theorem recognizes_of_matchesMemory {p : Program} {m : Memory} {digest? : Option UInt64}
    (h : p.matchesMemory m digest? = true) : p.Recognizes m := by
  rw [Recognizes, matchesMemory]
  rw [matchesMemory] at h
  split
  · case h_1 hbasis => rwa [hbasis] at h
  · case h_2 image digest hbasis =>
    rw [hbasis] at h
    exact (Bool.and_eq_true _ _ ▸ h).2

/-- A new program that compares excerpts recognizes every memory. -/
theorem recognizes_create_excerpts (serial : Nat) (m : Memory) :
    (create serial .excerpts).Recognizes m := rfl

/-- A new program that compares whole images recognizes its image. -/
theorem recognizes_create_image (serial : Nat) (m : Memory) (digest : UInt64) :
    (create serial (.image m digest)).Recognizes m :=
  beq_self_eq_true m

section AddBlock

variable {p : Program} {m m' : Memory} {offset maxLength : Nat} {s : Sequence}

theorem recognizes_addBlock_iff {id : BlockNumber} {rs : List Range} :
    (p.addBlock offset id rs m).Recognizes m' ↔ p.Recognizes m' ∧
      (p.basis = .excerpts → ∀ r ∈ rs, (Excerpt.ofMemory m r).matchesMemory m' = true) := by
  simp only [Recognizes, matchesMemory, addBlock]
  cases p.basis with
  | excerpts =>
    simp only [List.all_append, Bool.and_eq_true, List.all_map, List.all_eq_true,
      Function.comp_apply, forall_const]
  | image image digest => simp only [reduceCtorEq, false_implies, and_true]

/-- A program may be given blocks of a memory: it remembers their bytes, or it is known to recognize
the memory. -/
def Admits (p : Program) (m : Memory) : Prop :=
  p.basis = .excerpts ∨ p.Recognizes m

/-- **Soundness of matching.** A program that admits a memory, and recognizes another one when it
has a block of the first, stores the right block for both. -/
theorem ofMemory?_of_recognizes (h : m.HasPair offset)
    (hs : Sequence.ofMemory? m offset maxLength = some s) (hsize : m'.size = m.size)
    (hm : p.Admits m) {id : BlockNumber}
    (hm' : (p.addBlock offset id s.ranges m).Recognizes m') :
    Sequence.ofMemory? m' offset maxLength = some s := by
  obtain ⟨hp, hranges⟩ := recognizes_addBlock_iff.mp hm'
  cases hbasis : p.basis with
  | excerpts =>
    -- the excerpts were taken from the first memory and cover all pairs of the block
    refine Sequence.ofMemory?_of_agrees h hs hsize fun r hr => ?_
    have hwithin := Sequence.within_ranges h hs r hr
    exact (Memory.holds_slice_iff hwithin hsize).mp (hranges hbasis r hr)
  | image image digest =>
    -- both memories are the image that the program remembers
    have himage : ∀ n, p.Recognizes n → image = n := fun n hn => by
      rw [Recognizes, matchesMemory, hbasis] at hn
      exact eq_of_beq hn
    rcases hm with hexcerpts | hm
    · rw [hexcerpts] at hbasis
      cases hbasis
    · rw [← himage m' hp, himage m hm]
      exact hs

/-- The memory from which a block is compiled is still recognized with the block. -/
theorem Recognizes.addBlock (h : m.HasPair offset)
    (hs : Sequence.ofMemory? m offset maxLength = some s) (hm : p.Recognizes m)
    (id : BlockNumber) : (p.addBlock offset id s.ranges m).Recognizes m := by
  refine recognizes_addBlock_iff.mpr ⟨hm, fun _ r hr => ?_⟩
  exact (Memory.holds_slice_iff (Sequence.within_ranges h hs r hr) rfl).mpr fun _ _ _ => rfl

end AddBlock

/-! ### Faithful programs -/

/-- The blocks of a program are those of every memory of `memLength` bytes that it recognizes. So it
may serve as it stands for any such memory, and not just for the one that it was created from. -/
def Faithful (p : Program) (blocks : Array Block) (memLength maxLength : Nat) : Prop :=
  ∀ offset id, p.block? offset = some id → ∃ b, blocks[id.value]? = some b ∧
    ∀ m : Memory, m.size = memLength → p.Recognizes m →
      ∃ s, Sequence.ofMemory? m offset maxLength = some s ∧ b.Renders s

variable {p : Program} {blocks : Array Block} {memLength maxLength : Nat}

theorem faithful_create (serial : Nat) (basis : Basis) :
    (create serial basis).Faithful blocks memLength maxLength := by
  intro offset id h
  rw [create, block?, Std.TreeMap.getElem?_emptyc] at h
  cases h

/-- Blocks that are stored behind the others change nothing. -/
theorem Faithful.push (h : p.Faithful blocks memLength maxLength) (b : Block) :
    p.Faithful (blocks.push b) memLength maxLength := by
  intro offset id hid
  obtain ⟨b', hb', hcode⟩ := h offset id hid
  refine ⟨b', ?_, hcode⟩
  have hlt := (Array.getElem?_eq_some_iff.mp hb').1
  rw [Array.getElem?_push, if_neg (Nat.ne_of_lt hlt), hb']

/-- A program stays faithful when it is given a block compiled from a memory that it admits. -/
theorem Faithful.addBlock (h : p.Faithful blocks memLength maxLength) {m : Memory} {offset : Nat}
    {s : Sequence} {b : Block} (hpair : m.HasPair offset)
    (hs : Sequence.ofMemory? m offset maxLength = some s) (hb : b.Renders s)
    (hsize : m.size = memLength) (hm : p.Admits m) :
    (p.addBlock offset ⟨blocks.size⟩ s.ranges m).Faithful (blocks.push b) memLength maxLength := by
  intro offset' id hid
  have hid' : (p.blocks.insert offset ⟨blocks.size⟩)[offset']? = some id := hid
  rw [Std.TreeMap.getElem?_insert] at hid'
  split at hid'
  · case isTrue heq =>
    -- the block that was added
    obtain rfl := Std.LawfulEqCmp.eq_of_compare heq
    obtain rfl := Option.some.inj hid'
    refine ⟨b, Array.getElem?_push_size, fun m' hsize' hm' => ⟨s, ?_, hb⟩⟩
    exact ofMemory?_of_recognizes hpair hs (hsize'.trans hsize.symm) hm hm'
  · -- a block from before: the program recognizes no more memories than it did then
    obtain ⟨b', hb', hall⟩ := h.push b offset' id hid'
    exact ⟨b', hb', fun m' hsize' hm' => hall m' hsize' (recognizes_addBlock_iff.mp hm').1⟩

end Program

end VectorUnit
