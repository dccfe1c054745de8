import Mathlib.Order.Bounds.Basic
import VectorUnit.Arena

/-!
# What stands in an arena

An arena hands out the least aligned offset that is not below its cursor, as long as the data fits
behind it (`Arena.isLeast_nextOffset`, `Arena.place_eq`). An `Arena.Journal` is an arena with a list
of what was placed in it since it was last rewound. Whatever is asked of the arena, the spans on the
list lie behind each other below the cursor, and each holds the data that was placed in it until a
byte of it is written over from outside (`Arena.Journal.Kept`).

A request that is refused changes nothing, and is refused again until the arena is rewound, for only
that takes the cursor back (`Arena.Journal.cursor_le_run`).
-/

namespace VectorUnit

namespace Arena

/-! ### Where data is placed -/

/-- Powers of two are rounded up to as they should be. -/
theorem isLeast_nextPower (n : Nat) : IsLeast {p | p.isPowerOfTwo ∧ n ≤ p} (nextPower n) := by
  rw [nextPower, Nat.one_shiftLeft]
  split
  · case isTrue hle =>
    refine ⟨⟨Nat.isPowerOfTwo_one, hle⟩, ?_⟩
    rintro p ⟨hp, -⟩
    exact Nat.pos_of_isPowerOfTwo hp
  · case isFalse hgt =>
    have hpos : n - 1 ≠ 0 := by omega
    refine ⟨⟨⟨_, rfl⟩, ?_⟩, ?_⟩
    · have hlt : n - 1 < 2 ^ ((n - 1).log2 + 1) := Nat.lt_log2_self
      omega
    · rintro p ⟨⟨k, rfl⟩, hle⟩
      -- the exponent of `p` is greater than the logarithm of `n - 1`
      have hlog : (n - 1).log2 < k := (Nat.log2_lt hpos).mpr (by omega)
      exact Nat.pow_le_pow_right (by decide) hlog

theorem nextPower_pos (n : Nat) : 0 < nextPower n :=
  Nat.pos_of_isPowerOfTwo (isLeast_nextPower n).1.1

/-- What is at most a power of two is rounded up to at most that power. -/
theorem nextPower_le {n p : Nat} (hp : p.isPowerOfTwo) (h : n ≤ p) : nextPower n ≤ p :=
  (isLeast_nextPower n).2 ⟨hp, h⟩

theorem isLeast_roundUp {a : Nat} (ha : 0 < a) (n : Nat) :
    IsLeast {m | a ∣ m ∧ n ≤ m} (roundUp a n) := by
  rw [roundUp]
  constructor
  · refine ⟨Nat.dvd_mul_left _ _, ?_⟩
    have hdiv := Nat.div_add_mod (n + (a - 1)) a
    have hmod := Nat.mod_lt (n + (a - 1)) ha
    rw [Nat.mul_comm] at hdiv
    omega
  · rintro m ⟨⟨k, rfl⟩, hle⟩
    rw [Nat.mul_comm a k]
    refine Nat.mul_le_mul_right a ?_
    have hlt : n + (a - 1) < a * (k + 1) := by
      rw [Nat.mul_succ]
      omega
    exact Nat.le_of_lt_succ (Nat.div_lt_of_lt_mul hlt)

variable {r r' : Arena} {alignment : Nat} {data : List UInt8} {span : Span}

/-- Data is placed at the least aligned offset that is not below the cursor. -/
theorem isLeast_nextOffset (r : Arena) (alignment : Nat) :
    IsLeast {m | nextPower (max alignment 1) ∣ m ∧ r.cursor ≤ m} (r.nextOffset alignment) :=
  isLeast_roundUp (nextPower_pos _) _

theorem cursor_le_nextOffset (r : Arena) (alignment : Nat) : r.cursor ≤ r.nextOffset alignment :=
  (isLeast_nextOffset r alignment).1.2

/-- The further on the cursor, the further on data is placed. -/
theorem nextOffset_mono (h : r.cursor ≤ r'.cursor) (alignment : Nat) :
    r.nextOffset alignment ≤ r'.nextOffset alignment := by
  have hleast := (isLeast_nextOffset r' alignment).1
  exact (isLeast_nextOffset r alignment).2 ⟨hleast.1, Nat.le_trans h hleast.2⟩

theorem isPowerOfTwo_maxAlignment : maxAlignment.isPowerOfTwo :=
  ⟨63, rfl⟩

/-- Neither an alignment nor an offset outgrows a machine word. -/
theorem nextOffset_le (halignment : alignment ≤ maxAlignment) (hcursor : r.cursor ≤ maxAlignment) :
    nextPower (max alignment 1) ≤ maxAlignment ∧ r.nextOffset alignment ≤ maxAlignment := by
  have hpower : nextPower (max alignment 1) ≤ maxAlignment :=
    nextPower_le isPowerOfTwo_maxAlignment (Nat.max_le.mpr ⟨halignment, by decide⟩)
  refine ⟨hpower, (isLeast_nextOffset r alignment).2 ⟨?_, hcursor⟩⟩
  -- the lesser of two powers of two divides the greater one
  obtain ⟨k, hk⟩ := (isLeast_nextPower (max alignment 1)).1.1
  rw [hk] at hpower ⊢
  rw [show maxAlignment = 2 ^ 63 from rfl] at hpower ⊢
  exact Nat.pow_dvd_pow 2 ((Nat.pow_le_pow_iff_right (by decide)).mp hpower)

/-! ### Reading what was placed -/

/-- Writing over bytes changes nothing else. -/
theorem overwrite?_eq_some {offset : Nat} (h : r.overwrite? offset data = some r') :
    r' = { r with bytes := r.bytes.write offset data } := by
  rw [overwrite?] at h
  split at h
  · exact (Option.some.inj h).symm
  · cases h

namespace Bytes

/-- What was written is read. -/
theorem read_write (b : Bytes) (offset : Nat) (data : List UInt8) :
    (b.write offset data).read offset data.length = data := by
  refine List.ext_getElem (by simp [read]) fun i hi hi' => ?_
  have hwritten : offset ≤ offset + i ∧ offset + i < offset + data.length :=
    ⟨Nat.le_add_right _ _, Nat.add_lt_add_left hi' _⟩
  simp only [read, List.getElem_map, List.getElem_range]
  rw [byte_write, if_pos hwritten, Nat.add_sub_cancel_left, List.getD_eq_getElem?_getD,
    List.getElem?_eq_getElem hi', Option.getD_some]

/-- Bytes in front of those that are written, and behind them, stay. -/
theorem read_write_of_disjoint (b : Bytes) {offset start count : Nat} {data : List UInt8}
    (h : start + count ≤ offset ∨ offset + data.length ≤ start) :
    (b.write offset data).read start count = b.read start count := by
  simp only [read]
  refine List.map_congr_left fun i hi => ?_
  have hlt := List.mem_range.mp hi
  rw [byte_write, if_neg]
  omega

end Bytes

/-! ### Journals -/

/-- Data, with the span that was handed out for it. The arena keeps no list of what it has handed
out, and a journal does so for it. -/
structure Placement where
  span : Span
  data : List UInt8
  /-- No byte of the span was written over from outside. -/
  intact : Bool

/-- The placement after `length` bytes from an offset on were written over. -/
def Placement.expose (x : Placement) (offset length : Nat) : Placement :=
  { x with
    intact := x.intact &&
      (decide (x.span.stop ≤ offset) || decide (offset + length ≤ x.span.offset)) }

/-- Something that is asked of an arena. Overwriting is not among what it offers, but whoever was
handed a span may do it. -/
inductive Request where
  | place (alignment : Nat) (data : List UInt8)
  | rewind
  /-- Bytes are written over from outside. -/
  | overwrite (offset : Nat) (data : List UInt8)

/-- An arena with what was placed in it since it was last rewound, oldest first. What was placed
before that is given up, although its bytes stay until others are placed there. -/
structure Journal where
  arena : Arena
  placements : List Placement

namespace Journal

/-- The journal of an arena in which nothing was placed. -/
def start (r : Arena) : Journal :=
  ⟨r, []⟩

/-- The journal after a request. What is refused leaves no trace, and what is written over stays
listed. -/
def perform (j : Journal) : Request → Journal
  | .place alignment data =>
    match j.arena.place alignment data with
    | .ok (span, arena) => ⟨arena, j.placements ++ [⟨span, data, true⟩]⟩
    | .error _ => j
  | .rewind => ⟨j.arena.rewind, []⟩
  | .overwrite offset data =>
    match j.arena.overwrite? offset data with
    | some arena => ⟨arena, j.placements.map (·.expose offset data.length)⟩
    | none => j

/-- The journal after some requests, one after another. -/
def run (j : Journal) : List Request → Journal
  | [] => j
  | request :: rest => run (j.perform request) rest

variable {j : Journal}

/-- The spans of a journal lie behind each other below the cursor, and hold what was placed in them
unless it was written over. -/
structure Kept (j : Journal) : Prop where
  cursor_le : j.arena.cursor ≤ j.arena.capacity
  ascending : j.placements.Pairwise fun x y => x.span.stop ≤ y.span.offset
  below : ∀ x ∈ j.placements, x.span.stop ≤ j.arena.cursor
  length_eq : ∀ x ∈ j.placements, x.span.length = x.data.length ∧ x.data ≠ []
  read_eq : ∀ x ∈ j.placements, x.intact = true →
    j.arena.read x.span.offset x.span.length = x.data

theorem Kept.start (h : r.cursor ≤ r.capacity) : (start r).Kept :=
  ⟨h, .nil, nofun, nofun, nofun⟩

theorem Kept.place (h : j.Kept) (hplace : j.arena.place alignment data = .ok (span, r)) :
    Kept ⟨r, j.placements ++ [⟨span, data, true⟩]⟩ := by
  obtain ⟨hdata, rfl, hle, rfl⟩ := place_eq_ok hplace
  -- the new span starts where all others have ended
  have hbehind : ∀ x ∈ j.placements, x.span.stop ≤ j.arena.nextOffset alignment := fun x hx =>
    Nat.le_trans (h.below x hx) (cursor_le_nextOffset _ _)
  refine ⟨hle, ?_, fun x hx => ?_, fun x hx => ?_, fun x hx hintact => ?_⟩
  · refine List.pairwise_append.mpr ⟨h.ascending, List.pairwise_singleton _ _, fun x hx y hy => ?_⟩
    obtain rfl := List.mem_singleton.mp hy
    exact hbehind x hx
  · rcases List.mem_append.mp hx with hx | hx
    · exact Nat.le_trans (hbehind x hx) (Nat.le_add_right _ _)
    · obtain rfl := List.mem_singleton.mp hx
      exact Nat.le_refl _
  · rcases List.mem_append.mp hx with hx | hx
    · exact h.length_eq x hx
    · obtain rfl := List.mem_singleton.mp hx
      exact ⟨rfl, hdata⟩
  · rcases List.mem_append.mp hx with hx | hx
    · rw [← h.read_eq x hx hintact]
      exact j.arena.bytes.read_write_of_disjoint (.inl (hbehind x hx))
    · obtain rfl := List.mem_singleton.mp hx
      exact j.arena.bytes.read_write _ data

theorem Kept.overwrite (h : j.Kept) {offset : Nat}
    (hoverwrite : j.arena.overwrite? offset data = some r) :
    Kept ⟨r, j.placements.map (·.expose offset data.length)⟩ := by
  obtain rfl := overwrite?_eq_some hoverwrite
  refine ⟨h.cursor_le, List.pairwise_map.mpr h.ascending, ?_, ?_, ?_⟩
  · exact List.forall_mem_map.mpr h.below
  · exact List.forall_mem_map.mpr h.length_eq
  · refine List.forall_mem_map.mpr fun x hx hintact => ?_
    simp only [Placement.expose, Bool.and_eq_true, Bool.or_eq_true, decide_eq_true_eq] at hintact
    exact (j.arena.bytes.read_write_of_disjoint hintact.2).trans (h.read_eq x hx hintact.1)

/-- **Step.** Every request keeps a journal: what was placed is disjoint, lies below the cursor, and
reads back as long as nobody has written over it. -/
theorem Kept.perform (h : j.Kept) (request : Request) : (j.perform request).Kept := by
  cases request with
  | place alignment data =>
    rw [Journal.perform]
    split
    · case h_1 hplace => exact h.place hplace
    · exact h
  | rewind => exact ⟨Nat.zero_le _, .nil, nofun, nofun, nofun⟩
  | overwrite offset data =>
    rw [Journal.perform]
    split
    · case h_1 hoverwrite => exact h.overwrite hoverwrite
    · exact h

/-- **Run.** Requests keep a journal, however many there are and in whatever order they come. -/
theorem Kept.run (h : j.Kept) (requests : List Request) : (j.run requests).Kept := by
  induction requests generalizing j with
  | nil => exact h
  | cons request rest ih => exact ih (h.perform request)

theorem capacity_perform (j : Journal) (request : Request) :
    (j.perform request).arena.capacity = j.arena.capacity := by
  cases request with
  | place alignment data =>
    rw [perform]
    split
    · case h_1 hplace =>
      obtain ⟨-, -, -, rfl⟩ := place_eq_ok hplace
      rfl
    · rfl
  | rewind => rfl
  | overwrite offset data =>
    rw [perform]
    split
    · case h_1 hoverwrite =>
      obtain rfl := overwrite?_eq_some hoverwrite
      rfl
    · rfl

/-- Only rewinding takes the cursor back. -/
theorem cursor_le_perform {request : Request} (j : Journal) (h : request ≠ .rewind) :
    j.arena.cursor ≤ (j.perform request).arena.cursor := by
  cases request with
  | place alignment data =>
    rw [perform]
    split
    · case h_1 hplace =>
      obtain ⟨-, rfl, -, rfl⟩ := place_eq_ok hplace
      exact Nat.le_add_right_of_le (cursor_le_nextOffset _ _)
    · exact Nat.le_refl _
  | rewind => exact absurd rfl h
  | overwrite offset data =>
    rw [perform]
    split
    · case h_1 hoverwrite =>
      obtain rfl := overwrite?_eq_some hoverwrite
      exact Nat.le_refl _
    · exact Nat.le_refl _

theorem capacity_run (j : Journal) (requests : List Request) :
    (j.run requests).arena.capacity = j.arena.capacity := by
  induction requests generalizing j with
  | nil => rfl
  | cons request rest ih => exact (ih _).trans (j.capacity_perform request)

theorem cursor_le_run (j : Journal) {requests : List Request} (h : .rewind ∉ requests) :
    j.arena.cursor ≤ (j.run requests).arena.cursor := by
  induction requests generalizing j with
  | nil => exact Nat.le_refl _
  | cons request rest ih =>
    rw [List.mem_cons, not_or] at h
    obtain ⟨hne, hrest⟩ := h
    exact Nat.le_trans (j.cursor_le_perform (Ne.symm hne)) (ih _ hrest)

/-- As long as nothing is written over, all is intact. -/
theorem intact_run (h : ∀ x ∈ j.placements, x.intact = true) {requests : List Request}
    (hrequests : ∀ offset data, .overwrite offset data ∉ requests) :
    ∀ x ∈ (j.run requests).placements, x.intact = true := by
  induction requests generalizing j with
  | nil => exact h
  | cons request rest ih =>
    have hrest : ∀ offset data, .overwrite offset data ∉ rest := fun offset data hmem =>
      hrequests offset data (List.mem_cons_of_mem _ hmem)
    refine ih ?_ hrest
    cases request with
    | place alignment data =>
      rw [perform]
      split
      · refine List.forall_mem_append.mpr ⟨h, fun x hx => ?_⟩
        obtain rfl := List.mem_singleton.mp hx
        rfl
      · exact h
    | rewind => exact nofun
    | overwrite offset data => exact absurd List.mem_cons_self (hrequests offset data)

/-- Data that does not fit is refused, and leaves no trace. -/
theorem perform_place_of_error {e : PlacementError} (h : j.arena.place alignment data = .error e) :
    j.perform (.place alignment data) = j := by
  rw [perform, h]

end Journal

theorem reserve_eq_ok {length : Nat} (h : reserve length = .ok r) :
    r = ⟨max length minLength, 0, .zeros⟩ ∧ r.capacity ≤ maxAlignment := by
  rw [reserve] at h
  split at h
  · cases h
  · case isFalse hlt =>
    obtain rfl := Except.ok.inj h
    refine ⟨rfl, Nat.max_le.mpr ⟨?_, by decide⟩⟩
    exact Nat.le_trans (Nat.le_of_lt (Nat.not_le.mp hlt)) (by decide)

/-- **Placement.** Whatever was asked of a new arena, its cursor is inside it, and the spans handed
out since it was last rewound lie behind each other below the cursor and hold their data, but for
what was written over from outside. Data goes to the least aligned offset that is not below the
cursor, in numbers that fit a machine word, exactly if it fits there. If it does not, nothing is
changed, and the same data is refused until the arena is rewound. -/
theorem kept_of_requests {length : Nat} (hreserve : reserve length = .ok r)
    (requests : List Request) : ∃ j, j = (Journal.start r).run requests ∧ j.Kept ∧
      ((∀ offset data, .overwrite offset data ∉ requests) →
        ∀ x ∈ j.placements, j.arena.read x.span.offset x.span.length = x.data) ∧
      (j.arena.rewind.cursor = 0 ∧ j.arena.rewind.capacity = j.arena.capacity ∧
        j.arena.rewind.bytes = j.arena.bytes) ∧
      ∀ alignment data, alignment ≤ maxAlignment → data ≠ [] → ∃ a start,
        IsLeast {p | p.isPowerOfTwo ∧ max alignment 1 ≤ p} a ∧ a < UInt64.size ∧
        IsLeast {m | a ∣ m ∧ j.arena.cursor ≤ m} start ∧ start < UInt64.size ∧
        (start + data.length ≤ j.arena.capacity → ∃ arena,
          j.arena.place alignment data = .ok (⟨start, data.length⟩, arena) ∧
            arena.capacity = j.arena.capacity ∧ arena.cursor = start + data.length ∧
            arena.bytes = j.arena.bytes.write start data) ∧
        (j.arena.capacity < start + data.length → ∀ later, .rewind ∉ later →
          (j.run later).arena.place alignment data = .error .exhausted ∧
            (j.run later).perform (.place alignment data) = j.run later) := by
  obtain ⟨hr, hcapacity⟩ := reserve_eq_ok hreserve
  have hstart : (Journal.start r).Kept := .start (hr ▸ Nat.zero_le _)
  have hkept := hstart.run requests
  have hsame := (Journal.start r).capacity_run requests
  refine ⟨_, rfl, hkept, fun hquiet x hx => ?_, ⟨rfl, rfl, rfl⟩, ?_⟩
  · exact hkept.read_eq x hx (Journal.intact_run (j := .start r) nofun hquiet x hx)
  generalize (Journal.start r).run requests = j at hkept hsame
  intro alignment data halignment hdata
  have hcursor : j.arena.cursor ≤ maxAlignment :=
    Nat.le_trans hkept.cursor_le (hsame.trans_le hcapacity)
  obtain ⟨hpower, hoffset⟩ := nextOffset_le halignment hcursor
  refine ⟨_, j.arena.nextOffset alignment, isLeast_nextPower _,
    Nat.lt_of_le_of_lt hpower (by decide), isLeast_nextOffset _ _,
    Nat.lt_of_le_of_lt hoffset (by decide), fun hfits => ?_, fun hexceeds later hlater => ?_⟩
  · refine ⟨{ j.arena with
      cursor := j.arena.nextOffset alignment + data.length
      bytes := j.arena.bytes.write (j.arena.nextOffset alignment) data }, ?_, rfl, rfl, rfl⟩
    rw [place_eq _ halignment hdata, if_pos hfits]
  · -- the cursor has not gone back since, so the data would end further on still
    have hmono := nextOffset_mono (j.cursor_le_run hlater) alignment
    have hrefused : (j.run later).arena.place alignment data = .error .exhausted := by
      rw [place_eq _ halignment hdata, if_neg]
      rw [j.capacity_run later]
      omega
    exact ⟨hrefused, Journal.perform_place_of_error hrefused⟩

/-- Requests with an alignment of zero, with others that are no powers of two, and with one that is
greater than a small arena. A byte of the first placement is written over. -/
def mixedRequests : List Request :=
  [.place 0 [1, 2, 3], .place 48 [4, 5], .place maxAlignment [6], .overwrite 1 [9], .place 3 [7]]

theorem kept_of_mixedRequests : ∃ r j, reserve 0 = .ok r ∧
    j = (Journal.start r).run mixedRequests ∧ j.Kept ∧
    j.placements =
      [⟨⟨0, 3⟩, [1, 2, 3], false⟩, ⟨⟨64, 2⟩, [4, 5], true⟩, ⟨⟨68, 1⟩, [7], true⟩] ∧
    j.arena.cursor = 69 ∧ j.arena.read 64 2 = [4, 5] ∧
    (maxAlignment ≤ maxAlignment ∧ [(6 : UInt8)] ≠ [] ∧ .rewind ∉ mixedRequests) ∧
    (j.run mixedRequests).arena.place maxAlignment [6] = .error .exhausted := by
  have hreserve : reserve 0 = .ok ⟨minLength, 0, .zeros⟩ := rfl
  obtain ⟨j, rfl, hkept, -, -, hplace⟩ := kept_of_requests hreserve mixedRequests
  have hplaced : ((Journal.start ⟨minLength, 0, .zeros⟩).run mixedRequests).placements =
      [⟨⟨0, 3⟩, [1, 2, 3], false⟩, ⟨⟨64, 2⟩, [4, 5], true⟩, ⟨⟨68, 1⟩, [7], true⟩] := by rfl
  have hread := hkept.read_eq ⟨⟨64, 2⟩, [4, 5], true⟩ (by rw [hplaced]; simp) rfl
  obtain ⟨a, start, ha, -, hstart, -, -, hrefused⟩ := hplace maxAlignment [6] (Nat.le_refl _) nofun
  have hcursor : ((Journal.start ⟨minLength, 0, .zeros⟩).run mixedRequests).arena.cursor = 69 := rfl
  have hlater : Request.rewind ∉ mixedRequests := nofun
  -- the offset is a multiple of an alignment that is greater than the arena
  have hfar : maxAlignment ≤ start :=
    Nat.le_trans ha.1.2 (Nat.le_of_dvd (by have := hstart.1.2; omega) hstart.1.1)
  have hexceeds : minLength < start + [(6 : UInt8)].length :=
    Nat.lt_of_lt_of_le (by decide : minLength < maxAlignment) (Nat.le_add_right_of_le hfar)
  exact ⟨_, _, hreserve, rfl, hkept, hplaced, hcursor, hread, ⟨Nat.le_refl _, nofun, hlater⟩,
    (hrefused hexceeds _ hlater).1⟩

end Arena

end VectorUnit
