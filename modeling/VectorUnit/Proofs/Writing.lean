import Mathlib.Algebra.Group.Nat.Defs
import VectorUnit.Proofs.Invalidation

/-!
# Writes wrap and compose

A write goes through a memory byte by byte, around its end as often as need be. So a byte holds what
was written to it last (`Memory.byte_write_of_last`), or what it held before if nothing was
(`Memory.byte_write_of_ne`), and only the place of the offset inside the memory matters
(`Memory.write_of_mod_eq`).

A write in two parts is a write of the whole (`Memory.write_append`). The same is true of a unit:
the size of its memory divides the number of offsets, so that an offset may wrap around between the
parts, and the second part finds the unit stale and has nothing left to take back
(`Processor.write_append`).
-/

namespace VectorUnit

namespace Memory

variable {m : Memory} {offset i j : Nat} {data : List UInt8}

/-! ### Where bytes end up -/

/-- A write in two parts is a write of the whole. -/
theorem write_append (m : Memory) (offset : Nat) (a b : List UInt8) :
    m.write offset (a ++ b) = (m.write offset a).write (offset + a.length) b := by
  induction a generalizing m offset with
  | nil => rfl
  | cons value a ih =>
    have hbehind : offset + 1 + a.length = offset + (value :: a).length := by
      rw [List.length_cons, Nat.add_assoc, Nat.add_comm 1]
    rw [List.cons_append, write, ih, hbehind, ← write]

/-- Offsets at the same place in a memory are the same to a write. -/
theorem write_of_mod_eq {offset' : Nat} (h : offset % m.size = offset' % m.size)
    (data : List UInt8) : m.write offset data = m.write offset' data := by
  induction data generalizing m offset offset' with
  | nil => rfl
  | cons value data ih =>
    rw [write, write, h]
    refine ih ?_
    rw [size_set, Nat.add_mod, h, ← Nat.add_mod]

/-- A byte that a write does not reach stays. -/
theorem byte_write_of_ne (h : ∀ i < data.length, (offset + i) % m.size ≠ j) :
    (m.write offset data).byte j = m.byte j := by
  induction data generalizing m offset with
  | nil => rfl
  | cons value data ih =>
    have hrest : ∀ i < data.length, (offset + 1 + i) % m.size ≠ j := by
      intro i hi
      rw [Nat.add_assoc, Nat.add_comm 1]
      exact h (i + 1) (Nat.succ_lt_succ hi)
    have hfirst : j ≠ offset % m.size := (h 0 (Nat.zero_lt_succ _)).symm
    rw [write, ih (by rwa [size_set]), byte_set, if_neg fun hj => hfirst hj.1]

/-- A byte holds what was written to it last. -/
theorem byte_write_of_last (hm : 0 < m.size) (hi : i < data.length)
    (hj : (offset + i) % m.size = j)
    (hlast : ∀ k < data.length, i < k → (offset + k) % m.size ≠ j) :
    (m.write offset data).byte j = data[i] := by
  -- Bytes of the data before the last one that reaches `j` are written over, those after it miss.
  have hsplit : data = data.take i ++ data[i] :: data.drop (i + 1) := by
    rw [← List.drop_eq_getElem_cons hi, List.take_append_drop]
  have hcount : (data.take i).length = i := List.length_take_of_le (Nat.le_of_lt hi)
  have hbehind : ∀ k < (data.drop (i + 1)).length,
      (offset + i + 1 + k) % m.size ≠ j := by
    intro k hk
    rw [List.length_drop] at hk
    have hmiss := hlast (i + 1 + k) (by omega) (by omega)
    rwa [← Nat.add_assoc, ← Nat.add_assoc] at hmiss
  generalize hvalue : data[i] = value at hsplit ⊢
  -- the memory just before the byte is written
  let front := m.write offset (data.take i)
  have hfront : front.size = m.size := size_write ..
  have hinside : j < m.size := hj ▸ Nat.mod_lt _ hm
  calc (m.write offset data).byte j
      = (front.write (offset + i) (value :: data.drop (i + 1))).byte j := by
        rw [congrArg (m.write offset) hsplit, write_append, hcount]
    _ = (front.set ((offset + i) % front.size) value).byte j := by
        rw [write, byte_write_of_ne (by rwa [size_set, hfront])]
    _ = value := by rw [byte_set, hfront, if_pos ⟨hj.symm, hinside⟩]

end Memory

namespace Processor

variable {p q : Processor}

/-! ### Writes to a unit -/

/-- A unit that is told twice that its microcode has changed is as one that is told once. -/
theorem markStale_markStale (p : Processor) (m m' : Memory) :
    markStale { markStale { p with microcode := m } with microcode := m' } =
      markStale { p with microcode := m' } := by
  cases p.stale with
  | true => simp only [markStale, if_true]
  | false => simp only [markStale, Bool.false_eq_true, if_false, if_true]

theorem microcode_write (p : Processor) (offset : UInt32) (data : List UInt8) :
    (p.write offset data).microcode = p.microcode.write offset.toNat data := by
  cases data with
  | nil => rfl
  | cons value data =>
    rw [write_of_ne_nil (List.cons_ne_nil value data), markStale]
    split <;> rfl

/-- The size of the memory of a unit divides the number of offsets. -/
theorem Stocked.mod_size (hp : p.Stocked) (n : Nat) :
    n % 2 ^ 32 % p.microcode.size = n % p.microcode.size := by
  refine Nat.mod_mod_of_dvd n ?_
  rw [hp.size_eq]
  cases p.config.kind <;> decide

/-- The offset behind some bytes may wrap around. -/
theorem Stocked.write_behind (hp : p.Stocked) (m : Memory) (hm : m.size = p.microcode.size)
    (offset : UInt32) (a b : List UInt8) :
    m.write (offset + UInt32.ofNat a.length).toNat b = m.write (offset.toNat + a.length) b := by
  refine m.write_of_mod_eq ?_ b
  rw [hm, UInt32.toNat_add, UInt32.toNat_ofNat', Nat.add_mod_mod, hp.mod_size]

/-- **Composition.** A write in two parts leaves a unit as a write of the whole does, down to the
last field. -/
theorem Stocked.write_append (hp : p.Stocked) (offset : UInt32) (a b : List UInt8) :
    p.write offset (a ++ b) = (p.write offset a).write (offset + UInt32.ofNat a.length) b := by
  cases a with
  | nil =>
    rw [List.nil_append, write_nil]
    exact congrArg (p.write · b) (UInt32.add_zero offset).symm
  | cons x a =>
    cases b with
    | nil => rw [List.append_nil, write_nil]
    | cons y b =>
      have hne : x :: a ++ y :: b ≠ [] :=
        List.append_ne_nil_of_left_ne_nil (List.cons_ne_nil x a) _
      -- the second part is written where the first one ends, around the end of memory if need be
      have hwhole : (p.microcode.write offset.toNat (x :: a)).write
          (offset + UInt32.ofNat (x :: a).length).toNat (y :: b) =
            p.microcode.write offset.toNat (x :: a ++ y :: b) := by
        rw [hp.write_behind _ (p.microcode.size_write ..), ← Memory.write_append]
      rw [write_of_ne_nil hne, write_of_ne_nil (List.cons_ne_nil y b), microcode_write, hwhole,
        write_of_ne_nil (List.cons_ne_nil x a), markStale_markStale]

/-- **Writes.** Whatever was done to a unit, a write leaves in every byte of microcode what it put
there last, and leaves the bytes alone to which it put nothing, however long it is and wherever it
begins. A write of some bytes followed by a write of others behind them is the same as one write of
them all. -/
theorem writes_of_uses {host : Host} {config : Config} (hcreate : create host config = .ok p)
    (h : Uses anyProgram p q) (offset : UInt32) (data : List UInt8) :
    (q.write offset data).microcode.size = q.microcode.size ∧
    (∀ (i : Nat) (hi : i < data.length) (j : Nat),
      (offset.toNat + i) % q.microcode.size = j →
      (∀ k < data.length, i < k → (offset.toNat + k) % q.microcode.size ≠ j) →
      (q.write offset data).microcode.byte j = data[i]) ∧
    (∀ j, (∀ i < data.length, (offset.toNat + i) % q.microcode.size ≠ j) →
      (q.write offset data).microcode.byte j = q.microcode.byte j) ∧
    ∀ a b, data = a ++ b →
      q.write offset data = (q.write offset a).write (offset + UInt32.ofNat a.length) b := by
  have hq : q.Stocked := ((inUse_create hcreate).uses h).stocked
  have hpos : 0 < q.microcode.size := by
    rw [hq.size_eq]
    cases q.config.kind <;> decide
  rw [microcode_write]
  refine ⟨q.microcode.size_write offset.toNat data, fun i hi j hj hlast => ?_, fun j hj => ?_, ?_⟩
  · exact Memory.byte_write_of_last hpos hi hj hlast
  · exact Memory.byte_write_of_ne hj
  · rintro a b rfl
    exact hq.write_append offset a b

/-- Four bytes that begin two bytes in front of the last offset there is. -/
theorem writes_of_uses_of_wrapping : ∃ p, create .compact .standard = .ok p ∧
    p.microcode.size = 4096 ∧
    (p.write 0xFFFFFFFE [1, 2, 3, 4]).microcode.byte 4095 = 2 ∧
    (p.write 0xFFFFFFFE [1, 2, 3, 4]).microcode.byte 2 = p.microcode.byte 2 ∧
    p.write 0xFFFFFFFE [1, 2, 3, 4] = (p.write 0xFFFFFFFE [1, 2, 3]).write 1 [4] := by
  obtain ⟨p, hcreate, hsize⟩ : ∃ p, create .compact .standard = .ok p ∧
      p.microcode.size = 4096 :=
    ⟨_, rfl, Memory.size_zeros 4096⟩
  obtain ⟨-, hlast, hne, hsplit⟩ := writes_of_uses hcreate .refl 0xFFFFFFFE [1, 2, 3, 4]
  rw [hsize] at hlast hne
  refine ⟨p, hcreate, hsize, ?_, ?_, hsplit [1, 2, 3] [4] rfl⟩
  · exact hlast 1 (by decide) 4095 (by decide) (by decide)
  · exact hne 2 (by decide)

end Processor

end VectorUnit
