import VectorUnit.Proofs.Widening

/-!
# Compiled code means what interpretation says

`Sequence.run_toCode`: the code of a sequence leaves the same registers behind as executing the
pairs of the sequence one after another does, in a memory of at most `8 * 65536` bytes.

The proof follows the draft pair by pair. An operand *holds* a value among the gates drafted so far
(`Operand.Holds`), and goes on holding it when more gates follow (`Operand.Holds.push`): that is why
a register that is written later, by a link or in a delay slot, does not disturb a condition or a
target that was fixed before. `Draft.Represents` says that a draft stands for a state of the
interpreter, and every step of drafting keeps it (`Draft.Represents.pair`). When the draft is
finished, the state that it stands for is stored (`Draft.Represents.run_toCode`).
-/

namespace VectorUnit

namespace Code

/-! ### Gates and their values -/

variable {start : Registers} {gates gates' : Array Gate}

@[simp]
theorem gateValues_push (start : Registers) (gates : Array Gate) (g : Gate) :
    gateValues start (gates.push g) =
      (gateValues start gates).push (g.value start (gateValues start gates)) := by
  simp only [gateValues, Array.foldl_push]

@[simp]
theorem size_gateValues (start : Registers) (gates : Array Gate) :
    (gateValues start gates).size = gates.size := by
  refine Array.foldl_induction (fun count (values : Array UInt32) => values.size = count) rfl ?_
  intro i values hsize
  rw [Array.size_push, hsize]

/-- An operand that uses none but the first `count` gates. -/
def Operand.Below (count : Nat) : Operand → Prop
  | .const _ | .entry _ => True
  | .gate index => index < count

/-- Among some gates, an operand holds a value on entry with the registers `start`. It names no gate
that comes later, so it goes on holding the value when gates are added. -/
structure Operand.Holds (start : Registers) (gates : Array Gate) (o : Operand) (v : UInt32) :
    Prop where
  below : o.Below gates.size
  value_eq : o.value start (gateValues start gates) = v

namespace Operand

theorem holds_const (c : UInt32) : (const c).Holds start gates c :=
  ⟨trivial, rfl⟩

theorem holds_entry (r : Registers.Index) : (entry r).Holds start gates (widen (start.vi.get r)) :=
  ⟨trivial, rfl⟩

/-- The last gate holds its own value. -/
theorem holds_last (start : Registers) (gates : Array Gate) (g : Gate) :
    (gate gates.size).Holds start (gates.push g) (g.value start (gateValues start gates)) := by
  refine ⟨?_, ?_⟩
  · simp [Below]
  · rw [value, gateValues_push, ← size_gateValues start gates, Array.getD_eq_getD_getElem?,
      Array.getElem?_push_size, Option.getD_some]

/-- What an operand holds, no later gate changes. -/
theorem Holds.push {o : Operand} {v : UInt32} (h : o.Holds start gates v) (g : Gate) :
    o.Holds start (gates.push g) v := by
  obtain ⟨hbelow, hvalue⟩ := h
  cases o with
  | const | entry => exact ⟨trivial, hvalue⟩
  | gate index =>
    have hlt : index < gates.size := hbelow
    refine ⟨?_, ?_⟩
    · simp only [Below, Array.size_push]
      omega
    · rw [← hvalue]
      simp [value, Array.getElem?_push, Nat.ne_of_lt hlt]

end Operand

/-- What operands hold among the first gates, they hold among the second ones. Everything that a
draft does only adds gates, so nothing held is ever lost. -/
def Keeps (start : Registers) (gates gates' : Array Gate) : Prop :=
  ∀ ⦃o : Operand⦄ ⦃v : UInt32⦄, o.Holds start gates v → o.Holds start gates' v

theorem keeps_push (start : Registers) (gates : Array Gate) (g : Gate) :
    Keeps start gates (gates.push g) :=
  fun _ _ h => h.push g

/-! ### Drafts that stand for a state of the interpreter -/

/-- A waiting transfer of control goes to the target that waits in the interpreter. Where a branch
is not taken nothing waits there, and the condition of the draft does not hold. -/
inductive Waits (start : Registers) (gates : Array Gate) :
    Option Transfer → Option UInt32 → Prop where
  | nothing : Waits start gates none none
  | always {t : Operand} {v : UInt32} (ht : t.Holds start gates v) :
      Waits start gates (some ⟨none, t⟩) (some v)
  | taken {c t : Operand} {b v : UInt32} (hc : c.Holds start gates b) (hb : b ≠ 0)
      (ht : t.Holds start gates v) : Waits start gates (some ⟨some c, t⟩) (some v)
  | untaken {c t : Operand} (hc : c.Holds start gates 0) :
      Waits start gates (some ⟨some c, t⟩) none

theorem Waits.mono {transfer : Option Transfer} {target : Option UInt32}
    (h : Waits start gates transfer target) (hk : Keeps start gates gates') :
    Waits start gates' transfer target := by
  cases h with
  | nothing => exact .nothing
  | always ht => exact .always (hk ht)
  | taken hc hb ht => exact .taken (hk hc) hb (hk ht)
  | untaken hc => exact .untaken (hk hc)

/-- The address of the last kick, or the one on entry if there was none. The draft has no operand
for it as long as there was no kick. -/
def Kicks (start : Registers) (gates : Array Gate) (kick : Option Operand) (address : UInt32) :
    Prop :=
  match kick with
  | none => address = start.kick
  | some o => o.Holds start gates address

theorem Kicks.mono {kick : Option Operand} {address : UInt32}
    (h : Kicks start gates kick address) (hk : Keeps start gates gates') :
    Kicks start gates' kick address := by
  cases kick with
  | none => exact h
  | some o => exact hk h

/-- The operand of a condition, if there is one, holds whether a branch is taken. A branch without a
condition is always taken. -/
def Decides (start : Registers) (gates : Array Gate) (condition : Option Operand)
    (taken : Bool) : Prop :=
  match condition with
  | none => taken = true
  | some c => c.Holds start gates (if taken then 1 else 0)

theorem Decides.mono {condition : Option Operand} {taken : Bool}
    (h : Decides start gates condition taken) (hk : Keeps start gates gates') :
    Decides start gates' condition taken := by
  cases condition with
  | none => exact h
  | some c => exact hk h

/-- A condition and a target that are held wait together. -/
theorem Decides.waits {condition : Option Operand} {taken : Bool} {t : Operand} {v : UInt32}
    (h : Decides start gates condition taken) (ht : t.Holds start gates v) :
    Waits start gates (some ⟨condition, t⟩) (if taken then some v else none) := by
  cases condition with
  | none =>
    have htaken : taken = true := h
    rw [htaken]
    exact .always ht
  | some c =>
    cases taken with
    | true => exact .taken h (by decide) ht
    | false => exact .untaken h

namespace Draft

open Interpreter

/-- A draft stands for the state that the interpreter reaches from the registers `start`. Each pair
keeps this, so the code of a whole sequence does what the interpreter does. -/
structure Represents (start : Registers) (d : Draft) (s : State) : Prop where
  held : ∀ r : Registers.Index, r ≠ 0 →
    (d.held.get r).Holds start d.gates (widen (s.registers.read r))
  /-- The place of register 0 is never written. -/
  zeroth : s.registers.vi.get 0 = start.vi.get 0
  waits : Waits start d.gates d.transfer s.target
  kicks : Kicks start d.gates d.kick s.registers.kick
  status : s.registers.status = start.status ||| d.status

variable {d : Draft} {s : State}

theorem represents_empty (start : Registers) : Represents start empty ⟨start, none⟩ where
  held r hr := by
    rw [empty, Registers.get_ofFn, Registers.read, if_neg hr]
    exact Operand.holds_entry r
  zeroth := rfl
  waits := .nothing
  kicks := rfl
  status := by simp [empty]

theorem Represents.push (h : Represents start d s) (g : Gate) :
    Represents start (d.push g).2 s where
  held r hr := (h.held r hr).push g
  zeroth := h.zeroth
  waits := h.waits.mono (keeps_push start d.gates g)
  kicks := h.kicks.mono (keeps_push start d.gates g)
  status := h.status

/-- The operand of a gate that is pushed holds the value of the gate. -/
theorem Represents.push_holds (h : Represents start d s) {g : Gate} {v : UInt32}
    (hv : g.value start (gateValues start d.gates) = v) :
    Represents start (d.push g).2 s ∧ (d.push g).1.Holds start (d.push g).2.gates v := by
  refine ⟨h.push g, ?_⟩
  rw [← hv]
  exact Operand.holds_last start d.gates g

/-- The operand read for a register holds its value. -/
theorem Represents.read (h : Represents start d s) (r : Registers.Index) :
    (d.read r).Holds start d.gates (widen (s.registers.read r)) := by
  by_cases hr : r = 0
  · subst hr
    exact Operand.holds_const 0
  · rw [Draft.read, if_neg hr]
    exact h.held r hr

/-! ### Writing registers -/

/-- What an operand holds, no write to a register changes. -/
theorem keeps_write (start : Registers) (d : Draft) (r : Registers.Index) (value : Operand) :
    Keeps start d.gates (d.write r value).gates := by
  intro o v h
  by_cases hr : r = 0
  · rwa [Draft.write, if_pos hr]
  · rw [Draft.write, if_neg hr]
    exact h.push _

theorem Represents.write (h : Represents start d s) (r : Registers.Index) {value : Operand}
    {x : UInt32} (hx : value.Holds start d.gates x) :
    Represents start (d.write r value)
      { s with registers := s.registers.write r x.toUInt16 } := by
  by_cases hr : r = 0
  · subst hr
    exact h
  · have hvi : (s.registers.write r x.toUInt16).vi.get 0 = s.registers.vi.get 0 := by
      rw [Registers.write, if_neg hr]
      exact (Registers.get_set _ r 0 _).trans (if_neg hr)
    rw [Draft.write, if_neg hr]
    have hpush := h.push (.narrow value)
    refine ⟨fun r' hr' => ?_, hvi.trans h.zeroth, ?_, ?_, ?_⟩
    · -- the register written is held by the new gate, every other one as before
      rw [Registers.read_write, Registers.get_set]
      by_cases he : r' = r
      · subst he
        rw [if_pos rfl, if_pos ⟨rfl, hr⟩, ← hx.value_eq]
        exact Operand.holds_last start d.gates (.narrow value)
      · rw [if_neg fun e => he e.symm, if_neg fun e => he e.1]
        exact hpush.held r' hr'
    · exact hpush.waits
    · simpa [Registers.write, hr] using hpush.kicks
    · simpa [Registers.write, hr] using hpush.status

/-- A gate whose value goes to a register. -/
theorem Represents.compute (h : Represents start d s) (r : Registers.Index) {g : Gate}
    {x : UInt32} (hx : g.value start (gateValues start d.gates) = x) :
    Represents start (d.compute r g)
      { s with registers := s.registers.write r x.toUInt16 } := by
  obtain ⟨hpush, hholds⟩ := h.push_holds hx
  exact hpush.write r hholds

/-! ### Operations -/

/-- Adding a constant is adding it to the register. -/
theorem Represents.addConstant (h : Represents start d s) (p : Pair) (i : Int) :
    Represents start (d.addConstant p i)
      { s with registers :=
          assign s.registers p.it (value s.registers p.is + UInt16.ofInt i) } := by
  have hvalue : (Gate.add (d.read (isOf p)) (constant i)).value start
      (gateValues start d.gates) =
        widen (s.registers.read (isOf p)) + UInt32.ofInt i := by
    rw [Gate.value, (h.read (isOf p)).value_eq]
    rfl
  have hlow : (widen (s.registers.read (isOf p)) + UInt32.ofInt i).toUInt16 =
      value s.registers p.is + UInt16.ofInt i := by
    rw [UInt32.toUInt16_add, toUInt16_widen, toUInt16_ofInt]
    rfl
  have hcompute := h.compute (itOf p) hvalue
  rwa [hlow] at hcompute

/-- A gate on two registers computes what `f` does, if the low halves agree. -/
theorem Represents.combine (h : Represents start d s) (p : Pair)
    {g : Operand → Operand → Gate} {f : UInt16 → UInt16 → UInt16} {F : UInt32 → UInt32 → UInt32}
    (hg : ∀ a b values,
      (g a b).value start values = F (a.value start values) (b.value start values))
    (hF : ∀ a b, (F a b).toUInt16 = f a.toUInt16 b.toUInt16) :
    Represents start (d.combine p g)
      { s with registers :=
          assign s.registers p.id (f (value s.registers p.is) (value s.registers p.it)) } := by
  have hvalue : (g (d.read (isOf p)) (d.read (itOf p))).value start (gateValues start d.gates) =
      F (widen (s.registers.read (isOf p))) (widen (s.registers.read (itOf p))) := by
    rw [hg, (h.read (isOf p)).value_eq, (h.read (itOf p)).value_eq]
  have hcompute := h.compute (idOf p) hvalue
  rwa [hF, toUInt16_widen, toUInt16_widen] at hcompute

theorem Represents.kicking (h : Represents start d s) (p : Pair) :
    Represents start (d.kicking p)
      { s with registers :=
          { s.registers with kick := (value s.registers p.is).toUInt32 }.raise Status.kick } := by
  have hvalue : (Gate.and (d.read (isOf p)) (.const 0xFFFF)).value start
      (gateValues start d.gates) = (value s.registers p.is).toUInt32 := by
    rw [Gate.value, (h.read (isOf p)).value_eq]
    exact widen_and_low _
  obtain ⟨hpush, hholds⟩ := h.push_holds hvalue
  refine ⟨hpush.held, hpush.zeroth, hpush.waits, hholds, ?_⟩
  change s.registers.status ||| Status.kick = start.status ||| (d.status ||| Status.kick)
  rw [h.status, UInt32.or_assoc]

/-- The operations that are no branches. -/
theorem Represents.arithmetic (h : Represents start d s) {p : Pair} (hp : p.isBranch = false)
    (memLength offset : Nat) (inSlot : Bool) :
    Represents start (d.operation memLength offset p inSlot)
      { s with registers := arithmetic s.registers p } := by
  rw [Pair.isBranch] at hp
  simp only [operation, Interpreter.arithmetic]
  cases hop : p.opcode
  case iaddiu =>
    have hadd := h.addConstant p p.imm15
    rwa [ofInt_natCast] at hadd
  case isubiu =>
    have hadd := h.addConstant p (-p.imm15)
    rwa [UInt16.ofInt_neg, ofInt_natCast, ← UInt16.sub_eq_add_neg] at hadd
  case iaddi => exact h.addConstant p p.imm5
  case iadd => exact h.combine p (fun _ _ _ => rfl) UInt32.toUInt16_add
  case isub => exact h.combine p (fun _ _ _ => rfl) UInt32.toUInt16_sub
  case iand => exact h.combine p (fun _ _ _ => rfl) UInt32.toUInt16_and
  case ior => exact h.combine p (fun _ _ _ => rfl) UInt32.toUInt16_or
  case xgkick => exact h.kicking p
  all_goals
    rw [hop] at hp
    first
      | exact h
      | exact absurd hp (by decide)

/-! ### Branches -/

/-- A comparison of two registers, or of a register with zero. -/
private theorem Represents.compare (h : Represents start d s) (relation : Comparison)
    {a b : Operand} {x y : UInt16} (ha : a.Holds start d.gates (widen x))
    (hb : b.Holds start d.gates (widen y)) {taken : Bool}
    (htaken : relation.ofInts x.toInt16.toInt y.toInt16.toInt = taken) :
    Represents start (d.push (.compare relation a b)).2 s ∧
      Decides start (d.push (.compare relation a b)).2.gates
        (some (d.push (.compare relation a b)).1) taken := by
  have hvalue : (Gate.compare relation a b).value start (gateValues start d.gates) =
      if taken then 1 else 0 := by
    rw [Gate.value, ha.value_eq, hb.value_eq, Comparison.holds_widen, htaken]
  exact h.push_holds hvalue

theorem Represents.condition (h : Represents start d s) (p : Pair) :
    Represents start (d.condition p).2 s ∧
      Decides start (d.condition p).2.gates (d.condition p).1 (takes s.registers p) := by
  have hit := h.read (itOf p)
  have his := h.read (isOf p)
  have hzero : (Operand.const 0).Holds start d.gates (widen 0) := Operand.holds_const 0
  simp only [Draft.condition, takes]
  cases p.opcode
  case ibeq => exact h.compare .eq hit his rfl
  case ibne => exact h.compare .ne hit his rfl
  case ibltz => exact h.compare .lt his hzero rfl
  case ibgtz => exact h.compare .gt his hzero rfl
  case iblez => exact h.compare .le his hzero rfl
  case ibgez => exact h.compare .ge his hzero rfl
  all_goals exact ⟨h, rfl⟩

/-- A jump through a register masks the register times eight. -/
private theorem Represents.jump (h : Represents start d s) {memLength : Nat}
    (hlength : memLength ≤ 8 * UInt16.size) (p : Pair) :
    let scaled := d.push (.scale (d.read (isOf p)))
    let masked := scaled.2.push (.and scaled.1 (.const (targetMask memLength)))
    Represents start masked.2 s ∧
      masked.1.Holds start masked.2.gates
        (wrapOffset memLength (Pair.size * (value s.registers p.is).toNat)) := by
  intro scaled masked
  -- the mask of so small a memory does not see the sign of the register
  have hmask : (targetMask memLength).toNat < 8 * UInt16.size := by
    have hle := toNat_targetMask_le memLength
    have hdiv := Nat.div_mul_le_self (memLength - 1) Pair.size
    have hsize : UInt16.size = 65536 := rfl
    omega
  have hscale : (Gate.scale (d.read (isOf p))).value start (gateValues start d.gates) =
      widen (value s.registers p.is) <<< 3 := by
    rw [Gate.value, (h.read (isOf p)).value_eq]
    rfl
  obtain ⟨hpush, hscaled⟩ := h.push_holds hscale
  have hand : (Gate.and scaled.1 (.const (targetMask memLength))).value start
      (gateValues start scaled.2.gates) =
        wrapOffset memLength (Pair.size * (value s.registers p.is).toNat) := by
    rw [Gate.value, hscaled.value_eq]
    exact scale_and _ hmask
  exact hpush.push_holds hand

/-- The operand of a target holds the offset to which the interpreter would go. -/
theorem Represents.target (h : Represents start d s) {memLength : Nat}
    (hlength : memLength ≤ 8 * UInt16.size) (offset : Nat) (p : Pair) :
    Represents start (d.target memLength offset p).2 s ∧
      (d.target memLength offset p).1.Holds start (d.target memLength offset p).2.gates
        (Interpreter.target s.registers memLength offset p) := by
  have hjump := h.jump hlength p
  simp only [Draft.target, Interpreter.target]
  cases p.opcode
  case jr => exact hjump
  case jalr => exact hjump
  all_goals
    refine ⟨h, ?_⟩
    rw [wrapOffset, Int.mul_comm Pair.size p.imm11]
    exact Operand.holds_const _

/-- Computing a target keeps what was held before. -/
theorem keeps_target (start : Registers) (d : Draft) (memLength offset : Nat) (p : Pair) :
    Keeps start d.gates (d.target memLength offset p).2.gates := by
  intro o v h
  rw [Draft.target]
  split
  · exact (h.push _).push _
  · exact (h.push _).push _
  · exact h

/-- Writing the link keeps what was held before. -/
theorem keeps_link (start : Registers) (d : Draft) (offset : Nat) (p : Pair) :
    Keeps start d.gates (d.link offset p).gates := by
  intro o v h
  rw [Draft.link]
  split
  · exact keeps_write start d _ _ h
  · exact keeps_write start d _ _ h
  · exact h

theorem Represents.link (h : Represents start d s) (offset : Nat) (p : Pair) :
    Represents start (d.link offset p)
      { s with registers := Interpreter.link s.registers offset p } := by
  have hwrite := h.write (itOf p)
    (Operand.holds_const (UInt32.ofNat ((offset + 2 * Pair.size) / Pair.size)))
  rw [UInt32.toUInt16_ofNat'] at hwrite
  simp only [Draft.link, Interpreter.link]
  cases p.opcode
  case bal => exact hwrite
  case jalr => exact hwrite
  all_goals exact h

/-- A branch fixes its condition and its target before its link is written. -/
theorem Represents.branch (h : Represents start d s) {memLength : Nat}
    (hlength : memLength ≤ 8 * UInt16.size) (offset : Nat) (p : Pair) :
    Represents start (d.branch memLength offset p)
      (Interpreter.branch s memLength offset p) := by
  obtain ⟨hcondition, hdecides⟩ := h.condition p
  obtain ⟨htarget, hholds⟩ := hcondition.target hlength offset p
  have hlinked := htarget.link offset p
  -- condition and target are held already and survive the link, even into a register they read
  have hlink := keeps_link start ((d.condition p).2.target memLength offset p).2 offset p
  have hwaits := (hdecides.mono (keeps_target start _ memLength offset p)).waits hholds
  exact ⟨hlinked.held, hlinked.zeroth, hwaits.mono hlink, hlinked.kicks, hlinked.status⟩

/-! ### Pairs -/

/-- A branch in a delay slot is dropped. -/
theorem operation_of_isBranch (d : Draft) (memLength offset : Nat) {p : Pair}
    (hp : p.isBranch = true) (inSlot : Bool) :
    d.operation memLength offset p inSlot =
      if inSlot then d else d.branch memLength offset p := by
  rw [Pair.isBranch] at hp
  rw [Draft.operation]
  cases hop : p.opcode
  case b | bal | jr | jalr | ibeq | ibne | ibltz | ibgtz | iblez | ibgez =>
    cases inSlot <;> rfl
  all_goals
    rw [hop] at hp
    exact absurd hp (by decide)

theorem Represents.operation (h : Represents start d s) {memLength : Nat}
    (hlength : memLength ≤ 8 * UInt16.size) (offset : Nat) (p : Pair) (inSlot : Bool) :
    Represents start (d.operation memLength offset p inSlot)
      (if p.isBranch then if inSlot then s else Interpreter.branch s memLength offset p
        else { s with registers := Interpreter.arithmetic s.registers p }) := by
  by_cases hp : p.isBranch = true
  · rw [operation_of_isBranch d memLength offset hp, if_pos hp]
    cases inSlot with
    | true => exact h
    | false => exact h.branch hlength offset p
  · rw [if_neg hp]
    exact h.arithmetic (Bool.eq_false_iff.mpr hp) memLength offset inSlot

/-- Raising status bits. -/
theorem Represents.raise (h : Represents start d s) (bits : UInt32) :
    Represents start { d with status := d.status ||| bits }
      { s with registers := s.registers.raise bits } := by
  refine ⟨h.held, h.zeroth, h.waits, h.kicks, ?_⟩
  change s.registers.status ||| bits = start.status ||| (d.status ||| bits)
  rw [h.status, UInt32.or_assoc]

/-- The flags of a pair raise their status bits after its operation. -/
theorem pair_eq (d : Draft) (memLength offset : Nat) (p : Pair) (inSlot : Bool) :
    d.pair memLength offset p inSlot =
      { d.operation memLength offset p inSlot with
        status := (d.operation memLength offset p inSlot).status ||| flagStatus p } := by
  rw [Draft.pair, flagStatus]
  cases p.dBit <;> cases p.tBit <;> simp [UInt32.or_assoc]

/-- **Step.** A draft goes on standing for the state of the interpreter after one more pair. The
gates that the pair adds compute what the interpreter does with the values they stand for. -/
theorem Represents.pair (h : Represents start d s) {memLength : Nat}
    (hlength : memLength ≤ 8 * UInt16.size) (inSlot : Bool) (e : Sequence.Entry) :
    Represents start (d.pair memLength e.offset e.pair inSlot)
      (Interpreter.step memLength inSlot s e) := by
  rw [pair_eq, Interpreter.step]
  exact (h.operation hlength e.offset e.pair inSlot).raise (flagStatus e.pair)

/-- **Run.** So it does after any number of pairs, by induction on them. -/
theorem Represents.entries {memLength : Nat} (hlength : memLength ≤ 8 * UInt16.size) (inSlot : Bool)
    (h : Represents start d s) (es : List Sequence.Entry) :
    Represents start (Draft.entries memLength inSlot d es)
      (Interpreter.steps memLength inSlot s es) := by
  induction es generalizing inSlot d s with
  | nil => exact h
  | cons e rest ih => exact ih _ (h.pair hlength inSlot e)

/-! ### Leaving the block -/

/-- The exit is the target that waits, or else the offset behind the sequence. -/
theorem Represents.exit (h : Represents start d s) (behind : Nat) :
    Represents start (d.exit behind).2 s ∧
      (d.exit behind).1.Holds start (d.exit behind).2.gates
        (s.target.getD (UInt32.ofNat behind)) := by
  have hwaits := h.waits
  rw [Draft.exit]
  generalize d.transfer = transfer at hwaits ⊢
  generalize htarget : s.target = target at hwaits ⊢
  cases hwaits with
  | nothing => exact ⟨h, Operand.holds_const _⟩
  | always ht => exact ⟨h, ht⟩
  | @taken c t b v hc hb ht =>
    have hselect : (Gate.select c t (.const (UInt32.ofNat behind))).value start
        (gateValues start d.gates) = v := by
      rw [Gate.value, hc.value_eq, if_neg (by simpa using hb), ht.value_eq]
    exact h.push_holds hselect
  | @untaken c t hc =>
    have hselect : (Gate.select c t (.const (UInt32.ofNat behind))).value start
        (gateValues start d.gates) = UInt32.ofNat behind := by
      rw [Gate.value, hc.value_eq, if_pos (by decide)]
      rfl
    exact h.push_holds hselect

/-- The finished code stores the state that its draft stands for. -/
theorem Represents.run_toCode (h : Represents start d s) (behind length : Nat) (isFinal : Bool) :
    (d.toCode behind length isFinal).run start =
      { (if isFinal then s.registers.raise Status.ended else s.registers) with
        pc := s.target.getD (UInt32.ofNat behind) } := by
  obtain ⟨hexit, hpc⟩ := h.exit behind
  have hvi : (Vector.ofFn fun r : Registers.Index =>
      if r = 0 then start.vi.get r
      else (((d.exit behind).2.held.get r).value start
        (gateValues start (d.exit behind).2.gates)).toUInt16) = s.registers.vi := by
    apply Vector.ext
    intro i hi
    rw [Vector.getElem_ofFn]
    by_cases hr : (⟨i, hi⟩ : Registers.Index) = 0
    · -- the place of register 0 is stored back as it was
      obtain rfl : i = 0 := congrArg Fin.val hr
      exact hexit.zeroth.symm
    · rw [if_neg hr, (hexit.held _ hr).value_eq, toUInt16_widen, Registers.read, if_neg hr]
      rfl
  have hkick : ((d.exit behind).2.kick.map fun o =>
      o.value start (gateValues start (d.exit behind).2.gates)).getD start.kick =
        s.registers.kick := by
    have hkicks := hexit.kicks
    cases hk : (d.exit behind).2.kick with
    | none =>
      rw [hk] at hkicks
      exact hkicks.symm
    | some o =>
      rw [hk] at hkicks
      exact hkicks.value_eq
  have hstatus := hexit.status
  simp only [toCode, Code.run, hvi, hkick, hpc.value_eq]
  cases isFinal with
  | false => simp [hstatus]
  | true => simp [Registers.raise, hstatus, UInt32.or_assoc]

end Draft

end Code

open Code.Draft in
/-- **Translation.** In a memory of at most `8 * 65536` bytes, the code of a sequence does what
executing its pairs one after another does. -/
theorem Sequence.run_toCode (s : Sequence) (hlength : s.memLength ≤ 8 * UInt16.size)
    (regs : Registers) : s.toCode.run regs = s.interpret regs :=
  ((represents_empty regs).entries hlength false s.entries).run_toCode s.behind s.length s.isFinal

end VectorUnit
