import VectorUnit.Proofs.Gathering

/-!
# Documents in any layout

Branch tracking, registers and save states each have a schema (`Tracking.schema`,
`Registers.schema`, `SaveState.schema`); two of the values of a save state are sheets themselves. A
`SaveState.Layout` is what results: a document of a save state whose entries, and those of the
records within, stand in any order and have others between them. What `SaveState.encode` writes is
one of them (`SaveState.encode_plainLayout`).

What a layout is decoded as does not depend on anything but the values of the fields
(`SaveState.decode_of_layout`), with one exception: a key that is in pieces, or longer than one
part, cannot be read, not even to be skipped (`SaveState.decode_of_unreadable_key`).
-/

namespace VectorUnit

open Cbor

/-! ### Branch tracking -/

namespace Tracking

/-- The value of a field of branch tracking, under the field to which it belongs. The entries of a
sheet are made of these, and may name a field twice. -/
inductive Value where
  | reliance (r : Reliance)
  | enteredAt (offset : UInt32)
  | leftTo (offset : UInt32)
  | turns (count : UInt32)

/-- The field whose value it is. -/
def Value.key : Value → Key
  | reliance _ => .reliance
  | enteredAt _ => .enteredAt
  | leftTo _ => .leftTo
  | turns _ => .turns

/-- The value as it stands in a document. -/
def Value.bytes : Value → List UInt8
  | reliance r => (Item.text r.title).encode
  | enteredAt w | leftTo w | turns w => (ofWord w).encode

/-- What has been read when the value has been, too. -/
def Value.set (s : Partial) : Value → Partial
  | reliance r => { s with reliance := some r }
  | enteredAt w => { s with enteredAt := some w }
  | leftTo w => { s with leftTo := some w }
  | turns w => { s with turns := some w }

theorem has_set (v : Value) (s : Partial) (k : Key) :
    (v.set s).has k = true ↔ k = v.key ∨ s.has k = true := by
  cases v <;> cases k <;> simp [Value.set, Value.key, Partial.has]

/-- Values of different fields may be read in either order. -/
theorem set_comm {v w : Value} (hne : v.key ≠ w.key) (s : Partial) :
    v.set (w.set s) = w.set (v.set s) := by
  cases v with
  | reliance =>
    cases w with
    | reliance => exact absurd rfl hne
    | enteredAt | leftTo | turns => rfl
  | enteredAt =>
    cases w with
    | enteredAt => exact absurd rfl hne
    | reliance | leftTo | turns => rfl
  | leftTo =>
    cases w with
    | leftTo => exact absurd rfl hne
    | reliance | enteredAt | turns => rfl
  | turns =>
    cases w with
    | turns => exact absurd rfl hne
    | reliance | enteredAt | leftTo => rfl

/-- The first field that has not been read is found missing. -/
theorem complete_cases : ∀ s : Partial,
    ((∃ t, s.complete = .ok t) ∧ ∀ k, s.has k = true) ∨
      ∃ k : Key, s.has k = false ∧ s.complete = .error (.missingField k.name)
  | ⟨none, _, _, _⟩ => .inr ⟨.reliance, rfl, rfl⟩
  | ⟨some _, none, _, _⟩ => .inr ⟨.enteredAt, rfl, rfl⟩
  | ⟨some _, some _, none, _⟩ => .inr ⟨.leftTo, rfl, rfl⟩
  | ⟨some _, some _, some _, none⟩ => .inr ⟨.turns, rfl, rfl⟩
  | ⟨some _, some _, some _, some _⟩ => .inl ⟨⟨_, rfl⟩, fun k => by cases k <;> rfl⟩

/-- Branch tracking with the values of its fields. -/
def schema : Schema Key Partial Value Tracking where
  toRecord := record
  key := Value.key
  bytes := Value.bytes
  update v := .ok fun s => v.set s

theorem lawful_schema (depth : Nat) : schema.Lawful (depth + 1) where
  mem_keys k := by cases k <;> decide
  name_injective k k' := by cases k <;> cases k' <;> decide
  length_name k := by cases k <;> decide
  gives_fill v s := by
    cases v with
    | reliance r => exact (r.reads_title depth).bind_pure (.pure _)
    | enteredAt w | leftTo w | turns w => exact (reads_word w).bind_pure (.pure _)
  has_empty k := by cases k <;> rfl
  has_update v update hupdate := by
    obtain rfl := Except.ok.inj hupdate
    exact has_set v
  update_comm v w update update' hupdate hupdate' hne := by
    obtain rfl := Except.ok.inj hupdate
    obtain rfl := Except.ok.inj hupdate'
    exact set_comm hne
  complete_cases := complete_cases

theorem gives_read {depth : Nat} (hdepth : foreignLevels ≤ depth + 1) (sheet : Sheet schema) :
    Gives (Tracking.read (depth + 2)) sheet.encode (schema.outcome sheet) :=
  (lawful_schema depth).gives_read hdepth sheet

/-- The values of the fields of branch tracking. -/
def values (t : Tracking) : List Value :=
  [.reliance t.reliance, .enteredAt t.enteredAt, .leftTo t.leftTo, .turns t.turns]

theorem result_values (t : Tracking) : schema.result t.values = .ok t := rfl

/-- Branch tracking as it is written: its fields in their order, and no other entries. -/
def sheet (t : Tracking) : Sheet schema :=
  .ofValues schema t.values (show 4 < UInt64.size by decide)

theorem encode_sheet (t : Tracking) : t.sheet.encode = t.toItem.encode :=
  Sheet.encode_ofValues (show _ = t.entries.map _ from rfl)

end Tracking

/-! ### Registers -/

namespace Registers

/-- The value of a field of registers, under the field to which it belongs. All integer registers
together are one value. -/
inductive Value where
  | vi (places : Vector UInt16 16)
  | pc (offset : UInt32)
  | status (bits : UInt32)
  | kick (address : UInt32)

/-- The field whose value it is. -/
def Value.key : Value → Key
  | vi _ => .vi
  | pc _ => .pc
  | status _ => .status
  | kick _ => .kick

/-- The value as it stands in a document. -/
def Value.bytes : Value → List UInt8
  | vi places => (Item.array (places.toList.map fun v => .unsigned v.toNat)).encode
  | pc w | status w | kick w => (ofWord w).encode

/-- What has been read when the value has been, too. -/
def Value.set (s : Partial) : Value → Partial
  | vi places => { s with vi := some places.toList }
  | pc w => { s with pc := some w }
  | status w => { s with status := some w }
  | kick w => { s with kick := some w }

theorem has_set (v : Value) (s : Partial) (k : Key) :
    (v.set s).has k = true ↔ k = v.key ∨ s.has k = true := by
  cases v <;> cases k <;> simp [Value.set, Value.key, Partial.has]

/-- Values of different fields may be read in either order. -/
theorem set_comm {v w : Value} (hne : v.key ≠ w.key) (s : Partial) :
    v.set (w.set s) = w.set (v.set s) := by
  cases v with
  | vi =>
    cases w with
    | vi => exact absurd rfl hne
    | pc | status | kick => rfl
  | pc =>
    cases w with
    | pc => exact absurd rfl hne
    | vi | status | kick => rfl
  | status =>
    cases w with
    | status => exact absurd rfl hne
    | vi | pc | kick => rfl
  | kick =>
    cases w with
    | kick => exact absurd rfl hne
    | vi | pc | status => rfl

/-- The first field that has not been read is found missing. -/
theorem complete_cases : ∀ s : Partial,
    ((∃ r, s.complete = .ok r) ∧ ∀ k, s.has k = true) ∨
      ∃ k : Key, s.has k = false ∧ s.complete = .error (.missingField k.name)
  | ⟨none, _, _, _⟩ => .inr ⟨.vi, rfl, rfl⟩
  | ⟨some _, none, _, _⟩ => .inr ⟨.pc, rfl, rfl⟩
  | ⟨some _, some _, none, _⟩ => .inr ⟨.status, rfl, rfl⟩
  | ⟨some _, some _, some _, none⟩ => .inr ⟨.kick, rfl, rfl⟩
  | ⟨some _, some _, some _, some _⟩ => .inl ⟨⟨_, rfl⟩, fun k => by cases k <;> rfl⟩

/-- Registers with the values of their fields. -/
def schema : Schema Key Partial Value Registers where
  toRecord := record
  key := Value.key
  bytes := Value.bytes
  update v := .ok fun s => v.set s

theorem lawful_schema (depth : Nat) : schema.Lawful (depth + 1) where
  mem_keys k := by cases k <;> decide
  name_injective k k' := by cases k <;> cases k' <;> decide
  length_name k := by cases k <;> decide
  gives_fill v s := by
    cases v with
    | vi places => exact (reads_vi places depth).bind_pure (.pure _)
    | pc w | status w | kick w => exact (reads_word w).bind_pure (.pure _)
  has_empty k := by cases k <;> rfl
  has_update v update hupdate := by
    obtain rfl := Except.ok.inj hupdate
    exact has_set v
  update_comm v w update update' hupdate hupdate' hne := by
    obtain rfl := Except.ok.inj hupdate
    obtain rfl := Except.ok.inj hupdate'
    exact set_comm hne
  complete_cases := complete_cases

theorem gives_readRecord {depth : Nat} (hdepth : foreignLevels ≤ depth + 1)
    (sheet : Sheet schema) :
    Gives (Registers.readRecord (depth + 2)) sheet.encode (schema.outcome sheet) :=
  (lawful_schema depth).gives_read hdepth sheet

/-- The values of the fields of registers. -/
def values (r : Registers) : List Value :=
  [.vi r.vi, .pc r.pc, .status r.status, .kick r.kick]

theorem result_values (r : Registers) : schema.result r.values = .ok r :=
  r.complete_eq

/-- Registers as they are written: the fields in their order, and no other entries. -/
def sheet (r : Registers) : Sheet schema :=
  .ofValues schema r.values (show 4 < UInt64.size by decide)

theorem encode_sheet (r : Registers) : r.sheet.encode = r.toItem.encode :=
  Sheet.encode_ofValues (show _ = r.entries.map _ from rfl)

end Registers

/-! ### Save states -/

namespace SaveState

/-- The value of a field of a save state, as it may stand in a document. Two of the fields are
records themselves, whose entries may stand in any order too. -/
inductive Value where
  | kind (k : UnitKind)
  | microcode (m : Memory) (hsize : m.size < UInt64.size)
  | tracking (sheet : Sheet Tracking.schema)
  | registers (sheet : Sheet Registers.schema)

/-- The field whose value it is. -/
def Value.key : Value → Key
  | kind _ => .kind
  | microcode _ _ => .microcode
  | tracking _ => .tracking
  | registers _ => .registers

/-- The value as it stands in a document. -/
def Value.bytes : Value → List UInt8
  | kind k => (Item.text k.title).encode
  | microcode m _ => (Item.array (m.toList.map fun b => .unsigned b.toNat)).encode
  | tracking sheet => sheet.encode
  | registers sheet => sheet.encode

/-- What has been read from a value. It is the value itself unless that is a sheet, which has become
a record by then. -/
inductive Content where
  | kind (k : UnitKind)
  | microcode (m : Memory)
  | tracking (t : Tracking)
  | registers (r : Registers)

/-- The field whose content it is. -/
def Content.key : Content → Key
  | kind _ => .kind
  | microcode _ => .microcode
  | tracking _ => .tracking
  | registers _ => .registers

/-- What has been read when the content has been, too. -/
def Content.set (s : Partial) : Content → Partial
  | kind k => { s with kind := some k }
  | microcode m => { s with microcode := some m }
  | tracking t => { s with tracking := some t }
  | registers r => { s with registers := some r }

/-- What reading the value makes of what has been read. A sheet that does not become a record cannot
be read, and so the save state is refused with its problem. -/
def Value.update : Value → Except Problem (Partial → Partial)
  | kind k => .ok fun s => Content.set s (.kind k)
  | microcode m _ => .ok fun s => Content.set s (.microcode m)
  | tracking sheet => (Tracking.schema.outcome sheet).map fun t s => Content.set s (.tracking t)
  | registers sheet => (Registers.schema.outcome sheet).map fun r s => Content.set s (.registers r)

/-- A value that can be read is put in the place of its field. -/
theorem update_eq_ok {v : Value} {update : Partial → Partial} (h : v.update = .ok update) :
    ∃ c : Content, c.key = v.key ∧ update = fun s => c.set s := by
  cases v with
  | kind k => exact ⟨.kind k, rfl, (Except.ok.inj h).symm⟩
  | microcode m hsize => exact ⟨.microcode m, rfl, (Except.ok.inj h).symm⟩
  | tracking sheet =>
    obtain ⟨t, -, heq⟩ := exists_of_map_eq_ok h
    exact ⟨.tracking t, rfl, heq.symm⟩
  | registers sheet =>
    obtain ⟨r, -, heq⟩ := exists_of_map_eq_ok h
    exact ⟨.registers r, rfl, heq.symm⟩

theorem has_set (c : Content) (s : Partial) (k : Key) :
    (c.set s).has k = true ↔ k = c.key ∨ s.has k = true := by
  cases c <;> cases k <;> simp [Content.set, Content.key, Partial.has]

/-- The contents of different fields may be read in either order. -/
theorem set_comm {c d : Content} (hne : c.key ≠ d.key) (s : Partial) :
    c.set (d.set s) = d.set (c.set s) := by
  cases c with
  | kind =>
    cases d with
    | kind => exact absurd rfl hne
    | microcode | tracking | registers => rfl
  | microcode =>
    cases d with
    | microcode => exact absurd rfl hne
    | kind | tracking | registers => rfl
  | tracking =>
    cases d with
    | tracking => exact absurd rfl hne
    | kind | microcode | registers => rfl
  | registers =>
    cases d with
    | registers => exact absurd rfl hne
    | kind | microcode | tracking => rfl

/-- The first field that has not been read is found missing. -/
theorem complete_cases : ∀ p : Partial,
    ((∃ s, p.complete = .ok s) ∧ ∀ k, p.has k = true) ∨
      ∃ k : Key, p.has k = false ∧ p.complete = .error (.missingField k.name)
  | ⟨none, _, _, _⟩ => .inr ⟨.kind, rfl, rfl⟩
  | ⟨some _, none, _, _⟩ => .inr ⟨.microcode, rfl, rfl⟩
  | ⟨some _, some _, none, _⟩ => .inr ⟨.tracking, rfl, rfl⟩
  | ⟨some _, some _, some _, none⟩ => .inr ⟨.registers, rfl, rfl⟩
  | ⟨some _, some _, some _, some _⟩ => .inl ⟨⟨_, rfl⟩, fun k => by cases k <;> rfl⟩

/-- A save state with the values of its fields. -/
def schema : Schema Key Partial Value SaveState where
  toRecord := record
  key := Value.key
  bytes := Value.bytes
  update := Value.update

theorem lawful_schema {depth : Nat} (hdepth : foreignLevels ≤ depth + 1) :
    schema.Lawful (depth + 2) where
  mem_keys k := by cases k <;> decide
  name_injective k k' := by cases k <;> cases k' <;> decide
  length_name k := by cases k <;> decide
  gives_fill v s := by
    cases v with
    | kind k => exact (k.reads_title (depth + 1)).bind_pure (.pure _)
    | microcode m hsize =>
      exact (reads_readBytes m.toList (depth + 1) hsize).bind_pure (.pure _)
    | tracking sheet => exact (Tracking.gives_read hdepth sheet).update _ s
    | registers sheet => exact (Registers.gives_readRecord hdepth sheet).update _ s
  has_empty k := by cases k <;> rfl
  has_update v update hupdate s k := by
    obtain ⟨c, hkey, rfl⟩ := update_eq_ok hupdate
    show (c.set s).has k = true ↔ k = v.key ∨ s.has k = true
    rw [has_set, hkey]
  update_comm v w update update' hupdate hupdate' hne := by
    obtain ⟨c, hkey, rfl⟩ := update_eq_ok hupdate
    obtain ⟨d, hkey', rfl⟩ := update_eq_ok hupdate'
    have hne' : c.key ≠ d.key := by
      rw [hkey, hkey']
      exact hne
    exact set_comm hne'
  complete_cases := complete_cases

/-- A save state as it may stand in a document: the entries of the record and of the records within
it in any order, with others between them. -/
abbrev Layout : Type :=
  Sheet schema

theorem gives_read {depth : Nat} (hdepth : foreignLevels ≤ depth + 1) (d : Layout) :
    Gives (SaveState.read (depth + 3)) d.encode (schema.outcome d) :=
  (lawful_schema hdepth).gives_read (Nat.le_succ_of_le hdepth) d

/-- What a document is decoded as is what becomes of its entries, whatever follows it. -/
theorem decode_encode_layout (d : Layout) (rest : List UInt8) :
    decode (d.encode ++ rest) = (schema.outcome d).mapError .unexpected := by
  have hread : Gives (SaveState.read maxDepth) d.encode (schema.outcome d) :=
    gives_read (show foreignLevels ≤ 253 + 1 by decide) d
  rw [decode, Reader.ofDocument]
  cases houtcome : schema.outcome d with
  | ok s =>
    rw [houtcome] at hread
    rw [hread _ rest]
    rfl
  | error problem =>
    rw [houtcome] at hread
    rw [hread _ rest]
    rfl

/-- The fields that stand in the document are those of the save state, each of them once, and the
same is true of the two records within it. -/
def Layout.Holds (d : Layout) (s : SaveState) : Prop :=
  ∃ (hsize : s.microcode.size < UInt64.size) (tracking : Sheet Tracking.schema)
      (registers : Sheet Registers.schema),
    d.values.Perm [.kind s.kind, .microcode s.microcode hsize, .tracking tracking,
        .registers registers] ∧
      tracking.values.Perm s.tracking.values ∧ registers.values.Perm s.registers.values

/-- The keys that are not names of fields are plain, also in the records within. A key of one record
may be the name of a field of another one. -/
structure Layout.IsPlain (d : Layout) : Prop where
  outer : Sheet.IsPlain d
  tracking : ∀ sheet, .tracking sheet ∈ d.values → sheet.IsPlain
  registers : ∀ sheet, .registers sheet ∈ d.values → sheet.IsPlain

/-- The problem names a field that does not stand exactly once in the record to which it belongs,
which is the document itself or one of the two records within it. -/
inductive Layout.IsFault (d : Layout) (problem : Problem) : Prop where
  | outer (h : schema.IsFault d.values problem)
  | tracking {sheet : Sheet Tracking.schema} (hsheet : .tracking sheet ∈ d.values)
      (h : Tracking.schema.IsFault sheet.values problem)
  | registers {sheet : Sheet Registers.schema} (hsheet : .registers sheet ∈ d.values)
      (h : Registers.schema.IsFault sheet.values problem)

/-! ### The layout that is written -/

/-- The values of the fields of a save state, as they are written. -/
def values (s : SaveState) (hsize : s.microcode.size < UInt64.size) : List Value :=
  [.kind s.kind, .microcode s.microcode hsize, .tracking s.tracking.sheet,
    .registers s.registers.sheet]

/-- A save state as it is written: its fields in their order, and no other entries. -/
def plainLayout (s : SaveState) (hsize : s.microcode.size < UInt64.size) : Layout :=
  .ofValues schema (s.values hsize) (show 4 < UInt64.size by decide)

theorem encode_plainLayout (s : SaveState) (hsize : s.microcode.size < UInt64.size) :
    (s.plainLayout hsize).encode = s.encode := by
  have htracking : Sheet.entryBytes schema (.field (.tracking s.tracking.sheet)) =
      (Item.text Key.tracking.name).encode ++ s.tracking.toItem.encode :=
    congrArg (_ ++ ·) s.tracking.encode_sheet
  have hregisters : Sheet.entryBytes schema (.field (.registers s.registers.sheet)) =
      (Item.text Key.registers.name).encode ++ s.registers.toItem.encode :=
    congrArg (_ ++ ·) s.registers.encode_sheet
  refine Sheet.encode_ofValues (show _ = s.entries.map _ from ?_)
  simp only [values, List.map_cons, htracking, hregisters]
  rfl

theorem isPlain_plainLayout (s : SaveState) (hsize : s.microcode.size < UInt64.size) :
    (s.plainLayout hsize).IsPlain where
  outer := Sheet.isPlain_ofValues
  tracking sheet hsheet := by
    obtain rfl : sheet = s.tracking.sheet := by
      simpa [plainLayout, Sheet.values_ofValues, values] using hsheet
    exact Sheet.isPlain_ofValues
  registers sheet hsheet := by
    obtain rfl : sheet = s.registers.sheet := by
      simpa [plainLayout, Sheet.values_ofValues, values] using hsheet
    exact Sheet.isPlain_ofValues

theorem holds_plainLayout (s : SaveState) (hsize : s.microcode.size < UInt64.size) :
    (s.plainLayout hsize).Holds s :=
  ⟨hsize, s.tracking.sheet, s.registers.sheet, .refl _, .refl _, .refl _⟩

/-! ### What becomes of a layout -/

/-- A document that holds a save state becomes that save state. -/
theorem outcome_of_holds {d : Layout} {s : SaveState} (hplain : d.IsPlain) (h : d.Holds s) :
    schema.outcome d = .ok s := by
  obtain ⟨hsize, tracking, registers, hperm, htracking, hregisters⟩ := h
  have htracking' : Tracking.schema.outcome tracking = .ok s.tracking :=
    (Tracking.lawful_schema 0).outcome_of_perm
      (hplain.tracking tracking (hperm.mem_iff.mpr (by simp))) htracking s.tracking.result_values
  have hregisters' : Registers.schema.outcome registers = .ok s.registers :=
    (Registers.lawful_schema 0).outcome_of_perm
      (hplain.registers registers (hperm.mem_iff.mpr (by simp))) hregisters
      s.registers.result_values
  have hupdate : schema.update (.tracking tracking) =
      .ok fun p => { p with tracking := some s.tracking } := by
    show (Tracking.schema.outcome tracking).map _ = _
    rw [htracking']
    rfl
  have hupdate' : schema.update (.registers registers) =
      .ok fun p => { p with registers := some s.registers } := by
    show (Registers.schema.outcome registers).map _ = _
    rw [hregisters']
    rfl
  refine (lawful_schema (Nat.le_succ foreignLevels)).outcome_of_perm hplain.outer
    hperm ?_
  rw [Schema.result, Schema.gather_cons rfl rfl, Schema.gather_cons rfl rfl,
    Schema.gather_cons rfl hupdate, Schema.gather_cons rfl hupdate']
  rfl

/-- A document that becomes a save state has each field once in the record to which it belongs. -/
theorem not_isFault_of_outcome_eq_ok {d : Layout} {s : SaveState}
    (h : schema.outcome d = .ok s) (problem : Problem) : ¬ d.IsFault problem := by
  obtain ⟨houter, hvalues⟩ :=
    (lawful_schema (Nat.le_succ foreignLevels)).outcome_eq_ok h
  intro hfault
  cases hfault with
  | outer hfault => exact houter problem hfault
  | tracking hsheet hfault =>
    obtain ⟨update, hupdate⟩ := hvalues _ hsheet
    obtain ⟨t, ht, -⟩ := exists_of_map_eq_ok hupdate
    exact ((Tracking.lawful_schema 0).outcome_eq_ok ht).1 problem hfault
  | registers hsheet hfault =>
    obtain ⟨update, hupdate⟩ := hvalues _ hsheet
    obtain ⟨r, hr, -⟩ := exists_of_map_eq_ok hupdate
    exact ((Registers.lawful_schema 0).outcome_eq_ok hr).1 problem hfault

/-- A document with plain keys is refused because of a field that does not stand exactly once in the
record to which it belongs. -/
theorem isFault_of_outcome_eq_error {d : Layout} (hplain : d.IsPlain) {problem : Problem}
    (h : schema.outcome d = .error problem) : d.IsFault problem := by
  rcases (lawful_schema (Nat.le_succ foreignLevels)).outcome_eq_error hplain.outer h
    with hfault | ⟨v, hv, hupdate⟩
  · exact .outer hfault
  · cases v with
    | kind k => cases hupdate
    | microcode m hsize => cases hupdate
    | tracking sheet =>
      rcases (Tracking.lawful_schema 0).outcome_eq_error (hplain.tracking sheet hv)
        (eq_error_of_map_eq_error hupdate) with hfault | ⟨v, -, hupdate⟩
      · exact .tracking hv hfault
      · cases hupdate
    | registers sheet =>
      rcases (Registers.lawful_schema 0).outcome_eq_error (hplain.registers sheet hv)
        (eq_error_of_map_eq_error hupdate) with hfault | ⟨v, -, hupdate⟩
      · exact .registers hv hfault
      · cases hupdate

/-- Another entry may be put in front. -/
def Layout.cons (d : Layout) (e : Foreign schema.names)
    (hlength : d.entries.length + 1 < UInt64.size) : Layout :=
  ⟨.foreign e :: d.entries, hlength⟩

/-- A document is refused because of its first key if that is not plain. -/
theorem decode_cons_of_not_isPlain {d : Layout} {e : Foreign schema.names}
    {hlength : d.entries.length + 1 < UInt64.size} (hplain : ¬ e.IsPlain) :
    decode (d.cons e hlength).encode = .error (.unexpected e.problem) := by
  have hstore : schema.storeEntry (.foreign e) schema.empty = .error e.problem := if_neg hplain
  have houtcome : schema.outcome (d.cons e hlength) = .error e.problem := by
    rw [Schema.outcome, Layout.cons, Schema.collect, hstore]
    rfl
  rw [← List.append_nil (d.cons e hlength).encode, decode_encode_layout, houtcome]
  rfl

/-! ### Examples of layouts -/

/-- A text of so many bytes. -/
def longText (length : Nat) : String :=
  String.ofList (List.replicate length 'k')

theorem length_utf8_longText (length : Nat) : (utf8 (longText length)).length = length := by
  rw [utf8, longText, String.toUTF8_eq_toByteArray, String.toByteArray_ofList, List.utf8Encode]
  simp [List.length_flatMap, show 'k'.utf8Size = 1 from rfl]

/-- The least number, as the value of an entry. -/
theorem spells_zero : Spells foreignLevels [initialByte unsignedMajor 0] :=
  .unsigned (.short (by decide))

/-- An entry whose key has one byte more than fit into one part. -/
def longKey : Foreign schema.names :=
  .ofKey (longText (partLength + 1))
    (fun hmem => by
      obtain ⟨k, -, hname⟩ := List.mem_map.mp hmem
      have hle := (lawful_schema (Nat.le_succ foreignLevels)).length_name k
      rw [hname, length_utf8_longText] at hle
      omega)
    (by rw [length_utf8_longText]; decide)
    spells_zero

/-- An entry whose key is in pieces. -/
def brokenKey : Foreign schema.names where
  key := "note"
  hkey := by decide
  length? := none
  front := [initialByte textMajor 31]
  hfront := .indefinite
  back := ([([initialByte textMajor (utf8 "note").length], utf8 "note")].flatMap fun part =>
    part.1 ++ part.2) ++ [breakByte]
  hback := by
    have hparts : ∀ part ∈ [([initialByte textMajor (utf8 "note").length], utf8 "note")],
        IsHead textMajor (some part.2.length) part.1 ∧ isText part.2 = true :=
      List.forall_mem_singleton.mpr ⟨.short (by decide), isText_utf8 "note"⟩
    exact @IsString.pieces textMajor (isText · = true) _ hparts
  value := [initialByte unsignedMajor 0]
  hvalue := spells_zero

/-- The document of a save state with another entry in front. -/
def prefaced (e : Foreign schema.names) : Layout :=
  (widthsState.plainLayout (by decide +kernel)).cons e (show 4 + 1 < UInt64.size by decide)

/-- An array that ends at a break, of a number and a map. -/
def nested : List UInt8 :=
  [initialByte arrayMajor 31] ++
    ([[initialByte negativeMajor 0],
      [initialByte mapMajor 1] ++
        (([([initialByte unsignedMajor 7], [initialByte bytesMajor 1] ++ [255])].map
          fun e => e.1 ++ e.2).flatten ++ [])].flatten ++ [breakByte])

theorem spells_nested : Spells foreignLevels nested := by
  refine .array .indefinite .broken ?_
  simp only [List.forall_mem_cons]
  refine ⟨.negative (.short (by decide)), ?_, by simp⟩
  refine .map (.short (by decide)) .counted ?_ ?_
  · simp only [List.forall_mem_cons]
    exact ⟨.unsigned (.short (by decide)), by simp⟩
  · simp only [List.forall_mem_cons]
    have hstring : IsString bytesMajor (fun _ => True) (some [(255 : UInt8)].length) [255] [255] :=
      .whole trivial
    exact ⟨.bytes (.short (by decide)) hstring, by simp⟩

/-- Registers in reverse, with another entry between them. -/
def shuffledRegisters (r : Registers) : Sheet Registers.schema :=
  ⟨[.field (.kick r.kick), .field (.status r.status),
    .foreign (.ofKey "note" (by decide) (by decide) spells_nested), .field (.pc r.pc),
    .field (.vi r.vi)], show 5 < UInt64.size by decide⟩

/-- A save state in reverse, with an entry in front whose key is that of a field elsewhere. -/
def shuffled (s : SaveState) (hsize : s.microcode.size < UInt64.size)
    (registers : Sheet Registers.schema) : Layout :=
  ⟨[.foreign (.ofKey Registers.Key.pc.name (by decide) (by decide) spells_nested),
    .field (.registers registers), .field (.tracking s.tracking.sheet),
    .field (.microcode s.microcode hsize), .field (.kind s.kind)],
    show 5 < UInt64.size by decide⟩

theorem isPlain_shuffled (s : SaveState) (hsize : s.microcode.size < UInt64.size)
    {registers : Sheet Registers.schema} (hregisters : registers.IsPlain) :
    (shuffled s hsize registers).IsPlain := by
  have hvalues : (shuffled s hsize registers).values = [.registers registers,
    .tracking s.tracking.sheet, .microcode s.microcode hsize, .kind s.kind] := rfl
  refine ⟨fun e he => ?_, fun sheet hsheet => ?_, fun sheet hsheet => ?_⟩
  · simp only [shuffled, List.mem_cons, Entry.foreign.injEq, reduceCtorEq, List.not_mem_nil,
      or_false] at he
    subst he
    decide
  · obtain rfl : sheet = s.tracking.sheet := by simpa [hvalues] using hsheet
    exact Sheet.isPlain_ofValues
  · obtain rfl : sheet = registers := by simpa [hvalues] using hsheet
    exact hregisters

theorem isPlain_shuffledRegisters (r : Registers) : (shuffledRegisters r).IsPlain := by
  intro e he
  simp only [shuffledRegisters, List.mem_cons, Entry.foreign.injEq, reduceCtorEq, List.not_mem_nil,
    or_false, false_or] at he
  subst he
  decide

theorem holds_shuffled (s : SaveState) (hsize : s.microcode.size < UInt64.size) :
    (shuffled s hsize (shuffledRegisters s.registers)).Holds s :=
  ⟨hsize, s.tracking.sheet, shuffledRegisters s.registers,
    List.reverse_perm [Value.kind s.kind, .microcode s.microcode hsize,
      .tracking s.tracking.sheet, .registers (shuffledRegisters s.registers)],
    .refl _, List.reverse_perm s.registers.values⟩

/-! ### Decoding -/

/-- **Layouts.** A document that holds a save state is decoded as that save state, in whatever order
the entries of its records stand, whatever other entries with plain keys stand between them, and
whatever follows the document. A document in which a field is missing or stands more than once, in
the record itself or in one of those within it, is refused as one whose items do not fit; if its
other keys are plain, the problem names such a field. The document that is written for a save state
is one of those that hold it, with plain keys only. -/
theorem decode_of_layout (d : Layout) (rest : List UInt8) :
    (d.IsPlain → ∀ s, d.Holds s → decode (d.encode ++ rest) = .ok s) ∧
      ((∃ problem, d.IsFault problem) → ∃ problem,
        decode (d.encode ++ rest) = .error (.unexpected problem) ∧
          (d.IsPlain → d.IsFault problem)) ∧
      ∀ s : SaveState, s.microcode.size < UInt64.size →
        ∃ plain : Layout, plain.encode = s.encode ∧ plain.IsPlain ∧ plain.Holds s := by
  rw [decode_encode_layout]
  refine ⟨fun hplain s hholds => ?_, fun ⟨problem, hfault⟩ => ?_, fun s hsize => ?_⟩
  · rw [outcome_of_holds hplain hholds]
    rfl
  · cases houtcome : schema.outcome d with
    | ok s => exact absurd hfault (not_isFault_of_outcome_eq_ok houtcome problem)
    | error problem' =>
      exact ⟨problem', rfl, fun hplain => isFault_of_outcome_eq_error hplain houtcome⟩
  · exact ⟨s.plainLayout hsize, s.encode_plainLayout hsize, s.isPlain_plainLayout hsize,
      s.holds_plainLayout hsize⟩

/-- The registers of the second document have a field twice. -/
theorem decode_of_layout_of_shuffled :
    let registers := widthsState.registers
    let d := shuffled widthsState (by decide +kernel) (shuffledRegisters registers)
    let d' := shuffled widthsState (by decide +kernel)
      ⟨.field (.pc 0) :: (shuffledRegisters registers).entries, show 6 < UInt64.size by decide⟩
    d.IsPlain ∧ d.Holds widthsState ∧ decode (d.encode ++ [0]) = .ok widthsState ∧
      d'.IsPlain ∧ d'.IsFault (.repeatedField "pc") ∧
      (∃ problem, decode (d'.encode ++ [0]) = .error (.unexpected problem) ∧
        d'.IsFault problem) ∧
      widthsState.microcode.size < UInt64.size ∧
      ∃ plain : Layout, plain.encode = widthsState.encode ∧ plain.IsPlain ∧
        plain.Holds widthsState := by
  intro registers d d'
  have hsize : widthsState.microcode.size < UInt64.size := by decide +kernel
  have hplain : d.IsPlain := isPlain_shuffled _ _ (isPlain_shuffledRegisters registers)
  have hholds : d.Holds widthsState := holds_shuffled widthsState hsize
  have hplain' : d'.IsPlain := isPlain_shuffled _ _ fun e he =>
    isPlain_shuffledRegisters registers e (by simpa using he)
  have hfault : d'.IsFault (.repeatedField "pc") :=
    .registers (List.mem_cons_self) (.repeated (k := Registers.Key.pc) (by decide +kernel))
  obtain ⟨hdecode, -, hwritten⟩ := decode_of_layout d [0]
  obtain ⟨problem, herror, hproblem⟩ := (decode_of_layout d' [0]).2.1 ⟨_, hfault⟩
  exact ⟨hplain, hholds, hdecode hplain widthsState hholds, hplain', hfault,
    ⟨problem, herror, hproblem hplain'⟩, hsize, hwritten widthsState hsize⟩

/-- Documents with other entries are not decoded if a key is too long or in pieces. -/
theorem decode_of_unreadable_key :
    ((prefaced longKey).Holds widthsState ∧ decode (prefaced longKey).encode =
        .error (.unexpected (.wrongKind (.text (some (partLength + 1))) "str or bytes"))) ∧
      (prefaced brokenKey).Holds widthsState ∧ decode (prefaced brokenKey).encode =
        .error (.unexpected (.wrongKind (.text none) "str or bytes")) := by
  have hholds : ∀ e, (prefaced e).Holds widthsState := fun e =>
    holds_plainLayout widthsState (by decide +kernel)
  refine ⟨⟨hholds longKey, ?_⟩, hholds brokenKey, ?_⟩
  · have hplain : ¬ longKey.IsPlain := by
      show ¬ (some (utf8 (longText (partLength + 1))).length).any (· ≤ partLength) = true
      rw [length_utf8_longText]
      decide
    have hlength? : longKey.length? = some (partLength + 1) :=
      congrArg some (length_utf8_longText (partLength + 1))
    have h : decode (prefaced longKey).encode = .error (.unexpected longKey.problem) :=
      decode_cons_of_not_isPlain hplain
    rw [h, Foreign.problem, hlength?]
  · exact decode_cons_of_not_isPlain (show ¬ brokenKey.IsPlain by decide)

end SaveState

end VectorUnit
