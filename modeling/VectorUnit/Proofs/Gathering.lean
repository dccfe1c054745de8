import Mathlib.Data.List.Perm.Basic
import VectorUnit.Proofs.Skipping

/-!
# Records in any order

A `Schema` says how the values of a record's fields are written and what each of them makes of the
state in which they are gathered. A `Sheet` is a record as it may stand in a document: entries of
its fields and of other keys, in any order. What the reader of a record finds in a sheet is what
comes of a computation on its entries (`Cbor.Schema.outcome`, `Cbor.Schema.Lawful.gives_read`), and
everything else is said about that computation.

Other entries make no difference to it as long as their keys can be read
(`Cbor.Schema.outcome_of_isPlain`). Where each field stands once, the order does not matter
(`Cbor.Schema.Lawful.outcome_of_perm`), and otherwise the record is refused because of a field that
is missing or stands twice (`Cbor.Schema.Lawful.outcome_eq_ok`,
`Cbor.Schema.Lawful.outcome_eq_error`).
-/

namespace VectorUnit

namespace Cbor

variable {α β κ σ ν ρ : Type}

/-! ### Readers that may find something that does not fit -/

/-- The reader takes the bytes from the front of any input and gives the value, or it finds the
problem there. -/
def Gives (reader : Reader α) (bytes : List UInt8) : (outcome : Except Problem α) → Prop
  | .ok a => Reads reader bytes a
  | .error problem => ∀ total rest, reader total (bytes ++ rest) = .error (.unexpected problem)

section Sequencing

variable {x : Reader α} {f : α → Reader β} {bytes bytes' : List UInt8}

theorem Reads.bind_gives {a : α} {outcome : Except Problem β} (hx : Reads x bytes a)
    (hf : Gives (f a) bytes' outcome) : Gives (x >>= f) (bytes ++ bytes') outcome := by
  cases outcome with
  | ok b => exact hx.bind hf
  | error problem =>
    intro total rest
    rw [List.append_assoc, bind_apply (hx total _)]
    exact hf total rest

theorem Gives.bind {outcome : Except Problem α} {outcome' : α → Except Problem β}
    (hx : Gives x bytes outcome) (hf : ∀ a, outcome = .ok a → Gives (f a) bytes' (outcome' a)) :
    Gives (x >>= f) (bytes ++ bytes') (outcome >>= outcome') := by
  cases outcome with
  | ok a => exact Reads.bind_gives hx (hf a rfl)
  | error problem =>
    intro total rest
    rw [List.append_assoc]
    exact bind_apply_of_error (hx total _)

/-- What follows takes nothing. -/
theorem Gives.bind_pure {outcome : Except Problem α} {outcome' : α → Except Problem β}
    (hx : Gives x bytes outcome) (hf : ∀ a, Gives (f a) [] (outcome' a)) :
    Gives (x >>= f) bytes (outcome >>= outcome') := by
  have h := hx.bind fun a _ => hf a
  rwa [List.append_nil] at h

/-- What is read changes a state. -/
theorem Gives.update {outcome : Except Problem α} (hx : Gives x bytes outcome)
    (update : α → σ → σ) (state : σ) :
    Gives (do return update (← x) state) bytes
      ((outcome.map update).map fun update => update state) := by
  cases outcome with
  | ok a => exact Reads.bind_pure hx (.pure _)
  | error problem => exact fun total rest => bind_apply_of_error (hx total rest)

/-- A reader may look at the input before it begins. -/
theorem Gives.get_bind {f : List UInt8 → Reader β} {outcome : Except Problem β}
    (hf : ∀ place, bytes <+: place → Gives (f place) bytes outcome) :
    Gives (get >>= f) bytes outcome := by
  cases outcome with
  | ok b => exact Reads.get_bind hf
  | error problem => exact fun total rest => hf (bytes ++ rest) (List.prefix_append _ _) total rest

end Sequencing

theorem exists_of_map_eq_ok {β ε : Type} {x : Except ε α} {f : α → β} {b : β}
    (h : x.map f = .ok b) : ∃ a, x = .ok a ∧ f a = b := by
  cases x with
  | error e => cases h
  | ok a => exact ⟨a, rfl, Except.ok.inj h⟩

theorem eq_error_of_map_eq_error {β ε : Type} {x : Except ε α} {f : α → β} {e : ε}
    (h : x.map f = .error e) : x = .error e := by
  cases x with
  | error e' => exact congrArg Except.error (Except.error.inj h)
  | ok a => cases h

theorem utf8_injective : Function.Injective utf8 := by
  intro s t h
  have hbytes : s.toByteArray = t.toByteArray := ByteArray.ext (Array.toList_inj.mp h)
  exact String.toByteArray_inj.mp hbytes

/-! ### Schemas -/

/-- A record with the values of its fields: how each stands in a document, and what reading it makes
of the state in which the values are gathered. -/
structure Schema (κ σ ν ρ : Type) extends Record κ σ ρ where
  /-- The field whose value it is. -/
  key : ν → κ
  /-- The value as it stands in a document. -/
  bytes : ν → List UInt8
  /-- What reading the value makes of a state, or why it cannot be read. -/
  update : ν → Except Problem (σ → σ)

namespace Schema

/-- The names of the fields. -/
def names (S : Schema κ σ ν ρ) : List String :=
  S.keys.map S.name

/-- The state when the value has been read, which must be the first one of its field. That it is not
is found out before the value is looked at. -/
def store (S : Schema κ σ ν ρ) (v : ν) (state : σ) : Except Problem σ :=
  if S.has state (S.key v) then .error (.repeatedField (S.name (S.key v)))
  else (S.update v).map fun update => update state

/-- What is gathered from values, one after another, up to the first problem. -/
def gather (S : Schema κ σ ν ρ) : List ν → σ → Except Problem σ
  | [], state => .ok state
  | v :: rest, state => do S.gather rest (← S.store v state)

/-- The record with the given values, one after another. -/
def result (S : Schema κ σ ν ρ) (values : List ν) : Except Problem ρ := do
  S.complete (← S.gather values S.empty)

/-- The problem names a field that does not stand exactly once among those of the values. A record
with such a field is refused, whatever its values are. -/
inductive IsFault [DecidableEq κ] (S : Schema κ σ ν ρ) (values : List ν) : Problem → Prop where
  | missing {k : κ} (hmissing : k ∉ values.map S.key) : IsFault S values (.missingField (S.name k))
  | repeated {k : κ} (hrepeated : 2 ≤ (values.map S.key).count k) :
      IsFault S values (.repeatedField (S.name k))

/-- The fields of a record are told apart by their names, and are read with so many levels left as
the schema says. Each value is gathered in its own field, and when the record is asked for, a field
that has not been read is found missing. -/
structure Lawful (S : Schema κ σ ν ρ) (depth : Nat) : Prop where
  mem_keys : ∀ k, k ∈ S.keys
  name_injective : Function.Injective S.name
  length_name : ∀ k, (utf8 (S.name k)).length ≤ partLength
  gives_fill : ∀ v state, Gives (S.fill state depth (S.key v)) (S.bytes v)
    ((S.update v).map fun update => update state)
  has_empty : ∀ k, S.has S.empty k = false
  has_update : ∀ v update, S.update v = .ok update → ∀ state k,
    S.has (update state) k = true ↔ k = S.key v ∨ S.has state k = true
  update_comm : ∀ v w update update', S.update v = .ok update → S.update w = .ok update' →
    S.key v ≠ S.key w → ∀ state, update (update' state) = update' (update state)
  complete_cases : ∀ state,
    ((∃ record, S.complete state = .ok record) ∧ ∀ k, S.has state k = true) ∨
      ∃ k, S.has state k = false ∧ S.complete state = .error (.missingField (S.name k))

/-- What has been gathered is given if no field is missing. -/
theorem gives_finish (S : Schema κ σ ν ρ) (state : σ) :
    Gives (S.finish state) [] (S.complete state) := by
  rw [Record.finish]
  cases S.complete state with
  | ok record => exact Reads.pure record
  | error problem => exact fun total rest => rfl

/-! ### What is gathered -/

variable {S : Schema κ σ ν ρ} {depth : Nat} {state state' : σ} {values values' : List ν}
  {problem : Problem}

theorem gather_cons {v : ν} {update : σ → σ} (hunread : S.has state (S.key v) = false)
    (hupdate : S.update v = .ok update) :
    S.gather (v :: values) state = S.gather values (update state) := by
  rw [gather, store, hunread, if_neg Bool.false_ne_true, hupdate]
  rfl

namespace Lawful

/-- What reading a value leaves unread. -/
theorem has_update_of_ne (hS : S.Lawful depth) {v w : ν} {update : σ → σ}
    (hupdate : S.update v = .ok update) (hne : S.key w ≠ S.key v)
    (hunread : S.has state (S.key w) = false) : S.has (update state) (S.key w) = false := by
  rw [Bool.eq_false_iff, ne_eq, hS.has_update v update hupdate, hunread]
  simpa using hne

/-- Gathering goes on with the other values, if it does not fail at the first one. -/
theorem gather_cons_cases (hS : S.Lawful depth) (v : ν) (rest : List ν) (state : σ) :
    (S.has state (S.key v) = true ∧
        S.gather (v :: rest) state = .error (.repeatedField (S.name (S.key v)))) ∨
      (∃ problem, S.update v = .error problem ∧ S.gather (v :: rest) state = .error problem) ∨
      ∃ update, S.has state (S.key v) = false ∧ S.update v = .ok update ∧
        S.gather (v :: rest) state = S.gather rest (update state) ∧
        ∀ k, S.has (update state) k = true ↔ k = S.key v ∨ S.has state k = true := by
  cases hread : S.has state (S.key v) with
  | true =>
    refine .inl ⟨rfl, ?_⟩
    rw [gather, store, if_pos hread]
    rfl
  | false =>
    cases hupdate : S.update v with
    | error problem =>
      refine .inr (.inl ⟨problem, rfl, ?_⟩)
      rw [gather, store, hread, if_neg Bool.false_ne_true, hupdate]
      rfl
    | ok update =>
      exact .inr (.inr ⟨update, rfl, rfl, gather_cons hread hupdate,
        hS.has_update v update hupdate state⟩)

/-- What was gathered from values has each of their fields once, and nothing else was read. -/
theorem gather_eq_ok (hS : S.Lawful depth) (h : S.gather values state = .ok state') :
    (values.map S.key).Nodup ∧
      (∀ v ∈ values, S.has state (S.key v) = false ∧ ∃ update, S.update v = .ok update) ∧
      ∀ k, S.has state' k = true ↔ k ∈ values.map S.key ∨ S.has state k = true := by
  induction values generalizing state with
  | nil =>
    obtain rfl := Except.ok.inj h
    simp
  | cons v rest ih =>
    rcases hS.gather_cons_cases v rest state with
      ⟨-, heq⟩ | ⟨problem, -, heq⟩ | ⟨update, hunread, hupdate, heq, hread⟩
    · cases heq.symm.trans h
    · cases heq.symm.trans h
    · obtain ⟨hnodup, hrest, hiff⟩ := ih (heq.symm.trans h)
      -- what is gathered later has been read neither before nor from the first value
      have hlater : ∀ w ∈ rest, ¬ (S.key w = S.key v ∨ S.has state (S.key w) = true) := by
        intro w hw
        rw [← hread, (hrest w hw).1]
        exact Bool.false_ne_true
      have hnew : S.key v ∉ rest.map S.key := by
        intro hmem
        obtain ⟨w, hw, hkey⟩ := List.mem_map.mp hmem
        exact hlater w hw (.inl hkey)
      refine ⟨List.nodup_cons.mpr ⟨hnew, hnodup⟩, ?_, fun k => ?_⟩
      · refine List.forall_mem_cons.mpr ⟨⟨hunread, update, hupdate⟩, fun w hw => ?_⟩
        exact ⟨Bool.eq_false_iff.mpr fun hreadw => hlater w hw (.inr hreadw), (hrest w hw).2⟩
      · rw [hiff, hread, List.map_cons, List.mem_cons, ← or_assoc,
          or_comm (a := k ∈ rest.map S.key)]

/-- Nothing can be gathered if a value cannot be read, or if its field has been read before. -/
theorem gather_eq_error [DecidableEq κ] (hS : S.Lawful depth)
    (h : S.gather values state = .error problem) :
    (∃ v ∈ values, S.update v = .error problem) ∨
      ∃ w ∈ values, problem = .repeatedField (S.name (S.key w)) ∧
        (S.has state (S.key w) = true ∨ 2 ≤ (values.map S.key).count (S.key w)) := by
  induction values generalizing state with
  | nil => cases h
  | cons v rest ih =>
    rcases hS.gather_cons_cases v rest state with
      ⟨hread, heq⟩ | ⟨problem', hupdate, heq⟩ | ⟨update, hunread, hupdate, heq, hread⟩
    · obtain rfl := Except.error.inj (heq.symm.trans h)
      exact .inr ⟨v, List.mem_cons_self, rfl, .inl hread⟩
    · obtain rfl := Except.error.inj (heq.symm.trans h)
      exact .inl ⟨v, List.mem_cons_self, hupdate⟩
    · rcases ih (heq.symm.trans h) with ⟨w, hw, hproblem⟩ | ⟨w, hw, rfl, hcase⟩
      · exact .inl ⟨w, List.mem_cons_of_mem v hw, hproblem⟩
      · refine .inr ⟨w, List.mem_cons_of_mem v hw, rfl, ?_⟩
        rw [hread] at hcase
        rw [List.map_cons, List.count_cons]
        have hcount : 0 < (rest.map S.key).count (S.key w) :=
          List.count_pos_iff.mpr (List.mem_map_of_mem hw)
        rcases hcase with (hkey | hread) | hcount
        · right
          simp only [hkey, beq_self_eq_true, if_true] at hcount ⊢
          omega
        · exact .inl hread
        · right
          omega

/-- **Order.** Values whose fields differ, and have not been read, may be gathered in any order. It
is enough to swap neighbours, and these are put into different places of the state. -/
theorem gather_of_perm (hS : S.Lawful depth) (hperm : values.Perm values')
    (hnodup : (values.map S.key).Nodup)
    (hok : ∀ v ∈ values, S.has state (S.key v) = false ∧ ∃ update, S.update v = .ok update) :
    S.gather values state = S.gather values' state := by
  induction hperm generalizing state with
  | nil => rfl
  | @cons v rest rest' hperm ih =>
    rw [List.map_cons, List.nodup_cons] at hnodup
    rw [List.forall_mem_cons] at hok
    obtain ⟨⟨hunread, update, hupdate⟩, hok⟩ := hok
    rw [gather_cons hunread hupdate, gather_cons hunread hupdate]
    refine ih hnodup.2 fun w hw => ⟨?_, (hok w hw).2⟩
    refine hS.has_update_of_ne hupdate (fun heq => ?_) (hok w hw).1
    exact hnodup.1 (heq ▸ List.mem_map_of_mem hw)
  | swap v w rest =>
    simp only [List.map_cons, List.nodup_cons, List.mem_cons, not_or] at hnodup
    simp only [List.forall_mem_cons] at hok
    obtain ⟨⟨hunread, update, hupdate⟩, ⟨hunread', update', hupdate'⟩, -⟩ := hok
    have hne : S.key w ≠ S.key v := hnodup.1.1
    rw [gather_cons hunread hupdate,
      gather_cons (hS.has_update_of_ne hupdate hne.symm hunread') hupdate',
      gather_cons hunread' hupdate',
      gather_cons (hS.has_update_of_ne hupdate' hne hunread) hupdate,
      hS.update_comm w v update update' hupdate hupdate' hne]
  | trans hperm hperm' ih ih' =>
    rw [ih hnodup hok]
    refine ih' ((hperm.map S.key).nodup_iff.mp hnodup) fun v hv => hok v (hperm.mem_iff.mpr hv)

/-- What becomes of a record does not depend on the order of its fields. -/
theorem result_of_perm (hS : S.Lawful depth) (hperm : values.Perm values') {record : ρ}
    (h : S.result values = .ok record) : S.result values' = .ok record := by
  rw [result] at h ⊢
  cases hgather : S.gather values S.empty with
  | error problem =>
    rw [hgather] at h
    cases h
  | ok state =>
    obtain ⟨hnodup, hok, -⟩ := hS.gather_eq_ok hgather
    rwa [← hS.gather_of_perm hperm hnodup hok]

/-- A record has each of its fields once, or it is refused because of one that it has not, or
because of a value that cannot be read. -/
theorem result_cases [DecidableEq κ] (hS : S.Lawful depth) (values : List ν) :
    ((∃ record, S.result values = .ok record) ∧ (∀ problem, ¬ S.IsFault values problem) ∧
        ∀ v ∈ values, ∃ update, S.update v = .ok update) ∨
      ∃ problem, S.result values = .error problem ∧
        (S.IsFault values problem ∨ ∃ v ∈ values, S.update v = .error problem) := by
  rw [result]
  cases hgather : S.gather values S.empty with
  | error problem =>
    refine .inr ⟨problem, rfl, ?_⟩
    rcases hS.gather_eq_error hgather with hupdate | ⟨w, hw, rfl, hread | hcount⟩
    · exact .inr hupdate
    · rw [hS.has_empty] at hread
      cases hread
    · exact .inl (.repeated hcount)
  | ok state =>
    obtain ⟨hnodup, hok, hread⟩ := hS.gather_eq_ok hgather
    show ((∃ record, S.complete state = .ok record) ∧ _) ∨ ∃ problem,
      S.complete state = .error problem ∧ _
    -- every value was read, so what remains is whether each field had one
    rcases hS.complete_cases state with ⟨hcomplete, hall⟩ | ⟨k, hunread, hcomplete⟩
    · refine .inl ⟨hcomplete, fun problem hfault => ?_, fun v hv => (hok v hv).2⟩
      cases hfault with
      | @missing k hmissing =>
        have hempty : S.has S.empty k = true := ((hread k).mp (hall k)).resolve_left hmissing
        rw [hS.has_empty] at hempty
        cases hempty
      | @repeated k hrepeated =>
        have hle := List.nodup_iff_count.mp hnodup k
        omega
    · refine .inr ⟨_, hcomplete, .inl (.missing fun hmem => ?_)⟩
      rw [(hread k).mpr (.inl hmem)] at hunread
      cases hunread

end Lawful

end Schema

/-! ### Sheets -/

/-- The number of levels that arrays and maps may have in an entry with another key. Readers grant
more, but not without bound. -/
def foreignLevels : Nat := 100

/-- An entry of a record whose key is a text, but none of the given names. The key may be written
with any head that holds its length, or in pieces, and the value may be any item that is not nested
too deeply. -/
structure Foreign (names : List String) where
  key : String
  hkey : key ∉ names
  /-- The length in the head of the key. -/
  length? : Option Nat
  /-- The head of the key. -/
  front : List UInt8
  hfront : IsHead textMajor length? front
  /-- The key behind its head. -/
  back : List UInt8
  hback : IsString textMajor (isText · = true) length? (utf8 key) back
  value : List UInt8
  hvalue : Spells foreignLevels value

namespace Foreign

variable {names : List String}

/-- The entry as it stands in a document. -/
def bytes (e : Foreign names) : List UInt8 :=
  e.front ++ e.back ++ e.value

/-- The key is in one piece and no longer than one part. Only such a key fits into the place to
which keys are read, even if the entry is skipped. -/
def IsPlain (e : Foreign names) : Prop :=
  e.length?.any (· ≤ partLength) = true

instance (e : Foreign names) : Decidable e.IsPlain :=
  inferInstanceAs (Decidable (_ = true))

/-- What is wrong with a key that is not plain. -/
def problem (e : Foreign names) : Problem :=
  .wrongKind (.text e.length?) "str or bytes"

end Foreign

/-- An entry with a key in one piece, with the shortest head. -/
def Foreign.ofKey {names : List String} (key : String) (hkey : key ∉ names)
    (hlength : (utf8 key).length < UInt64.size) {value : List UInt8}
    (hvalue : Spells foreignLevels value) : Foreign names where
  key := key
  hkey := hkey
  length? := some (utf8 key).length
  front := head textMajor (utf8 key).length
  hfront := isHead_head textMajor hlength
  back := utf8 key
  hback := .whole (isText_utf8 key)
  value := value
  hvalue := hvalue

/-- An entry of a record: a field with its value, or another one that is skipped. A field is written
with its own name, so that a sheet says in which order the fields stand. -/
inductive Entry (ν : Type) (names : List String) where
  | field (value : ν)
  | foreign (e : Foreign names)

/-- The value, if it is that of a field. -/
def Entry.value? {names : List String} : Entry ν names → Option ν
  | field value => some value
  | foreign _ => none

/-- The entries of a record, of which there are no more than a head can count. Nothing is said of
their order, of how often a field stands there, or of which fields do. -/
structure Sheet (S : Schema κ σ ν ρ) where
  entries : List (Entry ν S.names)
  length_lt : entries.length < UInt64.size

namespace Sheet

variable {S : Schema κ σ ν ρ}

/-- An entry as it stands in a document. -/
def entryBytes (S : Schema κ σ ν ρ) : Entry ν S.names → List UInt8
  | .field v => (Item.text (S.name (S.key v))).encode ++ S.bytes v
  | .foreign e => e.bytes

/-- The sheet as it stands in a document. -/
def encode (sheet : Sheet S) : List UInt8 :=
  head mapMajor sheet.entries.length ++ sheet.entries.flatMap (entryBytes S)

/-- The values of the fields, one after another. -/
def values (sheet : Sheet S) : List ν :=
  sheet.entries.filterMap Entry.value?

/-- The keys that are not names of fields are plain, so that all of them can be read. What becomes
of the sheet is up to its fields then. -/
def IsPlain (sheet : Sheet S) : Prop :=
  ∀ e, .foreign e ∈ sheet.entries → e.IsPlain

/-- The sheet with the given values, one after another, and no other entries. Records are written in
this way. -/
def ofValues (S : Schema κ σ ν ρ) (values : List ν) (hlength : values.length < UInt64.size) :
    Sheet S :=
  ⟨values.map .field, by rwa [List.length_map]⟩

section OfValues

variable {fields : List ν} {hlength : fields.length < UInt64.size}

theorem values_ofValues : (ofValues S fields hlength).values = fields := by
  rw [values, ofValues, List.filterMap_map]
  exact List.filterMap_some

theorem isPlain_ofValues : (ofValues S fields hlength).IsPlain := by
  intro e he
  obtain ⟨v, -, heq⟩ := List.mem_map.mp he
  cases heq

/-- It is written as a map, if each of its entries is written as one of the map. -/
theorem encode_ofValues {entries : List (Item × Item)}
    (hentries : fields.map (fun v => entryBytes S (.field v)) =
      entries.map fun e => e.1.encode ++ e.2.encode) :
    (ofValues S fields hlength).encode = (Item.map entries).encode := by
  have hcount : fields.length = entries.length := by
    simpa using congrArg List.length hentries
  have hbytes : fields.flatMap (fun v => entryBytes S (.field v)) =
      entries.flatMap fun e => e.1.encode ++ e.2.encode := by
    rw [List.flatMap, hentries, ← List.flatMap]
  rw [encode, ofValues, Item.encode_map, List.length_map, hcount, List.flatMap_map, hbytes]

end OfValues

end Sheet

namespace Schema

/-- The state when the entry has been read. -/
def storeEntry (S : Schema κ σ ν ρ) : (entry : Entry ν S.names) → σ → Except Problem σ
  | .field v, state => S.store v state
  | .foreign e, state => if e.IsPlain then .ok state else .error e.problem

/-- What is collected from entries, one after another. -/
def collect (S : Schema κ σ ν ρ) : List (Entry ν S.names) → σ → Except Problem σ
  | [], state => .ok state
  | entry :: rest, state => do S.collect rest (← S.storeEntry entry state)

/-- What becomes of a sheet: the record, or the first problem that its entries give rise to. This is
what its reader finds, without any bytes. -/
def outcome (S : Schema κ σ ν ρ) (sheet : Sheet S) : Except Problem ρ := do
  S.complete (← S.collect sheet.entries S.empty)

variable {S : Schema κ σ ν ρ}

/-- Other entries make no difference, unless one of them has a key that is not plain. -/
theorem collect_cases (entries : List (Entry ν S.names)) (state : σ) :
    S.collect entries state = S.gather (entries.filterMap Entry.value?) state ∨
      (∃ e, .foreign e ∈ entries ∧ ¬ e.IsPlain) ∧
        ∃ problem, S.collect entries state = .error problem := by
  induction entries generalizing state with
  | nil => exact .inl rfl
  | cons entry rest ih =>
    cases entry with
    | field v =>
      have hcollect : S.collect (.field v :: rest) state = S.store v state >>= S.collect rest := rfl
      have hgather : S.gather ((Entry.field v :: rest).filterMap Entry.value?) state =
          S.store v state >>= S.gather (rest.filterMap Entry.value?) := rfl
      rw [hcollect, hgather]
      cases S.store v state with
      | error problem => exact .inl rfl
      | ok state' =>
        refine (ih state').imp_right ?_
        rintro ⟨⟨e, he, hplain⟩, hproblem⟩
        exact ⟨⟨e, List.mem_cons_of_mem _ he, hplain⟩, hproblem⟩
    | foreign e =>
      rw [collect, storeEntry]
      split
      · refine (ih state).imp_right ?_
        rintro ⟨⟨e', he', hplain'⟩, hproblem⟩
        exact ⟨⟨e', List.mem_cons_of_mem _ he', hplain'⟩, hproblem⟩
      case isFalse hplain => exact .inr ⟨⟨e, List.mem_cons_self, hplain⟩, e.problem, rfl⟩

/-- What becomes of a sheet depends on the values of the fields alone, unless there is a key that is
not plain. -/
theorem outcome_cases (sheet : Sheet S) :
    S.outcome sheet = S.result sheet.values ∨
      ¬ sheet.IsPlain ∧ ∃ problem, S.outcome sheet = .error problem := by
  rw [outcome, result]
  rcases S.collect_cases sheet.entries S.empty with heq | ⟨⟨e, he, hplain⟩, problem, herror⟩
  · rw [heq]
    exact .inl rfl
  · rw [herror]
    exact .inr ⟨fun h => hplain (h e he), problem, rfl⟩

theorem outcome_of_isPlain {sheet : Sheet S} (h : sheet.IsPlain) :
    S.outcome sheet = S.result sheet.values :=
  (outcome_cases sheet).resolve_right fun hplain => hplain.1 h

namespace Lawful

variable {depth : Nat} {sheet : Sheet S}

/-- **Order.** A sheet with plain keys and the fields of a record, in any order, becomes that
record. -/
theorem outcome_of_perm (hS : S.Lawful depth) (hplain : sheet.IsPlain) {values : List ν}
    (hperm : sheet.values.Perm values) {record : ρ} (h : S.result values = .ok record) :
    S.outcome sheet = .ok record := by
  rw [outcome_of_isPlain hplain]
  exact hS.result_of_perm hperm.symm h

/-- A sheet that becomes a record has each of its fields once. -/
theorem outcome_eq_ok [DecidableEq κ] (hS : S.Lawful depth) {record : ρ}
    (h : S.outcome sheet = .ok record) :
    (∀ problem, ¬ S.IsFault sheet.values problem) ∧
      ∀ v ∈ sheet.values, ∃ update, S.update v = .ok update := by
  rcases outcome_cases sheet with heq | ⟨-, problem, herror⟩
  · rcases hS.result_cases sheet.values with ⟨-, hresult⟩ | ⟨problem, herror, -⟩
    · exact hresult
    · cases h.symm.trans (heq.trans herror)
  · cases h.symm.trans herror

/-- A sheet with plain keys is refused because of a field that does not stand there exactly once, or
because of a value that cannot be read. -/
theorem outcome_eq_error [DecidableEq κ] (hS : S.Lawful depth) (hplain : sheet.IsPlain)
    {problem : Problem}
    (h : S.outcome sheet = .error problem) :
    S.IsFault sheet.values problem ∨ ∃ v ∈ sheet.values, S.update v = .error problem := by
  rw [outcome_of_isPlain hplain] at h
  rcases hS.result_cases sheet.values with ⟨⟨record, hok⟩, -⟩ | ⟨problem', herror, hcause⟩
  · cases h.symm.trans hok
  · obtain rfl := Except.error.inj (h.symm.trans herror)
    exact hcause

end Lawful

end Schema

/-- No field has a name that is not among those of the fields. -/
theorem Schema.findField_eq_none {S : Schema κ σ ν ρ} {key : String} (hkey : key ∉ S.names) :
    findField S.fields (utf8 key) = none := by
  rw [findField, List.find?_eq_none]
  intro field hfield heq
  obtain ⟨k, hk, rfl⟩ := List.mem_map.mp hfield
  have hname : S.name k = key := utf8_injective (beq_iff_eq.mp heq)
  exact hkey (hname ▸ List.mem_map_of_mem hk)

/-- Each field is found by its name. -/
theorem Schema.Lawful.findField_name {S : Schema κ σ ν ρ} {depth : Nat} (hS : S.Lawful depth)
    (k : κ) : findField S.fields (utf8 (S.name k)) = some (S.field k) := by
  cases hfind : findField S.fields (utf8 (S.name k)) with
  | none =>
    have hother := List.find?_eq_none.mp hfind _ (List.mem_map_of_mem (hS.mem_keys k))
    exact absurd (beq_self_eq_true _) hother
  | some field =>
    obtain ⟨k', -, rfl⟩ := List.mem_map.mp (List.mem_of_find?_eq_some hfind)
    have hmatch : utf8 (S.name k') == utf8 (S.name k) := by
      rw [findField] at hfind
      exact List.find?_some (p := fun field : Field σ => utf8 field.name == _) hfind
    have hname : S.name k' = S.name k := utf8_injective (beq_iff_eq.mp hmatch)
    rw [hS.name_injective hname]

theorem Foreign.IsPlain.reads_identifier {names : List String} {e : Foreign names}
    (h : e.IsPlain) : Reads identifier (e.front ++ e.back) (utf8 e.key) := by
  obtain ⟨key, hkey, length?, front, hfront, back, hback, value, hvalue⟩ := e
  cases length? with
  | none => cases h
  | some length =>
    have hlength : length ≤ partLength := of_decide_eq_true h
    cases hback
    exact hfront.reads_identifier hlength

/-- A key that is not plain is refused, whatever stands behind its head. -/
theorem Foreign.gives_identifier {names : List String} {e : Foreign names} (h : ¬ e.IsPlain)
    (bytes : List UInt8) : Gives identifier (e.front ++ bytes) (.error e.problem) := by
  have hhead : Reads header e.front (.text e.length?) :=
    e.hfront.reads_header (by decide) fun _ => rfl
  have hlength : identifierLength? (.text e.length?) = none := by
    rw [Foreign.IsPlain, Bool.not_eq_true] at h
    cases hlength? : e.length? with
    | none => rfl
    | some length =>
      rw [hlength?, Option.any_some, decide_eq_false_iff_not] at h
      simpa [identifierLength?, textLength?] using h
  intro total rest
  rw [List.append_assoc]
  have hpeek := peeks_passTags hhead (fun _ h => by cases h) (e.front ++ (bytes ++ rest))
  refine (bind_apply rfl).trans ?_
  rw [bind_apply (hpeek total _)]
  refine (bind_apply rfl).trans ?_
  rw [bind_apply (hhead total _), hlength]
  rfl

/-- There are no more entries than bytes. -/
theorem Sheet.length_le_encode {S : Schema κ σ ν ρ} (entries : List (Entry ν S.names)) :
    entries.length ≤ (entries.flatMap (entryBytes S)).length := by
  refine length_le_flatMap fun entry _ => ?_
  cases entry with
  | field v => exact List.append_ne_nil_of_left_ne_nil (Item.encode_ne_nil _) _
  | foreign e =>
    exact List.append_ne_nil_of_left_ne_nil
      (List.append_ne_nil_of_left_ne_nil e.hfront.ne_nil _) _

namespace Schema.Lawful

variable {S : Schema κ σ ν ρ} {depth : Nat} {state : σ}

/-- An entry with another key is skipped, if its key is plain. -/
theorem gives_foreign (e : Foreign S.names) (hdepth : foreignLevels ≤ depth) (state : σ) :
    Gives (readEntry S.fields depth state) (Sheet.entryBytes S (.foreign e))
      (S.storeEntry (.foreign e) state) := by
  rw [storeEntry]
  split
  case isTrue hplain =>
    refine hplain.reads_identifier.bind ?_
    rw [findField_eq_none e.hkey]
    exact (e.hvalue.reads_skip hdepth).bind_pure (.pure state)
  case isFalse hplain =>
    intro total rest
    have h := Foreign.gives_identifier hplain (e.back ++ e.value) total rest
    rw [← List.append_assoc] at h
    exact bind_apply_of_error h

/-- An entry with the key of a field is gathered, unless the field has been read before. -/
theorem gives_field (hS : S.Lawful depth) (v : ν) (state : σ) :
    Gives (readEntry S.fields depth state) (Sheet.entryBytes S (.field v))
      (S.storeEntry (.field v) state) := by
  refine (reads_identifier (hS.length_name (S.key v))).bind_gives ?_
  rw [hS.findField_name, storeEntry, store]
  dsimp only [Record.field]
  split
  · exact fun total rest => rfl
  · exact hS.gives_fill v state

/-- Entries are collected one after another. -/
theorem gives_readEntries (hS : S.Lawful depth) (hdepth : foreignLevels ≤ depth)
    (entries : List (Entry ν S.names)) (fuel : List UInt8) (hfuel : entries.length ≤ fuel.length)
    (state : σ) :
    Gives (readEntries S.fields depth fuel (some entries.length) state)
      (entries.flatMap (Sheet.entryBytes S)) (S.collect entries state) := by
  induction entries generalizing fuel state with
  | nil =>
    cases fuel with
    | nil => exact Reads.pure state
    | cons first fuel => exact Reads.pure state
  | cons entry rest ih =>
    cases fuel with
    | nil => simp at hfuel
    | cons first fuel =>
      have hentry : Gives (readEntry S.fields depth state) (Sheet.entryBytes S entry)
          (S.storeEntry entry state) := by
        cases entry with
        | field v => exact hS.gives_field v state
        | foreign e => exact gives_foreign e hdepth state
      have hfuel' : rest.length ≤ fuel.length := Nat.le_of_succ_le_succ hfuel
      exact hentry.bind fun state' _ => ih fuel hfuel' state'

/-- **Records.** The reader of a record gives what becomes of its entries. This is all that has to
be known about reading: the rest is about the entries. -/
theorem gives_read (hS : S.Lawful depth) (hdepth : foreignLevels ≤ depth) (sheet : Sheet S) :
    Gives (S.read (depth + 1)) sheet.encode (S.outcome sheet) := by
  have hhead : Reads header (head mapMajor sheet.entries.length)
      (.map (some sheet.entries.length)) := reads_header (by decide) sheet.length_lt fun _ => rfl
  have hdeeper : Reads (deeper (depth + 1)) [] depth := .pure depth
  refine Gives.bind_pure ?_ S.gives_finish
  refine (reads_headerPastTags hhead fun _ h => by cases h).bind_gives ?_
  refine hdeeper.bind_gives (Gives.get_bind fun fuel hfuel => ?_)
  have hfuel' := Nat.le_trans (Sheet.length_le_encode sheet.entries) hfuel.length_le
  exact hS.gives_readEntries hdepth sheet.entries fuel hfuel' S.empty

end Schema.Lawful

end Cbor

end VectorUnit
