import Mathlib.Data.List.Nodup
import VectorUnit.Proofs.Ledger
import VectorUnit.Proofs.Steps
import VectorUnit.Workspace

/-!
# Who holds a slot

A slot is taken if and only if one thing in the workspace holds it: a claim, a unit, or a runner
whose worker is not gone (`Workspace.Occupied`). Each of them holds one slot, which passes from the
claim to the unit and from the unit to the runner, and is given back where the thing that holds it
comes to an end: when it is dropped, or when a fault ends the worker that has the unit.

Between the moment when a slot is claimed and the moment when something holds it, and between the
moment when a thing is taken away and the moment when its slot is given back, a slot is taken that
nothing holds. `Workspace.InOrder` keeps a list of these slots, so that each of the small changes of
which operations are made keeps a workspace in order. Operations start and end with none of them
(`Workspace.InOrder.perform`).
-/

namespace VectorUnit

/-! ### Slots -/

namespace Slots

variable {s t : Slots} {slot i : Nat}

theorem claim_eq_ok (h : s.claim slot = .ok t) :
    s.taken[slot]? = some false ∧ t = ⟨s.taken.set slot true⟩ := by
  rw [claim] at h
  split at h
  · cases h
  · cases h
  · case h_3 hfree => exact ⟨hfree, (Except.ok.inj h).symm⟩

/-- Giving a slot back leaves all others alone. -/
theorem isTaken_vacate_of_ne {slot? : Option Nat} (h : slot? ≠ some i) :
    (s.vacate slot?).isTaken i = s.isTaken i := by
  cases slot? with
  | none => rfl
  | some slot =>
    have hne : slot ≠ i := fun heq => h (congrArg some heq)
    have hsame : (s.taken.set slot false)[i]? = s.taken[i]? := List.getElem?_set_ne hne
    rw [vacate, release, isTaken, isTaken, List.getD_eq_getElem?_getD, List.getD_eq_getElem?_getD,
      hsame]

theorem isTaken_eq_true_iff (h : i < s.taken.length) :
    s.isTaken i = true ↔ s.taken[i]? = some true := by
  rw [isTaken, List.getD_eq_getElem?_getD, List.getElem?_eq_getElem h, Option.getD_some,
    Option.some_inj]

end Slots

/-! ### Runners keep their units -/

namespace Runner

variable {r r' r'' : Runner}

/-- A runner has become another one: it still has its unit, unless the worker is gone, and a worker
that is gone does not come back. -/
structure Follows (r' r : Runner) : Prop where
  config_eq : r'.unit.config = r.unit.config
  died : r.work = .died → r'.work = .died

theorem Follows.refl (r : Runner) : r.Follows r :=
  ⟨rfl, id⟩

theorem Follows.trans (h : r''.Follows r') (h' : r'.Follows r) : r''.Follows r :=
  ⟨h.config_eq.trans h'.config_eq, fun hdied => h.died (h'.died hdied)⟩

theorem config_run {request : Request} {unit unit' : Processor} {report : Report}
    (h : request.run unit = .ok (report, unit')) : unit'.config = unit.config := by
  rw [Request.run] at h
  split at h
  · case h_1 hrun =>
    obtain ⟨-, rfl⟩ := Prod.mk.inj (Except.ok.inj h)
    exact Processor.config_execute hrun
  · cases h

theorem follows_step (r : Runner) : r.step.Follows r := by
  rw [step]
  split
  · case h_1 hwork =>
    have hwork' : r.work ≠ .died := fun hdied => by cases hwork.symm.trans hdied
    split
    · exact .refl r
    · exact ⟨rfl, fun hdied => absurd hdied hwork'⟩
  · case h_2 hwork =>
    split
    · case h_1 hrun => exact ⟨config_run hrun, fun hdied => by cases hwork.symm.trans hdied⟩
    · exact ⟨rfl, fun _ => rfl⟩
  · case h_3 hwork => exact ⟨rfl, fun hdied => by cases hwork.symm.trans hdied⟩
  · case h_4 hwork => exact ⟨rfl, fun hdied => by cases hwork.symm.trans hdied⟩
  · exact .refl r

theorem follows_steps (r : Runner) (count : Nat) : (r.steps count).Follows r := by
  induction count generalizing r with
  | zero => exact .refl r
  | succ count ih => exact (ih r.step).trans r.follows_step

theorem follows_afterFault (r : Runner) : r.afterFault.Follows r := by
  rw [afterFault]
  split
  · exact .refl r
  · exact ⟨rfl, fun _ => rfl⟩

theorem follows_awaitReply {report : Report} (h : r.awaitReply = .ok (report, r')) :
    r'.Follows r := by
  have hready : (if r.replies.isEmpty then r.steps 4 else r).Follows r := by
    split
    · exact r.follows_steps 4
    · exact .refl r
  rw [awaitReply] at h
  split at h
  · obtain ⟨-, rfl⟩ := Prod.mk.inj (Except.ok.inj h)
    exact ⟨hready.config_eq, hready.died⟩
  · cases h

theorem follows_settleSome (count : Nat) (h : settleSome count r = .ok r') : r'.Follows r := by
  induction count generalizing r with
  | zero =>
    obtain rfl := Except.ok.inj h
    exact .refl r
  | succ count ih =>
    obtain ⟨⟨report, r₁⟩, hawait, h⟩ := exists_of_bind_eq_ok h
    have hawaited := follows_awaitReply hawait
    have hrest : r'.Follows { r₁ with ready := r₁.ready ++ [report] } := ih h
    exact ⟨hrest.config_eq.trans hawaited.config_eq,
      fun hdied => hrest.died (hawaited.died hdied)⟩

theorem config_accessRun (a : Access) (unit : Processor) :
    (a.run unit).2.config = unit.config := by
  cases a with
  | write offset data => exact unit.config_write offset data
  | noteChange offset size => exact unit.config_markStale
  | reset full => exact unit.config_reset full
  | setRegisters registers => rfl
  | registers => rfl
  | counters => rfl
  | save => rfl
  | load s =>
    rw [Access.run, Processor.run_loadInPlace]
    cases s.fit unit.config.kind with
    | ok _ => exact Processor.config_markStale _
    | error e => rfl

theorem follows_access {a : Access} {answer : Answer} (h : r.access a = .ok (answer, r')) :
    r'.Follows r := by
  rw [access_eq_act, act] at h
  obtain ⟨r₁, hsettle, h⟩ := exists_of_bind_eq_ok h
  have hsettled := follows_settleSome _ hsettle
  obtain ⟨-, rfl⟩ := Prod.mk.inj (Except.ok.inj h)
  exact ⟨(config_accessRun a r₁.unit).trans hsettled.config_eq, hsettled.died⟩

theorem follows_request {start budget : UInt32} (h : r.request start budget = .ok r') :
    r'.Follows r := by
  rw [request] at h
  dsimp only at h
  split at h
  · obtain ⟨⟨report, unit⟩, hrun, h⟩ := exists_of_bind_eq_ok h
    obtain rfl := Except.ok.inj h
    exact ⟨config_run hrun, id⟩
  · split at h
    · cases h
    · obtain rfl := Except.ok.inj h
      exact ⟨rfl, id⟩

theorem follows_pull {report? : Option Report} (h : r.pull = .ok (report?, r')) :
    r'.Follows r := by
  rw [pull] at h
  split at h
  · obtain ⟨-, rfl⟩ := Prod.mk.inj (Except.ok.inj h)
    exact ⟨rfl, id⟩
  · split at h
    · obtain ⟨-, rfl⟩ := Prod.mk.inj (Except.ok.inj h)
      exact .refl r
    · obtain ⟨⟨report, r₁⟩, hawait, h⟩ := exists_of_bind_eq_ok h
      obtain ⟨-, rfl⟩ := Prod.mk.inj (Except.ok.inj h)
      exact follows_awaitReply hawait

/-- No operation takes the unit away. -/
theorem follows_perform {op : Operation} {a : Answer} (h : r.perform op = .ok (a, r')) :
    r'.Follows r := by
  cases op with
  | request start budget =>
    obtain ⟨r₁, hrequest, h⟩ := exists_of_bind_eq_ok h
    obtain ⟨-, rfl⟩ := Prod.mk.inj (Except.ok.inj h)
    exact follows_request hrequest
  | pull =>
    obtain ⟨⟨report?, r₁⟩, hpull, h⟩ := exists_of_bind_eq_ok h
    obtain ⟨-, rfl⟩ := Prod.mk.inj (Except.ok.inj h)
    exact follows_pull hpull
  | outstanding =>
    obtain ⟨-, rfl⟩ := Prod.mk.inj (Except.ok.inj h)
    exact .refl r
  | access a => exact follows_access h

end Runner

namespace Workspace

variable {w : Workspace} {name : String} {holder former : Holder} {pending : List Nat}

/-! ### What holders do with their slots -/

/-- A thing has become another one, which is in the same slot or in none any more. No operation
moves a thing that stays from one slot to another. -/
def Holder.Succeeds (holder former : Holder) : Prop :=
  holder.slot? = none ∨ holder.slot? = former.slot?

theorem Holder.succeeds_of_follows {r r' : Runner} (h : r'.Follows r) :
    (runner r').Succeeds (runner r) := by
  rw [Succeeds, slot?, slot?]
  by_cases hdied : r'.work = .died
  · exact .inl (if_pos hdied)
  · rw [if_neg hdied, if_neg fun hformer => hdied (h.died hformer), h.config_eq]
    exact .inr rfl

theorem Holder.succeeds_close (holder : Holder) : holder.close.Succeeds holder := by
  cases holder with
  | claim slot => exact .inr rfl
  | unit p => exact .inr rfl
  | runner r => exact succeeds_of_follows (r.follows_steps _)

theorem Holder.Succeeds.slot?_ne {i : Nat} (h : holder.Succeeds former)
    (hne : former.slot? ≠ some i) : holder.slot? ≠ some i := by
  rcases h with hnone | hsame
  · rw [hnone]
    exact nofun
  · rwa [hsame]

/-! ### Workspaces in order -/

/-- The slots that are held, once for each thing that holds one. In a workspace in order no slot is
in this list twice. -/
def held (w : Workspace) : List Nat :=
  w.holders.filterMap fun entry => entry.2.slot?

/-- No name is there twice, no slot is held twice, and the slots that are taken are those that are
held and those that are pending. -/
structure InOrder (w : Workspace) (pending : List Nat) : Prop where
  names : (w.holders.map Prod.fst).Nodup
  length_eq : w.slots.taken.length = Slots.count
  nodup : (pending ++ w.held).Nodup
  taken_iff : ∀ i, w.slots.taken[i]? = some true ↔ i ∈ pending ++ w.held

theorem InOrder.empty : Workspace.empty.InOrder [] := by
  refine ⟨List.nodup_nil, rfl, List.nodup_nil, fun i => ⟨fun htaken => ?_, fun hi => ?_⟩⟩
  · obtain ⟨hlt, htrue⟩ := List.getElem?_eq_some_iff.mp htaken
    cases List.eq_of_mem_replicate (List.mem_of_getElem htrue)
  · exact absurd hi List.not_mem_nil

/-- It makes no difference whether a slot is held or pending. -/
theorem InOrder.of_perm {w' : Workspace} {pending' : List Nat} (h : w.InOrder pending)
    (hnames : (w'.holders.map Prod.fst).Nodup) (hslots : w'.slots = w.slots)
    (hperm : (pending ++ w.held).Perm (pending' ++ w'.held)) : w'.InOrder pending' := by
  refine ⟨hnames, hslots ▸ h.length_eq, hperm.nodup_iff.mp h.nodup, fun i => ?_⟩
  rw [hslots, h.taken_iff, hperm.mem_iff]

/-- A slot that is free is claimed. -/
theorem InOrder.acquire {slots : Slots} {slot : Nat} (h : w.InOrder pending)
    (hclaim : w.slots.claim slot = .ok slots) :
    InOrder { w with slots := slots } (slot :: pending) := by
  obtain ⟨hfree, rfl⟩ := Slots.claim_eq_ok hclaim
  have hnew : slot ∉ pending ++ w.held := by
    rw [← h.taken_iff, hfree]
    exact nofun
  refine ⟨h.names, List.length_set.trans h.length_eq, List.nodup_cons.mpr ⟨hnew, h.nodup⟩,
    fun i => ?_⟩
  show _ ↔ i ∈ slot :: (pending ++ w.held)
  rw [List.getElem?_set, List.mem_cons, ← h.taken_iff]
  split
  · case isTrue heq =>
    subst heq
    rw [if_pos (List.getElem?_eq_some_iff.mp hfree).1]
    exact iff_of_true rfl (.inl rfl)
  · case isFalse hne => exact (or_iff_right (Ne.symm hne)).symm

/-- A slot that nothing holds is given back. -/
theorem InOrder.release {slot? : Option Nat} (h : w.InOrder (slot?.toList ++ pending)) :
    InOrder { w with slots := w.slots.vacate slot? } pending := by
  cases slot? with
  | none => exact h
  | some slot =>
    obtain ⟨hnew, hnodup⟩ := List.nodup_cons.mp h.nodup
    refine ⟨h.names, List.length_set.trans h.length_eq, hnodup, fun i => ?_⟩
    have htaken := h.taken_iff i
    rw [Slots.vacate, Slots.release, List.getElem?_set]
    split
    · case isTrue heq =>
      subst heq
      refine iff_of_false (fun htaken => ?_) hnew
      split at htaken
      · cases htaken
      · cases htaken
    · case isFalse hne =>
      rw [htaken]
      exact (List.mem_cons.trans (or_iff_right (Ne.symm hne)))

/-- What a name stands for is at one place in a workspace that is in order. -/
theorem InOrder.exists_remove (h : w.InOrder pending) (hfind : w.find? name = some holder) :
    ∃ before after, w.holders = before ++ (name, holder) :: after ∧
      (w.remove name).holders = before ++ after := by
  obtain ⟨before, after, hholders, -⟩ := List.lookup_eq_some_iff.mp hfind
  refine ⟨before, after, hholders, ?_⟩
  have hnames := h.names
  rw [hholders, List.map_append, List.map_cons, List.nodup_middle, List.nodup_cons] at hnames
  have hother : ∀ entry ∈ before ++ after, (entry.1 != name) = true := by
    intro entry hentry
    refine bne_iff_ne.mpr fun heq => hnames.1 ?_
    rw [← List.map_append, List.mem_map]
    exact ⟨entry, hentry, heq⟩
  obtain ⟨hbefore, hafter⟩ := List.forall_mem_append.mp hother
  have hkept : before.filter (·.1 != name) = before ∧ after.filter (·.1 != name) = after :=
    ⟨List.filter_eq_self.mpr hbefore, List.filter_eq_self.mpr hafter⟩
  rw [remove, hholders, List.filter_append, List.filter_cons_of_neg (by simp), hkept.1, hkept.2]

theorem notMem_names_remove (w : Workspace) (name : String) :
    name ∉ (w.remove name).holders.map Prod.fst := by
  rw [List.mem_map]
  rintro ⟨entry, hentry, heq⟩
  have hne := (List.mem_filter.mp hentry).2
  rw [heq, bne_self_eq_false] at hne
  cases hne

theorem held_append (w : Workspace) {before after : List (String × Holder)}
    (h : w.holders = before ++ after) :
    w.held = before.filterMap (·.2.slot?) ++ after.filterMap (·.2.slot?) := by
  rw [held, h, List.filterMap_append]

theorem filterMap_cons_slot? (entry : String × Holder) (rest : List (String × Holder)) :
    (entry :: rest).filterMap (·.2.slot?) =
      entry.2.slot?.toList ++ rest.filterMap (·.2.slot?) := by
  rw [List.filterMap_cons]
  cases entry.2.slot? with
  | none => rfl
  | some slot => rfl

/-- A thing is taken away, and its slot is left pending. -/
theorem InOrder.remove (h : w.InOrder pending) (hfind : w.find? name = some holder) :
    (w.remove name).InOrder (holder.slot?.toList ++ pending) := by
  obtain ⟨before, after, hholders, hremoved⟩ := h.exists_remove hfind
  refine h.of_perm (h.names.sublist (List.filter_sublist.map _)) rfl ?_
  rw [held_append w hholders, held_append _ hremoved, filterMap_cons_slot?]
  generalize before.filterMap (·.2.slot?) = front
  generalize after.filterMap (·.2.slot?) = rear
  generalize holder.slot?.toList = slot
  have hmoved : ((pending ++ front) ++ (slot ++ rear)).Perm
      (slot ++ ((pending ++ front) ++ rear)) := List.perm_append_comm_assoc ..
  simpa only [List.append_assoc] using hmoved

/-- A thing takes a name that is free, and holds the slot that was pending. -/
theorem InOrder.place (h : w.InOrder (holder.slot?.toList ++ pending))
    (hname : name ∉ w.holders.map Prod.fst) :
    InOrder { w with holders := (name, holder) :: w.holders } pending := by
  refine h.of_perm (List.nodup_cons.mpr ⟨hname, h.names⟩) rfl ?_
  rw [held, held, filterMap_cons_slot?, List.append_assoc]
  exact List.perm_append_comm_assoc ..

theorem InOrder.update (h : w.InOrder pending) (hfind : w.find? name = some former)
    (hsucceeds : holder.Succeeds former) : (w.update name holder).InOrder pending := by
  have hremoved := h.remove hfind
  have hname := w.notMem_names_remove name
  rw [Workspace.update, hfind]
  dsimp only
  by_cases hnone : holder.slot? = none
  · have hreleased : InOrder { w.remove name with slots := w.slots.vacate former.slot? }
        (holder.slot?.toList ++ pending) := by
      rw [hnone]
      exact hremoved.release
    rw [hnone, Option.isNone_none, if_pos rfl]
    exact hreleased.place hname
  · have hsame := hsucceeds.resolve_left hnone
    rw [← hsame] at hremoved
    rw [if_neg fun hisNone => hnone (Option.isNone_iff_eq_none.mp hisNone)]
    exact hremoved.place hname

theorem find?_update (hfind : w.find? name = some former) :
    (w.update name holder).find? name = some holder := by
  rw [Workspace.update, hfind]
  exact List.lookup_cons_self

/-- A thing is dropped, whatever the worker still has to do, and its slot is given back. -/
theorem InOrder.drop (h : w.InOrder pending) (name : String) :
    (w.drop name).InOrder pending ∧ name ∉ (w.drop name).holders.map Prod.fst := by
  rw [Workspace.drop]
  cases hfind : w.find? name with
  | none =>
    refine ⟨h, fun hname => ?_⟩
    obtain ⟨entry, hentry, heq⟩ := List.mem_map.mp hname
    have hne := List.lookup_eq_none_iff.mp hfind entry hentry
    rw [heq, bne_self_eq_false] at hne
    cases hne
  | some holder =>
    have hclosed := h.update hfind holder.succeeds_close
    exact ⟨(hclosed.remove (find?_update hfind)).release, notMem_names_remove _ name⟩

theorem InOrder.put (h : w.InOrder (holder.slot?.toList ++ pending)) (name : String) :
    (w.put name holder).InOrder pending := by
  obtain ⟨hdropped, hname⟩ := h.drop name
  exact hdropped.place hname

/-- A slot is claimed, and something that holds it takes a name. -/
theorem InOrder.grant {slots : Slots} {slot : Nat} (h : w.InOrder [])
    (hclaim : w.slots.claim slot = .ok slots) (hslot : holder.slot? = some slot) (name : String) :
    (Workspace.put { w with slots := slots } name holder).InOrder [] := by
  have hacquired := h.acquire hclaim
  rw [show [slot] = holder.slot?.toList ++ [] by rw [hslot]; rfl] at hacquired
  exact hacquired.put name

theorem InOrder.claim {slot : Nat} {w' : Workspace} (h : w.InOrder [])
    (hclaim : w.claim name slot = .ok w') : w'.InOrder [] := by
  obtain ⟨slots, hslots, hclaim⟩ := exists_of_bind_eq_ok hclaim
  obtain rfl := Except.ok.inj hclaim
  exact h.grant hslots rfl name

theorem create_eq_ok {host : Host} {config : Config} {w' : Workspace}
    (h : w.create name host config = .ok w') : ∃ p slots,
      Processor.create host config = .ok p ∧ w.slots.claim p.config.kind.number = .ok slots ∧
        w' = Workspace.put { w with slots := slots } name (.unit p) := by
  rw [create] at h
  split at h
  · cases h
  · case h_2 p hnew =>
    split at h
    · cases h
    · case h_2 slots hclaim =>
      refine ⟨p, slots, hnew, ?_, (Except.ok.inj h).symm⟩
      rw [Processor.config_create hnew]
      exact hclaim

theorem InOrder.create {host : Host} {config : Config} {w' : Workspace} (h : w.InOrder [])
    (hcreate : w.create name host config = .ok w') : w'.InOrder [] := by
  obtain ⟨p, slots, -, hslots, rfl⟩ := create_eq_ok hcreate
  exact h.grant hslots rfl name

theorem InOrder.toRunner {mode : Runner.Mode} {r : Runner} {w' : Workspace} (h : w.InOrder pending)
    (hmove : w.toRunner name mode = some (r, w')) : w'.InOrder pending := by
  rw [Workspace.toRunner] at hmove
  split at hmove
  · case h_1 p hfind =>
    obtain ⟨-, rfl⟩ := Prod.mk.inj (Option.some.inj hmove)
    -- the runner holds the slot that the unit held
    have hremoved := h.remove hfind
    rw [show (Holder.unit p).slot? = (Holder.runner (.create mode p)).slot? from rfl] at hremoved
    exact hremoved.place (notMem_names_remove _ name)
  · cases hmove

/-! ### Operations -/

/-- Something that is done in a workspace. The things in it are known by names; what is refused, or
done to a name that stands for something else, leaves the workspace as it was. -/
inductive Operation where
  | claim (name : String) (slot : Nat)
  | create (name : String) (host : Host) (config : Config)
  | drop (name : String)
  | toRunner (name : String) (mode : Runner.Mode)
  /-- An operation on a unit that stands alone. -/
  | onUnit (name : String) (op : VectorUnit.Operation)
  /-- An operation on a runner. -/
  | onRunner (name : String) (op : Runner.Operation)
  /-- An action that is handed to a runner gives up. -/
  | giveUp (name : String)
  /-- The worker of a runner takes a step. -/
  | work (name : String)

namespace Operation

/-- The name of what an operation is about. -/
def subject : Operation → String
  | claim name _ => name
  | create name _ _ => name
  | drop name => name
  | toRunner name _ => name
  | onUnit name _ => name
  | onRunner name _ => name
  | giveUp name => name
  | work name => name

/-- The slot that is asked for. -/
def slot? : Operation → Option Nat
  | claim _ slot => some slot
  | create _ _ config => some config.kind.number
  | _ => none

end Operation

/-- The workspace after an operation. What is refused leaves it as it was; a fault leaves a unit as
it was, and ends a worker. -/
def perform (w : Workspace) : Operation → Workspace
  | .claim name slot => (w.claim name slot).toOption.getD w
  | .create name host config => (w.create name host config).toOption.getD w
  | .drop name => w.drop name
  | .toRunner name mode => ((w.toRunner name mode).map Prod.snd).getD w
  | .onUnit name op =>
    match w.find? name with
    | some (.unit p) =>
      match p.perform op with
      | .ok (_, p) => w.update name (.unit p)
      | .error _ => w
    | _ => w
  | .onRunner name op =>
    match w.find? name with
    | some (.runner r) =>
      match r.perform op with
      | .ok (_, r) => w.update name (.runner r)
      | .error _ => w.update name (.runner r.afterFault)
    | _ => w
  | .giveUp name =>
    match w.find? name with
    | some (.runner r) => w.update name (.runner r.afterFault)
    | _ => w
  | .work name =>
    match w.find? name with
    | some (.runner r) => w.update name (.runner r.step)
    | _ => w

/-- The workspace after some operations, one after another. -/
def run (w : Workspace) : List Operation → Workspace
  | [] => w
  | op :: rest => run (w.perform op) rest

theorem run_concat (w : Workspace) (ops : List Operation) (op : Operation) :
    w.run (ops ++ [op]) = (w.run ops).perform op := by
  induction ops generalizing w with
  | nil => rfl
  | cons first rest ih => exact ih (w.perform first)

/-- What an operation comes to: it leaves the workspace as it was, or a thing is made in a slot that
was free, or dropped, or moved behind a runner, or has become something else. -/
theorem perform_cases (w : Workspace) (op : Operation) :
    w.perform op = w ∨
      (∃ slot, w.claim op.subject slot = .ok (w.perform op) ∧ op.slot? = some slot) ∨
      (∃ host config, w.create op.subject host config = .ok (w.perform op) ∧
        op.slot? = some config.kind.number) ∨
      w.perform op = w.drop op.subject ∨
      (∃ mode r, w.toRunner op.subject mode = some (r, w.perform op)) ∨
      ∃ holder former, w.find? op.subject = some former ∧ holder.Succeeds former ∧
        w.perform op = w.update op.subject holder := by
  cases op with
  | claim name slot =>
    rw [perform]
    cases hclaim : w.claim name slot with
    | error e => exact .inl rfl
    | ok w' => exact .inr (.inl ⟨slot, hclaim, rfl⟩)
  | create name host config =>
    rw [perform]
    cases hcreate : w.create name host config with
    | error e => exact .inl rfl
    | ok w' => exact .inr (.inr (.inl ⟨host, config, hcreate, rfl⟩))
  | drop name => exact .inr (.inr (.inr (.inl rfl)))
  | toRunner name mode =>
    rw [perform]
    cases hmove : w.toRunner name mode with
    | none => exact .inl rfl
    | some moved => exact .inr (.inr (.inr (.inr (.inl ⟨mode, moved.1, hmove⟩))))
  | onUnit name op =>
    rw [perform]
    split
    · case h_1 p hfind =>
      split
      · case h_1 p' hperform =>
        -- the slot is part of the configuration, which no operation changes
        have hsucceeds : (Holder.unit p').Succeeds (.unit p) := by
          rw [Holder.Succeeds, Holder.slot?, Holder.slot?, Processor.config_perform hperform]
          exact .inr rfl
        exact .inr (.inr (.inr (.inr (.inr ⟨_, _, hfind, hsucceeds, rfl⟩))))
      · exact .inl rfl
    · exact .inl rfl
  | onRunner name op =>
    rw [perform]
    split
    · case h_1 r hfind =>
      split
      · case h_1 r' hperform =>
        have hsucceeds := Holder.succeeds_of_follows (Runner.follows_perform hperform)
        exact .inr (.inr (.inr (.inr (.inr ⟨_, _, hfind, hsucceeds, rfl⟩))))
      · have hsucceeds := Holder.succeeds_of_follows r.follows_afterFault
        exact .inr (.inr (.inr (.inr (.inr ⟨_, _, hfind, hsucceeds, rfl⟩))))
    · exact .inl rfl
  | giveUp name =>
    rw [perform]
    split
    · case h_1 r hfind =>
      have hsucceeds := Holder.succeeds_of_follows r.follows_afterFault
      exact .inr (.inr (.inr (.inr (.inr ⟨_, _, hfind, hsucceeds, rfl⟩))))
    · exact .inl rfl
  | work name =>
    rw [perform]
    split
    · case h_1 r hfind =>
      have hsucceeds := Holder.succeeds_of_follows r.follows_step
      exact .inr (.inr (.inr (.inr (.inr ⟨_, _, hfind, hsucceeds, rfl⟩))))
    · exact .inl rfl

/-- **Step.** Every operation keeps a workspace in order. What an operation comes to is one of few
things (`perform_cases`), each of which has a lemma of its own. -/
theorem InOrder.perform (h : w.InOrder []) (op : Operation) : (w.perform op).InOrder [] := by
  rcases w.perform_cases op with hsame | ⟨slot, hclaim, -⟩ | ⟨host, config, hcreate, -⟩ | hdrop |
    ⟨mode, r, hmove⟩ | ⟨holder, former, hfind, hsucceeds, hupdate⟩
  · rwa [hsame]
  · exact h.claim hclaim
  · exact h.create hcreate
  · rw [hdrop]
    exact (h.drop op.subject).1
  · exact h.toRunner hmove
  · rw [hupdate]
    exact h.update hfind hsucceeds

/-- **Run.** Operations keep a workspace in order, so any workspace that comes of an empty one is.
-/
theorem InOrder.run (h : w.InOrder []) (ops : List Operation) : (w.run ops).InOrder [] := by
  induction ops generalizing w with
  | nil => exact h
  | cons op rest ih => exact ih (h.perform op)

/-! ### What operations do to slots -/

section Changes

variable {i : Nat}

theorem isTaken_update (hother : ∀ former, w.find? name = some former → former.slot? ≠ some i) :
    (w.update name holder).slots.isTaken i = w.slots.isTaken i := by
  rw [update]
  split
  · rfl
  · case h_2 former hfind =>
    dsimp only
    split
    · exact Slots.isTaken_vacate_of_ne (hother former hfind)
    · rfl

/-- To drop a thing makes no difference to the slots that it does not hold. -/
theorem isTaken_drop (hother : ∀ former, w.find? name = some former → former.slot? ≠ some i) :
    (w.drop name).slots.isTaken i = w.slots.isTaken i := by
  rw [drop]
  split
  · rfl
  · case h_2 holder hfind =>
    have hclosed : holder.close.slot? ≠ some i :=
      holder.succeeds_close.slot?_ne (hother holder hfind)
    exact (Slots.isTaken_vacate_of_ne hclosed).trans (isTaken_update hother)

theorem isTaken_claimed {slots : Slots} {slot : Nat} (hclaim : w.slots.claim slot = .ok slots)
    (hslot : slot ≠ i) (hother : ∀ former, w.find? name = some former → former.slot? ≠ some i) :
    (Workspace.put { w with slots := slots } name holder).slots.isTaken i = w.slots.isTaken i := by
  have hdrop : (drop { w with slots := slots } name).slots.isTaken i = slots.isTaken i :=
    isTaken_drop (w := { w with slots := slots }) hother
  have hnew := Slots.isTaken_of_claim hclaim i
  rw [decide_eq_false (Ne.symm hslot), Bool.false_or] at hnew
  exact hdrop.trans hnew

/-- An operation makes no difference to a slot unless it asks for that slot, or is about something
that holds it. -/
theorem isTaken_perform {op : Operation} (hslot : op.slot? ≠ some i)
    (hother : ∀ former, w.find? op.subject = some former → former.slot? ≠ some i) :
    (w.perform op).slots.isTaken i = w.slots.isTaken i := by
  rcases w.perform_cases op with hsame | ⟨slot, hclaim, hasked⟩ | ⟨host, config, hcreate, hasked⟩ |
    hdrop | ⟨mode, r, hmove⟩ | ⟨holder, former, hfind, hsucceeds, hupdate⟩
  · rw [hsame]
  · obtain ⟨slots, hslots, hclaim⟩ := exists_of_bind_eq_ok hclaim
    rw [← Except.ok.inj hclaim]
    exact isTaken_claimed hslots (fun heq => hslot (heq ▸ hasked)) hother
  · obtain ⟨p, slots, hnew, hslots, hput⟩ := create_eq_ok hcreate
    rw [Processor.config_create hnew] at hslots
    rw [hput]
    exact isTaken_claimed hslots (fun heq => hslot (heq ▸ hasked)) hother
  · rw [hdrop]
    exact isTaken_drop hother
  · rw [toRunner] at hmove
    split at hmove
    · rw [← (Prod.mk.inj (Option.some.inj hmove)).2]
      rfl
    · cases hmove
  · rw [hupdate]
    exact isTaken_update hother

end Changes

/-! ### Slots and their holders -/

/-- The number of things that hold a slot, which a workspace in order keeps at one or none. -/
def holderCount (w : Workspace) (i : Nat) : Nat :=
  w.holders.countP fun entry => entry.2.slot? == some i

theorem InOrder.holderCount_eq (h : w.InOrder []) {i : Nat} (hi : i < Slots.count) :
    w.holderCount i = if w.slots.isTaken i then 1 else 0 := by
  have hcount : w.held.count i = w.holderCount i := List.count_filterMap
  have htaken : w.slots.isTaken i = true ↔ i ∈ w.held :=
    (Slots.isTaken_eq_true_iff (h.length_eq ▸ hi)).trans (h.taken_iff i)
  have hnodup : w.held.Nodup := h.nodup
  rw [← hcount, hnodup.count]
  simp only [htaken]

theorem InOrder.mem_held (h : w.InOrder []) {i : Nat} (hi : i ∈ w.held) :
    i < Slots.count ∧ w.slots.isTaken i = true := by
  have htaken := (h.taken_iff i).mpr hi
  have hlt := (List.getElem?_eq_some_iff.mp htaken).1
  exact ⟨h.length_eq ▸ hlt, (Slots.isTaken_eq_true_iff hlt).mpr htaken⟩

theorem mem_held_of_find? {i : Nat} (hfind : w.find? name = some holder)
    (hslot : holder.slot? = some i) : i ∈ w.held := by
  obtain ⟨before, after, hholders, -⟩ := List.lookup_eq_some_iff.mp hfind
  refine List.mem_filterMap.mpr ⟨(name, holder), ?_, hslot⟩
  rw [hholders]
  exact List.mem_append_right _ List.mem_cons_self

/-- What is granted a slot holds it. -/
theorem InOrder.granted {slots : Slots} {slot : Nat} (h : w.InOrder [])
    (hclaim : w.slots.claim slot = .ok slots) (hslot : holder.slot? = some slot) (name : String) :
    (Workspace.put { w with slots := slots } name holder).find? name = some holder ∧
      (Workspace.put { w with slots := slots } name holder).slots.isTaken slot = true := by
  have hfind : (Workspace.put { w with slots := slots } name holder).find? name = some holder :=
    List.lookup_cons_self
  exact ⟨hfind, ((h.grant hclaim hslot name).mem_held (mem_held_of_find? hfind hslot)).2⟩

/-- A slot is claimed exactly if there is such a slot and nothing holds it. -/
theorem InOrder.claim_eq (h : w.InOrder []) (i : Nat) :
    w.slots.claim i =
      if Slots.count ≤ i then .error (.noSuchSlot i)
      else if w.holderCount i = 0 then .ok ⟨w.slots.taken.set i true⟩
      else .error (.alreadyClaimed i) := by
  rw [Slots.claim]
  by_cases hi : Slots.count ≤ i
  · rw [if_pos hi, List.getElem?_eq_none (h.length_eq ▸ hi)]
  · have hlt : i < w.slots.taken.length := h.length_eq ▸ Nat.not_le.mp hi
    have htaken := Slots.isTaken_eq_true_iff hlt
    rw [if_neg hi, h.holderCount_eq (Nat.not_le.mp hi), List.getElem?_eq_getElem hlt]
    rw [List.getElem?_eq_getElem hlt, Option.some_inj] at htaken
    cases hflag : w.slots.taken[i] with
    | true => rw [htaken.mpr hflag]; rfl
    | false =>
      have hfree : w.slots.isTaken i = false := by
        rw [← Bool.not_eq_true, htaken, hflag]
        exact Bool.false_ne_true
      rw [hfree]
      rfl

/-- What is dropped is gone, and everything else stays where it is. -/
theorem holders_drop (w : Workspace) (name : String) :
    (w.drop name).holders = (w.remove name).holders := by
  rw [drop]
  cases hfind : w.find? name with
  | none =>
    refine (List.filter_eq_self.mpr fun entry hentry => ?_).symm
    have hne := List.lookup_eq_none_iff.mp hfind entry hentry
    exact bne_iff_ne.mpr fun heq => by
      rw [heq, bne_self_eq_false] at hne
      cases hne
  | some holder =>
    have hholders : (w.update name holder.close).holders =
        (name, holder.close) :: (w.remove name).holders := by
      rw [update, hfind]
      rfl
    have hother : ∀ entry ∈ (w.remove name).holders, (entry.1 != name) = true := fun entry hentry =>
      (List.mem_filter.mp hentry).2
    show (w.update name holder.close).holders.filter (fun entry => entry.1 != name) = _
    rw [hholders, List.filter_cons_of_neg (by simp), List.filter_eq_self.mpr hother]

theorem find?_drop (w : Workspace) (name : String) : (w.drop name).find? name = none := by
  rw [find?, holders_drop]
  exact List.lookup_eq_none_iff.mpr fun entry hentry => by
    have hne := (List.mem_filter.mp hentry).2
    rwa [bne_iff_ne, ne_comm, ← bne_iff_ne] at hne

/-- A slot is free when what held it is dropped. -/
theorem InOrder.isTaken_drop (h : w.InOrder []) {i : Nat} (hfind : w.find? name = some holder)
    (hslot : holder.slot? = some i) : (w.drop name).slots.isTaken i = false := by
  obtain ⟨hdropped, -⟩ := h.drop name
  obtain ⟨hlt, -⟩ := h.mem_held (mem_held_of_find? hfind hslot)
  -- the slot was held only once
  have hnodup := (h.remove hfind).nodup
  rw [hslot, Option.toList_some, List.append_nil, List.singleton_append, List.nodup_cons] at hnodup
  have hfree : i ∉ (w.drop name).held := by
    rw [held, holders_drop]
    exact hnodup.1
  have hlt' : i < (w.drop name).slots.taken.length := hdropped.length_eq ▸ hlt
  rw [← Bool.not_eq_true, Slots.isTaken_eq_true_iff hlt', hdropped.taken_iff]
  exact hfree

/-! ### What is done with slots -/

/-- What it comes to that a slot is claimed for a name. A claim is granted exactly if there is such
a slot and nothing holds it, and stands under the name then. A claim that is refused is told why,
and changes nothing. -/
structure Claims (w : Workspace) (name : String) (i : Nat) : Prop where
  noSuchSlot : Slots.count ≤ i → w.claim name i = .error (.noSuchSlot i)
  alreadyClaimed : i < Slots.count → w.holderCount i ≠ 0 →
    w.claim name i = .error (.alreadyClaimed i)
  granted : i < Slots.count → w.holderCount i = 0 →
    w.claim name i = .ok (w.perform (.claim name i)) ∧
      (w.perform (.claim name i)).find? name = some (.claim i) ∧
      (w.perform (.claim name i)).slots.isTaken i = true
  refused : ∀ e, w.claim name i = .error e → w.perform (.claim name i) = w

/-- What it comes to that a unit is created under a name. It is created exactly if there is memory
for it and nothing holds the slot of its number, and holds that slot from then on. A creation that
fails says what was missing, and changes nothing: above all, it does not give back the slot of the
unit that has it. -/
structure Creates (w : Workspace) (name : String) (host : Host) (config : Config) : Prop where
  outOfMemory : ∀ e, Processor.create host config = .error e →
    w.create name host config = .error (.reserve e)
  alreadyClaimed : ∀ p, Processor.create host config = .ok p →
    w.holderCount config.kind.number ≠ 0 →
      w.create name host config = .error (.claim (.alreadyClaimed config.kind.number))
  granted : ∀ p, Processor.create host config = .ok p → w.holderCount config.kind.number = 0 →
    w.create name host config = .ok (w.perform (.create name host config)) ∧
      (w.perform (.create name host config)).find? name = some (.unit p) ∧
      (w.perform (.create name host config)).slots.isTaken config.kind.number = true
  refused : ∀ e, w.create name host config = .error e → w.perform (.create name host config) = w

/-- What it comes to that a name is dropped. Nothing stands under it any more, and the slot that was
held under it is free, whatever the worker of a runner still had to do. A name under which nothing
stands may be dropped as well. -/
structure Drops (w : Workspace) (name : String) : Prop where
  gone : (w.perform (.drop name)).find? name = none
  freed : ∀ holder i, w.find? name = some holder → holder.slot? = some i →
    (w.perform (.drop name)).slots.isTaken i = false
  absent : w.find? name = none → w.perform (.drop name) = w

/-- What it comes to that a unit is moved behind a runner. The runner has the unit and its slot, and
no flag changes on the way. What is no unit is not moved. -/
structure Moves (w : Workspace) (name : String) (mode : Runner.Mode) : Prop where
  moved : ∀ p, w.find? name = some (.unit p) →
    (w.perform (.toRunner name mode)).find? name = some (.runner (.create mode p)) ∧
      (Holder.runner (.create mode p)).slot? = (Holder.unit p).slot? ∧
      (w.perform (.toRunner name mode)).slots = w.slots
  unmoved : (∀ p, w.find? name ≠ some (.unit p)) → w.perform (.toRunner name mode) = w

/-- The slots of a workspace are occupied by those that hold them, and by nothing else: a slot is
taken if exactly one thing holds it, and free if nothing does. Claims, creations, drops and moves
come to what they should, and no operation changes any slot but the one that it asks for and the one
that is held by what it is about. -/
structure Occupied (w : Workspace) : Prop where
  names : (w.holders.map Prod.fst).Nodup
  slot_lt : ∀ entry ∈ w.holders, ∀ i, entry.2.slot? = some i → i < Slots.count
  holderCount_eq : ∀ i < Slots.count, w.holderCount i = if w.slots.isTaken i then 1 else 0
  claims : ∀ name i, w.Claims name i
  creates : ∀ name host config, w.Creates name host config
  drops : ∀ name, w.Drops name
  moves : ∀ name mode, w.Moves name mode
  frame : ∀ op i, (w.perform op).slots.isTaken i ≠ w.slots.isTaken i →
    op.slot? = some i ∨ ∃ holder, w.find? op.subject = some holder ∧ holder.slot? = some i

theorem perform_of_claim {i : Nat} {w' : Workspace} (h : w.claim name i = .ok w') :
    w.perform (.claim name i) = w' := by
  rw [perform, h]
  rfl

theorem perform_of_create {host : Host} {config : Config} {w' : Workspace}
    (h : w.create name host config = .ok w') : w.perform (.create name host config) = w' := by
  rw [perform, h]
  rfl

theorem InOrder.claims (h : w.InOrder []) (name : String) (i : Nat) : w.Claims name i := by
  have hclaim := h.claim_eq i
  refine ⟨fun hi => ?_, fun hi hheld => ?_, fun hi hfree => ?_, fun e hrefused => ?_⟩
  · rw [Workspace.claim, hclaim, if_pos hi]
    rfl
  · rw [Workspace.claim, hclaim, if_neg (Nat.not_le.mpr hi), if_neg hheld]
    rfl
  · rw [if_neg (Nat.not_le.mpr hi), if_pos hfree] at hclaim
    obtain ⟨w', hgranted, hw'⟩ : ∃ w', w.claim name i = .ok w' ∧
        w' = Workspace.put { w with slots := ⟨w.slots.taken.set i true⟩ } name (.claim i) := by
      rw [Workspace.claim, hclaim]
      exact ⟨_, rfl, rfl⟩
    rw [perform_of_claim hgranted, hw']
    exact ⟨hw' ▸ hgranted, h.granted hclaim rfl name⟩
  · rw [Workspace.perform, hrefused]
    rfl

theorem InOrder.creates (h : w.InOrder []) (name : String) (host : Host) (config : Config) :
    w.Creates name host config := by
  have hnumber : config.kind.number < Slots.count := by
    cases config.kind with
    | vu0 => decide
    | vu1 => decide
  have hclaim := h.claim_eq config.kind.number
  rw [if_neg (Nat.not_le.mpr hnumber)] at hclaim
  refine ⟨fun e hnone => ?_, fun p hnew hheld => ?_, fun p hnew hfree => ?_, fun e hrefused => ?_⟩
  · rw [Workspace.create, hnone]
  · rw [Workspace.create, hnew, hclaim, if_neg hheld]
  · rw [if_pos hfree] at hclaim
    have hslot : (Holder.unit p).slot? = some config.kind.number := by
      rw [Holder.slot?, Processor.config_create hnew]
    obtain ⟨w', hgranted, hw'⟩ : ∃ w', w.create name host config = .ok w' ∧ w' =
        Workspace.put { w with slots := ⟨w.slots.taken.set config.kind.number true⟩ } name
          (.unit p) := by
      rw [Workspace.create, hnew, hclaim]
      exact ⟨_, rfl, rfl⟩
    rw [perform_of_create hgranted, hw']
    exact ⟨hw' ▸ hgranted, h.granted hclaim hslot name⟩
  · rw [Workspace.perform, hrefused]
    rfl

theorem InOrder.drops (h : w.InOrder []) (name : String) : w.Drops name := by
  refine ⟨w.find?_drop name, fun holder i hfind hslot => h.isTaken_drop hfind hslot,
    fun hnone => ?_⟩
  rw [Workspace.perform, Workspace.drop, hnone]

theorem moves (w : Workspace) (name : String) (mode : Runner.Mode) : w.Moves name mode := by
  refine ⟨fun p hfind => ?_, fun hnone => ?_⟩
  · have hperform : w.perform (.toRunner name mode) =
        w.replace name (.runner (.create mode p)) := by
      rw [perform, toRunner, hfind]
      rfl
    rw [hperform]
    exact ⟨List.lookup_cons_self, rfl, rfl⟩
  · rw [perform, toRunner]
    split
    · case h_1 p hfind => exact absurd hfind (hnone p)
    · rfl

/-- **Occupancy.** Whatever was done in a workspace, its slots are occupied by what holds them: a
slot is taken exactly if one thing holds it, and each further operation is granted or refused
accordingly. -/
theorem occupancy_of_operations (ops : List Operation) : (Workspace.empty.run ops).Occupied := by
  have h := InOrder.empty.run ops
  refine ⟨h.names, ?_, fun i hi => h.holderCount_eq hi, h.claims, h.creates, h.drops, moves _,
    fun op i hchanged => ?_⟩
  · intro entry hentry i hslot
    exact (h.mem_held (List.mem_filterMap.mpr ⟨entry, hentry, hslot⟩)).1
  · by_contra hneither
    rw [not_or] at hneither
    exact hchanged (isTaken_perform hneither.1 fun former hfind hslot =>
      hneither.2 ⟨former, hfind, hslot⟩)

/-- A unit is created, another one with its number is refused, and the first one is moved behind a
runner and requested to run. -/
def handedOver : List Operation :=
  [.create "first" .compact .standard, .create "second" .compact .standard,
    .toRunner "first" .threaded, .onRunner "first" (.request 0 8)]

/-- The request is still in flight when the runner is dropped, and then the second unit gets the
slot. -/
theorem occupancy_of_operations_of_handedOver : ∃ p w w',
    Processor.create .compact .standard = .ok p ∧ w = Workspace.empty.run handedOver ∧
      w.create "second" .compact .standard = .error (.claim (.alreadyClaimed 0)) ∧
      (∃ r, w.find? "first" = some (.runner r) ∧ r.inbox = [⟨0, 8⟩]) ∧
      w.slots.isTaken 0 = true ∧ w' = w.perform (.drop "first") ∧ w'.slots.isTaken 0 = false ∧
      (w'.perform (.create "second" .compact .standard)).find? "second" = some (.unit p) ∧
      (w'.perform (.create "second" .compact .standard)).slots.isTaken 0 = true := by
  obtain ⟨p, hnew⟩ : ∃ p, Processor.create .compact .standard = .ok p := ⟨_, rfl⟩
  obtain ⟨r, hfind, hinbox, hslot⟩ : ∃ r,
      (Workspace.empty.run handedOver).find? "first" = some (.runner r) ∧
        r.inbox = [⟨0, 8⟩] ∧ (Holder.runner r).slot? = some 0 := ⟨_, rfl, rfl, rfl⟩
  have htaken : (Workspace.empty.run handedOver).slots.isTaken 0 = true := by decide +kernel
  have hbefore := occupancy_of_operations handedOver
  have hafter := occupancy_of_operations (handedOver ++ [.drop "first"])
  rw [run_concat] at hafter
  have hheld : (Workspace.empty.run handedOver).holderCount 0 ≠ 0 := by
    rw [hbefore.holderCount_eq 0 (by decide), htaken]
    decide
  have hfreed := (hbefore.drops "first").freed _ 0 hfind hslot
  have hnone : ((Workspace.empty.run handedOver).perform (.drop "first")).holderCount 0 = 0 := by
    rw [hafter.holderCount_eq 0 (by decide), hfreed]
    rfl
  obtain ⟨-, hfound, htaken'⟩ := (hafter.creates "second" .compact .standard).granted p hnew hnone
  exact ⟨p, _, _, hnew, rfl, (hbefore.creates _ _ _).alreadyClaimed p hnew hheld,
    ⟨r, hfind, hinbox⟩, htaken, rfl, hfreed, hfound, htaken'⟩

end Workspace

end VectorUnit
