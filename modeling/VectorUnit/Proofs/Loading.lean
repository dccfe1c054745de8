import VectorUnit.Proofs.Following
import VectorUnit.Proofs.Invalidation

/-!
# Loading save states

A unit takes a save state as a whole or not at all. It takes every save state of its kind that has
as much microcode as its memory, whoever made it, and saves the same again afterwards; beyond that
it has lost its shortcuts and nothing else (`Processor.Restored`). Any other save state is refused,
and the unit is as it was. See `Processor.restored_of_uses`.

With a save state a unit takes over branch tracking, although it is stale then. There is no other
way in which a stale unit comes to have any (`Processor.tracking_of_stale`). A change of microcode
does nothing to a stale unit, so it leaves that tracking where it is, as does everything else until
a block is looked up or the unit is reset (`Processor.SinceLoad`). In all other cases a change
leaves no tracking. See `Processor.tracking_of_change`.
-/

namespace VectorUnit

/-! ### Save states that fit -/

namespace SaveState

/-- A save state was taken from a unit of this kind and has as much microcode as its memory. These
two are checked before anything of the unit is changed. -/
def Fits (s : SaveState) (kind : UnitKind) : Prop :=
  s.kind = kind ∧ s.microcode.size = kind.memorySize

theorem fit_of_fits {s : SaveState} {kind : UnitKind} (h : s.Fits kind) : s.fit kind = .ok ⟨⟩ :=
  if_pos h

theorem fit_of_not_fits {s : SaveState} {kind : UnitKind} (h : ¬ s.Fits kind) :
    s.fit kind = .error ⟨kind, s.kind, s.microcode.size⟩ :=
  if_neg h

end SaveState

/-- An operation that has no part in branch tracking, unless it changes the microcode of a unit that
is not stale. -/
def Operation.leavesTracking : Operation → Bool
  | .write _ _ | .noteChange _ _ | .setRegisters _ => true
  | .reset _ | .load _ | .findBlock _ | .execute _ _ => false

namespace Processor

variable {p p' q q' : Processor} {m : Memory} {s : SaveState}

/-! ### What loading does -/

/-- A unit `p` has taken over a save state, and is `q` now: it saves the same again, and is
otherwise as if its registers and its microcode had been changed. So it has lost its shortcuts, and
everything that is no part of a save state is as it was. -/
structure Restored (p : Processor) (s : SaveState) (q : Processor) : Prop where
  save_eq : q.save = s
  invalidated : (p.withRegisters s.registers).Invalidated s.microcode q

/-- Branch tracking has no part in what a change of microcode leaves as it was. -/
theorem Invalidated.withTracking (h : p.Invalidated m q) (tracking : Tracking) :
    p.Invalidated m { q with tracking := tracking } :=
  ⟨h.stale, h.shortcut_eq, h.microcode_eq, h.programs_eq, h.blocks_eq, h.nextSerial_eq,
    h.listed_eq, h.recent_eq, h.registers_eq, h.counters_eq, h.recompiler_eq, h.dispatcher_eq,
    h.config_eq, h.host_eq⟩

theorem restored_of_invalidated (h : (p.withRegisters s.registers).Invalidated s.microcode q)
    (hkind : s.kind = p.config.kind) (htracking : q.tracking = s.tracking) : p.Restored s q := by
  have hkind' : q.config.kind = s.kind := (congrArg Config.kind h.config_eq).trans hkind.symm
  refine ⟨?_, h⟩
  calc q.save
    _ = ⟨q.config.kind, q.microcode, q.tracking, q.registers⟩ := rfl
    _ = ⟨s.kind, s.microcode, s.tracking, s.registers⟩ := by
      rw [hkind', h.microcode_eq, htracking, h.registers_eq]
      rfl

/-- A save state that fits is taken over. -/
theorem InUse.restored_load (hp : p.InUse) (hfits : s.Fits p.config.kind) :
    ∃ q, p.load s = .ok q ∧ p.Restored s q := by
  have hregisters : Step anyProgram p (p.withRegisters s.registers) := .setRegisters _
  have hinvalidated := (hp.step hregisters).invalidated_markStale s.microcode
  refine ⟨_, ?_, restored_of_invalidated (hinvalidated.withTracking s.tracking) hfits.1 rfl⟩
  rw [load_eq, SaveState.fit_of_fits hfits]
  rfl

theorem load_of_not_fits (h : ¬ s.Fits p.config.kind) :
    p.load s = .error ⟨p.config.kind, s.kind, s.microcode.size⟩ := by
  rw [load_eq, SaveState.fit_of_not_fits h]

/-- Loading in place is done when the unit has taken over the save state. -/
theorem run_loadInPlace_of_load (h : p.load s = .ok q) : (loadInPlace s).run p = .ok () q := by
  rw [load_eq] at h
  rw [run_loadInPlace]
  cases hfit : s.fit p.config.kind with
  | ok _ =>
    rw [hfit] at h
    obtain rfl := Except.ok.inj h
    rfl
  | error e =>
    rw [hfit] at h
    cases h

/-- Where loading in place fails, nothing has been stored into the unit yet. -/
theorem run_loadInPlace_of_load_error {e : SaveState.Misfit} (h : p.load s = .error e) :
    (loadInPlace s).run p = .error e p := by
  rw [load_eq] at h
  rw [run_loadInPlace]
  cases hfit : s.fit p.config.kind with
  | ok _ =>
    rw [hfit] at h
    cases h
  | error e' =>
    rw [hfit] at h
    obtain rfl := Except.error.inj h
    rfl

theorem InUse.fits_save (hp : p.InUse) : p.save.Fits p.config.kind :=
  ⟨rfl, hp.stocked.size_eq⟩

/-- **Loading.** Whatever was done to a unit, it takes a save state if that fits, and only then. It
has taken over the whole save state afterwards, or it is left as it was before: nothing has been
stored into it where loading in place gives up. -/
theorem restored_of_uses {host : Host} {config : Config} (hcreate : create host config = .ok p)
    (h : Uses anyProgram p p') (s : SaveState) :
    ((∃ q, p'.load s = .ok q) ↔ s.Fits config.kind) ∧
      (∀ q, p'.load s = .ok q → (loadInPlace s).run p' = .ok () q ∧
        p'.perform (.load s) = .ok (.done, q) ∧ p'.Restored s q) ∧
      ∀ e, p'.load s = .error e → (loadInPlace s).run p' = .error e p' ∧
        p'.perform (.load s) = .ok (.refused e, p') ∧
        e = ⟨config.kind, s.kind, s.microcode.size⟩ := by
  have hp' : p'.InUse := (inUse_create hcreate).uses h
  rw [← config_of_uses hcreate h]
  have hloads : s.Fits p'.config.kind → ∃ q, p'.load s = .ok q ∧ p'.Restored s q :=
    hp'.restored_load
  refine ⟨⟨fun hload => ?_, fun hfits => ?_⟩, fun q hload => ?_, fun e hload => ?_⟩
  · obtain ⟨q, hload⟩ := hload
    by_contra hmisfit
    cases hload.symm.trans (load_of_not_fits hmisfit)
  · obtain ⟨q, hload, -⟩ := hloads hfits
    exact ⟨q, hload⟩
  · have hfits : s.Fits p'.config.kind := by
      by_contra hmisfit
      cases hload.symm.trans (load_of_not_fits hmisfit)
    obtain ⟨q', hload', hrestored⟩ := hloads hfits
    obtain rfl := Except.ok.inj (hload.symm.trans hload')
    have hperform : p'.perform (.load s) = .ok (.done, q) := by
      rw [perform_load, hload]
    exact ⟨run_loadInPlace_of_load hload, hperform, hrestored⟩
  · have hmisfit : ¬ s.Fits p'.config.kind := by
      intro hfits
      obtain ⟨q, hload', -⟩ := hloads hfits
      cases hload.symm.trans hload'
    have hperform : p'.perform (.load s) = .ok (.refused e, p') := by
      rw [perform_load, hload]
    exact ⟨run_loadInPlace_of_load_error hload, hperform,
      Except.error.inj (hload.symm.trans (load_of_not_fits hmisfit))⟩

/-- A block was found, and there is a shortcut to it, when the unit loads what was saved before. -/
theorem restored_of_idleLoop : ∃ p p₁ p' a q, create .compact .standard = .ok p ∧
    p.perform (.write 0 idleLoop) = .ok (.done, p₁) ∧ p₁.perform (.findBlock 0) = .ok (a, p') ∧
    p'.stale = false ∧ (p'.cache.shortcut? 0).isSome = true ∧
    p'.perform (.load p₁.save) = .ok (.done, q) ∧ p'.Restored p₁.save q := by
  obtain ⟨p, p₁, hnew, hwrite, hok⟩ : ∃ p p₁, create .compact .standard = .ok p ∧
      p.perform (.write 0 idleLoop) = .ok (.done, p₁) ∧
      ((p₁.perform (.findBlock 0)).toOption.any fun r =>
        !r.2.stale && (r.2.cache.shortcut? 0).isSome) = true :=
    ⟨_, _, rfl, rfl, by decide +kernel⟩
  obtain ⟨⟨a, p'⟩, hfind, hok⟩ := exists_ok_of_any hok
  rw [Bool.and_eq_true, Bool.not_eq_true'] at hok
  have hwritten : Uses anyProgram p p₁ := .single (.perform hwrite)
  have hfits : p₁.save.Fits Config.standard.kind :=
    config_of_uses hnew hwritten ▸ ((inUse_create hnew).uses hwritten).fits_save
  obtain ⟨hiff, hloads, -⟩ := restored_of_uses hnew (hwritten.tail (.perform hfind)) p₁.save
  obtain ⟨q, hload⟩ := hiff.mpr hfits
  obtain ⟨-, hperform, hrestored⟩ := hloads q hload
  exact ⟨p, p₁, p', a, q, hnew, hwrite, hfind, hok.1, hok.2, hperform, hrestored⟩

/-! ### Branch tracking of stale units -/

/-- A unit has loaded a save state, and nothing was done since that has a part in branch
tracking. -/
inductive SinceLoad (p : Processor) (s : SaveState) : Processor → Prop where
  | load {q q' : Processor} (h : Uses anyProgram p q) (hload : q.load s = .ok q') :
      SinceLoad p s q'
  | perform {q q' : Processor} {op : Operation} {a : Answer} (h : SinceLoad p s q)
      (hleaves : op.leavesTracking = true) (hperform : q.perform op = .ok (a, q')) :
      SinceLoad p s q'
  | fetch {q q' : Processor} {program : ProgramNumber} {offset : Nat} {id : BlockNumber}
      (h : SinceLoad p s q) (hpair : q.microcode.HasPair offset)
      (hfetch : q.blockAt program offset = .ok (id, q')) : SinceLoad p s q'

theorem tracking_markStale (p : Processor) :
    p.markStale.tracking = if p.stale then p.tracking else .zero := by
  rw [markStale]
  split
  · rfl
  · rfl

/-- A change zeroes branch tracking, unless the unit is stale. -/
theorem Change.tracking_eq (h : p.Change m q) :
    q.tracking = if p.stale then p.tracking else .zero := by
  cases h with
  | note offset size => exact p.tracking_markStale
  | write offset hne =>
    rw [Processor.write, if_neg (by simpa using hne)]
    exact tracking_markStale _

/-- A stale unit has kept its branch tracking, and a unit that has become stale has lost it. So
tracking that is set while the unit is stale outlives the next change of microcode. -/
structure LeavesTracking (p q : Processor) : Prop where
  kept : p.stale = true → q.stale = true ∧ q.tracking = p.tracking
  lost : p.stale = false → q.stale = true → q.tracking = .zero

theorem LeavesTracking.of_eq (hstale : q.stale = p.stale) (htracking : q.tracking = p.tracking) :
    p.LeavesTracking q := by
  refine ⟨fun h => ⟨hstale.trans h, htracking⟩, fun h h' => ?_⟩
  rw [hstale, h] at h'
  cases h'

theorem leavesTracking_markStale (hstale : p'.stale = p.stale)
    (htracking : p'.tracking = p.tracking) : p.LeavesTracking p'.markStale := by
  have hmark := p'.tracking_markStale
  rw [hstale, htracking] at hmark
  exact ⟨fun h => ⟨stale_markStale p', hmark.trans (if_pos h)⟩,
    fun h _ => hmark.trans (if_neg (by rw [h]; decide))⟩

/-- **Step.** An operation that has no part in branch tracking leaves it alone, or loses it with the
shortcuts when the unit becomes stale. -/
theorem leavesTracking_of_perform {op : Operation} {a : Answer} (hleaves : op.leavesTracking = true)
    (hperform : p.perform op = .ok (a, q)) : p.LeavesTracking q := by
  cases performs_of_eq_ok hperform with
  | writeNone offset => exact .of_eq rfl rfl
  | write offset hne => exact leavesTracking_markStale rfl rfl
  | noteChange offset size => exact leavesTracking_markStale rfl rfl
  | setRegisters registers => exact .of_eq rfl rfl
  | reset full => cases hleaves
  | load hload => cases hleaves
  | refused hload => cases hleaves
  | findBlock hfind => cases hleaves
  | execute hrun => cases hleaves

theorem SinceLoad.tracking_eq (h : SinceLoad p s q) : q.stale = true ∧ q.tracking = s.tracking := by
  induction h with
  | load _ hload =>
    obtain rfl := load_eq_ok hload
    exact ⟨stale_markStale _, rfl⟩
  | perform _ hleaves hperform ih =>
    obtain ⟨hstale, htracking⟩ := (leavesTracking_of_perform hleaves hperform).kept ih.1
    exact ⟨hstale, htracking.trans ih.2⟩
  | fetch _ hpair hfetch ih =>
    obtain ⟨-, hstale, -⟩ := retains_blockAt hfetch hpair
    exact ⟨hstale.trans ih.1, (tracking_blockAt hfetch).trans ih.2⟩

/-- A unit that has taken a turn is not stale. -/
theorem stale_turn {pc : UInt32} {begun : Bool} {cycles : UInt32}
    (hturn : p.turn pc begun = .ok (cycles, q)) : q.stale = false := by
  obtain ⟨hit, found, hnext, -, rfl⟩ := turn_eq_ok hturn
  rw [stale_enter]
  rw [nextBlock] at hnext
  split at hnext
  · split at hnext
    · exact (enterProgram_fresh hnext).1
    · exact (findBlockAt_fresh hnext).1
  · exact (findBlockAt_fresh hnext).1

theorem stale_runBlocks {budget pc : UInt32} (turns : Nat) {done t : Tally}
    (hfresh : turns = 0 → p.stale = false)
    (hrun : p.runBlocks budget turns pc done = .ok (t, q)) : q.stale = false := by
  induction turns using Nat.strongRecOn generalizing p pc done with
  | ind turns ih =>
  cases turns with
  | zero =>
    obtain ⟨-, rfl⟩ := Prod.mk.inj (Except.ok.inj hrun)
    exact hfresh rfl
  | succ turns =>
    rcases runBlocks_succ budget turns p pc done with ⟨fault, -, hfails, -⟩ |
      ⟨cycles, p₁, left, hturn, hleft, hgoes, -⟩
    · cases hfails.symm.trans hrun
    · exact ih left (Nat.lt_succ_of_le hleft) (fun _ => stale_turn hturn) (hgoes ▸ hrun)

theorem stale_execute {start budget : UInt32} {t : Tally}
    (hrun : p.execute start budget = .ok (t, q)) : q.stale = false :=
  stale_runBlocks _ (fun hnone => by omega) hrun

/-- **Step.** A stale unit has no branch tracking but that of the save state loaded last. Loading
another one replaces it, and nothing else sets it as long as the unit stays stale. -/
theorem tracking_of_perform {op : Operation} {a : Answer} (h : Uses anyProgram p p')
    (hperform : p'.perform op = .ok (a, q)) (hstale : q.stale = true)
    (hbefore : p'.stale = true → p'.tracking = .zero ∨ ∃ s, SinceLoad p s p') :
    q.tracking = .zero ∨ ∃ s, SinceLoad p s q := by
  cases hleaves : op.leavesTracking with
  | true =>
    -- branch tracking is what it was, or has just been lost
    obtain ⟨hkept, hlost⟩ := leavesTracking_of_perform hleaves hperform
    cases hp' : p'.stale with
    | true =>
      rcases hbefore hp' with hzero | ⟨s, hs⟩
      · exact .inl ((hkept hp').2.trans hzero)
      · exact .inr ⟨s, hs.perform hleaves hperform⟩
    | false => exact .inl (hlost hp' hstale)
  | false =>
    cases performs_of_eq_ok hperform with
    | reset full =>
      refine .inl ?_
      rw [reset_eq]
      rfl
    | load hload => exact .inr ⟨_, .load h hload⟩
    -- a save state that is refused changes nothing
    | refused hload => exact hbefore hstale
    | findBlock hfind => cases hstale.symm.trans (findBlockAt_fresh hfind).1
    | execute hrun => cases hstale.symm.trans (stale_execute hrun)
    | writeNone offset => cases hleaves
    | write offset hne => cases hleaves
    | noteChange offset size => cases hleaves
    | setRegisters registers => cases hleaves

/-- **Invariant.** So has a unit that anything was done to, from when it was new. -/
theorem tracking_of_stale {host : Host} {config : Config} (hcreate : create host config = .ok p)
    (h : Uses anyProgram p q) (hstale : q.stale = true) :
    q.tracking = .zero ∨ ∃ s, SinceLoad p s q := by
  induction h with
  | refl =>
    obtain ⟨recompiler, -, hcreate⟩ := exists_of_bind_eq_ok hcreate
    obtain rfl := Except.ok.inj hcreate
    exact .inl rfl
  | @tail q q' huses huse ih =>
    cases huse with
    | perform hperform => exact tracking_of_perform huses hperform hstale ih
    | fetch _ hpair hfetch =>
      obtain ⟨-, hsame, -⟩ := retains_blockAt hfetch hpair
      rcases ih (hsame.symm.trans hstale) with hzero | ⟨s, hs⟩
      · exact .inl ((tracking_blockAt hfetch).trans hzero)
      · exact .inr ⟨s, hs.fetch hpair hfetch⟩

/-! ### Changes -/

/-- **Branch tracking and changes.** Whatever was done to a unit, a change of microcode or a note of
one leaves no branch tracking, unless the unit has loaded a save state and looked up no block since
nor been reset. Then it leaves that of the save state. -/
theorem tracking_of_change {host : Host} {config : Config} (hcreate : create host config = .ok p)
    (h : Uses anyProgram p p') (hchange : p'.Change m q) :
    ((∀ s, ¬ SinceLoad p s p') → q.tracking = .zero) ∧
      ∀ s, SinceLoad p s p' → q.tracking = s.tracking := by
  rw [hchange.tracking_eq]
  constructor
  · intro hnone
    split
    · case isTrue hstale =>
      rcases tracking_of_stale hcreate h hstale with hzero | ⟨s, hs⟩
      · exact hzero
      · exact absurd hs (hnone s)
    · rfl
  · intro s hs
    obtain ⟨hstale, htracking⟩ := hs.tracking_eq
    rw [if_pos hstale, htracking]

/-- A unit that has run loads what it saves then. -/
theorem exists_reload : ∃ p p₁ p₂ p₃ t, create .compact .standard = .ok p ∧
    p.perform (.write 0 idleLoop) = .ok (.done, p₁) ∧
    p₁.perform (.execute 0 1) = .ok (.ran t, p₂) ∧ p₂.tracking = ⟨.verified, 0, 0, 1⟩ ∧
    p₂.stale = false ∧ p₂.load p₂.save = .ok p₃ := by
  obtain ⟨p, p₁, hnew, hwrite, hok⟩ : ∃ p p₁, create .compact .standard = .ok p ∧
      p.perform (.write 0 idleLoop) = .ok (.done, p₁) ∧
      ((p₁.execute 0 1).toOption.any fun r => r.2.tracking = ⟨.verified, 0, 0, 1⟩) = true :=
    ⟨_, _, rfl, rfl, by decide +kernel⟩
  obtain ⟨⟨t, p₂⟩, hrun, htracking⟩ := exists_ok_of_any hok
  have hperform : p₁.perform (.execute 0 1) = .ok (.ran t, p₂) := by
    rw [perform, hrun]
    rfl
  have huses : Uses anyProgram p p₂ := .tail (.single (.perform hwrite)) (.perform hperform)
  have hp₂ : p₂.InUse := (inUse_create hnew).uses huses
  obtain ⟨p₃, hload, -⟩ := hp₂.restored_load hp₂.fits_save
  exact ⟨p, p₁, p₂, p₃, t, hnew, hwrite, hperform, of_decide_eq_true htracking,
    stale_execute hrun, hload⟩

/-- The same byte is written before the unit is loaded and after it is. -/
theorem tracking_of_change_of_reload : ∃ p p₂ p₃, create .compact .standard = .ok p ∧
    Uses anyProgram p p₂ ∧ p₂.load p₂.save = .ok p₃ ∧ (p₂.write 0 [1]).tracking = .zero ∧
    (p₃.write 0 [1]).tracking = ⟨.verified, 0, 0, 1⟩ := by
  obtain ⟨p, p₁, p₂, p₃, t, hnew, hwrite, hrun, htracking, hstale, hload⟩ := exists_reload
  have huses : Uses anyProgram p p₂ := .tail (.single (.perform hwrite)) (.perform hrun)
  have hloaded : p₂.perform (.load p₂.save) = .ok (.done, p₃) := by
    rw [perform_load, hload]
  obtain ⟨hzero, -⟩ := tracking_of_change hnew huses (.write 0 (List.cons_ne_nil 1 []))
  obtain ⟨-, hkept⟩ := tracking_of_change hnew (huses.tail (.perform hloaded))
    (.write 0 (List.cons_ne_nil 1 []))
  refine ⟨p, p₂, p₃, hnew, huses, hload, hzero fun s hs => ?_,
    (hkept _ (.load huses hload)).trans htracking⟩
  cases hs.tracking_eq.1.symm.trans hstale

/-- Microcode is written, and branch tracking from before that is still there. -/
theorem tracking_ne_zero_of_reload : ∃ p p₁ p₂ p₃ t, create .compact .standard = .ok p ∧
    p.perform (.write 0 idleLoop) = .ok (.done, p₁) ∧
    p₁.perform (.execute 0 1) = .ok (.ran t, p₂) ∧
    p₂.perform (.load p₂.save) = .ok (.done, p₃) ∧
    p₃.Change (p₃.microcode.write 0 [1]) (p₃.write 0 [1]) ∧ (p₃.write 0 [1]).tracking ≠ .zero := by
  obtain ⟨p, p₁, p₂, p₃, t, hnew, hwrite, hrun, htracking, -, hload⟩ := exists_reload
  have hloaded : p₂.perform (.load p₂.save) = .ok (.done, p₃) := by
    rw [perform_load, hload]
  have huses : Uses anyProgram p p₂ := .tail (.single (.perform hwrite)) (.perform hrun)
  obtain ⟨hstale, hkept⟩ := (SinceLoad.load huses hload).tracking_eq
  have hchange : p₃.Change (p₃.microcode.write 0 [1]) (p₃.write 0 [1]) :=
    .write 0 (List.cons_ne_nil 1 [])
  refine ⟨p, p₁, p₂, p₃, t, hnew, hwrite, hrun, hloaded, hchange, ?_⟩
  have hsaved : p₂.save.tracking = ⟨.verified, 0, 0, 1⟩ := htracking
  rw [hchange.tracking_eq, if_pos hstale, hkept, hsaved]
  decide

end Processor

end VectorUnit
