import VectorUnit.Proofs.RoundTrip
import VectorUnit.Proofs.Splitting

/-!
# Going on from a save state

A unit that loads the save state of another unit of its kind goes on as the other one does
(`Processor.resume_eq`). What the two have in their caches, how they compare programs, and when they
run out of room has nothing to do with it: without their caches the two are the same unit
(`Processor.uncached_load_save`), and that is all that a history shows of a unit.
-/

namespace VectorUnit

namespace Processor

variable {u v : Processor}

/-- A unit takes every save state of another one of its kind, and is then, but for its cache, the
other one. -/
theorem uncached_load_save (hu : u.Sound) (hv : v.Sound) (hkind : v.config.kind = u.config.kind)
    (hlength : v.config.maxBlockLength = u.config.maxBlockLength) :
    ∃ v', v.load u.save = .ok v' ∧ v'.Sound ∧ v'.uncached = u.uncached ∧
      v'.isUnlocked = v.isUnlocked := by
  have hfit : u.save.fit v.uncached.kind = .ok ⟨⟩ :=
    if_pos ⟨hkind.symm, hu.size_eq.trans (congrArg UnitKind.memorySize hkind.symm)⟩
  have huncached : v.uncached.load u.save = .ok u.uncached := by
    rw [Uncached.load, hfit]
    show Except.ok (Uncached.mk v.config.kind v.config.maxBlockLength u.microcode u.registers) = _
    rw [hkind, hlength]
    rfl
  rcases load_spec hv u.save with ⟨v', hload, hsound, hloaded, hunlocked⟩ | ⟨e, -, hfails⟩
  · exact ⟨v', hload, hsound, Except.ok.inj (hloaded.symm.trans huncached), hunlocked⟩
  · rw [huncached] at hfails
    cases hfails

/-- The save state of a unit is read back from its document. -/
theorem Sound.decode_encode_save (hu : u.Sound) : SaveState.decode u.save.encode = .ok u.save := by
  have hsize : u.save.microcode.size < UInt64.size := by
    have hle := u.config.kind.memorySize_le
    rw [← hu.size_eq] at hle
    exact Nat.lt_of_le_of_lt hle (by decide)
  have hdecode := u.save.decode_encode_append hsize []
  rwa [List.append_nil] at hdecode

/-- **Resumption.** The save state of a unit survives being written down and read again. After
another unit of the same kind and the same greatest block length has loaded it, any operations
return the same on both units and leave the same registers and the same microcode, step by step, as
long as both arenas may be written and the code of all blocks has room in them. -/
theorem resume_eq (hu : u.Reachable) (hv : v.Reachable) (hkind : v.config.kind = u.config.kind)
    (hlength : v.config.maxBlockLength = u.config.maxBlockLength) :
    SaveState.decode u.save.encode = .ok u.save ∧ ∃ v', v.load u.save = .ok v' ∧
      (u.isUnlocked = true → v.isUnlocked = true → ∀ ops,
        (∀ offset, u.history ops ≠ .error (.exhausted offset)) →
        (∀ offset, v'.history ops ≠ .error (.exhausted offset)) →
        ∃ h h', u.history ops = .ok h ∧ v'.history ops = .ok h' ∧ seen h' = seen h) := by
  constructor
  · exact hu.sound.decode_encode_save
  · obtain ⟨v', hload, hsound, huncached, hsame⟩ :=
      uncached_load_save hu.sound hv.sound hkind hlength
    refine ⟨v', hload, fun hunlocked hunlocked' ops hroom hroom' => ?_⟩
    obtain ⟨h, hrun, hseen⟩ := (history_spec hu.sound ops).exists_ok hunlocked hroom
    obtain ⟨h', hrun', hseen'⟩ :=
      (history_spec hsound ops).exists_ok (hsame.trans hunlocked') hroom'
    rw [huncached] at hseen'
    exact ⟨h, h', hrun, hrun', Option.some.inj (hseen'.symm.trans hseen)⟩

/-- Runs the program twice, from its beginning and from its end. -/
def twoRuns : List Operation :=
  [.execute 0 8, .execute 8 1]

theorem resume_eq_of_countingImage : ∃ u v v' h h',
    Reachable u ∧ Reachable v ∧ u.config.matchMode ≠ v.config.matchMode ∧
      v.cache.programs.size = 1 ∧ SaveState.decode u.save.encode = .ok u.save ∧
      v.load u.save = .ok v' ∧ u.history twoRuns = .ok h ∧ v'.history twoRuns = .ok h' ∧
      seen h' = seen h := by
  obtain ⟨u, v₀, hu, hv₀, hmode, hunlocked, hok⟩ : ∃ u v₀, Reachable u ∧ Reachable v₀ ∧
      u.config = { Config.standard with matchMode := .byImage, maxBlockLength := 4 } ∧
      u.isUnlocked = true ∧
      (v₀.perform (.findBlock 0)).toOption.any (fun r =>
        r.2.config = { Config.standard with maxBlockLength := 4 } && r.2.isUnlocked &&
        r.2.cache.programs.size = 1 && (u.history twoRuns).toBool &&
        (r.2.load u.save).toOption.any fun v' => (v'.history twoRuns).toBool) = true :=
    ⟨_, _, .perform (.create (show create .compact { Config.standard with
          matchMode := .byImage, maxBlockLength := 4 } = .ok _ from rfl))
        (show perform _ (.write 0 countingImage) = .ok (.done, _) from rfl),
      .create (show create .compact { Config.standard with maxBlockLength := 4 } = .ok _ from rfl),
      rfl, rfl, by decide +kernel⟩
  obtain ⟨⟨a, v⟩, hfind, hok⟩ := exists_ok_of_any hok
  simp only [Bool.and_eq_true, decide_eq_true_iff] at hok
  obtain ⟨⟨⟨⟨hconfig, hunlocked'⟩, hprograms⟩, hruns⟩, hresumes⟩ := hok
  obtain ⟨v', hload, hresumes⟩ := exists_ok_of_any hresumes
  have hv : v.Reachable := .perform hv₀ hfind
  obtain ⟨hdecode, v'', hload', hresume⟩ := resume_eq hu hv (by rw [hmode, hconfig])
    (by rw [hmode, hconfig])
  obtain rfl := Except.ok.inj (hload'.symm.trans hload)
  obtain ⟨h, h', hrun, hrun', hseen⟩ := hresume hunlocked hunlocked' twoRuns
    (fun offset hfault => by rw [hfault] at hruns; cases hruns)
    (fun offset hfault => by rw [hfault] at hresumes; cases hresumes)
  refine ⟨u, v, v'', h, h', hu, hv, ?_, hprograms, hdecode, hload', hrun, hrun', hseen⟩
  rw [hmode, hconfig]
  decide

end Processor

end VectorUnit
