import Dokan.Ports.Update

/-!
# An install that fails

`install` promises that an error leaves the executable as it was and no temp
file behind.  It keeps that up to the creation of the temp file, and through
the failures of `chmod` and of the rename; the write, the flush and the sync
return early, and the check of the installed binary comes after the rename.

## Main results

* `install_keeps_iff` — when a failed install leaves no trace.
-/

namespace Dokan.Ports.UpdateFaults

open Dokan.Ports.Receipt
open Dokan.Ports.Update

/-- Nothing has changed at the executable, and no file was created. -/
def Untouched (exe : Except String Path) (d d' : Disk) : Prop :=
  (∀ p, exe = .ok p → d'.files p = d.files p) ∧ ∀ p, d.files p = none → d'.files p = none

/-- An install that fails leaves no trace. -/
def Keeps {V : Type} (w : World V) (release : Release) (latest : V) (d : Disk) : Prop :=
  ∀ e, (install w release latest d).1 = .error e →
    Untouched w.currentExe d (install w release latest d).2

/-- The temp file is written to the end. -/
def written (sys : Syscalls) : Bool := sys.write.isOk && sys.flush.isOk && sys.syncAll.isOk

/-- The temp file replaces the executable. -/
def replaces (sys : Syscalls) : Bool := sys.setPermissions.isOk && sys.rename.isOk

/-- What has to go well once the temp file is open: it is written, and it
replaces the executable and passes the check or has the old bytes, or it does
not and is removed; or a file of its name was there before. -/
def Recovers {V : Type} (w : World V) (latest : V) (exe tmp : Path) (b : Bytes) (d : Disk) : Prop :=
  if written w.sys then
    if replaces w.sys then verify w latest = .ok () ∨ d.files exe = some b
    else w.sys.removeFile.isOk ∨ d.files tmp ≠ none
  else d.files tmp ≠ none

/-! ## The temp file -/

section Temp

variable {sys : Syscalls} {exe tmp : Path} {dir : String} {pid : Nat} {bytes : Bytes}

theorem isOk_iff {ε α : Type} {x : Except ε α} : x.isOk = true ↔ ∃ a, x = .ok a := by
  cases x with
  | error e => exact iff_of_false (fun h => by cases h) (fun ⟨a, h⟩ => by cases h)
  | ok a => exact iff_of_true rfl ⟨a, rfl⟩

theorem writeTemp_written (hcreate : sys.create = .ok ()) (hwritten : written sys = true)
    (d : Disk) : writeTemp sys tmp bytes d = (.ok (), d.put tmp bytes) := by
  simp only [written, Bool.and_eq_true, isOk_iff] at hwritten
  obtain ⟨⟨⟨_, hwrite⟩, ⟨_, hflush⟩⟩, ⟨_, hsync⟩⟩ := hwritten
  simp only [writeTemp, hcreate, hwrite, hflush, hsync]

/-- A temp file that is not written to the end stays as far as it came. -/
theorem writeTemp_unwritten (hcreate : sys.create = .ok ()) (hwritten : written sys = false)
    (tmp : Path) (bytes : Bytes) (d : Disk) :
    ∃ e rest, writeTemp sys tmp bytes d = (.error e, d.put tmp rest) := by
  unfold writeTemp
  simp only [hcreate]
  split
  · exact ⟨_, _, rfl⟩
  · rename_i hwrite
    split
    · rename_i hflush hsync
      simp [written, hwrite, hflush, hsync, Except.isOk, Except.toBool] at hwritten
    · exact ⟨_, _, rfl⟩
    · exact ⟨_, _, rfl⟩

/-- **The ends of an install** that has opened its temp file. -/
theorem installAtomic_cases (hdir : exe.parent = some dir) (hcreate : sys.create = .ok ())
    (pid : Nat) (bytes : Bytes) (d : Disk) :
    (written sys = false ∧ ∃ e rest, installAtomic sys exe pid bytes d =
        (.error e, d.put (tmpPath dir exe pid) rest)) ∨
    (written sys = true ∧ replaces sys = false ∧ ∃ e, installAtomic sys exe pid bytes d =
        (.error e, (d.put (tmpPath dir exe pid) bytes).remove sys (tmpPath dir exe pid))) ∨
    (written sys = true ∧ replaces sys = true ∧ installAtomic sys exe pid bytes d =
        (.ok (), (d.put (tmpPath dir exe pid) bytes).renameOver (tmpPath dir exe pid) exe)) := by
  unfold installAtomic
  simp only [hdir]
  cases hwritten : written sys with
  | false =>
      obtain ⟨e, rest, hwrite⟩ := writeTemp_unwritten hcreate hwritten (tmpPath dir exe pid) bytes d
      exact .inl ⟨rfl, e, rest, by rw [hwrite]⟩
  | true =>
      rw [writeTemp_written hcreate hwritten]
      cases hchmod : sys.setPermissions with
      | error e =>
          exact .inr (.inl ⟨rfl, by simp [replaces, hchmod, Except.isOk, Except.toBool], _, rfl⟩)
      | ok u =>
          cases hrename : sys.rename with
          | error e =>
              refine .inr (.inl ⟨rfl, ?_, _, rfl⟩)
              simp [replaces, hrename, Except.isOk, Except.toBool]
          | ok u' =>
              refine .inr (.inr ⟨rfl, ?_, rfl⟩)
              simp [replaces, hchmod, hrename, Except.isOk, Except.toBool]

end Temp

/-! ## What each end leaves -/

section Ends

variable {exe tmp : Path} {d : Disk}

theorem untouched_refl (exe : Except String Path) (d : Disk) : Untouched exe d d :=
  ⟨fun _ _ => rfl, fun _ h => h⟩

/-- The temp file stays. -/
theorem untouched_put (hne : tmp ≠ exe) (rest : Bytes) :
    Untouched (.ok exe) d (d.put tmp rest) ↔ d.files tmp ≠ none := by
  constructor
  · rintro ⟨_, hcreated⟩ habsent
    have hstays := hcreated tmp habsent
    rw [put_self] at hstays
    cases hstays
  · intro hthere
    refine ⟨fun p hp => ?_, fun p habsent => ?_⟩
    · obtain rfl := Except.ok.inj hp
      exact put_ne d rest hne.symm
    · have hp : p ≠ tmp := by
        rintro rfl
        exact hthere habsent
      rw [put_ne d rest hp, habsent]

/-- The temp file is removed, if it can be. -/
theorem untouched_remove (hne : tmp ≠ exe) (bytes : Bytes) (sys : Syscalls) :
    Untouched (.ok exe) d ((d.put tmp bytes).remove sys tmp) ↔
      sys.removeFile.isOk = true ∨ d.files tmp ≠ none := by
  cases hremove : sys.removeFile with
  | error e =>
      have hkept : (d.put tmp bytes).remove sys tmp = d.put tmp bytes := by
        rw [Disk.remove, hremove]
      rw [hkept, untouched_put hne]
      exact ⟨.inr, fun h => h.resolve_left fun hok => by cases hok⟩
  | ok u =>
      refine iff_of_true ⟨fun p hp => ?_, fun p habsent => ?_⟩ (.inl rfl)
      · obtain rfl := Except.ok.inj hp
        rw [remove_ne _ sys hne.symm, put_ne d bytes hne.symm]
      · by_cases hp : p = tmp
        · rw [hp, Disk.remove, hremove]
          exact Function.update_self _ _ _
        · rw [remove_ne _ sys hp, put_ne d bytes hp, habsent]

/-- The executable has the new bytes. -/
theorem untouched_renameOver (hne : tmp ≠ exe) (bytes : Bytes) :
    Untouched (.ok exe) d ((d.put tmp bytes).renameOver tmp exe) ↔ d.files exe = some bytes := by
  have hexe : ((d.put tmp bytes).renameOver tmp exe).files exe = some bytes :=
    (Function.update_self _ _ _).trans (put_self d tmp bytes)
  constructor
  · rintro ⟨hsame, _⟩
    rw [← hsame exe rfl, hexe]
  · intro hbytes
    refine ⟨fun p hp => ?_, fun p habsent => ?_⟩
    · obtain rfl := Except.ok.inj hp
      rw [hexe, hbytes]
    · have hp : p ≠ exe := by
        rintro rfl
        rw [habsent] at hbytes
        cases hbytes
      have hrest : ((d.put tmp bytes).renameOver tmp exe).files p =
          Function.update (d.put tmp bytes).files tmp none p := Function.update_of_ne hp _ _
      rw [hrest]
      by_cases htmp : p = tmp
      · rw [htmp, Function.update_self]
      · rw [Function.update_of_ne htmp, put_ne d bytes htmp, habsent]

end Ends

section Install

variable {V : Type} {w : World V} {release : Release} {d : Disk}

/-- An install that comes to its temp file. -/
theorem keeps_iff_recovers {b : Bytes} {exe : Path} {dir : String}
    (hchecked : checked w release = .ok b) (hexe : w.currentExe = .ok exe)
    (hdir : exe.parent = some dir) (hcreate : w.sys.create = .ok ()) (latest : V) (d : Disk) :
    Keeps w release latest d ↔ Recovers w latest exe (tmpPath dir exe w.pid) b d := by
  have hne := tmpPath_ne dir exe w.pid
  unfold Keeps Recovers
  rcases installAtomic_cases hdir hcreate w.pid b d with
    ⟨hwritten, e, rest, heq⟩ | ⟨hwritten, hreplaces, e, heq⟩ | ⟨hwritten, hreplaces, heq⟩
  · simp only [install, hchecked, hexe, heq]
    rw [hwritten, if_neg Bool.false_ne_true, ← untouched_put hne rest]
    exact ⟨fun h => h _ rfl, fun h _ _ => h⟩
  · simp only [install, hchecked, hexe, heq]
    rw [hwritten, hreplaces, if_pos rfl, if_neg Bool.false_ne_true,
      ← untouched_remove hne b]
    exact ⟨fun h => h _ rfl, fun h _ _ => h⟩
  · simp only [install, hchecked, hexe, heq]
    rw [hwritten, hreplaces, if_pos rfl, if_pos rfl, ← untouched_renameOver hne b]
    cases hverify : verify w latest with
    | ok u => exact iff_of_true (fun e he => by cases he) (.inl rfl)
    | error e =>
        refine ⟨fun h => .inr (h _ rfl), fun h _ _ => h.resolve_left fun hok => ?_⟩
        cases hok

/-- **A failed install leaves no trace**, for every release and every disk,
exactly if it fails before it opens the temp file, or recovers. -/
theorem install_keeps_iff (w : World V) (release : Release) (latest : V) (d : Disk) :
    Keeps w release latest d ↔
      ∀ b exe dir, checked w release = .ok b → w.currentExe = .ok exe → exe.parent = some dir →
        w.sys.create = .ok () → Recovers w latest exe (tmpPath dir exe w.pid) b d := by
  constructor
  · intro h b exe dir hchecked hexe hdir hcreate
    exact (keeps_iff_recovers hchecked hexe hdir hcreate latest d).mp h
  · intro h
    cases hchecked : checked w release with
    | error e =>
        intro _ _
        simp only [install, hchecked]
        exact untouched_refl _ d
    | ok b =>
        cases hexe : w.currentExe with
        | error e =>
            intro _ _
            simp only [install, hchecked, hexe]
            exact untouched_refl _ d
        | ok exe =>
            cases hdir : exe.parent with
            | none =>
                intro _ _
                simp only [install, hchecked, hexe, installAtomic, hdir]
                exact untouched_refl _ d
            | some dir =>
                cases hcreate : w.sys.create with
                | error e =>
                    intro _ _
                    simp only [install, hchecked, hexe, installAtomic, hdir, writeTemp, hcreate]
                    exact untouched_refl _ d
                | ok u =>
                    exact (keeps_iff_recovers hchecked hexe hdir hcreate latest d).mpr
                      (h b exe dir hchecked hexe hdir hcreate)

end Install

/-- The installed binary reports the version it was built from. -/
def misnumberedSys : Syscalls := { demoSys with spawn := .ok (utf8 "dokan 0.5.0\n") }

/-- Its check fails, and it stays. -/
theorem not_keeps :
    ¬ ∀ (w : World Nat) (release : Release) (latest : Nat) (d : Disk),
      Keeps w release latest d := by
  intro h
  have hkeeps := h (demoWorld misnumberedSys) demoRelease 6 (.before fun _ => some [127])
  rw [keeps_iff_recovers (checked_demo _) rfl rfl rfl, Recovers, if_pos (by decide),
    if_pos (by decide)] at hkeeps
  rcases hkeeps with hverify | hsame
  · cases hverify
  · cases hsame

end Dokan.Ports.UpdateFaults
