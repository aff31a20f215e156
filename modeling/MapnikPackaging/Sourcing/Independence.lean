/-
Sourcing one platform after another.

A build sources a platform, switches to the host with `MP_CROSS=1 source`, and comes back
the same way; over a session any sequence of platforms can precede the one that is in
force. `Independent` says that the ones before leave no trace: the last script completes
exactly when it does alone, with the same values of everything `settings.sh` exports but
`PATH`. `carried` is what the ones before do leave, read off the table of writes, and
`independent_iff` says that the last platform is independent of them exactly when it is
ready from there as well as from the start and finds unchanged the variables its own
branch lets through (`Undisturbed`).
-/

import MapnikPackaging.Settings.Leaves
import Mathlib.Data.List.Induction

namespace MapnikPackaging

open Shell Script Var

/-- A run that reaches its end. -/
def Completes (o : Outcome Var) : Prop := ∃ s, o = .ok s

namespace Platform

/-- Platforms sourced in order, each with `MP_CROSS=1`. -/
def sourceCrosses (m : Machine) : List Platform → Env Var → Outcome Var
  | [], s => .ok s
  | P :: Ps, s => (P.sourceCross m s).bind (sourceCrosses m Ps)

/-- Platforms sourced in order, every one after the first with `MP_CROSS=1`. -/
def sourceAll (m : Machine) : List Platform → Env Var → Outcome Var
  | [], s => .ok s
  | P :: Ps, s => (P.source m s).bind (sourceCrosses m Ps)

/-- Sourcing `P` after `before` is like sourcing it alone. -/
def Independent (m : Machine) (E₀ : Env Var) (before : List Platform) (P : Platform) : Prop :=
  (Completes (sourceAll m (before ++ [P]) E₀) ↔ Completes (P.source m E₀)) ∧
  ∀ s t, sourceAll m (before ++ [P]) E₀ = .ok s → P.source m E₀ = .ok t →
    ∀ v ∈ (block settingsCommands).exports, v ≠ PATH → s v = t v

/-- The watched variables after a sequence of platforms. -/
def carried (m : Machine) (E₀ : Env Var) (before : List Platform) : Env Var :=
  before.foldl (fun s Q => Q.leaves m s) E₀

/-- `P` is ready after `before` just when it is from the start, and then finds every
exported variable it lets through as it was. -/
def Undisturbed (m : Machine) (E₀ : Env Var) (before : List Platform) (P : Platform) : Prop :=
  (Ready m P (carried m E₀ before) ↔ Ready m P E₀) ∧
  (Ready m P E₀ → ∀ v ∈ P.inherits m, carried m E₀ before v = E₀ v)

section Carried

variable {m : Machine} {P : Platform} {s s' t : Env Var}

theorem leaves_congr (agree : AgreeOn watched s t) :
    AgreeOn watched (P.leaves m s) (P.leaves m t) := by
  have table : P.writes m s = P.writes m t := by
    cases P <;> simp [writes, agree ANDROID_NDK_PATH (by decide)]
  intro v hv
  rw [leaves, leaves, table, agree v hv]

theorem ready_congr (agree : AgreeOn watched s t) : Ready m P s ↔ Ready m P t := by
  have dir : Allowed s ↔ Allowed t := by rw [Allowed, Allowed, agree cwd (by decide)]
  cases P <;> simp only [Ready, dir, agree CXX_VISIBILITY_FLAGS (by decide),
    agree SYSROOT (by decide), agree SDK_PATH (by decide), agree ANDROID_NDK_PATH (by decide)]

theorem sourceCross_eq_ok : P.sourceCross m s = .ok s' ↔
    ∃ t, P.source m (Function.update s MP_CROSS (some "1")) = .ok t ∧
      Function.update t MP_CROSS (s MP_CROSS) = s' := by
  show ((P.source m (Function.update s MP_CROSS (some "1"))).map
    fun t => Function.update t MP_CROSS (s MP_CROSS)) = .ok s' ↔ _
  cases P.source m (Function.update s MP_CROSS (some "1")) <;> simp [Except.map]

/-- Setting `MP_CROSS` changes nothing that is watched. -/
theorem agree_cross (o : Option String) : AgreeOn watched (Function.update s MP_CROSS o) s :=
  fun v hv => Function.update_of_ne (by rintro rfl; exact absurd hv (by decide)) _ _

theorem takes_cross (x : Var) (core : String) (hx : x ≠ MP_CROSS) :
    TakesPlatform (Function.update s MP_CROSS (some "1")) x core := by
  rw [TakesPlatform, Function.update_of_ne hx]
  exact .inr (.inl (by rw [Function.update_self]; decide))

end Carried

section Sequences

variable {m : Machine} {P : Platform} {E₀ s s' c : Env Var} {before : List Platform}

theorem sourceCross_leaves (usable : P.usableOn m) (agree : AgreeOn watched s c)
    (lto : c LTO = none) (h : P.sourceCross m s = .ok s') :
    AgreeOn watched s' (P.leaves m c) := by
  obtain ⟨t, ht, rfl⟩ := sourceCross_eq_ok.mp h
  have crossed : AgreeOn watched (Function.update s MP_CROSS (some "1")) c := fun v hv =>
    (agree_cross _ v hv).trans (agree v hv)
  have left := source_leaves usable (by rw [crossed LTO (by decide), lto])
    (takes_cross CXX _ (by decide)) (takes_cross CC _ (by decide)) ht
  intro v hv
  rw [agree_cross _ v hv, left v hv, leaves_congr crossed v hv]

theorem leaves_of_absent {v : Var}
    (h : v ∉ P.written (m.isDir (m.xcode_select ++ "/Toolchains/"))) : P.leaves m c v = c v := by
  rw [← writes_keys m c] at h
  have absent : (P.writes m c).find? (·.1 = v) = none :=
    List.find?_eq_none.mpr fun p hp hpv => h (List.mem_map.mpr ⟨p, hp, by simpa using hpv⟩)
  rw [leaves, absent]

/-- No platform writes what it takes from the caller. -/
theorem leaves_input {v : Var} (hv : v ∈ callerInputs) : P.leaves m c v = c v := by
  have table : ∀ t, ∀ v ∈ callerInputs, v ∉ P.written t := by
    intro t
    cases P <;> cases t <;> decide
  exact leaves_of_absent (table _ v hv)

theorem leaves_lto : P.leaves m c LTO = c LTO := leaves_input (by decide)

theorem carried_input (before : List Platform) {v : Var} (hv : v ∈ callerInputs) :
    carried m E₀ before v = E₀ v := by
  induction before generalizing E₀ with
  | nil => rfl
  | cons Q Qs ih =>
    have rest : carried m (Q.leaves m E₀) Qs v = Q.leaves m E₀ v := ih
    exact rest.trans (leaves_input hv)

/-- What a platform lets through is exported, watched and not written. -/
theorem inherits_spec {v : Var} (hv : v ∈ P.inherits m) :
    v ∈ settingsExports ∧ v ∈ watched ∧ P.leaves m c v = c v := by
  have table : ∀ v ∈ P.inherits m, v ∈ settingsExports ∧ v ∈ watched ∧
      v ∉ P.written (m.isDir (m.xcode_select ++ "/Toolchains/")) := by
    cases P with
    | linux | linaro | linaroSoftfp | android =>
      simp only [inherits, written]
      decide +kernel
    | _ =>
      simp only [inherits, written]
      cases m.isDir (m.xcode_select ++ "/Toolchains/") <;> decide +kernel
  obtain ⟨exported, watched, absent⟩ := table v hv
  exact ⟨exported, watched, leaves_of_absent absent⟩

theorem sourceCrosses_carried (usable : ∀ Q ∈ before, Q.usableOn m) (agree : AgreeOn watched s c)
    (lto : c LTO = none) (h : sourceCrosses m before s = .ok s') :
    AgreeOn watched s' (carried m c before) := by
  induction before generalizing s c with
  | nil =>
    cases h
    exact agree
  | cons Q Qs ih =>
    rw [sourceCrosses] at h
    cases hQ : Q.sourceCross m s with
    | error e => rw [hQ] at h; cases h
    | ok t =>
      rw [hQ] at h
      exact ih (fun R hR => usable R (List.mem_cons_of_mem Q hR))
        (sourceCross_leaves (usable Q (by simp)) agree lto hQ) (leaves_lto.trans lto) h

/-- The variables the initial environment leaves unset. -/
def unsetAtStart : List Var := [CC, CXX, LD, AR, RANLIB, NM, LTO]

/-- **The table composes**: a sequence of platforms leaves what `carried` says. -/
theorem sourceAll_carried (unset : ∀ v ∈ unsetAtStart, E₀ v = none)
    (usable : ∀ Q ∈ before, Q.usableOn m) (h : sourceAll m before E₀ = .ok s) :
    AgreeOn watched s (carried m E₀ before) := by
  cases before with
  | nil =>
    cases h
    exact fun _ _ => rfl
  | cons Q Qs =>
    rw [sourceAll] at h
    cases hQ : Q.source m E₀ with
    | error e => rw [hQ] at h; cases h
    | ok t =>
      rw [hQ] at h
      have off : ∀ v ∈ unsetAtStart, Off (E₀ v) := fun v hv => by
        rw [unset v hv]
        decide
      have left := source_leaves (usable Q (by simp)) (unset LTO (by decide))
        (.inl (off CXX (by decide))) (.inl (off CC (by decide))) hQ
      have rest : AgreeOn watched s (carried m (Q.leaves m E₀) Qs) :=
        sourceCrosses_carried (fun R hR => usable R (List.mem_cons_of_mem Q hR)) left
          (leaves_lto.trans (unset LTO (by decide))) h
      exact rest

theorem sourceCrosses_append (Ps Qs : List Platform) (s : Env Var) :
    sourceCrosses m (Ps ++ Qs) s = (sourceCrosses m Ps s).bind (sourceCrosses m Qs) := by
  induction Ps generalizing s with
  | nil => rfl
  | cons P Ps ih =>
    simp only [List.cons_append, sourceCrosses]
    cases P.sourceCross m s with
    | error e => rfl
    | ok t => exact ih t

/-- The last platform of a longer sequence is sourced with `MP_CROSS=1` from where the
others end. -/
theorem sourceAll_concat (hne : before ≠ []) (h : sourceAll m before E₀ = .ok s) :
    sourceAll m (before ++ [P]) E₀ = P.sourceCross m s := by
  cases before with
  | nil => exact absurd rfl hne
  | cons Q Qs =>
    simp only [List.cons_append, sourceAll] at h ⊢
    cases hQ : Q.source m E₀ with
    | error e => rw [hQ] at h; cases h
    | ok t =>
      simp only [hQ, Except.bind, sourceCrosses_append] at h ⊢
      rw [h]
      simp only [sourceCrosses, Except.bind]
      cases P.sourceCross m s <;> rfl

theorem sourceAll_singleton : sourceAll m [P] E₀ = P.source m E₀ := by
  rw [sourceAll]
  cases P.source m E₀ <;> rfl

/-- On Linux every platform but Linux itself sets a linker. -/
theorem carried_linux (usable : ∀ Q ∈ before, Q.usableOn m) (linux : m.uname_s = "Linux")
    (ld : carried m E₀ before LD = none) : carried m E₀ before cwd = E₀ cwd := by
  induction before using List.reverseRecOn with
  | nil => rfl
  | append_singleton Qs Q ih =>
    have last : ∀ v, carried m E₀ (Qs ++ [Q]) v = Q.leaves m (carried m E₀ Qs) v := fun v => by
      simp [carried]
    rw [last] at ld ⊢
    have hQ := usable Q (by simp)
    cases Q with
    | linux => exact ih (fun R hR => usable R (by simp [hR])) ld
    | linaro | linaroSoftfp | android => cases ld
    | _ => simp [usableOn, linux] at hQ

/-- The last script of a sequence starts where the table says, with the platform's
compilers taken; `MP_CROSS` itself is put back. -/
theorem last_run (P : Platform) (unset : ∀ v ∈ unsetAtStart, E₀ v = none)
    (usable : ∀ Q ∈ before, Q.usableOn m) (ran : Completes (sourceAll m before E₀)) :
    ∃ s₁, AgreeOn watched s₁ (carried m E₀ before) ∧
      TakesPlatform s₁ CXX (P.branch m).coreCXX ∧ TakesPlatform s₁ CC (P.branch m).coreCC ∧
      (Completes (sourceAll m (before ++ [P]) E₀) ↔ Completes (P.source m s₁)) ∧
      ∀ s', sourceAll m (before ++ [P]) E₀ = .ok s' →
        ∃ u, P.source m s₁ = .ok u ∧ ∀ v, v ≠ MP_CROSS → s' v = u v := by
  obtain ⟨s, hs⟩ := ran
  by_cases hne : before = []
  · subst hne
    have off : ∀ v ∈ unsetAtStart, Off (E₀ v) := fun v hv => by
      rw [unset v hv]
      decide
    rw [List.nil_append, sourceAll_singleton]
    exact ⟨E₀, fun _ _ => rfl, .inl (off CXX (by decide)), .inl (off CC (by decide)), Iff.rfl,
      fun s' hs' => ⟨s', hs', fun _ _ => rfl⟩⟩
  · rw [sourceAll_concat hne hs]
    refine ⟨Function.update s MP_CROSS (some "1"), fun v hv => ?_, takes_cross CXX _ (by decide),
      takes_cross CC _ (by decide), by simp [Completes, sourceCross_eq_ok], fun s' hs' => ?_⟩
    · exact (agree_cross _ v hv).trans (sourceAll_carried unset usable hs v hv)
    · obtain ⟨u, hu, rfl⟩ := sourceCross_eq_ok.mp hs'
      exact ⟨u, hu, fun v hv => Function.update_of_ne hv _ _⟩

/-- A sequence completes exactly when its last platform is ready where the others end. -/
theorem completes_after (unset : ∀ v ∈ unsetAtStart, E₀ v = none)
    (usable : ∀ Q ∈ before ++ [P], Q.usableOn m) (ran : Completes (sourceAll m before E₀)) :
    Completes (sourceAll m (before ++ [P]) E₀) ↔ Ready m P (carried m E₀ before) := by
  obtain ⟨s₁, agree, cxx, cc, completes, -⟩ :=
    last_run P unset (fun Q hQ => usable Q (by simp [hQ])) ran
  rw [completes, ← ready_congr agree]
  exact source_completes_iff (usable P (by simp)) cxx cc

/-- What the last platform lets through is what the others left. -/
theorem inherited_after (unset : ∀ v ∈ unsetAtStart, E₀ v = none)
    (usable : ∀ Q ∈ before ++ [P], Q.usableOn m) (h : sourceAll m (before ++ [P]) E₀ = .ok s)
    {v : Var} (hv : v ∈ P.inherits m) : s v = carried m E₀ before v := by
  obtain ⟨-, isWatched, through⟩ := inherits_spec (c := carried m E₀ before) hv
  rw [sourceAll_carried unset usable h v isWatched, ← through]
  simp [carried]

/-- **A platform is independent of the ones before exactly when they leave it
undisturbed.** -/
theorem independent_iff (unset : ∀ v ∈ unsetAtStart, E₀ v = none)
    (usable : ∀ Q ∈ before ++ [P], Q.usableOn m) (ran : Completes (sourceAll m before E₀)) :
    Independent m E₀ before P ↔ Undisturbed m E₀ before P := by
  have usableP : ∀ Q ∈ [] ++ [P], Q.usableOn m := fun Q hQ => usable Q (by simp at hQ; simp [hQ])
  have start : Completes (sourceAll m [] E₀) := ⟨E₀, rfl⟩
  have after := completes_after unset usable ran
  have alone := completes_after unset usableP start
  rw [Independent, Undisturbed, ← sourceAll_singleton]
  constructor
  · rintro ⟨status, values⟩
    have same : Ready m P (carried m E₀ before) ↔ Ready m P E₀ :=
      after.symm.trans (status.trans alone)
    refine ⟨same, fun ready v hv => ?_⟩
    obtain ⟨exported, path⟩ := mem_settingsExports.mp (inherits_spec (c := E₀) hv).1
    obtain ⟨s, hs⟩ := after.mpr (same.mpr ready)
    obtain ⟨t, ht⟩ := alone.mpr ready
    rw [← inherited_after unset usable hs hv, values s t hs ht v exported path]
    exact inherited_after unset usableP ht hv
  · rintro ⟨same, inherited⟩
    refine ⟨after.trans (same.trans alone.symm), fun s t hs ht v hexp hpath => ?_⟩
    have ready : Ready m P E₀ := alone.mp ⟨t, ht⟩
    have exported := mem_settingsExports.mpr ⟨hexp, hpath⟩
    have notCross : v ≠ MP_CROSS := by
      rintro rfl
      exact absurd exported (by decide +kernel)
    obtain ⟨s₁, agree, cxx, cc, -, last⟩ :=
      last_run P unset (fun Q hQ => usable Q (by simp [hQ])) ran
    obtain ⟨t₁, agreeT, cxxT, ccT, -, lastT⟩ := last_run P unset (by simp) start
    obtain ⟨u, hu, su⟩ := last s hs
    obtain ⟨w, hw, tw⟩ := lastT t ht
    rw [su v notCross, tw v notCross]
    rw [source_selected (usable P (by simp)) (allowed_of_source hu) cxx cc] at hu
    rw [source_selected (usable P (by simp)) (allowed_of_source hw) cxxT ccT] at hw
    have meet : ∀ v ∈ watched, carried m E₀ before v = E₀ v → s₁ v = t₁ v := fun v hv h =>
      (agree v hv).trans (h.trans (agreeT v hv).symm)
    refine selected_agree hu hw (fun v hv => ?_) (fun v hv => ?_) (fun hP => ?_) v exported
    · exact meet v (List.mem_append_left _ hv) (carried_input _ hv)
    · exact meet v (inherits_spec (c := s₁) hv).2.1 (inherited ready v hv)
    · -- On Linux nobody before can have moved without leaving a linker behind.
      subst hP
      refine meet cwd (by decide) (carried_linux (fun Q hQ => usable Q (by simp [hQ]))
        (usable linux (by simp)) ?_)
      rw [inherited ready LD (by simp [inherits]), unset LD (by decide)]

end Sequences

/-! ### Linux and Android -/

/-- A Linux machine with an Android NDK in `/opt/ndk`. -/
def linuxBox : Machine where
  uname_s := "Linux"
  uname_r := "4.4.0"
  nproc := "4"
  ncpu := "4"
  rootdir := "/home/build/mapnik-packaging/osx"
  xcrun _ := ""
  xcode_select := ""
  isDir d := d = "/opt/ndk"
  isFile _ := false
  realDirname f := f

/-- A shell in the checkout that knows where the NDK is. -/
def linuxShell : Env Var
  | .cwd => some "/home/build/mapnik-packaging/osx"
  | .PATH => some "/usr/bin:/bin"
  | .ANDROID_NDK_PATH => some "/opt/ndk"
  | _ => none

theorem linuxShell_ready : ∀ P ∈ [linux, android], Ready linuxBox P linuxShell := by
  have dir : Allowed linuxShell := by decide +kernel
  intro P hP
  simp only [List.mem_cons, List.not_mem_nil, or_false] at hP
  rcases hP with rfl | rfl
  · exact ⟨dir, trivial⟩
  · exact ⟨dir, "/opt/ndk", rfl, rfl⟩

theorem linuxShell_unset : ∀ v ∈ unsetAtStart, linuxShell v = none := by decide

/-- Either script completes in that shell. -/
theorem linuxShell_completes {P : Platform} (hP : P ∈ [linux, android]) :
    Completes (sourceAll linuxBox [P] linuxShell) := by
  have start : Completes (sourceAll linuxBox [] linuxShell) := ⟨linuxShell, rfl⟩
  have usable : ∀ Q ∈ [] ++ [P], Q.usableOn linuxBox := by
    simp only [List.mem_cons, List.not_mem_nil, or_false] at hP
    rcases hP with rfl | rfl <;> simp [usableOn, linuxBox]
  exact (completes_after linuxShell_unset usable start).mpr (linuxShell_ready P hP)

/-- Android sets what Linux has left. -/
theorem android_after_linux : Independent linuxBox linuxShell [linux] android := by
  refine (independent_iff linuxShell_unset (by simp [usableOn, linuxBox])
    (linuxShell_completes (by decide))).mpr ⟨?_, fun _ => ?_⟩
  · exact ⟨fun _ => linuxShell_ready android (by decide), fun h => ⟨h.1, "/opt/ndk", rfl, rfl⟩⟩
  · decide +kernel

/-- Android's `NM` is still there when Linux is sourced after it. -/
theorem linux_after_android :
    (∀ v ∈ unsetAtStart, linuxShell v = none) ∧ (∀ Q ∈ [android] ++ [linux], Q.usableOn linuxBox) ∧
      Completes (sourceAll linuxBox [android] linuxShell) ∧
      ¬ Independent linuxBox linuxShell [android] linux := by
  have usable : ∀ Q ∈ [android] ++ [linux], Q.usableOn linuxBox := by simp [usableOn, linuxBox]
  have alone : ∀ Q ∈ [] ++ [linux], Q.usableOn linuxBox := by simp [usableOn, linuxBox]
  have ran := linuxShell_completes (P := android) (by decide)
  refine ⟨linuxShell_unset, usable, ran, ?_⟩
  rintro ⟨-, values⟩
  have ready : Ready linuxBox linux (carried linuxBox linuxShell [android]) :=
    ⟨(by decide +kernel : Allowed _), trivial⟩
  obtain ⟨s, hs⟩ := (completes_after linuxShell_unset usable ran).mpr ready
  obtain ⟨t, ht⟩ := linuxShell_completes (P := linux) (by decide)
  have exported := mem_settingsExports.mp (by decide +kernel : NM ∈ settingsExports)
  have same := values s t hs (by rw [← ht, sourceAll_singleton]) NM exported.1 exported.2
  have after : s NM = some "arm-linux-androideabi-nm" :=
    inherited_after linuxShell_unset usable hs (by decide)
  have before : t NM = none :=
    inherited_after linuxShell_unset alone ht (by decide)
  rw [after, before] at same
  cases same

end Platform

end MapnikPackaging
