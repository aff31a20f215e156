/-
Native helpers in the package cache.

A cross build needs `protoc`, the ICU tools, `pkg-config` and `bcp` for the machine it runs
on. The scripts look for them in the source directories that earlier builds have left in
`PACKAGES`, under the architecture name of the host. That name says less than the platform:
`x86_64` is macOS and the 64-bit simulator alike. `helpers_native` says which builds the cache
may see so that whatever a script finds there is the host's.
-/

import MapnikPackaging.Shell.Runs
import MapnikPackaging.Settings.Values

namespace MapnikPackaging

open Shell Script Var

/-! ### The directories -/

/-- The scripts that keep a helper in `PACKAGES`. -/
inductive HelperScript where
  | protobuf | icu | pkgConfig | boost
deriving DecidableEq, Repr

/-- What a script reads of the platform it runs under. -/
structure Names where
  MP_PLATFORM : String
  ARCH_NAME : String
  BOOST_ARCH : String
deriving DecidableEq, Repr

/-- The names a platform script sets. -/
def Platform.names (P : Platform) : Names := ⟨P.mpPlatform, P.archName, P.boostArch⟩

namespace HelperScript

/-- The package part of the directory name, with the versions of `settings.sh`. -/
def package : HelperScript → String
  | protobuf => "protobuf-2.6.1-"
  | icu => "icu-"
  | pkgConfig => "pkg-config-0.25-"
  | boost => "boost_1_61_0-"

/-- The directory of a script below `PACKAGES`. -/
def dir (B : HelperScript) (arch : String) : String := B.package ++ arch

theorem dir_injective {B B' : HelperScript} {a a' : String} (h : B.dir a = B'.dir a') :
    B = B' ∧ a = a' := by
  have start : ∀ (C : HelperScript) (b : String), (C.dir b).toList.take 2 = C.package.toList.take 2 := by
    intro C b
    rw [dir, String.toList_append, List.take_append_of_le_length (by cases C <;> decide)]
  have same : B.package.toList.take 2 = B'.package.toList.take 2 := by rw [← start B a, h, start]
  have eq : B = B' := by
    revert same
    cases B <;> cases B' <;> decide
  subst eq
  exact ⟨rfl, (String.append_right_inj _).mp h⟩

end HelperScript

/-- A directory below `PACKAGES`: missing, unpacked, or with its helper last built for an
`MP_PLATFORM`. -/
inductive Slot where
  | absent | unpacked
  | built (platform : String)
deriving DecidableEq, Repr

/-- The source directories in `PACKAGES`, by name. -/
abbrev PackageDirs := String → Slot

/-! ### The scripts -/

namespace HelperScript

/-- The existence test on the helper: `-d` on the ICU directory, `-f` on the others' binary. -/
def finds : HelperScript → Slot → Bool
  | icu, slot => slot ≠ .absent
  | _, .built _ => true
  | _, _ => false

/-- A run with `BOOST_ARCH=x86`. The directory is unpacked anew and built, but for boost's,
which is kept together with its `bcp`. Returned with the directories are the helpers accepted
because they were there. -/
def runX86 (n : Names) (B : HelperScript) (dirs : PackageDirs) : PackageDirs × List Slot :=
  let own := B.dir n.ARCH_NAME
  match B with
  | boost =>
    if finds boost (dirs own) then (dirs, [dirs own])
    else (Function.update dirs own (.built n.MP_PLATFORM), [])
  | _ => (Function.update dirs own (.built n.MP_PLATFORM), [])

/-- Look for the helper under the host's names and, where it is missing, run the script there. -/
def nativeBuild (h : Names) (B : HelperScript) (dirs : PackageDirs) : PackageDirs × List Slot :=
  let native := B.dir h.ARCH_NAME
  if B.finds (dirs native) then (dirs, [dirs native]) else runX86 h B dirs

/-- A run with `BOOST_ARCH=arm`, where `h` is what sourcing the host gives. Boost builds its own
`bcp` in the target's directory; `pkg-config` is copied from the host's. -/
def runArm (h n : Names) (B : HelperScript) (dirs : PackageDirs) : PackageDirs × List Slot :=
  let own := B.dir n.ARCH_NAME
  match B with
  | boost => (Function.update dirs own (.built h.MP_PLATFORM), [])
  | pkgConfig => nativeBuild h pkgConfig dirs
  | B =>
    let (dirs, accepted) := nativeBuild h B (Function.update dirs own .unpacked)
    (Function.update dirs own (.built n.MP_PLATFORM), accepted)

/-- A script under the names `n`. -/
def run (h n : Names) (B : HelperScript) (dirs : PackageDirs) : PackageDirs × List Slot :=
  if n.BOOST_ARCH = "arm" then runArm h n B dirs else runX86 n B dirs

end HelperScript

/-! ### Runs -/

/-- A build script and the platform it runs under. -/
structure HelperRun (m : Machine) where
  script : HelperScript
  platform : Platform
  usable : platform.usableOn m

namespace HelperRun

variable {m : Machine}

/-- What a run does to `PACKAGES`, and what it accepts there. -/
def result (dirs : PackageDirs) (r : HelperRun m) : PackageDirs × List Slot :=
  r.script.run (r.platform.host m).names r.platform.names dirs

def step (dirs : PackageDirs) (r : HelperRun m) : PackageDirs := (result dirs r).1

/-- An empty `PACKAGES`. -/
def empty : PackageDirs := fun _ => .absent

/-- A run that leaves no foreign helper where one for the host is looked for: a cross build, a
build for the host itself, or one whose directory no script takes for the host's. -/
def Harmless (m : Machine) (r : HelperRun m) : Prop :=
  r.platform.isArm = true ∨ r.platform = m.hostPlatform ∨
    (r.script ≠ .boost ∧ r.platform.archName ≠ m.hostPlatform.archName)

/-- Where a script may look for a helper, there is the host's or none. -/
def HostOnly (m : Machine) (dirs : PackageDirs) : Prop :=
  (∀ B, dirs (HelperScript.dir B m.hostPlatform.archName) = .absent ∨
    dirs (HelperScript.dir B m.hostPlatform.archName) = .built m.hostPlatform.mpPlatform) ∧
  ∀ arch, dirs (HelperScript.dir .boost arch) = .absent ∨
    dirs (HelperScript.dir .boost arch) = .built m.hostPlatform.mpPlatform

/-- A directory may be filled for the host, or where none is looked for. -/
theorem hostOnly_update {dirs : PackageDirs} {B : HelperScript} {arch : String} {slot : Slot}
    (h : HostOnly m dirs) (safe : slot = .built m.hostPlatform.mpPlatform ∨
      (B ≠ .boost ∧ arch ≠ m.hostPlatform.archName)) :
    HostOnly m (Function.update dirs (B.dir arch) slot) := by
  have keep : ∀ C a, (C = .boost ∨ a = m.hostPlatform.archName) →
      (dirs (HelperScript.dir C a) = .absent ∨
        dirs (HelperScript.dir C a) = .built m.hostPlatform.mpPlatform) →
      Function.update dirs (B.dir arch) slot (HelperScript.dir C a) = .absent ∨
        Function.update dirs (B.dir arch) slot (HelperScript.dir C a)
          = .built m.hostPlatform.mpPlatform := by
    intro C a looked hC
    by_cases same : HelperScript.dir C a = B.dir arch
    · obtain ⟨rfl, rfl⟩ := HelperScript.dir_injective same
      rw [Function.update_self]
      rcases safe with rfl | ⟨notBoost, notHost⟩
      · exact .inr rfl
      · exact absurd looked (by simp [notBoost, notHost])
    · rwa [Function.update_of_ne same]
  exact ⟨fun C => keep C _ (.inr rfl) (h.1 C), fun a => keep .boost a (.inl rfl) (h.2 a)⟩

/-- A helper that is found was built. -/
theorem built_of_finds {slot : Slot} {B : HelperScript} {platform : String}
    (h : slot = .absent ∨ slot = .built platform) (found : B.finds slot = true) :
    slot = .built platform := by
  rcases h with rfl | rfl
  · cases B <;> cases found
  · rfl

/-- What is kept by a run that is under way, and what it has accepted. -/
def Fine (m : Machine) (r : PackageDirs × List Slot) : Prop :=
  HostOnly m r.1 ∧ ∀ a ∈ r.2, a = .built m.hostPlatform.mpPlatform

/-- A native build accepts nothing but a `bcp`, which is the host's. -/
theorem runX86_accepts {dirs : PackageDirs} (n : Names) (B : HelperScript) (h : HostOnly m dirs) :
    ∀ a ∈ (B.runX86 n dirs).2, a = .built m.hostPlatform.mpPlatform := by
  cases B with
  | boost =>
    simp only [HelperScript.runX86]
    split
    · intro a ha
      rw [List.mem_singleton.mp ha]
      exact built_of_finds (h.2 n.ARCH_NAME) ‹_›
    · simp
  | _ => simp [HelperScript.runX86]

theorem runX86_fine {dirs : PackageDirs} {n : Names} {B : HelperScript} (h : HostOnly m dirs)
    (safe : n.MP_PLATFORM = m.hostPlatform.mpPlatform ∨
      (B ≠ .boost ∧ n.ARCH_NAME ≠ m.hostPlatform.archName)) : Fine m (B.runX86 n dirs) := by
  refine ⟨?_, runX86_accepts n B h⟩
  have filled : HostOnly m (Function.update dirs (B.dir n.ARCH_NAME) (.built n.MP_PLATFORM)) :=
    hostOnly_update h (safe.imp_left fun same => by rw [same])
  cases B with
  | boost =>
    simp only [HelperScript.runX86]
    split
    · exact h
    · exact filled
  | _ => exact filled

theorem nativeBuild_fine {dirs : PackageDirs} {B : HelperScript} (h : HostOnly m dirs) :
    Fine m (B.nativeBuild m.hostPlatform.names dirs) := by
  simp only [HelperScript.nativeBuild]
  split
  · refine ⟨h, fun a ha => ?_⟩
    rw [List.mem_singleton.mp ha]
    exact built_of_finds (h.1 B) ‹_›
  · exact runX86_fine h (.inl rfl)

/-- No cross target shares its architecture name with a host. -/
theorem arm_archName {P : Platform} (arm : P.isArm = true) :
    P.archName ≠ m.hostPlatform.archName := by
  rw [Machine.hostPlatform]
  split <;> revert arm <;> cases P <;> decide

theorem runArm_fine {dirs : PackageDirs} {P : Platform} {B : HelperScript} (arm : P.isArm = true)
    (h : HostOnly m dirs) : Fine m (B.runArm m.hostPlatform.names P.names dirs) := by
  have other : P.names.ARCH_NAME ≠ m.hostPlatform.archName := arm_archName arm
  have unpacks : B ≠ .boost → Fine m
      (Function.update (B.nativeBuild m.hostPlatform.names
          (Function.update dirs (B.dir P.names.ARCH_NAME) .unpacked)).1
        (B.dir P.names.ARCH_NAME) (.built P.names.MP_PLATFORM),
      (B.nativeBuild m.hostPlatform.names
        (Function.update dirs (B.dir P.names.ARCH_NAME) .unpacked)).2) := by
    intro notBoost
    have unpacked : HostOnly m (Function.update dirs (B.dir P.names.ARCH_NAME) .unpacked) :=
      hostOnly_update h (.inr ⟨notBoost, other⟩)
    obtain ⟨kept, accepted⟩ := nativeBuild_fine (B := B) unpacked
    exact ⟨hostOnly_update kept (.inr ⟨notBoost, other⟩), accepted⟩
  cases B with
  | boost => exact ⟨hostOnly_update h (.inl rfl), by simp [HelperScript.runArm]⟩
  | pkgConfig => exact nativeBuild_fine h
  | protobuf => exact unpacks (by decide)
  | icu => exact unpacks (by decide)

theorem result_eq (dirs : PackageDirs) (r : HelperRun m) : result dirs r =
    if r.platform.isArm then r.script.runArm m.hostPlatform.names r.platform.names dirs
    else r.script.runX86 r.platform.names dirs := by
  rw [result, Platform.host_eq r.usable, HelperScript.run]
  cases arm : r.platform.isArm <;> simp [Platform.names, Platform.boostArch, arm]

/-- Whatever the run, it accepts only what the host built. -/
theorem result_accepts {dirs : PackageDirs} (h : HostOnly m dirs) (r : HelperRun m) :
    ∀ a ∈ (result dirs r).2, a = .built m.hostPlatform.mpPlatform := by
  rw [result_eq]
  split
  · exact (runArm_fine ‹_› h).2
  · exact runX86_accepts _ _ h

theorem hostOnly_step {dirs : PackageDirs} (h : HostOnly m dirs) (r : HelperRun m)
    (harmless : Harmless m r) : HostOnly m (step dirs r) := by
  rw [step, result_eq]
  split
  · exact (runArm_fine ‹_› h).1
  · obtain arm | host | elsewhere := harmless
    · exact absurd arm ‹_›
    · exact (runX86_fine h (.inl (by rw [host]; rfl))).1
    · exact (runX86_fine h (.inr elsewhere)).1

/-- **A helper found in the package cache is the host's** after any run of harmless builds. -/
theorem helpers_native {runs : List (HelperRun m)}
    (h : Runs.Along step (fun _ r => Harmless m r) empty runs) (r : HelperRun m) :
    ∀ a ∈ (result (Runs.final step empty runs) r).2, a = .built m.hostPlatform.mpPlatform := by
  have start : HostOnly m empty := ⟨fun _ => .inl rfl, fun _ => .inl rfl⟩
  exact result_accepts (Runs.final_of_along start (fun _ r h => hostOnly_step h r) h) r

/-! ### The 64-bit simulator -/

/-- A macOS machine with Xcode. -/
def macBox : Machine where
  uname_s := "Darwin"
  uname_r := "13.4.0"
  nproc := "8"
  ncpu := "8"
  rootdir := "/Users/build/mapnik-packaging/osx"
  xcrun _ := "7.1"
  xcode_select := "/Applications/Xcode.app/Contents/Developer"
  isDir _ := true
  isFile _ := false
  realDirname f := f

/-- `build_protobuf.sh` for a platform of that machine. -/
def protobufFor (P : Platform) (usable : P.usableOn macBox) : HelperRun macBox :=
  ⟨.protobuf, P, usable⟩

/-- The phone accepts the `protoc` that macOS built. -/
theorem protoc_after_macOSX :
    (result (Runs.final step empty [protobufFor .macOSX rfl]) (protobufFor .iPhoneOS rfl)).2
        = [.built "MacOSX"] ∧
      ∀ a ∈ (result (Runs.final step empty [protobufFor .macOSX rfl]) (protobufFor .iPhoneOS rfl)).2,
        a = .built macBox.hostPlatform.mpPlatform := by
  refine ⟨by decide, helpers_native (Runs.along_cons.mpr ⟨.inr (.inl ?_), Runs.along_nil⟩) _⟩
  decide

/-- It accepts the simulator's just as well. -/
theorem protoc_after_simulator :
    (result (Runs.final step empty [protobufFor .iPhoneSimulator64 rfl])
        (protobufFor .iPhoneOS rfl)).2 = [.built "iPhoneSimulator64"] ∧
      Slot.built "iPhoneSimulator64" ≠ .built macBox.hostPlatform.mpPlatform := by
  decide

end HelperRun

end MapnikPackaging
