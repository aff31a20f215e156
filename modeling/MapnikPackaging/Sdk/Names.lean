/-
The names under which `package_mobile_sdk.sh` publishes.

The key of an upload joins the platform, the description of the sources and what comes behind them
with hyphens, and nothing is escaped. It tells an official release from a development one; the
rest it tells apart only where no part can be read as the beginning of the next, and `FULL_SDK`,
which decides on the contents, is not in it at all.

* `eq_of_separated` — what a separator divides, where neither front runs on over one.
* `upload_full_sdk` — the mode is not in the key.
* `upload_determines` — what two runs with one key have in common.
-/

import MapnikPackaging.Settings.Machine

namespace MapnikPackaging.Sdk

/-! ### Joined by a separator -/

/-- Neither front goes on with the separator where the other ends. -/
def Apart {α : Type} (sep x y : List α) : Prop := ¬ x ++ sep <+: y ∧ ¬ y ++ sep <+: x

section Separated

variable {α : Type} {s : α} {r a b x y : List α}

theorem eq_of_separated_left (fresh : s ∉ r) {t : List α} (apart : ¬ a ++ s :: r <+: a ++ t)
    (same : s :: r ++ x = t ++ (s :: r ++ y)) : t = [] := by
  cases t with
  | nil => rfl
  | cons c t =>
    obtain ⟨rfl, rest⟩ := List.cons.inj same
    -- the separator is either inside the longer front, or it begins inside itself
    rcases List.append_eq_append_iff.mp rest with ⟨u, rfl, -⟩ | ⟨u, hr, hu⟩
    · exact absurd ⟨u, by simp⟩ apart
    · cases u with
      | nil => exact absurd ⟨[], by simp [hr]⟩ apart
      | cons c' u =>
        obtain ⟨rfl, -⟩ := List.cons.inj hu
        exact absurd (by simp [hr]) fresh

/-- **What a separator divides.** -/
theorem eq_of_separated (fresh : s ∉ r) (apart : Apart (s :: r) a b)
    (same : a ++ (s :: r ++ x) = b ++ (s :: r ++ y)) : a = b ∧ x = y := by
  have fronts : a = b := by
    rcases List.append_eq_append_iff.mp same with ⟨t, rfl, rest⟩ | ⟨t, rfl, rest⟩
    · rw [eq_of_separated_left fresh apart.1 rest, List.append_nil]
    · rw [eq_of_separated_left fresh apart.2 rest, List.append_nil]
  subst fronts
  exact ⟨rfl, List.append_cancel_left (List.append_cancel_left same)⟩

/-- A last part that is empty or begins with the separator. -/
theorem eq_of_ended (apart : Apart [s] a b) (hx : x = [] ∨ ∃ x', x = s :: x')
    (hy : y = [] ∨ ∃ y', y = s :: y') (same : a ++ x = b ++ y) : a = b ∧ x = y := by
  have front : ∀ {a b x y : List α}, ¬ a ++ [s] <+: b → (x = [] ∨ ∃ x', x = s :: x') →
      ∀ t, b = a ++ t → x = t ++ y → t = [] := by
    intro a b x y apart hx t hb rest
    cases t with
    | nil => rfl
    | cons c t =>
      rcases hx with rfl | ⟨x', rfl⟩
      · cases rest
      · obtain ⟨rfl, -⟩ := List.cons.inj rest
        exact absurd ⟨t, by simp [hb]⟩ apart
  have fronts : a = b := by
    rcases List.append_eq_append_iff.mp same with ⟨t, hb, rest⟩ | ⟨t, ha, rest⟩
    · rw [hb, front apart.1 hx t hb rest, List.append_nil]
    · rw [ha, front apart.2 hy t ha rest, List.append_nil]
  subst fronts
  exact ⟨rfl, List.append_cancel_left same⟩

end Separated

/-! ### The key -/

/-- What a run of the script is given. -/
structure Packaging where
  /-- what `mapnik-config --git-describe` prints -/
  describe : String
  build_postfix : Option String
  mp_platform : String
  use_lto : String
  full_sdk : Option String
  official_release : String

/-- `${X:-word}` -/
def orWord (x : Option String) (word : String) : String :=
  match x with
  | some v => if v = "" then word else v
  | none => word

namespace Packaging

/-- `platform_lowercase`, with all the iPhone platforms under one name. -/
def platform (p : Packaging) : String :=
  if occursIn "iphone" (toLowercase p.mp_platform) then "ios" else toLowercase p.mp_platform

def isLto (p : Packaging) : Bool := p.use_lto = "true"

def isOfficial (p : Packaging) : Bool := p.official_release = "true"

/-- `BUILD_POSTFIX` after the first test. -/
def buildPostfix (p : Packaging) : String :=
  if orWord p.build_postfix "unset" = "unset" then
    if p.isLto then "-lto" else ""
  else if p.isLto then "-" ++ p.build_postfix.getD "" ++ "-lto"
  else "-" ++ p.build_postfix.getD ""

/-- Whether the tests of `FULL_SDK` take the branch of the full package. -/
def isFull (p : Packaging) : Bool :=
  (if orWord p.full_sdk "false" = "false" then "true" else p.full_sdk.getD "") = "true"

/-- `PACKAGE_NAME`; `MAPNIK_PACKAGE_PREFIX` is `mapnik`. -/
def packageName (p : Packaging) : String :=
  "mapnik" ++ "-" ++ p.platform ++ "-sdk-" ++ p.describe ++ p.buildPostfix

def tarballName (p : Packaging) : String := p.packageName ++ ".tar"

/-- `UPLOAD` -/
def upload (p : Packaging) : String :=
  if p.isOfficial then "s3://mapnik/dist/v" ++ p.describe ++ "/" ++ p.tarballName ++ ".bz2"
  else "s3://mapnik/dist/dev/" ++ p.tarballName ++ ".bz2"

/-- The postfix a run is given, as it stands in the name; a postfix `unset` is none. -/
def given (p : Packaging) : String :=
  if orWord p.build_postfix "unset" = "unset" then "" else "-" ++ p.build_postfix.getD ""

/-- What stands behind the description in the key: a slash where it names the directory, a hyphen
where only the postfix follows. -/
def separator (p : Packaging) : Char := if p.isOfficial then '/' else '-'

end Packaging

section Keys

variable {a b : Packaging}

/-- **`FULL_SDK` is not in the key.** -/
theorem upload_full_sdk (a : Packaging) (mode : Option String) :
    ({ a with full_sdk := mode } : Packaging).upload = a.upload := rfl

theorem buildPostfix_eq (a : Packaging) :
    a.buildPostfix = a.given ++ (if a.isLto then "-lto" else "") := by
  unfold Packaging.buildPostfix Packaging.given
  split
  · rw [String.empty_append]
  · split
    · rfl
    · rw [String.append_empty]

/-- The postfix is empty or begins with a hyphen. -/
theorem buildPostfix_ended (a : Packaging) :
    a.buildPostfix.toList = [] ∨ ∃ x, a.buildPostfix.toList = '-' :: x := by
  unfold Packaging.buildPostfix
  split
  · split
    · exact .inr ⟨_, rfl⟩
    · exact .inl rfl
  · split
    · exact .inr ⟨_, by simp only [String.toList_append]; rfl⟩
    · exact .inr ⟨_, by simp only [String.toList_append]; rfl⟩

/-- The two kinds of release have their own directories. -/
theorem official_of_upload (same : a.upload = b.upload) : a.isOfficial = b.isOfficial := by
  unfold Packaging.upload at same
  have letters := congrArg String.toList same
  cases ha : a.isOfficial <;> cases hb : b.isOfficial <;> rw [ha, hb] at letters <;>
    first
      | rfl
      | (simp only [String.toList_append, if_true] at letters
         simp at letters)

/-- The name without the product, the parts as they follow each other. -/
def Packaging.parts (p : Packaging) : List Char :=
  p.platform.toList ++ ('-' :: "sdk".toList ++ ('-' :: (p.describe.toList ++ p.buildPostfix.toList)))

theorem upload_official (official : a.isOfficial = true) : a.upload.toList =
    "s3://mapnik/dist/v".toList ++ (a.describe.toList ++ (['/'] ++ ("mapnik-".toList ++ a.parts)))
      ++ ".tar.bz2".toList := by
  simp [Packaging.upload, official, Packaging.tarballName, Packaging.packageName, Packaging.parts]

theorem upload_dev (dev : a.isOfficial = false) : a.upload.toList =
    "s3://mapnik/dist/dev/mapnik-".toList ++ a.parts ++ ".tar.bz2".toList := by
  simp [Packaging.upload, dev, Packaging.tarballName, Packaging.packageName, Packaging.parts]

/-- The postfix and `-lto` are told apart where the one is not the other with `-lto`. -/
theorem given_of_buildPostfix (same : a.buildPostfix = b.buildPostfix)
    (apart : a.given ++ "-lto" ≠ b.given ∧ b.given ++ "-lto" ≠ a.given) :
    a.given = b.given ∧ a.isLto = b.isLto := by
  rw [buildPostfix_eq, buildPostfix_eq] at same
  cases ha : a.isLto <;> cases hb : b.isLto <;> rw [ha, hb] at same
  · exact ⟨by simpa using same, rfl⟩
  · exact absurd (by simpa using same.symm) apart.2
  · exact absurd (by simpa using same) apart.1
  · exact ⟨(String.append_left_inj _).mp same, rfl⟩

/-- Two keys of one kind have the same parts, and an official one names the description before. -/
theorem parts_of_upload (same : a.upload = b.upload) : (a.isOfficial = false ∧ a.parts = b.parts) ∨
    (a.isOfficial = true ∧ a.describe.toList ++ (['/'] ++ ("mapnik-".toList ++ a.parts)) =
      b.describe.toList ++ (['/'] ++ ("mapnik-".toList ++ b.parts))) := by
  have kind := official_of_upload same
  have letters := congrArg String.toList same
  cases official : a.isOfficial with
  | false =>
    rw [upload_dev official, upload_dev (kind ▸ official)] at letters
    exact .inl ⟨rfl, List.append_cancel_left (List.append_cancel_right letters)⟩
  | true =>
    rw [upload_official official, upload_official (kind ▸ official)] at letters
    exact .inr ⟨rfl, List.append_cancel_left (List.append_cancel_right letters)⟩

/-- **What two runs with one key have in common**, which the mode of `FULL_SDK` is not. -/
theorem upload_determines (a b : Packaging) :
    (∀ mode, ({ a with full_sdk := mode } : Packaging).upload = a.upload) ∧
    (a.upload = b.upload → a.isOfficial = b.isOfficial ∧
      (Apart "-sdk".toList a.platform.toList b.platform.toList →
        Apart [a.separator] a.describe.toList b.describe.toList →
        a.platform = b.platform ∧ a.describe = b.describe ∧
          (a.given ++ "-lto" ≠ b.given → b.given ++ "-lto" ≠ a.given →
            a.given = b.given ∧ a.isLto = b.isLto))) := by
  refine ⟨upload_full_sdk a, fun same =>
    ⟨official_of_upload same, fun platforms descriptions => ?_⟩⟩
  have platform_eq : ∀ {a b : Packaging}, Apart "-sdk".toList a.platform.toList b.platform.toList →
      a.parts = b.parts → a.platform = b.platform ∧
        a.describe.toList ++ a.buildPostfix.toList = b.describe.toList ++ b.buildPostfix.toList := by
    intro a b platforms parts
    obtain ⟨platform, rest⟩ := eq_of_separated (by decide) platforms parts
    exact ⟨String.toList_inj.mp platform, (List.cons.inj rest).2⟩
  have described : a.platform = b.platform ∧ a.describe.toList = b.describe.toList ∧
      a.buildPostfix.toList = b.buildPostfix.toList := by
    rcases parts_of_upload same with ⟨dev, parts⟩ | ⟨official, whole⟩
    · obtain ⟨platform, rest⟩ := platform_eq platforms parts
      rw [Packaging.separator, if_neg (by simp [dev])] at descriptions
      exact ⟨platform, eq_of_ended descriptions (buildPostfix_ended a) (buildPostfix_ended b) rest⟩
    · rw [Packaging.separator, if_pos official] at descriptions
      obtain ⟨describe, rest⟩ := eq_of_separated (by simp) descriptions whole
      obtain ⟨platform, rest⟩ := platform_eq platforms (List.append_cancel_left rest)
      rw [describe] at rest
      exact ⟨platform, describe, List.append_cancel_left rest⟩
  obtain ⟨platform, describe, postfixes⟩ := described
  exact ⟨platform, String.toList_inj.mp describe, fun left right =>
    given_of_buildPostfix (String.toList_inj.mp postfixes) ⟨left, right⟩⟩

end Keys

/-! ### Keys in use -/

/-- A run for a device and one for the simulator. -/
def deviceRun : Packaging := ⟨"v2.3.0-12-g1a2b3c4", none, "iPhoneOS", "false", none, "false"⟩

def simulatorRun : Packaging := { deviceRun with mp_platform := "iPhoneSimulator" }

/-- They have one key, and what it names in common. -/
theorem iphone_upload : deviceRun.upload = simulatorRun.upload ∧
    deviceRun.describe = simulatorRun.describe := by
  have same : deviceRun.upload = simulatorRun.upload := by decide
  obtain ⟨-, common⟩ := upload_determines deviceRun simulatorRun
  exact ⟨same, ((common same).2 (by unfold Apart; decide) (by unfold Apart; decide)).2.1⟩

/-- What would have to be the same for two runs with one key. -/
def SameFlavour (a b : Packaging) : Prop :=
  a.isOfficial = b.isOfficial ∧ a.platform = b.platform ∧ a.describe = b.describe ∧
    a.build_postfix = b.build_postfix ∧ a.isLto = b.isLto ∧ a.isFull = b.isFull

/-- The same sources with `FULL_SDK=minimal`, with the postfix `lto`, with `USE_LTO=true` and with the
postfix `unset`. -/
def minimalRun : Packaging := { deviceRun with full_sdk := some "minimal" }

def taggedRun : Packaging := { deviceRun with build_postfix := some "lto" }

def optimizedRun : Packaging := { deviceRun with use_lto := "true" }

def unsetRun : Packaging := { deviceRun with build_postfix := some "unset" }

/-- A tag with a hyphen, and the postfix of that name. -/
def hyphenRun : Packaging := { deviceRun with describe := "v2.3.0-debug" }

def debugRun : Packaging := { deviceRun with describe := "v2.3.0", build_postfix := some "debug" }

/-- A description that begins with `sdk`, and a platform that ends in it. -/
def linuxRun : Packaging := { deviceRun with mp_platform := "Linux", describe := "sdk-2.3" }

def linuxSdkRun : Packaging := { deviceRun with mp_platform := "Linux-sdk", describe := "2.3" }

/-- **Keys collide**: by the mode of `FULL_SDK`, by a postfix `lto`, by a postfix `unset`, by a
postfix in the description and by a description in the platform. -/
theorem upload_collides :
    (minimalRun.upload = deviceRun.upload ∧ ¬ SameFlavour minimalRun deviceRun) ∧
    (taggedRun.upload = optimizedRun.upload ∧ ¬ SameFlavour taggedRun optimizedRun) ∧
    (unsetRun.upload = deviceRun.upload ∧ ¬ SameFlavour unsetRun deviceRun) ∧
    (hyphenRun.upload = debugRun.upload ∧ ¬ SameFlavour hyphenRun debugRun) ∧
    linuxRun.upload = linuxSdkRun.upload ∧ ¬ SameFlavour linuxRun linuxSdkRun := by
  unfold SameFlavour
  decide

end MapnikPackaging.Sdk
