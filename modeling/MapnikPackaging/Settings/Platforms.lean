/-
The platform scripts: `osx/Linux.sh`, `osx/Linaro.sh`, …, each a few assignments
followed by `source settings.sh`.

`iPhoneOS64.sh`, `iPhoneOSs.sh` and `iPhoneSimulator64.sh` source their 32-bit sibling,
override two variables and source `settings.sh` again. `Platform.source` is what
`source P.sh` does to the environment, `Platform.sourceCross` is
`MP_CROSS=1 source P.sh`.
-/

import MapnikPackaging.Settings.Body

namespace MapnikPackaging

open Shell Script Var

/-- The platform scripts, in the order of their file names. -/
inductive Platform where
  | linux | linaro | linaroSoftfp | android | macOSX
  | iPhoneOS | iPhoneOS64 | iPhoneOSs | iPhoneSimulator | iPhoneSimulator64
deriving DecidableEq, Repr

namespace Platform

def all : List Platform :=
  [linux, linaro, linaroSoftfp, android, macOSX, iPhoneOS, iPhoneOS64, iPhoneOSs, iPhoneSimulator,
    iPhoneSimulator64]

theorem mem_all (P : Platform) : P ∈ all := by
  cases P <;> decide

/-! ### The scripts -/

def linuxAssignments : List Cmd := [
  .export MP_PLATFORM ["Linux"],
  .export HOST_PLATFORM ["Linux"],
  .export BOOST_ARCH ["x86"],
  .export ARCH_NAME ["gcc-x86_64"],
  .export HOST_ARG [""],
  .export MAKE ["make"]]

def linaroAssignments : List Cmd := [
  .export MP_PLATFORM ["Linaro"],
  .export HOST_PLATFORM ["Linux"],
  .export BOOST_ARCH ["arm"],
  .export ARCH_NAME ["gcc-arm-linux-gnueabihf"],
  .export HOST_ARG ["--host=arm-linux-gnueabihf"]]

def linaroSoftfpAssignments : List Cmd := [
  .export MP_PLATFORM ["Linaro-softfp"],
  .export HOST_PLATFORM ["Linux"],
  .export BOOST_ARCH ["arm"],
  .export ARCH_NAME ["gcc-arm-linux-gnueabi"],
  .export HOST_ARG ["--host=arm-linux-gnueabi"]]

/-- `Android.sh` picks its host by `uname`; on another kernel the host is left as it was. -/
def androidHost : Cmd :=
  .ite (.is [UNAME] "Darwin") (.export HOST_PLATFORM ["MacOSX"])
  (.ite (.is [UNAME] "Linux") (.export HOST_PLATFORM ["Linux"])
  (.command ["unknown host platform for android cross-compile: ", UNAME]))

def androidAssignments : List Cmd := [
  .export MP_PLATFORM ["Android"],
  .export MP_ANDROID_NDK_VERSION ["r10c"],
  .export MP_ANDROID_ARCH ["arm"],
  .export MP_API_LEVEL ["android-21"],
  .export MP_ANDROID_TARGET ["arm"],
  .export MP_ANDROID_CROSS_COMPILER [MP_ANDROID_TARGET, "-linux-androideabi-4.9"],
  .assign UNAME [.ask Machine.uname_s],
  androidHost,
  .export BOOST_ARCH ["arm"],
  .export ARCH_NAME ["gcc-arm"],
  .export HOST_ARG ["--host=", MP_ANDROID_TARGET, "-linux-androideabi"],
  .export MAKE ["make"]]

def macOSXAssignments : List Cmd := [
  .export MP_PLATFORM ["MacOSX"],
  .export XCODE_PLATFORM [MP_PLATFORM],
  .export HOST_PLATFORM ["MacOSX"],
  .export BOOST_ARCH ["x86"],
  .export ARCH_NAME ["x86_64"],
  .export HOST_ARG ["--host x86_64-apple-darwin"],
  .export ACTIVE_SDK_VERSION [.ask (Machine.xcrun · "macosx")],
  .export MIN_SDK_VERSION_FLAG ["-mmacosx-version-min=10.8"],
  .export MAKE ["make"]]

def iPhoneOSAssignments : List Cmd := [
  .export MP_PLATFORM ["iPhoneOS"],
  .export XCODE_PLATFORM [MP_PLATFORM],
  .export HOST_PLATFORM ["MacOSX"],
  .export BOOST_ARCH ["arm"],
  .export ARCH_NAME ["armv7"],
  .export HOST_ARG ["--host=arm-apple-darwin"],
  .export ACTIVE_SDK_VERSION [.ask (Machine.xcrun · "iphoneos")],
  .export MIN_SDK_VERSION_FLAG ["-miphoneos-version-min=", ACTIVE_SDK_VERSION],
  .export MAKE ["make"]]

def iPhoneSimulatorAssignments : List Cmd := [
  .export MP_PLATFORM ["iPhoneSimulator"],
  .export XCODE_PLATFORM [MP_PLATFORM],
  .export HOST_PLATFORM ["MacOSX"],
  .export BOOST_ARCH ["x86"],
  .export ARCH_NAME ["i386"],
  .export HOST_ARG ["--host=i686-apple-darwin11"],
  .export ACTIVE_SDK_VERSION [.ask (Machine.xcrun · "iphonesimulator")],
  .export MIN_SDK_VERSION_FLAG ["-miphoneos-version-min=", ACTIVE_SDK_VERSION],
  .export MAKE ["make"]]

/-- Two variables overridden before `settings.sh` is sourced again. -/
def variantAssignments (arch platform : String) : List Cmd := [
  .export ARCH_NAME [arch],
  .export MP_PLATFORM [platform]]

/-- The commands of `P.sh`, given those of `settings.sh`. -/
def commandsWith (cs : List Cmd) : Platform → List Cmd
  | linux => linuxAssignments ++ cs
  | linaro => linaroAssignments ++ cs ++ [.export MAKE ["make"]]
  | linaroSoftfp => linaroSoftfpAssignments ++ cs ++ [.export MAKE ["make"]]
  | android => androidAssignments ++ cs
  | macOSX => macOSXAssignments ++ cs
  | iPhoneOS => iPhoneOSAssignments ++ cs
  | iPhoneOS64 => iPhoneOSAssignments ++ cs ++ variantAssignments "arm64" "iPhoneOS64" ++ cs
  | iPhoneOSs => iPhoneOSAssignments ++ cs ++ variantAssignments "armv7s" "iPhoneOSs" ++ cs
  | iPhoneSimulator => iPhoneSimulatorAssignments ++ cs
  | iPhoneSimulator64 =>
      iPhoneSimulatorAssignments ++ cs ++ variantAssignments "x86_64" "iPhoneSimulator64" ++ cs

/-- `P.sh`. -/
def script (P : Platform) : Cmd := block (P.commandsWith settingsCommands)

/-- `source P.sh`. -/
def source (m : Machine) (P : Platform) (s : Env Var) : Outcome Var := P.script.run m s

/-- `MP_CROSS=1 source P.sh`. -/
def sourceCross (m : Machine) (P : Platform) (s : Env Var) : Outcome Var :=
  (withTemp MP_CROSS "1" P.script).run m s

/-! ### What the scripts call their platform -/

/-- `MP_PLATFORM`, also the name of the script. -/
def mpPlatform : Platform → String
  | linux => "Linux"
  | linaro => "Linaro"
  | linaroSoftfp => "Linaro-softfp"
  | android => "Android"
  | macOSX => "MacOSX"
  | iPhoneOS => "iPhoneOS"
  | iPhoneOS64 => "iPhoneOS64"
  | iPhoneOSs => "iPhoneOSs"
  | iPhoneSimulator => "iPhoneSimulator"
  | iPhoneSimulator64 => "iPhoneSimulator64"

/-- `ARCH_NAME`. -/
def archName : Platform → String
  | linux => "gcc-x86_64"
  | linaro => "gcc-arm-linux-gnueabihf"
  | linaroSoftfp => "gcc-arm-linux-gnueabi"
  | android => "gcc-arm"
  | macOSX => "x86_64"
  | iPhoneOS => "armv7"
  | iPhoneOS64 => "arm64"
  | iPhoneOSs => "armv7s"
  | iPhoneSimulator => "i386"
  | iPhoneSimulator64 => "x86_64"

/-- `BOOST_ARCH` is `arm`. -/
def isArm : Platform → Bool
  | linaro | linaroSoftfp | android | iPhoneOS | iPhoneOS64 | iPhoneOSs => true
  | _ => false

/-- The Apple platforms. -/
def isApple : Platform → Bool
  | macOSX | iPhoneOS | iPhoneOS64 | iPhoneOSs | iPhoneSimulator | iPhoneSimulator64 => true
  | _ => false

/-- The kernel a platform is built on: `HOST_PLATFORM` is `Linux` or `MacOSX`, and
Android takes either. -/
def usableOn (m : Machine) : Platform → Prop
  | linux | linaro | linaroSoftfp => m.uname_s = "Linux"
  | android => m.uname_s = "Linux" ∨ m.uname_s = "Darwin"
  | _ => m.uname_s = "Darwin"

/-- `HOST_PLATFORM` on a machine the platform is usable on. -/
def host (m : Machine) : Platform → Platform
  | linux | linaro | linaroSoftfp => linux
  | android => if m.uname_s = "Darwin" then macOSX else linux
  | _ => macOSX

/-- The platform whose script is `NAME.sh`. -/
def named (name : String) : Option Platform := all.find? (·.mpPlatform = name)

theorem named_mpPlatform (P : Platform) : named P.mpPlatform = some P := by
  cases P <;> decide

end Platform

/-- The platform a machine is a host of. -/
def Machine.hostPlatform (m : Machine) : Platform :=
  if m.uname_s = "Darwin" then .macOSX else .linux

namespace Platform

theorem host_eq {m : Machine} {P : Platform} (usable : P.usableOn m) :
    P.host m = m.hostPlatform := by
  cases P <;> simp only [usableOn] at usable <;> simp [host, Machine.hostPlatform, usable]

end Platform

end MapnikPackaging
