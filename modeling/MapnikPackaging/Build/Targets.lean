/-
The targets of `build.sh`.

`build.sh` is meant to be sourced: it defines one function a product, each of which runs its
build scripts between `setup` and `teardown`, so that the parent environment is left alone.
`setup` sets `errexit`, moves into `osx`, puts tools on the search path and sources a platform;
`teardown` only clears `errexit`. `call_leaves` says where a call that returns leaves the shell,
`shielded_iff` that it is never where the call found it.
-/

import MapnikPackaging.Sourcing.HostSwitch

namespace MapnikPackaging

open Shell Script Var

namespace Build

/-- What the targets ask of the outside, beside the machine of the platform scripts. -/
structure World where
  machine : Machine
  /-- the exit status of an external command -/
  succeeds : String → Bool
  /-- `which sudo` -/
  hasSudo : Bool
  /-- `lsb_release --id` -/
  lsb_release : String
  /-- `./.mason/mason prefix clang++ 3.9.1` -/
  masonPrefix : String
  /-- `brew --prefix` -/
  brewPrefix : String
  /-- `${CROSS_COMPILING:-false}` -/
  CROSS_COMPILING : String
  /-- `${MINIMAL_MAPNIK:-false}` -/
  MINIMAL_MAPNIK : String
  /-- a file that is none of the platform scripts -/
  otherScript : String → Env Var → Run (Env Var)

/-- The sourcing shell: its variables with its directory, and its `errexit` flag. -/
structure State where
  env : Env Var
  errexit : Bool

/-- A command of `build.sh`; an error means that the shell is gone. -/
abbrev Command := World → State → Run State

/-! ### Commands -/

/-- Under `errexit` a failure ends the shell, otherwise it is passed over. -/
def failed (s : State) (message : String) : Run State :=
  if s.errexit then .error (.exit message) else .ok s

def external (line : String) : Command := fun w s =>
  if w.succeeds line then .ok s else failed s line

def externals (lines : List String) : Command := fun w s => lines.foldlM (fun s l => external l w s) s

def exportVar (x : Var) (value : World → Env Var → String) : Command := fun w s =>
  .ok { s with env := Function.update s.env x (some (value w s.env)) }

/-- `cd name`. -/
def cd (name : String) : Command := fun w s =>
  let dir := orDefault (s.env cwd) "" ++ "/" ++ name
  if w.machine.isDir dir then .ok { s with env := Function.update s.env cwd (some dir) }
  else failed s ("cd: " ++ name ++ ": No such file or directory")

/-- `FreeBSD.sh`, which names its platform `Linux`. -/
def freeBSD : Cmd := block ([
  .export MP_PLATFORM ["Linux"],
  .export HOST_PLATFORM ["Linux"],
  .export BOOST_ARCH ["x86"],
  .export ARCH_NAME ["gcc-x86_64"],
  .export HOST_ARG [""],
  .export CXX ["clang++"],
  .export MAKE ["gmake"]] ++ settingsCommands)

/-- `source NAME.sh`. -/
def sourceFile (name : String) : Command := fun w s => do
  let env ← match Platform.named name with
    | some P => P.source w.machine s.env
    | none => if name = "FreeBSD" then freeBSD.run w.machine s.env else w.otherScript name s.env
  return { s with env }

/-- `source ${MP_PLATFORM}.sh`, or the default platform. -/
def sourcePlatform (default : String) : Command := fun w s =>
  sourceFile (if Off (s.env MP_PLATFORM) then default else orDefault (s.env MP_PLATFORM) "") w s

/-- `[[ ${UNAME} == 'Linux' ]]`. -/
def onLinux (s : State) : Bool := s.env UNAME = some "Linux"

def seq (cs : List Command) : Command := fun w s => cs.foldlM (fun s c => c w s) s

/-! ### `setup` and `teardown` -/

/-- `set -e` and `set +e`. -/
def setErrexit (on : Bool) : Command := fun _ s => .ok { s with errexit := on }

def upgradeClang : Command := fun w s => seq [
  fun w => if occursIn "Ubuntu" w.lsb_release then
      externals ["sudo add-apt-repository -y ppa:ubuntu-toolchain-r/test", "sudo apt-get update -y"] w
    else .ok,
  external "sudo apt-get install -y libstdc++-4.9-dev",
  fun w s => if w.machine.isDir (orDefault (s.env cwd) "" ++ "/.mason") then .ok s else
    external "mkdir .mason && curl -sSfL https://github.com/mapbox/mason/archive/v0.5.0.tar.gz | tar --gunzip --extract --strip-components=1 --directory=./.mason" w s,
  external "./.mason/mason install clang++ 3.9.1",
  exportVar PATH fun w env => w.masonPrefix ++ "/bin:" ++ orDefault (env PATH) "",
  exportVar CXX fun _ _ => "clang++-3.9",
  exportVar CC fun _ _ => "clang-3.9"] w s

def upgradeCompiler : Command := fun w s =>
  if onLinux s && w.CROSS_COMPILING = "false" then seq [
    fun w => if w.hasSudo then .ok else external "apt-get install sudo" w,
    external "sudo apt-get install -y curl lsb-release git",
    upgradeClang] w s
  else .ok s

def prepLinux : Command := seq [
  cd "osx",
  fun w => if w.hasSudo then .ok else external "apt-get install sudo" w,
  external "sudo apt-get install -qq -y curl lsb-release pkg-config build-essential git cmake zlib1g-dev unzip make libtool autotools-dev automake realpath autoconf ragel",
  sourcePlatform "Linux"]

/-- `brew install … || true` cannot fail. -/
def prepOsx : Command := seq [
  cd "osx",
  exportVar PATH fun w env => w.brewPrefix ++ "/bin:" ++ orDefault (env PATH) "",
  sourcePlatform "MacOSX"]

def prepareOs : Command := seq [
  fun w s => if onLinux s then
      seq [prepLinux, external "sudo apt-get install -qq -y subversion"] w s
    else prepOsx w s,
  externals ["mkdir -p ${BUILD}", "mkdir -p ${BUILD}/lib", "mkdir -p ${BUILD}/include", "nprocs",
    "memsize"]]

def setup : Command := seq [setErrexit true, upgradeCompiler, prepareOs]

def teardown : Command := setErrexit false

/-! ### The targets -/

/-- A line of a target: an external command, or one of the build scripts, which succeed. -/
inductive Work where
  | command (line : String)
  | script (line : Env Var → String)

/-- A line that runs under a condition on the shell. -/
structure Job where
  when : World → Env Var → Bool
  work : Work

def always (work : Work) : Job := ⟨fun _ _ => true, work⟩

/-- `b ./scripts/build_X.sh`; `b` may send the output to a log. -/
def b (name : String) : Job := always (.script fun _ => "./scripts/build_" ++ name ++ ".sh")

/-- `./scripts/build_boost.sh ARGS`. -/
def boost (args : String) : Job := always (.script fun _ => "./scripts/build_boost.sh " ++ args)

def linuxOnly (line : String) : Job :=
  ⟨fun _ env => env UNAME = some "Linux", .command line⟩

/-- `[[ ${BOOST_ARCH} != "arm" ]]`. -/
def notArm (_ : World) (env : Env Var) : Bool := env BOOST_ARCH ≠ some "arm"

/-- The products of `build.sh`. -/
inductive Target where
  | build_mapnik | build_osrm | build_osmium | mobile_tools | build_http | build_osm2pgsql
  | build_liblas
deriving DecidableEq, Repr

namespace Target

def mapnikBoost (env : Env Var) : String :=
  "./scripts/build_boost.sh --with-thread --with-filesystem --disable-filesystem2 --with-system --with-regex"
    ++ if (env BOOST_ARCH).any (· ≠ "arm") then " --with-program_options" else ""

/-- The lines between `setup` and `teardown`. -/
def jobs : Target → List Job
  | build_mapnik => [
    linuxOnly "sudo apt-get purge -qq -y libtiff* libjpeg* libpng3",
    linuxOnly "sudo apt-get autoremove -y -qq",
    b "icu",
    always (.script mapnikBoost),
    b "freetype", b "harfbuzz", b "jpeg_turbo", b "png", b "proj4", b "tiff", b "webp", b "sqlite",
    { b "expat" with when := notArm },
    { b "postgres" with when := notArm },
    { b "gdal" with when := fun w env => notArm w env && w.MINIMAL_MAPNIK = "false" },
    { b "pixman" with when := fun w env => notArm w env && w.MINIMAL_MAPNIK = "false" },
    { b "cairo" with when := fun w env => notArm w env && w.MINIMAL_MAPNIK = "false" },
    ⟨fun w env => ! w.machine.isDir (orDefault (env MAPNIK_SOURCE) ""),
      .command "git clone --quiet https://github.com/mapnik/mapnik.git ${MAPNIK_SOURCE}"⟩,
    ⟨fun w env => ! w.machine.isDir (orDefault (env MAPNIK_SOURCE) ""),
      .command "(cd ${MAPNIK_SOURCE} && git checkout ${MAPNIK_BRANCH} && git branch -v)"⟩,
    ⟨fun w env => w.machine.isDir (orDefault (env MAPNIK_SOURCE) ""),
      .command "(cd ${MAPNIK_SOURCE} && git fetch -v && git checkout ${MAPNIK_BRANCH} && git branch -v)"⟩,
    b "mapnik",
    always (.script fun _ => "./scripts/post_build_fix.sh"),
    always (.script fun _ => "./scripts/test_mapnik.sh"),
    always (.script fun _ => "./scripts/package_mobile_sdk.sh")]
  | build_osrm => [
    b "tbb", b "expat", b "lua", b "zlib", b "bzip2",
    boost "--with-test --with-iostreams --with-date_time --with-program_options --with-thread --with-filesystem --disable-filesystem2 --with-system --with-regex",
    b "protobuf", b "osm-pbf", b "luabind", b "libstxxl", b "osrm"]
  | build_osmium => [
    b "proj4", b "expat", b "google_sparsetable", boost "--with-test --with-program_options",
    b "protobuf", b "osm-pbf"]
  | mobile_tools => [
    linuxOnly "sudo apt-get install -qq -y xutils-dev",
    b "zlib", b "libuv", b "openssl", b "curl", b "protobuf", b "google_sparsetable", b "freetype",
    b "harfbuzz", b "libxml2", b "jpeg_turbo", b "png", b "webp", b "tiff", b "sqlite",
    boost "--with-regex"]
  | build_http => [
    linuxOnly "sudo apt-get install -qq -y xutils-dev",
    b "zlib", b "libuv", b "openssl", b "curl", boost "--with-regex"]
  | build_osm2pgsql => [b "bzip2", b "geos", b "proj4", b "postgres", b "protobuf", b "protobuf_c"]
  | build_liblas => [
    b "zlib", b "jpeg_turbo", b "png", b "tiff", b "proj4", b "geotiff", b "geos", b "sqlite",
    b "spatialite", b "expat", b "postgres", b "gdal", b "laszip",
    boost "--with-thread --with-program_options", b "liblas"]

end Target

/-- The build scripts a call has run, each with the directory it was run in. -/
abbrev Trace := List (String × Option String)

/-- Run one line of a target. No line changes the shell. -/
def Job.run (w : World) (s : State) (j : Job) : Run Trace :=
  if j.when w s.env then
    match j.work with
    | .command line => (external line w s).map fun _ => []
    | .script line => .ok [(line s.env, s.env cwd)]
  else .ok []

def runJobs (w : World) (s : State) : List Job → Run Trace
  | [] => .ok []
  | j :: js => do
    let now ← j.run w s
    let later ← runJobs w s js
    return now ++ later

/-- A call of a target: the shell afterwards, and what it has run. -/
def call (t : Target) (w : World) (s : State) : Run (State × Trace) := do
  let s ← setup w s
  let ran ← runJobs w s t.jobs
  let s ← teardown w s
  return (s, ran)

/-! ### The promise -/

/-- Every call of the sequence returns, has run its scripts from `osx`, and gives the shell back
its directory, flag and search path. -/
def Shielded (w : World) (root : String) : State → List Target → Prop
  | _, [] => True
  | s, t :: ts => ∃ s' ran, call t w s = .ok (s', ran) ∧
      (∀ e ∈ ran, e.2 = some (root ++ "/osx")) ∧
      s'.env cwd = s.env cwd ∧ s'.errexit = s.errexit ∧ s'.env PATH = s.env PATH ∧
      Shielded w root s' ts

section Promise

variable {w : World} {s s' : State} {t : Target} {ts : List Target} {ran : Trace} {root : String}

theorem job_trace {j : Job} (h : j.run w s = .ok ran) : ∀ e ∈ ran, e.2 = s.env cwd := by
  simp only [Job.run] at h
  split at h
  · cases hw : j.work with
    | command line =>
      rw [hw] at h
      cases hl : external line w s with
      | error e => simp [hl, Except.map] at h
      | ok s₁ => simp [← show [] = ran by simpa [hl, Except.map] using h]
    | script line =>
      rw [hw] at h
      simp [← Except.ok.inj h]
  · simp [← Except.ok.inj h]

theorem runJobs_cons {j : Job} {js : List Job} (h : runJobs w s (j :: js) = .ok ran) :
    ∃ now later, j.run w s = .ok now ∧ runJobs w s js = .ok later ∧ ran = now ++ later := by
  obtain ⟨now, hnow, h⟩ := bind_eq_ok.mp h
  obtain ⟨later, hlater, h⟩ := bind_eq_ok.mp h
  exact ⟨now, later, hnow, hlater, (Except.ok.inj h).symm⟩

/-- What a list of lines has run, it has run in the one directory of the shell. -/
theorem runJobs_trace {js : List Job} (h : runJobs w s js = .ok ran) :
    ∀ e ∈ ran, e.2 = s.env cwd := by
  induction js generalizing ran with
  | nil => simp [← Except.ok.inj h]
  | cons j js ih =>
    obtain ⟨now, later, hnow, hlater, rfl⟩ := runJobs_cons h
    intro e he
    rcases List.mem_append.mp he with he | he
    · exact job_trace hnow e he
    · exact ih hlater e he

/-- A script that is run in any case is in the trace. -/
theorem runJobs_ran {js : List Job} {name : String} (hj : b name ∈ js)
    (h : runJobs w s js = .ok ran) : ran ≠ [] := by
  induction js generalizing ran with
  | nil => cases hj
  | cons j js ih =>
    obtain ⟨now, later, hnow, hlater, rfl⟩ := runJobs_cons h
    rcases List.mem_cons.mp hj with rfl | hj
    · rw [← Except.ok.inj hnow]
      simp
    · exact List.append_ne_nil_of_right_ne_nil _ (ih hj hlater)

/-- Every target has one. -/
theorem exists_script (t : Target) : ∃ name, b name ∈ t.jobs := by
  cases t with
  | build_mapnik => exact ⟨"icu", by simp [Target.jobs]⟩
  | build_osrm => exact ⟨"tbb", by simp [Target.jobs]⟩
  | build_osmium => exact ⟨"proj4", by simp [Target.jobs]⟩
  | build_osm2pgsql => exact ⟨"bzip2", by simp [Target.jobs]⟩
  | mobile_tools | build_http | build_liblas => exact ⟨"zlib", by simp [Target.jobs]⟩

/-- The lines go through when the commands do. -/
theorem runJobs_completes (succeeds : ∀ line, w.succeeds line = true) (js : List Job) :
    ∃ ran, runJobs w s js = .ok ran := by
  induction js with
  | nil => exact ⟨[], rfl⟩
  | cons j js ih =>
    obtain ⟨later, hlater⟩ := ih
    have now : ∃ now, j.run w s = .ok now := by
      simp only [Job.run]
      split
      · cases j.work with
        | command line => exact ⟨[], by simp [external, succeeds, Except.map]⟩
        | script line => exact ⟨_, rfl⟩
      · exact ⟨[], rfl⟩
    obtain ⟨now, hnow⟩ := now
    exact ⟨now ++ later, bind_eq_ok.mpr ⟨now, hnow, bind_eq_ok.mpr ⟨later, hlater, rfl⟩⟩⟩

/-- **A call that returns leaves the shell where its scripts ran**, with `errexit` clear. -/
theorem call_leaves (h : call t w s = .ok (s', ran)) :
    s'.errexit = false ∧ ran ≠ [] ∧ ∀ e ∈ ran, e.2 = s'.env cwd := by
  obtain ⟨s₁, -, h⟩ := bind_eq_ok.mp h
  obtain ⟨ran', hran, h⟩ := bind_eq_ok.mp h
  obtain ⟨s₂, hs₂, h⟩ := bind_eq_ok.mp h
  obtain ⟨rfl, rfl⟩ := Prod.mk.inj (Except.ok.inj h)
  obtain ⟨name, hj⟩ := exists_script t
  rw [← Except.ok.inj hs₂]
  exact ⟨rfl, runJobs_ran hj hran, fun e he => runJobs_trace hran e he⟩

/-- No call from the repository gives the shell back. -/
theorem not_shielded_cons (start : s.env cwd = some root) : ¬ Shielded w root s (t :: ts) := by
  rintro ⟨s', ran, h, fromOsx, dir, -⟩
  obtain ⟨-, some_script, there⟩ := call_leaves h
  obtain ⟨e, he⟩ := List.exists_mem_of_ne_nil ran some_script
  have moved : some (root ++ "/osx") = some root := by
    rw [← fromOsx e he, there e he, dir, start]
  have longer := congrArg String.length (Option.some.inj moved)
  rw [String.length_append] at longer
  have osx : "/osx".length = 4 := rfl
  omega

/-- **The promise is kept for the empty sequence of calls only.** -/
theorem shielded_iff (start : s.env cwd = some root) (ts : List Target) :
    Shielded w root s ts ↔ ts = [] := by
  cases ts with
  | nil => exact iff_of_true trivial rfl
  | cons t ts => exact iff_of_false (not_shielded_cons start) (by simp)

end Promise

/-! ### One call on a Mac -/

/-- A Mac with Homebrew and the checkout in `/Users/build/mapnik-packaging`. -/
def macWorld : World where
  machine := {
    uname_s := "Darwin"
    uname_r := "13.4.0"
    nproc := "8"
    ncpu := "8"
    rootdir := "/Users/build/mapnik-packaging/osx"
    xcrun := fun _ => "10.9"
    xcode_select := "/Applications/Xcode.app/Contents/Developer"
    isDir := fun d => d = "/Users/build/mapnik-packaging/osx"
    isFile := fun _ => false
    realDirname := fun f => f }
  succeeds _ := true
  hasSudo := true
  lsb_release := ""
  masonPrefix := ""
  brewPrefix := "/opt/brew"
  CROSS_COMPILING := "false"
  MINIMAL_MAPNIK := "false"
  otherScript _ env := .ok env

/-- The shell that has sourced `build.sh` there. -/
def macShell : State where
  env
    | .cwd => some "/Users/build/mapnik-packaging"
    | .PATH => some "/usr/bin:/bin"
    | .UNAME => some "Darwin"
    | _ => none
  errexit := true

/-- `build_http` returns in `osx`, with `errexit` clear and Homebrew on the path. -/
theorem build_http_leaks : ∃ s ran, call .build_http macWorld macShell = .ok (s, ran) ∧
    s.env cwd = some "/Users/build/mapnik-packaging/osx" ∧ s.errexit = false ∧
      ¬ Shielded macWorld "/Users/build/mapnik-packaging" macShell [.build_http] := by
  let env := Function.update (Function.update macShell.env cwd
    (some "/Users/build/mapnik-packaging/osx")) PATH (some "/opt/brew/bin:/usr/bin:/bin")
  have usable : Platform.macOSX.usableOn macWorld.machine := rfl
  obtain ⟨e, he⟩ := (Platform.source_completes_iff (s := env) usable (.inl (by decide))
    (.inl (by decide))).mpr ⟨by decide +kernel, trivial⟩
  have there : cd "osx" macWorld ⟨macShell.env, true⟩ = .ok ⟨Function.update macShell.env cwd
      (some "/Users/build/mapnik-packaging/osx"), true⟩ := rfl
  have brewed : exportVar PATH (fun w env => w.brewPrefix ++ "/bin:" ++ orDefault (env PATH) "")
      macWorld ⟨Function.update macShell.env cwd (some "/Users/build/mapnik-packaging/osx"), true⟩
        = .ok ⟨env, true⟩ := rfl
  have sourced : sourcePlatform "MacOSX" macWorld ⟨env, true⟩ = .ok ⟨e, true⟩ := by
    have named : Platform.named "MacOSX" = some .macOSX := by decide
    have unset : Off (env MP_PLATFORM) := by decide
    simp only [sourcePlatform, if_pos unset, sourceFile, named]
    exact bind_eq_ok.mpr ⟨e, he, rfl⟩
  have osx : prepOsx macWorld ⟨macShell.env, true⟩ = .ok ⟨e, true⟩ :=
    bind_eq_ok.mpr ⟨_, there, bind_eq_ok.mpr ⟨_, brewed, bind_eq_ok.mpr ⟨_, sourced, rfl⟩⟩⟩
  have prepared : prepareOs macWorld ⟨macShell.env, true⟩ = .ok ⟨e, true⟩ :=
    bind_eq_ok.mpr ⟨_, osx, rfl⟩
  have ready : setup macWorld macShell = .ok ⟨e, true⟩ :=
    bind_eq_ok.mpr ⟨_, rfl, bind_eq_ok.mpr ⟨_, rfl, bind_eq_ok.mpr ⟨_, prepared, rfl⟩⟩⟩
  obtain ⟨ran, hran⟩ := runJobs_completes (w := macWorld) (s := ⟨e, true⟩) (fun _ => rfl)
    Target.build_http.jobs
  refine ⟨⟨e, false⟩, ran, ?_, ?_, rfl, not_shielded_cons rfl⟩
  · exact bind_eq_ok.mpr ⟨_, ready, bind_eq_ok.mpr ⟨ran, hran, bind_eq_ok.mpr ⟨_, rfl, rfl⟩⟩⟩
  · show e cwd = _
    rw [Platform.source_cwd usable (by decide) he]
    rfl

/-- Nothing called, nothing broken. -/
theorem macShell_shielded :
    Shielded macWorld "/Users/build/mapnik-packaging" macShell [] ∧
      ¬ Shielded macWorld "/Users/build/mapnik-packaging" macShell [.build_http] := by
  exact ⟨(shielded_iff rfl []).mpr rfl, fun h => nomatch (shielded_iff rfl [.build_http]).mp h⟩

end Build

end MapnikPackaging
