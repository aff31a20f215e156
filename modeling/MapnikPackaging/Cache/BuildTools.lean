/-
The tools every platform's builds share: `ensure_xz` and `ensure_nasm`.

Both look for a file below `BUILD_TOOLS_ROOT`, and where it is missing they source the host
platform, build the tool and source the caller's platform again. Unlike the blocks of the
build scripts they do so without `MP_CROSS`, so that a compiler already exported stays in
use. They go back by `cd $CUR_DIR`, where the directory is divided into words and expanded.
`Session` is a machine with its tools and the shell at work on it, and
`tools_native_and_restored` says when the tools are the host's in every reachable state, that a
caller always gets its compilers back, and when it gets its directory back.
-/

import MapnikPackaging.Files.Paths
import MapnikPackaging.Shell.Runs
import MapnikPackaging.Sourcing.HostSwitch

namespace MapnikPackaging

open Files Shell Script Var

/-! ### `ensure_xz` and `ensure_nasm` -/

/-- The shared build tools. -/
inductive Tool where
  | xz | nasm
deriving DecidableEq, Repr

namespace Tool

/-- The name of the source package, up to its version. -/
def package : Tool → String
  | xz => "xz-"
  | nasm => "nasm-"

def version : Tool → Var
  | xz => XZ_VERSION
  | nasm => NASM_VERSION

end Tool

/-- A tool below `BUILD_TOOLS_ROOT/bin`: what `configure` saw, and the environment of the
shell it was built in, as that shell was started. -/
structure Built where
  started : Env Var
  CC : Option String
  CFLAGS : Option String

/-- The tools there are. -/
abbrev Tools := Tool → Option Built

/-- What a call meets: whether the tool's own build goes through, whether the shell is under
`set -e`, its home directory, and the directories there are when it goes back. -/
structure Attempt where
  works : Bool
  errexit : Bool
  home : String
  files : FileTree Unit

namespace Attempt

/-- A command fails: under `set -e` the shell stops, otherwise it goes on. -/
def fails (a : Attempt) (message : String) (s : Env Var) : Run (Env Var) :=
  if a.errexit then .error (.exit message) else .ok s

/-- `cd $X`, by the words that the directory becomes without quotes. -/
def cdUnquoted (a : Attempt) (x : Var) (s : Env Var) : Run (Env Var) :=
  let start := components (orDefault (s cwd) "").toList
  match unquoted a.files start (orDefault (s x) "").toList with
  | [] => .ok (Function.update s cwd (some a.home))
  | [dir] =>
    if a.files.isDir (resolve start dir) then
      .ok (Function.update s cwd (some (String.ofList dir)))
    else a.fails "cd: No such file or directory" s
  | _ => a.fails "cd: too many arguments" s

/-- The directory is there, and wherever the shell is, its text becomes that one word. -/
def Returns (a : Attempt) (dir : String) : Prop := ∀ start,
  unquoted a.files start dir.toList = [dir.toList] ∧
    a.files.isDir (resolve start dir.toList) = true

end Attempt

/-- From the test to the line before the host is sourced. -/
def unpackTool (t : Tool) : List Cmd := [
  .assign CUR_DIR [here],
  .assign cwd [PACKAGES],
  .command ["download ", .lit t.package, t.version, ".tar.bz2"],
  .command ["tar xf ", .lit t.package, t.version, ".tar.bz2"],
  .assign cwd [here, "/", .lit t.package, t.version],
  .assign OLD_PLATFORM [MP_PLATFORM]]

/-- `export PATH=${BUILD_TOOLS_ROOT}/bin:$PATH`. -/
def toolsOnPath : Cmd := .export PATH [loose BUILD_TOOLS_ROOT, "/bin:", searchPath]

/-- Unpack the tool and source the host. -/
def enterTool (m : Machine) (t : Tool) (s : Env Var) : Run (Env Var) := do
  let s ← (block (unpackTool t)).run m s
  sourceByName (Platform.source m) HOST_PLATFORM s

theorem toolsOnPath_touches : toolsOnPath.touches = [PATH] := rfl

/-- What follows `make install`. -/
def leaveTool (m : Machine) (a : Attempt) (s : Env Var) : Run (Env Var) := do
  let s ← sourceByName (Platform.source m) OLD_PLATFORM s
  let s ← a.cdUnquoted CUR_DIR s
  toolsOnPath.run m s

/-- `ensure_xz` and `ensure_nasm`, called in the shell that was started in `started`. -/
def ensureTool (m : Machine) (started : Env Var) (t : Tool) (a : Attempt) (tools : Tools)
    (s : Env Var) : Tools × Run (Env Var) :=
  match tools t with
  | some _ => (tools, toolsOnPath.run m s)
  | none =>
    match enterTool m t s with
    | .error e => (tools, .error e)
    | .ok h =>
      if a.works then
        (Function.update tools t (some ⟨started, h CC, h CFLAGS⟩), leaveTool m a h)
      else (tools, do leaveTool m a (← a.fails "make: *** [install] Error" h))

/-- The tool was configured as the host platform configures in that shell when it is fresh. -/
def Built.Native (m : Machine) (host : Platform) (b : Built) : Prop :=
  ∃ h, host.source m b.started = .ok h ∧ b.CC = h Var.CC ∧ b.CFLAGS = h Var.CFLAGS

/-! ### What `configure` sees -/

section Configured

variable {m : Machine} {P : Platform} {s s' u u' : Env Var}

/-- What `configure` reads and a caller gets back. -/
def configured : List Var := [CC, CXX, CFLAGS, LDFLAGS, ARCH_NAME]

theorem configured_agree (hs : (P.selected (P.branch m) platformFirst).run m s = .ok s')
    (hu : (P.selected (P.branch m) platformFirst).run m u = .ok u')
    (lto : s LTO = u LTO) (sysroot : s SYSROOT = u SYSROOT) : AgreeOn configured s' u' := by
  have agree : AgreeOn [LTO, SYSROOT] s u := by simp [AgreeOn, lto, sysroot]
  cases P with
  | linux =>
    exact (Platform.linux.selected .linux platformFirst).final_eq hs hu _
      (agree.mono (by decide +kernel))
  | linaro =>
    exact (Platform.linaro.selected .linaro platformFirst).final_eq hs hu _
      (agree.mono (by decide +kernel))
  | linaroSoftfp =>
    exact (Platform.linaroSoftfp.selected .linaroSoftfp platformFirst).final_eq hs hu _
      (agree.mono (by decide +kernel))
  | android =>
    exact (Platform.android.selected .android platformFirst).final_eq hs hu _
      (agree.mono (by decide +kernel))
  | _ =>
    simp only [Platform.branch] at hs hu
    revert hs hu
    cases m.isDir (m.xcode_select ++ "/Toolchains/") <;> intro hs hu <;>
      exact Script.final_eq _ hs hu _ (agree.mono (by decide +kernel))

/-- Two environments in which a platform takes its own compilers come out alike. -/
theorem source_agree (usable : P.usableOn m) (hs : P.source m s = .ok s')
    (hu : P.source m u = .ok u') (lto : s LTO = u LTO) (sysroot : s SYSROOT = u SYSROOT)
    (takes : TakesPlatform s CXX (P.branch m).coreCXX ∧ TakesPlatform s CC (P.branch m).coreCC)
    (fresh : u CC = none ∧ u CXX = none) : AgreeOn configured s' u' := by
  have off : ∀ {x core}, u x = none → TakesPlatform u x core := fun h => .inl (by rw [h]; decide)
  rw [Platform.source_selected usable (Platform.allowed_of_source hs) takes.1 takes.2] at hs
  rw [Platform.source_selected usable (Platform.allowed_of_source hu) (off fresh.2)
    (off fresh.1)] at hu
  exact configured_agree hs hu lto sysroot

end Configured

/-! ### One call -/

theorem coreCXX_eq {b b' : Branch} (h : b.coreCC = b'.coreCC) : b.coreCXX = b'.coreCXX := by
  revert h
  cases b <;> cases b' <;> simp [Branch.coreCC, Branch.coreCXX]

/-- A shell that was started without compilers and has sourced a platform. -/
structure Sourced (m : Machine) (P : Platform) (E s : Env Var) : Prop where
  usable : P.usableOn m
  fresh : E CC = none ∧ E CXX = none
  platform : s MP_PLATFORM = some P.mpPlatform
  host : s HOST_PLATFORM = some m.hostPlatform.mpPlatform
  inputs : ∀ v ∈ [LTO, SYSROOT, MP_CROSS], s v = E v
  values : ∃ e, P.source m E = .ok e ∧ AgreeOn configured s e

section Call

variable {m : Machine} {P : Platform} {E s s' u h : Env Var} {t : Tool}

theorem sourced_of_source (usable : P.usableOn m) (fresh : E CC = none ∧ E CXX = none)
    (hs : P.source m E = .ok s) : Sourced m P E s := by
  refine ⟨usable, fresh, (Platform.source_platform usable hs).1, ?_, fun v hv => ?_, s, hs,
    fun _ _ => rfl⟩
  · rw [Platform.source_host usable hs, Platform.host_eq usable]
  · exact Platform.source_outside hs (by revert v; decide)

/-- The platform's compilers are in use. -/
theorem Sourced.compilers (S : Sourced m P E s) :
    s CXX = some (P.branch m).coreCXX ∧ s CC = some (P.branch m).coreCC := by
  obtain ⟨e, he, agree⟩ := S.values
  rw [agree CXX (by decide), agree CC (by decide)]
  exact Platform.source_compilers S.usable (.inl (by rw [S.fresh.2]; decide))
    (.inl (by rw [S.fresh.1]; decide)) he

theorem enterTool_ok (S : Sourced m P E s) :
    enterTool m t s = .ok h ↔ ∃ u, (block (unpackTool t)).run m s = .ok u ∧
      m.hostPlatform.source m u = .ok h := by
  simp only [enterTool, bind, Except.bind]
  cases hu : (block (unpackTool t)).run m s with
  | error e => simp
  | ok u =>
    have host : u HOST_PLATFORM = some m.hostPlatform.mpPlatform := by
      rw [(block _).frame hu HOST_PLATFORM (by cases t <;> decide), S.host]
    simp [sourceByName_eq host]

/-- What the unpacking notes and what it leaves alone. -/
theorem unpackTool_ok (S : Sourced m P E s) (hu : (block (unpackTool t)).run m s = .ok u) :
    u CUR_DIR = some (orDefault (s cwd) "") ∧ u OLD_PLATFORM = some P.mpPlatform ∧
      ∀ v ∈ [CC, CXX, LTO, SYSROOT, MP_CROSS], u v = s v := by
  refine ⟨?_, ?_, fun v hv => (block _).frame hu v ?_⟩
  · obtain ⟨s₁, h₁, hu⟩ := block_cons_ok hu
    obtain ⟨a, ha, hs₁⟩ := assign_ok h₁
    simp only [Word.eval_dflt, Word.eval_nil, Except.map, Except.ok.injEq, String.append_empty] at ha
    rw [(block _).frame hu CUR_DIR (by cases t <;> decide), hs₁, Function.update_self, ha]
  · refine block_value_of_eval hu (by cases t <;> rfl) rfl (by decide)
      (by cases t <;> decide) (w := [MP_PLATFORM]) ?_
    have platform : u MP_PLATFORM = some P.mpPlatform := by
      rw [(block _).frame hu MP_PLATFORM (by cases t <;> decide), S.platform]
    simp [Word.eval_val platform, Except.map]
  · revert v
    cases t <;> decide

/-- Sourcing the host keeps the caller's compilers, or hands over to `MP_CROSS`. -/
theorem host_takes (S : Sourced m P E s) (hu : (block (unpackTool t)).run m s = .ok u)
    (hh : m.hostPlatform.source m u = .ok h) :
    TakesPlatform h CXX (P.branch m).coreCXX ∧ TakesPlatform h CC (P.branch m).coreCC := by
  obtain ⟨-, -, kept⟩ := unpackTool_ok S hu
  have cross : h MP_CROSS = u MP_CROSS := Platform.source_outside hh (by decide)
  have takes : ∀ {x core}, x = CC ∨ x = CXX → ¬ Off (some core) → u x = some core →
      TakesPlatform h x core := by
    intro x core hx named value
    by_cases on : Off (u MP_CROSS)
    · exact .inr (.inr (by rw [Platform.source_keeps hx (by rwa [value]) on hh, value]))
    · exact .inr (.inl (by rwa [cross]))
  obtain ⟨cxx, cc⟩ := S.compilers
  obtain ⟨namedCC, namedCXX⟩ := not_off_core (P.branch m)
  exact ⟨takes (.inr rfl) namedCXX (by rw [kept CXX (by decide), cxx]),
    takes (.inl rfl) namedCC (by rw [kept CC (by decide), cc])⟩

/-- What fails changes nothing. -/
theorem Attempt.fails_ok {a : Attempt} {message : String} (h : a.fails message s = .ok s') :
    s' = s := by
  unfold Attempt.fails at h
  split at h
  · cases h
  · exact (Except.ok.inj h).symm

/-- `cd $X` changes the directory at most, -/
theorem Attempt.cdUnquoted_other {a : Attempt} {x : Var} (h : a.cdUnquoted x s = .ok s') :
    ∀ v, v ≠ cwd → s' v = s v := by
  intro v hv
  have moved : ∀ dir : String, Function.update s cwd (some dir) v = s v :=
    fun dir => Function.update_of_ne hv _ _
  simp only [Attempt.cdUnquoted] at h
  split at h
  · rw [← Except.ok.inj h, moved]
  · split at h
    · rw [← Except.ok.inj h, moved]
    · rw [Attempt.fails_ok h]
  · rw [Attempt.fails_ok h]

/-- and goes where `X` says if that is one word. -/
theorem Attempt.cdUnquoted_returns {a : Attempt} {x : Var} {dir : String}
    (returns : a.Returns dir) (value : orDefault (s x) "" = dir) :
    a.cdUnquoted x s = .ok (Function.update s cwd (some dir)) := by
  obtain ⟨word, there⟩ := returns (components (orDefault (s cwd) "").toList)
  simp only [Attempt.cdUnquoted, value, word, there, if_true, String.ofList_toList]

/-- A directory whose text has no blank and no pattern character can be gone back to. -/
theorem Attempt.returns_of_bare {a : Attempt} {dir : String}
    (absolute : dir.toList.head? = some '/') (bare : Bare dir.toList)
    (there : a.files.isDir (components dir.toList) = true) : a.Returns dir := by
  intro start
  constructor
  · apply unquoted_bare _ bare
    intro empty
    rw [empty] at absolute
    cases absolute
  · rwa [resolve, if_pos absolute]

/-- From `/q/[a]` beside `/q/a` the shell would go to `/q/a`. -/
example : unquoted (FileTree.ofEntries (α := Unit) [([['q']], .dir), ([['q'], "[a]".toList], .dir),
    ([['q'], ['a']], .dir)] (by decide)) [] "/q/[a]".toList = ["/q/a".toList] := by decide

/-- The caller is given back what it had, the directory if it can be gone back to. -/
theorem leaveTool_restores {a : Attempt} (S : Sourced m P E s)
    (hu : (block (unpackTool t)).run m s = .ok u) (hh : m.hostPlatform.source m u = .ok h)
    (hs : leaveTool m a h = .ok s') :
    Sourced m P E s' ∧ ∀ dir, s cwd = some dir → a.Returns dir → s' cwd = some dir := by
  obtain ⟨noted, old, kept⟩ := unpackTool_ok S hu
  have old' : h OLD_PLATFORM = some P.mpPlatform := by
    rw [Platform.source_outside hh (by decide), old]
  simp only [leaveTool, sourceByName_eq old'] at hs
  obtain ⟨w, hw, hs⟩ := bind_eq_ok.mp hs
  obtain ⟨w₁, h₁, hs⟩ := bind_eq_ok.mp hs
  have onPath : ∀ v, v ≠ PATH → s' v = w₁ v := fun v hp =>
    toolsOnPath.frame (m := m) hs v (by simpa [toolsOnPath_touches] using hp)
  have quiet : ∀ v, v ≠ cwd → v ≠ PATH → s' v = w v := fun v hc hp => by
    rw [onPath v hp, Attempt.cdUnquoted_other h₁ v hc]
  have inputs : ∀ v ∈ [LTO, SYSROOT, MP_CROSS], h v = E v := fun v hv => by
    rw [Platform.source_outside hh (by revert v; decide), kept v (by revert v; decide),
      S.inputs v hv]
  obtain ⟨e, he, agree⟩ := S.values
  refine ⟨⟨S.usable, S.fresh, ?_, ?_, fun v hv => ?_, e, he, fun v hv => ?_⟩,
    fun dir here returns => ?_⟩
  · rw [quiet _ (by decide) (by decide), (Platform.source_platform S.usable hw).1]
  · rw [quiet _ (by decide) (by decide), Platform.source_host S.usable hw, Platform.host_eq S.usable]
  · rw [quiet v (by revert v; decide) (by revert v; decide),
      Platform.source_outside hw (by revert v; decide), inputs v hv]
  · rw [quiet v (by revert v; decide) (by revert v; decide)]
    exact source_agree S.usable hw he (inputs _ (by decide)) (inputs _ (by decide))
      (host_takes S hu hh) S.fresh v hv
  · have value : orDefault (w CUR_DIR) "" = dir := by
      rw [Platform.source_outside hw (by decide), Platform.source_outside hh (by decide), noted,
        here, orDefault_some_empty, orDefault_some_empty]
    rw [Attempt.cdUnquoted_returns returns value, Except.ok.injEq] at h₁
    rw [onPath _ (by decide), ← h₁, Function.update_self]

/-- What `configure` finds is the host's exactly when the host's compilers are the caller's, or
a cross compiler was asked for. -/
theorem built_native (S : Sourced m P E s) (hu : (block (unpackTool t)).run m s = .ok u)
    (hh : m.hostPlatform.source m u = .ok h) :
    Built.Native m m.hostPlatform ⟨E, h CC, h CFLAGS⟩ ↔
      (P.branch m).coreCC = (m.hostPlatform.branch m).coreCC ∨ ¬ Off (E MP_CROSS) := by
  have usable : m.hostPlatform.usableOn m := Platform.host_eq S.usable ▸ Platform.host_usable S.usable
  obtain ⟨-, -, kept⟩ := unpackTool_ok S hu
  obtain ⟨cxx, cc⟩ := S.compilers
  have cross : u MP_CROSS = E MP_CROSS := by
    rw [kept MP_CROSS (by decide), S.inputs MP_CROSS (by decide)]
  have inputs : ∀ v ∈ [LTO, SYSROOT], u v = E v := fun v hv => by
    rw [kept v (by revert v; decide), S.inputs v (by revert v; decide)]
  have off : ∀ {x core}, E x = none → TakesPlatform E x core := fun h => .inl (by rw [h]; decide)
  obtain ⟨e, he⟩ : ∃ e, m.hostPlatform.source m E = .ok e := by
    obtain ⟨e, he, -⟩ := S.values
    rw [Platform.source_completes_iff usable (off S.fresh.2) (off S.fresh.1), ← Platform.host_eq S.usable,
      Platform.host_ready]
    exact Platform.allowed_of_source he
  have fresh := Platform.source_compilers usable (off S.fresh.2) (off S.fresh.1) he
  constructor
  · rintro ⟨e', he', sameCC, -⟩
    by_cases on : Off (E MP_CROSS)
    · left
      obtain rfl : e = e' := Except.ok.inj (he.symm.trans he')
      have named : ¬ Off (u CC) := by
        rw [kept CC (by decide), cc]
        exact (not_off_core _).1
      rw [Platform.source_keeps (.inl rfl) named (by rwa [cross]) hh, kept CC (by decide), cc,
        fresh.2] at sameCC
      exact Option.some.inj sameCC
    · exact .inr on
  · intro meets
    have takes : TakesPlatform u CXX (m.hostPlatform.branch m).coreCXX ∧
        TakesPlatform u CC (m.hostPlatform.branch m).coreCC := by
      rcases meets with same | on
      · refine ⟨.inr (.inr ?_), .inr (.inr ?_)⟩
        · rw [kept CXX (by decide), cxx, coreCXX_eq same]
        · rw [kept CC (by decide), cc, same]
      · exact ⟨.inr (.inl (by rwa [cross])), .inr (.inl (by rwa [cross]))⟩
    have agree := source_agree usable hh he (inputs _ (by decide)) (inputs _ (by decide)) takes
      S.fresh
    exact ⟨e, he, agree CC (by decide), agree CFLAGS (by decide)⟩

/-- What a call can do: find the tool, stop, or go back to its caller with the tool installed
or without. -/
theorem ensureTool_cases (S : Sourced m P E s) (a : Attempt) (tools : Tools) :
    (tools t ≠ none ∧ ensureTool m E t a tools s = (tools, toolsOnPath.run m s)) ∨
    (∃ e, ensureTool m E t a tools s = (tools, .error e)) ∨
    ∃ u h tools', tools t = none ∧ (block (unpackTool t)).run m s = .ok u ∧
      m.hostPlatform.source m u = .ok h ∧
      ensureTool m E t a tools s = (tools', leaveTool m a h) ∧
      (tools' = tools ∨ tools' = Function.update tools t (some ⟨E, h CC, h CFLAGS⟩)) := by
  simp only [ensureTool]
  cases there : tools t with
  | some b => exact .inl ⟨by simp, rfl⟩
  | none =>
    refine .inr ?_
    cases entered : enterTool m t s with
    | error e => exact .inl ⟨e, rfl⟩
    | ok h =>
      obtain ⟨u, hu, hh⟩ := (enterTool_ok S).mp entered
      cases works : a.works with
      | true => exact .inr ⟨u, h, _, rfl, hu, hh, rfl, .inr rfl⟩
      | false =>
        cases exits : a.errexit with
        | true => exact .inl ⟨_, by simp [Attempt.fails, exits]; rfl⟩
        | false =>
          exact .inr ⟨u, h, tools, rfl, hu, hh, by simp [Attempt.fails, exits]; rfl, .inl rfl⟩

/-- **A call that returns restores its caller**: the compilers in any case, and the directory if
the tool was there or the directory can be gone back to. -/
theorem ensureTool_restores (S : Sourced m P E s) {a : Attempt} {tools : Tools}
    (h : (ensureTool m E t a tools s).2 = .ok s') : Sourced m P E s' ∧
      ∀ dir, s cwd = some dir → tools t ≠ none ∨ a.Returns dir → s' cwd = some dir := by
  obtain ⟨there, eq⟩ | ⟨e, eq⟩ | ⟨u, k, tools', missing, hu, hk, eq, -⟩ :=
      ensureTool_cases S a tools (t := t) <;> rw [eq] at h
  · have kept : ∀ v, v ≠ PATH → s' v = s v := fun v hv =>
      toolsOnPath.frame (m := m) h v (by simpa [toolsOnPath_touches] using hv)
    obtain ⟨e, he, agree⟩ := S.values
    refine ⟨⟨S.usable, S.fresh, ?_, ?_, fun v hv => ?_, e, he, fun v hv => ?_⟩,
      fun dir here _ => (kept cwd (by decide)).trans here⟩
    · rw [kept _ (by decide), S.platform]
    · rw [kept _ (by decide), S.host]
    · rw [kept v (by revert v; decide), S.inputs v hv]
    · rw [kept v (by revert v; decide), agree v hv]
  · cases h
  · obtain ⟨sourced, back⟩ := leaveTool_restores S hu hk h
    exact ⟨sourced, fun dir here ok => back dir here (ok.resolve_left (by simp [missing]))⟩

/-- What a call installs is the host's under the condition of `built_native`. -/
theorem ensureTool_native (S : Sourced m P E s) {a : Attempt} {tools : Tools}
    (safe : tools t ≠ none ∨ (P.branch m).coreCC = (m.hostPlatform.branch m).coreCC ∨
      ¬ Off (E MP_CROSS))
    (native : ∀ t b, tools t = some b → b.Native m m.hostPlatform) :
    ∀ t' b, (ensureTool m E t a tools s).1 t' = some b → b.Native m m.hostPlatform := by
  intro t' b hb
  obtain ⟨-, eq⟩ | ⟨e, eq⟩ | ⟨u, k, tools', missing, hu, hk, eq, installed⟩ :=
      ensureTool_cases S a tools (t := t) <;> rw [eq] at hb
  · exact native t' b hb
  · exact native t' b hb
  · rcases installed with rfl | rfl
    · exact native t' b hb
    · by_cases same : t' = t
      · subst same
        simp only [Function.update_self, Option.some.injEq] at hb
        rw [← hb]
        exact (built_native S hu hk).mpr (safe.resolve_left (by simp [missing]))
      · simp only [Function.update_of_ne same] at hb
        exact native t' b hb

end Call

/-! ### Sessions -/

/-- A shell at work: the platform it sourced, what it was started with and what it has now. -/
structure Caller where
  platform : Platform
  started : Env Var
  env : Env Var

/-- The tools, and the shell at work, if any. -/
structure Session where
  tools : Tools
  shell : Option Caller

/-- A new shell without compilers sources a platform, the shell at work changes its directory,
or it calls one of the functions. -/
inductive ToolStep (m : Machine) where
  | start (E : Env Var) (fresh : E CC = none ∧ E CXX = none) (P : Platform) (usable : P.usableOn m)
  | move (dir : String)
  | call (t : Tool) (a : Attempt)

namespace Session

variable {m : Machine}

/-- No tools yet, and no shell. -/
def empty : Session := ⟨fun _ => none, none⟩

/-- A shell that stops is gone; the tools it installed stay. -/
def step (m : Machine) (σ : Session) : ToolStep m → Session
  | .start E _ P _ => { σ with shell := (P.source m E).toOption.map (⟨P, E, ·⟩) }
  | .move dir =>
    { σ with shell := σ.shell.map fun c => { c with env := Function.update c.env cwd (some dir) } }
  | .call t a =>
    match σ.shell with
    | none => σ
    | some c =>
      let (tools, result) := ensureTool m c.started t a σ.tools c.env
      ⟨tools, result.toOption.map fun s => { c with env := s }⟩

/-- Every tool there is is the host's. -/
def Native (m : Machine) (σ : Session) : Prop :=
  ∀ t b, σ.tools t = some b → b.Native m m.hostPlatform

/-- A call is safe when the tool exists, when the caller compiles as the host does, or when
it asked for a cross compiler. -/
def Safe (m : Machine) (σ : Session) : ToolStep m → Prop
  | .call t _ => ∀ c, σ.shell = some c → σ.tools t ≠ none ∨
      (c.platform.branch m).coreCC = (m.hostPlatform.branch m).coreCC ∨ ¬ Off (c.started MP_CROSS)
  | _ => True

/-- The shell at work has sourced its platform. -/
def AtWork (m : Machine) (σ : Session) : Prop :=
  ∀ c, σ.shell = some c → Sourced m c.platform c.started c.env

theorem atWork_step {σ : Session} (a : ToolStep m) (h : AtWork m σ) : AtWork m (step m σ a) := by
  intro c hc
  cases a with
  | start E fresh P usable =>
    simp only [step] at hc
    cases hs : P.source m E with
    | error e => simp [hs, Except.toOption] at hc
    | ok s =>
      simp only [hs, Except.toOption, Option.map_some, Option.some.injEq] at hc
      subst hc
      exact sourced_of_source usable fresh hs
  | move dir =>
    obtain ⟨c', hc', rfl⟩ := Option.map_eq_some_iff.mp hc
    obtain ⟨usable, fresh, platform, host, inputs, e, he, agree⟩ := h c' hc'
    have kept : ∀ v, v ≠ cwd → Function.update c'.env cwd (some dir) v = c'.env v :=
      fun v hv => Function.update_of_ne hv _ _
    refine ⟨usable, fresh, ?_, ?_, fun v hv => ?_, e, he, fun v hv => ?_⟩
    · exact (kept _ (by decide)).trans platform
    · exact (kept _ (by decide)).trans host
    · exact (kept v (by revert v; decide)).trans (inputs v hv)
    · exact (kept v (by revert v; decide)).trans (agree v hv)
  | call t attempt =>
    simp only [step] at hc
    cases hshell : σ.shell with
    | none => simp [hshell] at hc
    | some c' =>
      simp only [hshell] at hc
      obtain ⟨s, hs, rfl⟩ := Option.map_eq_some_iff.mp hc
      have returned : (ensureTool m c'.started t attempt σ.tools c'.env).2 = .ok s := by
        cases hr : (ensureTool m c'.started t attempt σ.tools c'.env).2 with
        | error e => simp [hr, Except.toOption] at hs
        | ok s' => simpa [hr, Except.toOption] using hs
      exact (ensureTool_restores (h c' hshell) returned).1

theorem native_step {σ : Session} (a : ToolStep m) (h : AtWork m σ ∧ Native m σ)
    (safe : Safe m σ a) : Native m (step m σ a) := by
  obtain ⟨work, native⟩ := h
  cases a with
  | start E fresh P usable => exact native
  | move dir => exact native
  | call t attempt =>
    simp only [step]
    cases hshell : σ.shell with
    | none => exact native
    | some c => exact ensureTool_native (work c hshell) (safe c hshell) native

/-! ### Android builds `xz` first -/

/-- Where a tool is unpacked. -/
theorem unpackTool_cwd {t : Tool} {s u : Env Var} {packages version : String}
    (hp : s PACKAGES = some packages) (hv : s t.version = some version)
    (hu : (block (unpackTool t)).run m s = .ok u) :
    u cwd = some (packages ++ "/" ++ t.package ++ version) := by
  obtain ⟨s₁, h₁, hu⟩ := block_cons_ok hu
  obtain ⟨s₂, h₂, hu⟩ := block_cons_ok hu
  obtain ⟨s₃, h₃, hu⟩ := block_cons_ok hu
  obtain ⟨s₄, h₄, hu⟩ := block_cons_ok hu
  obtain ⟨s₅, h₅, hu⟩ := block_cons_ok hu
  obtain ⟨a, ha, hs₂⟩ := assign_ok h₂
  obtain ⟨b, hb, hs₅⟩ := assign_ok h₅
  have hp₁ : s₁ PACKAGES = some packages := by rw [Script.frame _ h₁ _ (by decide), hp]
  simp only [Word.eval_val hp₁, Word.eval_nil, Except.map, Except.ok.injEq, String.append_empty] at ha
  have there : s₄ cwd = some packages := by
    rw [command_ok h₄, command_ok h₃, hs₂, Function.update_self, ha]
  have hv₄ : s₄ t.version = some version := by
    rw [command_ok h₄, command_ok h₃, Script.frame _ h₂ _ (by cases t <;> decide),
      Script.frame _ h₁ _ (by cases t <;> decide), hv]
  simp only [Word.eval_dflt, there, orDefault_some_empty, Word.eval_lit, Word.eval_val hv₄,
    Word.eval_nil, Except.map, Except.ok.injEq, String.append_empty] at hb
  rw [(block _).frame hu cwd (by decide), hs₅, Function.update_self, ← hb]
  simp only [String.append_assoc]

/-- What the Linux script has set when it looks at `CXX`. -/
def linuxSet : List Var := ((block (Platform.linuxAssignments ++ settingsHead)).flow [CC]).getD []

/-- The Linux script completes with the caller's compilers in use. -/
theorem linux_completes {m : Machine} {s : Env Var} (usable : Platform.linux.usableOn m)
    (allowed : Allowed s) (cxx : ¬ Off (s CXX)) (cc : s CC ≠ none) :
    ∃ s', Platform.linux.source m s = .ok s' := by
  have split : Platform.linux.commandsWith (Branch.linux.settings callerFirst) =
      (Platform.linuxAssignments ++ settingsHead) ++ cleared ::
        (linuxBranch ++ settingsPaths ++ Branch.linux.zlib :: settingsCore ++ callerFirst ++
          settingsFlags ++ settingsVersions) := by
    simp [Platform.commandsWith, Branch.settings, Branch.before, Branch.commands]
  obtain ⟨s₁, h₁, set⟩ := completes (m := m) (s := s) (i := [CC]) (o := linuxSet)
    (c := block (Platform.linuxAssignments ++ settingsHead)) (by decide +kernel)
    (by simp [AllSet, cc])
  have kept : s₁ CXX = s CXX := (block _).frame h₁ CXX (by decide)
  have clear : cleared.run m s₁ = .ok s₁ := by
    rw [← kept] at cxx
    simp [cleared, adjust, cxx]
  have both : AllSet (CXX :: linuxSet) s₁ := by
    intro v hv
    rcases List.mem_cons.mp hv with rfl | hv
    · rw [kept]
      intro none
      rw [none] at cxx
      exact cxx (by decide)
    · exact set v hv
  obtain ⟨s', h', -⟩ := completes (m := m) (o := []) (c := block (linuxBranch ++ settingsPaths ++
    Branch.linux.zlib :: settingsCore ++ callerFirst ++ settingsFlags ++ settingsVersions))
    (by decide +kernel) both
  refine ⟨s', ?_⟩
  rw [Platform.source_branch usable allowed]
  show (block (Platform.linux.commandsWith (Branch.linux.settings callerFirst))).run m s = .ok s'
  rw [split, block_append_of_run _ h₁, block_cons_of_run _ clear, h']

/-- The build goes through in a shell without `set -e`, and the checkout is there. -/
def smoothly : Attempt where
  works := true
  errexit := false
  home := "/home/build"
  files := .ofEntries ((components "/home/build/mapnik-packaging/osx".toList).inits.tail.map
    fun p => (p, .dir)) (by decide)

theorem smoothly_returns : smoothly.Returns "/home/build/mapnik-packaging/osx" :=
  Attempt.returns_of_bare (by decide) (by decide) (by decide)

open Platform in
/-- A shell on the Linux machine sources a platform and asks for `xz`. -/
def xzFirst (P : Platform) (usable : P.usableOn linuxBox) : List (ToolStep linuxBox) :=
  [.start linuxShell ⟨rfl, rfl⟩ P usable, .call .xz smoothly]

open Platform in
theorem xzFirst_installs {P : Platform} (hP : P ∈ [linux, android]) (usable : P.usableOn linuxBox) :
    ∃ s u h, P.source linuxBox linuxShell = .ok s ∧ Sourced linuxBox P linuxShell s ∧
      (block (unpackTool .xz)).run linuxBox s = .ok u ∧
      linuxBox.hostPlatform.source linuxBox u = .ok h ∧
      (Runs.final (step linuxBox) empty (xzFirst P usable)).tools .xz
        = some ⟨linuxShell, h CC, h CFLAGS⟩ := by
  have off : ∀ {x core}, linuxShell x = none → TakesPlatform linuxShell x core :=
    fun h => .inl (by rw [h]; decide)
  obtain ⟨s, hs⟩ := (source_completes_iff usable (off rfl) (off rfl)).mpr (linuxShell_ready P hP)
  have S := sourced_of_source usable ⟨rfl, rfl⟩ hs
  have version : s XZ_VERSION = some "5.0.5" := by
    rw [source_selected usable (by decide +kernel) (off rfl) (off rfl)] at hs
    simp only [List.mem_cons, List.not_mem_nil, or_false] at hP
    rcases hP with rfl | rfl <;> exact block_literal hs rfl rfl
  have packages := source_packages usable hs
  obtain ⟨u, hu, -⟩ := completes (m := linuxBox) (s := s) (c := block (unpackTool .xz))
    (i := [PACKAGES, XZ_VERSION, MP_PLATFORM]) (o := []) (by decide)
    (by simp [AllSet, version, packages, S.platform])
  have dir := unpackTool_cwd (t := .xz) packages version hu
  have allowed : Allowed u := by
    rw [Allowed, dir]
    decide +kernel
  have host : linuxBox.hostPlatform = linux := by decide
  obtain ⟨-, -, kept⟩ := unpackTool_ok S hu
  obtain ⟨cxx, cc⟩ := S.compilers
  obtain ⟨h, hh⟩ : ∃ h, linuxBox.hostPlatform.source linuxBox u = .ok h := by
    rw [host]
    refine linux_completes (by simp [usableOn, linuxBox]) allowed ?_ ?_
    · rw [kept CXX (by decide), cxx]
      exact (not_off_core _).2
    · simp [kept CC (by decide), cc]
  refine ⟨s, u, h, hs, S, hu, hh, ?_⟩
  have entered : enterTool linuxBox .xz s = .ok h := (enterTool_ok S).mpr ⟨u, hu, hh⟩
  simp [xzFirst, Session.step, empty, hs, Except.toOption, ensureTool, entered, smoothly]

theorem xzFirst_safe {P : Platform} (usable : P.usableOn Platform.linuxBox)
    (same : (P.branch Platform.linuxBox).coreCC
      = (Platform.linuxBox.hostPlatform.branch Platform.linuxBox).coreCC) :
    Runs.Along (step Platform.linuxBox) (Safe Platform.linuxBox) empty (xzFirst P usable) := by
  simp only [xzFirst, Runs.along_cons, Runs.along_nil, and_true, Safe, true_and]
  intro c hc
  simp only [Session.step] at hc
  obtain ⟨s, -, rfl⟩ := Option.map_eq_some_iff.mp hc
  exact .inr (.inl same)

theorem usable_linux : Platform.linux.usableOn Platform.linuxBox := by
  simp [Platform.usableOn, Platform.linuxBox]

theorem usable_android : Platform.android.usableOn Platform.linuxBox := by
  simp [Platform.usableOn, Platform.linuxBox]

/-- The call on the host's own platform returns. -/
theorem linux_returns {s u h : Env Var} (hs : Platform.linux.source Platform.linuxBox
      Platform.linuxShell = .ok s) (S : Sourced Platform.linuxBox .linux Platform.linuxShell s)
    (hu : (block (unpackTool .xz)).run Platform.linuxBox s = .ok u)
    (hh : Platform.linuxBox.hostPlatform.source Platform.linuxBox u = .ok h) :
    ∃ s', (ensureTool Platform.linuxBox Platform.linuxShell .xz smoothly (fun _ => none) s).2 =
      .ok s' := by
  have usable : Platform.linux.usableOn Platform.linuxBox := S.usable
  have host : Platform.linuxBox.hostPlatform = .linux := by decide
  have entered : enterTool Platform.linuxBox .xz s = .ok h := (enterTool_ok S).mpr ⟨u, hu, hh⟩
  obtain ⟨noted, old, kept⟩ := unpackTool_ok S hu
  rw [host] at hh
  obtain ⟨cxx, cc⟩ := S.compilers
  have compilers := Platform.source_compilers usable
    (.inr (.inr (by rw [kept CXX (by decide), cxx]))) (.inr (.inr (by rw [kept CC (by decide), cc]))) hh
  have old' : h OLD_PLATFORM = some Platform.linux.mpPlatform := by
    rw [Platform.source_outside hh (by decide), old]
  have allowed : Allowed h := by
    rw [Allowed, Platform.source_cwd usable (by decide) hh]
    exact Platform.allowed_of_source hh
  obtain ⟨w, hw⟩ := linux_completes usable allowed
    (by rw [compilers.1]; exact (not_off_core _).2) (by simp [compilers.2])
  have value : orDefault (w CUR_DIR) "" = "/home/build/mapnik-packaging/osx" := by
    rw [Platform.source_outside hw (by decide), Platform.source_outside hh (by decide), noted,
      Platform.source_cwd usable (by decide) hs]
    rfl
  have back := Attempt.cdUnquoted_returns smoothly_returns value
  obtain ⟨s', hs', -⟩ := completes (m := Platform.linuxBox) (c := toolsOnPath) (i := []) (o := [])
    (s := Function.update w cwd (some "/home/build/mapnik-packaging/osx")) (by decide)
    (by simp [AllSet])
  have left : leaveTool Platform.linuxBox smoothly h = .ok s' := by
    rw [leaveTool, sourceByName_eq old']
    exact bind_eq_ok.mpr ⟨w, hw, bind_eq_ok.mpr ⟨_, back, hs'⟩⟩
  have works : smoothly.works = true := rfl
  refine ⟨s', ?_⟩
  simp only [ensureTool, entered, works, if_true, left]

end Session

end MapnikPackaging
