/-
`scripts/make_universal.sh`.

The script lays the prefixes of the architectures in `ARCHS` over one universal prefix, joins the
archives of one name with `lipo`, and last joins the six builds of mapnik itself. The names of the
archives are collected from every prefix under `out/`; the inputs are looked up under the listed
ones. Every expansion that the script does not quote is divided into words and expanded.

* `exported_of_source` — the environment the script runs in.
* `resolve_libIn`, `resolve_universalLib` — where its texts lead.
* `unquoted_fromLibs` — the inputs of a call.
-/

import MapnikPackaging.Files.Paths
import MapnikPackaging.Settings.Paths
import MapnikPackaging.Shell.Errexit
import MapnikPackaging.Universal.Rewrite

namespace MapnikPackaging

open Files Shell Var

/-! ### The script -/

/-- The exported variables that the script reads. -/
structure Exported where
  uname : String
  rootdir : String
  build_root : String
  build_universal : String
  mapnik_bin_source : String
  mapnik_install : String

/-- Under `set -u` the script needs them all. -/
def exported (e : Env Var) : Option Exported := do
  return {
    uname := ← e UNAME
    rootdir := ← e ROOTDIR
    build_root := ← e BUILD_ROOT
    build_universal := ← e BUILD_UNIVERSAL
    mapnik_bin_source := ← e MAPNIK_BIN_SOURCE
    mapnik_install := ← e MAPNIK_INSTALL }

/-- What runs on the contents of files. -/
structure Universal.Tools (α : Type) where
  /-- `lipo -create` -/
  lipo : List α → Option α
  /-- `sed -i '' PROGRAM` -/
  sed : List Char → α → α

/-- One call `lipo -create -output OUTPUT INPUTS`, with the tree it is made in. -/
structure LipoCall (α : Type) where
  output : List Char
  inputs : List (List Char)
  tree : FileTree α

structure Progress (α : Type) where
  tree : FileTree α
  calls : List (LipoCall α)

namespace Universal

variable {α : Type}

/-- A command that may stop the script. -/
abbrev Command (α : Type) := Progress α → Except (Progress α) (Progress α)

/-- A step on the tree alone. -/
def onTree (f : FileTree α → Option (FileTree α)) : Command α := fun s =>
  match f s.tree with
  | some t => .ok { s with tree := t }
  | none => .error s

section Script

variable (tools : Tools α) (cwd : Path) (v : Exported)

/-- `${BUILD_ROOT}-${arch}` -/
def prefixDir (arch : String) : List Char := v.build_root.toList ++ '-' :: arch.toList

/-- `${BUILD_ROOT}-${arch}/lib/${libname}` -/
def libIn (arch : String) (libname : List Char) : List Char :=
  prefixDir v arch ++ '/' :: ("lib/".toList ++ libname)

/-- `${BUILD_UNIVERSAL}/lib/${libname}` -/
def universalLib (libname : List Char) : List Char :=
  v.build_universal.toList ++ '/' :: ("lib/".toList ++ libname)

/-- `-name '*.a'` -/
def isArchive (n : Name) : Bool := decide (['.', 'a'] <:+ n)

/-- `-name "*.pc" -or -name "*.la" -or -name "*-config"` -/
def isConfig (n : Name) : Bool :=
  [".pc", ".la", "-config"].any fun ending => decide (ending.toList <:+ n)

/-- `find OPERANDS -maxdepth 1 -name '*.a' -exec basename '{}' \;`. It fails where an operand is
missing. -/
def findArchives (t : FileTree α) (operands : List (List Char)) : Option (List Char) :=
  let paths := operands.map (resolve cwd)
  if paths.all fun p => (t.node p).isSome then
    some (unlines (paths.flatMap fun p =>
      (p.getLast?.toList ++ t.names p).filter isArchive))
  else none

/-- The text of `LIBS`. -/
def libs (t : FileTree α) : Option (List Char) :=
  (findArchives cwd t (unquoted t cwd (v.rootdir.toList ++ '/' :: "out/*/lib".toList))).map sortUniq

/-- `sed` on the configuration files below `${BUILD_ROOT}-universal/`. -/
def rewriteConfigs (arch : String) (t : FileTree α) : Option (FileTree α) :=
  let roots := (unquoted t cwd (v.build_root.toList ++ "-universal/".toList)).map (resolve cwd)
  if roots.all fun p => (t.node p).isSome then
    some (t.edit fun q a =>
      if roots.any (fun p => decide (p <+: q)) && q.getLast?.any isConfig then
        tools.sed (rewriteProgram v.build_root arch) a
      else a)
  else none

/-- One round of the first loop. -/
def mergePrefix (arch : String) : Command α := fun s =>
  if s.tree.isDir (resolve cwd (prefixDir v arch)) then
    onTree (fun t => (t.merge (resolve cwd (prefixDir v arch ++ ['/']))
      (resolve cwd (prefixDir v "universal"))).bind (rewriteConfigs tools cwd v arch)) s
  else .ok s

/-- `FROM_LIBS` -/
def fromLibs (t : FileTree α) (libname : List Char) : List Char :=
  archs.foldl (fun text arch =>
    if t.isFile (resolve cwd (libIn v arch libname)) then text ++ ' ' :: libIn v arch libname
    else text) []

/-- `lipo -create`: it fails without an input, where one is missing, and where it cannot write. -/
def lipoCreate (output : List Char) (inputs : List (List Char)) : Command α := fun s =>
  onTree (fun t => do
    let contents ← inputs.mapM fun input => t.content (resolve cwd input)
    let joined ← tools.lipo contents
    t.write (resolve cwd output) joined) { s with calls := s.calls ++ [⟨output, inputs, s.tree⟩] }

/-- One round of the second loop. -/
def mergeLib (libname : List Char) : Command α := fun s =>
  lipoCreate tools cwd (universalLib v libname)
    (unquoted s.tree cwd (fromLibs cwd v s.tree libname)) s

/-- The architectures of mapnik, in the order of the call. -/
def mapnikArchs : List String :=
  ["x86_64-macosx", "arm64-iphoneos", "armv7s-iphoneos", "armv7-iphoneos",
    "x86_64-iphonesimulator", "i386-iphonesimulator"]

/-- `${BUILD_ROOT}-${arch}-mapnik/${MAPNIK_INSTALL}/lib/libmapnik.a` -/
def mapnikIn (arch : String) : List Char :=
  prefixDir v arch ++ "-mapnik/".toList ++ v.mapnik_install.toList ++ "/lib/libmapnik.a".toList

/-- `[ -f ${MAPNIK_BIN_SOURCE}/lib/libmapnik.a ]`, which is false of more than one word. -/
def mapnikBuilt (t : FileTree α) : Bool :=
  match unquoted t cwd (v.mapnik_bin_source.toList ++ "/lib/libmapnik.a".toList) with
  | [word] => t.isFile (resolve cwd word)
  | _ => false

/-- The last step. -/
def mergeMapnik : Command α := fun s =>
  if mapnikBuilt cwd v s.tree then
    lipoCreate tools cwd (v.build_universal.toList ++ "/libmapnik.a".toList)
      (mapnikArchs.map (mapnikIn v)) s
  else .ok s

/-- The two loops and the last step, for the names in `LIBS`. -/
def merging (text : List Char) : Command α := fun s => do
  let s ← archs.foldlM (fun s arch => mergePrefix tools cwd v arch s) s
  let s ← (unquoted s.tree cwd text).foldlM (fun s libname => mergeLib tools cwd v libname s) s
  mergeMapnik tools cwd v s

/-- The script, in the environment of a platform. -/
def makeUniversal : Command α := fun s => do
  let s ← onTree (fun t => t.mkdirs (resolve cwd v.build_universal.toList)) s
  if v.uname = "Darwin" then
    match libs cwd v s.tree with
    | some text => merging tools cwd v text s
    | none => .error s
  else .ok s

end Script

/-! ### The environment of a platform -/

end Universal

/-- What a platform exports for the script. -/
def Platform.exported (m : Machine) (P : Platform) : Exported where
  uname := m.uname_s
  rootdir := m.rootdir
  build_root := m.rootdir ++ "/out/" ++ P.builddir
  build_universal := m.rootdir ++ "/out/" ++ P.builddir ++ "-universal"
  mapnik_bin_source := m.rootdir ++ "/out/" ++ P.builddir ++ "-" ++ P.slice ++ "-mapnik/usr/local"
  mapnik_install := "/usr/local"

/-- The prefix that `settings.sh` computes for a platform. -/
def Platform.build (m : Machine) (P : Platform) : String :=
  m.rootdir ++ "/out/" ++ P.builddir ++ "-" ++ P.slice

theorem exported_of_source {m : Machine} {P : Platform} {s e : Env Var} (usable : P.usableOn m)
    (h : P.source m s = .ok e) : exported e = some (P.exported m) := by
  obtain ⟨uname, rootdir, install, -, root, universal, -, source⟩ := Platform.source_paths usable h
  simp only [exported, uname, rootdir, install, root, universal, source]
  simp [Platform.exported, Platform.builddir, Platform.slice, ← String.toList_inj]

theorem build_of_source {m : Machine} {P : Platform} {s e : Env Var} (usable : P.usableOn m)
    (h : P.source m s = .ok e) : e BUILD = some (P.build m) := by
  rw [(Platform.source_paths usable h).build, Option.some.injEq, ← String.toList_inj]
  simp [Platform.build, Platform.builddir, Platform.slice]

namespace Universal

variable {α : Type} (m : Machine) (P : Platform) (cwd : Path)

/-! ### Texts and paths -/

/-- A text below `out/`. -/
def below (text : List Char) : List Char := m.rootdir.toList ++ '/' :: ("out/".toList ++ text)

/-- `out/` -/
def outDir : Path := resolve cwd (m.rootdir.toList ++ ['/']) ++ ["out".toList]

/-- The name of a prefix in `out/`. -/
def entry (arch : String) : Name := P.builddir.toList ++ '-' :: arch.toList

/-- A path in the prefix of an architecture. -/
def at_ (arch : String) (r : Path) : Path := outDir m cwd ++ entry P arch :: r

section Texts

variable {m P cwd} {arch : String} {libname : List Char}

theorem resolve_below (text : List Char) :
    resolve cwd (below m text) = outDir m cwd ++ components text := by
  have split : "out/".toList ++ text = "out".toList ++ '/' :: text := by simp
  have out : components "out".toList = ["out".toList] := by decide
  rw [below, resolve_slash, split, components_slash, out, outDir, List.append_assoc]

theorem builddir_proper : Proper P.builddir.toList := by
  cases P <;> decide

theorem entry_proper (flat : '/' ∉ arch.toList) : Proper (entry P arch) := by
  have dash : '-' ∈ entry P arch := by simp [entry]
  apply proper_of_mem (by decide) dash
  simp only [entry, List.mem_append, List.mem_cons, not_or]
  exact ⟨builddir_proper.2.1, by decide, flat⟩

theorem entry_inj {a b : String} : entry P a = entry P b ↔ a = b := by
  unfold entry
  rw [List.append_cancel_left_eq, List.cons.injEq, String.toList_inj]
  simp

theorem components_entry (flat : '/' ∉ arch.toList) (text : List Char) :
    components (entry P arch ++ '/' :: text) = entry P arch :: components text := by
  rw [components_slash, components_of_single (entry_proper flat).single]
  rfl

theorem prefixDir_eq : prefixDir (P.exported m) arch = below m (entry P arch) := by
  simp [prefixDir, Platform.exported, below, entry]

theorem libIn_eq : libIn (P.exported m) arch libname
    = below m (entry P arch ++ '/' :: ("lib".toList ++ '/' :: libname)) := by
  simp [libIn, prefixDir_eq, below]

theorem build_universal_eq :
    (P.exported m).build_universal.toList = below m (entry P "universal") := by
  simp [Platform.exported, below, entry]

theorem universalLib_eq : universalLib (P.exported m) libname
    = below m (entry P "universal" ++ '/' :: ("lib".toList ++ '/' :: libname)) := by
  simp [universalLib, build_universal_eq, below]

theorem build_eq : (P.build m).toList = below m (entry P P.slice) := by
  simp [Platform.build, below, entry]

theorem resolve_prefixDir (flat : '/' ∉ arch.toList) :
    resolve cwd (prefixDir (P.exported m) arch) = at_ m P cwd arch [] := by
  rw [prefixDir_eq, resolve_below, components_of_single (entry_proper flat).single]
  rfl

theorem resolve_prefixDir_slash (flat : '/' ∉ arch.toList) :
    resolve cwd (prefixDir (P.exported m) arch ++ ['/']) = at_ m P cwd arch [] := by
  have text : prefixDir (P.exported m) arch ++ ['/'] = below m (entry P arch ++ '/' :: []) := by
    simp [prefixDir_eq, below]
  rw [text, resolve_below, components_entry flat]
  rfl

theorem resolve_libIn (flat : '/' ∉ arch.toList) (name : Single libname) :
    resolve cwd (libIn (P.exported m) arch libname) = at_ m P cwd arch ["lib".toList, libname] := by
  have lib : components "lib".toList = ["lib".toList] := by decide
  rw [libIn_eq, resolve_below, components_entry flat, components_slash, lib,
    components_of_single name]
  rfl

theorem resolve_build_universal :
    resolve cwd (P.exported m).build_universal.toList = at_ m P cwd "universal" [] := by
  rw [build_universal_eq, ← prefixDir_eq, resolve_prefixDir (by decide)]

theorem resolve_universalLib (name : Single libname) :
    resolve cwd (universalLib (P.exported m) libname)
      = at_ m P cwd "universal" ["lib".toList, libname] := by
  rw [universalLib_eq, ← libIn_eq, resolve_libIn (by decide) name]

theorem at_append (r u : Path) : at_ m P cwd arch (r ++ u) = at_ m P cwd arch r ++ u := by
  simp [at_]

/-- Different prefixes have no paths in common. -/
theorem at_apart {a b : String} (differ : a ≠ b) (r u : Path) :
    ¬ at_ m P cwd a r <+: at_ m P cwd b u := by
  unfold at_
  rw [List.prefix_append_right_inj, List.cons_prefix_cons]
  rintro ⟨same, -⟩
  exact differ (entry_inj.mp same)

theorem archs_flat : ∀ arch ∈ archs, '/' ∉ arch.toList := by decide

theorem archs_not_universal : ∀ arch ∈ archs, arch ≠ "universal" := by decide

end Texts

/-! ### What the words stand for -/

section Words

variable {m P cwd} {t u : FileTree α} {arch : String} {libname : List Char}

theorem bare_below {text : List Char} (bare : Bare m.rootdir.toList) (h : Bare text) :
    Bare (below m text) :=
  bare.append (.cons (by decide) (Bare.append (by decide) h))

theorem bare_entry (h : Bare arch.toList) : Bare (entry P arch) := by
  have builddir : Bare P.builddir.toList := by cases P <;> decide
  exact builddir.append (h.cons (by decide))

theorem archs_bare : ∀ arch ∈ archs, Bare arch.toList := by decide

theorem bare_libIn (bare : Bare m.rootdir.toList) (ha : Bare arch.toList) (hl : Bare libname) :
    Bare (libIn (P.exported m) arch libname) := by
  rw [libIn_eq]
  exact bare_below bare ((bare_entry ha).append
    (.cons (by decide) (Bare.append (by decide) (hl.cons (by decide)))))

/-- The architectures that have the library. -/
def holding (m : Machine) (P : Platform) (cwd : Path) (t : FileTree α) (libname : List Char) :
    List String :=
  archs.filter fun arch => t.isFile (at_ m P cwd arch ["lib".toList, libname])

/-- **The inputs of a call** are the library in each listed prefix that has it. -/
theorem unquoted_fromLibs (bare : Bare m.rootdir.toList) (hl : Bare libname)
    (name : Single libname) : unquoted u cwd (fromLibs cwd (P.exported m) t libname)
      = (holding m P cwd t libname).map fun arch => libIn (P.exported m) arch libname := by
  have text : ∀ (as : List String) (front : List Char), (∀ a ∈ as, a ∈ archs) →
      as.foldl (fun text arch =>
        if t.isFile (resolve cwd (libIn (P.exported m) arch libname)) then
          text ++ ' ' :: libIn (P.exported m) arch libname
        else text) front
      = front ++ ((as.filter fun arch => t.isFile (at_ m P cwd arch ["lib".toList, libname])).map
          fun arch => libIn (P.exported m) arch libname).flatMap fun word => ' ' :: word := by
    intro as
    induction as with
    | nil => simp
    | cons a as ih =>
      intro front listed
      have path : resolve cwd (libIn (P.exported m) a libname)
          = at_ m P cwd a ["lib".toList, libname] :=
        resolve_libIn (archs_flat a (listed a (by simp))) name
      rw [List.foldl_cons, path, ih _ fun b hb => listed b (List.mem_cons_of_mem a hb)]
      by_cases there : t.isFile (at_ m P cwd a ["lib".toList, libname]) = true
      · simp only [List.filter_cons, there, if_true, List.map_cons, List.flatMap_cons,
          List.append_assoc]
      · simp only [List.filter_cons, there, Bool.false_eq_true, if_false]
  rw [fromLibs, text archs [] fun _ h => h, List.nil_append, ← holding]
  apply unquoted_words
  intro word hw
  obtain ⟨arch, harch, rfl⟩ := List.mem_map.mp hw
  have listed : arch ∈ archs := (List.mem_filter.mp harch).1
  exact ⟨by simp [libIn_eq, below], bare_libIn bare (archs_bare arch listed) hl⟩

end Words

end Universal

end MapnikPackaging
