/-
`scripts/package_mobile_sdk.sh`.

The script clears a directory under `out/dist`, copies headers, tools and libraries of one platform
into it, and makes a tarball of it, which it uploads if `PUBLISH` asks for it. The libraries come
from the universal prefix where there is one, else from the prefix of the platform. Every step is a
command under `set -e`, and an expansion that is not quoted is divided into words and expanded.

* `site_of_source` — the paths the script runs with.
* `prepare`, `copyLibs`, `finish` — its parts, and `package` the whole.
-/

import MapnikPackaging.Files.Copies
import MapnikPackaging.Files.Paths
import MapnikPackaging.Sdk.Config
import MapnikPackaging.Sdk.DepLibs
import MapnikPackaging.Sdk.Names
import MapnikPackaging.Universal.Script

namespace MapnikPackaging

open Files Shell Var

namespace Sdk

/-! ### What the script is given -/

/-- The exported variables that the script reads. -/
structure Site where
  mapnik_dist : String
  mapnik_config : String
  mapnik_bin_source : String
  build : String
  build_universal : String
  shared_zlib : String
  packages : String

/-- Under `set -u` the script needs them all. -/
def site (e : Env Var) : Option Site := do
  return {
    mapnik_dist := ← e MAPNIK_DIST
    mapnik_config := ← e MAPNIK_CONFIG
    mapnik_bin_source := ← e MAPNIK_BIN_SOURCE
    build := ← e BUILD
    build_universal := ← e BUILD_UNIVERSAL
    shared_zlib := ← e SHARED_ZLIB
    packages := ← e PACKAGES }

/-- What the script runs, and what it asks of the machine. -/
structure Kit (α : Type) where
  /-- `mapnik-config OPTION`, by what the file holds -/
  config : α → String → Option String
  /-- `sed -e PROGRAM` -/
  sed : List Char → α → Option α
  /-- `sed` on the output of `mapnik-config` -/
  dialect : Sed.Dialect
  /-- `build_boost.sh` for the sources of mapnik, or for its installed headers -/
  boost : Bool → FileTree α → Option (FileTree α)
  /-- what `mktemp -d` names -/
  staging : List Char
  /-- `which protoc` -/
  protoc : Option (List Char)
  date : String
  /-- a file of these lines -/
  lines : List String → α
  /-- `tar -c -j` of a directory -/
  tar : FileTree α → Path → Option α
  /-- `PUBLISH` -/
  publish : Option String
  /-- the sources of `s3cmd`, where `curl` fetches them -/
  fetched : Option α
  /-- `tar -x` of them in a directory -/
  unpack : Path → FileTree α → Option (FileTree α)
  /-- whether `s3cmd COMMAND` succeeds -/
  s3cmd : String → Bool
  /-- `HOME` -/
  home : List Char
  /-- `AWS_ACCESS_KEY_ID` -/
  access_key : Option String
  /-- `AWS_SECRET_ACCESS_KEY` -/
  secret_key : Option String

/-- The files, and what has been uploaded under which key. -/
structure Packing (α : Type) where
  tree : FileTree α
  uploads : List (String × α)

abbrev Step (α : Type) := Packing α → Except (Packing α) (Packing α)

/-! ### Commands -/

variable {α : Type}

/-- An argument in quotes, or one that the shell divides and expands. -/
inductive Arg where
  | quoted (text : List Char)
  | split (text : List Char)

def Arg.words (t : FileTree α) (cwd : Path) : Arg → List (List Char)
  | quoted text => [text]
  | split text => unquoted t cwd text

/-- A step on the tree alone. -/
def change (f : FileTree α → Option (FileTree α)) : Step α := fun s =>
  match f s.tree with
  | some t => .ok { s with tree := t }
  | none => .error s

/-- One command after another. -/
def run (steps : List (Step α)) : Step α := fun s => steps.foldlM (fun s c => c s) s

/-- `if TEST; then STEPS; fi` -/
def given (test : FileTree α → Bool) (steps : List (Step α)) : Step α := fun s =>
  if test s.tree then run steps s else .ok s

section Commands

variable (cwd : Path)

/-- `[ -d ARG ]`, which is false of more than one word. -/
def isDir (a : Arg) (t : FileTree α) : Bool :=
  match a.words t cwd with
  | [w] => t.isDir (resolve cwd w)
  | _ => false

/-- `[ -f ARG ]` -/
def isFile (a : Arg) (t : FileTree α) : Bool :=
  match a.words t cwd with
  | [w] => t.isFile (resolve cwd w)
  | _ => false

/-- `cd ARG`, and what follows in that directory. -/
def enter (a : Arg) (next : Path → Step α) : Step α := fun s =>
  match a.words s.tree cwd with
  | [w] => if s.tree.isDir (resolve cwd w) then next (resolve cwd w) s else .error s
  | _ => .error s

/-- What `pwd` prints. -/
def pwd : List Char := if cwd = [] then ['/'] else cwd.flatMap fun n => '/' :: n

def mkdir (a : Arg) : Step α :=
  change fun t => (a.words t cwd).foldlM (fun t w => t.mkdir (resolve cwd w)) t

/-- `mkdir -p` -/
def mkdirs (a : Arg) : Step α :=
  change fun t => (a.words t cwd).foldlM (fun t w => t.mkdirs (resolve cwd w)) t

/-- An entry and what is below it goes. -/
def delete (t : FileTree α) (p : Path) : FileTree α :=
  match p.getLast? with
  | some n => t.remove p.dropLast n
  | none => t

/-- `rm -rf` -/
def rmAll (a : Arg) : Step α :=
  change fun t => (a.words t cwd).foldlM (fun t w => some (delete t (resolve cwd w))) t

/-- `rm -f`, which takes no directory. -/
def rm (a : Arg) : Step α :=
  change fun t => (a.words t cwd).foldlM (fun t w =>
    if t.isDir (resolve cwd w) then none else some (delete t (resolve cwd w))) t

/-- `cp SOURCES TARGET`, and `cp -r`. Several sources need a directory, and so does a slash at the
end of the target. -/
def cp (deep : Bool) (sources : List Arg) (target : Arg) : Step α := fun s =>
  let words := (sources ++ [target]).flatMap (Arg.words s.tree cwd)
  match words.getLast? with
  | some dst =>
    let operands := words.dropLast.map (resolve cwd)
    if operands = [] ∨ (1 < operands.length ∨ dst.getLast? = some '/') ∧
        s.tree.isDir (resolve cwd dst) = false then .error s
    else
      let copied := s.tree.copyAll deep (resolve cwd dst) operands
      if copied.2 then .ok { s with tree := copied.1 } else .error { s with tree := copied.1 }
  | none => .error s

/-- `COMMAND > FILE`, where the command gives a text or fails. -/
def redirect (f : FileTree α → Option α) (file : List Char) : Step α :=
  change fun t => (f t).bind (t.write (resolve cwd file))

/-- `find DIR -maxdepth 1 -name PATTERN -print`: its output, whatever its status. -/
def findNames (t : FileTree α) (dir : List Char) (name : String) : List Char :=
  let p := resolve cwd dir
  let below := (t.names p).map fun n => (dir ++ n, n)
  let own := if (t.node p).isSome then p.getLast?.toList.map fun n => (dir, n) else []
  unlines (((own ++ below).filter fun f => globMatch (pattern name.toList) f.2).map Prod.fst)

/-- `for i in WORDS; do STEP; done` -/
def each (text : FileTree α → List Char) (step : List Char → Step α) : Step α := fun s =>
  (unquoted s.tree cwd (text s.tree)).foldlM (fun s i => step i s) s

end Commands

/-! ### The script -/

/-- A path below the one in a variable. -/
def sub (dir rest : String) : List Char := dir.toList ++ '/' :: rest.toList

section Script

variable (kit : Kit α) (v : Site) (p : Packaging) (cwd : Path)

/-- `LOCAL_TARGET` -/
def localTarget : String := v.mapnik_dist ++ "/" ++ p.packageName

/-- `NEW_MAPNIK_CONFIG` -/
def newMapnikConfig : List Char := sub (localTarget v p) "bin/mapnik-config"

/-- What `mapnik-config` at a path prints. -/
def ask (file : List Char) (option : String) (t : FileTree α) : Option String :=
  (t.content (resolve cwd file)).bind fun a => kit.config a option

/-- An empty directory for the package. -/
def clear : List (Step α) :=
  [ mkdirs cwd (.quoted (localTarget v p).toList),
    change fun t => t.mkdir (resolve cwd kit.staging),
    rmAll cwd (.split (sub (localTarget v p) "*")) ]

/-- The directories of the package. -/
def layout : List (Step α) :=
  [ mkdir cwd (.split (sub (localTarget v p) "lib")),
    mkdir cwd (.split (sub (localTarget v p) "include")),
    mkdir cwd (.split (sub (localTarget v p) "bin")),
    mkdirs cwd (.split (sub (localTarget v p) "lib/pkgconfig")),
    mkdir cwd (.split (sub (localTarget v p) "share/")) ]

/-- The headers, plugins and tools of mapnik. -/
def copyMapnik : List (Step α) :=
  [ given (isDir cwd (.quoted (sub v.mapnik_bin_source "share")))
      [cp cwd true [.quoted (sub v.mapnik_bin_source "share/mapnik")]
        (.quoted (sub (localTarget v p) "share/"))],
    redirect cwd (fun t => (t.content (resolve cwd v.mapnik_config.toList)).bind
      (kit.sed (configProgram v.build.toList))) (newMapnikConfig v p),
    cp cwd true [.quoted (sub v.mapnik_bin_source "include/mapnik")]
      (.quoted (sub (localTarget v p) "include/")),
    given (isDir cwd (.quoted (sub v.mapnik_bin_source "lib/mapnik/input/")))
      [mkdirs cwd (.quoted (sub (localTarget v p) "lib/mapnik/input/")),
        cp cwd true [.quoted (sub v.mapnik_bin_source "lib/mapnik/input")]
          (.quoted (sub (localTarget v p) "lib/mapnik/"))] ] ++
  ["bin/shapeindex", "bin/mapnik-render", "bin/mapnik-index"].map fun tool =>
    given (isFile cwd (.quoted (sub v.mapnik_bin_source tool)))
      [cp cwd false [.quoted (sub v.mapnik_bin_source tool)]
        (.quoted (sub (localTarget v p) tool))]

/-- The headers of boost. -/
def copyBoost : List (Step α) :=
  let boost := kit.staging ++ "/boost".toList
  [ change (kit.boost p.isFull),
    change fun t => if isDir cwd (.split (boost ++ ['/'])) t then some t else none,
    cp cwd true [.split boost] (.split (sub (localTarget v p) "include/")) ]

/-- `cp ${BUILD}/SOURCE ${LOCAL_TARGET}/TARGET`, with `-r` or without. -/
def fromBuild (deep : Bool) (source target : String) : Step α :=
  cp cwd deep [.split (sub v.build source)] (.split (sub (localTarget v p) target))

def copyGdal : List (Step α) :=
  [ mkdirs cwd (.split (sub (localTarget v p) "include/gdal/")),
    fromBuild v p cwd false "include/gdal*" "include/gdal/",
    fromBuild v p cwd false "include/cpl*" "include/gdal/",
    fromBuild v p cwd false "include/ogr*" "include/gdal/",
    fromBuild v p cwd false "lib/libgdal*" "lib/",
    fromBuild v p cwd false "bin/gdal-config" "bin/" ]

def copyPostgres : List (Step α) :=
  [ mkdirs cwd (.split (sub (localTarget v p) "include/")),
    fromBuild v p cwd false "include/libpq*.h" "include/",
    fromBuild v p cwd false "include/post*.h" "include/",
    fromBuild v p cwd false "include/pg_*.h" "include/",
    fromBuild v p cwd true "include/postgresql" "include/",
    fromBuild v p cwd false "lib/libpq*" "lib/" ]

def copySqlite : List (Step α) :=
  [ mkdirs cwd (.split (sub (localTarget v p) "include/")),
    fromBuild v p cwd false "include/sqlite3*.h" "include/",
    fromBuild v p cwd false "lib/libsqlite*" "lib/" ]

/-- What only the full package has. -/
def copyFull : List (Step α) :=
  [ given (isDir cwd (.quoted (sub v.build "include/freetype2")))
      [fromBuild v p cwd true "include/freetype2" "include/"],
    given (isFile cwd (.quoted (sub v.build "include/gdal.h"))) (copyGdal v p cwd),
    given (isFile cwd (.quoted (sub v.build "include/postgres_ext.h"))) (copyPostgres v p cwd),
    given (isFile cwd (.quoted (sub v.build "include/sqlite3.h"))) (copySqlite v p cwd),
    fromBuild v p cwd false "lib/libboost_program*" "lib/" ]

/-- The headers of a library that are a directory. -/
def headerDir (name : String) : Step α :=
  given (isDir cwd (.split (sub v.build ("include/" ++ name))))
    [fromBuild v p cwd true ("include/" ++ name) "include/"]

/-- The headers of a library that are files. -/
def headerFiles (name : String) : Step α :=
  each cwd (fun t => (unquoted t cwd (sub v.build "include/")).flatMap
      fun dir => findNames cwd t dir name)
    fun i => cp cwd false [.split i] (.split (sub (localTarget v p) "include/"))

def copyProtobuf : List (Step α) :=
  (match kit.protoc with
    | some file => [cp cwd false [.split file] (.split (sub (localTarget v p) "bin/"))]
    | none => []) ++
  [ mkdirs cwd (.split (sub (localTarget v p) "include/google/protobuf")),
    fromBuild v p cwd true "include/google/protobuf" "include/google/",
    fromBuild v p cwd false "lib/pkgconfig/protobuf.pc" "lib/pkgconfig/",
    cp cwd false [.quoted (sub v.build "lib/libprotobuf-lite.a")]
      (.split (sub (localTarget v p) "lib/")) ]

/-- What every package has of the dependencies. -/
def copyHeaders : List (Step α) :=
  ["unicode", "webp", "harfbuzz"].map (headerDir v p cwd) ++
  ["j*.*", "png*.*", "tiff*.*", "proj*.*", "bzlib.*"].map (headerFiles v p cwd) ++
  (if v.shared_zlib ≠ "true" then
    [ headerFiles v p cwd "z*.*",
      given (isFile cwd (.quoted (sub v.build "lib/libz.a")))
        [cp cwd false [.quoted (sub v.build "lib/libz.a")]
          (.split (sub (localTarget v p) "lib/"))] ]
  else []) ++
  [ headerDir v p cwd "cairo",
    given (isDir cwd (.split (sub v.build "include/google"))) (copyProtobuf kit v p cwd),
    given (isDir cwd (.split (sub v.build "bin/pkg-config")))
      [fromBuild v p cwd false "bin/pkg-config" "bin/"] ]

/-- What the package is filled with before the libraries. -/
def filling : List (Step α) :=
  layout v p cwd ++ copyMapnik kit v p cwd ++ copyBoost kit v p cwd ++
    (if p.isFull then copyFull v p cwd else []) ++ copyHeaders kit v p cwd

/-- Everything before the libraries. -/
def prepare : Step α := run (clear kit v p cwd ++ filling kit v p cwd)

/-- The text of the loop over the static dependencies. -/
def depLibs (t : FileTree α) : List Char :=
  match Sed.compile kit.dialect stripFlags with
  | some f => Sed.onLines f ((ask kit cwd (newMapnikConfig v p) "--dep-libs" t).getD "").toList
  | none => []

/-- `lib${i}.a` in the prefix and in the package. -/
def copyDepLib (i : List Char) : Step α :=
  given (isFile cwd (.quoted (sub v.build "lib/" ++ archive i)))
    [cp cwd false [.quoted (sub v.build "lib/" ++ archive i)]
      (.quoted (sub (localTarget v p) "lib/" ++ archive i))]

/-- The libraries, from the universal prefix or from that of the platform. -/
def copyLibs : Step α := fun s =>
  if s.tree.isDir (resolve cwd v.build_universal.toList) then
    cp cwd false [.split (sub v.build_universal "*")] (.split (sub (localTarget v p) "lib/")) s
  else
    run [ cp cwd false [.split (sub v.mapnik_bin_source "lib/libmapnik*")]
        (.split (sub (localTarget v p) "lib/")),
      each cwd (depLibs kit v p cwd) (copyDepLib v p cwd) ] s

/-- The first lines of `VERSION`. -/
def version (t : FileTree α) : α :=
  let asked := fun option => (ask kit cwd (newMapnikConfig v p) option t).getD ""
  kit.lines [p.describe, asked "-v", asked "--all-flags", "Produced on " ++ kit.date]

/-- `${MAPNIK_DIST}/${TARBALL_NAME}.bz2` -/
def tarball : List Char := sub v.mapnik_dist (p.tarballName ++ ".bz2")

/-- Where `s3cmd` is unpacked. -/
def s3cmdDir : List Char := sub v.packages "s3cmd-1.5.0-beta1"

/-- `s3cmd` comes into the packages, unless it is there. -/
def fetchS3cmd (next : Path → Step α) : Step α := fun s =>
  if isDir cwd (.quoted (s3cmdDir v)) s.tree then next cwd s
  else
    enter cwd (.split v.packages.toList) (fun dir => run
      [ redirect dir (fun _ => kit.fetched) "v1.5.0-beta1.tar.gz".toList,
        change (kit.unpack dir),
        next dir ]) s

/-- `~/.s3cfg` -/
def s3cfg : List Char := kit.home ++ "/.s3cfg".toList

/-- The keys are written where there are none; without them there is only a message. -/
def configure : Step α := fun s =>
  if s.tree.isFile (resolve cwd (s3cfg kit)) ∨ orWord kit.access_key "false" = "false" ∨
      orWord kit.secret_key "false" = "false" then .ok s
  else
    redirect cwd (fun _ => some (kit.lines ["[default]",
      "access_key = " ++ orWord kit.access_key "", "secret_key = " ++ orWord kit.secret_key ""]))
      (s3cfg kit) s

/-- `ensure_s3cmd`, and what follows in the directory it comes back to. -/
def ensureS3cmd (next : Path → Step α) : Step α :=
  run [ mkdirs cwd (.split (v.packages.toList ++ ['/'])),
    fetchS3cmd kit v cwd fun dir =>
      enter dir (.split (s3cmdDir v)) fun dir =>
        enter dir (.split (pwd cwd)) fun dir => run [configure kit dir, next dir] ]

/-- `s3cmd put`, which reads the tarball. -/
def put : Step α := fun s =>
  match s.tree.content (resolve cwd (tarball v p)) with
  | some a =>
    if kit.s3cmd "ls" ∧ kit.s3cmd "put" then
      .ok { s with uploads := s.uploads ++ [(p.upload, a)] }
    else .error s
  | none => .error s

/-- The upload. -/
def upload : Step α := fun s =>
  if orWord kit.publish "false" = "false" then .ok s
  else ensureS3cmd kit v cwd (put kit v p) s

/-- The tarball. -/
def finish : Step α :=
  run [ rm cwd (.split (p.tarballName.toList ++ ['*'])),
    redirect cwd (fun t => some (version kit v p cwd t)) (sub (localTarget v p) "VERSION"),
    redirect cwd (fun t => kit.tar t (resolve cwd (p.packageName.toList ++ ['/']))) (tarball v p) ]

/-- The package under its name. -/
def fill : Step α := fun s => do
  let s ← prepare kit v p cwd s
  let s ← copyLibs kit v p cwd s
  let s ← finish kit v p cwd s
  upload kit v p cwd s

/-- What the script does in the directory of all packages. -/
def described : Step α := fun s =>
  match ask kit cwd v.mapnik_config.toList "--git-describe" s.tree with
  | some describe => fill kit v { p with describe := describe } cwd s
  | none => .error s

/-- The script, from the directory `start`. -/
def package (start : Path) : Step α := fun s => do
  let s ← mkdirs start (.split v.mapnik_dist.toList) s
  described kit v p (resolve start v.mapnik_dist.toList) s

end Script

end Sdk

/-! ### The environment of a platform -/

/-- What a platform exports for the script. -/
def Platform.site (m : Machine) (P : Platform) : Sdk.Site where
  mapnik_dist := m.rootdir ++ "/out/dist"
  mapnik_config := (P.exported m).mapnik_bin_source ++ "/bin/mapnik-config"
  mapnik_bin_source := (P.exported m).mapnik_bin_source
  build := P.build m
  build_universal := (P.exported m).build_universal
  shared_zlib := "true"
  packages := m.rootdir ++ "/out/packages"

namespace Sdk

open Script

variable {m : Machine} {P : Platform} {s e : Env Var}

/-- What a pass of `settings.sh` says of `mapnik-config` and of zlib. -/
theorem settings_config {b : Branch} {dir : String}
    (h : (block (b.settings callerFirst)).run m s = .ok e)
    (source : e MAPNIK_BIN_SOURCE = some dir) :
    e MAPNIK_CONFIG = some (dir ++ "/bin/mapnik-config") ∧ e SHARED_ZLIB = some "true" := by
  have expand : Word.eval m e [MAPNIK_BIN_SOURCE, "/bin/mapnik-config"]
      = .ok (dir ++ "/bin/mapnik-config") := by
    simp [Word.eval_val source, Except.map]
  constructor
  · cases b with
    | xcode t => cases t <;> exact block_value_of_eval h rfl rfl (by decide) (by decide) expand
    | _ => exact block_value_of_eval h rfl rfl (by decide) (by decide) expand
  · cases b with
    | xcode t => cases t <;> exact block_literal h rfl rfl
    | _ => exact block_literal h rfl rfl

/-- **The paths the script runs with.** -/
theorem site_of_source (usable : P.usableOn m) (h : P.source m s = .ok e) :
    site e = some (P.site m) := by
  have derived := Platform.source_paths usable h
  have exported := exported_of_source usable h
  have build := build_of_source usable h
  obtain ⟨s₁, s₂, s₃, L⟩ := Platform.source_last_pass usable h
  have same : ∀ v, v ≠ MAKE → e v = s₃ v := L.final
  have source : s₃ MAPNIK_BIN_SOURCE = some (P.exported m).mapnik_bin_source := by
    rw [← same _ (by decide), derived.bin_source, Option.some.injEq, ← String.toList_inj]
    simp [Platform.exported, Platform.builddir, Platform.slice]
  obtain ⟨config, zlib⟩ := settings_config L.pass source
  have universal : s₃ BUILD_UNIVERSAL = some (P.exported m).build_universal := by
    rw [← same _ (by decide), derived.universal, Option.some.injEq, ← String.toList_inj]
    simp [Platform.exported, Platform.builddir]
  have dist : s₃ MAPNIK_DIST = some (m.rootdir ++ "/out/dist") := by
    rw [← same _ (by decide), derived.dist]
  have packages : s₃ PACKAGES = some (m.rootdir ++ "/out/packages") := by
    rw [← same _ (by decide), Platform.source_packages usable h]
  rw [same _ (by decide)] at build
  simp only [site, same _ (show MAPNIK_DIST ≠ MAKE by decide),
    same _ (show MAPNIK_CONFIG ≠ MAKE by decide), same _ (show MAPNIK_BIN_SOURCE ≠ MAKE by decide),
    same _ (show BUILD ≠ MAKE by decide), same _ (show BUILD_UNIVERSAL ≠ MAKE by decide),
    same _ (show SHARED_ZLIB ≠ MAKE by decide), same _ (show PACKAGES ≠ MAKE by decide), config,
    zlib, source, universal, dist, build, packages]
  rfl

end Sdk

end MapnikPackaging
