/-
The vocabulary of the platform scripts: the variables they read and write, and the
machine they are sourced on.

`Var` lists the variables of `osx/settings.sh` and of the platform scripts under their
shell names, the inputs they expect from the caller, the working variables of the
build scripts that re-source them, and the current directory, kept beside the
variables because `cd` moves it. `Machine` fixes what the scripts ask of the outside:
`uname`, the processor count, the Xcode tools, the directory and file tests, and where
the checkout lies.
-/

import Mathlib.Data.List.Infix
import MapnikPackaging.Shell.Script

namespace MapnikPackaging

open Shell

/-- Variables under their shell names; `cwd` is the current directory. -/
inductive Var where
  | cwd | PATH
  -- expected from the caller
  | LTO | MP_CROSS | SYSROOT | ANDROID_NDK_PATH | TRAVIS_COMMIT
  -- platform scripts
  | MP_PLATFORM | HOST_PLATFORM | BOOST_ARCH | ARCH_NAME | HOST_ARG | MAKE
  | XCODE_PLATFORM | ACTIVE_SDK_VERSION | MIN_SDK_VERSION_FLAG
  | MP_ANDROID_NDK_VERSION | MP_ANDROID_ARCH | MP_API_LEVEL | MP_ANDROID_TARGET
  | MP_ANDROID_CROSS_COMPILER
  -- settings.sh, head
  | OFFICIAL_RELEASE | USE_BOOST_TRUNK | SHARED_ZLIB | ROOTDIR | UNAME | platform_lowercase
  | DARWIN_VERSION | LIBCXX_DEFAULT | SEMVER_PATTERN | DARWIN_MAJOR | USE_LTO
  | ax_cv_c_float_words_bigendian | BOOST_TOOLSET | CXX_STANDARD | JOBS
  | ICU_CORE_CPP_FLAGS | ICU_EXTRA_CPP_FLAGS | OPTIMIZATION | S3_BASE | MAPNIK_DIST | PACKAGES
  | PATCHES | STAGING | MAPNIK_INSTALL | MAPNIK_PACKAGE_PREFIX | SYSTEM_CURL
  -- settings.sh, platform branches
  | CC | CXX | CORE_CC | CORE_CXX | LD | AR | RANLIB | NM
  | EXTRA_CFLAGS | EXTRA_CPPFLAGS | EXTRA_CXXFLAGS | EXTRA_LDFLAGS | ARCH_FLAGS
  | CXX_VISIBILITY_FLAGS | STDLIB | STDLIB_CXXFLAGS | STDLIB_LDFLAGS | SDK_PATH | ZLIB_PATH
  | ldconfig | PLATFORM_PREFIX | NDK_PACKAGE_DIR
  | XCODE_CMD | XCODE_PREFIX | TOOLCHAIN_ROOT | SDK_ROOT | PLATFORM_SDK
  -- settings.sh, derived paths and flags
  | MAPNIK_SOURCE | BUILDDIR | BUILD_UNIVERSAL | BUILD_ROOT | BUILD_TOOLS_ROOT | BUILD
  | MAPNIK_DESTDIR | MAPNIK_BIN_SOURCE | MAPNIK_CONFIG | PKG_CONFIG_PATH | ARCHFLAGS
  | CORE_CPPFLAGS | DEBUG_FLAGS | CORE_CFLAGS | CORE_CXXFLAGS | CORE_LDFLAGS
  | C_INCLUDE_PATH | CPLUS_INCLUDE_PATH | LIBRARY_PATH | SHARED_LIBRARY_PATH
  | CPPFLAGS | WARNING_CFLAGS | CFLAGS | CXXFLAGS | LDFLAGS | LINK_FLAGS
  -- settings.sh, versions
  | PREMADE_ICU_DATA_LIBRARY | ICU_VERSION | ICU_VERSION2 | BOOST_VERSION | BOOST_VERSION2
  | SQLITE_VERSION | FREETYPE_VERSION | PROJ_VERSION | PROJ_GRIDS_VERSION | LIBPNG_VERSION
  | LIBTIFF_VERSION | WEBP_VERSION | LIBGEOTIFF_VERSION | JPEG_VERSION | NASM_VERSION
  | JPEG_TURBO_VERSION | EXPAT_VERSION | GDAL_VERSION | GETTEXT_VERSION | POSTGRES_VERSION
  | ZLIB_VERSION | LIBXML2_VERSION | BZIP2_VERSION | PKG_CONFIG_VERSION | FONTCONFIG_VERSION
  | PIXMAN_VERSION | CAIRO_VERSION | PY2CAIRO_VERSION | PY3CAIRO_VERSION | GEOS_VERSION
  | PROTOBUF_VERSION | PROTOBUF_C_VERSION | XZ_VERSION | NOSE_VERSION | SPARSEHASH_VERSION
  | HARFBUZZ_VERSION | STXXL_VERSION | LUABIND_VERSION | LUA_VERSION | LIBLAS_VERSION
  | CURL_VERSION | OPENSSL_VERSION | LIBUV_VERSION | NODE_VERSION
  -- working variables of the build scripts
  | OLD_PLATFORM | CURRENT_DIR | CUR_DIR | CROSS_FLAGS | NATIVE_BUILD_DIR | NATIVE_PROTOC
deriving DecidableEq, Repr

/-- What the scripts ask of the machine they run on. -/
structure Machine where
  /-- `uname -s` -/
  uname_s : String
  /-- `uname -r` -/
  uname_r : String
  /-- `nproc` -/
  nproc : String
  /-- `sysctl -n hw.ncpu` -/
  ncpu : String
  /-- the directory `settings.sh` lies in -/
  rootdir : String
  /-- `xcrun --sdk S --show-sdk-version` -/
  xcrun : String → String
  /-- `xcode-select -print-path` -/
  xcode_select : String
  /-- `[[ -d D ]]` -/
  isDir : String → Bool
  /-- `[[ -f F ]]` -/
  isFile : String → Bool
  /-- `dirname $(realpath F)` -/
  realDirname : String → String

/-- `sub` occurs in `full` as a literal substring: what `[[ full =~ "sub" ]]` and
`"${full#*'sub'}" != "$full"` decide. -/
def occursIn (sub full : String) : Bool := decide (sub.toList <:+: full.toList)

/-- `sed "y/ABC…/abc…/"` on the platform name. -/
def toLowercase (s : String) : String :=
  String.ofList (s.toList.map fun c => if 'A' ≤ c ∧ c ≤ 'Z' then Char.ofNat (c.toNat + 32) else c)

/-- `nprocs`: the processor count by kernel name. -/
def Machine.nprocs (m : Machine) : String :=
  if m.uname_s = "Linux" then m.nproc
  else if m.uname_s = "Darwin" then m.ncpu
  else "1"

/-- `sed -e "s#$SEMVER_PATTERN#\1#"`: the first number of the leftmost dotted triple,
together with whatever follows the version; other text is left as it is. -/
def darwinMajor (version : String) : String :=
  let digits := fun cs : List Char => cs.span Char.isDigit
  let (major, r₁) := digits (version.toList.dropWhile (! ·.isDigit))
  match r₁ with
  | '.' :: r₂ =>
    match (digits r₂).2 with
    | '.' :: r₃ =>
      let r₄ := (digits r₃).2.dropWhile fun c => c.isAlphanum || c == '-'
      String.ofList (major ++ r₄)
    | _ => version
  | _ => version

/-- `[[ "clang" =~ ${CORE_CXX} ]]` for a pattern whose only operators are `+` signs at
its end: `g+` matches wherever `g` does. -/
def clangMatches (pattern : String) : Bool :=
  decide ((pattern.toList.reverse.dropWhile (· == '+')).reverse <:+: "clang".toList)

/-- Words, tests and scripts over these variables. -/
abbrev Text := Word Machine Var

abbrev Cond := Test Machine Var

abbrev Cmd := Script Machine Var

/-- `$(pwd)`. -/
abbrev here : Seg Machine Var := .dflt .cwd ""

/-- `${PATH}`: a shell always starts with a search path, so `set -u` never trips on it. -/
abbrev searchPath : Seg Machine Var := .dflt .PATH ""

/-- `[[ -d w ]]`. -/
def dirTest (w : Text) : Cond := .holds (fun m ds => ds.all m.isDir) [w]

/-- `[[ -f w ]]`. -/
def fileTest (w : Text) : Cond := .holds (fun m fs => fs.all m.isFile) [w]

/-- `[[ ${X:-false} == false ]]`: unset, empty or literally `false`. -/
def isOff (x : Var) : Cond := .is [.dflt x "false"] "false"

/-- `"${X#*'clang'}" != "$X"`. -/
def namesClang (x : Var) : Cond := .holds (fun _ cs => cs.all (occursIn "clang")) [[x]]

/-- `[[ $(pwd) =~ "/usr/" ]]`. -/
def underUsr : Cond := .holds (fun _ ds => ds.all (occursIn "/usr/")) [[here]]

end MapnikPackaging
