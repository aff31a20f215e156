/-
`osx/settings.sh`, command by command.

The file is a prologue, one `if`/`elif` over the platform, and the flags derived from
what the platform branch set. It is written here in the order of the source, one line a
command; function definitions, which change no variable, are left out, and so are the
effects of external commands other than the value of their output.
-/

import MapnikPackaging.Settings.Machine

namespace MapnikPackaging

open Shell Script Var

/-! ### Before the platform branch -/

/-- The directory check at the top of the file. -/
def refuseUsr : Cmd :=
  .when underUsr (.exit "mapnik-packaging must not be use within /usr - please clone elsewhere")

/-- `LIBCXX_DEFAULT` on Mavericks. -/
def libcxxDefault : Cmd :=
  .when (.is [UNAME] "Darwin") (block [
    .assign SEMVER_PATTERN
      ["[^0-9]*\\([0-9]*\\)[.]\\([0-9]*\\)[.]\\([0-9]*\\)\\([0-9A-Za-z-]*\\)"],
    .assign DARWIN_MAJOR [.out (fun _ => darwinMajor) DARWIN_VERSION],
    .when (.is [DARWIN_MAJOR] "13") (.export LIBCXX_DEFAULT ["true"])])

def useLto : Cmd :=
  .ite (.flag LTO)
    (block [
      .assign USE_LTO ["true"],
      .export ax_cv_c_float_words_bigendian ["no"]])
    (.assign USE_LTO ["false"])

/-- `if [[ "${CXX:-false}" == false ]]; then export CXX=; fi`. -/
def clearCxx : Cmd := .when (isOff CXX) (.export CXX [])

/-- Everything between the directory check and the platform branch but `clearCxx`. -/
def settingsHead : List Cmd := [
  .export OFFICIAL_RELEASE ["false"],
  .export USE_BOOST_TRUNK ["false"],
  .export SHARED_ZLIB ["true"],
  .export ROOTDIR [.ask Machine.rootdir],
  .export UNAME [.ask Machine.uname_s],
  .export PATH ["/usr/bin:/bin:/usr/sbin:/sbin:", searchPath],
  .export platform_lowercase [.out (fun _ => toLowercase) MP_PLATFORM],
  .export DARWIN_VERSION [.ask Machine.uname_r],
  .export LIBCXX_DEFAULT ["false"],
  libcxxDefault,
  useLto,
  .export BOOST_TOOLSET ["gcc"],
  .when (.is [UNAME] "Darwin") (.export BOOST_TOOLSET ["clang"]),
  .export CXX_STANDARD ["cpp11"],
  .export JOBS [.ask Machine.nprocs],
  .export ICU_CORE_CPP_FLAGS ["-DU_CHARSET_IS_UTF8=1"],
  .export ICU_EXTRA_CPP_FLAGS [ICU_CORE_CPP_FLAGS, " -DUCONFIG_NO_COLLATION=1"],
  .export OPTIMIZATION ["3"],
  .export S3_BASE ["http://mapnik.s3.amazonaws.com/deps"],
  .export MAPNIK_DIST [ROOTDIR, "/out/dist"],
  .export PACKAGES [ROOTDIR, "/out/packages"],
  .export PATCHES [ROOTDIR, "/patches"],
  .export STAGING [ROOTDIR, "/out/staging"],
  .export MAPNIK_INSTALL ["/usr/local"],
  .export MAPNIK_PACKAGE_PREFIX ["mapnik"],
  .export SYSTEM_CURL ["/usr/bin/curl"]]

/-! ### The platform branches -/

def linuxBranch : List Cmd := [
  .export EXTRA_CFLAGS ["-fPIC"],
  .export EXTRA_CPPFLAGS [""],
  .export EXTRA_CXXFLAGS [EXTRA_CFLAGS],
  .export EXTRA_LDFLAGS [""],
  .command ["using clang"],
  .export CORE_CC ["clang"],
  .export CORE_CXX ["clang++"],
  .ite (.is [USE_LTO] "true")
    (block [
      .command ["ar \"$@\" --plugin /usr/lib/LLVMgold.so"],
      .export AR [here, "/ar-lto"],
      .export RANLIB ["/bin/true"]])
    (block [
      .export AR ["ar"],
      .export RANLIB ["ranlib"]]),
  .export ARCH_FLAGS [],
  .export CXX_VISIBILITY_FLAGS ["-fvisibility-inlines-hidden -fvisibility=hidden -fno-common"],
  .export STDLIB ["libstdcpp"],
  .export STDLIB_CXXFLAGS ["-std=c++11"],
  .export STDLIB_LDFLAGS [""]]

/-- The sysroot is unpacked under `PACKAGES`; the branch ends in `ROOTDIR`. -/
def linaroBranch : List Cmd := [
  .export ICU_EXTRA_CPP_FLAGS [ICU_EXTRA_CPP_FLAGS, " -DU_HAVE_NL_LANGINFO_CODESET=0"],
  .export SDK_PATH [PACKAGES, "/linaro-prebuilt-sysroot-2013.07-2"],
  .when (dirTest [PACKAGES]) (.assign cwd [PACKAGES]),
  .command ["download linaro-prebuilt-sysroot-2013.07-2.tar.bz2"],
  .when (.not (dirTest [SDK_PATH])) (block [
    .command ["untarring ", SDK_PATH],
    .command ["tar -xf linaro-prebuilt-sysroot-2013.07-2.tar.bz2"]]),
  .assign cwd [ROOTDIR],
  .export EXTRA_CFLAGS ["-fPIC --sysroot ", SDK_PATH],
  .export EXTRA_LDFLAGS ["--sysroot ", SDK_PATH, " -Wl,-search_paths_first"],
  .export EXTRA_CPPFLAGS ["--sysroot ", SDK_PATH],
  .export EXTRA_CXXFLAGS [EXTRA_CFLAGS],
  .export PATH [SDK_PATH, "/bin:", searchPath],
  .export CORE_CXX ["arm-linux-gnueabihf-g++"],
  .export CORE_CC ["arm-linux-gnueabihf-gcc"],
  .export LD ["arm-linux-gnueabihf-ld"],
  .export AR ["arm-linux-gnueabihf-ar"],
  .export ARCH_FLAGS [],
  .export RANLIB ["arm-linux-gnueabihf-ranlib"],
  .export NM ["arm-linux-gnueabihf-nm"],
  .export STDLIB ["libstdcpp"],
  .export STDLIB_CXXFLAGS [""],
  .export STDLIB_LDFLAGS [""]]

def linaroSoftfpBranch : List Cmd := [
  .export ICU_EXTRA_CPP_FLAGS [ICU_EXTRA_CPP_FLAGS, " -DU_HAVE_NL_LANGINFO_CODESET=0"],
  .assign cwd [ROOTDIR],
  .export EXTRA_CFLAGS ["-fPIC --sysroot ", SYSROOT],
  .export EXTRA_LDFLAGS ["-Wl,-search_paths_first"],
  .export EXTRA_CXXFLAGS [EXTRA_CFLAGS],
  .export EXTRA_CPPFLAGS ["--sysroot ", SYSROOT],
  .export PATH [SDK_PATH, "/bin:", searchPath],
  .export CORE_CXX ["arm-linux-gnueabi-g++"],
  .export CORE_CC ["arm-linux-gnueabi-gcc"],
  .export LD ["arm-linux-gnueabi-ld"],
  .export AR ["arm-linux-gnueabi-ar"],
  .export ARCH_FLAGS [],
  .export RANLIB ["arm-linux-gnueabi-ranlib"],
  .export NM ["arm-linux-gnueabi-nm"],
  .export STDLIB ["libstdcpp"],
  .export STDLIB_CXXFLAGS [""],
  .export STDLIB_LDFLAGS [""],
  .export CXX_VISIBILITY_FLAGS [""],
  .export STDLIB ["libstdcpp"],
  .export STDLIB_CXXFLAGS ["-std=c++11"],
  .export STDLIB_LDFLAGS [""],
  .export ZLIB_PATH [SYSROOT, "/usr"]]

/-- The check that the NDK is there. -/
def requireNdk : Cmd :=
  .when (.not (dirTest [ANDROID_NDK_PATH])) (.exit "ANDROID_NDK_PATH is not defined")

def androidToolchain : List Cmd := [
  .export PLATFORM_PREFIX [ANDROID_NDK_PATH, "/active-platform/"],
  .export NDK_PACKAGE_DIR [ANDROID_NDK_PATH, "/package-dir/"],
  .ite (.not (dirTest [PLATFORM_PREFIX]))
    (block [
      .command ["creating android toolchain with ", MP_ANDROID_CROSS_COMPILER, "/", MP_API_LEVEL,
        " at ", PLATFORM_PREFIX],
      .command [ANDROID_NDK_PATH, "/build/tools/make-standalone-toolchain.sh --toolchain=",
        MP_ANDROID_CROSS_COMPILER, " --llvm-version=3.4 --package-dir=", NDK_PACKAGE_DIR,
        " --install-dir=", PLATFORM_PREFIX, " --stl=libcxx --arch=", MP_ANDROID_ARCH,
        " --platform=", MP_API_LEVEL, " --verbose"]])
    (.command ["using ", MP_ANDROID_CROSS_COMPILER, "/", MP_API_LEVEL, " at ", PLATFORM_PREFIX]),
  .export ICU_EXTRA_CPP_FLAGS [ICU_EXTRA_CPP_FLAGS, " -DU_HAVE_NL_LANGINFO_CODESET=0"],
  .command ["alias ldd=", MP_ANDROID_TARGET, "-linux-androideabi-readelf -d "],
  .export EXTRA_CFLAGS ["-march=armv7-a -mfloat-abi=hard -mhard-float -D_NDK_MATH_NO_SOFTFP=1 -fPIC -D_LITTLE_ENDIAN"],
  .export EXTRA_CXXFLAGS [EXTRA_CFLAGS],
  .export EXTRA_CPPFLAGS ["-D__ANDROID__"],
  .export EXTRA_LDFLAGS ["-Wl,--fix-cortex-a8 -Wl,--no-warn-mismatch -lm_hard"],
  .export SDK_PATH [],
  .export PATH [PLATFORM_PREFIX, "/bin:", searchPath],
  .export CORE_CXX [MP_ANDROID_TARGET, "-linux-androideabi-clang++"],
  .export CORE_CC [MP_ANDROID_TARGET, "-linux-androideabi-clang"],
  .ite (.holds (fun _ ps => ps.all clangMatches) [[CORE_CXX]])
    (.export BOOST_TOOLSET ["clang"])
    (.export BOOST_TOOLSET ["gcc"]),
  .export LD [MP_ANDROID_TARGET, "-linux-androideabi-ld"],
  .export AR [MP_ANDROID_TARGET, "-linux-androideabi-ar"],
  .export ARCH_FLAGS [],
  .export RANLIB [MP_ANDROID_TARGET, "-linux-androideabi-ranlib"],
  .export NM [MP_ANDROID_TARGET, "-linux-androideabi-nm"],
  .export STDLIB ["libcpp"],
  .export STDLIB_CXXFLAGS [""],
  .export STDLIB_LDFLAGS [""]]

/-- `export alias ldconfig=true` gives `ldconfig` a value and `alias` none. -/
def androidBranch : List Cmd :=
  .export CXX_VISIBILITY_FLAGS [""] :: .export ldconfig ["true"] :: requireNdk :: androidToolchain

/-- The flags from an Xcode with a `Toolchains` directory, or from one without. -/
def toolchainBranch : Bool → List Cmd
  | true => [
    .export TOOLCHAIN_ROOT [XCODE_PREFIX, "/Toolchains/XcodeDefault.xctoolchain/usr/bin"],
    .export CORE_CC ["/usr/bin/clang"],
    .export CORE_CXX ["/usr/bin/clang++"],
    .export SDK_ROOT [XCODE_PREFIX, "/Platforms/", XCODE_PLATFORM, ".platform/Developer"],
    .export PLATFORM_SDK [XCODE_PLATFORM, ACTIVE_SDK_VERSION, ".sdk"],
    .export SDK_PATH [SDK_ROOT, "/SDKs/", PLATFORM_SDK],
    .export EXTRA_CFLAGS [MIN_SDK_VERSION_FLAG, " -isysroot ", SDK_PATH],
    .export EXTRA_LDFLAGS [MIN_SDK_VERSION_FLAG, " -isysroot ", SDK_PATH, " -L", SDK_PATH,
      "/usr/lib -Wl,-search_paths_first"]]
  | false => [
    .export TOOLCHAIN_ROOT [XCODE_PREFIX, "/usr/bin"],
    .export SDK_PATH [XCODE_PREFIX, "/usr/"],
    .export CORE_CC ["/usr/bin/clang"],
    .export CORE_CXX ["/usr/bin/clang++"],
    .export EXTRA_CFLAGS [""],
    .export EXTRA_LDFLAGS ["-Wl,-search_paths_first"]]

def xcodeSelect : List Cmd := [
  .assign XCODE_CMD ["xcode-select"],
  .export XCODE_PREFIX [.ask Machine.xcode_select]]

def xcodeToolchain : Cmd :=
  .ite (dirTest [XCODE_PREFIX, "/Toolchains/"])
    (block (toolchainBranch true)) (block (toolchainBranch false))

def darwinFlags : List Cmd := [
  .export ARCH_FLAGS ["-arch ", ARCH_NAME],
  .export PATH [TOOLCHAIN_ROOT, ":", searchPath],
  .export EXTRA_CPPFLAGS [""],
  .export EXTRA_CXXFLAGS [EXTRA_CFLAGS],
  .unset LD,
  .unset AR,
  .unset RANLIB,
  .export CXX_VISIBILITY_FLAGS ["-fvisibility-inlines-hidden -fvisibility=hidden -fno-common"],
  .export STDLIB ["libcpp"],
  .export STDLIB_CXXFLAGS ["-std=c++11 -stdlib=libc++"],
  .export STDLIB_LDFLAGS ["-stdlib=libc++"]]

def darwinBranch : List Cmd :=
  xcodeSelect ++ xcodeToolchain :: darwinFlags

def unhandledBranch : List Cmd := [
  .command ["**unhandled platform: ${MP_PLATFORM}**"]]

/-- The `if`/`elif` over `MP_PLATFORM` and, for the Apple platforms, `UNAME`. -/
def platformBranch : Cmd :=
  .ite (.is [MP_PLATFORM] "Linux") (block linuxBranch)
  (.ite (.is [MP_PLATFORM] "Linaro") (block (linaroBranch))
  (.ite (.is [MP_PLATFORM] "Linaro-softfp") (block linaroSoftfpBranch)
  (.ite (.is [MP_PLATFORM] "Android") (block (androidBranch))
  (.ite (.is [UNAME] "Darwin") (block (darwinBranch))
  (block unhandledBranch)))))

/-! ### After the platform branch -/

def settingsPaths : List Cmd := [
  .export MAPNIK_SOURCE [ROOTDIR, "/mapnik-", CXX_STANDARD, "-", STDLIB],
  .export BUILDDIR ["build-", CXX_STANDARD, "-", STDLIB],
  .export BUILD_UNIVERSAL [ROOTDIR, "/out/", BUILDDIR, "-universal"],
  .export BUILD_ROOT [ROOTDIR, "/out/", BUILDDIR],
  .export BUILD_TOOLS_ROOT [ROOTDIR, "/out/build-tools"],
  .export BUILD [BUILD_ROOT, "-", ARCH_NAME, "-", platform_lowercase],
  .export MAPNIK_DESTDIR [BUILD, "-mapnik"],
  .export MAPNIK_BIN_SOURCE [MAPNIK_DESTDIR, MAPNIK_INSTALL],
  .export MAPNIK_CONFIG [MAPNIK_BIN_SOURCE, "/bin/mapnik-config"],
  .export ZLIB_PATH [BUILD]]

/-- The platform's own zlib, when it is shared. -/
def sharedZlib : Cmd :=
  .ite (.is [MP_PLATFORM] "Linux") (.export ZLIB_PATH ["/usr"])
  (.ite (.is [MP_PLATFORM] "Linaro") (.export ZLIB_PATH ["/usr"])
  (.ite (.is [MP_PLATFORM] "Linaro-softfp") (.export ZLIB_PATH ["/usr"])
  (.ite (.is [MP_PLATFORM] "Android") (.export ZLIB_PATH [PLATFORM_PREFIX])
  (.when (.not (.is [SDK_PATH] "")) (.export ZLIB_PATH [SDK_PATH, "/usr"])))))

def zlibPath : Cmd := .when (.is [SHARED_ZLIB] "true") sharedZlib

def settingsCore : List Cmd := [
  .export PKG_CONFIG_PATH [BUILD, "/lib/pkgconfig"],
  .export PATH [BUILD, "/bin:", searchPath],
  .export ARCHFLAGS [ARCH_FLAGS],
  .export CORE_CPPFLAGS [""],
  .export DEBUG_FLAGS ["-DNDEBUG"],
  .export CORE_CFLAGS [DEBUG_FLAGS, " -O", OPTIMIZATION, " ", ARCH_FLAGS, " -D_FILE_OFFSET_BITS=64"],
  .export CORE_CXXFLAGS [CXX_VISIBILITY_FLAGS, " ", CORE_CFLAGS],
  .export CORE_LDFLAGS ["-O", OPTIMIZATION, " ", ARCH_FLAGS]]

/-- `CC` or `CXX` is taken from the platform unless the caller brought one and did not
ask for a cross compiler. -/
def selectCompiler (x core : Var) (fallback : String) : Cmd :=
  .when (.or (isOff x) (.flag MP_CROSS))
    (.ite (.flag core) (.export x [core]) (.export x [fallback]))

/-- Help boost's bootstrap find a clang binary given by its path. -/
def clangOnPath : Cmd :=
  .when (.and (.is [MP_PLATFORM] "Linux") (namesClang CXX))
    (.when (fileTest [CXX]) (.export PATH [.out Machine.realDirname CXX, ":", searchPath]))

/-- `CFLAGS`, `CXXFLAGS` and `LDFLAGS` under `USE_LTO`. -/
def ltoFlags : Cmd :=
  .when (.is [USE_LTO] "true") (block [
    .export CFLAGS ["-flto ", CFLAGS],
    .export CXXFLAGS ["-flto ", CXXFLAGS],
    .export LDFLAGS ["-flto ", LDFLAGS]])

def settingsFlags : List Cmd := [
  .command ["using ", CXX, " version : "],
  clangOnPath,
  .export C_INCLUDE_PATH [BUILD, "/include"],
  .export CPLUS_INCLUDE_PATH [BUILD, "/include"],
  .export LIBRARY_PATH [BUILD, "/lib"],
  .export SHARED_LIBRARY_PATH [LIBRARY_PATH],
  .export CPPFLAGS [CORE_CPPFLAGS, " ", EXTRA_CPPFLAGS],
  .export WARNING_CFLAGS ["-Wno-unknown-warning-option -Wno-long-long -Wno-unused-parameter -Wno-unused-but-set-variable -Wno-strict-prototypes -Wno-unused-variable -Wno-redundant-decls -Wno-return-type -Wno-uninitialized -Wno-unused-result -Wno-format"],
  .when (namesClang CC)
    (.export WARNING_CFLAGS ["-Wno-invalid-source-encoding -Wno-cast-align -Wno-extended-offsetof ",
      WARNING_CFLAGS]),
  .export CFLAGS ["-I", BUILD, "/include ", CORE_CFLAGS, " ", EXTRA_CFLAGS, " ", WARNING_CFLAGS],
  .export CXXFLAGS [STDLIB_CXXFLAGS, " -I", BUILD, "/include ", CORE_CXXFLAGS, " ", EXTRA_CXXFLAGS],
  .export LDFLAGS ["-L", BUILD, "/lib ", CORE_LDFLAGS, " ", EXTRA_LDFLAGS],
  ltoFlags,
  .export LINK_FLAGS [LDFLAGS]]

/-- Versions of the packaged libraries. -/
def settingsVersions : List Cmd := [
  .export PREMADE_ICU_DATA_LIBRARY [ROOTDIR, "/icudt56l_only_collator_and_breakiterator.dat"],
  .export ICU_VERSION ["56.1"],
  .export ICU_VERSION2 ["56_1"],
  .export BOOST_VERSION ["1.61.0"],
  .export BOOST_VERSION2 ["1_61_0"],
  .export SQLITE_VERSION ["3140100"],
  .export FREETYPE_VERSION ["2.6.5"],
  .export PROJ_VERSION ["4.9.2"],
  .export PROJ_GRIDS_VERSION ["1.5"],
  .export LIBPNG_VERSION ["1.6.24"],
  .export LIBTIFF_VERSION ["4.0.6"],
  .export WEBP_VERSION ["0.5.1"],
  .export LIBGEOTIFF_VERSION ["1.4.1"],
  .export JPEG_VERSION ["8d"],
  .export NASM_VERSION ["2.11.06"],
  .export JPEG_TURBO_VERSION ["1.5.0"],
  .export EXPAT_VERSION ["2.2.0"],
  .export GDAL_VERSION ["2.1.1"],
  .export GETTEXT_VERSION ["0.18.1.1"],
  .export POSTGRES_VERSION ["9.4.5"],
  .export ZLIB_VERSION ["1.2.8"],
  .export LIBXML2_VERSION ["2.9.3"],
  .export BZIP2_VERSION ["1.0.6"],
  .export PKG_CONFIG_VERSION ["0.25"],
  .export FONTCONFIG_VERSION ["2.11.1"],
  .export PIXMAN_VERSION ["0.34.0"],
  .export CAIRO_VERSION ["1.14.6"],
  .export PY2CAIRO_VERSION ["1.10.0"],
  .export PY3CAIRO_VERSION ["1.10.0"],
  .export GEOS_VERSION ["3.4.2"],
  .export PROTOBUF_VERSION ["2.6.1"],
  .export PROTOBUF_C_VERSION ["0.15"],
  .export XZ_VERSION ["5.0.5"],
  .export NOSE_VERSION ["1.2.1"],
  .export SPARSEHASH_VERSION ["2.0.3"],
  .export HARFBUZZ_VERSION ["1.3.0"],
  .export STXXL_VERSION ["1.4.0"],
  .export LUABIND_VERSION ["0.9.1"],
  .export LUA_VERSION ["5.1.5"],
  .export LIBLAS_VERSION ["1.7.0"],
  .export CURL_VERSION ["7.36.0"],
  .export OPENSSL_VERSION ["1.0.1j"],
  .export LIBUV_VERSION ["0.11.29"],
  .export NODE_VERSION ["0.10.33"],
  .command ["building against ", STDLIB, " in ", CXX_STANDARD, " mode with ", CXX]]

/-- `settings.sh`. -/
def settingsCommands : List Cmd :=
  refuseUsr :: settingsHead ++ clearCxx :: platformBranch :: settingsPaths ++ zlibPath :: settingsCore
    ++ selectCompiler CXX CORE_CXX "c++" :: selectCompiler CC CORE_CC "cc" :: settingsFlags
    ++ settingsVersions

end MapnikPackaging
