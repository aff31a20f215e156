import MapnikPackaging.Shell.Script
import MapnikPackaging.Shell.Runs
import MapnikPackaging.Shell.Words
import MapnikPackaging.Shell.Glob
import MapnikPackaging.Shell.Extended
import MapnikPackaging.Sed.Unescaped
import MapnikPackaging.Python.Numbers
import MapnikPackaging.Python.Classes
import MapnikPackaging.Settings.Values
import MapnikPackaging.Sourcing.Independence
import MapnikPackaging.Sourcing.HostSwitch
import MapnikPackaging.Cache.BuildTools
import MapnikPackaging.Cache.NativeHelpers
import MapnikPackaging.Cache.Download
import MapnikPackaging.Build.Targets
import MapnikPackaging.Build.Contains
import MapnikPackaging.Universal.Rewrite
import MapnikPackaging.Universal.Slices
import MapnikPackaging.Universal.Contents
import MapnikPackaging.Sdk.DepLibs
import MapnikPackaging.Sdk.Config
import MapnikPackaging.Sdk.Names
import MapnikPackaging.Bindings.Version
import MapnikPackaging.Bindings.Symbols
import MapnikPackaging.Engine.Order
import MapnikPackaging.Engine.Glob
import MapnikPackaging.Engine.Ends
import MapnikPackaging.Engine.Tally
import MapnikPackaging.Files.Copies
import MapnikPackaging.Sdk.Upload
import MapnikPackaging.Sdk.Libs
import MapnikPackaging.Sdk.Fresh
