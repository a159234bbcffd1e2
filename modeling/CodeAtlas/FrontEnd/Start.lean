import CodeAtlas.Session

/-!
# Starting the front end

The front end is a library that must be found before it can be started. Each step reports what it
does; a front end that cannot be started leaves an analyser that can do little.
-/

namespace CodeAtlas.FrontEnd

open Run

def ownInstallation : String := "E:\\Program Files\\LLVM"

def librariesIn (dirs : List String) (library pattern : String) : Run (List String) := do
  let parts ← dirs.mapM fun dir => do
    return Path.join dir library :: (← glob (Path.join dir pattern))
  return parts.flatten

def libraryPlaces : Run (List String) := do
  let m ← machine
  let windows := m.platform == "Windows"
  let ending := if windows then ".dll" else ".so"
  let own ←
    if ← pathExists ownInstallation then
      librariesIn [Path.join ownInstallation "bin", Path.join ownInstallation "lib"]
        ("libclang" ++ ending) ("libclang*" ++ ending)
    else pure []
  let setting := fun name default => (m.environment.get? name).getD default
  let usual ←
    if windows then
      librariesIn ([setting "ProgramFiles" "C:\\Program Files",
        setting "ProgramFiles(x86)" "C:\\Program Files (x86)"].map (Path.joinAll · ["LLVM", "bin"]))
        "libclang.dll" "libclang*.dll"
    else
      librariesIn ["/usr/lib", "/usr/local/lib", "/usr/lib/llvm/lib"] "libclang.so" "libclang-*.so"
  return own ++ usual

/-- Uses the first library that exists and can be used; says whether there is one. -/
def useFirst : List String → Run Bool
  | [] => return false
  | path :: rest => do
    if !(← pathExists path) then useFirst rest
    else
      match ← attempt (useLibrary path) with
      | .ok _ =>
        say ("Configured libclang to use " ++ path)
        return true
      | .error e =>
        say ("Could not use " ++ path ++ ": " ++ e.message)
        useFirst rest

/-- Finds a library for the front end; as a last resort its bare name is tried. -/
def configure : Run Bool := do
  if ← useFirst (← libraryPlaces) then return true
  else
    let name := if (← machine).platform == "Windows" then "libclang.dll" else "libclang.so"
    match ← attempt (useLibrary name) with
    | .ok _ =>
      say ("Configured libclang to use " ++ name ++ " from PATH")
      return true
    | .error e =>
      say ("Warning: Could not find libclang: " ++ e.message)
      say "Some functionality may be limited."
      return false

structure State where
  started : Bool
  checksCompatibility : Bool := true
deriving Repr, DecidableEq

/-- Starts a front end whose parts do not fit together without checking them. -/
def startUnchecked : Run State := do
  say "WARNING: Detected libclang compatibility issue with clang_getOffsetOfBase"
  say "Attempting to use compatibility mode..."
  match ← attempt startFrontEnd with
  | .ok _ =>
    say "Successfully created Index with compatibility mode"
    return { started := true, checksCompatibility := false }
  | .error e =>
    say ("ERROR: Could not create Index even in compatibility mode: " ++ e.message)
    say "Limited functionality will be available"
    return { started := false, checksCompatibility := false }

def startConfigured : Run State := do
  match ← attempt startFrontEnd with
  | .ok _ => return { started := true }
  | .error e =>
    if Text.occursIn "clang_getOffsetOfBase" e.message then startUnchecked
    else
      say ("WARNING: Could not create Index: " ++ e.message)
      say "Limited functionality will be available"
      return { started := false }

def sayVersion (s : State) : Run Unit := do
  let m ← machine
  if !s.started then
    say "WARNING: Clang index is not available. Cannot check libclang version."
  else if !m.tellsVersion then say "Unable to determine libclang version"
  else
    match m.version with
    | none | some "" => pure ()
    | some v => say ("Using libclang version: " ++ v)
    say "This version of libclang does NOT support CXX_MEMBER_CALL_EXPR"
    say "Some C++ feature detection may be limited"

def start (library : Option String) : Run State := do
  match library with
  | none | some "" =>
    if (← machine).hasConfiguration then
      discard configure
      say "Configured libclang from config file"
    else say "No libclang configuration found, using default"
  | some path => useLibrary path
  let s ← startConfigured
  sayVersion s
  return s

end CodeAtlas.FrontEnd
