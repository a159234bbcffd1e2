import CodeAtlas.FrontEnd.Start
import CodeAtlas.Text.Lowercase

/-!
# The setup program

Finds the library of the front end on a machine, installs it, writes a configuration for it and
checks that it works.
-/

namespace CodeAtlas.FrontEnd

open Run Text CommandLine

def listedLibrary? (list : String) : Option String :=
  ((lines list).find? (occursIn "libclang.so")).map fun line =>
    strip ((split line "=>").getLastD "")

def installedLibrary? : Run (Option String) := do
  call "check_output" [.str "ldconfig", .str "-p"]
  match (← machine).libraries with
  | some list =>
    match listedLibrary? list with
    | some path =>
      say ("Found libclang using ldconfig: " ++ path)
      return some path
    | none => return none
  | none =>
    say "Could not use ldconfig to find libclang.so"
    return none

def directoryPatterns (platform : String) : List String :=
  ["/usr/lib/llvm*/lib", "/usr/lib/x86_64-linux-gnu", "/usr/lib/aarch64-linux-gnu",
   "/usr/lib/i386-linux-gnu", "/usr/local/lib", "C:/Program Files/LLVM/lib",
   "C:/Program Files (x86)/LLVM/lib"] ++
    (if platform == "Darwin" then ["/usr/local/opt/llvm/lib", "/opt/homebrew/opt/llvm/lib"] else [])

def makeLink (library link : String) : Run Unit := do
  call "symlink" [.str (Path.baseName library), .str link]
  match (← machine).linkRefusal with
  | some reason => throw (.system reason)
  | none => return

/-- Links a library under its plain name unless that is there already. -/
def ensureLink (library link : String) : Run Unit := do
  if !(← pathExists link) then
    say ("Creating symlink " ++ link ++ " -> " ++ library)
    if (← machine).platform == "Windows" then
      say ("On Windows, please create a copy or symlink of " ++ library ++ " to " ++ link ++
        " manually")
    else
      orElse (makeLink library link) fun e => do
        say ("Failed to create symlink: " ++ e.message)
        say ("Please create it manually: ln -s " ++ library ++ " " ++ link)

def shortest? : List String → Option String
  | [] => none
  | a :: rest =>
    some (rest.foldl (fun best b => if size b < size best then b else best) a)

def usualDirectory? : Run (Option String) := do
  let platform := (← machine).platform
  let file := if platform == "Windows" then "libclang.dll" else "libclang.so"
  let dirs ← (directoryPatterns platform).mapM glob
  let found ← dirs.flatten.mapM fun dir => glob (Path.join dir (file ++ "*"))
  match shortest? found.flatten with
  | none =>
    say "Could not find libclang in common paths."
    return none
  | some library =>
    let dir := Path.dirName library
    ensureLink library (Path.join dir file)
    say ("Using libclang from: " ++ dir)
    return some dir

def findDirectory? : Run (Option String) := do
  if (← machine).platform == "Windows" then usualDirectory?
  else
    match ← installedLibrary? with
    | some path => return some (Path.dirName path)
    | none => usualDirectory?

def knownDirectory? : Run (Option String) := do
  return (← findDirectory?).filter (!·.isEmpty)

def installWith (system : String) (commands : List (List String)) : Run Unit := do
  say ("Detected " ++ system ++ " system.")
  say "Installing Clang and libclang development files..."
  commands.forM runCommand

def installOn (release : String) : Run Unit := do
  let mentions := fun (words : List String) => words.any (occursIn · (lower release))
  if mentions ["debian", "ubuntu"] then
    installWith "Debian/Ubuntu"
      [["sudo", "apt", "update"], ["sudo", "apt", "install", "-y", "clang", "libclang-dev"]]
  else if mentions ["fedora", "redhat"] then
    installWith "Fedora/RHEL" [["sudo", "dnf", "install", "-y", "clang", "clang-devel"]]
  else if mentions ["arch"] then installWith "Arch Linux" [["sudo", "pacman", "-Sy", "clang"]]
  else say "Unsupported Linux distribution. Please install Clang manually."

def install : Run Unit := do
  let m ← machine
  let done := say "Clang installation complete.\n"
  match m.platform with
  | "Linux" =>
    match m.release with
    | none => say "Could not determine Linux distribution. Please install Clang manually."
    | some release =>
      installOn release
      done
  | "Darwin" =>
    say "Installing Clang on macOS via Homebrew..."
    orElse (do
      runCommand ["brew", "install", "llvm"]
      say "LLVM/Clang installed successfully via Homebrew.") fun _ =>
        say "Failed to install via Homebrew. Please install LLVM/Clang manually."
    done
  | "Windows" =>
    say "On Windows, please download and install LLVM/Clang from: https://llvm.org/builds/"
    say "Make sure to add LLVM bin directory to your PATH."
    done
  | system =>
    say ("Unsupported system: " ++ system ++ ". Please install Clang manually.")
    done

def installPackages : Run Unit := do
  say "Installing Python requirements..."
  orElse (do
    runCommand ["<python>", "-m", "pip", "install", "-r", "requirements.txt"]
    say "Requirements installed successfully.\n") fun _ =>
      say "Failed to install requirements. Please check your pip installation and try again.\n"

def configuration (dir : String) : String :=
  join "\n"
    ["\"\"\"",
     "Libclang configuration.",
     "Auto-generated by clang_utils.py.",
     "\"\"\"",
     "",
     "# Path to libclang directory",
     "LIBCLANG_PATH = \"" ++ dir ++ "\"",
     "",
     "def configure_libclang():",
     "    \"\"\"Configure libclang to use the detected library.\"\"\"",
     "    from clang.cindex import Config",
     "    Config.set_library_path(LIBCLANG_PATH)",
     ""]

def setUp : Run Bool := do
  match ← knownDirectory? with
  | none =>
    say "Error: Could not find libclang. Please install Clang and try again."
    return false
  | some dir =>
    let target := "src/config/libclang_config.py"
    makeDirs "src/config"
    writeFile target (configuration dir)
    say ("Configuration saved to: " ++ target)
    return true

def verify : Run Bool := do
  say "Verifying libclang installation..."
  orElse (do
    match ← knownDirectory? with
    | none => return false
    | some dir =>
      useLibrary dir
      startFrontEnd
      say "Libclang is correctly installed and configured!"
      say ("Using libclang from: " ++ dir)
      return true) fun e => do
    say ("Error verifying libclang installation: " ++ e.message)
    return false

def setupGrammar : CommandLine.Grammar :=
  simple
    [flag "find" ["--find"], flag "install" ["--install"],
     flag "setup" ["--setup"], flag "verify" ["--verify"],
     flag "all" ["--all"]]

def sayUsage : Run Unit :=
  ["Clang Utilities for Code Indexing Setup",
   "======================================\n",
   "Usage examples:",
   "  Find libclang: python clang_utils.py --find",
   "  Install Clang: python clang_utils.py --install",
   "  Setup config: python clang_utils.py --setup",
   "  Verify installation: python clang_utils.py --verify",
   "  Do all: python clang_utils.py --all\n"].forM say

def setupMain (words : List String) : Run Unit := do
  let args ← commandLine setupGrammar words
  let wants := fun key => isOn args key || isOn args "all"
  if !(["find", "install", "setup", "verify"].any wants) then sayUsage
  else
    if wants "find" then
      say "\n=== Finding libclang ==="
      match ← knownDirectory? with
      | some dir => say ("Found libclang at: " ++ dir)
      | none => say "Failed to find libclang"
    if wants "install" then
      say "\n=== Installing Clang ==="
      install
    if wants "setup" then
      say "\n=== Setting up configuration ==="
      discard setUp
    if wants "verify" then
      say "\n=== Verifying installation ==="
      say (if ← verify then "Verification successful!" else "Verification failed!")
    if isOn args "all" then say "\nAll tasks completed!"

end CodeAtlas.FrontEnd
