import Typesweep.Path.Basic

/-!
# Well-known names

The names of files and directories that a run looks for. The layout they come from:

    repo/
      .gitignore                      ignore rules, also read from the directories above
      .tsc-lint.toml                  settings
      node_modules/.bin/tsc           the checker
      node_modules/.tsc-lint/         its scratch output
      tsconfig.json                   a project
      packages/app/
        node_modules/.bin/tsc         a checker of its own
        tsconfig.json                 a nested project
-/

namespace Typesweep

/-- Name of a project configuration. -/
def configName : RawText := .ofString "tsconfig.json"

/-- Name of a file of ignore rules. -/
def ignoreFileName : RawText := .ofString ".gitignore"

/-- Name of the directory of installed packages. -/
def packagesName : RawText := .ofString "node_modules"

/-- Name of the version control directory. -/
def versionControlName : RawText := .ofString ".git"

/-- The checker, below a directory of installed packages. -/
def checkerPath : Path := .ofString ".bin/tsc"

/-- Name of the checker's scratch output directory. -/
def scratchName : RawText := .ofString ".tsc-lint"

/-- Name of the settings file. -/
def settingsName : RawText := .ofString ".tsc-lint.toml"

/-- Directories of installed packages and of version control are never entered by a walk. They are
told by their names as they are shown. -/
def isNeverWalked (name : Text) : Bool :=
  name = Text.ofBytes packagesName || name = Text.ofBytes versionControlName

/-- Whether the path is that of a project configuration. -/
def Path.isConfig (p : Path) : Bool :=
  p.fileName? = some configName

end Typesweep
