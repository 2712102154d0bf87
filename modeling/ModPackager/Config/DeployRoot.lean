import ModPackager.Config.Settings

/-!
# The deploy root

The deploy root is cleared before anything is deployed. So it must not be the project, the build tree
or the auxiliary directory, nor contain one of them, nor lie inside the build tree. Paths are compared
as written, with dots folded away, and, if both exist, also as they are on disk.
-/

namespace ModPackager

open ModPackager.Path

/-- Whether a test holds for two paths as written, or as they are on disk if both exist. -/
def overlaps (fs : FileSystem) (a b : Path) (test : List Component → List Component → Bool) : Bool :=
  test (a.normalize fs.workingDir) (b.normalize fs.workingDir) ||
    match fs.canonical? a, fs.canonical? b with
    | some a, some b => test (FileSystem.componentsOf a) (FileSystem.componentsOf b)
    | _, _ => false

namespace Settings

/-- The directories that must be kept, with how messages call them. -/
def kept (settings : Settings) : List (String × Path) :=
  [("project directory", settings.projectDir), ("build directory", settings.buildDir),
    ("auxiliary directory", settings.auxDir)]

/-- Why a deploy root is refused, if it is. -/
def refusal? (settings : Settings) (fs : FileSystem) (root : Path) : Option String :=
  match settings.kept.find? fun (_, dir) => overlaps fs root dir fun r d => r.isPrefixOf d with
  | some (label, dir) => some ("it is or contains the " ++ label ++ " " ++ dir.text)
  | none =>
    if overlaps fs root settings.buildDir fun r b => b.isPrefixOf r then
      some ("it lies inside the build directory " ++ settings.buildDir.text)
    else none

/-- Accepts a deploy root or says why it is refused. -/
def checkDeployRoot (settings : Settings) (fs : FileSystem) (root : Path) : Except Error Unit :=
  match settings.refusal? fs root with
  | some reason => .error (.unsafeDeployRoot root reason)
  | none => .ok ()

/-- The deploy root of a mod. There is none unless one is set. -/
def deployRoot (settings : Settings) (fs : FileSystem) : Except Error Path := do
  match settings.deployDir with
  | none =>
    .error (.unsupportedPlatform ("no default mods directory on linux; set " ++ deployDirVariable
      ++ " or pass --deploy-dir"))
  | some root =>
    settings.checkDeployRoot fs root
    return root

end Settings

end ModPackager
