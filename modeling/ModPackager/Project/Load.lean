import ModPackager.Error
import ModPackager.FileSystem.Action
import ModPackager.Project.Package

/-!
# Loading a package

The package document of a project is a file with a fixed name.
-/

namespace ModPackager

/-- The name of the package document. -/
def packageFileName : String := "package.json"

/-- Reads the package document of a project. -/
def Package.load (fs : FileSystem) (dir : Path) : Except Error Package :=
  let path := dir.child packageFileName
  if fs.holds path then
    match FileAction.readText path fs with
    | .error fault _ => .error (.io fault)
    | .ok content _ =>
      match Package.parse content with
      | .ok package => .ok package
      | .error problem => .error (.invalidProject (problem.message content.toList))
  else .error (.projectNotFound dir)

end ModPackager
