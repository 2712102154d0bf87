import ModPackager.Shell.Script

/-!
# Tools for files

The programs that copy, move, link, make and remove files. A tool goes through its operands in order,
says what went wrong with each, and ends with status one if anything did.
-/

namespace ModPackager.Shell

/-- A program that gives its status. -/
abbrev Tool := List String → Script Nat

/-- The reason of a fault without its number. -/
def reasonOf (fault : IoFault) : String := (fault.message.splitOn " (os error").headD ""

/-- A name between quotes, as messages show it. -/
def inQuotes (name : String) : String := "\x27" ++ name ++ "\x27"

/-- Splits arguments into the letters of options and operands. -/
def splitOptions : List String → List Char × List String
  | [] => ([], [])
  | "--" :: rest => ([], rest)
  | argument :: rest =>
    match argument.toList with
    | '-' :: letter :: letters =>
      let (others, operands) := splitOptions rest
      if letter == '-' then (others, operands) else (letter :: letters ++ others, operands)
    | _ =>
      let (others, operands) := splitOptions rest
      (others, argument :: operands)

/-- Goes through operands; the status is zero if all went well. -/
def forEach {α : Type} (operands : List α) (act : α → Script Bool) : Script Nat := do
  let results ← operands.mapM act
  return if results.all id then 0 else 1

/-- Runs a file operation, with a complaint if it fails. -/
def tryFile (tool : String) (complaint : IoFault → String) (action : FileAction Unit) :
    Script Bool := do
  match ← Script.attempt action with
  | .ok () => return true
  | .error fault =>
    Script.complain tool (complaint fault)
    return false

/-- A complaint about what could not be done to a name. -/
def cannot (verb name : String) (fault : IoFault) : String :=
  "cannot " ++ verb ++ " " ++ inQuotes name ++ ": " ++ reasonOf fault

/-- The last name of a path. -/
def lastName (text : String) : String := ((⟨text⟩ : Path).fileName?).getD text

/-! ### Copying -/

/-- What lies at a path, links not followed. -/
def entryAt (files : FileSystem) (text : String) : Except IoFault Entry :=
  match files.resolve false ⟨text⟩ with
  | .ok (.found _ entry) => .ok entry
  | .ok (.vacant _) => .error .notFound
  | .error fault => .error fault

/-- Whether a path is a link that leads nowhere. -/
def isDangling (files : FileSystem) (text : String) : Bool :=
  match entryAt files text with
  | .ok (.link _) => !files.holds ⟨text⟩
  | _ => false

/-- Copies the bytes of a file. -/
def copyContents (source target : String) : FileAction Unit := do
  FileAction.writeBytes ⟨target⟩ (← FileAction.readBytes ⟨source⟩)

/-- Copies a file over what is at the target. -/
def copyFileTo (source target : String) : Script Bool := do
  let files ← Script.files
  if (files.canonical? ⟨source⟩).isSome && files.canonical? ⟨source⟩ == files.canonical? ⟨target⟩ then
    Script.complain "cp"
      (inQuotes source ++ " and " ++ inQuotes target ++ " are the same file")
    return false
  else if isDangling files target then
    Script.complain "cp" ("not writing through dangling symlink " ++ inQuotes target)
    return false
  else tryFile "cp" (cannot "create regular file" target) (copyContents source target)

/-- Copies an entry; directories only if asked for, links as such if asked for, at most `fuel` levels
deep. -/
def copyTo (recursive links : Bool) : Nat → String → String → Script Bool
  | 0, _, _ => return false
  | fuel + 1, source, target => do
    let files ← Script.files
    match entryAt files source with
    | .ok (.link link) =>
      if links then
        return ← tryFile "cp" (cannot "create symbolic link" target) (FileAction.createLink ⟨target⟩ link)
    | _ => pure ()
    match files.lookup ⟨source⟩ with
    | .error fault =>
      Script.complain "cp" (cannot "stat" source fault)
      return false
    | .ok (_, .directory) =>
      if !recursive then
        Script.complain "cp" ("-r not specified; omitting directory " ++ inQuotes source)
        return false
      else if !(← tryFile "cp" (cannot "create directory" target)
          (FileAction.ensureDirectory ⟨target⟩)) then return false
      else
        match ← Script.attempt (FileAction.readNames ⟨source⟩) with
        | .error fault =>
          Script.complain "cp" (cannot "access" source fault)
          return false
        | .ok names =>
          let results ← names.mapM fun name =>
            copyTo recursive links fuel (source ++ "/" ++ name) (target ++ "/" ++ name)
          return results.all id
    | .ok _ => copyFileTo source target

/-- How deep directories are copied. -/
def copyDepth : Nat := 1000

/-- Runs a tool on sources and a target, which is a directory if there are several sources. -/
def ontoTarget (tool : String) (operands : List String) (act : String → String → Script Bool) :
    Script Nat := do
  match operands.reverse with
  | [] =>
    Script.complain tool "missing file operand"
    return 1
  | [only] =>
    Script.complain tool ("missing destination file operand after " ++ inQuotes only)
    return 1
  | target :: sources =>
    if (← Script.files).holdsDirectory ⟨target⟩ then
      forEach sources.reverse fun source =>
        act source ((⟨target⟩ : Path).child (lastName source)).text
    else
      match sources with
      | [source] => forEach [source] fun source => act source target
      | _ =>
        Script.complain tool ("target " ++ inQuotes target ++ ": No such file or directory")
        return 1

/-- Copies files, or with an option whole directories. -/
def cp : Tool := fun arguments =>
  let (options, operands) := splitOptions arguments
  let recursive := options.any fun option => "rRa".toList.contains option
  let links := recursive || options.any fun option => "Pd".toList.contains option
  ontoTarget "cp" operands fun source target => do
    if options.contains 'n' && (entryAt (← Script.files) target).toOption.isSome then return true
    let done ← copyTo recursive links copyDepth source target
    if done && options.contains 'v' then
      Script.printText (inQuotes source ++ " -> " ++ inQuotes target ++ "\n")
    return done

/-! ### Moving -/

/-- Moves the entries at and below a location. -/
def moveBelow (files : FileSystem) (source target : Location) : FileSystem :=
  { files with
    nodes := (files.nodes.filter fun node => !target.isPrefixOf node.1).map fun (place, node) =>
      if source.isPrefixOf place then (target ++ place.drop source.length, node) else (place, node) }

/-- Moves an entry. -/
def moveEntry (source target : String) : FileAction Unit := do
  match ← FileAction.ofResult ((← get).resolve false ⟨source⟩) with
  | .vacant _ => throw .notFound
  | .found place _ =>
    match ← FileAction.ofResult ((← get).resolve false ⟨target⟩) with
    | .vacant other => modify fun files => moveBelow files place other
    | .found other _ => if place != other then modify fun files => moveBelow files place other

/-- Moves files. -/
def mv : Tool := fun arguments =>
  ontoTarget "mv" (splitOptions arguments).2 fun source target =>
    tryFile "mv" (cannot "stat" source) (moveEntry source target)

/-! ### Making -/

/-- Makes directories, with an option also the ones on the way. -/
def mkdir : Tool := fun arguments =>
  let (options, operands) := splitOptions arguments
  forEach operands fun operand =>
    tryFile "mkdir" (cannot "create directory" operand)
      (if options.contains 'p' then FileAction.createDirectories ⟨operand⟩
        else FileAction.createDirectory ⟨operand⟩)

/-- Sets the time of what lies at a path. -/
def setTime (text : String) (time : Nat) : FileAction Unit := do
  match (← get).canonical? ⟨text⟩ with
  | none => throw .notFound
  | some location =>
    modify fun files =>
      { files with
        nodes := files.nodes.map fun (place, node) =>
          if place = location then (place, { node with modified := time }) else (place, node) }

/-- Makes missing files and sets the times of files; a given time counts as long ago. -/
def touch : Tool := fun arguments =>
  let (options, operands) := splitOptions arguments
  let dated := options.any fun option => "dtr".toList.contains option
  let targets := if dated then operands.drop 1 else operands
  forEach targets fun target =>
    tryFile "touch" (cannot "touch" target) do
      if !(← get).holds ⟨target⟩ && !options.contains 'c' then FileAction.writeText ⟨target⟩ ""
      let files ← get
      if files.holds ⟨target⟩ then setTime target (if dated then 0 else files.now)

/-- Makes a link, symbolic or, without the option, as a copy of the file. -/
def linkTo (symbolic force : Bool) (source target : String) : FileAction Unit := do
  if force && (entryAt (← get) target).toOption.isSome then FileAction.removeFile ⟨target⟩
  if symbolic then FileAction.createLink ⟨target⟩ source
  else
    match entryAt (← get) target with
    | .ok _ => throw .exists
    | .error _ => copyContents source target

/-- Makes links. -/
def ln : Tool := fun arguments =>
  let (options, operands) := splitOptions arguments
  let symbolic := options.contains 's'
  let kind := if symbolic then "create symbolic link" else "create hard link"
  let operands :=
    match operands with
    | [only] => [only, "."]
    | _ => operands
  ontoTarget "ln" operands fun source target =>
    tryFile "ln" (fun fault => "failed to " ++ kind ++ " " ++ inQuotes target ++ ": " ++ reasonOf fault)
      (linkTo symbolic (options.contains 'f') source target)

/-! ### Removing -/

/-- Removes an entry, directories only if asked for. -/
def removeEntry (recursive : Bool) (text : String) : FileAction Unit := do
  match entryAt (← get) text with
  | .error fault => throw fault
  | .ok .directory => if recursive then FileAction.removeTree ⟨text⟩ else throw .isDirectory
  | .ok _ => FileAction.removeFile ⟨text⟩

/-- Removes files, or with an option whole directories. -/
def rm : Tool := fun arguments =>
  let (options, operands) := splitOptions arguments
  let recursive := options.any fun option => "rR".toList.contains option
  forEach operands fun operand => do
    match ← Script.attempt (removeEntry recursive operand) with
    | .ok () => return true
    | .error fault =>
      if options.contains 'f' && fault == .notFound then return true
      else
        Script.complain "rm" (cannot "remove" operand fault)
        return false

/-- Removes an empty directory. -/
def removeEmpty (text : String) : FileAction Unit := do
  match (← get).resolve false ⟨text⟩ with
  | .ok (.found location .directory) =>
    if ((← get).names location).isEmpty then FileAction.removeTree ⟨text⟩ else throw .notEmpty
  | .ok (.found _ _) => throw .notDirectory
  | .ok (.vacant _) => throw .notFound
  | .error fault => throw fault

/-- Removes empty directories. -/
def rmdir : Tool := fun arguments =>
  forEach (splitOptions arguments).2 fun operand =>
    tryFile "rmdir" (fun fault => "failed to remove " ++ inQuotes operand ++ ": " ++ reasonOf fault)
      (removeEmpty operand)

/-! ### Printing -/

/-- Prints files, or the input if there are none. -/
def cat : Tool := fun arguments => do
  match (splitOptions arguments).2 with
  | [] =>
    Script.print ⟨(← Script.state).input.toArray⟩
    return 0
  | operands =>
    forEach operands fun operand => do
      match ← Script.attempt (FileAction.readBytes ⟨operand⟩) with
      | .ok bytes =>
        Script.print bytes
        return true
      | .error fault =>
        Script.complain "cat" (operand ++ ": " ++ reasonOf fault)
        return false

end ModPackager.Shell
