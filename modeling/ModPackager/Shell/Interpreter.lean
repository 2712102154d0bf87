import ModPackager.Shell.Expansion
import ModPackager.Shell.Reader
import ModPackager.Shell.StreamEditor
import ModPackager.Shell.Test
import ModPackager.Shell.TextTools

/-!
# Running scripts

Items run one after another, each leaving its status to the next. A pipeline hands what a command
prints to the next one; a group in parentheses runs in a shell of its own; an item may run next to those
behind it. Programs are looked up by name among those of the shell and the tools.
-/

namespace ModPackager.Shell

/-- Sets the status. -/
def setStatus (status : Nat) : Script Unit := Script.change fun state => { state with status }

/-- The programs that are not part of the shell itself. -/
def tools : List (String × Tool) :=
  [("true", fun _ => return 0), ("false", fun _ => return 1), ("echo", echo), ("printf", printf),
    ("test", Test.test), ("[", Test.bracket), ("cat", cat), ("cp", cp), ("mv", mv), ("rm", rm),
    ("mkdir", mkdir), ("rmdir", rmdir), ("touch", touch), ("ln", ln), ("sleep", sleep),
    ("basename", basename), ("dirname", dirname), ("pwd", pwd), ("sed", StreamEditor.sed)]

/-- The directories that hold programs. -/
def programDirs : List String := ["/bin/", "/usr/bin/"]

/-- A program name without the directory of programs. -/
def programName (name : String) : String :=
  match programDirs.find? fun dir => dir.toList.isPrefixOf name.toList with
  | some dir => String.ofList (name.toList.drop dir.length)
  | none => name

/-! ### Redirections -/

/-- Sets where a descriptor leads. -/
def State.redirect (state : State) (descriptor : Nat) (sink : Sink) : State :=
  match descriptor with
  | 1 => { state with output := sink }
  | 2 => { state with errors := sink }
  | _ => state

/-- Where a descriptor leads. -/
def State.sink (state : State) (descriptor : Nat) : Sink :=
  match descriptor with
  | 1 => state.output
  | 2 => state.errors
  | _ => .nowhere

/-- Opens a file to write to, emptied unless bytes are to be added at its end. -/
def openFile (keep : Bool) (path : Path) : FileAction Location := do
  if !keep || !(← get).holds path then FileAction.writeBytes path ByteArray.empty
  match ← FileAction.ofResult ((← get).lookup path) with
  | (location, .file _) => return location
  | _ => throw .isDirectory

/-- Redirects a descriptor to or from a file. -/
def redirectFile (descriptor : Nat) (opening : Opening) (target : String) : Script Bool := do
  if target = "/dev/null" then
    Script.change fun state =>
      if opening = .input then { state with input := [] } else state.redirect descriptor .nowhere
    return true
  else if opening = .input then
    match ← Script.attempt (FileAction.readBytes ⟨target⟩) with
    | .ok bytes =>
      Script.change fun state => { state with input := bytes.toList }
      return true
    | .error _ =>
      Script.complain "sh" ("1: cannot open " ++ target ++ ": No such file")
      return false
  else
    match ← Script.attempt (openFile (opening = .append) ⟨target⟩) with
    | .ok location =>
      Script.change (·.redirect descriptor (.file location))
      return true
    | .error fault =>
      let reason := if fault = .notFound then "Directory nonexistent" else reasonOf fault
      Script.complain "sh" ("1: cannot create " ++ target ++ ": " ++ reason)
      return false

/-- The state with the descriptors of another one. -/
def State.withDescriptors (state other : State) : State :=
  { state with input := other.input, output := other.output, errors := other.errors }

/-! ### Programs of the shell -/

/-- The signals by name. -/
def signalOf? (name : String) : Option Nat :=
  match name.toNat? with
  | some number => some number
  | none =>
    (signalNames.find? fun signal => signal.2 = name || signal.2 = "SIG" ++ name).map (·.1)

/-- Sends a signal. Only the shell itself can be reached; the signal ends it. -/
def kill : Tool := fun arguments => do
  let (signal?, targets) : Option Nat × List String :=
    match arguments with
    | "-s" :: name :: rest => (signalOf? name, rest)
    | first :: rest =>
      match first.toList with
      | '-' :: name => (signalOf? (String.ofList name), rest)
      | _ => (some 15, arguments)
    | [] => (none, [])
  match signal? with
  | none =>
    Script.complain "sh" "1: kill: Illegal option"
    return 2
  | some signal =>
    if targets.contains (toString processNumber) then
      if signal = 0 then return 0 else Script.exit (.signal signal)
    else
      Script.complain "sh" "1: kill: No such process"
      return 1

/-- Splits an assignment at its equals sign. -/
def assignmentOf? (argument : String) : Option (String × String) :=
  let chars := argument.toList
  let name := chars.takeWhile (· != '=')
  match chars.drop name.length with
  | _ :: value => some (String.ofList name, String.ofList value)
  | [] => none

/-- Sets the variables that arguments assign. -/
def assignAll : Tool := fun arguments => do
  (arguments.filterMap assignmentOf?).forM fun (name, value) =>
    Script.change (·.assign name value)
  return 0

/-- Sets variables and lets programs see them. -/
def exportAll : Tool := fun arguments => do
  let names := arguments.map fun argument => (argument.splitOn "=").headD ""
  Script.change fun state => { state with exported := state.exported ++ names }
  assignAll arguments

/-- The state that a program starts with. -/
def State.forProgram (state : State) : State :=
  { state with
    bindings := state.bindings.filter fun entry => state.exported.contains entry.1
    strict := false
    needsValues := false }

/-- Sets options of the shell, and its arguments behind two dashes. -/
def setOptions : Tool := fun arguments => do
  let options := arguments.takeWhile (· != "--")
  if options.length < arguments.length then
    Script.change fun state =>
      { state with
        arguments := state.arguments.take 1 ++ arguments.drop (options.length + 1) }
  options.forM fun argument =>
    match argument.toList with
    | '-' :: letters =>
      Script.change fun state =>
        { state with
          strict := state.strict || letters.contains 'e'
          needsValues := state.needsValues || letters.contains 'u' }
    | '+' :: letters =>
      Script.change fun state =>
        { state with
          strict := state.strict && !letters.contains 'e'
          needsValues := state.needsValues && !letters.contains 'u' }
    | _ => pure ()
  return 0

/-- Changes the working directory. -/
def changeDir : Tool := fun arguments => do
  let state ← Script.state
  let target := arguments.headD "/"
  if (← Script.files).holdsDirectory ⟨target⟩ then
    let components := (⟨target⟩ : Path).normalize state.workingDir
    Script.change fun state => { state with workingDir := Path.ofComponents components }
    return 0
  else
    Script.complain "sh" ("1: cd: can\x27t cd to " ++ target)
    return 2

/-- Puts the words of a line into variables; the last one takes what is left. -/
def assignWords : List String → List Char → Script Unit
  | [], _ => return ()
  | [name], text =>
    Script.change (·.assign name (String.ofList (Text.trimEnd (Text.trimStart text))))
  | name :: rest, text => do
    let isGap (c : Char) : Bool := c == ' ' || c == '\t'
    let start := text.dropWhile isGap
    Script.change (·.assign name (String.ofList (start.takeWhile (!isGap ·))))
    assignWords rest (start.dropWhile (!isGap ·))

/-- Reads a line of the input into variables. -/
def readLine : Tool := fun arguments => do
  let names := arguments.filter (· != "-r")
  let input := (← Script.state).input
  let line := input.takeWhile (· != 10)
  let rest := input.drop line.length
  Script.change fun state => { state with input := rest.drop 1 }
  assignWords names ((String.fromUTF8? ⟨line.toArray⟩).getD "").toList
  return if rest.isEmpty then 1 else 0

/-- The programs that are part of the shell. -/
def ownPrograms : List (String × Tool) :=
  [(":", fun _ => return 0), ("cd", changeDir), ("kill", kill), ("set", setOptions),
    ("export", exportAll), ("readonly", assignAll), ("local", assignAll), ("wait", fun _ => return 0),
    ("umask", fun _ => return 0), ("trap", fun _ => return 0), ("read", readLine),
    ("unset", fun arguments => do
      Script.change fun state =>
        { state with bindings := state.bindings.filter fun entry => !arguments.contains entry.1 }
      return 0),
    ("shift", fun _ => do
      Script.change fun state =>
        { state with arguments := state.arguments.take 1 ++ state.arguments.drop 2 }
      return 0)]

/-! ### Commands -/

/-- Ends the shell if it is strict and the status is a failure that nothing tests. -/
def enforce (tested : Bool) : Script Unit := do
  let state ← Script.state
  if state.strict && !tested && state.status != 0 then Script.exit (.code state.status)

/-- How many rounds of a loop take a millisecond. -/
def roundsPerMillisecond : Nat := 32

mutual

/-- Runs items; the flag says whether something tests their status. -/
def runItems : Nat → Bool → List Item → Script Unit
  | 0, _, _ => pure ()
  | _ + 1, _, [] => pure ()
  | fuel + 1, tested, .item background first rest :: others => do
    if background then
      match first, rest with
      | .pipeline false [.redirected command redirections], [] =>
        Script.spawn (do let _ ← redirectAll fuel redirections) (runCommand fuel tested command)
      | _, _ => Script.spawn (pure ()) (runChain fuel tested first rest)
      setStatus 0
    else runChain fuel tested first rest
    runItems fuel tested others

/-- Runs a chain of pipelines. -/
def runChain : Nat → Bool → Pipeline → List (Bool × Pipeline) → Script Unit
  | 0, _, _, _ => pure ()
  | fuel + 1, tested, first, rest => do
    runPipeline fuel (tested || !rest.isEmpty) first
    rest.forM fun (success, next) => do
      if ((← Script.state).status == 0) == success then runPipeline fuel true next

/-- Runs the commands of a pipeline, each with what the one before has printed. -/
def runPipeline : Nat → Bool → Pipeline → Script Unit
  | 0, _, _ => pure ()
  | fuel + 1, tested, .pipeline negated commands => do
    match commands with
    | [command] => runCommand fuel (tested || negated) command
    | commands => setStatus (← runPiped fuel (← Script.state).input commands)
    if negated then
      let status := (← Script.state).status
      setStatus (if status = 0 then 1 else 0)
    else enforce tested

/-- Runs commands joined by pipes and gives the status of the last one. -/
def runPiped : Nat → List UInt8 → List Command → Script Nat
  | 0, _, _ => return 0
  | _ + 1, _, [] => return 0
  | fuel + 1, input, [command] =>
    Script.inSubshell (fun state => { state with input }) (runCommand fuel true command)
  | fuel + 1, input, command :: rest => do
    let (printed, _) ←
      Script.capture (fun state => { state with input }) (runCommand fuel true command)
    runPiped fuel printed.toList rest

/-- Runs a command. -/
def runCommand : Nat → Bool → Command → Script Unit
  | 0, _, _ => pure ()
  | fuel + 1, tested, command => do
    match command with
    | .simple assignments words =>
      let texts ← expandWords (substitute fuel) fuel words
      let before ← Script.state
      assignments.forM fun (name, value) => do
        let value ← expandText (substitute fuel) fuel value
        Script.change (·.assign name value)
      match texts with
      | [] => setStatus 0
      | name :: arguments =>
        if assignments.isEmpty then runProgram fuel name arguments
        else
          Script.change fun state =>
            { state with exported := state.exported ++ assignments.map (·.1) }
          runProgram fuel name arguments
          Script.change fun state =>
            { state with bindings := before.bindings, exported := before.exported }
    | .subshell body => setStatus (← Script.inSubshell id (runItems fuel tested body))
    | .group body => runItems fuel tested body
    | .each name words body =>
      let texts ← expandWords (substitute fuel) fuel words
      setStatus 0
      texts.forM fun text => do
        Script.change (·.assign name text)
        runItems fuel tested body
    | .choose word arms =>
      let subject ← expandText (substitute fuel) fuel word
      setStatus 0
      runArms fuel tested subject.toList arms
    | .branch condition consequence alternative =>
      runItems fuel true condition
      if (← Script.state).status = 0 then runItems fuel tested consequence
      else
        setStatus 0
        runItems fuel tested alternative
    | .loop success condition body => runLoop fuel 0 tested success condition body
    | .redirected command redirections =>
      let before ← Script.state
      if ← redirectAll fuel redirections then runCommand fuel tested command
      else setStatus 2
      Script.change (·.withDescriptors before)

/-- Runs the first arm of a choice that fits. -/
def runArms : Nat → Bool → List Char → List (List Word × List Item) → Script Unit
  | 0, _, _, _ => pure ()
  | _ + 1, _, _, [] => pure ()
  | fuel + 1, tested, subject, (patterns, body) :: rest => do
    let fits ← patterns.mapM fun pattern => do
      return (patternOf (← fieldOf (substitute fuel) fuel pattern)).matches subject
    if fits.any id then runItems fuel tested body else runArms fuel tested subject rest

/-- Runs a loop from a round on. Rounds take time, so that one without an end runs into the time limit
and others get their turn. -/
def runLoop : Nat → Nat → Bool → Bool → List Item → List Item → Script Unit
  | 0, _, _, _, _, _ => pure ()
  | fuel + 1, round, tested, success, condition, body => do
    if (round + 1) % roundsPerMillisecond = 0 then Script.sleep 1
    runItems fuel true condition
    if ((← Script.state).status == 0) == success then
      runItems fuel tested body
      runLoop fuel (round + 1) tested success condition body
    else setStatus 0

/-- Redirects descriptors in order; says whether all could be. -/
def redirectAll : Nat → List Redirection → Script Bool
  | 0, _ => return false
  | _ + 1, [] => return true
  | fuel + 1, .same descriptor other :: rest => do
    Script.change fun state => state.redirect descriptor (state.sink other)
    redirectAll fuel rest
  | fuel + 1, .file descriptor opening target :: rest => do
    let text ← expandText (substitute fuel) fuel target
    if ← redirectFile descriptor opening text then redirectAll fuel rest else return false

/-- What a script in a word prints. -/
def substitute : Nat → List Item → Script (List Char)
  | 0, _ => return []
  | fuel + 1, items => do
    let (printed, _) ← Script.capture id (runItems fuel true items)
    return ((String.fromUTF8? printed).getD "").toList

/-- Runs a text as a script. -/
def runText : Nat → String → Script Unit
  | 0, _ => pure ()
  | fuel + 1, text =>
    match parse? text with
    | some items => runItems fuel false items
    | none => do
      Script.complain "sh" "1: Syntax error"
      Script.exit (.code 2)

/-- Runs a shell with the given arguments. -/
def runShell : Nat → List String → Script Unit
  | 0, _ => pure ()
  | fuel + 1, arguments =>
    match arguments with
    | [] => runText fuel ""
    | "-c" :: script :: names => do
      Script.change fun state => { state with arguments := if names.isEmpty then ["sh"] else names }
      runText fuel script
    | "-e" :: rest => do
      Script.change fun state => { state with strict := true }
      runShell fuel rest
    | "-ec" :: rest => do
      Script.change fun state => { state with strict := true }
      runShell fuel ("-c" :: rest)
    | file :: names => do
      match ← Script.attempt (FileAction.readText ⟨file⟩) with
      | .ok text =>
        Script.change fun state => { state with arguments := file :: names }
        runText fuel text
      | .error _ =>
        Script.complain "sh" ("0: cannot open " ++ file ++ ": No such file")
        Script.exit (.code 2)

/-- Runs a program and sets the status. -/
def runProgram : Nat → String → List String → Script Unit
  | 0, _, _ => pure ()
  | fuel + 1, name, arguments => do
    let tool? := (ownPrograms.lookup name) <|> (tools.lookup (programName name))
    match programName name, tool? with
    | _, some tool => setStatus (← tool arguments)
    | "exit", _ =>
      match arguments.head?.map (·.toNat?) with
      | none => Script.exit (.code (← Script.state).status)
      | some (some status) => Script.exit (.code (status % 256))
      | some none =>
        Script.complain "sh" "1: exit: Illegal number"
        Script.exit (.code 2)
    | "sh", _ => setStatus (← Script.inSubshell State.forProgram (runShell fuel arguments))
    | "eval", _ => runText fuel (" ".intercalate arguments)
    | "command", _ =>
      match arguments with
      | [] => setStatus 0
      | name :: rest => runProgram fuel name rest
    | "exec", _ =>
      match arguments with
      | [] => setStatus 0
      | name :: rest =>
        runProgram fuel name rest
        Script.exit (.code (← Script.state).status)
    | _, none =>
      if name.toList.contains '/' && (← Script.files).holds ⟨name⟩ then
        Script.complain "sh" ("1: " ++ name ++ ": Permission denied")
        setStatus 126
      else
        Script.complain "sh" ("1: " ++ name ++ ": not found")
        setStatus 127

end

end ModPackager.Shell
