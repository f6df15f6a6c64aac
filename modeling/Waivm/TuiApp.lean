import Waivm.Lib.Machine
import Waivm.Lib.Printf

/-!
# The terminal UI (`app.rs`, `runner.rs`, `main.rs`)

`waivm-tui` shows a list of programs and the output of the last command, and runs the
`waivm` binary on the selected program. The model is a machine whose steps are the rounds
of the loop of `run`: draw, read a key, handle it. What the files, the terminal and the
processes answer is given from outside, for each round on its own, so a command may answer
differently each time. An `io::Error` is the text that it is displayed as.
-/

namespace Waivm.Tui

open CString
open Machine (Outcome)

/-! ## Paths and processes -/

/-- `PathBuf` and what the program does with it. The parts of a path are those that are valid
text, as `to_str` gives them; `display` is the lossy text. -/
structure Paths (PathBuf : Type) where
  ofText : Text → PathBuf
  display : PathBuf → Text
  join : PathBuf → PathBuf → PathBuf
  parent : PathBuf → Option PathBuf
  isAbsolute : PathBuf → Bool
  fileName : PathBuf → Option Text
  fileStem : PathBuf → Option Text
  extension : PathBuf → Option Text

/-- The files and the environment that `App::new` looks at. -/
structure Surroundings (PathBuf : Type) where
  canonicalize : PathBuf → Except Text PathBuf
  currentDir : Except Text PathBuf
  waivmBin : Option Text
  isDir : PathBuf → Bool
  isFile : PathBuf → Bool
  readDir : PathBuf → Except Text (List (Except Text PathBuf))

/-- `std::process::Command`: the binary, its arguments, and the directory it runs in. -/
structure Command (PathBuf : Type) where
  binary : PathBuf
  args : List PathBuf
  currentDir : PathBuf

/-- `std::process::Output`. `code` is `none` after a signal, `status` is how the status is
displayed, and the streams are texts as `from_utf8_lossy` gives them. -/
structure Output where
  code : Option Int
  status : Text
  stdout : Text
  stderr : Text

/-! ## The application -/

/-- `Action` -/
inductive Action
  | run
  | trace
  | verify
  | disassemble
  | info
deriving DecidableEq, Repr

/-- `Action::ALL` -/
def Action.all : List Action :=
  [.run, .trace, .verify, .disassemble, .info]

/-- `label` -/
def Action.label : Action → Text
  | .run => "run".toList
  | .trace => "trace".toList
  | .verify => "verify".toList
  | .disassemble => "dis".toList
  | .info => "info".toList

/-- `cli_command` -/
def Action.cliCommand : Action → Text
  | .run => "run".toList
  | .trace => "trace".toList
  | .verify => "verify".toList
  | .disassemble => "dis".toList
  | .info => "info".toList

/-- `Self::ALL[index % Self::ALL.len()]` -/
def Action.atIndex (index : Nat) : Action :=
  Action.all.get ⟨index % Action.all.length, Nat.mod_lt index (by decide)⟩

/-- `next` -/
def Action.next (action : Action) : Action :=
  let index := (Action.all.findIdx? (· == action)).getD 0
  .atIndex (index + 1)

/-- `prev` -/
def Action.prev (action : Action) : Action :=
  let index := (Action.all.findIdx? (· == action)).getD 0
  .atIndex (index + Action.all.length - 1)

/-- `Program` -/
structure Program (PathBuf : Type) where
  name : Text
  path : PathBuf

/-- `Config` -/
structure Config (PathBuf : Type) where
  root : Option PathBuf
  waivm : Option PathBuf
  file : Option PathBuf

/-- `App` -/
structure App (PathBuf : Type) where
  root : PathBuf
  waivm : PathBuf
  programs : List (Program PathBuf)
  selected : Nat
  action : Action
  output : List Text
  status : Text
  lastCommand : Text
  shouldQuit : Bool
  showHelp : Bool
  scroll : Nat

section Files
variable {PathBuf : Type} [DecidableEq PathBuf] (paths : Paths PathBuf) (env : Surroundings PathBuf)

/-- `path.join(name)` -/
def Paths.joinText (path : PathBuf) (name : String) : PathBuf :=
  paths.join path (paths.ofText name.toList)

/-- `is_program_file` -/
def isProgramFile (path : PathBuf) : Bool :=
  paths.extension path == some "wai".toList || paths.extension path == some "waibc".toList

/-- The loop over the entries of a directory in `collect_programs`. -/
def programsIn (dir : PathBuf) : Except Text (List (Program PathBuf)) := do
  let entries ← env.readDir dir
  let found ← entries.mapM id
  pure ((found.filter (isProgramFile paths)).map fun path =>
    { name := (paths.fileName path).getD "program".toList, path := path })

/-- `collect_programs` -/
def collectPrograms (root : PathBuf) : Except Text (List (Program PathBuf)) := do
  let examples := paths.joinText root "examples"
  let inExamples ← if env.isDir examples then programsIn paths env examples else pure []
  let inRoot ← programsIn paths env root
  let sorted := (inExamples ++ inRoot).mergeSort fun left right => decide (left.name ≤ right.name)
  pure (sorted.eraseRepsBy fun left right => left.path == right.path)

/-- The directory is the root of the repository. -/
def looksLikeRoot (dir : PathBuf) : Bool :=
  env.isDir (paths.joinText dir "examples") && env.isFile (paths.joinText dir "CMakeLists.txt")

/-- `detect_root` -/
def detectRoot (input : Option PathBuf) : Except Text PathBuf :=
  match input with
  | some root => env.canonicalize root
  | none => do
    let cwd ← env.currentDir
    if looksLikeRoot paths env cwd then pure cwd
    else
      match paths.parent cwd with
      | some parent => if looksLikeRoot paths env parent then pure parent else pure cwd
      | none => pure cwd

/-- `detect_waivm` -/
def detectWaivm (root : PathBuf) (input : Option PathBuf) : PathBuf :=
  match input with
  | some path => path
  | none =>
    match env.waivmBin with
    | some value => paths.ofText value
    | none =>
      let candidates := ["build/waivm", "build/src/waivm", "cmake-build-debug/waivm",
        "cmake-build-release/waivm"].map (paths.joinText root)
      (candidates.find? env.isFile).getD (paths.ofText "waivm".toList)

/-- The application that `App::new` returns when it has found the programs. -/
def App.start (root waivm : PathBuf) (programs : List (Program PathBuf)) : App PathBuf where
  root := root
  waivm := waivm
  programs := programs
  selected := 0
  action := .run
  output := ["waivm terminal UI ready.".toList,
    "Press Enter to execute the selected command, ? for help, q to quit.".toList]
  status :=
    if programs = [] then
      "No .wai or .waibc programs found. Use --file <path> or add examples.".toList
    else "Loaded ".toList ++ Printf.unsigned 10 programs.length ++ " program(s).".toList
  lastCommand := []
  shouldQuit := false
  showHelp := false
  scroll := 0

/-- `App::new` -/
def App.new (config : Config PathBuf) : Except Text (App PathBuf) := do
  let root ← detectRoot paths env config.root
  let waivm := detectWaivm paths env root config.waivm
  let programs ← collectPrograms paths env root
  match config.file with
  | none => pure (.start root waivm programs)
  | some file =>
    let path := if paths.isAbsolute file then file else paths.join root file
    let name := (paths.fileName path).getD "custom".toList
    pure (.start root waivm ({ name := name, path := path } :: programs))

end Files

namespace App
variable {PathBuf : Type} (app : App PathBuf)

/-- `selected_program` -/
def selectedProgram : Option (Program PathBuf) :=
  app.programs[app.selected]?

/-- `selected_path` -/
def selectedPath : Option PathBuf :=
  app.selectedProgram.map (·.path)

/-- `select_next` -/
def selectNext : App PathBuf :=
  if app.programs = [] then app
  else { app with selected := (app.selected + 1) % app.programs.length }

/-- `select_prev` -/
def selectPrev : App PathBuf :=
  if app.programs = [] then app
  else { app with selected := (app.selected + app.programs.length - 1) % app.programs.length }

/-- `set_action` -/
def setAction (action : Action) : App PathBuf :=
  { app with action := action }

/-- `clear_output` -/
def clearOutput : App PathBuf :=
  { app with output := [], scroll := 0, status := "Output cleared.".toList }

/-- `append_output` -/
def appendOutput (lines : List Text) : App PathBuf :=
  { app with output := lines, scroll := 0 }

/-- `page_up` -/
def pageUp : App PathBuf :=
  { app with scroll := app.scroll - 10 }

/-- `page_down` -/
def pageDown : App PathBuf :=
  { app with scroll := min (app.scroll + 10) (app.output.length - 1) }

end App

/-! ## Commands -/

/-- `Key`. `toEnd` is `Key::End`. -/
inductive Key
  | char (c : Char)
  | enter
  | esc
  | up
  | down
  | left
  | right
  | pageUp
  | pageDown
  | home
  | toEnd
  | backTab
  | unknown
deriving DecidableEq, Repr

/-- What the files, the terminal and the processes answer in one round of the loop. -/
structure Round (PathBuf : Type) where
  draw : Except Text Unit
  key : Except Text (Option Key)
  createDirAll : PathBuf → Except Text Unit
  output : Command PathBuf → Except Text Output
  exitCode : Command PathBuf → Except Text (Option Int)
  leave : Except Text Unit
  reenter : Except Text Unit

/-- `str::lines`: a line ends at a newline, with the carriage return before it. -/
def textLines (text : Text) : List Text :=
  let pieces := text.splitOn '\n'
  let ended := pieces.dropLast.map fun line =>
    if line.getLast? = some '\r' then line.dropLast else line
  let last := pieces.getLastD []
  if last = [] then ended else ended ++ [last]

/-- `append_stream` -/
def appendStream (lines : List Text) (name data : Text) : List Text :=
  if data = [] then lines ++ [name ++ ": <empty>".toList]
  else lines ++ [name ++ [':']] ++ (textLines data).map ("  ".toList ++ ·)

section Runner
variable {PathBuf : Type} (paths : Paths PathBuf) (round : Round PathBuf) (waivm root : PathBuf)

/-- `prepare_file_for_action`: the file or the error, and `*lines`. -/
def prepareFileForAction (action : Action) (file : PathBuf) (lines : List Text) :
    Except Text PathBuf × List Text :=
  let extension := (paths.extension file).getD []
  if action ≠ .info ∨ extension = "waibc".toList then (.ok file, lines)
  else
    let cacheDir := paths.joinText root ".waivm-tui"
    match round.createDirAll cacheDir with
    | .error err => (.error err, lines)
    | .ok () =>
      let stem := (paths.fileStem file).getD "program".toList
      let output := paths.join cacheDir (paths.ofText (stem ++ ".waibc".toList))
      let lines := lines ++ ["$ ".toList ++ paths.display waivm ++ " asm ".toList ++
        paths.display file ++ " -o ".toList ++ paths.display output]
      let args := [paths.ofText "asm".toList, file, paths.ofText "-o".toList, output]
      match round.output ⟨waivm, args, root⟩ with
      | .error err => (.error err, lines)
      | .ok result =>
        if result.code ≠ some 0 then
          let lines := lines ++ ["assembler failed: ".toList ++ result.status]
          let lines := appendStream lines "stdout".toList result.stdout
          (.error "cannot create temporary bytecode".toList,
            appendStream lines "stderr".toList result.stderr)
        else (.ok output,
          lines ++ ["created temporary bytecode: ".toList ++ paths.display output, []])

/-- `execute` -/
def execute (action : Action) (file : PathBuf) : List Text :=
  match prepareFileForAction paths round waivm root action file [] with
  | (.error err, lines) => lines ++ ["error: ".toList ++ err]
  | (.ok fileForAction, lines) =>
    let lines := lines ++ ["$ ".toList ++ paths.display waivm ++ [' '] ++ action.cliCommand ++
      [' '] ++ paths.display fileForAction, []]
    match round.output ⟨waivm, [paths.ofText action.cliCommand, fileForAction], root⟩ with
    | .ok output =>
      let code := output.code.elim "signal".toList Printf.signed
      let lines := lines ++ ["exit code: ".toList ++ code]
      let lines := appendStream lines "stdout".toList output.stdout
      appendStream lines "stderr".toList output.stderr
    | .error err => lines ++ ["error: failed to execute waivm: ".toList ++ err,
        "hint: build the VM first or pass --waivm ./build/waivm".toList]

/-- `launch_debugger` -/
def launchDebugger (file : PathBuf) : Except Text Int :=
  (round.exitCode ⟨waivm, [paths.ofText "debug".toList, file], root⟩).map (·.getD 1)

/-- `suspend`: `result` is what the closure returns. -/
def suspend (result : Except Text Int) : Except Text Int := do
  round.leave
  round.reenter
  result

end Runner

/-! ## The loop -/

section Loop
variable {PathBuf : Type} (paths : Paths PathBuf)

/-- `execute_action` -/
def executeAction (round : Round PathBuf) (app : App PathBuf) (action : Action) : App PathBuf :=
  let app := app.setAction action
  match app.selectedProgram with
  | none => { app with status := "no program selected".toList }
  | some program =>
    let app := { app with
      lastCommand := paths.display app.waivm ++ [' '] ++ action.cliCommand ++ [' '] ++
        paths.display program.path
      status := "executed ".toList ++ action.label ++ " on ".toList ++ program.name }
    app.appendOutput (execute paths round app.waivm app.root action program.path)

/-- `handle_key`: the application, and the file to debug. -/
def handleKey (round : Round PathBuf) (app : App PathBuf) (key : Key) :
    App PathBuf × Option PathBuf :=
  match key with
  | .char 'q' | .esc => ({ app with shouldQuit := true }, none)
  | .char '?' | .char 'h' => ({ app with showHelp := !app.showHelp }, none)
  | .char 'j' | .down => (app.selectNext, none)
  | .char 'k' | .up => (app.selectPrev, none)
  | .right | .char ']' => ({ app with action := app.action.next }, none)
  | .left | .char '[' | .backTab => ({ app with action := app.action.prev }, none)
  | .pageUp => (app.pageUp, none)
  | .pageDown => (app.pageDown, none)
  | .home => ({ app with scroll := 0 }, none)
  | .toEnd => ({ app with scroll := app.output.length - 1 }, none)
  | .char 'c' => (app.clearOutput, none)
  | .char 'r' => (executeAction paths round app .run, none)
  | .char 't' => (executeAction paths round app .trace, none)
  | .char 'v' => (executeAction paths round app .verify, none)
  | .char 'd' => (executeAction paths round app .disassemble, none)
  | .char 'i' => (executeAction paths round app .info, none)
  | .enter => (executeAction paths round app app.action, none)
  | .char 'x' =>
    match app.selectedPath with
    | some path => ({ app with status := "launching interactive debugger".toList }, some path)
    | none => ({ app with status := "no program selected".toList }, none)
  | .unknown | .char _ => (app, none)

/-- What the loop does when the debugger is back. -/
def debuggerBack (app : App PathBuf) (debugFile : PathBuf) (code : Int) : App PathBuf :=
  let exited := "debugger exited with code ".toList ++ Printf.signed code
  { app with
    status := exited
    output := ["$ ".toList ++ paths.display app.waivm ++ " debug ".toList ++
      paths.display debugFile, exited] }

/-- The application, and the number of the round that comes. -/
structure TuiState (PathBuf : Type) where
  app : App PathBuf
  round : Nat

/-- One round of the loop of `run`. -/
def tuiRound (rounds : Nat → Round PathBuf) (s : TuiState PathBuf) :
    Outcome (TuiState PathBuf) (Except Text Unit) :=
  let round := rounds s.round
  match round.draw with
  | .error err => .done (.error err)
  | .ok () =>
    if s.app.shouldQuit then .done (.ok ())
    else
      match round.key with
      | .error err => .done (.error err)
      | .ok none => .next { app := s.app, round := s.round + 1 }
      | .ok (some key) =>
        match handleKey paths round s.app key with
        | (app, none) => .next { app := app, round := s.round + 1 }
        | (app, some debugFile) =>
          match suspend round (launchDebugger paths round app.waivm app.root debugFile) with
          | .error err => .done (.error err)
          | .ok code => .next { app := debuggerBack paths app debugFile code, round := s.round + 1 }

/-- The state before the first round. -/
def tuiStart (app : App PathBuf) : TuiState PathBuf where
  app := app
  round := 0

end Loop

end Waivm.Tui
