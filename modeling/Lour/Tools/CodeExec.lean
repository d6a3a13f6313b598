import Lour.Tools.Registry
/-!
# `code_exec`

The tool runs a snippet in the sandbox and packs what came back into its result.
-/

namespace Lour.Tools

open Lour.Lib.Python

/-- What one run of the sandbox comes to. -/
structure SandboxResult where
  ok : Bool
  stdout : String := ""
  stderr : String := ""
  exitCode : Option Int := none
  timedOut : Bool := false
  durationMs : PyFloat := .zero

namespace SandboxResult

variable (self : SandboxResult)

def exitCodeJson : Json :=
  match self.exitCode with
  | some code => .int code
  | none => .null

/-- What the caller is meant to see of the run. -/
def output : Dict :=
  [("stdout", .str self.stdout), ("stderr", .str self.stderr), ("exit_code", self.exitCodeJson)]

def payload : Dict := self.output ++ [("timed_out", .bool self.timedOut)]

/-- `f"exited with code {result.exit_code}"`, or the timeout. -/
def reason : String :=
  if self.timedOut then "timed out"
  else "exited with code " ++
    match self.exitCode with
    | some code => toString code
    | none => "None"

end SandboxResult

/-- `CodeExecTool.execute`, from the sandbox's result on. -/
def codeExecResult (result : SandboxResult) : ToolResult :=
  if result.ok then
    .success (.obj result.payload) [("duration_ms", .float result.durationMs)]
  else
    { ok := false, data := .obj result.payload, error := some ("code_exec " ++ result.reason) }

end Lour.Tools
