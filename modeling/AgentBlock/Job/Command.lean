/-
AgentBlock/Job/Command.lean

The command of a run, as the shell reads it.

The program, the script, the root and the config file are quoted by `sq`; the
options between them are plain.  The shell splits the command into one word for
each argument (`command_reads`), and it reads nothing that was quoted as anything
but itself.
-/
import AgentBlock.Job.Run
import AgentBlock.Lib.ShellWords

namespace AgentBlock.Job

open ShellWords

/-- The words of a run's command: what was quoted, and the options. -/
def argumentWords (decl : Decl) (bin configPath : Option Bytes) : List Word :=
  [quoted (bin.getD defaultBin), bare (lit "-s"), quoted decl.path, bare (lit "-p"),
    quoted decl.cwd] ++
  configPath.toList.flatMap fun path => [bare (lit "--config"), quoted path]

/-- The arguments a run's process is started with, its program the first. -/
def arguments (decl : Decl) (bin configPath : Option Bytes) : List Bytes :=
  [bin.getD defaultBin, lit "-s", decl.path, lit "-p", decl.cwd] ++
  configPath.toList.flatMap fun path => [lit "--config", path]

theorem sq_eq_quote (s : Bytes) : sq s = quote s := by
  have hbyte : ∀ b : UInt8, (if b = 39 then lit "'\\''" else [b]) = quoteByte b := fun b => rfl
  show lit "'" ++ s.flatMap (fun b => if b = 39 then lit "'\\''" else [b]) ++ lit "'" = _
  rw [funext hbyte]
  rfl

theorem reads_sq (s : Bytes) : Reads (sq s) (quoted s) := by
  rw [sq_eq_quote]
  exact reads_quote s

/-- The options stand in the command as they are. -/
theorem reads_option {s : Bytes} (h : s = lit "-s" ∨ s = lit "-p" ∨ s = lit "--config") :
    Reads s (bare s) := by
  apply reads_bare
  · rcases h with rfl | rfl | rfl <;> decide
  · rcases h with rfl | rfl | rfl <;> decide

theorem text_argumentWords (decl : Decl) (bin configPath : Option Bytes) :
    (argumentWords decl bin configPath).map Word.text = arguments decl bin configPath := by
  cases configPath <;> simp [argumentWords, arguments]

/-- Each part of the command reads as its word. -/
theorem reads_parts (decl : Decl) (bin configPath : Option Bytes) :
    List.Forall₂ Reads
      ([sq (bin.getD defaultBin), lit "-s", sq decl.path, lit "-p", sq decl.cwd] ++
        configPath.toList.flatMap fun path => [lit "--config", sq path])
      (argumentWords decl bin configPath) := by
  have hconfig : List.Forall₂ Reads
      (configPath.toList.flatMap fun path => [lit "--config", sq path])
      (configPath.toList.flatMap fun path => [bare (lit "--config"), quoted path]) := by
    cases configPath with
    | none => exact .nil
    | some path => exact .cons (reads_option (by simp)) (.cons (reads_sq path) .nil)
  exact .cons (reads_sq _) (.cons (reads_option (by simp)) (.cons (reads_sq _)
    (.cons (reads_option (by simp)) (.cons (reads_sq _) hconfig))))

theorem split_command (decl : Decl) (bin configPath : Option Bytes) :
    split (command decl bin configPath) = some (argumentWords decl bin configPath) := by
  have hparts : command decl bin configPath = [32].intercalate
      ([sq (bin.getD defaultBin), lit "-s", sq decl.path, lit "-p", sq decl.cwd] ++
        configPath.toList.flatMap fun path => [lit "--config", sq path]) := by
    cases configPath <;> rfl
  rw [hparts]
  exact split_intercalate (reads_parts decl bin configPath)

/-- **The shell reads a run's command back as its arguments**, and whatever a
declaration has in it as nothing else: all of it is quoted. -/
theorem command_reads (decl : Decl) (bin configPath : Option Bytes) :
    split (command decl bin configPath) = some (argumentWords decl bin configPath) ∧
      (split (command decl bin configPath)).map (·.map Word.text) =
        some (arguments decl bin configPath) := by
  have hsplit := split_command decl bin configPath
  refine ⟨hsplit, ?_⟩
  rw [hsplit, Option.map_some, text_argumentWords]

end AgentBlock.Job
