/-!
# Command-line help

The help pages of the command-line tool. A page gives the command's purpose,
its usage line, and sections of arguments, subcommands and options; in each
section the descriptions start in one column, two spaces after the longest
entry. Options without a short form are indented as if they had one.
-/
namespace HashFile

namespace Cli

/-- The tool's name as the usage lines show it. -/
def toolName : String := "atlasdbm"

/-- The tool's version line. -/
def versionText : String := toolName ++ " 0.1.0\n"

/-- A section of a help page: entries and their descriptions, aligned. -/
def helpSection (title : String) (rows : List (String × String)) : String :=
  let width := rows.foldl (fun w r => max w r.1.length) 0
  title ++ ":\n" ++ String.join (rows.map fun (entry, text) =>
    "  " ++ entry ++ String.ofList (List.replicate (width - entry.length + 2) ' ') ++ text ++ "\n")

/-- The subcommands, their argument names and what they do. -/
def commandTable : List (String × List String × String) :=
  [("get", ["<KEY>"], "Get a value by key"),
   ("set", ["<KEY>", "<VALUE>"], "Set a key-value pair"),
   ("del", ["<KEY>"], "Delete a key"),
   ("keys", [], "List every key"),
   ("dump", [], "Print every key/value pair, tab separated"),
   ("len", [], "Count records"),
   ("reorganize", [], "Rewrite the file without dead space"),
   ("version", [], "Print library and format version")]

/-- What the help subcommand does. -/
def helpAbout : String := "Print this message or the help of the given subcommand(s)"

/-- The page of the tool itself. -/
def mainHelp : String :=
  "Embedded dbm-style key-value store\n\nUsage: " ++ toolName ++ " [OPTIONS] <COMMAND>\n\n" ++
  helpSection "Commands" (commandTable.map (fun (n, _, about) => (n, about)) ++ [("help", helpAbout)]) ++
  "\n" ++
  helpSection "Options" [
    ("-f, --file <FILE>", "Database file [default: ./atlasdbm.db]"),
    ("    --reader", "Open read-only (shared lock)"),
    ("    --sync", "Sync to disk after every mutation"),
    ("    --no-lock", "Skip advisory file locking"),
    ("-b, --block-size <BLOCK_SIZE>", "Block size when creating a new file [default: 2048]"),
    ("-h, --help", "Print help"),
    ("-V, --version", "Print version")]

/-- What a subcommand's argument is. -/
def argumentText : String → String → String
  | "get", "<KEY>" => "The key to get"
  | "set", "<KEY>" => "The key to set"
  | "set", "<VALUE>" => "The value to set"
  | "del", "<KEY>" => "The key to delete"
  | _, _ => ""

/-- The page of a subcommand. -/
def commandHelp (name : String) : Option String :=
  if name = "help" then
    some (helpAbout ++ "\n\nUsage: " ++ toolName ++ " help [COMMAND]...\n\n" ++
      helpSection "Arguments" [("[COMMAND]...", "Print help for the subcommand(s)")])
  else
    (commandTable.find? fun (n, _, _) => n = name).map fun (n, args, about) =>
      let usage := "Usage: " ++ toolName ++ " " ++ " ".intercalate (n :: args) ++ "\n\n"
      let arguments :=
        if args.isEmpty then "" else helpSection "Arguments" (args.map fun a => (a, argumentText n a)) ++ "\n"
      about ++ "\n\n" ++ usage ++ arguments ++ helpSection "Options" [("-h, --help", "Print help")]

end Cli

end HashFile
