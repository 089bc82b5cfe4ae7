import ImportAlias.Text.Basic

/-!
# Help and version

What the command says about itself. The help is made of blocks, each of which is
written at once.
-/

namespace ImportAlias.Command

/-- Lines as a text. -/
def textOfLines (ls : List String) : Text := ls.flatMap fun l => l.toList ++ ['\n']

/-- What the command does and how it is called. -/
def introduction : List (List String) :=
  [["Rewrite relative ../ imports into alias-rooted paths", ""],
   ["Usage: aliasfix [OPTIONS] [ROOT]", ""]]

/-- The blocks of the short help after the introduction. -/
def shortHelp : List (List String) :=
  [["Arguments:",
    "  [ROOT]  Source root the alias stands for [default: src]",
    ""],
   ["Options:"],
   ["  -a, --alias <ALIAS>     Prefix written in place of the source root [default: @/]"],
   ["  -e, --ext <EXTENSIONS>  File extensions to scan (repeatable or comma-separated; " ++
     "default: ts,tsx,js,jsx)"],
   ["      --gitignore         Honor .gitignore and .ignore files while scanning"],
   ["  -I, --ignore <IGNORE>   Skip entries matching pattern (can be used multiple times)"],
   ["      --json              Output the run report as JSON"],
   ["      --color <WHEN>      Control color output: auto, always, never [default: auto] " ++
     "[possible values: auto, always, never]"],
   ["  -h, --help              Print help (see more with '--help')"],
   ["  -V, --version           Print version"]]

/-- The blocks of the long help after the introduction. -/
def longHelp : List (List String) :=
  [["Arguments:",
    "  [ROOT]",
    "          Source root the alias stands for",
    "          ",
    "          [default: src]",
    ""],
   ["Options:"],
   ["  -a, --alias <ALIAS>",
    "          Prefix written in place of the source root",
    "          ",
    "          [default: @/]",
    ""],
   ["  -e, --ext <EXTENSIONS>",
    "          File extensions to scan (repeatable or comma-separated; default: ts,tsx,js,jsx)",
    ""],
   ["      --gitignore",
    "          Honor .gitignore and .ignore files while scanning",
    ""],
   ["  -I, --ignore <IGNORE>",
    "          Skip entries matching pattern (can be used multiple times)",
    ""],
   ["      --json",
    "          Output the run report as JSON",
    ""],
   ["      --color <WHEN>",
    "          Control color output: auto, always, never",
    "",
    "          Possible values:"],
   ["          - auto:   Auto-detect based on terminal and environment"],
   ["          - always: Always use colors"],
   ["          - never:  Never use colors",
    "          ",
    "          [default: auto]",
    ""],
   ["  -h, --help",
    "          Print help (see a summary with '-h')",
    ""],
   ["  -V, --version",
    "          Print version"]]

/-- The help, at length or in short, block by block. -/
def helpBlocks (long : Bool) : List Text :=
  (introduction ++ if long then longHelp else shortHelp).map textOfLines

/-- The version. -/
def versionText : Text := "aliasfix 0.1.0\n".toList

end ImportAlias.Command
