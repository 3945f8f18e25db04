import LiquidTemplate.Text.Basic

/-!
# Help texts
-/

namespace LiquidTemplate

/-- What help can be asked for. -/
inductive Topic where
  | program
  | check
  | ast
  | help
deriving DecidableEq, Repr

namespace Topic

def programLines : List String :=
  ["Liquid HTML template parser",
   "",
   "Usage: liquid-html <COMMAND>",
   "",
   "Commands:",
   "  check  Check a .liquid file for structural errors",
   "  ast    Print the syntax tree of a .liquid file as JSON",
   "  help   Print this message or the help of the given subcommand(s)",
   "",
   "Options:",
   "  -h, --help     Print help",
   "  -V, --version  Print version"]

def checkLines : List String :=
  ["Check a .liquid file for structural errors",
   "",
   "Usage: liquid-html check <PATH>",
   "",
   "Arguments:",
   "  <PATH>  Input .liquid file",
   "",
   "Options:",
   "  -h, --help  Print help"]

def astLines : List String :=
  ["Print the syntax tree of a .liquid file as JSON",
   "",
   "Usage: liquid-html ast [OPTIONS] <PATH>",
   "",
   "Arguments:",
   "  <PATH>  Input .liquid file",
   "",
   "Options:",
   "  -p, --pretty  Indent the JSON output",
   "  -h, --help    Print help"]

def helpLines : List String :=
  ["Print this message or the help of the given subcommand(s)",
   "",
   "Usage: liquid-html help [COMMAND]...",
   "",
   "Arguments:",
   "  [COMMAND]...  Print help for the subcommand(s)"]

def lines : Topic → List String
  | program => programLines
  | check => checkLines
  | ast => astLines
  | help => helpLines

/-- The help text. -/
def text (t : Topic) : Text := ['\n'].intercalate (t.lines.map String.toList)

end Topic

/-- The name of the program and its version. -/
def versionText : Text := "liquid-html 0.1.0".toList

end LiquidTemplate
