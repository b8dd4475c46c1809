/-!
# Help

What the program says about its own use.
-/

namespace GuardLint.Command

/-- How the program is called. -/
def usage : String :=
  "usage: precondfix [-h] [--config CONFIG] [--apply] [--diff] [--json]\n" ++
  "                  [--severity \x7boff,suggestion,warning,error\x7d] [--test-only]\n" ++
  "                  [--no-skip-generated] [-v]\n" ++
  "                  paths [paths ...]\n"

/-- What the program does, and what each option means. -/
def help : String :=
  usage ++
  "\n" ++
  "Rewrite precondition calls with eagerly built messages into conditional throws\n" ++
  "\n" ++
  "positional arguments:\n" ++
  "  paths                 Java source files or directories to scan\n" ++
  "\n" ++
  "options:\n" ++
  "  -h, --help            show this help message and exit\n" ++
  "  --config CONFIG       Path to a JSON config file (default: ./precondfix.json\n" ++
  "                        if present)\n" ++
  "  --apply               Rewrite files in place with the suggested fixes\n" ++
  "  --diff                Print a unified diff of the suggested fixes\n" ++
  "  --json                Emit diagnostics as JSON\n" ++
  "                        (phase/code/message/severity/file/line/column/fix)\n" ++
  "  --severity \x7boff,suggestion,warning,error\x7d\n" ++
  "                        Override the configured severity ('off' disables the\n" ++
  "                        check)\n" ++
  "  --test-only           Treat every input as test code\n" ++
  "  --no-skip-generated   Also check generated sources (@Generated classes and\n" ++
  "                        generated globs)\n" ++
  "  -v, --verbose         Log debug output (gate decisions, skipped files)\n" ++
  "\n" ++
  "Java syntax outside the supported subset (the whole file is reported as a\n" ++
  "syntax error and left unchanged):\n" ++
  "  records, switch expressions and arrow cases, instanceof patterns,\n" ++
  "  text blocks, sealed/permits clauses, module declarations\n"

end GuardLint.Command
