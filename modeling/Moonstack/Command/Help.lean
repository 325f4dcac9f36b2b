/-!
# Help

What the command says about itself.
-/

namespace Moonstack.Help

/-- The answer to the question for the version. -/
def version : String := "wasm2lua 0.1.0\n"

/-- How the command is called. -/
def usage : String := "Usage: wasm2lua [OPTIONS] <INPUT>"

/-- What the command is for. -/
def purpose : String :=
  "WebAssembly to Lua translator with register allocation and setjmp/longjmp support"

/-! ## Options -/

/-- An option with what is said about it. -/
structure Entry where
  name : String
  short : List String
  full : List String := short

/-- An option with a default value, which in full has a paragraph of its own. -/
def Entry.withDefault (name about value : String) : Entry :=
  { name, short := [s!"{about} [default: {value}]"], full := [about, "", s!"[default: {value}]"] }

/-- All options, in the order they are listed in. -/
def options : List Entry :=
  [{ name := "  -o, --output <OUTPUT>", short := ["Output Lua source file"] },
    { name := "      --whitelist <WHITELIST>",
      short := ["Keep only these functions (by name or export name)"] },
    { name := "      --compile-flags <COMPILE_FLAGS>",
      short := ["Feature toggles, e.g. correct-multiply,debug-stack"] },
    { name := "      --jmp-stream-threshold <JMP_STREAM_THRESHOLD>",
      short := ["Bisect branch tables with more targets than this"] },
    { name := "      --register-strategy <REGISTER_STRATEGY>",
      short := ["[default: pooled] [possible values: virtual, pooled]"],
      full := ["Possible values:", "- virtual: A fresh Lua local per value",
        "- pooled:  Reuse released locals", "", "[default: pooled]"] },
    .withDefault "      --br-table-limit <BR_TABLE_LIMIT>"
      "Reject functions with larger branch tables" "1000",
    .withDefault "      --max-function-instructions <MAX_FUNCTION_INSTRUCTIONS>"
      "Reject functions with more instructions" "1000000",
    { name := "  -v, --verbose", short := ["Log everything down to trace level"] },
    { name := "  -h, --help", short := ["Print help (see more with '--help')"],
      full := ["Print help (see a summary with '-h')"] },
    { name := "  -V, --version", short := ["Print version"] }]

/-! ## Lines -/

/-- A line about what stands in front of it. -/
def indented (line : String) : String := if line.isEmpty then "" else "          " ++ line

/-- The lines about the input. -/
def input (full : Bool) : List String :=
  if full then ["  <INPUT>", indented "Input WebAssembly binary (.wasm)"]
  else ["  <INPUT>  Input WebAssembly binary (.wasm)"]

/-- The lines about an option. -/
def entryLines (full : Bool) (e : Entry) : List String :=
  e.name :: (if full then e.full else e.short).map indented

/-- The lines about the options, with a blank line between two of them in full. -/
def optionLines (full : Bool) : List String :=
  (if full then [""] else []).intercalate (options.map (entryLines full))

/-- What is said about the command, in short or in full. -/
def text (full : Bool) : String :=
  "\n".intercalate ([purpose, "", usage, "", "Arguments:"] ++ input full ++
    ["", "Options:"] ++ optionLines full) ++ "\n"

end Moonstack.Help
