/-
This file holds what an emitted script relies on: four helpers on one namespace
object. A script either carries the text of the support module in front of it,
or requires the module from a path when it starts.
-/

import TreeScript.Script.Literal

namespace TreeScript.Script

/-- The object on which the helpers live. -/
def supportName : String := "__rinha"

/-- The helpers of the support module. -/
inductive Helper where
  | printCustom | print | memoize | executeIf
deriving DecidableEq, Repr

namespace Helper

def all : List Helper := [printCustom, print, memoize, executeIf]

def name : Helper → String
  | printCustom => "printCustom"
  | print => "print"
  | memoize => "memoize"
  | executeIf => "executeIf"

/-- The name by which a script calls a helper. -/
def qualified (helper : Helper) : String :=
  supportName ++ "." ++ helper.name

end Helper

/-- The lines of the support module. -/
def supportLines : List String :=
  [ "// Runtime support for compiled programs.",
    "//",
    "// Everything lives on the `__rinha` namespace so generated code never collides with",
    "// program identifiers. The same file is embedded as the prologue of self-contained output",
    "// and can be loaded with `require` when the output links against it instead.",
    "const __rinha = (() => \x7b",
    "  // One cache per program run, shared by every memoized call site.",
    "  const cache = new Map();",
    "  const KEY_SEPARATOR = \"_\";",
    "",
    "  function printCustom(value) \x7b",
    "    switch (typeof value) \x7b",
    "      case \"string\":",
    "      case \"number\":",
    "      case \"boolean\":",
    "        return value;",
    "      case \"function\":",
    "        return \"<#closure>\";",
    "      case \"object\":",
    "        if (",
    "          Array.isArray(value) &&",
    "          value.length === 2 &&",
    "          value[0] !== undefined &&",
    "          value[1] !== undefined",
    "        ) \x7b",
    "          return `($\x7bprintCustom(value[0])\x7d, $\x7bprintCustom(value[1])\x7d)`;",
    "        \x7d",
    "        return \"ERRO\";",
    "      default:",
    "        return value;",
    "    \x7d",
    "  \x7d",
    "",
    "  function print(value) \x7b",
    "    console.log(printCustom(value));",
    "    return value;",
    "  \x7d",
    "",
    "  function memoize(fn, fnName, ...args) \x7b",
    "    const key = `$\x7bfnName\x7d$\x7bKEY_SEPARATOR\x7d$\x7bargs.join(KEY_SEPARATOR)\x7d`;",
    "    if (cache.has(key)) \x7b",
    "      return cache.get(key);",
    "    \x7d",
    "",
    "    const result = fn(...args);",
    "    cache.set(key, result);",
    "    return result;",
    "  \x7d",
    "",
    "  function executeIf(condition, then, otherwise) \x7b",
    "    if (condition()) \x7b",
    "      return then();",
    "    \x7d",
    "    return otherwise();",
    "  \x7d",
    "",
    "  return \x7b printCustom, print, memoize, executeIf \x7d;",
    "\x7d)();",
    "",
    "if (typeof module !== \"undefined\" && module.exports) \x7b",
    "  module.exports = __rinha;",
    "\x7d" ]

def supportText : String :=
  String.join (supportLines.map (· ++ "\n"))

/-- How a script gets hold of the support module. -/
inductive Linkage where
  /-- The script carries the module. -/
  | inline
  /-- The script requires the module from a path. -/
  | require (path : String)
deriving DecidableEq, Repr

/-- The text in front of a program. -/
def Linkage.prologue : Linkage → String
  | inline => supportText
  | require path => "const " ++ supportName ++ " = require(" ++ literal path ++ ");\n"

end TreeScript.Script
