import PipeCompiler.Text.Bytes

/-! The library functions that every program can call, and the text of the module that has them. -/
namespace PipeCompiler.Library

structure Entry where
  name : String
  signature : String
deriving DecidableEq, Repr

def entries : List Entry :=
  [⟨"filter", "filter(list, fn(item, index) -> bool) -> list"⟩,
    ⟨"len", "len(listOrString) -> number"⟩,
    ⟨"map", "map(list, fn(item, index) -> value) -> list"⟩,
    ⟨"print", "print(...values)"⟩,
    ⟨"range", "range(start, end) -> list"⟩,
    ⟨"reduce", "reduce(list, fn(acc, item, index) -> acc, initial) -> value"⟩,
    ⟨"sum", "sum(list) -> number"⟩]

def names : List Bytes :=
  entries.map fun entry => Bytes.ofString entry.name

def isName (name : Bytes) : Bool :=
  names.contains name

/-- The name under which generated modules import the library. -/
def namespaceName : Bytes := "runtime"

def moduleSpecifier : Bytes := "./runtime.mjs"

def fileName : Bytes := "runtime.mjs"

def sourceLines : List String :=
  ["// Runtime library for generated pipelang programs.",
   "",
   "function typeName(value) \x7b",
   "  if (value === null || value === undefined) return 'null';",
   "  if (Array.isArray(value)) return 'list';",
   "  return typeof value;",
   "\x7d",
   "",
   "function expectList(fnName, value) \x7b",
   "  if (!Array.isArray(value)) \x7b",
   "    throw new TypeError(`$\x7bfnName\x7d: expected a list, got $\x7btypeName(value)\x7d`);",
   "  \x7d",
   "\x7d",
   "",
   "function expectNumber(fnName, value) \x7b",
   "  if (typeof value !== 'number' || Number.isNaN(value)) \x7b",
   "    throw new TypeError(`$\x7bfnName\x7d: expected a number, got $\x7btypeName(value)\x7d`);",
   "  \x7d",
   "\x7d",
   "",
   "function format(value) \x7b",
   "  if (value === undefined || value === null) return 'null';",
   "  if (Array.isArray(value)) return '[' + value.map(format).join(', ') + ']';",
   "  if (typeof value === 'function') return '<fn>';",
   "  return String(value);",
   "\x7d",
   "",
   "export function print(...values) \x7b",
   "  console.log(values.map(format).join(' '));",
   "\x7d",
   "",
   "export function len(value) \x7b",
   "  if (typeof value === 'string' || Array.isArray(value)) \x7b",
   "    return value.length;",
   "  \x7d",
   "  throw new TypeError(`len: expected a list or string, got $\x7btypeName(value)\x7d`);",
   "\x7d",
   "",
   "export function map(list, fn) \x7b",
   "  expectList('map', list);",
   "  return list.map((item, index) => fn(item, index));",
   "\x7d",
   "",
   "export function filter(list, fn) \x7b",
   "  expectList('filter', list);",
   "  return list.filter((item, index) => fn(item, index));",
   "\x7d",
   "",
   "export function reduce(list, fn, initial) \x7b",
   "  expectList('reduce', list);",
   "  return list.reduce((acc, item, index) => fn(acc, item, index), initial);",
   "\x7d",
   "",
   "export function range(start, end) \x7b",
   "  expectNumber('range', start);",
   "  expectNumber('range', end);",
   "  const out = [];",
   "  for (let i = Math.trunc(start); i < end; i++) \x7b",
   "    out.push(i);",
   "  \x7d",
   "  return out;",
   "\x7d",
   "",
   "export function sum(list) \x7b",
   "  expectList('sum', list);",
   "  return list.reduce((acc, item) => acc + item, 0);",
   "\x7d"]

def source : Bytes :=
  sourceLines.flatMap fun line => Bytes.ofString line ++ "\n"

end PipeCompiler.Library
