import EnvManifest.Builtin.Basic

/-!
# Functions that are not written in an expression

The names of the functions that every expression finds in the table of globals, and of those that
only other functions give out.
-/

namespace EnvManifest.Script

inductive Native where
  | assert | error | getmetatable | ipairs | load | next | pairs | pcall | print | rawequal | rawget
  | rawlen | rawset | select | setmetatable | tonumber | tostring | type | xpcall
  | byte | char | format | len | lower | rep | reverse | sub | upper
  | concat | insert | pack | remove | unpack
  | abs | ceil | floor | fmod | max | min | modf | sqrt | tointeger | kind | ult
  /-- The step of a loop over a list. -/
  | nextItem
  /-- What a table that cannot be changed does when it is assigned to. -/
  | refuseChange
  | builtin (b : Builtin)
deriving DecidableEq, Repr

namespace Native

/-- The name from the table of globals on. -/
def name : Native → String
  | assert => "assert"
  | error => "error"
  | getmetatable => "getmetatable"
  | ipairs => "ipairs"
  | load => "load"
  | next => "next"
  | pairs => "pairs"
  | pcall => "pcall"
  | print => "print"
  | rawequal => "rawequal"
  | rawget => "rawget"
  | rawlen => "rawlen"
  | rawset => "rawset"
  | select => "select"
  | setmetatable => "setmetatable"
  | tonumber => "tonumber"
  | tostring => "tostring"
  | type => "type"
  | xpcall => "xpcall"
  | byte => "string.byte"
  | char => "string.char"
  | format => "string.format"
  | len => "string.len"
  | lower => "string.lower"
  | rep => "string.rep"
  | reverse => "string.reverse"
  | sub => "string.sub"
  | upper => "string.upper"
  | concat => "table.concat"
  | insert => "table.insert"
  | pack => "table.pack"
  | remove => "table.remove"
  | unpack => "table.unpack"
  | abs => "math.abs"
  | ceil => "math.ceil"
  | floor => "math.floor"
  | fmod => "math.fmod"
  | max => "math.max"
  | min => "math.min"
  | modf => "math.modf"
  | sqrt => "math.sqrt"
  | tointeger => "math.tointeger"
  | kind => "math.type"
  | ult => "math.ult"
  | nextItem => "?"
  | refuseChange => "?"
  | builtin b => b.name

/-- The functions of the language itself. -/
def standard : List Native :=
  [assert, error, getmetatable, ipairs, load, next, pairs, pcall, print, rawequal, rawget, rawlen,
    rawset, select, setmetatable, tonumber, tostring, type, xpcall, byte, char, format, len, lower,
    rep, reverse, sub, upper, concat, insert, pack, remove, unpack, abs, ceil, floor, fmod, max, min,
    modf, sqrt, tointeger, kind, ult]

end Native

end EnvManifest.Script
