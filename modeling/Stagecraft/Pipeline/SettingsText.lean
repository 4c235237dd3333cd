import Stagecraft.Keyed
import Stagecraft.Pipeline.Settings

/-!
# Settings as text

A settings text has one `key = value` entry a line, beside blank lines and comments from `#` on.
A value is a string in quotes without escapes, a truth value or a number. Unknown keys are ignored,
but every line must be well formed and no key may come twice. Control characters other than the tab
have no place in a text, not even in a comment.
-/

namespace Stagecraft.Pipeline

/-- The value of an entry. -/
inductive SettingValue where
  | string (s : String)
  | bool (b : Bool)
  | integer (n : Int)
  /-- A number with decimal places, which no setting takes. -/
  | fraction
deriving DecidableEq

namespace SettingsText

/-- Spaces and tabs. -/
def isBlank (c : Char) : Bool := c == ' ' || c == '\t'

/-- The characters of a key. -/
def isKeyChar (c : Char) : Bool := c.isAlphanum || c == '_' || c == '-'

/-- A text without the blanks in front. -/
def trimmed (cs : List Char) : List Char := cs.dropWhile isBlank

/-- Control characters other than the tab. -/
def isControl (c : Char) : Bool := (c.toNat < 32 && c != '\t') || c.toNat == 127

/-- Whether nothing but blanks and a comment is left of a line. -/
def isRest (cs : List Char) : Bool :=
  match trimmed cs with
  | [] => true
  | c :: rest => c == '#' && !rest.any isControl

/-- The characters up to the closing quote, and what follows it. -/
def quotedRest : List Char → Option (List Char × List Char)
  | [] => none
  | '"' :: rest => some ([], rest)
  | c :: rest =>
    if c == '\\' || isControl c then none
    else (quotedRest rest).map fun r => (c :: r.1, r.2)

/-- Digits with single underscores between them, as digits alone. -/
def digits? : List Char → Option (List Char)
  | [] => none
  | [c] => if c.isDigit then some [c] else none
  | c :: '_' :: rest => if c.isDigit then (digits? rest).map (c :: ·) else none
  | c :: rest => if c.isDigit then (digits? rest).map (c :: ·) else none

/-- Digits that begin with a zero only if they are a single zero. -/
def whole? (cs : List Char) : Option Nat := do
  let ds ← digits? cs
  if ds.head? = some '0' ∧ ds ≠ ['0'] then none
  else return ds.foldl (fun n c => 10 * n + (c.toNat - 48)) 0

/-- An integer that fits in 128 bits: with a sign bit if it is negative, without one otherwise. -/
def wide? (negative : Bool) (n : Nat) : Option SettingValue :=
  if negative then
    if n ≤ Number.twoTo 127 then some (.integer (-n)) else none
  else if n < Number.twoTo 128 then some (.integer n) else none

/-- A number without its sign. -/
def unsigned? (negative : Bool) (cs : List Char) : Option SettingValue :=
  match cs.span (· != '.') with
  | (front, []) => do wide? negative (← whole? front)
  | (front, _ :: places) => do
    let _ ← whole? front
    let _ ← digits? places
    return .fraction

/-- A word: a truth value or a number. -/
def word? (cs : List Char) : Option SettingValue :=
  match cs with
  | ['t', 'r', 'u', 'e'] => some (.bool true)
  | ['f', 'a', 'l', 's', 'e'] => some (.bool false)
  | '-' :: rest => unsigned? true rest
  | '+' :: rest => unsigned? false rest
  | cs => unsigned? false cs

/-- A value up to the end of its line. -/
def value? (cs : List Char) : Option SettingValue :=
  match cs with
  | '"' :: rest => do
    let (s, rest) ← quotedRest rest
    if isRest rest then return .string (String.ofList s) else none
  | cs =>
    let (word, rest) := cs.span fun c => !isBlank c && c != '#'
    if isRest rest then word? word else none

/-- The entry on a line: `none` if the line is malformed, `some none` if it has no entry. -/
def entry? (line : List Char) : Option (Option (String × SettingValue)) :=
  if isRest line then some none
  else
    let (key, rest) := (trimmed line).span isKeyChar
    match key, trimmed rest with
    | _ :: _, '=' :: rest => (value? (trimmed rest)).map fun v => some (String.ofList key, v)
    | _, _ => none

/-- Lines without the carriage return that may end each one but the last. -/
def withoutReturns : List (List Char) → List (List Char)
  | [] => []
  | [last] => [last]
  | l :: rest => (if l.getLast? = some '\r' then l.dropLast else l) :: withoutReturns rest

/-- The lines of a text, without their line breaks: a line feed, or a carriage return before one. -/
def lines (s : String) : List (List Char) := withoutReturns (s.toList.splitOn '\n')

/-- The entries of a text, if every line is well formed and no key comes twice. -/
def entries? (s : String) : Option (List (String × SettingValue)) := do
  let entries ← (lines s).mapM entry?
  let entries := entries.filterMap id
  if (Keyed.keys entries).Nodup then some entries else none

end SettingsText

namespace Settings

/-- The settings with one entry taken over; unknown keys change nothing, and a value of the wrong
type is refused. -/
def withEntry? (s : Settings) : String × SettingValue → Option Settings
  | ("namespace", .string v) => some { s with nspace := v }
  | ("debug", .bool v) => some { s with debug := v }
  | ("unfold_limit", .integer v) =>
    if 0 ≤ v ∧ v < Number.twoTo 64 then some { s with unfoldLimit := v.toNat } else none
  | (key, _) => if key ∈ ["namespace", "debug", "unfold_limit"] then none else some s

/-- Read settings from a text; those that it does not give are standard. -/
def parse? (s : String) : Option Settings := do
  (← SettingsText.entries? s).foldlM withEntry? standard

/-- A character of a string value. -/
def valueChar (c : Char) : List Char := if c = '\t' then ['\\', 't'] else [c]

/-- Write settings as a text. -/
def text (s : Settings) : String :=
  "namespace = \"" ++ String.ofList (s.nspace.toList.flatMap valueChar) ++ "\"\n" ++
  "debug = " ++ Literal.boolText s.debug ++ "\n" ++
  "unfold_limit = " ++ toString s.unfoldLimit ++ "\n"

end Settings

end Stagecraft.Pipeline
