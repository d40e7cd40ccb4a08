import Rigor.Cli.Check.Pipeline
import Rigor.Rust.Lines

/-!
# The audit of the rule tokens

`rule_token_warnings` of `config_audit.rs`: the `disable:` tokens and the `severity_overrides:` keys that
reach no row, each with its reason.
-/

namespace Rigor.Cli.Config

open Rigor.Rules.Suppression Rigor.Rust

/-! ## Reasons -/

/-- `PLUGIN_LOADER_ROWS`. -/
def pluginLoaderRows : List Text :=
  ["plugin_loader.load-error", "plugin_loader.runtime-error"].map String.toList

/-- `SEVERITY_ONLY_IDS`. -/
def severityOnlyIds : List Text :=
  ["fallback", "return-type-collapse", "exceptional-disagreement",
    "lower-tier-contradiction"].map String.toList

/-- `RESERVED_RUN_LEVEL_FAMILIES`. -/
def reservedRunLevelFamilies : List Text :=
  ["plugin_loader", "plugin_trust", "rbs.coverage", "dynamic.dependency-source"].map String.toList

/-- `RESERVED_RUN_LEVEL_IDS`. -/
def reservedRunLevelIds : List Text :=
  ["load-error", "runtime-error", "pool-degraded"].map String.toList

/-- The token is the name, or goes on after it with a dot. -/
def under (name token : Text) : Bool :=
  token = name || ((Text.stripPrefix name token).any fun rest => rest.head? = some '.')

/-- `plausible`. -/
def plausibleId (rest : Text) (ids : List Text) : Bool :=
  ids.any fun id => under id rest

/-- The reason of a `plugin.` token that no configured plugin answers to. -/
def pluginTokenProblem (reason rest : Text) (pluginIds : Option (List Text)) : Option Text :=
  match pluginIds with
  | some ids => if plausibleId rest ids then none else some reason
  | none => none

def overrideKeyProblem (key : Text) (pluginIds : Option (List Text)) : Option Text :=
  let unknown := "is not a recognized rule id; the override has no effect".toList
  if key = "all".toList then some unknown
  else if isEffectiveDisableToken key then none
  else
    match Text.stripPrefix "plugin.".toList key with
    | some rest =>
        pluginTokenProblem "names no plugin `plugins:` configures; the override has no effect".toList rest
          pluginIds
    | none =>
        if "plugin_loader.".toList.isPrefixOf key then
          if key ∈ pluginLoaderRows then none else some unknown
        else if isInertBuiltinToken key then some unknown
        else if !isNonCheckEngineToken key && key ∉ severityOnlyIds then
          some (unknown ++ " (if this is a plugin's rule, write it as `plugin.<id>.<rule>`)".toList)
        else none

def disableTokenProblem (token : Text) (pluginIds : Option (List Text)) : Option Text :=
  let unknown := "is not a recognized rule id; the suppression has no effect".toList
  if isEffectiveDisableToken token then none
  else if token ∈ reservedRunLevelIds || reservedRunLevelFamilies.any fun f => under f token then
    some ("names a run-level row, which `disable:` does not reach; ".toList ++
      "use `severity_overrides:` or a baseline".toList)
  else
    match Text.stripPrefix "plugin.".toList token with
    | some rest =>
        pluginTokenProblem "names no plugin `plugins:` configures; the suppression has no effect".toList rest
          pluginIds
    | none =>
        if isInertBuiltinToken token then some unknown
        else if !isNonCheckEngineToken token then
          some (unknown ++ " (if this is a plugin's rule, write it as `plugin.<id>.<rule>`)".toList)
        else none

/-- The reason of a `severity_overrides:` key; `present` are all the keys. -/
def overrideProblem (present : List Text) (pluginIds : Option (List Text)) (key : Text) : Option Text :=
  match legacyAlias key with
  | some canonical =>
      let reason := "is a legacy alias of `".toList ++ canonical ++ "`; the override has no effect".toList
      some (if canonical ∈ present then reason else reason ++ ", so write `".toList ++ canonical ++ ['`'])
  | none => overrideKeyProblem key pluginIds

/-! ## Warnings -/

def isRubyUnprintable (c : Char) : Bool :=
  let cp := c.toNat
  cp < 0x20 || (0x7f ≤ cp && cp ≤ 0x9f) || cp = 0x2028 || cp = 0x2029 ||
    (0xfdd0 ≤ cp && cp ≤ 0xfdef) || cp &&& 0xfffe = 0xfffe

/-- The escape of a character that is not printed. -/
def rubyEscape (cp : Nat) : Text :=
  let digits := (Nat.toDigits 16 cp).map Char.toUpper
  if cp < 0x10000 then ['\\', 'u'] ++ digits.leftpad 4 '0'
  else ['\\', 'u', '\x7b'] ++ digits ++ ['\x7d']

/-- One character between the quotes; a `#` is escaped in front of some others. -/
def rubyInspectChar (next : Option Char) (c : Char) : Text :=
  if c = '"' then ['\\', '"']
  else if c = '\\' then ['\\', '\\']
  else if c = '#' then
    if next = some '\x7b' || next = some '$' || next = some '@' then ['\\', '#'] else ['#']
  else if c = '\n' then ['\\', 'n']
  else if c = '\r' then ['\\', 'r']
  else if c = '\t' then ['\\', 't']
  else if c = '\x0c' then ['\\', 'f']
  else if c = '\x0b' then ['\\', 'v']
  else if c = '\x08' then ['\\', 'b']
  else if c = '\x07' then ['\\', 'a']
  else if c = '\x1b' then ['\\', 'e']
  else if isRubyUnprintable c then rubyEscape c.toNat
  else [c]

def rubyInspectChars : Text → Text
  | [] => []
  | c :: rest => rubyInspectChar rest.head? c ++ rubyInspectChars rest

def rubyStringInspect (s : Text) : Text :=
  ['"'] ++ rubyInspectChars s ++ ['"']

structure ConfigWarning where
  kind : Text
  message : Text

/-- `rule_token_warnings`, of the tokens and of the names of the keys. -/
def ruleTokenWarnings (disable overrides : List Text) (pluginIds : Option (List Text)) :
    List ConfigWarning :=
  (disable.filterMap fun token =>
    (disableTokenProblem token pluginIds).map fun reason =>
      ⟨"disabled_rule".toList, "disable: ".toList ++ rubyStringInspect token ++ [' '] ++ reason⟩) ++
  overrides.filterMap fun key =>
    (overrideProblem overrides pluginIds key).map fun reason =>
      ⟨"severity_override".toList,
        "severity_overrides: ".toList ++ rubyStringInspect key ++ [' '] ++ reason⟩

end Rigor.Cli.Config
