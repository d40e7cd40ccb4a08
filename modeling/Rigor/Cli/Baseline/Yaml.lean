import Rigor.Cli.Baseline.Model
import Rigor.Cli.Baseline.Scalar

/-!
# The YAML text of a baseline

`to_yaml` and the line scanner that reads it.  A row accumulates its fields as raw
text, since a scalar may go on over the next lines, and decodes them when it is
flushed.
-/

namespace Rigor.Cli

open Rigor.Rust

/-- `CURRENT_VERSION`. -/
def currentVersion : Nat := 1

/-- `format!("{n}")`. -/
def natText (n : Nat) : Text :=
  Nat.toDigits 10 n

/-! ## Writing -/

namespace Baseline

variable {E : RegexEngine}

def rowYaml (U : UnicodeTables) (b : Bucket E) : Text :=
  pushKv U "- file: ".toList 2 b.file ++
    pushKv U "  rule: ".toList 2 b.rule ++
    (match b.message with
      | some message => pushKv U "  message: ".toList 2 message
      | none => []) ++
    "  count: ".toList ++ natText b.count ++ ['\n']

/-- `to_yaml`. -/
def toYaml (U : UnicodeTables) (baseline : Baseline E) : Text :=
  "---\n".toList ++ "version: ".toList ++ natText currentVersion ++ ['\n'] ++
    if baseline.buckets.isEmpty then "ignored: []\n".toList
    else "ignored:\n".toList ++ baseline.buckets.flatMap (rowYaml U)

end Baseline

/-! ## Fields -/

inductive Field where
  | file
  | rule
  | message
  | count
  | other
deriving DecidableEq, Repr

/-- One row field's accumulated value. -/
structure FieldVal where
  raw : Text := []
  kind : ScalarKind := .plain
  lines : List Text := []
  blockIndent : Option Nat := none
deriving DecidableEq, Repr

namespace FieldVal

def wasQuoted (fv : FieldVal) : Bool :=
  match fv.kind with
  | .doubleQuoted => true
  | .singleQuoted => true
  | _ => false

/-- Whether the raw text holds the closing quote of its kind. -/
def closed (fv : FieldVal) : Bool :=
  match fv.kind with
  | .doubleQuoted => dqClosed fv.raw
  | .singleQuoted => sqClosed fv.raw
  | _ => false

/-- The bytes of leading whitespace. -/
def indentOf (line : Text) : Nat :=
  Text.len line - Text.len (Text.trimStart line)

/-- The separator of a folded break. -/
def foldBreak (pending : Nat) : Text :=
  if 0 < pending then List.replicate pending '\n' else [' ']

/-- Join a continuation line to the value, after `pending` blank lines. -/
def extend (fv : FieldVal) (pending : Nat) (rawLine : Text) : FieldVal :=
  match fv.kind with
  | .plain => { fv with raw := fv.raw ++ foldBreak pending ++ Text.trim rawLine }
  | .doubleQuoted =>
      let front := Text.trimEnd fv.raw
      -- An odd run of backslashes at the end of the line escapes the break.
      let suppressed := (front.reverse.takeWhile (· = '\\')).length % 2 = 1
      { fv with
        raw := (if suppressed then front.dropLast else fv.raw ++ foldBreak pending) ++
          Text.trim rawLine }
  | .singleQuoted => { fv with raw := fv.raw ++ foldBreak pending ++ Text.trim rawLine }
  | .block _ _ =>
      let blockIndent := fv.blockIndent.getD (indentOf rawLine)
      { fv with
        blockIndent := some blockIndent
        lines := fv.lines ++ List.replicate pending [] ++
          [((Text.splitAt blockIndent rawLine).map Prod.snd).getD []] }

/-- `decode` of an accumulated value. -/
def decode (fv : FieldVal) : Text :=
  match fv.kind with
  | .block folded chomp => blockValue fv.lines folded chomp
  | _ => unyamlScalar fv.raw

/-- A plain scalar that loads as `nil`. -/
def isNull (text : Text) : Bool :=
  text.isEmpty || text = ['~'] || text.map Char.toLower = "null".toList

/-- The decoded value, unless it is null. -/
def decodedNonnull (fv : FieldVal) : Option Text :=
  if fv.kind = .plain ∧ isNull fv.decode then none else some fv.decode

end FieldVal

/-- `ruby_inspect`. -/
def rubyInspect (U : UnicodeTables) (decoded : Text) (quoted : Bool) : Text :=
  let lower := decoded.map Char.toLower
  if quoted then U.debug decoded
  else if FieldVal.isNull decoded then "nil".toList
  else if lower ∈ ["true".toList, "yes".toList, "on".toList] then "true".toList
  else if lower ∈ ["false".toList, "no".toList, "off".toList] then "false".toList
  else if (Text.parseI64 decoded).isSome || Text.parsesF64 decoded then decoded
  else U.debug decoded

/-! ## Rows -/

/-- The accumulator of one `ignored:` row. -/
structure RowAcc where
  idx : Nat
  file : Option FieldVal := none
  rule : Option FieldVal := none
  message : Option FieldVal := none
  count : Option FieldVal := none
  other : FieldVal := {}
  last : Option Field := none
  quoteOpen : Bool := false
  pendingBreaks : Nat := 0
deriving DecidableEq, Repr

namespace RowAcc

def fieldRef (acc : RowAcc) : Field → Option FieldVal
  | .file => acc.file
  | .rule => acc.rule
  | .message => acc.message
  | .count => acc.count
  | .other => none

/-- The value that `field_mut` borrows. -/
def fieldMut (acc : RowAcc) : Field → FieldVal
  | .file => acc.file.getD {}
  | .rule => acc.rule.getD {}
  | .message => acc.message.getD {}
  | .count => acc.count.getD {}
  | .other => acc.other

/-- A write through `field_mut`. -/
def setField (acc : RowAcc) (field : Field) (fv : FieldVal) : RowAcc :=
  match field with
  | .file => { acc with file := some fv }
  | .rule => { acc with rule := some fv }
  | .message => { acc with message := some fv }
  | .count => { acc with count := some fv }
  | .other => { acc with other := fv }

def decodedNonnull (acc : RowAcc) (field : Field) : Option Text :=
  (acc.fieldRef field).bind FieldVal.decodedNonnull

/-- The field that a key names. -/
def fieldOfKey (key : Text) : Field :=
  if key = "file".toList then .file
  else if key = "rule".toList then .rule
  else if key = "message".toList then .message
  else if key = "count".toList then .count
  else .other

/-- Write the head of a value to a field. -/
def assign (acc : RowAcc) (field : Field) (head : Text) (kind : ScalarKind) : RowAcc :=
  let fv : FieldVal := { raw := head, kind := kind }
  let acc := { acc with last := some field, pendingBreaks := 0 }
  if head = [] then { acc with quoteOpen := false }
  else { acc.setField field fv with quoteOpen := fv.wasQuoted && !fv.closed }

/-- `apply`: one `key: value` fragment. -/
def apply (U : UnicodeTables) (acc : RowAcc) (fragment label : Text) (rowHead : Bool) :
    Except Text RowAcc :=
  match Text.splitOnce ':' fragment with
  | none =>
      if rowHead then
        .error (label ++ ": ignored[".toList ++ natText acc.idx ++ "] must be a Hash".toList)
      else .error (label ++ ": malformed row entry ".toList ++ U.debug fragment)
  | some (key, value) =>
      let (head, kind) := scalarHead (Text.trimStart value)
      .ok (acc.assign (fieldOfKey (Text.trim key)) head kind)

/-- `continue_scalar`: feed a continuation line into the last field's scalar. -/
def continueScalar (acc : RowAcc) (rawLine : Text) : RowAcc :=
  match acc.last with
  | none => acc
  | some field =>
      let fv := (acc.fieldMut field).extend acc.pendingBreaks rawLine
      { acc.setField field fv with
        pendingBreaks := 0
        quoteOpen := acc.quoteOpen && !fv.closed }

/-- The reason of a compile error: what stands after its last `error:`. -/
def regexReason (full : Text) : Text :=
  Text.trim (((Text.rsplitOnce "error:".toList full).map Prod.snd).getD full)

def rowError (acc : RowAcc) (label reason : Text) : Text :=
  label ++ ": ignored[".toList ++ natText acc.idx ++ "] ".toList ++ reason

variable {E : RegexEngine}

/-- `into_bucket`. -/
def intoBucket (U : UnicodeTables) (acc : RowAcc) (label : Text) : Except Text (Bucket E) := do
  let file ←
    match acc.decodedNonnull .file with
    | some file => .ok file
    | none => .error (acc.rowError label "missing `file:`".toList)
  let rule ←
    match acc.decodedNonnull .rule with
    | some rule => .ok rule
    | none => .error (acc.rowError label "missing `rule:`".toList)
  let countDecoded := (acc.count.map FieldVal.decode).getD []
  let countOk := acc.count.any (fun fv => fv.kind = .plain) &&
    (Text.parseI64 countDecoded).any fun n => 0 < n
  if !countOk then
    let shown := rubyInspect U countDecoded (acc.count.any FieldVal.wasQuoted)
    .error (acc.rowError label ("`count:` must be a positive Integer (got ".toList ++ shown ++ [')']))
  else
    -- A positive `i64` fits `usize`.
    let count := (Text.parseU64 countDecoded).getD 0
    match acc.decodedNonnull .message with
    | some message =>
        match E.new message with
        | .error full =>
            .error (acc.rowError label ("`message:` is not a valid Regexp: ".toList ++
              regexReason full ++ ": /".toList ++ message ++ ['/']))
        | .ok _ => .ok (.messageRow file rule message count)
    | none => .ok (.ruleRow file rule count)

end RowAcc

/-! ## Documents -/

/-- The variables of the scanning loop. -/
structure Scan (E : RegexEngine) where
  version : Option (Text × Bool) := none
  buckets : List (Bucket E) := []
  cur : Option RowAcc := none
  inIgnored : Bool := false
  itemCol : Nat := 0
  memberCol : Nat := 0

namespace Scan

variable {E : RegexEngine}

/-- Push the pending row. -/
def flush (U : UnicodeTables) (scan : Scan E) (label : Text) : Except Text (Scan E) :=
  match scan.cur with
  | none => .ok scan
  | some acc => do
      let bucket ← acc.intoBucket U label
      .ok { scan with buckets := scan.buckets ++ [bucket], cur := none }

/-- A line without indentation: a key of the document. -/
def topLevel (U : UnicodeTables) (scan : Scan E) (trimmed label : Text) :
    Except Text (Scan E) :=
  if ':' ∉ trimmed then
    .error (label ++ ": expected a Hash at top level, got String".toList)
  else do
    let scan ← scan.flush U label
    let scan := { scan with inIgnored := false }
    match Text.stripPrefix "version:".toList trimmed, Text.stripPrefix "ignored:".toList trimmed with
    | some rest, _ =>
        let value := Text.trimStart rest
        let (head, kind) := scalarHead value
        .ok { scan with
          version := some (unyamlScalar head, kind ≠ .plain || value.head? = some '!') }
    | none, some rest =>
        let value := Text.trimStart rest
        let (inline, kind) := scalarHead value
        let isPlain := kind = .plain && value.head? ≠ some '!'
        let isNil :=
          if isPlain then
            inline.isEmpty || inline = ['~'] || inline.map Char.toLower = "null".toList
          else inline.isEmpty
        if !(isNil || (isPlain && inline = "[]".toList)) then
          .error (label ++ ": `ignored:` must be an Array".toList)
        else .ok { scan with inIgnored := isPlain && inline.isEmpty }
    | none, none => .ok scan

/-- A line that opens a new row. -/
def openRow (U : UnicodeTables) (scan : Scan E) (indent : Nat) (trimmed label : Text) :
    Except Text (Scan E) := do
  let scan ← scan.flush U label
  let rest := trimmed.drop 2
  let acc ← RowAcc.apply U { idx := scan.buckets.length } (Text.trimStart rest) label true
  .ok { scan with
    itemCol := indent
    memberCol := indent + 2 + FieldVal.indentOf rest
    cur := some acc }

/-- A line of the open row: a continuation or a member key. -/
def memberLine (U : UnicodeTables) (memberCol : Nat) (acc : RowAcc) (rawLine label : Text) :
    Except Text RowAcc :=
  if memberCol < FieldVal.indentOf rawLine then .ok (acc.continueScalar rawLine)
  else acc.apply U (Text.trim rawLine) label false

/-- A line that is neither blank nor skipped nor inside an open quote. -/
def contentLine (U : UnicodeTables) (scan : Scan E) (rawLine label : Text) :
    Except Text (Scan E) :=
  let trimmed := Text.trim rawLine
  let indent := FieldVal.indentOf rawLine
  if !scan.inIgnored && indent = 0 && (trimmed = ['-'] || ['-', ' '].isPrefixOf trimmed) then
    .error (label ++ ": expected a Hash at top level, got Array".toList)
  else if rawLine.head? ≠ some ' ' && rawLine.head? ≠ some '-' then scan.topLevel U trimmed label
  else if !scan.inIgnored then .ok scan
  else if ['-', ' '].isPrefixOf trimmed && (scan.cur.isNone || indent ≤ scan.itemCol) then
    scan.openRow U indent trimmed label
  else
    match scan.cur with
    | none => .ok scan
    | some acc => do
        let acc ← memberLine U scan.memberCol acc rawLine label
        .ok { scan with cur := some acc }

/-- One line of the document. -/
def step (U : UnicodeTables) (label : Text) (scan : Scan E) (rawLine : Text) :
    Except Text (Scan E) :=
  let trimmed := Text.trim rawLine
  if trimmed = "---".toList || trimmed.head? = some '#' then .ok scan
  else if trimmed = [] then
    .ok { scan with
      cur := scan.cur.map fun acc => { acc with pendingBreaks := acc.pendingBreaks + 1 } }
  else
    match scan.cur with
    | some acc =>
        if acc.quoteOpen then .ok { scan with cur := some (acc.continueScalar trimmed) }
        else scan.contentLine U rawLine label
    | none => scan.contentLine U rawLine label

/-- The checks after the last line. -/
def finish (U : UnicodeTables) (label : Text) (scan : Scan E) : Except Text (Baseline E) := do
  let scan ← scan.flush U label
  let unsupported (shown : Text) : Except Text (Baseline E) :=
    .error (label ++ ": unsupported `version: ".toList ++ shown ++ "` (expected ".toList ++
      natText currentVersion ++ [')'])
  match scan.version with
  | none => unsupported "nil".toList
  | some (v, quoted) =>
      if !quoted && Text.parseU64 v = some currentVersion then .ok ⟨scan.buckets⟩
      else unsupported (rubyInspect U v quoted)

end Scan

/-- `Baseline::parse`. -/
def Baseline.parse {E : RegexEngine} (U : UnicodeTables) (text label : Text) :
    Except Text (Baseline E) := do
  let scan ← (Text.lines text).foldlM (Scan.step U label) {}
  scan.finish U label

end Rigor.Cli
