import Rigor.Cli.Check.Pipeline
import Rigor.Library.Json
import Rigor.Library.Separated
import Rigor.Rules.Catalogue

/-!
# The JSON output of a check

`json_document` of `main.rs` writes the findings by hand, field by field.  What it writes is one JSON document,
whatever the texts of the findings are.
-/

namespace Rigor.Cli.Json

open Rigor.Cli.Check Rigor.Library.Json Rigor.Library.Separated Rigor.Rules Rigor.Rust

/-! ## Strings -/

/-- A number in lower-case hexadecimal, of at least four digits. -/
def hex04 (n : Nat) : Text :=
  let digits := Nat.toDigits 16 n
  List.replicate (4 - digits.length) '0' ++ digits

/-- What `json_string` pushes for a character. -/
def jsonChar (c : Char) : Text :=
  if c = '"' then ['\\', '"']
  else if c = '\\' then ['\\', '\\']
  else if c = '\n' then ['\\', 'n']
  else if c = '\r' then ['\\', 'r']
  else if c = '\t' then ['\\', 't']
  else if c.toNat < 0x20 then '\\' :: 'u' :: hex04 c.toNat
  else [c]

def jsonString (s : Text) : Text :=
  '"' :: (s.flatMap jsonChar ++ ['"'])

/-! ## Fields -/

def pushKvStr (buf key value : Text) (first : Bool) : Text :=
  buf ++ (if first then [] else [',']) ++ jsonString key ++ [':'] ++ jsonString value

/-- The value is spliced in as it is. -/
def pushKvRaw (buf key raw : Text) : Text :=
  buf ++ [','] ++ jsonString key ++ [':'] ++ raw

def pushKvNum (buf key : Text) (value : Nat) : Text :=
  buf ++ [','] ++ jsonString key ++ [':'] ++ Nat.toDigits 10 value

/-! ## Rows -/

/-- `Severity::as_str`. -/
def severityText : Severity → Text
  | .error => "error".toList
  | .warning => "warning".toList
  | .info => "info".toList

def qualifiedRule (diag : Rules.Diagnostic) : Option Text :=
  if diag.ruleId ≠ ruleless then some diag.ruleId else none

/-- The rule without its source family. -/
def jsonRuleName (diag : Rules.Diagnostic) (qualified : Text) : Text :=
  if diag.sourceFamily = builtin then qualified
  else ((Text.stripPrefix diag.sourceFamily qualified).bind (Text.stripPrefix ['.'])).getD qualified

/-- The rule, or the `null` of a ruleless diagnostic. -/
def pushRule (buf : Text) (diag : Rules.Diagnostic) : Text :=
  match qualifiedRule diag with
  | some rule => pushKvStr buf "rule".toList (jsonRuleName diag rule) false
  | none => pushKvRaw buf "rule".toList "null".toList

/-- A field that is left out when it is missing. -/
def pushPresent (buf key : Text) (value : Option Text) : Text :=
  match value with
  | some s => pushKvStr buf key s false
  | none => buf

/-- The fields of the catalogue. -/
def pushEntry (buf : Text) (entry : Option RuleEntry) : Text :=
  match entry with
  | some entry =>
      pushKvStr (pushKvStr buf "evidence_tier".toList entry.evidenceTier false) "documentation_url".toList
        entry.documentationUrl false
  | none => buf

/-- One round of the loop of `json_document`. -/
def pushFinding (buf : Text) (finding : Finding) (idx : Nat) : Text :=
  let buf := if idx > 0 then buf ++ [','] else buf
  let (line, col) := lineCol finding.source finding.diag.startOffset
  let buf := buf ++ ['\x7b']
  let buf := pushKvStr buf "path".toList finding.path true
  let buf := pushKvNum buf "line".toList line
  let buf := pushKvNum buf "column".toList col
  let buf := pushKvStr buf "severity".toList (severityText finding.diag.severity) false
  let buf := pushRule buf finding.diag
  let buf := pushKvStr buf "source_family".toList finding.diag.sourceFamily false
  let buf := pushKvStr buf "message".toList finding.diag.message false
  let buf := pushPresent buf "receiver_type".toList finding.diag.receiverType
  let buf := pushPresent buf "method_name".toList finding.diag.methodName
  let buf := pushEntry buf (catalog finding.diag.ruleId)
  buf ++ ['\x7d']

def jsonDocument (findings : List Finding) : Text :=
  findings.zipIdx.foldl (fun buf row => pushFinding buf row.1 row.2) ['['] ++ [']']

/-! ## Strings are read back -/

theorem hex04_control :
    ∀ n < 0x20, hex04 n = ['0', '0', Nat.digitChar (n / 16), Nat.digitChar (n % 16)] := by
  decide +kernel

theorem hexCode_control :
    ∀ n < 0x20, hexCode '0' '0' (Nat.digitChar (n / 16)) (Nat.digitChar (n % 16)) = some (Char.ofNat n) := by
  decide +kernel

theorem chars_jsonChar (c : Char) {s t : List Char} (rest : Chars s t) : Chars (c :: s) (jsonChar c ++ t) := by
  unfold jsonChar
  split
  · rename_i same
    rw [same]
    exact Chars.short rfl rest
  split
  · rename_i same
    rw [same]
    exact Chars.short rfl rest
  split
  · rename_i same
    rw [same]
    exact Chars.short rfl rest
  split
  · rename_i same
    rw [same]
    exact Chars.short rfl rest
  split
  · rename_i same
    rw [same]
    exact Chars.short rfl rest
  split
  · rename_i small
    have code := hexCode_control c.toNat small
    rw [Char.ofNat_toNat] at code
    rw [hex04_control c.toNat small]
    exact Chars.code code rest
  · rename_i quote escape _ _ _ large
    exact Chars.plain quote escape large rest

theorem chars_flatMap (s : Text) : Chars s (s.flatMap jsonChar) := by
  induction s with
  | nil => exact Chars.nil
  | cons c s ih => exact chars_jsonChar c ih

theorem spells_jsonString (s : Text) : Spells (.str s) (jsonString s) :=
  Spells.str (chars_flatMap s)

/-! ## Rows are read back -/

/-- What a field of a row holds. -/
inductive Scalar where
  | text (s : Text)
  | nat (n : Nat)
  | null

def Scalar.value : Scalar → Value
  | .text s => .str s
  | .nat n => .number (Nat.toDigits 10 n)
  | .null => .null

def Scalar.write : Scalar → Text
  | .text s => jsonString s
  | .nat n => Nat.toDigits 10 n
  | .null => "null".toList

abbrev RowField :=
  Text × Scalar

def RowField.write (field : RowField) : Text :=
  jsonString field.1 ++ ':' :: field.2.write

/-- A field that is left out when it is missing. -/
def presentField (key : String) (value : Option Text) : List RowField :=
  value.toList.map fun s => (key.toList, .text s)

/-- The rule of a row: a parse error has none. -/
def ruleScalar (rule : Option Text) : Scalar :=
  match rule with
  | some rule => .text rule
  | none => .null

/-- The fields of a row after its path, with the rule that the row shows. -/
def laterFields (finding : Finding) (rule : Option Text) : List RowField :=
  [("line".toList, .nat (lineCol finding.source finding.diag.startOffset).1),
    ("column".toList, .nat (lineCol finding.source finding.diag.startOffset).2),
    ("severity".toList, .text (severityText finding.diag.severity)),
    ("rule".toList, ruleScalar rule),
    ("source_family".toList, .text finding.diag.sourceFamily),
    ("message".toList, .text finding.diag.message)] ++
  (presentField "receiver_type" finding.diag.receiverType ++
    (presentField "method_name" finding.diag.methodName ++
    (presentField "evidence_tier" ((catalog finding.diag.ruleId).map RuleEntry.evidenceTier) ++
      presentField "documentation_url" ((catalog finding.diag.ruleId).map RuleEntry.documentationUrl))))

def fields (finding : Finding) (rule : Option Text) : List RowField :=
  ("path".toList, .text finding.path) :: laterFields finding rule

/-- The rule that `json_document` shows. -/
def shownRule (finding : Finding) : Option Text :=
  (qualifiedRule finding.diag).map (jsonRuleName finding.diag)

/-- The object of a finding. -/
def row (finding : Finding) (rule : Option Text) : Value :=
  .obj ((fields finding rule).map fun field => (field.1, field.2.value))

theorem spells_scalar (scalar : Scalar) : Spells scalar.value scalar.write := by
  cases scalar with
  | text s => exact spells_jsonString s
  | nat n => exact Spells.int n
  | null => exact Spells.null

theorem member_field (field : RowField) : Member (field.1, field.2.value) field.write := by
  have compact := member_compact (chars_flatMap field.1) (spells_scalar field.2)
  simpa [RowField.write, jsonString] using compact

/-! ### The pushes -/

/-- Fields behind others. -/
def following (fields : List RowField) : Text :=
  fields.flatMap fun field => ',' :: field.write

@[simp]
theorem following_nil : following [] = [] :=
  rfl

@[simp]
theorem following_cons (field : RowField) (fields : List RowField) :
    following (field :: fields) = ',' :: (field.write ++ following fields) :=
  rfl

@[simp]
theorem following_append (fields others : List RowField) :
    following (fields ++ others) = following fields ++ following others :=
  List.flatMap_append

theorem pushKvStr_first (buf key value : Text) :
    pushKvStr buf key value true = buf ++ RowField.write (key, .text value) := by
  simp [pushKvStr, RowField.write, Scalar.write]

theorem pushKvStr_later (buf key value : Text) :
    pushKvStr buf key value false = buf ++ following [(key, .text value)] := by
  simp [pushKvStr, RowField.write, Scalar.write]

theorem pushKvNum_eq (buf key : Text) (n : Nat) : pushKvNum buf key n = buf ++ following [(key, .nat n)] := by
  simp [pushKvNum, RowField.write, Scalar.write]

theorem pushRule_eq (buf : Text) (diag : Rules.Diagnostic) :
    pushRule buf diag =
      buf ++ following [("rule".toList, ruleScalar ((qualifiedRule diag).map (jsonRuleName diag)))] := by
  unfold pushRule
  cases qualifiedRule diag with
  | some rule => exact pushKvStr_later _ _ _
  | none => simp only [pushKvRaw, ruleScalar, Option.map_none, following_cons, following_nil, RowField.write,
      Scalar.write, List.append_nil, List.append_assoc, List.cons_append, List.nil_append]

theorem pushPresent_eq (buf : Text) (key : String) (value : Option Text) :
    pushPresent buf key.toList value = buf ++ following (presentField key value) := by
  cases value with
  | some s => exact pushKvStr_later _ _ _
  | none => exact (List.append_nil buf).symm

theorem pushEntry_eq (buf : Text) (entry : Option RuleEntry) :
    pushEntry buf entry = buf ++ following (presentField "evidence_tier" (entry.map RuleEntry.evidenceTier) ++
      presentField "documentation_url" (entry.map RuleEntry.documentationUrl)) := by
  cases entry with
  | some entry =>
    rw [following_append, ← List.append_assoc]
    exact (pushKvStr_later _ _ _).trans (congrArg (· ++ following [_]) (pushKvStr_later _ _ _))
  | none => exact (List.append_nil buf).symm

/-- A row as it is written. -/
def rowText (finding : Finding) : Text :=
  '\x7b' :: ([','].intercalate ((fields finding (shownRule finding)).map RowField.write) ++ ['\x7d'])

theorem rowText_eq (finding : Finding) :
    rowText finding = '\x7b' :: (RowField.write ("path".toList, .text finding.path) ++
      (following (laterFields finding (shownRule finding)) ++ ['\x7d'])) := by
  rw [rowText, fields, List.map_cons, intercalate_cons, List.flatMap_map, List.append_assoc]
  rfl

theorem pushFinding_eq (buf : Text) (finding : Finding) (idx : Nat) :
    pushFinding buf finding idx = (if idx > 0 then buf ++ [','] else buf) ++ rowText finding := by
  rw [rowText_eq]
  simp only [pushFinding, pushKvStr_first, pushKvStr_later, pushKvNum_eq, pushRule_eq, pushPresent_eq,
    pushEntry_eq, laterFields, shownRule, following_append, following_cons, following_nil, List.append_assoc,
    List.cons_append, List.nil_append, List.append_nil]

/-- The rounds after the first. -/
theorem foldl_pushFinding (findings : List Finding) (buf : Text) (k : Nat) :
    (findings.zipIdx (k + 1)).foldl (fun buf row => pushFinding buf row.1 row.2) buf =
      buf ++ (findings.map rowText).flatMap (',' :: ·) := by
  induction findings generalizing buf k with
  | nil => simp
  | cons finding findings ih =>
    rw [List.zipIdx_cons, List.foldl_cons, ih, pushFinding_eq, if_pos (Nat.succ_pos k)]
    simp

theorem jsonDocument_eq (findings : List Finding) :
    jsonDocument findings = '[' :: ([','].intercalate (findings.map rowText) ++ [']']) := by
  cases findings with
  | nil => rfl
  | cons finding findings =>
    rw [jsonDocument, List.zipIdx_cons, List.foldl_cons, foldl_pushFinding, pushFinding_eq, List.map_cons,
      intercalate_cons]
    simp

theorem spells_jsonDocument (findings : List Finding) :
    Spells (.arr (findings.map fun finding => row finding (shownRule finding))) (jsonDocument findings) := by
  rw [jsonDocument_eq]
  exact spells_array (fun finding => spells_object member_field (fields finding (shownRule finding))) findings

/--
Whatever the texts of the findings are, the output is one JSON document: the array of their rows, each with the
fields that the finding has, and nothing else.
-/
theorem spells_jsonDocument_iff (findings : List Finding) (v : Value) :
    Spells v (jsonDocument findings) ↔
      v = .arr (findings.map fun finding => row finding (shownRule finding)) := by
  constructor
  · exact fun spells => spells_unique spells (spells_jsonDocument findings)
  · rintro rfl
    exact spells_jsonDocument findings

end Rigor.Cli.Json
