import Rigor.Library.Escaping
import Rigor.Rules.ShadowedRescue
import Rigor.Rust.Digits
import Rigor.Rust.Lines

/-!
# Diagnostics for continuous integration

`diagnostic_formats.rs` writes diagnostics as GitHub workflow commands and as TeamCity service messages.
Both are read back, whatever the texts of the rows are.
-/

namespace Rigor.Cli.DiagnosticFormats

open Rigor.Library.Escaping Rigor.Library.Separated Rigor.Rules Rigor.Rust

/-- A diagnostic with its location resolved. -/
structure Rendered where
  path : Text
  line : Nat
  column : Nat
  severity : Severity
  ruleId : Option Text
  message : Text
  deriving DecidableEq

/-! ## GitHub -/

/-- `gh_escape_data`. -/
def ghEscapeData (s : Text) : Text :=
  replace '\n' "%0A".toList (replace '\r' "%0D".toList (replace '%' "%25".toList s))

/-- `gh_escape_prop`. -/
def ghEscapeProp (s : Text) : Text :=
  replace ':' "%3A".toList (replace ',' "%2C".toList (ghEscapeData s))

def ghLevel : Severity → Text
  | .error => "error".toList
  | .warning => "warning".toList
  | .info => "notice".toList

/-- The line of one row. -/
def githubLine (r : Rendered) : Text :=
  let props := "file=".toList ++ ghEscapeProp r.path ++ ",line=".toList ++ Nat.toDigits 10 r.line ++
    ",col=".toList ++ Nat.toDigits 10 r.column
  let props :=
    match r.ruleId with
    | some rule => props ++ ",title=".toList ++ ghEscapeProp rule
    | none => props
  "::".toList ++ ghLevel r.severity ++ " ".toList ++ props ++ "::".toList ++ ghEscapeData r.message

/-- `render_github`. -/
def renderGithub (rows : List Rendered) : Text :=
  "\n".toList.intercalate (rows.map githubLine)

/-! ## TeamCity -/

/-- `teamcity_escape`. -/
def teamcityEscape (value : Text) : Text :=
  replace ']' "|]".toList (replace '[' "|[".toList (replace '\r' "|r".toList
    (replace '\n' "|n".toList (replace '\'' "|'".toList (replace '|' "||".toList value)))))

/-- `teamcity_message`. -/
def teamcityMessage (name : Text) (attrs : List (Text × Text)) : Text :=
  let pairs := attrs.map fun (k, v) => k ++ "='".toList ++ teamcityEscape v ++ "'".toList
  "##teamcity[".toList ++ name ++ " ".toList ++ " ".toList.intercalate pairs ++ "]".toList

def teamcitySeverity : Severity → Text
  | .error => "ERROR".toList
  | .warning => "WARNING".toList
  | .info => "INFO".toList

/-- The attributes that declare the category. -/
def inspectionType : List (Text × Text) :=
  [("id".toList, "rigor".toList), ("name".toList, "rigor".toList), ("category".toList, "rigor".toList),
    ("description".toList, "Rigor inspection".toList)]

/-- The attributes of one row. -/
def inspection (r : Rendered) : List (Text × Text) :=
  let text :=
    match r.ruleId with
    | some rule => r.message ++ " [".toList ++ rule ++ "]".toList
    | none => r.message
  [("typeId".toList, "rigor".toList), ("message".toList, text), ("file".toList, r.path),
    ("line".toList, Nat.toDigits 10 r.line), ("SEVERITY".toList, teamcitySeverity r.severity)]

/-- `render_teamcity`. -/
def renderTeamcity (rows : List Rendered) : Text :=
  if rows = [] then []
  else
    "\n".toList.intercalate (teamcityMessage "inspectionType".toList inspectionType ::
      rows.map fun r => teamcityMessage "inspection".toList (inspection r))

/-! ## The readers -/

/-- The codes of a workflow command. -/
def commandCodes : List (Char × Text) :=
  [('%', "%25".toList), ('\r', "%0D".toList), ('\n', "%0A".toList), (',', "%2C".toList),
    (':', "%3A".toList)]

/-- The text before the first `::` and the text after it. -/
def cutColons : Text → Option (Text × Text)
  | ':' :: ':' :: rest => some ([], rest)
  | c :: rest => (cutColons rest).map fun (front, back) => (c :: front, back)
  | [] => none

/-- A workflow command, with its codes read. -/
structure Command where
  level : Text
  properties : List (Text × Text)
  data : Text
  deriving DecidableEq

def readProperty (property : Text) : Option (Text × Text) :=
  (Text.splitOnce '=' property).map fun (key, value) => (key, read commandCodes value)

def readCommand (line : Text) : Option Command :=
  (Text.stripPrefix "::".toList line).bind fun inner =>
    (cutColons inner).bind fun (front, data) =>
      (Text.splitOnce ' ' front).bind fun (level, properties) =>
        ((properties.splitOn ',').mapM readProperty).map fun properties =>
          { level, properties, data := read commandCodes data }

def readLevel (level : Text) : Option Severity :=
  [Severity.error, .warning, .info].find? fun severity => ghLevel severity = level

/-- The row that a command annotates. -/
def Command.row (command : Command) : Option Rendered :=
  (readLevel command.level).bind fun severity =>
    (command.properties.lookup "file".toList).bind fun path =>
      ((command.properties.lookup "line".toList).bind Text.digitsValue).bind fun line =>
        ((command.properties.lookup "col".toList).bind Text.digitsValue).map fun column =>
          { path, line, column, severity, ruleId := command.properties.lookup "title".toList,
            message := command.data }

def readRow (line : Text) : Option Rendered :=
  (readCommand line).bind Command.row

/-- The codes of a service message. -/
def messageCodes : List (Char × Text) :=
  [('|', "||".toList), ('\'', "|'".toList), ('\n', "|n".toList), ('\r', "|r".toList),
    ('[', "|[".toList), (']', "|]".toList)]

/-- Attributes with a blank between them; the fuel bounds their number. -/
def readAttributes : Nat → Text → Option (List (Text × Text))
  | _, [] => some []
  | 0, _ :: _ => none
  | fuel + 1, text =>
      (Text.splitOnce '=' text).bind fun (key, quoted) =>
        (Text.stripPrefix "'".toList quoted).bind fun inner =>
          (scan '|' '\'' inner).bind fun (value, rest) =>
            (readAttributes fuel (if rest.head? = some ' ' then rest.tail else rest)).map
              ((key, read messageCodes value) :: ·)

/-- The name and the attributes of a service message, and the text after it. -/
def readMessage (text : Text) : Option ((Text × List (Text × Text)) × Text) :=
  (Text.stripPrefix "##teamcity[".toList text).bind fun inner =>
    (scan '|' ']' inner).bind fun (body, rest) =>
      (Text.splitOnce ' ' body).bind fun (name, attributes) =>
        (readAttributes attributes.length attributes).map fun attrs => ((name, attrs), rest)

/-! ## The codes -/

theorem escapes_commandCodes : Escapes '%' commandCodes where
  coded := by decide
  starts := by decide
  prefixFree := by decide
  ordered := by decide

theorem escapes_messageCodes : Escapes '|' messageCodes where
  coded := by decide
  starts := by decide
  prefixFree := by decide
  ordered := by decide

theorem ghEscapeData_eq (s : Text) : ghEscapeData s = replaceAll (commandCodes.take 3) s := by
  simp only [ghEscapeData, commandCodes, List.take_succ_cons, List.take_zero, replaceAll,
    List.foldl_cons, List.foldl_nil]

theorem ghEscapeProp_eq (s : Text) : ghEscapeProp s = replaceAll commandCodes s := by
  simp only [ghEscapeProp, ghEscapeData, commandCodes, replaceAll, List.foldl_cons, List.foldl_nil]

theorem teamcityEscape_eq (value : Text) : teamcityEscape value = replaceAll messageCodes value := by
  simp only [teamcityEscape, messageCodes, replaceAll, List.foldl_cons, List.foldl_nil]

@[simp]
theorem read_ghEscapeData (s : Text) : read commandCodes (ghEscapeData s) = s := by
  rw [ghEscapeData_eq]
  exact escapes_commandCodes.read_replaceAll_of_sublist (List.take_sublist 3 commandCodes) (by decide) s

@[simp]
theorem read_ghEscapeProp (s : Text) : read commandCodes (ghEscapeProp s) = s := by
  rw [ghEscapeProp_eq, escapes_commandCodes.read_replaceAll]

@[simp]
theorem read_teamcityEscape (value : Text) : read messageCodes (teamcityEscape value) = value := by
  rw [teamcityEscape_eq, escapes_messageCodes.read_replaceAll]

theorem not_mem_ghEscapeData {c : Char} (coded : c ∈ ['\r', '\n']) (s : Text) :
    c ∉ ghEscapeData s := by
  have ordered : (commandCodes.take 3).Pairwise fun front back => back.1 ∉ front.2 := by decide
  rw [ghEscapeData_eq]
  simp only [List.mem_cons, List.not_mem_nil, or_false] at coded
  rcases coded with rfl | rfl <;> exact not_mem_replaceAll ordered (by decide) (by decide) s

theorem not_mem_ghEscapeProp {c : Char} (coded : c ∈ ['\r', '\n', ',', ':']) (s : Text) :
    c ∉ ghEscapeProp s := by
  rw [ghEscapeProp_eq]
  simp only [List.mem_cons, List.not_mem_nil, or_false] at coded
  rcases coded with rfl | rfl | rfl | rfl <;>
    exact not_mem_replaceAll escapes_commandCodes.ordered (by decide) (by decide) s

theorem not_mem_teamcityEscape {c : Char} (coded : c ∈ ['\r', '\n']) (value : Text) :
    c ∉ teamcityEscape value := by
  rw [teamcityEscape_eq]
  simp only [List.mem_cons, List.not_mem_nil, or_false] at coded
  rcases coded with rfl | rfl <;>
    exact not_mem_replaceAll escapes_messageCodes.ordered (by decide) (by decide) value

/-- A number has nothing to escape. -/
theorem ghEscapeProp_toDigits (n : Nat) : ghEscapeProp (Nat.toDigits 10 n) = Nat.toDigits 10 n := by
  rw [ghEscapeProp_eq]
  apply replaceAll_of_not_mem escapes_commandCodes.ordered
  intro code inCodes mem
  have other : ∀ code ∈ commandCodes, code.1.isDigit = false := by decide
  have decimal := isDigit_of_mem_toDigits mem
  rw [other code inCodes] at decimal
  contradiction

/-- A name that is made of letters. -/
def isWord (word : Text) : Bool :=
  word.all Char.isAlpha

theorem not_mem_of_isWord {word : Text} (letters : isWord word = true) {c : Char}
    (other : c.isAlpha = false) : c ∉ word := by
  intro mem
  have letter := List.all_eq_true.mp letters c mem
  rw [letter] at other
  contradiction

/-! ## Workflow commands -/

/-- The properties that a row is written with. -/
def Rendered.properties (r : Rendered) : List (Text × Text) :=
  [("file".toList, r.path), ("line".toList, Nat.toDigits 10 r.line),
    ("col".toList, Nat.toDigits 10 r.column)] ++ (r.ruleId.toList.map fun rule => ("title".toList, rule))

/-- A property as it is written. -/
def writeProperty (property : Text × Text) : Text :=
  property.1 ++ '=' :: ghEscapeProp property.2

theorem githubLine_eq (r : Rendered) : githubLine r =
    "::".toList ++ (ghLevel r.severity ++ ' ' :: [','].intercalate (r.properties.map writeProperty) ++
      "::".toList ++ ghEscapeData r.message) := by
  cases rule : r.ruleId <;>
    simp [githubLine, rule, Rendered.properties, writeProperty, ghEscapeProp_toDigits,
      List.intercalate]

theorem cutColons_append {front : Text} (free : ':' ∉ front) (data : Text) :
    cutColons (front ++ "::".toList ++ data) = some (front, data) := by
  induction front with
  | nil => rfl
  | cons c front ih =>
      rw [List.mem_cons, not_or] at free
      have other : ∀ rest, cutColons (c :: rest) =
          (cutColons rest).map fun (front, back) => (c :: front, back) := by
        intro rest
        rw [cutColons.eq_2]
        rintro rest' rfl
        exact absurd rfl free.1
      rw [List.cons_append, List.cons_append, other, ih free.2, Option.map_some]

theorem isWord_of_mem_properties {r : Rendered} {property : Text × Text}
    (mem : property ∈ r.properties) : isWord property.1 = true := by
  rw [Rendered.properties, List.mem_append, List.mem_map] at mem
  rcases mem with listed | ⟨rule, _, rfl⟩
  · simp only [List.mem_cons, List.not_mem_nil, or_false] at listed
    rcases listed with rfl | rfl | rfl <;> rfl
  · rfl

/-- What no property holds in its written form. -/
theorem not_mem_writeProperty {r : Rendered} {property : Text × Text}
    (mem : property ∈ r.properties) {c : Char} (coded : c ∈ ['\r', '\n', ',', ':']) :
    c ∉ writeProperty property := by
  have other : ∀ c ∈ ['\r', '\n', ',', ':'], c ≠ '=' ∧ c.isAlpha = false := by simp
  rw [writeProperty, List.mem_append, List.mem_cons, not_or, not_or]
  exact ⟨not_mem_of_isWord (isWord_of_mem_properties mem) (other c coded).2, (other c coded).1,
    not_mem_ghEscapeProp coded _⟩

theorem readProperty_writeProperty {property : Text × Text} (free : '=' ∉ property.1) :
    readProperty (writeProperty property) = some property := by
  rw [readProperty, writeProperty, Text.splitOnce_append free, Option.map_some]
  simp only [read_ghEscapeProp]

theorem mapM_readProperty {properties : List (Text × Text)}
    (free : ∀ property ∈ properties, '=' ∉ property.1) :
    (properties.map writeProperty).mapM readProperty = some properties := by
  induction properties with
  | nil => rfl
  | cons property properties ih =>
      rw [List.forall_mem_cons] at free
      rw [List.map_cons, List.mapM_cons, readProperty_writeProperty free.1, ih free.2]
      rfl

theorem isWord_ghLevel (severity : Severity) : isWord (ghLevel severity) = true := by
  cases severity <;> rfl

/-- The level and the properties have no colon and no line break. -/
theorem not_mem_front (r : Rendered) {c : Char} (coded : c ∈ ['\r', '\n', ':']) :
    c ∉ ghLevel r.severity ++ ' ' :: [','].intercalate (r.properties.map writeProperty) := by
  have other : ∀ c ∈ ['\r', '\n', ':'], c ≠ ' ' ∧ c ≠ ',' ∧ c.isAlpha = false ∧
      c ∈ ['\r', '\n', ',', ':'] := by simp
  rcases other c coded with ⟨noBlank, noComma, noLetter, coded'⟩
  rw [List.mem_append, List.mem_cons, not_or, not_or]
  refine ⟨not_mem_of_isWord (isWord_ghLevel _) noLetter, noBlank, ?_⟩
  intro mem
  rcases mem_or_of_mem_intercalate mem with comma | ⟨piece, inPieces, inPiece⟩
  · exact noComma comma
  · rcases List.mem_map.mp inPieces with ⟨property, inProperties, rfl⟩
    exact not_mem_writeProperty inProperties coded' inPiece

theorem readCommand_githubLine (r : Rendered) : readCommand (githubLine r) =
    some { level := ghLevel r.severity, properties := r.properties, data := r.message } := by
  have pieces : ([','].intercalate (r.properties.map writeProperty)).splitOn ',' =
      r.properties.map writeProperty := by
    refine List.splitOn_intercalate ',' ?_ (by simp [Rendered.properties])
    intro piece mem
    rcases List.mem_map.mp mem with ⟨property, inProperties, rfl⟩
    exact not_mem_writeProperty inProperties (by decide)
  have free : ∀ property ∈ r.properties, '=' ∉ property.1 := fun property mem =>
    not_mem_of_isWord (isWord_of_mem_properties mem) (by decide)
  have noBlank : ' ' ∉ ghLevel r.severity := not_mem_of_isWord (isWord_ghLevel _) (by decide)
  rw [readCommand, githubLine_eq, Text.stripPrefix_append, Option.bind_some,
    cutColons_append (not_mem_front r (by decide)), Option.bind_some]
  simp only [Text.splitOnce_append noBlank, Option.bind_some, pieces, mapM_readProperty free,
    Option.map_some, read_ghEscapeData]

theorem readLevel_ghLevel (severity : Severity) : readLevel (ghLevel severity) = some severity := by
  cases severity <;> decide

theorem readRow_githubLine (r : Rendered) : readRow (githubLine r) = some r := by
  have file : r.properties.lookup "file".toList = some r.path := rfl
  have line : r.properties.lookup "line".toList = some (Nat.toDigits 10 r.line) := rfl
  have col : r.properties.lookup "col".toList = some (Nat.toDigits 10 r.column) := rfl
  have title : r.properties.lookup "title".toList = r.ruleId := by
    rw [Rendered.properties]
    cases r.ruleId <;> rfl
  rw [readRow, readCommand_githubLine, Option.bind_some, Command.row]
  simp only [readLevel_ghLevel, file, line, col, title, Option.bind_some, digitsValue_toDigits,
    Option.map_some]

/-- A row is one line. -/
theorem githubLine_plain (r : Rendered) :
    githubLine r ≠ [] ∧ '\n' ∉ githubLine r ∧ '\r' ∉ githubLine r := by
  have clean : ∀ c ∈ ['\r', '\n'], c ∉ githubLine r := by
    intro c coded
    have other : ∀ c ∈ ['\r', '\n'], c ∉ "::".toList ∧ c ∈ ['\r', '\n', ':'] := by simp
    rw [githubLine_eq, List.mem_append, List.mem_append, List.mem_append, not_or, not_or, not_or]
    exact ⟨(other c coded).1, ⟨not_mem_front r (other c coded).2, (other c coded).1⟩,
      not_mem_ghEscapeData coded _⟩
  refine ⟨?_, clean _ (by decide), clean _ (by decide)⟩
  rw [githubLine_eq]
  exact List.cons_ne_nil _ _

theorem lines_renderGithub (rows : List Rendered) :
    Text.lines (renderGithub rows) = rows.map githubLine := by
  refine Text.lines_intercalate ?_
  intro line mem
  rcases List.mem_map.mp mem with ⟨r, _, rfl⟩
  exact githubLine_plain r

/-- Each row is a line, and the line is read as the row. -/
theorem readRow_renderGithub (rows : List Rendered) :
    (Text.lines (renderGithub rows)).map readRow = rows.map some := by
  rw [lines_renderGithub, List.map_map]
  exact List.map_congr_left fun r _ => readRow_githubLine r

/-! ## Service messages -/

/-- An attribute as it is written. -/
def writeAttribute (attr : Text × Text) : Text :=
  attr.1 ++ '=' :: '\'' :: (teamcityEscape attr.2 ++ ['\''])

/-- The part of a message inside the brackets. -/
def messageBody (name : Text) (attrs : List (Text × Text)) : Text :=
  name ++ ' ' :: [' '].intercalate (attrs.map writeAttribute)

theorem teamcityMessage_eq (name : Text) (attrs : List (Text × Text)) :
    teamcityMessage name attrs = "##teamcity[".toList ++ (messageBody name attrs ++ [']']) := by
  have pairs : (attrs.map fun (k, v) => k ++ "='".toList ++ teamcityEscape v ++ "'".toList) =
      attrs.map writeAttribute := by
    refine List.map_congr_left ?_
    intro attr _
    show attr.1 ++ ['=', '\''] ++ teamcityEscape attr.2 ++ ['\''] = writeAttribute attr
    rw [writeAttribute, List.append_assoc, List.append_assoc]
    rfl
  have written : teamcityMessage name attrs = "##teamcity[".toList ++ name ++ [' '] ++
      [' '].intercalate (attrs.map fun (k, v) => k ++ "='".toList ++ teamcityEscape v ++ "'".toList) ++
      [']'] := rfl
  rw [written, pairs, messageBody]
  simp only [List.append_assoc, List.cons_append, List.nil_append]

theorem passes_word {word : Text} (letters : isWord word = true) {stop : Char}
    (other : stop.isAlpha = false) : Passes '|' stop word := by
  refine passes_of_forall ?_
  intro c mem
  constructor
  · rintro rfl
    exact not_mem_of_isWord letters (by decide) mem
  · rintro rfl
    exact not_mem_of_isWord letters other mem

/-- No value ends its attribute or its message. -/
theorem passes_teamcityEscape {stop : Char} (coded : stop ∈ ['\'', ']']) (value : Text) :
    Passes '|' stop (teamcityEscape value) := by
  rw [teamcityEscape_eq]
  simp only [List.mem_cons, List.not_mem_nil, or_false] at coded
  rcases coded with rfl | rfl <;>
    exact escapes_messageCodes.passes_replaceAll (by decide) (by decide) (by decide) value

theorem passes_writeAttribute {attr : Text × Text} (letters : isWord attr.1 = true) :
    Passes '|' ']' (writeAttribute attr) := by
  have open_quote : Passes '|' ']' ['=', '\''] := passes_of_forall (by simp)
  have close_quote : Passes '|' ']' ['\''] := passes_of_forall (by simp)
  have whole := (passes_word letters (by decide)).append
    (open_quote.append ((passes_teamcityEscape (by decide) attr.2).append close_quote))
  exact whole

theorem passes_messageBody {name : Text} {attrs : List (Text × Text)} (word : isWord name = true)
    (words : ∀ attr ∈ attrs, isWord attr.1 = true) : Passes '|' ']' (messageBody name attrs) := by
  have blank : Passes '|' ']' [' '] := passes_of_forall (by simp)
  refine (passes_word word (by decide)).append (blank.append (Passes.intercalate blank ?_))
  intro written mem
  rcases List.mem_map.mp mem with ⟨attr, inAttrs, rfl⟩
  exact passes_writeAttribute (words attr inAttrs)

/-- An attribute is read, and the reader goes on after the blank. -/
theorem readAttributes_cons {attr : Text × Text} (word : isWord attr.1 = true) (fuel : Nat) (rest : Text) :
    readAttributes (fuel + 1) (writeAttribute attr ++ rest) =
      (readAttributes fuel (if rest.head? = some ' ' then rest.tail else rest)).map (attr :: ·) := by
  have free : '=' ∉ attr.1 := not_mem_of_isWord word (by decide)
  have nonempty : writeAttribute attr ++ rest =
      attr.1 ++ '=' :: ("'".toList ++ (teamcityEscape attr.2 ++ '\'' :: rest)) := by
    simp [writeAttribute]
  have passes : Passes '|' '\'' (teamcityEscape attr.2) := passes_teamcityEscape (by decide) attr.2
  rcases text : writeAttribute attr ++ rest with _ | ⟨c, more⟩
  · rw [nonempty] at text
    simp at text
  · rw [readAttributes, ← text, nonempty, Text.splitOnce_append free, Option.bind_some]
    · simp only [Text.stripPrefix_append, Option.bind_some, passes.scan_append, read_teamcityEscape]
    · exact List.cons_ne_nil c more

theorem readAttributes_intercalate {attrs : List (Text × Text)}
    (words : ∀ attr ∈ attrs, isWord attr.1 = true) {fuel : Nat} (enough : attrs.length ≤ fuel) :
    readAttributes fuel ([' '].intercalate (attrs.map writeAttribute)) = some attrs := by
  induction attrs generalizing fuel with
  | nil => cases fuel <;> rfl
  | cons attr attrs ih =>
      rw [List.forall_mem_cons] at words
      cases fuel with
      | zero => contradiction
      | succ fuel =>
          have enough' : attrs.length ≤ fuel := Nat.le_of_succ_le_succ enough
          rw [List.map_cons]
          by_cases last : attrs = []
          · have one := readAttributes_cons words.1 fuel []
            rw [List.append_nil] at one
            rw [last, List.map_nil, List.intercalate_singleton, one]
            cases fuel <;> rfl
          · rw [intercalate_cons_of_ne_nil ' ' _ (mt List.map_eq_nil_iff.mp last),
              readAttributes_cons words.1, List.head?_cons, if_pos rfl, List.tail_cons,
              ih words.2 enough', Option.map_some]

/-- There are no more attributes than characters. -/
theorem length_le_intercalate (attrs : List (Text × Text)) :
    attrs.length ≤ ([' '].intercalate (attrs.map writeAttribute)).length := by
  induction attrs with
  | nil => exact Nat.zero_le _
  | cons attr attrs ih =>
      have positive : 1 ≤ (writeAttribute attr).length := by
        rw [writeAttribute, List.length_append, List.length_cons]
        exact Nat.le_trans (Nat.succ_le_succ (Nat.zero_le _)) (Nat.le_add_left _ _)
      rw [List.map_cons]
      by_cases last : attrs = []
      · rw [last, List.map_nil, List.intercalate_singleton]
        exact positive
      · rw [intercalate_cons_of_ne_nil ' ' _ (mt List.map_eq_nil_iff.mp last), List.length_append,
          List.length_cons, List.length_cons]
        exact Nat.le_trans (Nat.succ_le_succ ih) (Nat.le_add_left _ _)

/-- A message is read back up to its end, whatever follows it. -/
theorem readMessage_teamcityMessage {name : Text} {attrs : List (Text × Text)} (word : isWord name = true)
    (words : ∀ attr ∈ attrs, isWord attr.1 = true) (rest : Text) :
    readMessage (teamcityMessage name attrs ++ rest) = some ((name, attrs), rest) := by
  have noBlank : ' ' ∉ name := not_mem_of_isWord word (by decide)
  have body : teamcityMessage name attrs ++ rest =
      "##teamcity[".toList ++ (messageBody name attrs ++ ']' :: rest) := by
    rw [teamcityMessage_eq, List.append_assoc, List.append_assoc, List.singleton_append]
  rw [readMessage, body, Text.stripPrefix_append, Option.bind_some,
    (passes_messageBody word words).scan_append, Option.bind_some]
  simp only [messageBody, Text.splitOnce_append noBlank, Option.bind_some,
    readAttributes_intercalate words (length_le_intercalate attrs), Option.map_some]

/-- A message is one line. -/
theorem not_mem_teamcityMessage {name : Text} {attrs : List (Text × Text)} (word : isWord name = true)
    (words : ∀ attr ∈ attrs, isWord attr.1 = true) {c : Char} (coded : c ∈ ['\r', '\n']) :
    c ∉ teamcityMessage name attrs := by
  have other : ∀ c ∈ ['\r', '\n'], c.isAlpha = false ∧ c ≠ ' ' ∧ c ≠ '=' ∧ c ≠ '\'' ∧ c ≠ ']' ∧
      c ∉ "##teamcity[".toList := by simp
  rcases other c coded with ⟨noLetter, noBlank, noEquals, noQuote, noBracket, outside⟩
  rw [teamcityMessage_eq, messageBody]
  simp only [List.mem_append, List.mem_cons, List.not_mem_nil, or_false, not_or]
  refine ⟨outside, ⟨not_mem_of_isWord word noLetter, noBlank, ?_⟩, noBracket⟩
  intro mem
  rcases mem_or_of_mem_intercalate mem with same | ⟨written, inWritten, inPiece⟩
  · exact noBlank same
  · rcases List.mem_map.mp inWritten with ⟨attr, inAttrs, rfl⟩
    simp only [writeAttribute, List.mem_append, List.mem_cons, List.not_mem_nil, or_false] at inPiece
    rcases inPiece with inKey | same | same | inValue | same
    · exact not_mem_of_isWord (words attr inAttrs) noLetter inKey
    · exact noEquals same
    · exact noQuote same
    · exact not_mem_teamcityEscape coded _ inValue
    · exact noQuote same

/-- The messages of a report, the declaration first. -/
def messages (rows : List Rendered) : List (Text × List (Text × Text)) :=
  if rows = [] then []
  else
    ("inspectionType".toList, inspectionType) :: rows.map fun r => ("inspection".toList, inspection r)

theorem isWord_of_mem_messages {rows : List Rendered} {message : Text × List (Text × Text)}
    (mem : message ∈ messages rows) : isWord message.1 = true ∧ ∀ attr ∈ message.2, isWord attr.1 = true := by
  rw [messages] at mem
  split at mem
  · exact absurd mem List.not_mem_nil
  · have keys (attrs : List (Text × Text)) (listed : attrs.all (fun attr => isWord attr.1) = true) :
        ∀ attr ∈ attrs, isWord attr.1 = true := List.all_eq_true.mp listed
    rcases List.mem_cons.mp mem with rfl | later
    · exact ⟨rfl, keys inspectionType rfl⟩
    · rcases List.mem_map.mp later with ⟨r, _, rfl⟩
      exact ⟨rfl, keys (inspection r) rfl⟩

/-- Each message of a report is a line, and the line is read as the message. -/
theorem readMessage_renderTeamcity (rows : List Rendered) :
    (Text.lines (renderTeamcity rows)).map readMessage =
      (messages rows).map fun message => some (message, []) := by
  have written : renderTeamcity rows =
      ['\n'].intercalate ((messages rows).map fun message => teamcityMessage message.1 message.2) := by
    rw [renderTeamcity, messages]
    split
    · rfl
    · rw [List.map_cons, List.map_map]
      rfl
  have plain : ∀ line ∈ (messages rows).map fun message => teamcityMessage message.1 message.2,
      line ≠ [] ∧ '\n' ∉ line ∧ '\r' ∉ line := by
    intro line mem
    rcases List.mem_map.mp mem with ⟨message, inMessages, rfl⟩
    rcases isWord_of_mem_messages inMessages with ⟨word, words⟩
    refine ⟨?_, not_mem_teamcityMessage word words (by decide),
      not_mem_teamcityMessage word words (by decide)⟩
    rw [teamcityMessage_eq]
    exact List.cons_ne_nil _ _
  rw [written, Text.lines_intercalate plain, List.map_map]
  refine List.map_congr_left ?_
  intro message mem
  rcases isWord_of_mem_messages mem with ⟨word, words⟩
  have whole := readMessage_teamcityMessage word words []
  rw [List.append_nil] at whole
  exact whole

/--
The annotations of a report are read back row by row, one line for each, and a service message is
read back with its attributes up to its own end, on one line.
-/
theorem renderings_read_back :
    (∀ rows : List Rendered, (Text.lines (renderGithub rows)).map readRow = rows.map some) ∧
    ∀ (name : Text) (attrs : List (Text × Text)), isWord name = true →
      (∀ attr ∈ attrs, isWord attr.1 = true) →
      (∀ rest, readMessage (teamcityMessage name attrs ++ rest) = some ((name, attrs), rest)) ∧
      ∀ c ∈ teamcityMessage name attrs, c ≠ '\n' ∧ c ≠ '\r' := by
  refine ⟨readRow_renderGithub, ?_⟩
  intro name attrs word words
  refine ⟨readMessage_teamcityMessage word words, ?_⟩
  intro c mem
  constructor
  · rintro rfl
    exact not_mem_teamcityMessage word words (by decide) mem
  · rintro rfl
    exact not_mem_teamcityMessage word words (by decide) mem

/-- A value with every character that the codes write. -/
theorem renderings_read_back_of_value :
    readMessage (teamcityMessage "inspection".toList [("message".toList, "'|]\r\n[".toList)] ++
      "]".toList) =
        some (("inspection".toList, [("message".toList, "'|]\r\n[".toList)]), "]".toList) := by
  refine (renderings_read_back.2 _ _ rfl ?_).1 _
  intro attr mem
  rw [List.mem_singleton.mp mem]
  rfl

end Rigor.Cli.DiagnosticFormats
