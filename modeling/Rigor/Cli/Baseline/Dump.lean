import Rigor.Cli.Baseline.Ratchet
import Rigor.Cli.Json.Writer

/-!
# `baseline dump`

The rows of the file, filtered, as JSON or grouped by rule.
-/

namespace Rigor.Cli.Commands

open Baseline Json Rigor.Library.Grouping Rigor.Library.Json Rigor.Library.Separated Rigor.Library.StableSort
  Rigor.Library.Stages Rigor.Rust

variable {R : RegexEngine}

/-- `filter_dump_rows`: the rule exactly, and the glob of the file. -/
def dumpKeeps (fnmatch : Text → Text → Bool) (rule fileGlob : Option Text) (b : Bucket R) : Bool :=
  rule.all (b.rule = ·) && fileGlob.all (fnmatch · b.file)

/-! ## JSON -/

def rowOpen : Text :=
  "    \x7b\n".toList

def rowClose : Text :=
  "\n    \x7d".toList

def fieldEnd : Text :=
  ",\n".toList

/-- The name of a field on its line. -/
def fieldName (name : String) : Text :=
  "      \"".toList ++ name.toList ++ "\": ".toList

/-- A row of `dump_json` up to its closing brace. -/
def dumpJsonRow (b : Bucket R) : Text :=
  rowOpen ++ (fieldName "file" ++ jsonString b.file ++ fieldEnd) ++
    (fieldName "rule" ++ jsonString b.rule ++ fieldEnd) ++ (fieldName "count" ++ natText b.count) ++
    (match b.message with
      | some m => fieldEnd ++ fieldName "message" ++ jsonString m
      | none => []) ++
    rowClose

/-- The document up to its rows. -/
def dumpHead : Text :=
  "\x7b\n  \"version\": ".toList ++ natText currentVersion ++ ",\n  \"ignored\": ".toList

/-- `dump_json`. -/
def dumpJson (rows : List (Bucket R)) : Text :=
  if rows.isEmpty then dumpHead ++ "[]\n\x7d".toList
  else
    dumpHead ++ "[\n".toList ++
      (rows.zipIdx.flatMap fun row =>
        dumpJsonRow row.1 ++ (if row.2 + 1 < rows.length then [','] else []) ++ ['\n']) ++
      "  ]\n\x7d".toList

/-! ## Text -/

/-- The rows of each rule, the rule of the first row first. -/
def dumpGroups (rows : List (Bucket R)) : List (Text × List (Bucket R)) :=
  rows.foldl (fun groups b => upsert b.rule [] (· ++ [b]) groups) []

/-- The greater count first, then the file. -/
def dumpKey (b : Bucket R) : Natᵒᵈ ×ₗ Text :=
  toLex (OrderDual.toDual b.count, b.file)

def dumpLine (b : Bucket R) : Text :=
  match b.message with
  | some m => "  ".toList ++ b.file ++ ": ".toList ++ natText b.count ++ "  ~/".toList ++ m ++ ['/']
  | none => "  ".toList ++ b.file ++ ": ".toList ++ natText b.count

/-- The lines of a group. -/
def dumpGroup (group : Text × List (Bucket R)) : List Text :=
  [group.1 ++ "  (".toList ++ natText group.2.length ++ " bucket(s), ".toList ++
      natText (group.2.map Bucket.count).sum ++ " occurrence(s))".toList] ++
    (sortByKey dumpKey group.2).map dumpLine ++ [[]]

def dumpTotal (rows occurrences : Nat) : Text :=
  "Total: ".toList ++ natText rows ++ " bucket(s), ".toList ++ natText occurrences ++ " occurrence(s)".toList

/-- `dump_text`. -/
def dumpText (rows : List (Bucket R)) : List Text :=
  if rows.isEmpty then ["(no baseline rows matching the supplied filters)".toList]
  else
    let groups := sortByKey (fun group => OrderDual.toDual group.2.length) (dumpGroups rows)
    let occurrences := groups.foldl (fun sum group => sum + (group.2.map Bucket.count).sum) 0
    groups.flatMap dumpGroup ++ [dumpTotal rows.length occurrences]

/-- `baseline_dump`, after its options are parsed. -/
def baselineDump (U : UnicodeTables) (path : Text) (ws : Workspace) (json : Bool) (keeps : Bucket R → Bool) :
    Shown :=
  match loadBaselineStrict U path ws.file with
  | .error refused => refused
  | .ok baseline =>
      let rows := baseline.buckets.filter keeps
      { exit := 0
        stdout := if json then [dumpJson rows] else dumpText rows }

/-! ## The document -/

/-- The members of a row. -/
def bucketFields (b : Bucket R) : List RowField :=
  [("file".toList, .text b.file), ("rule".toList, .text b.rule), ("count".toList, .nat b.count)] ++
    presentField "message" b.message

def bucketValue (b : Bucket R) : Value :=
  .obj ((bucketFields b).map fun field => (field.1, field.2.value))

/-- What the JSON form of the dump says. -/
def dumpDocument (rows : List (Bucket R)) : Value :=
  .obj [("version".toList, .number ['1']), ("ignored".toList, .arr (rows.map bucketValue))]

/-- A member on a line of its own. -/
def lineOf (indent : Text) (field : RowField) : Text :=
  indent ++ jsonString field.1 ++ [':', ' '] ++ field.2.write

theorem member_lineOf {indent : Text} (blank : Blank indent) (field : RowField) :
    Member (field.1, field.2.value) (lineOf indent field) := by
  have spaced := member_spaced blank (chars_flatMap field.1) (spells_scalar field.2)
  simpa [lineOf, jsonString] using spaced

/-- The indent of the members of a row. -/
def memberIndent : Text :=
  "\n      ".toList

theorem lineOf_append (field : RowField) (rest : Text) :
    lineOf memberIndent field ++ rest =
      memberIndent ++ (jsonString field.1 ++ ':' :: ' ' :: (field.2.write ++ rest)) := by
  simp only [lineOf, List.append_assoc, List.cons_append, List.nil_append]

theorem fieldName_eq (name : String) :
    fieldName name = "      ".toList ++ ('"' :: (name.toList ++ ['"', ':', ' '])) := by
  have before : "      \"".toList = "      ".toList ++ ['"'] := by decide +kernel
  have after : "\": ".toList = ['"', ':', ' '] := by decide +kernel
  unfold fieldName
  simp only [before, after, List.append_assoc, List.cons_append, List.nil_append]

theorem rowOpen_append (name : String) (rest : Text) : rowOpen ++ (fieldName name ++ rest) =
    "    ".toList ++ '\x7b' :: (memberIndent ++ ('"' :: (name.toList ++ '"' :: ':' :: ' ' :: rest))) := by
  have opened : rowOpen = "    ".toList ++ ['\x7b', '\n'] := rfl
  have indent : memberIndent = '\n' :: "      ".toList := rfl
  rw [fieldName_eq, opened, indent]
  simp only [List.append_assoc, List.cons_append, List.nil_append]

theorem fieldEnd_append (name : String) (rest : Text) : fieldEnd ++ (fieldName name ++ rest) =
    ',' :: (memberIndent ++ ('"' :: (name.toList ++ '"' :: ':' :: ' ' :: rest))) := by
  have ended : fieldEnd = [',', '\n'] := rfl
  have indent : memberIndent = '\n' :: "      ".toList := rfl
  rw [fieldName_eq, ended, indent]
  simp only [List.append_assoc, List.cons_append, List.nil_append]

theorem dumpJsonRow_eq (b : Bucket R) :
    dumpJsonRow b = "    ".toList ++ '\x7b' ::
      ([','].intercalate ((bucketFields b).map (lineOf memberIndent)) ++ ("\n    ".toList ++ ['\x7d'])) := by
  have quoted (name : String) (plain : name.toList.flatMap jsonChar = name.toList) (rest : Text) :
      jsonString name.toList ++ rest = '"' :: (name.toList ++ '"' :: rest) := by
    rw [jsonString, plain, List.cons_append, List.append_assoc, List.singleton_append]
  have close : "\n    ".toList ++ ['\x7d'] = rowClose := rfl
  rw [close]
  cases spelled : b.message with
  | none =>
    simp only [dumpJsonRow, bucketFields, presentField, spelled, List.append_assoc, Option.toList_none,
      List.map_nil, List.map_cons, List.append_nil, intercalate_cons, List.flatMap_cons, List.flatMap_nil, List.cons_append,
      lineOf_append, Scalar.write, natText, rowOpen_append, fieldEnd_append]
    rw [quoted "file" rfl, quoted "rule" rfl, quoted "count" rfl]
  | some m =>
    simp only [dumpJsonRow, bucketFields, presentField, spelled, List.append_assoc, Option.toList_some,
      List.map_nil, List.map_cons, List.append_nil, intercalate_cons, List.flatMap_cons, List.flatMap_nil, List.cons_append,
      List.nil_append, lineOf_append, Scalar.write, natText, rowOpen_append, fieldEnd_append]
    rw [quoted "file" rfl, quoted "rule" rfl, quoted "count" rfl, quoted "message" rfl]

theorem blank_spaces {text : Text} (blank : text.all isBlank = true) : Blank text :=
  List.all_eq_true.mp blank

/-- The loop over the rows, from any place on. -/
theorem dumpLoop_eq (rows : List (Bucket R)) (k n : Nat) (size : n = k + rows.length) (b : Bucket R) :
    ((b :: rows).zipIdx k).flatMap (fun row =>
        dumpJsonRow row.1 ++ (if row.2 + 1 < n + 1 then [','] else []) ++ ['\n']) =
      dumpJsonRow b ++ rows.flatMap (fun b => ',' :: '\n' :: dumpJsonRow b) ++ ['\n'] := by
  induction rows generalizing k b with
  | nil => simp [size]
  | cons next rows ih =>
    rw [List.zipIdx_cons, List.flatMap_cons, ih (k + 1) (by rw [size, List.length_cons]; omega)]
    have more : k + 1 < n + 1 := by rw [size, List.length_cons]; omega
    simp [more]

/-- The text of a row without its indent. -/
def bareRow (b : Bucket R) : Text :=
  '\x7b' :: ([','].intercalate ((bucketFields b).map (lineOf memberIndent)) ++ ("\n    ".toList ++ ['\x7d']))

/-- The break and the indent before a row. -/
def rowIndent : Text :=
  "\n    ".toList

theorem rowIndent_append (b : Bucket R) : '\n' :: dumpJsonRow b = rowIndent ++ bareRow b := by
  rw [dumpJsonRow_eq, ← bareRow]
  rfl

theorem dumpHead_eq :
    dumpHead = '\x7b' :: ("\n  ".toList ++ '"' :: ("version".toList ++ '"' :: ':' :: ' ' :: '1' :: ',' ::
      ("\n  ".toList ++ '"' :: ("ignored".toList ++ ['"', ':', ' '])))) := by
  decide +kernel

/-- The document around an array of rows. -/
theorem spells_around {v : Value} {t : Text} (spells : Spells v t) :
    Spells (.obj [("version".toList, .number ['1']), ("ignored".toList, v)])
      (dumpHead ++ (t ++ ['\n', '\x7d'])) := by
  have line : Blank "\n  ".toList := blank_spaces rfl
  have version := member_spaced line (chars_flatMap "version".toList) (Spells.int 1)
  have ignored := member_spaced line (chars_flatMap "ignored".toList) spells
  have feed : Blank ['\n'] := blank_spaces rfl
  have document := Spells.obj (Members.cons version blank_nil (Members.single ignored feed))
  rw [dumpHead_eq]
  have names : "version".toList.flatMap jsonChar = "version".toList ∧
      "ignored".toList.flatMap jsonChar = "ignored".toList ∧ Library.Json.intText 1 = ['1'] := by decide +kernel
  rw [names.1, names.2.1, names.2.2] at document
  simp only [List.append_assoc, List.cons_append, List.nil_append] at document ⊢
  exact document

theorem spells_dumpJson (rows : List (Bucket R)) : Spells (dumpDocument rows) (dumpJson rows) := by
  cases rows with
  | nil => exact spells_around (Spells.arrNil blank_nil)
  | cons b rows =>
    have spells (b : Bucket R) : Spells (bucketValue b) (bareRow b) := by
      rw [bareRow, ← List.append_assoc]
      exact Spells.obj (members_intercalate (member_lineOf (blank_spaces rfl)) (blank_spaces rfl) _ _)
    have indent : Blank rowIndent := blank_spaces rfl
    have last : Blank ['\n', ' ', ' '] := blank_spaces rfl
    have array := Spells.arr (items_intercalate spells indent last b rows)
    have opened : "[\n".toList = ['[', '\n'] := by decide +kernel
    have closed : "  ]\n\x7d".toList = [' ', ' ', ']', '\n', '\x7d'] := by decide +kernel
    have loop := dumpLoop_eq rows 0 rows.length (Nat.zero_add _).symm b
    have written : dumpJson (b :: rows) = dumpHead ++ ('[' :: ([','].intercalate
        ((b :: rows).map fun b => rowIndent ++ bareRow b) ++ ['\n', ' ', ' '] ++ [']']) ++ ['\n', '\x7d']) := by
      rw [dumpJson, if_neg (by simp), opened, closed, List.length_cons, loop, List.map_cons, intercalate_cons,
        List.flatMap_map]
      simp only [← rowIndent_append, List.append_assoc, List.cons_append, List.nil_append]
    rw [written]
    exact spells_around array

/-! ## The groups -/

theorem foldl_snoc {α : Type} (items front : List α) :
    items.foldl (fun held item => held ++ [item]) front = front ++ items := by
  induction items generalizing front with
  | nil => exact (List.append_nil front).symm
  | cons item items ih => rw [List.foldl_cons, ih, List.append_assoc, List.singleton_append]

theorem nodup_dumpGroups (rows : List (Bucket R)) : ((dumpGroups rows).map Prod.fst).Nodup :=
  nodup_foldl_upsert Bucket.rule (fun _ => []) (fun b held => held ++ [b]) rows List.nodup_nil

/-- A group is all the rows of its rule. -/
theorem mem_dumpGroups_iff (rows : List (Bucket R)) (rule : Text) (group : List (Bucket R)) :
    (rule, group) ∈ dumpGroups rows ↔ group = rows.filter (·.rule == rule) ∧ group ≠ [] := by
  have changed := lookup_foldl_upsert Bucket.rule (fun _ => []) (fun b held => held ++ [b]) rows [] rule
  have held := foldl_some_getD (fun (b : Bucket R) held => held ++ [b]) [] (rows.filter (·.rule == rule)) none
  rw [mem_iff_lookup (nodup_dumpGroups rows), dumpGroups, changed, List.lookup_nil, held, Option.getD_none,
    foldl_snoc, List.nil_append]
  split
  next none' => simp [none']
  next some' =>
    rw [Option.some.injEq]
    constructor
    · rintro rfl
      exact ⟨rfl, some'⟩
    · exact fun own => own.1.symm

theorem flatMap_upsert_perm {α : Type} (key : Text) (item : α) (table : List (Text × List α)) :
    ((upsert key [] (· ++ [item]) table).flatMap Prod.snd).Perm (item :: table.flatMap Prod.snd) := by
  induction table with
  | nil => exact List.Perm.refl _
  | cons entry table ih =>
    rcases entry with ⟨name, items⟩
    rw [upsert]
    split
    · rw [List.flatMap_cons, List.flatMap_cons, List.append_assoc]
      exact List.perm_middle
    · exact (ih.append_left items).trans List.perm_middle

/-- The groups hold every row once. -/
theorem flatMap_dumpGroups_perm (rows : List (Bucket R)) : ((dumpGroups rows).flatMap Prod.snd).Perm rows := by
  have fold (table : List (Text × List (Bucket R))) :
      ((rows.foldl (fun groups b => upsert b.rule [] (· ++ [b]) groups) table).flatMap Prod.snd).Perm
        (table.flatMap Prod.snd ++ rows) := by
    induction rows generalizing table with
    | nil => rw [List.append_nil, List.foldl_nil]
    | cons b rows ih =>
      rw [List.foldl_cons]
      exact (ih _).trans (((flatMap_upsert_perm b.rule b table).append_right rows).trans List.perm_middle.symm)
  exact fold []

/-- The occurrences of all groups are those of all rows. -/
theorem foldl_occurrences (groups : List (Text × List (Bucket R))) (start : Nat) :
    groups.foldl (fun sum group => sum + (group.2.map Bucket.count).sum) start =
      start + ((groups.flatMap Prod.snd).map Bucket.count).sum := by
  induction groups generalizing start with
  | nil => rfl
  | cons group groups ih =>
    rw [List.foldl_cons, ih, List.flatMap_cons, List.map_append, List.sum_append, Nat.add_assoc]

/-- The groups in the order in which they are printed: the larger first. -/
structure Grouped (rows : List (Bucket R)) (groups : List (Text × List (Bucket R))) : Prop where
  distinct : (groups.map Prod.fst).Nodup
  complete : ∀ rule group, (rule, group) ∈ groups ↔ group = rows.filter (·.rule == rule) ∧ group ≠ []
  larger : groups.Pairwise fun group later => later.2.length ≤ group.2.length

theorem dumpText_eq {rows : List (Bucket R)} (some' : rows ≠ []) :
    ∃ groups, Grouped rows groups ∧
      dumpText rows = groups.flatMap dumpGroup ++ [dumpTotal rows.length (rows.map Bucket.count).sum] := by
  have perm :=
    sortByKey_perm (fun group : Text × List (Bucket R) => OrderDual.toDual group.2.length) (dumpGroups rows)
  have whole := ((perm.flatMap_right Prod.snd).trans (flatMap_dumpGroups_perm rows)).map Bucket.count
  apply Exists.intro _
  constructor
  · constructor
    · exact (perm.map Prod.fst).nodup_iff.mpr (nodup_dumpGroups rows)
    · exact fun rule group => perm.mem_iff.trans (mem_dumpGroups_iff rows rule group)
    · exact pairwise_sortByKey (fun group : Text × List (Bucket R) => OrderDual.toDual group.2.length) _
  · rw [dumpText, if_neg (by simpa using some')]
    simp only [foldl_occurrences, whole.sum_nat, Nat.zero_add]

/-! ## The dump of a project -/

theorem baselineDump_ok {U : UnicodeTables} {path : Text} {ws : Workspace} {baseline : Baseline R}
    (present : ws.file ≠ none) (loaded : load U path ws.file = .ok baseline) (json : Bool)
    (keeps : Bucket R → Bool) :
    baselineDump U path ws json keeps =
      { exit := 0
        stdout := if json then [dumpJson (baseline.buckets.filter keeps)]
          else dumpText (baseline.buckets.filter keeps) } := by
  have absent : ws.file.isNone = false := by simpa [Option.isSome_iff_ne_none] using present
  simp [baselineDump, loadBaselineStrict, absent, loaded]

/-- The dump without filters. -/
def everyBucket : Bucket literalEngine → Bool :=
  dumpKeeps (fun _ _ => true) none none

end Rigor.Cli.Commands
