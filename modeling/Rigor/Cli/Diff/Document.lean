import Rigor.Cli.Diff.Saved

/-!
# The delta as a document

What `diff --format json` prints is pretty-printed by `serde_json` and then stamped with the version of its
schema.
-/

namespace Rigor.Cli.Diff

open Rigor.Cli.Check Rigor.Cli.Json Rigor.Library.Json Rigor.Rules Rigor.Rust

/-- What is asked of `to_string_pretty`: it prints JSON, and an object with members opens on its own line. -/
structure Serde.Indents (serde : Serde) : Prop where
  prints : ∀ v : Value, Spellable v → Spells v (serde.toStringPretty v)
  opens : ∀ members : List (Text × Value), members ≠ [] →
    ∃ rest, serde.toStringPretty (.obj members) = '\x7b' :: '\n' :: rest

/-! ## The stamp -/

/-- The member that `stamp_pretty` puts first. -/
def version : Text × Value :=
  ("schema_version".toList, .number (intText 1))

theorem member_version : Member version "\n  \"schema_version\": 1".toList := by
  have blank : Blank "\n  ".toList := List.all_eq_true.mp (by decide +kernel)
  have member := member_spaced blank (chars_flatMap "schema_version".toList) (Spells.int 1)
  have text : "\n  ".toList ++
      '"' :: ("schema_version".toList.flatMap jsonChar ++ '"' :: ':' :: ' ' :: intText 1) =
        "\n  \"schema_version\": 1".toList := by decide +kernel
  rwa [text] at member

theorem spells_stampPretty {serde : Serde} (indents : serde.Indents) {members : List (Text × Value)}
    (some : members ≠ []) (spellable : Spellable (.obj members)) :
    Spells (.obj (version :: members)) (stampPretty (serde.toStringPretty (.obj members))) := by
  rcases indents.opens members some with ⟨rest, opened⟩
  have spells := indents.prints _ spellable
  rw [opened] at spells ⊢
  have stamped := spells_cons member_version some spells
  have start : "\x7b\n".toList = ['\x7b', '\n'] := by decide +kernel
  have head : "\x7b\n  \"schema_version\": 1".toList = '\x7b' :: "\n  \"schema_version\": 1".toList := by
    decide +kernel
  have comma : ",\n".toList = [',', '\n'] := by decide +kernel
  have text : stampPretty ('\x7b' :: '\n' :: rest) =
      '\x7b' :: ("\n  \"schema_version\": 1".toList ++ ',' :: '\n' :: rest) := by
    have cut : Text.stripPrefix ['\x7b', '\n'] ('\x7b' :: '\n' :: rest) = Option.some rest :=
      Text.stripPrefix_append ['\x7b', '\n'] rest
    simp only [stampPretty, start, cut, head, comma, List.cons_append, List.append_assoc, List.nil_append]
  rwa [text]

/-! ## Rows -/

theorem mem_insertMember {key : Text} {value : Value} {member : Text × Value} {members : List (Text × Value)}
    (mem : member ∈ insertMember key value members) : member = (key, value) ∨ member ∈ members := by
  induction members with
  | nil => exact Or.inl (List.mem_singleton.mp mem)
  | cons first rest ih =>
    rcases first with ⟨held, old⟩
    rw [insertMember] at mem
    split at mem
    · exact List.mem_cons.mp mem
    · rcases List.mem_cons.mp mem with new | old
      · exact Or.inl new
      · exact Or.inr (List.mem_cons_of_mem _ old)
    · rcases List.mem_cons.mp mem with first | later
      · exact Or.inr (first ▸ List.mem_cons_self)
      · exact (ih later).imp_right (List.mem_cons_of_mem _)

/-- A map has no members but those that were inserted. -/
theorem mem_of_mem_mapOf {member : Text × Value} {members : List (Text × Value)}
    (mem : member ∈ mapOf members) : member ∈ members := by
  have inserted : ∀ map,
      member ∈ members.foldl (fun map member => insertMember member.1 member.2 map) map →
        member ∈ map ∨ member ∈ members := by
    clear mem
    induction members with
    | nil => exact fun map inside => Or.inl inside
    | cons first members ih =>
      intro map inside
      rcases ih _ inside with inside | later
      · rcases mem_insertMember inside with new | old
        · exact Or.inr (new ▸ List.mem_cons_self)
        · exact Or.inl old
      · exact Or.inr (List.mem_cons_of_mem _ later)
  exact (inserted [] mem).resolve_left List.not_mem_nil

theorem spellable_mapOf {members : List (Text × Value)} (each : ∀ member ∈ members, Spellable member.2) :
    Spellable (.obj (mapOf members)) := by
  apply spellable_obj
  intro member mem
  rcases each member (mem_of_mem_mapOf mem) with ⟨t, spells⟩
  exact ⟨_, member_compact (chars_flatMap member.1) spells⟩

theorem spellable_rowMap (finding : Finding) (rule : Option Text) : Spellable (rowMap finding rule) := by
  apply spellable_mapOf
  intro member mem
  rcases List.mem_map.mp mem with ⟨field, -, rfl⟩
  exact ⟨_, spells_scalar field.2⟩

/-! ## The command -/

/-- The members that are inserted into the printed object. -/
def payload (path : Text) (saved findings : List Finding) : List (Text × Value) :=
  [("baseline".toList, .str path), ("baseline_count".toList, numberOf saved.length),
    ("current_count".toList, numberOf findings.length),
    ("new".toList, .arr ((gained saved findings).map diagnosticValue)),
    ("fixed".toList, .arr ((resolved saved findings).map savedRow))]

/-- The printed object, its version first and the other members in the order of their names. -/
def document (path : Text) (saved findings : List Finding) : Value :=
  .obj [version, ("baseline".toList, .str path), ("baseline_count".toList, numberOf saved.length),
    ("current_count".toList, numberOf findings.length),
    ("fixed".toList, .arr ((resolved saved findings).map savedRow)),
    ("new".toList, .arr ((gained saved findings).map diagnosticValue))]

theorem document_eq (path : Text) (saved findings : List Finding) :
    document path saved findings = .obj (version :: mapOf (payload path saved findings)) := by
  rfl

theorem spellable_rows {findings : List Finding} {rowOf : Finding → Value}
    (each : ∀ finding, Spellable (rowOf finding)) : Spellable (.arr (findings.map rowOf)) := by
  apply spellable_arr
  intro row mem
  rcases List.mem_map.mp mem with ⟨finding, -, rfl⟩
  exact each finding

theorem spellable_payload (path : Text) (saved findings : List Finding) :
    Spellable (.obj (mapOf (payload path saved findings))) := by
  have new : Spellable (.arr ((gained saved findings).map diagnosticValue)) := by
    apply spellable_rows
    intro finding
    rw [diagnosticValue_eq]
    exact spellable_rowMap finding _
  have fixed : Spellable (.arr ((resolved saved findings).map savedRow)) :=
    spellable_rows fun finding => spellable_rowMap finding _
  apply spellable_mapOf
  simp only [payload, List.forall_mem_cons]
  exact ⟨⟨_, spells_scalar (.text path)⟩, ⟨_, spells_scalar (.nat saved.length)⟩,
    ⟨_, spells_scalar (.nat findings.length)⟩, new, fixed, List.forall_mem_nil _⟩

/-- The run of `cmdDiff_saved` in the JSON format prints one document, with every field of the rows. -/
theorem cmdDiff_document {serde : Serde} {saved findings : List Finding} (faithful : serde.Faithful)
    (indents : serde.Indents) (small : ∀ finding ∈ saved ++ findings, Small finding) {files : Files}
    {run : List Text → Except Outcome (List Finding)} {path w : Text} {roots : List Text}
    (there : files.isFile path = true) (held : files.readToString path = .ok (jsonDocument saved ++ w))
    (blank : Blank w) (found : run roots = .ok findings) :
    ∃ text, cmdDiff serde files run ⟨true, none, path :: roots⟩ =
        ⟨if (gained saved findings).isEmpty then 0 else 1, [text], []⟩ ∧
      ∀ v, Spells v text ↔ v = document path saved findings := by
  have loaded := loadDiagnostics_saved faithful
    (fun finding mem => small finding (List.mem_append_left _ mem)) there held blank
  have some : mapOf (payload path saved findings) ≠ [] := List.cons_ne_nil _ _
  have spells := spells_stampPretty indents some (spellable_payload path saved findings)
  rw [← document_eq] at spells
  apply Exists.intro (stampPretty (serde.toStringPretty (.obj (mapOf (payload path saved findings)))))
  constructor
  · simp only [cmdDiff, currentRows, loaded, found, computeDiff_saved faithful small, List.length_map,
      if_true, writeDiffJson, List.isEmpty_map]
    rfl
  · intro v
    constructor
    · exact fun other => spells_unique other spells
    · rintro rfl
      exact spells

end Rigor.Cli.Diff
