import Rigor.Cli.Options.Completion
import Rigor.Cli.Optparse
import Rigor.Library.StableSort
import Rigor.Rust.Lines

/-!
# Names and values of options

The tables of `optparse.rs`: the exact and the abbreviated lookup of a long option, and the conversion of
an argument.  An abbreviation stands for the one candidate that begins all of them.
-/

namespace Rigor.Cli.Options

open Rigor.Cli.Config Rigor.Cli.Optparse Rigor.Infer.KernelFold Rigor.Library.StableSort

/-! ## Tables -/

inductive ArgStyle where
  | flag
  | required
  | optional
  deriving DecidableEq

inductive ValueKind where
  | raw
  | int
  | float
  | choice (list : List Text)
  | exact (list : List Text)

/-- One `opts.on` declaration; a name comes with whether it is the negated one. -/
structure Switch where
  key : Text
  names : List (Text × Bool)
  style : ArgStyle
  kind : ValueKind
  ldesc : Text
  argDesc : Text
  desc : List Text
  hidden : Bool

/-- The banner of a command and its declarations. -/
structure OptParser where
  banner : Text
  switches : List Switch

/-- What a long name resolves to. -/
inductive Resolved where
  | switch (index : Nat) (negated : Bool)
  | terminator
  | help
  | version
  | completionBash
  | completionZsh
  deriving DecidableEq

inductive Lookup where
  | found (resolved : Resolved)
  | invalid
  | ambiguous
  deriving DecidableEq

/-- `OFFICIOUS`, with what `officious` makes of each name. -/
def officiousTable : List (Text × Resolved) :=
  [("help".toList, .help), ("*-completion-bash".toList, .completionBash),
    ("*-completion-zsh".toList, .completionZsh), ("version".toList, .version)]

/-- The long names of a command in the order of the declarations. -/
def registrations (switches : List Switch) : List (Text × Resolved) :=
  switches.zipIdx.flatMap fun entry => entry.1.names.map fun name => (name.1, .switch entry.2 name.2)

/-- `exact`: the command's table, the officious one, then the terminator. -/
def exactName (switches : List Switch) (name : Text) : Option Resolved :=
  ((registrations switches).lookup name).or
    ((officiousTable.lookup name).or (if name = [] then some .terminator else none))

/-! ## Candidates -/

/-- The loop over the sorted candidates: a candidate that goes on from the canonical one is passed over. -/
def settle {α : Type} (name : α → Text) (same : α → α → Bool) : α → List α → Option α
  | canon, [] => some canon
  | canon, v :: rest =>
      if same canon v then settle name same canon rest
      else if (name v).isPrefixOf (name canon) then settle name same v rest
      else if (name canon).isPrefixOf (name v) then settle name same canon rest
      else none

/-- The same switch under a second name. -/
def sameSwitch (a b : Text × Resolved) : Bool :=
  match a.2, b.2 with
  | .switch i n, .switch j m => i = j && n = m
  | _, _ => false

def settleRows (first : Text × Resolved) (rest : List (Text × Resolved)) : Option (Text × Resolved) :=
  settle Prod.fst sameSwitch first rest

def resolveCandidates (cands : List (Text × Resolved)) : Option Lookup :=
  match sortByKey (fun cand => cand.1.length) cands with
  | [] => none
  | first :: rest => some (((settleRows first rest).map fun canon => .found canon.2).getD .ambiguous)

/-- The candidates of one table. -/
def candidatesIn (table : List (Text × Resolved)) (name : Text) (icase : Bool) : List (Text × Resolved) :=
  table.filter fun row => completionMatch name row.1 icase

def complete (switches : List Switch) (name : Text) (icase : Bool) : Lookup :=
  match exactName switches name with
  | some resolved => .found resolved
  | none =>
      match resolveCandidates (candidatesIn (registrations switches) name icase) with
      | some lookup => lookup
      | none =>
          match resolveCandidates (candidatesIn officiousTable name icase) with
          | some lookup => lookup
          | none => .invalid

/-! ## Values -/

/-- A converted argument; `F` stands for the floats. -/
inductive Value (F : Type) where
  | str (text : Text)
  | int (value : Int64)
  | float (value : F)

/-- `float_pattern` on one run of digits. -/
def decGroup (t : Text) : Bool :=
  groupOk t Char.isDigit

/-- The mantissa of `float_pattern`. -/
def mantissaOk (mantissa : Text) : Bool :=
  match Text.splitOnce '.' mantissa with
  | some (a, b) => if a = [] then decGroup b else decGroup a && (b = [] || decGroup b)
  | none => decGroup mantissa

def floatPattern (s : Text) : Bool :=
  let s := (stripSign s).2
  let mantissa := s.takeWhile fun c => c ≠ 'e' ∧ c ≠ 'E'
  match s.dropWhile fun c => c ≠ 'e' ∧ c ≠ 'E' with
  | [] => mantissaOk mantissa
  | _ :: exp => mantissaOk mantissa && decGroup (stripSign exp).2

/-- `convert`; `parse` is `str::parse::<f64>`. -/
def convert {F : Type} (parse : Text → Option F) (zero : F) (kind : ValueKind) (v : Text) :
    Except ValueError (Value F) :=
  match kind with
  | .raw => .ok (.str v)
  | .int => (convertInt v).map .int
  | .float =>
      if ¬floatPattern v then .error .invalid
      else .ok (.float ((parse (v.filter (· ≠ '_'))).getD zero))
  | .exact list => if v ∈ list then .ok (.str v) else .error .invalid
  | .choice list =>
      if v ∈ list then .ok (.str v)
      else
        match sortByKey Text.len (list.filter fun c => completionMatch v c false) with
        | [] => .error .invalid
        | first :: rest =>
            match settle id (fun _ _ => false) first rest with
            | some canon => .ok (.str canon)
            | none => .error .ambiguous

/-! ## The candidate that begins the others -/

section Settle

variable {α : Type} {name : α → Text} {same : α → α → Bool} {size : Text → Nat} {canon c : α}

/-- A prefix that is no shorter is the whole. -/
def Measures (size : Text → Nat) : Prop :=
  ∀ a b : Text, a <+: b → size b ≤ size a → a = b

theorem measures_length : Measures List.length := fun _ _ front le =>
  front.eq_of_length (Nat.le_antisymm front.length_le le)

theorem measures_len : Measures Text.len := by
  rintro a b ⟨rest, rfl⟩ le
  rw [Text.len_append] at le
  cases rest with
  | nil => rw [List.append_nil]
  | cons c rest =>
      have positive := Char.utf8Size_pos c
      rw [Text.len_cons] at le
      omega

/-- Among candidates that are no shorter and share its name only if they are it, the first one stays
canonical. -/
theorem settle_eq_some_iff (measures : Measures size) {rest : List α}
    (longer : ∀ v ∈ rest, size (name canon) ≤ size (name v))
    (own : ∀ v ∈ rest, name v = name canon → v = canon) :
    settle name same canon rest = some c ↔
      c = canon ∧ ∀ v ∈ rest, same canon v = true ∨ name canon <+: name v := by
  induction rest with
  | nil =>
      rw [settle, Option.some.injEq]
      constructor
      · rintro rfl
        exact ⟨rfl, by simp⟩
      · rintro ⟨rfl, -⟩
        rfl
  | cons v rest ih =>
      rw [List.forall_mem_cons] at longer own
      have tail := ih longer.2 own.2
      rw [settle, List.forall_mem_cons]
      by_cases again : same canon v = true
      · rw [if_pos again, tail]
        simp [again]
      · rw [if_neg again]
        by_cases back : (name v).isPrefixOf (name canon) = true
        · have whole := own.1 (measures _ _ (List.isPrefixOf_iff_prefix.mp back) longer.1)
          subst whole
          rw [if_pos back, tail]
          simp
        · rw [if_neg back]
          by_cases front : (name canon).isPrefixOf (name v) = true
          · rw [if_pos front, tail]
            simp [List.isPrefixOf_iff_prefix.mp front]
          · rw [if_neg front]
            rw [List.isPrefixOf_iff_prefix] at front
            simp [again, front]

/-- What the sorted candidates settle on begins all candidates. -/
theorem settle_sorted_iff (name : α → Text) (measures : Measures size) {cands rest : List α} {first : α}
    (injective : ∀ a ∈ cands, ∀ b ∈ cands, name a = name b → a = b)
    (unlike : ∀ a b, a ∈ cands → b ∈ cands → same a b = true → a = b)
    (sorted : sortByKey (fun a => size (name a)) cands = first :: rest) :
    settle name same first rest = some c ↔ c ∈ cands ∧ ∀ v ∈ cands, name c <+: name v := by
  have perm := sortByKey_perm (fun a => size (name a)) cands
  have ascending := pairwise_sortByKey (fun a => size (name a)) cands
  rw [sorted] at perm ascending
  rw [List.pairwise_cons] at ascending
  have inFirst : first ∈ cands := perm.mem_iff.mp List.mem_cons_self
  have inRest {v : α} (later : v ∈ rest) : v ∈ cands := perm.mem_iff.mp (List.mem_cons_of_mem _ later)
  rw [settle_eq_some_iff measures ascending.1 fun v later => injective v (inRest later) first inFirst]
  constructor
  · rintro ⟨rfl, along⟩
    refine ⟨inFirst, fun v mem => ?_⟩
    rcases List.mem_cons.mp (perm.mem_iff.mpr mem) with rfl | later
    · exact List.prefix_rfl
    · rcases along v later with again | front
      · rw [unlike c v inFirst mem again]
      · exact front
  · rintro ⟨mem, begins⟩
    have here : c = first := by
      rcases List.mem_cons.mp (perm.mem_iff.mpr mem) with rfl | later
      · rfl
      · exact injective c mem first inFirst (measures _ _ (begins first inFirst) (ascending.1 c later))
    subst here
    exact ⟨rfl, fun v later => Or.inr (begins v (inRest later))⟩

theorem settle_id_sorted_iff {list rest : List Text} {first c : Text}
    (sorted : sortByKey Text.len list = first :: rest) :
    settle id (fun _ _ => false) first rest = some c ↔ c ∈ list ∧ ∀ v ∈ list, c <+: v :=
  settle_sorted_iff id measures_len (fun _ _ _ _ same => same) (fun _ _ _ _ again => by cases again)
    sorted

end Settle

/-! ## What a name resolves to -/

section Complete

variable {switches : List Switch} {name longer c : Text} {icase : Bool} {r : Resolved}

/-- No two registrations have one name, and none has the side of another. -/
structure Distinct (table : List (Text × Resolved)) : Prop where
  names : (table.map Prod.fst).Nodup
  targets : (table.map Prod.snd).Nodup

theorem distinct_officiousTable : Distinct officiousTable :=
  ⟨by decide, by decide⟩

/-- The abbreviation has candidates in the table, and one of them begins all of them. -/
def Stands (table : List (Text × Resolved)) (icase : Bool) (name : Text) (row : Text × Resolved) : Prop :=
  row ∈ table ∧ Abbreviates icase name row.1 ∧
    ∀ other ∈ table, Abbreviates icase name other.1 → row.1 <+: other.1

instance (table : List (Text × Resolved)) (icase : Bool) (name : Text) (row : Text × Resolved) :
    Decidable (Stands table icase name row) :=
  inferInstanceAs (Decidable (_ ∧ _ ∧ _))

/-- The abbreviation has no candidate in the table. -/
def Unknown (table : List (Text × Resolved)) (icase : Bool) (name : Text) : Prop :=
  ∀ row ∈ table, ¬Abbreviates icase name row.1

instance (table : List (Text × Resolved)) (icase : Bool) (name : Text) : Decidable (Unknown table icase name) :=
  inferInstanceAs (Decidable (∀ row ∈ table, _))

theorem mem_candidatesIn {table : List (Text × Resolved)} {row : Text × Resolved} :
    row ∈ candidatesIn table name icase ↔ row ∈ table ∧ Abbreviates icase name row.1 := by
  rw [candidatesIn, List.mem_filter, completionMatch_iff]

theorem resolveCandidates_eq_none_iff (table : List (Text × Resolved)) (name : Text) (icase : Bool) :
    resolveCandidates (candidatesIn table name icase) = none ↔ Unknown table icase name := by
  have perm := sortByKey_perm (fun cand : Text × Resolved => cand.1.length)
    (candidatesIn table name icase)
  unfold resolveCandidates Unknown
  cases sorted : sortByKey (fun cand : Text × Resolved => cand.1.length) (candidatesIn table name icase) with
  | nil =>
      rw [sorted] at perm
      refine iff_of_true rfl fun row mem abbreviates => ?_
      exact absurd (perm.mem_iff.mpr (mem_candidatesIn.mpr ⟨mem, abbreviates⟩)) List.not_mem_nil
  | cons first rest =>
      rw [sorted] at perm
      have inside := mem_candidatesIn.mp (perm.mem_iff.mp List.mem_cons_self)
      exact iff_of_false (by simp) fun unknown => unknown first inside.1 inside.2

theorem eq_of_sameSwitch {table : List (Text × Resolved)} (distinct : Distinct table) {a b : Text × Resolved}
    (inA : a ∈ table) (inB : b ∈ table) (same : sameSwitch a b = true) : a = b := by
  apply List.inj_on_of_nodup_map distinct.targets inA inB
  unfold sameSwitch at same
  split at same
  · rename_i i n j m left right
    rw [Bool.and_eq_true, decide_eq_true_eq, decide_eq_true_eq] at same
    rw [left, right, same.1, same.2]
  · cases same

theorem resolveCandidates_of_sorted {cands rest : List (Text × Resolved)} {first : Text × Resolved}
    (sorted : sortByKey (fun cand => cand.1.length) cands = first :: rest) :
    resolveCandidates cands = some (.found r) ↔ ∃ c, settleRows first rest = some (c, r) := by
  rw [resolveCandidates, sorted]
  change some (((settleRows first rest).map fun canon => Lookup.found canon.2).getD .ambiguous) = _ ↔ _
  cases settleRows first rest with
  | none => simp
  | some row =>
      rcases row with ⟨c, target⟩
      simp

theorem resolveCandidates_eq_found_iff {table : List (Text × Resolved)} (distinct : Distinct table) (name : Text)
    (icase : Bool) (r : Resolved) :
    resolveCandidates (candidatesIn table name icase) = some (.found r) ↔
      ∃ c, Stands table icase name (c, r) := by
  have sub : (candidatesIn table name icase).Sublist table := List.filter_sublist
  cases sorted : sortByKey (fun cand : Text × Resolved => cand.1.length) (candidatesIn table name icase) with
  | nil =>
      have perm := sortByKey_perm (fun cand : Text × Resolved => cand.1.length)
        (candidatesIn table name icase)
      rw [sorted] at perm
      refine iff_of_false (by rw [resolveCandidates, sorted]; simp) ?_
      rintro ⟨c, mem, abbreviates, -⟩
      exact absurd (perm.mem_iff.mpr (mem_candidatesIn.mpr ⟨mem, abbreviates⟩)) List.not_mem_nil
  | cons first rest =>
      have settled (row : Text × Resolved) :
          settleRows first rest = some row ↔ Stands table icase name row := by
        rw [settleRows, settle_sorted_iff Prod.fst measures_length
          (fun a inA b inB => List.inj_on_of_nodup_map distinct.names (sub.subset inA) (sub.subset inB))
          (fun a b inA inB => eq_of_sameSwitch distinct (sub.subset inA) (sub.subset inB)) sorted,
          mem_candidatesIn, and_assoc, Stands]
        simp only [mem_candidatesIn, and_imp]
      rw [resolveCandidates_of_sorted sorted]
      exact exists_congr fun c => settled (c, r)

theorem mem_of_lookup {table : List (Text × Resolved)} (found : table.lookup name = some r) :
    (name, r) ∈ table := by
  rcases List.lookup_eq_some_iff.mp found with ⟨front, back, rfl, -⟩
  simp

theorem target_of_mem_registrations {row : Text × Resolved} (mem : row ∈ registrations switches) :
    ∃ i n, i < switches.length ∧ row.2 = .switch i n := by
  rcases List.mem_flatMap.mp mem with ⟨entry, inSwitches, inEntry⟩
  rcases List.mem_map.mp inEntry with ⟨name, -, rfl⟩
  exact ⟨entry.2, name.2, List.snd_lt_of_mem_zipIdx inSwitches, rfl⟩

/-- What the officious names stand for. -/
theorem target_of_mem_officiousTable : ∀ row ∈ officiousTable,
    row.2 = .help ∨ row.2 = .version ∨ row.2 = .completionBash ∨ row.2 = .completionZsh := by
  decide

theorem settle_mem {α : Type} {name : α → Text} {same : α → α → Bool} {canon c : α} {rest : List α}
    (settled : settle name same canon rest = some c) : c = canon ∨ c ∈ rest := by
  induction rest generalizing canon with
  | nil => exact Or.inl (Option.some.inj settled).symm
  | cons v rest ih =>
      rw [settle] at settled
      split_ifs at settled
      · exact (ih settled).imp_right (List.mem_cons_of_mem v)
      · rcases ih settled with rfl | later
        · exact Or.inr List.mem_cons_self
        · exact Or.inr (List.mem_cons_of_mem v later)
      · exact (ih settled).imp_right (List.mem_cons_of_mem v)

theorem mem_of_resolveCandidates {table : List (Text × Resolved)}
    (found : resolveCandidates (candidatesIn table name icase) = some (.found r)) : ∃ c, (c, r) ∈ table := by
  cases sorted : sortByKey (fun cand : Text × Resolved => cand.1.length) (candidatesIn table name icase) with
  | nil => simp [resolveCandidates, sorted] at found
  | cons first rest =>
      have perm := sortByKey_perm (fun cand : Text × Resolved => cand.1.length)
        (candidatesIn table name icase)
      rcases (resolveCandidates_of_sorted sorted).mp found with ⟨c, settled⟩
      rw [sorted] at perm
      exact ⟨c, (mem_candidatesIn.mp (perm.mem_iff.mp (List.mem_cons.mpr (settle_mem settled)))).1⟩

theorem exactName_target (found : exactName switches name = some r) :
    (name, r) ∈ registrations switches ∨ (name, r) ∈ officiousTable ∨ (r = .terminator ∧ name = []) := by
  unfold exactName at found
  rw [Option.or_eq_some_iff, Option.or_eq_some_iff] at found
  rcases found with own | ⟨-, officious | ⟨-, last⟩⟩
  · exact Or.inl (mem_of_lookup own)
  · exact Or.inr (Or.inl (mem_of_lookup officious))
  · split_ifs at last with empty
    exact Or.inr (Or.inr ⟨(Option.some.inj last).symm, empty⟩)

/-- What a name resolves to is in one of the tables, or it is the terminator of the empty name. -/
theorem complete_target (found : complete switches name icase = .found r) :
    (∃ c, (c, r) ∈ registrations switches) ∨ (∃ c, (c, r) ∈ officiousTable) ∨ (r = .terminator ∧ name = []) := by
  unfold complete at found
  cases exact_ : exactName switches name with
  | some resolved =>
      simp only [exact_, Lookup.found.injEq] at found
      subst found
      rcases exactName_target exact_ with own | officious | ended
      · exact Or.inl ⟨name, own⟩
      · exact Or.inr (Or.inl ⟨name, officious⟩)
      · exact Or.inr (Or.inr ended)
  | none =>
      simp only [exact_] at found
      cases first : resolveCandidates (candidatesIn (registrations switches) name icase) with
      | some lookup =>
          simp only [first] at found
          rw [found] at first
          exact Or.inl (mem_of_resolveCandidates first)
      | none =>
          simp only [first] at found
          cases second : resolveCandidates (candidatesIn officiousTable name icase) with
          | some lookup =>
              simp only [second] at found
              rw [found] at second
              exact Or.inr (Or.inl (mem_of_resolveCandidates second))
          | none => simp [second] at found

/-- A name resolves to what has exactly that name; else to the candidate of the command that begins all its
candidates; else, if the command has none, to the officious one that does. -/
theorem complete_eq_found_iff (distinct : Distinct (registrations switches)) :
    complete switches name icase = .found r ↔
      exactName switches name = some r ∨
        exactName switches name = none ∧
          ((∃ c, Stands (registrations switches) icase name (c, r)) ∨
            Unknown (registrations switches) icase name ∧ ∃ c, Stands officiousTable icase name (c, r)) := by
  have own := resolveCandidates_eq_found_iff distinct name icase r
  have none_ := resolveCandidates_eq_none_iff (registrations switches) name icase
  have officious := resolveCandidates_eq_found_iff distinct_officiousTable name icase r
  unfold complete
  cases exactName switches name with
  | some resolved => simp
  | none =>
      rw [← own, ← none_, ← officious]
      cases first : resolveCandidates (candidatesIn (registrations switches) name icase) with
      | some lookup => simp
      | none =>
          cases second : resolveCandidates (candidatesIn officiousTable name icase) with
          | some lookup => simp
          | none => simp

end Complete

/-! ## A table -/

/-- `DIFF_SWITCHES`, the switches of `rigor diff`. -/
def diffSwitches : List Switch :=
  [{ key := "format".toList, names := [("format".toList, false)], style := .required,
     kind := .exact ["text".toList, "json".toList], ldesc := "--format".toList, argDesc := "=FORMAT".toList,
     desc := ["Output format (text | json). Default: text.".toList], hidden := false },
   { key := "current".toList, names := [("current".toList, false)], style := .required, kind := .raw,
     ldesc := "--current".toList, argDesc := "=PATH".toList,
     desc := ["Compare to the saved current JSON instead of running `rigor check`.".toList], hidden := false },
   { key := "config".toList, names := [("config".toList, false)], style := .required, kind := .raw,
     ldesc := "--config".toList, argDesc := "=PATH".toList,
     desc := ["Path to .rigor.yml. Forwarded to the implicit `rigor check` run.".toList], hidden := false }]

theorem distinct_diffSwitches : Distinct (registrations diffSwitches) :=
  ⟨by decide, by decide⟩

/-- `DIFF_PARSER`. -/
def diffParser : OptParser where
  banner := "Usage: rigor diff [options] <rigor-check.json> [paths...]".toList
  switches := diffSwitches

end Rigor.Cli.Options
