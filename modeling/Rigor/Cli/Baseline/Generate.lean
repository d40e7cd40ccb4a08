import Mathlib.Data.List.Infix
import Rigor.Cli.Baseline.Audit

/-!
# A generated baseline on its own run

`from_diagnostics` records one bucket per key in first-appearance order.  On the
very entries it was generated from, a rule-mode baseline claims every entry
under its own key.  A message-mode baseline claims an entry under the key of the
first entry whose message occurs in its message, so it silences the run exactly
when that first entry always carries the same message.
-/

namespace Rigor.Cli.Baseline

open Rigor.Library.Grouping

variable {E : RegexEngine}

theorem foldl_censusStep (mode : MatchMode) (entries : List Entry) :
    entries.foldl (Census.step mode) { order := [], counts := [] } =
      { order := (entries.filterMap (entryKey mode)).eraseDups
        counts := tally (entries.filterMap (entryKey mode)) } := by
  induction entries using List.reverseRecOn with
  | nil => rfl
  | append_singleton entries entry ih =>
      rw [List.foldl_append, ih, List.filterMap_append]
      cases keyed : entryKey mode entry with
      | none => simp [Census.step, keyed]
      | some key =>
          simp only [List.foldl_cons, List.foldl_nil, Census.step, keyed, Census.record,
            List.filterMap_cons, List.filterMap_nil, tally_append_singleton,
            eraseDups_append_singleton, lookup_tally]
          by_cases seen : key ∈ entries.filterMap (entryKey mode) <;> simp [seen]

/-- The recorded keys of a run. -/
def recordedKeys (mode : MatchMode) (entries : List Entry) : List Key :=
  entries.filterMap (entryKey mode)

/-- One bucket per recorded key, in first-appearance order, with its count. -/
theorem buckets_fromDiagnostics (entries : List Entry) (mode : MatchMode) :
    (fromDiagnostics entries mode : Baseline E).buckets =
      (recordedKeys mode entries).eraseDups.map fun key =>
        bucketOfKey key ((recordedKeys mode entries).count key) := by
  simp only [fromDiagnostics, foldl_censusStep, getD_lookup_tally, recordedKeys]

@[simp]
theorem key_bucketOfKey (key : Key) (count : Nat) :
    (bucketOfKey key count : Bucket E).key = key := by
  rcases key with ⟨file, rule, _ | message⟩ <;> rfl

@[simp]
theorem count_bucketOfKey (key : Key) (count : Nat) :
    (bucketOfKey key count : Bucket E).count = count := by
  rcases key with ⟨file, rule, _ | message⟩ <;> rfl

theorem find?_eraseDups {κ : Type} [DecidableEq κ] (test : κ → Bool) (keys : List κ) :
    keys.eraseDups.find? test = keys.find? test := by
  induction keys using List.reverseRecOn with
  | nil => rfl
  | append_singleton keys key ih =>
      rw [eraseDups_append_singleton, List.find?_append]
      split
      · rename_i seen
        rw [ih]
        cases found : keys.find? test with
        | some other => rfl
        | none => simpa using List.find?_eq_none.mp found key seen
      · rw [List.find?_append, ih]

/-- Searching the buckets of a generated baseline is searching the run's keys. -/
theorem find?_buckets_fromDiagnostics (entries : List Entry) (mode : MatchMode)
    (test : Bucket E → Bool)
    (respects : ∀ first second : Bucket E, first.key = second.key → test first = test second) :
    ((fromDiagnostics entries mode : Baseline E).buckets.find? test).map Bucket.key =
      (recordedKeys mode entries).find? fun key => test (bucketOfKey key 0) := by
  rw [buckets_fromDiagnostics, List.find?_map, Option.map_map]
  have pointwise : (test ∘ fun key =>
      bucketOfKey key ((recordedKeys mode entries).count key)) =
      fun key => test (bucketOfKey key 0) := by
    funext key
    exact respects _ _ (by simp)
  rw [pointwise, find?_eraseDups]
  simp [Function.comp_def]

/-- The bucket that claims an entry records the occurrences of its key. -/
theorem count_of_claiming {entries : List Entry} {mode : MatchMode} {entry : Entry}
    {b : Bucket E} (claims : (fromDiagnostics entries mode).claiming entry = some b) :
    b.count = (recordedKeys mode entries).count b.key := by
  have member := claiming_mem claims
  rw [buckets_fromDiagnostics, List.mem_map] at member
  obtain ⟨key, -, rfl⟩ := member
  simp

theorem count_recordedKeys (mode : MatchMode) (entries : List Entry) (key : Key) :
    (recordedKeys mode entries).count key =
      entries.countP fun entry => decide (entryKey mode entry = some key) := by
  induction entries with
  | nil => rfl
  | cons entry rest ih =>
      cases keyed : entryKey mode entry with
      | none => simpa [recordedKeys, keyed] using ih
      | some other =>
          rw [recordedKeys, List.filterMap_cons, keyed, List.count_cons, ← recordedKeys, ih]
          by_cases same : other = key <;> simp [keyed, same]

/-! ## Silencing the whole run -/

/-- What generating a baseline and filtering the same run should give: exactly
the ruleless entries surface, and the rest is counted as silenced. -/
def SilencesRun (baseline : Baseline E) (entries : List Entry) : Prop :=
  (∀ i, i ∈ (baseline.filter entries).1 ↔
      ∃ entry, entries[i]? = some entry ∧ entry.2.qualifiedRule = none) ∧
    (baseline.filter entries).2 = entries.countP fun entry => entry.2.qualifiedRule.isSome

theorem silencesRun_iff {baseline : Baseline E} {entries : List Entry} :
    baseline.SilencesRun entries ↔
      ∀ entry ∈ entries, entry.2.qualifiedRule ≠ none → baseline.silences entries entry = true := by
  constructor
  · rintro ⟨surfaced, -⟩ entry member ruled
    obtain ⟨i, at_⟩ := List.mem_iff_getElem?.mp member
    by_contra loud
    obtain ⟨other, atOther, ruleless⟩ := (surfaced i).mp
      (mem_filter_iff.mpr ⟨entry, at_, by simpa using loud⟩)
    obtain rfl : entry = other := Option.some.inj (at_.symm.trans atOther)
    exact ruled ruleless
  · intro silent
    have surfaced : ∀ i, i ∈ (baseline.filter entries).1 ↔
        ∃ entry, entries[i]? = some entry ∧ entry.2.qualifiedRule = none := by
      intro i
      rw [mem_filter_iff]
      constructor
      · rintro ⟨entry, at_, loud⟩
        refine ⟨entry, at_, ?_⟩
        by_contra ruled
        simp [silent entry (List.mem_of_getElem? at_) ruled] at loud
      · rintro ⟨entry, at_, ruleless⟩
        exact ⟨entry, at_, by simp [silences, claiming, ruleless]⟩
    refine ⟨surfaced, ?_⟩
    have rulelessPositions : (baseline.filter entries).1.Perm
        (positions (entries.map fun entry => entry.2.qualifiedRule) none) := by
      rw [List.perm_ext_iff_of_nodup (nodup_filter baseline entries) (nodup_positions _ _)]
      intro i
      simp [surfaced, mem_positions]
    have total := length_filter_add baseline entries
    rw [rulelessPositions.length_eq, length_positions, List.countP_map] at total
    have split := List.length_eq_countP_add_countP
      (fun entry : Entry => entry.2.qualifiedRule.isSome) (l := entries)
    have rulelessCount : entries.countP
          ((fun other => decide (other = none)) ∘ fun entry : Entry => entry.2.qualifiedRule) =
        entries.countP fun entry => decide ¬entry.2.qualifiedRule.isSome = true := by
      apply List.countP_congr
      intro entry _
      simp
    omega

/-- If every entry is claimed under its own key, the run is silenced. -/
theorem silencesRun_of_claimedKey_eq {entries : List Entry} {mode : MatchMode}
    (own : ∀ entry ∈ entries,
      (fromDiagnostics entries mode : Baseline E).claimedKey entry = entryKey mode entry) :
    (fromDiagnostics entries mode : Baseline E).SilencesRun entries := by
  rw [silencesRun_iff]
  intro entry member ruled
  have keyed : (entryKey mode entry).isSome := by
    unfold entryKey
    cases ruleEq : entry.2.qualifiedRule with
    | none => exact absurd ruleEq ruled
    | some rule => rfl
  rw [← own entry member, claimedKey_eq, Option.isSome_map] at keyed
  obtain ⟨b, claims⟩ := Option.isSome_iff_exists.mp keyed
  have sameCount : (fromDiagnostics entries mode : Baseline E).claimedCount entries b.key =
      (recordedKeys mode entries).count b.key := by
    rw [count_recordedKeys]
    apply List.countP_congr
    intro other otherMem
    rw [own other otherMem]
  simp [silences, claims, sameCount, count_of_claiming claims]

/-- The claimed key of a generated baseline, as a search through the run. -/
theorem claimedKey_fromDiagnostics (entries : List Entry) (mode : MatchMode) {entry : Entry}
    {rule : Text} (ruled : entry.2.qualifiedRule = some rule) :
    (fromDiagnostics entries mode : Baseline E).claimedKey entry =
      ((recordedKeys mode entries).find? fun key =>
          matchingRow entry.1 rule entry.2.message (bucketOfKey key 0 : Bucket E)).or
        ((recordedKeys mode entries).find? fun key =>
          ruleRow entry.1 rule (bucketOfKey key 0 : Bucket E)) := by
  rw [claimedKey_eq, claiming, ruled]
  dsimp only
  rw [Option.map_or,
    find?_buckets_fromDiagnostics _ _ _ fun _ _ same => matchingRow_eq_of_key_eq same ..,
    find?_buckets_fromDiagnostics _ _ _ fun _ _ same => ruleRow_eq_of_key_eq same ..]

theorem entryKey_eq_some_iff {mode : MatchMode} {entry : Entry} {key : Key} :
    entryKey mode entry = some key ↔
      ∃ rule, entry.2.qualifiedRule = some rule ∧
        key = { file := entry.1
                rule := rule
                message :=
                  match mode with
                  | .rule => none
                  | .message => some (regexpEscape entry.2.message) } := by
  unfold entryKey
  cases entry.2.qualifiedRule with
  | none => simp
  | some rule =>
      constructor
      · intro keyed
        exact ⟨rule, rfl, (Option.some.inj keyed).symm⟩
      · rintro ⟨_, same, rfl⟩
        cases same
        rfl

/-! ### Rule mode -/

theorem claimedKey_rule {entries : List Entry} {entry : Entry} (member : entry ∈ entries) :
    (fromDiagnostics entries .rule : Baseline E).claimedKey entry = entryKey .rule entry := by
  cases ruled : entry.2.qualifiedRule with
  | none => simp [claimedKey_eq, claiming, entryKey, ruled]
  | some rule =>
      have own : entryKey .rule entry = some ⟨entry.1, rule, none⟩ :=
        entryKey_eq_some_iff.mpr ⟨rule, ruled, rfl⟩
      have noMessage : ∀ key ∈ recordedKeys .rule entries, key.message = none := by
        intro key keyMem
        obtain ⟨other, -, keyed⟩ := List.mem_filterMap.mp keyMem
        obtain ⟨otherRule, -, rfl⟩ := entryKey_eq_some_iff.mp keyed
        rfl
      have noMatch : (recordedKeys .rule entries).find? (fun key =>
          matchingRow entry.1 rule entry.2.message (bucketOfKey key 0 : Bucket E)) = none := by
        rw [List.find?_eq_none]
        intro key keyMem
        simp [matchingRow, bucketOfKey, noMessage key keyMem, Bucket.ruleRow]
      rw [claimedKey_fromDiagnostics entries .rule ruled, noMatch, Option.none_or, own]
      cases found : (recordedKeys .rule entries).find? fun key =>
          ruleRow entry.1 rule (bucketOfKey key 0 : Bucket E) with
      | none =>
          have ownMem : ⟨entry.1, rule, none⟩ ∈ recordedKeys .rule entries :=
            List.mem_filterMap.mpr ⟨entry, member, own⟩
          have missed := List.find?_eq_none.mp found _ ownMem
          exact absurd (by simp [ruleRow, bucketOfKey, Bucket.ruleRow]) missed
      | some key =>
          have noMessageKey := noMessage key (List.mem_of_find?_eq_some found)
          have rowed : ruleRow entry.1 rule (bucketOfKey key 0 : Bucket E) = true :=
            (List.find?_eq_some_iff_append.mp found).1
          obtain ⟨file_eq, rule_eq, -⟩ := ruleRow_iff.mp rowed
          rcases key with ⟨keyFile, keyRule, keyMessage⟩
          obtain rfl : keyMessage = none := noMessageKey
          simp only [bucketOfKey, Bucket.ruleRow] at file_eq rule_eq
          rw [file_eq, rule_eq]

/-! ### Message mode -/

/-- `other` shares the entry's file and rule, and its message occurs in the
entry's message. -/
def fragmentOf (entry other : Entry) : Bool :=
  decide (other.1 = entry.1) && decide (other.2.ruleId = entry.2.ruleId) &&
    decide (other.2.message <:+: entry.2.message)

theorem fragmentOf_iff {entry other : Entry} :
    fragmentOf entry other = true ↔
      other.1 = entry.1 ∧ other.2.ruleId = entry.2.ruleId ∧
        other.2.message <:+: entry.2.message := by
  simp [fragmentOf, and_assoc]

theorem qualifiedRule_eq_some_iff {diag : Diagnostic} {rule : Text} :
    diag.qualifiedRule = some rule ↔ diag.ruleId ≠ noRule ∧ diag.ruleId = rule := by
  simp [Diagnostic.qualifiedRule]

theorem matchingRow_recorded (matchesLiterals : E.MatchesLiterals) {entry other : Entry}
    {rule : Text} (ruled : entry.2.qualifiedRule = some rule) :
    ((entryKey .message other).any fun key =>
        matchingRow entry.1 rule entry.2.message (bucketOfKey key 0 : Bucket E)) =
      fragmentOf entry other := by
  obtain ⟨re, compiles, isMatch_iff⟩ := matchesLiterals other.2.message
  obtain ⟨isRuled, rfl⟩ := qualifiedRule_eq_some_iff.mp ruled
  rw [Bool.eq_iff_iff, fragmentOf_iff]
  cases otherRuled : other.2.qualifiedRule with
  | none =>
      have otherRuleless : other.2.ruleId = noRule := by
        simpa [Diagnostic.qualifiedRule] using otherRuled
      have notKeyed : entryKey .message other = none := by simp [entryKey, otherRuled]
      simp only [notKeyed, Option.any_none, Bool.false_eq_true, false_iff, not_and]
      rintro - sameRule
      exact absurd (sameRule.symm.trans otherRuleless) isRuled
  | some otherRule =>
      obtain ⟨-, rfl⟩ := qualifiedRule_eq_some_iff.mp otherRuled
      simp [entryKey, otherRuled, matchingRow_iff, bucketOfKey, Bucket.messageRow, compiles,
        Except.toOption, isMatch_iff]

/-- In message mode an entry is claimed under the key of the first entry of the
run whose message occurs in its own. -/
theorem claimedKey_message (matchesLiterals : E.MatchesLiterals) (entries : List Entry)
    {entry : Entry} (ruled : entry.2.qualifiedRule ≠ none) :
    (fromDiagnostics entries .message : Baseline E).claimedKey entry =
      (entries.find? (fragmentOf entry)).bind (entryKey .message) := by
  obtain ⟨rule, ruleEq⟩ := Option.ne_none_iff_exists'.mp ruled
  have noRuleRow : (recordedKeys .message entries).find? (fun key =>
      ruleRow entry.1 rule (bucketOfKey key 0 : Bucket E)) = none := by
    rw [List.find?_eq_none]
    intro key keyMem
    obtain ⟨other, -, keyed⟩ := List.mem_filterMap.mp keyMem
    obtain ⟨otherRule, -, rfl⟩ := entryKey_eq_some_iff.mp keyed
    simp [ruleRow, bucketOfKey, Bucket.messageRow]
  rw [claimedKey_fromDiagnostics entries .message ruleEq, noRuleRow, Option.or_none,
    recordedKeys, List.find?_filterMap]
  congr 2
  funext other
  exact matchingRow_recorded matchesLiterals ruleEq

/-- No entry of a run is claimed away from its own message: the first entry with
its file and rule whose message occurs in its message carries the very same
message. -/
def FragmentsAgree (entries : List Entry) : Prop :=
  ∀ entry ∈ entries, entry.2.qualifiedRule ≠ none →
    ∀ first, entries.find? (fragmentOf entry) = some first →
      first.2.message = entry.2.message

instance (entries : List Entry) : Decidable (FragmentsAgree entries) :=
  decidable_of_iff
    (∀ entry ∈ entries, entry.2.qualifiedRule ≠ none →
      ((entries.find? (fragmentOf entry)).all fun first =>
        decide (first.2.message = entry.2.message)) = true)
    (by simp only [FragmentsAgree, Option.all_eq_true, decide_eq_true_eq])

theorem exists_first_fragment {entries : List Entry} {entry : Entry} (member : entry ∈ entries) :
    ∃ first, entries.find? (fragmentOf entry) = some first := by
  rw [← Option.isSome_iff_exists, List.find?_isSome]
  exact ⟨entry, member, fragmentOf_iff.mpr ⟨rfl, rfl, List.infix_refl _⟩⟩

theorem entryKey_message_eq_iff {first second : Entry}
    (file_eq : first.1 = second.1) (rule_eq : first.2.ruleId = second.2.ruleId)
    (ruled : second.2.qualifiedRule ≠ none) :
    entryKey .message first = entryKey .message second ↔
      first.2.message = second.2.message := by
  obtain ⟨rule, ruleEq⟩ := Option.ne_none_iff_exists'.mp ruled
  have firstRuled : first.2.qualifiedRule = some rule := by
    rw [qualifiedRule_eq_some_iff] at ruleEq ⊢
    rwa [rule_eq]
  simp [entryKey, ruleEq, firstRuled, file_eq, regexpEscape_injective.eq_iff]

/-- The first fragment of an entry is its own first fragment. -/
theorem find?_fragmentOf_first {entries : List Entry} {entry first : Entry}
    (found : entries.find? (fragmentOf entry) = some first) :
    entries.find? (fragmentOf first) = some first := by
  obtain ⟨file_eq, rule_eq, occurs⟩ := fragmentOf_iff.mp (List.find?_some found)
  obtain ⟨-, front, back, rfl, before⟩ := List.find?_eq_some_iff_append.mp found
  rw [List.find?_eq_some_iff_append]
  refine ⟨fragmentOf_iff.mpr ⟨rfl, rfl, List.infix_refl _⟩, front, back, rfl, ?_⟩
  intro other otherMem
  have skipped := before other otherMem
  simp only [Bool.not_eq_true', Bool.eq_false_iff, ne_eq, fragmentOf_iff] at skipped ⊢
  rintro ⟨otherFile, otherRule, otherOccurs⟩
  exact skipped ⟨otherFile.trans file_eq, otherRule.trans rule_eq, otherOccurs.trans occurs⟩

/-- An entry claimed under a foreign key overfills the bucket of that key. -/
theorem count_lt_claimedCount (matchesLiterals : E.MatchesLiterals) {entries : List Entry}
    {entry first : Entry} (member : entry ∈ entries) (ruled : entry.2.qualifiedRule ≠ none)
    (found : entries.find? (fragmentOf entry) = some first)
    (foreign : first.2.message ≠ entry.2.message) {key : Key}
    (firstKeyed : entryKey .message first = some key) :
    (recordedKeys .message entries).count key <
      (fromDiagnostics entries .message : Baseline E).claimedCount entries key := by
  obtain ⟨file_eq, rule_eq, -⟩ := fragmentOf_iff.mp (List.find?_some found)
  have claimedForeign :
      (fromDiagnostics entries .message : Baseline E).claimedKey entry = some key := by
    rw [claimedKey_message matchesLiterals entries ruled, found, Option.bind_some, firstKeyed]
  have ownKey : entryKey .message entry ≠ some key := by
    rw [← firstKeyed]
    intro same
    exact foreign ((entryKey_message_eq_iff file_eq rule_eq ruled).mp same.symm)
  have included : ∀ other ∈ entries, entryKey .message other = some key →
      (fromDiagnostics entries .message : Baseline E).claimedKey other = some key := by
    intro other otherMem otherKeyed
    obtain ⟨rule, otherRuled, rfl⟩ := entryKey_eq_some_iff.mp otherKeyed
    have sameFragments : fragmentOf other = fragmentOf first := by
      obtain ⟨firstRule, firstRuled, sameKey⟩ := entryKey_eq_some_iff.mp firstKeyed
      simp only [Key.mk.injEq, Option.some.injEq, regexpEscape_injective.eq_iff] at sameKey
      obtain ⟨sameFile, sameRule, sameMessage⟩ := sameKey
      obtain ⟨-, rfl⟩ := qualifiedRule_eq_some_iff.mp otherRuled
      obtain ⟨-, rfl⟩ := qualifiedRule_eq_some_iff.mp firstRuled
      funext third
      simp [fragmentOf, sameFile, sameRule, sameMessage]
    rw [claimedKey_message matchesLiterals entries (by simp [otherRuled]), sameFragments,
      find?_fragmentOf_first found, Option.bind_some, firstKeyed]
  rw [count_recordedKeys, claimedCount]
  exact countP_lt_countP
    (fun other otherMem keyed => by simpa using included other otherMem (by simpa using keyed))
    member (by simpa using claimedForeign) (by simpa using ownKey)

/-- A generated baseline silences its own run in both modes exactly when no
message occurs in a different message of the same file and rule that is recorded
later. -/
theorem silencesRun_iff_fragmentsAgree (matchesLiterals : E.MatchesLiterals)
    (entries : List Entry) :
    ((fromDiagnostics entries .message : Baseline E).SilencesRun entries ∧
        (fromDiagnostics entries .rule : Baseline E).SilencesRun entries) ↔
      FragmentsAgree entries := by
  have ruleMode : (fromDiagnostics entries .rule : Baseline E).SilencesRun entries :=
    silencesRun_of_claimedKey_eq fun _ member => claimedKey_rule member
  constructor
  · rintro ⟨messageMode, -⟩ entry member ruled first found
    by_contra foreign
    obtain ⟨file_eq, rule_eq, -⟩ := fragmentOf_iff.mp (List.find?_some found)
    obtain ⟨rule, ruleEq⟩ := Option.ne_none_iff_exists'.mp ruled
    have firstRuled : first.2.qualifiedRule = some rule := by
      rw [qualifiedRule_eq_some_iff] at ruleEq ⊢
      rwa [rule_eq]
    have firstKeyed : entryKey .message first =
        some ⟨first.1, rule, some (regexpEscape first.2.message)⟩ :=
      entryKey_eq_some_iff.mpr ⟨rule, firstRuled, rfl⟩
    have overfull := count_lt_claimedCount matchesLiterals member ruled found foreign firstKeyed
    have silent := silencesRun_iff.mp messageMode entry member ruled
    have claimed := claimedKey_message matchesLiterals entries ruled
    rw [found, Option.bind_some, firstKeyed, claimedKey_eq, Option.map_eq_some_iff] at claimed
    obtain ⟨b, claims, key_eq⟩ := claimed
    rw [silences, claims] at silent
    simp only [decide_eq_true_eq, count_of_claiming claims, key_eq] at silent
    exact absurd silent (Nat.not_le.mpr overfull)
  · intro agree
    refine ⟨silencesRun_of_claimedKey_eq ?_, ruleMode⟩
    intro entry member
    by_cases ruled : entry.2.qualifiedRule = none
    · simp [claimedKey_eq, claiming, entryKey, ruled]
    · obtain ⟨first, found⟩ := exists_first_fragment member
      obtain ⟨file_eq, rule_eq, -⟩ := fragmentOf_iff.mp (List.find?_some found)
      rw [claimedKey_message matchesLiterals entries ruled, found, Option.bind_some]
      exact (entryKey_message_eq_iff file_eq rule_eq ruled).mpr
        (agree entry member ruled first found)

/-- Two unrelated messages of one file and rule are silenced in both modes. -/
theorem silencesRun_unrelated :
    let run : List Entry :=
      [("a.rb".toList, ⟨"r".toList, "x.y".toList⟩), ("a.rb".toList, ⟨"r".toList, "ab".toList⟩)]
    (fromDiagnostics run .message : Baseline literalEngine).SilencesRun run ∧
      (fromDiagnostics run .rule : Baseline literalEngine).SilencesRun run :=
  (silencesRun_iff_fragmentsAgree literalEngine_matchesLiterals _).mpr (by decide)

/-- The message `b` first, then `ab`: both land in the bucket of `b`, which
recorded one occurrence, and both surface. -/
theorem not_silencesRun_fragment :
    let run : List Entry :=
      [("a.rb".toList, ⟨"r".toList, "b".toList⟩), ("a.rb".toList, ⟨"r".toList, "ab".toList⟩)]
    literalEngine.MatchesLiterals ∧
      (fromDiagnostics run .message : Baseline literalEngine).filter run = ([0, 1], 0) ∧
      ¬(fromDiagnostics run .message : Baseline literalEngine).SilencesRun run := by
  refine ⟨literalEngine_matchesLiterals, by decide, ?_⟩
  rintro ⟨-, silenced⟩
  exact absurd silenced (by decide)

end Rigor.Cli.Baseline
