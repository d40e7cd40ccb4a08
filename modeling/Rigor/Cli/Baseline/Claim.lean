import Rigor.Cli.Baseline.Model

/-!
# Which bucket claims a diagnostic

The loop of `claim_bucket` computes a two-stage search: the first message row of
the entry's `(file, rule)` whose pattern matches, else the first rule row.  A
bucket is therefore determined by its key among the claiming ones, and it is the
first bucket of the file with that key.
-/

namespace Rigor.Cli.Baseline

open Rigor.Library.Grouping

variable {E : RegexEngine}

/-- A message row of `(rel, rule)` whose pattern matches the message. -/
def matchingRow (rel rule message : Text) (b : Bucket E) : Bool :=
  decide (b.file = rel) && decide (b.rule = rule) && b.message.isSome &&
    b.messageRegex.any fun re => E.isMatch re message

/-- The rule rows of `(rel, rule)`. -/
def ruleRow (rel rule : Text) (b : Bucket E) : Bool :=
  decide (b.file = rel) && decide (b.rule = rule) && b.message.isNone

/-- The claiming bucket itself. -/
def claiming (baseline : Baseline E) (entry : Entry) : Option (Bucket E) :=
  match entry.2.qualifiedRule with
  | none => none
  | some rule =>
      (baseline.buckets.find? (matchingRow entry.1 rule entry.2.message)).or
        (baseline.buckets.find? (ruleRow entry.1 rule))

theorem claimBucketLoop_eq (rel rule message : Text) (buckets : List (Bucket E)) (i : Nat)
    (ruleFallback : Option Nat) :
    claimBucketLoop rel rule message buckets i ruleFallback =
      ((buckets.findIdx? (matchingRow rel rule message)).map (· + i)).or
        (ruleFallback.or ((buckets.findIdx? (ruleRow rel rule)).map (· + i))) := by
  induction buckets generalizing i ruleFallback with
  | nil => simp [claimBucketLoop]
  | cons b rest ih =>
      have shift (found : Option Nat) :
          (found.map (· + (i + 1))) = ((found.map (· + 1)).map (· + i)) := by
        cases found <;> simp [Nat.add_assoc, Nat.add_comm 1 i]
      simp only [claimBucketLoop, List.findIdx?_cons, ih]
      by_cases elsewhere : b.file ≠ rel ∨ b.rule ≠ rule
      · have notMatching : matchingRow rel rule message b = false := by
          rcases elsewhere with file_ne | rule_ne
          · simp [matchingRow, file_ne]
          · simp [matchingRow, rule_ne]
        have notRule : ruleRow rel rule b = false := by
          rcases elsewhere with file_ne | rule_ne
          · simp [ruleRow, file_ne]
          · simp [ruleRow, rule_ne]
        simp [elsewhere, notMatching, notRule, shift]
      · simp only [elsewhere, if_false]
        push Not at elsewhere
        cases messageEq : b.message with
        | none =>
            simp only [matchingRow, ruleRow, elsewhere, messageEq]
            cases ruleFallback <;> simp [shift]
        | some source =>
            cases regexEq : b.messageRegex with
            | none => simp [matchingRow, ruleRow, elsewhere, messageEq, regexEq, shift]
            | some re =>
                by_cases hit : E.isMatch re message = true
                · simp [matchingRow, elsewhere, messageEq, regexEq, hit]
                · simp [matchingRow, ruleRow, elsewhere, messageEq, regexEq, hit, shift]

theorem claimBucket_eq (baseline : Baseline E) (entry : Entry) {rule : Text}
    (ruled : entry.2.qualifiedRule = some rule) :
    baseline.claimBucket entry.1 entry.2 =
      (baseline.buckets.findIdx? (matchingRow entry.1 rule entry.2.message)).or
        (baseline.buckets.findIdx? (ruleRow entry.1 rule)) := by
  simp [claimBucket, ruled, claimBucketLoop_eq]

/-- The index that `claimBucket` answers points at the claiming bucket. -/
theorem claimBucket_bind_getElem? (baseline : Baseline E) (entry : Entry) :
    ((baseline.claimBucket entry.1 entry.2).bind fun bi => baseline.buckets[bi]?) =
      baseline.claiming entry := by
  cases ruled : entry.2.qualifiedRule with
  | none => simp [claimBucket, claiming, ruled]
  | some rule =>
      rw [claimBucket_eq baseline entry ruled]
      simp only [claiming, ruled]
      rw [List.find?_eq_bind_findIdx?_getElem?, List.find?_eq_bind_findIdx?_getElem?]
      cases matched : baseline.buckets.findIdx? (matchingRow entry.1 rule entry.2.message) with
      | none => simp
      | some bi =>
          have inRange := (List.findIdx?_eq_some_iff_getElem.mp matched).1
          simp [List.getElem?_eq_getElem inRange]

/-- A claiming index is in range. -/
theorem exists_claiming_of_claimBucket {baseline : Baseline E} {entry : Entry} {bi : Nat}
    (claimed : baseline.claimBucket entry.1 entry.2 = some bi) :
    ∃ b, baseline.buckets[bi]? = some b ∧ baseline.claiming entry = some b := by
  have inRange : bi < baseline.buckets.length := by
    cases ruled : entry.2.qualifiedRule with
    | none => simp [claimBucket, ruled] at claimed
    | some rule =>
        rw [claimBucket_eq baseline entry ruled, Option.or_eq_some_iff] at claimed
        rcases claimed with matched | ⟨-, fallback⟩
        · exact (List.findIdx?_eq_some_iff_getElem.mp matched).1
        · exact (List.findIdx?_eq_some_iff_getElem.mp fallback).1
  refine ⟨baseline.buckets[bi], List.getElem?_eq_getElem inRange, ?_⟩
  rw [← claimBucket_bind_getElem?, claimed]
  simp [List.getElem?_eq_getElem inRange]

theorem claiming_eq_none_of_claimBucket {baseline : Baseline E} {entry : Entry}
    (unclaimed : baseline.claimBucket entry.1 entry.2 = none) :
    baseline.claiming entry = none := by
  rw [← claimBucket_bind_getElem?, unclaimed]
  rfl

theorem claimedKey_eq (baseline : Baseline E) (entry : Entry) :
    baseline.claimedKey entry = (baseline.claiming entry).map Bucket.key := by
  unfold claimedKey
  cases claimed : baseline.claimBucket entry.1 entry.2 with
  | none => simp [claiming_eq_none_of_claimBucket claimed]
  | some bi =>
      obtain ⟨b, found, claims⟩ := exists_claiming_of_claimBucket claimed
      simp [found, claims]

/-! ## What a claim says about the entry -/

theorem matchingRow_iff {rel rule message : Text} {b : Bucket E} :
    matchingRow rel rule message b = true ↔
      b.file = rel ∧ b.rule = rule ∧
        ∃ source re, b.message = some source ∧ b.messageRegex = some re ∧
          E.isMatch re message = true := by
  cases messageEq : b.message <;> cases regexEq : b.messageRegex <;>
    simp [matchingRow, messageEq, regexEq, and_assoc]

theorem ruleRow_iff {rel rule : Text} {b : Bucket E} :
    ruleRow rel rule b = true ↔ b.file = rel ∧ b.rule = rule ∧ b.message = none := by
  simp [ruleRow, and_assoc]

/-- A claim is either by a matching message row or by the first rule row. -/
theorem claiming_eq_some_iff {baseline : Baseline E} {entry : Entry} {b : Bucket E} :
    baseline.claiming entry = some b ↔
      ∃ rule, entry.2.qualifiedRule = some rule ∧
        (baseline.buckets.find? (matchingRow entry.1 rule entry.2.message) = some b ∨
          baseline.buckets.find? (matchingRow entry.1 rule entry.2.message) = none ∧
            baseline.buckets.find? (ruleRow entry.1 rule) = some b) := by
  cases ruled : entry.2.qualifiedRule with
  | none => simp [claiming, ruled]
  | some rule => simp [claiming, ruled, Option.or_eq_some_iff]

theorem claiming_mem {baseline : Baseline E} {entry : Entry} {b : Bucket E}
    (claims : baseline.claiming entry = some b) : b ∈ baseline.buckets := by
  obtain ⟨rule, -, matched | ⟨-, fallback⟩⟩ := claiming_eq_some_iff.mp claims
  · exact List.mem_of_find?_eq_some matched
  · exact List.mem_of_find?_eq_some fallback

theorem qualifiedRule_of_claiming {baseline : Baseline E} {entry : Entry} {b : Bucket E}
    (claims : baseline.claiming entry = some b) :
    b.file = entry.1 ∧ entry.2.qualifiedRule = some b.rule := by
  obtain ⟨rule, ruled, matched | ⟨-, fallback⟩⟩ := claiming_eq_some_iff.mp claims
  · obtain ⟨file_eq, rule_eq, -⟩ := matchingRow_iff.mp (List.find?_some matched)
    exact ⟨file_eq, by rw [ruled, rule_eq]⟩
  · obtain ⟨file_eq, rule_eq, -⟩ := ruleRow_iff.mp (List.find?_some fallback)
    exact ⟨file_eq, by rw [ruled, rule_eq]⟩

/-- Rows with one key match the same entries. -/
theorem matchingRow_eq_of_key_eq {a b : Bucket E} (same : a.key = b.key)
    (rel rule message : Text) :
    matchingRow rel rule message a = matchingRow rel rule message b := by
  have file_eq : a.file = b.file := congrArg Key.file same
  have rule_eq : a.rule = b.rule := congrArg Key.rule same
  have message_eq : a.message = b.message := congrArg Key.message same
  have regex_eq := Bucket.messageRegex_eq_of_key_eq same
  simp [matchingRow, file_eq, rule_eq, message_eq, regex_eq]

theorem ruleRow_eq_of_key_eq {a b : Bucket E} (same : a.key = b.key) (rel rule : Text) :
    ruleRow rel rule a = ruleRow rel rule b := by
  have file_eq : a.file = b.file := congrArg Key.file same
  have rule_eq : a.rule = b.rule := congrArg Key.rule same
  have message_eq : a.message = b.message := congrArg Key.message same
  simp [ruleRow, file_eq, rule_eq, message_eq]

/-- The first bucket satisfying a key-determined test is the first bucket with
its own key. -/
theorem find?_key_of_find? {buckets : List (Bucket E)} {test : Bucket E → Bool} {b : Bucket E}
    (respects : ∀ first second : Bucket E, first.key = second.key → test first = test second)
    (found : buckets.find? test = some b) :
    buckets.find? (fun other => decide (other.key = b.key)) = some b := by
  induction buckets with
  | nil => simp at found
  | cons head rest ih =>
      by_cases headTest : test head = true
      · have head_eq : head = b := by simpa [headTest] using found
        subst head_eq
        simp
      · have later : rest.find? test = some b := by simpa [headTest] using found
        have key_ne : head.key ≠ b.key := fun same =>
          headTest ((respects head b same).trans (List.find?_some later))
        simpa [key_ne] using ih later

/-- The claiming bucket is the first bucket of the file with its key. -/
theorem find?_key_of_claiming {baseline : Baseline E} {entry : Entry} {b : Bucket E}
    (claims : baseline.claiming entry = some b) :
    baseline.buckets.find? (fun other => decide (other.key = b.key)) = some b := by
  obtain ⟨rule, -, matched | ⟨-, fallback⟩⟩ := claiming_eq_some_iff.mp claims
  · exact find?_key_of_find? (fun _ _ same => matchingRow_eq_of_key_eq same ..) matched
  · exact find?_key_of_find? (fun _ _ same => ruleRow_eq_of_key_eq same ..) fallback

/-- Among claiming buckets the key determines the bucket. -/
theorem claiming_eq_of_key_eq {baseline : Baseline E} {first second : Entry} {a b : Bucket E}
    (firstClaims : baseline.claiming first = some a)
    (secondClaims : baseline.claiming second = some b) (same : a.key = b.key) : a = b := by
  have firstFound := find?_key_of_claiming firstClaims
  rw [same, find?_key_of_claiming secondClaims] at firstFound
  exact (Option.some.inj firstFound).symm

end Rigor.Cli.Baseline
