import Rigor.Cli.Baseline.Escape
import Rigor.Cli.Baseline.Filter

/-!
# Filter against audit

The audit and the filter are two separate loops over the same claims.  The audit
reports `claimedCount` for every bucket, the filter silences a key exactly when
that number is at most the count of the first bucket with the key, and dropping
the cleared buckets changes neither.
-/

namespace Rigor.Cli.Baseline

open Rigor.Library.Grouping

variable {E : RegexEngine}

theorem foldl_auditStep (baseline : Baseline E) (entries : List Entry) :
    entries.foldl baseline.auditStep [] = tally (entries.filterMap baseline.claimedKey) := by
  induction entries using List.reverseRecOn with
  | nil => rfl
  | append_singleton entries entry ih =>
      rw [List.foldl_append, ih, List.filterMap_append]
      cases claimed : baseline.claimedKey entry with
      | none => simp [auditStep, claimed]
      | some key => simp [auditStep, claimed, tally_append_singleton]

theorem count_filterMap_claimedKey (baseline : Baseline E) (entries : List Entry) (key : Key) :
    (entries.filterMap baseline.claimedKey).count key = baseline.claimedCount entries key := by
  induction entries with
  | nil => rfl
  | cons entry rest ih =>
      cases claimed : baseline.claimedKey entry with
      | none => simpa [claimedCount, claimed] using ih
      | some other =>
          rw [List.filterMap_cons, claimed, List.count_cons, ih]
          by_cases same : other = key <;> simp [claimedCount, claimed, same]

/-- The audit reports, for every bucket in file order, how many entries are
claimed under its key. -/
theorem audit_eq (baseline : Baseline E) (entries : List Entry) :
    baseline.audit entries =
      baseline.buckets.map fun b =>
        { bucket := b
          actual := baseline.claimedCount entries b.key
          status := statusFor (baseline.claimedCount entries b.key) b.count
          delta := (baseline.claimedCount entries b.key : Int) - (b.count : Int) } := by
  simp only [audit, foldl_auditStep, getD_lookup_tally, count_filterMap_claimedKey]

theorem mem_audit_iff {baseline : Baseline E} {entries : List Entry} {row : DriftRow E} :
    row ∈ baseline.audit entries ↔
      row.bucket ∈ baseline.buckets ∧
        row.actual = baseline.claimedCount entries row.bucket.key ∧
        row.status = statusFor row.actual row.bucket.count ∧
        row.delta = (row.actual : Int) - (row.bucket.count : Int) := by
  rw [audit_eq, List.mem_map]
  constructor
  · rintro ⟨b, member, rfl⟩
    exact ⟨member, rfl, rfl, rfl⟩
  · rcases row with ⟨bucket, actual, status, delta⟩
    rintro ⟨member, actual_eq, status_eq, delta_eq⟩
    refine ⟨bucket, member, ?_⟩
    simp_all

theorem statusFor_eq_cleared_iff {actual count : Nat} :
    statusFor actual count = .cleared ↔ actual = 0 := by
  unfold statusFor
  split
  · simp_all
  · split
    · simp_all
    · split <;> simp_all

/-! ## Agreement -/

/-- Every ruleless entry stands behind every surfaced keyed one. -/
def RulelessLast (baseline : Baseline E) (entries : List Entry) : Prop :=
  ∀ (i j : Fin entries.length), entries[i].2.qualifiedRule = none →
    entries[j].2.qualifiedRule ≠ none → j.val ∈ (baseline.filter entries).1 →
      [j.val, i.val].Sublist (baseline.filter entries).1

instance (baseline : Baseline E) (entries : List Entry) :
    Decidable (baseline.RulelessLast entries) :=
  inferInstanceAs (Decidable (∀ (_ _ : Fin entries.length), _ → _ → _ → _))

theorem rulelessLast_of_nonempty {baseline : Baseline E} (nonempty : baseline.buckets ≠ [])
    (entries : List Entry) : baseline.RulelessLast entries := by
  intro i j ruleless ruled surfaced
  rw [filter_eq nonempty, List.flatMap_append] at surfaced ⊢
  have iLast : i.val ∈ [none].flatMap (positions (entries.map baseline.keyOf)) := by
    simpa [mem_positions, List.getElem?_eq_getElem i.isLt] using keyOf_eq_none_iff.mpr ruleless
  have jNotLast : j.val ∉ [none].flatMap (positions (entries.map baseline.keyOf)) := by
    simpa [mem_positions, List.getElem?_eq_getElem j.isLt, keyOf_eq_none_iff] using ruled
  have jKeyed := (List.mem_append.mp surfaced).resolve_right jNotLast
  exact (List.singleton_sublist.mpr jKeyed).append (List.singleton_sublist.mpr iLast)

/-- Surfaced members of one bin keep their stream order. -/
theorem pair_sublist_filter {baseline : Baseline E} {entries : List Entry} {i j : Nat}
    {first second : Entry} (before : i < j) (atI : entries[i]? = some first)
    (atJ : entries[j]? = some second) (sameBin : baseline.keyOf first = baseline.keyOf second)
    (surfaced : i ∈ (baseline.filter entries).1) :
    [i, j].Sublist (baseline.filter entries).1 := by
  by_cases empty : baseline.buckets = []
  · rw [filter_of_empty empty]
    apply pair_sublist_of_increasing List.pairwise_lt_range _ _ before
    · exact List.mem_range.mpr (List.getElem?_eq_some_iff.mp atI).1
    · exact List.mem_range.mpr (List.getElem?_eq_some_iff.mp atJ).1
  · obtain ⟨entry, at_, loud⟩ := mem_filter_iff.mp surfaced
    obtain rfl : first = entry := Option.some.inj (atI.symm.trans at_)
    have keyMem := (mem_loudKeys_iff (List.mem_of_getElem? at_)).mpr loud
    rw [filter_eq empty]
    have iMem : i ∈ positions (entries.map baseline.keyOf) (baseline.keyOf first) := by
      simp [mem_positions, atI]
    have jMem : j ∈ positions (entries.map baseline.keyOf) (baseline.keyOf first) := by
      simp [mem_positions, atJ, sameBin]
    apply (pair_sublist_of_increasing (sorted_positions _ _) iMem jMem before).trans
    · obtain ⟨front, back, split⟩ := List.append_of_mem keyMem
      rw [split, List.flatMap_append, List.flatMap_cons]
      exact (List.sublist_append_left _ _).trans (List.sublist_append_right _ _)

/-- Filter and audit agree on every baseline and stream. -/
theorem filter_agrees_audit (baseline : Baseline E) (entries : List Entry) :
    (baseline.filter entries).1.Nodup ∧
      (∀ i ∈ (baseline.filter entries).1, i < entries.length) ∧
      (baseline.filter entries).1.length + (baseline.filter entries).2 = entries.length ∧
      (∀ row ∈ baseline.audit entries, ∀ first,
        baseline.buckets.find? (fun b => decide (b.key = row.bucket.key)) = some first →
        ∀ i entry, entries[i]? = some entry →
          baseline.claimedKey entry = some row.bucket.key →
          (i ∉ (baseline.filter entries).1 ↔ row.actual ≤ first.count)) ∧
      (∀ i entry, entries[i]? = some entry → baseline.claimedKey entry = none →
        i ∈ (baseline.filter entries).1) ∧
      (∀ i j first second, i < j → entries[i]? = some first → entries[j]? = some second →
        (baseline.binKey first).map Prod.fst = (baseline.binKey second).map Prod.fst →
        i ∈ (baseline.filter entries).1 → [i, j].Sublist (baseline.filter entries).1) ∧
      (baseline.buckets ≠ [] → baseline.RulelessLast entries) ∧
      (baseline.buckets = [] → (baseline.filter entries).1 = List.range entries.length) := by
  refine ⟨nodup_filter baseline entries, ?_, length_filter_add baseline entries, ?_, ?_, ?_,
    fun nonempty => rulelessLast_of_nonempty nonempty entries,
    fun empty => by rw [filter_of_empty empty]⟩
  · intro i surfaced
    obtain ⟨entry, at_, -⟩ := mem_filter_iff.mp surfaced
    exact (List.getElem?_eq_some_iff.mp at_).1
  · intro row rowMem first firstFound i entry at_ claimed
    obtain ⟨-, actual_eq, -⟩ := mem_audit_iff.mp rowMem
    obtain ⟨b, claims, key_eq⟩ := Option.map_eq_some_iff.mp
      ((claimedKey_eq baseline entry).symm.trans claimed)
    have b_eq : b = first := by
      have found := find?_key_of_claiming claims
      rw [key_eq] at found
      exact Option.some.inj (found.symm.trans firstFound)
    subst b_eq
    simp only [mem_filter_iff, at_, Option.some.injEq, exists_eq_left', silences, claims,
      decide_eq_false_iff_not, not_not, key_eq, actual_eq]
  · intro i entry at_ unclaimed
    rw [claimedKey_eq, Option.map_eq_none_iff] at unclaimed
    exact mem_filter_iff.mpr ⟨entry, at_, by simp [silences, unclaimed]⟩
  · intro i j first second before atI atJ sameBin surfaced
    rw [map_fst_binKey, map_fst_binKey] at sameBin
    exact pair_sublist_filter before atI atJ sameBin surfaced

/-- An empty baseline passes the stream through: a ruleless entry in front of a
keyed one stays in front. -/
theorem not_rulelessLast_empty :
    ¬RulelessLast (⟨[]⟩ : Baseline literalEngine)
      [("a.rb".toList, ⟨noRule, "m".toList⟩), ("a.rb".toList, ⟨"r".toList, "m".toList⟩)] := by
  decide

/-! ## Dropping the cleared buckets -/

/-- The buckets that the audit reports as cleared. -/
def clearedBuckets (baseline : Baseline E) (entries : List Entry) : List (Bucket E) :=
  ((baseline.audit entries).filter fun row => row.status = .cleared).map DriftRow.bucket

theorem mem_clearedBuckets_iff {baseline : Baseline E} {entries : List Entry} {b : Bucket E} :
    b ∈ baseline.clearedBuckets entries ↔
      b ∈ baseline.buckets ∧ baseline.claimedCount entries b.key = 0 := by
  simp [clearedBuckets, audit_eq, statusFor_eq_cleared_iff]

/-- Dropping the cleared buckets keeps exactly those whose key claims an
entry. -/
theorem buckets_without_cleared (baseline : Baseline E) (entries : List Entry) :
    (baseline.without (baseline.clearedBuckets entries)).buckets =
      baseline.buckets.filter fun b => decide (baseline.claimedCount entries b.key ≠ 0) := by
  apply List.filter_congr
  intro b member
  rw [Bool.eq_iff_iff]
  simp only [Bool.not_eq_true', List.any_eq_false, Bucket.bucketEq_iff,
    mem_clearedBuckets_iff, decide_eq_true_eq]
  constructor
  · intro survives zero
    exact survives b ⟨member, zero⟩ rfl
  · rintro nonzero other ⟨-, zero⟩ rfl
    exact nonzero zero

theorem find?_filter_of_found {α : Type} {test keep : α → Bool} {items : List α}
    (kept : ∀ item, items.find? test = some item → keep item = true) :
    (items.filter keep).find? test = items.find? test := by
  induction items with
  | nil => rfl
  | cons head rest ih =>
      by_cases hit : test head = true
      · have headKept : keep head = true := kept head (by simp [hit])
        simp [headKept, hit]
      · have skip : (head :: rest).find? test = rest.find? test := by simp [hit]
        have restKept := ih fun item found => kept item (skip.trans found)
        rw [skip, List.filter_cons]
        split
        · simpa [hit] using restKept
        · exact restKept

theorem claimedCount_pos {baseline : Baseline E} {entries : List Entry} {entry : Entry}
    {b : Bucket E} (member : entry ∈ entries) (claims : baseline.claiming entry = some b) :
    baseline.claimedCount entries b.key ≠ 0 := by
  have positive : 0 < baseline.claimedCount entries b.key := by
    rw [claimedCount, List.countP_pos_iff]
    exact ⟨entry, member, by simp [claimedKey_eq, claims]⟩
  exact Nat.pos_iff_ne_zero.mp positive

/-- Every entry keeps its claiming bucket when the cleared ones are dropped. -/
theorem claiming_without_cleared {baseline : Baseline E} {entries : List Entry} {entry : Entry}
    (member : entry ∈ entries) :
    (baseline.without (baseline.clearedBuckets entries)).claiming entry =
      baseline.claiming entry := by
  unfold claiming
  rw [buckets_without_cleared]
  cases ruled : entry.2.qualifiedRule with
  | none => rfl
  | some rule =>
      let keep (b : Bucket E) : Bool := decide (baseline.claimedCount entries b.key ≠ 0)
      have matchedKept :
          (baseline.buckets.filter keep).find? (matchingRow entry.1 rule entry.2.message) =
            baseline.buckets.find? (matchingRow entry.1 rule entry.2.message) := by
        apply find?_filter_of_found
        intro b matched
        simpa [keep] using claimedCount_pos member
          (claiming_eq_some_iff.mpr ⟨rule, ruled, Or.inl matched⟩)
      dsimp only
      rw [matchedKept]
      cases matched : baseline.buckets.find? (matchingRow entry.1 rule entry.2.message) with
      | some b => rfl
      | none =>
          rw [Option.none_or, Option.none_or]
          apply find?_filter_of_found
          intro b fallback
          simpa using claimedCount_pos member
            (claiming_eq_some_iff.mpr ⟨rule, ruled, Or.inr ⟨matched, fallback⟩⟩)

theorem claimedCount_congr {first second : Baseline E} {entries : List Entry}
    (same : ∀ entry ∈ entries, first.claiming entry = second.claiming entry) (key : Key) :
    first.claimedCount entries key = second.claimedCount entries key := by
  apply List.countP_congr
  intro entry member
  rw [claimedKey_eq, claimedKey_eq, same entry member]

/-- Baselines with the same claims filter a stream alike. -/
theorem filter_congr {first second : Baseline E} {entries : List Entry}
    (same : ∀ entry ∈ entries, first.claiming entry = second.claiming entry) :
    (∀ i, i ∈ (first.filter entries).1 ↔ i ∈ (second.filter entries).1) ∧
      (first.filter entries).2 = (second.filter entries).2 := by
  have surfaced : ∀ i, i ∈ (first.filter entries).1 ↔ i ∈ (second.filter entries).1 := by
    intro i
    rw [mem_filter_iff, mem_filter_iff]
    apply exists_congr
    intro entry
    refine and_congr_right fun at_ => ?_
    rw [silences, silences, same entry (List.mem_of_getElem? at_)]
    simp only [claimedCount_congr same]
  refine ⟨surfaced, ?_⟩
  have sameLength := ((List.perm_ext_iff_of_nodup (nodup_filter first entries)
    (nodup_filter second entries)).mpr surfaced).length_eq
  have firstAll := length_filter_add first entries
  have secondAll := length_filter_add second entries
  omega

/-- Dropping the cleared buckets is invisible to the filter, and a second
audit-and-drop removes nothing. -/
theorem filter_without_cleared (baseline : Baseline E) (entries : List Entry) :
    (∀ i, i ∈ ((baseline.without (baseline.clearedBuckets entries)).filter entries).1 ↔
        i ∈ (baseline.filter entries).1) ∧
      ((baseline.without (baseline.clearedBuckets entries)).filter entries).2 =
        (baseline.filter entries).2 ∧
      (baseline.without (baseline.clearedBuckets entries)).without
          ((baseline.without (baseline.clearedBuckets entries)).clearedBuckets entries) =
        baseline.without (baseline.clearedBuckets entries) := by
  have same : ∀ entry ∈ entries,
      (baseline.without (baseline.clearedBuckets entries)).claiming entry =
        baseline.claiming entry :=
    fun _ member => claiming_without_cleared member
  refine ⟨(filter_congr same).1, (filter_congr same).2, ?_⟩
  have sameBuckets := buckets_without_cleared
    (baseline.without (baseline.clearedBuckets entries)) entries
  rw [List.filter_eq_self.mpr] at sameBuckets
  · rcases secondDrop : (baseline.without (baseline.clearedBuckets entries)).without
      ((baseline.without (baseline.clearedBuckets entries)).clearedBuckets entries)
    rw [secondDrop] at sameBuckets
    simp only at sameBuckets
    rw [sameBuckets]
  · intro b kept
    rw [buckets_without_cleared, List.mem_filter] at kept
    rw [claimedCount_congr same]
    exact kept.2

end Rigor.Cli.Baseline
