import Rigor.Cli.Baseline.Claim

/-!
# What the filter surfaces

The binning loop groups the stream by bin key in first-appearance order, and the
settling loop silences the bins within their bucket's threshold.  Read per
entry: an entry surfaces unless a bucket claims it and at most `count` entries
are claimed under that bucket's key.  The audit counts exactly those claims.
-/

namespace Rigor.Cli.Baseline

open Rigor.Library.Grouping

variable {E : RegexEngine}

/-- The bin key of an entry, `none` for a ruleless one. -/
def keyOf (baseline : Baseline E) (entry : Entry) : Option BinKey :=
  match entry.2.qualifiedRule with
  | none => none
  | some rule =>
      match baseline.claiming entry with
      | some b => some (.claimed b.key)
      | none => some (.noBucket entry.1 rule)

theorem binKey_eq (baseline : Baseline E) (entry : Entry) :
    baseline.binKey entry =
      (baseline.keyOf entry).map fun key => (key, baseline.claimBucket entry.1 entry.2) := by
  unfold binKey keyOf
  cases ruled : entry.2.qualifiedRule with
  | none => rfl
  | some rule =>
      cases claimed : baseline.claimBucket entry.1 entry.2 with
      | none => simp [claiming_eq_none_of_claimBucket claimed]
      | some bi =>
          obtain ⟨b, found, claims⟩ := exists_claiming_of_claimBucket claimed
          simp [found, claims]

@[simp]
theorem map_fst_binKey (baseline : Baseline E) (entry : Entry) :
    (baseline.binKey entry).map Prod.fst = baseline.keyOf entry := by
  rw [binKey_eq, Option.map_map]
  exact Option.map_id'

theorem keyOf_eq_none_iff {baseline : Baseline E} {entry : Entry} :
    baseline.keyOf entry = none ↔ entry.2.qualifiedRule = none := by
  unfold keyOf
  cases entry.2.qualifiedRule with
  | none => simp
  | some rule => cases baseline.claiming entry <;> simp

/-- Two entries of one bin are claimed by the same bucket, or both unclaimed. -/
theorem claiming_eq_of_keyOf_eq {baseline : Baseline E} {first second : Entry} {key : BinKey}
    (firstKey : baseline.keyOf first = some key) (secondKey : baseline.keyOf second = some key) :
    baseline.claiming first = baseline.claiming second := by
  unfold keyOf at firstKey secondKey
  cases firstRuled : first.2.qualifiedRule with
  | none => simp [firstRuled] at firstKey
  | some firstRule =>
      cases secondRuled : second.2.qualifiedRule with
      | none => simp [secondRuled] at secondKey
      | some secondRule =>
          cases firstClaims : baseline.claiming first with
          | none =>
              cases secondClaims : baseline.claiming second with
              | none => rfl
              | some b =>
                  simp only [firstRuled, firstClaims, secondRuled, secondClaims,
                    Option.some.injEq] at firstKey secondKey
                  exact absurd (firstKey.trans secondKey.symm) (by simp)
          | some a =>
              cases secondClaims : baseline.claiming second with
              | none =>
                  simp only [firstRuled, firstClaims, secondRuled, secondClaims,
                    Option.some.injEq] at firstKey secondKey
                  exact absurd (firstKey.trans secondKey.symm) (by simp)
              | some b =>
                  simp only [firstRuled, firstClaims, secondRuled, secondClaims,
                    Option.some.injEq] at firstKey secondKey
                  have same : a.key = b.key :=
                    BinKey.claimed.inj (firstKey.trans secondKey.symm)
                  rw [claiming_eq_of_key_eq firstClaims secondClaims same]

/-! ## The bins -/

/-- The bin keys in first-appearance order. -/
def binOrder (baseline : Baseline E) (entries : List Entry) : List BinKey :=
  (entries.filterMap baseline.keyOf).eraseDups

/-- The bucket index that opens the bin of a key: the claim of its first entry. -/
def openedBy (baseline : Baseline E) (entries : List Entry) (key : BinKey) : Option Nat :=
  (entries.find? fun entry => decide (baseline.keyOf entry = some key)).bind fun entry =>
    baseline.claimBucket entry.1 entry.2

/-- The bin of a key, in closed form. -/
def binAt (baseline : Baseline E) (entries : List Entry) (key : BinKey) : Bin where
  bucket := baseline.openedBy entries key
  diagnostics := positions (entries.map baseline.keyOf) (some key)

theorem mem_binOrder {baseline : Baseline E} {entries : List Entry} {key : BinKey} :
    key ∈ baseline.binOrder entries ↔ ∃ entry ∈ entries, baseline.keyOf entry = some key := by
  simp [binOrder, List.mem_eraseDups]

theorem nodup_binOrder (baseline : Baseline E) (entries : List Entry) :
    (baseline.binOrder entries).Nodup :=
  nodup_eraseDups _

theorem binOrder_append_singleton (baseline : Baseline E) (entries : List Entry)
    (entry : Entry) :
    baseline.binOrder (entries ++ [entry]) =
      match baseline.keyOf entry with
      | none => baseline.binOrder entries
      | some key =>
          if key ∈ baseline.binOrder entries then baseline.binOrder entries
          else baseline.binOrder entries ++ [key] := by
  unfold binOrder
  cases keyed : baseline.keyOf entry with
  | none => simp [keyed]
  | some key =>
      simp only [List.filterMap_append, List.filterMap_cons, keyed, List.filterMap_nil,
        eraseDups_append_singleton, List.mem_eraseDups]

theorem openedBy_append_singleton {baseline : Baseline E} {entries : List Entry}
    {entry : Entry} {key : BinKey} (known : key ∈ baseline.binOrder entries) :
    baseline.openedBy (entries ++ [entry]) key = baseline.openedBy entries key := by
  obtain ⟨witness, member, keyed⟩ := mem_binOrder.mp known
  unfold openedBy
  rw [List.find?_append]
  cases found : entries.find? fun entry => decide (baseline.keyOf entry = some key) with
  | none => exact absurd keyed (by simpa using List.find?_eq_none.mp found witness member)
  | some _ => rfl

theorem openedBy_append_new {baseline : Baseline E} {entries : List Entry} {entry : Entry}
    {key : BinKey} (keyed : baseline.keyOf entry = some key)
    (fresh : key ∉ baseline.binOrder entries) :
    baseline.openedBy (entries ++ [entry]) key = baseline.claimBucket entry.1 entry.2 := by
  have unseen : entries.find? (fun entry => decide (baseline.keyOf entry = some key)) = none := by
    rw [List.find?_eq_none]
    intro other member
    have := fun otherKeyed => fresh (mem_binOrder.mpr ⟨other, member, otherKeyed⟩)
    simpa using this
  simp [openedBy, List.find?_append, unseen, keyed]

theorem binAt_append_singleton {baseline : Baseline E} {entries : List Entry}
    {entry : Entry} {key : BinKey} (known : key ∈ baseline.binOrder entries) :
    baseline.binAt (entries ++ [entry]) key =
      if baseline.keyOf entry = some key then
        { baseline.binAt entries key with
          diagnostics := (baseline.binAt entries key).diagnostics ++ [entries.length] }
      else baseline.binAt entries key := by
  simp only [binAt, openedBy_append_singleton known, List.map_append, List.map_cons,
    List.map_nil, positions_append_singleton, List.length_map]
  split <;> simp

theorem binAt_append_new {baseline : Baseline E} {entries : List Entry} {entry : Entry}
    {key : BinKey} (keyed : baseline.keyOf entry = some key)
    (fresh : key ∉ baseline.binOrder entries) :
    baseline.binAt (entries ++ [entry]) key =
      ⟨baseline.claimBucket entry.1 entry.2, [entries.length]⟩ := by
  have unseen : positions (entries.map baseline.keyOf) (some key) = [] := by
    rw [List.eq_nil_iff_forall_not_mem]
    intro i member
    obtain ⟨other, atOther, otherKeyed⟩ := List.getElem?_map .. ▸ mem_positions.mp member |>
      Option.map_eq_some_iff.mp
    exact fresh (mem_binOrder.mpr ⟨other, List.mem_of_getElem? atOther, otherKeyed⟩)
  simp only [binAt, openedBy_append_new keyed fresh, List.map_append, List.map_cons,
    List.map_nil, positions_append_singleton, unseen, keyed, if_true, List.nil_append,
    List.length_map]

/-- The binning loop computes the closed form. -/
theorem binning_eq (baseline : Baseline E) (entries : List Entry) :
    (baseline.binning entries).bins =
        (baseline.binOrder entries).map (baseline.binAt entries) ∧
      (∀ key, (baseline.binning entries).slotOf.lookup key =
        (baseline.binOrder entries).idxOf? key) ∧
      (baseline.binning entries).unkeyable =
        positions (entries.map baseline.keyOf) none := by
  induction entries using List.reverseRecOn with
  | nil => exact ⟨rfl, fun _ => rfl, rfl⟩
  | append_singleton entries entry ih =>
      obtain ⟨bins_eq, slot_eq, unkeyable_eq⟩ := ih
      have step : baseline.binning (entries ++ [entry]) =
          baseline.binningStep (baseline.binning entries) (entry, entries.length) := by
        simp [binning, List.zipIdx_append]
      rw [step, binningStep, binKey_eq, binOrder_append_singleton]
      cases keyed : baseline.keyOf entry with
      | none =>
          refine ⟨?_, ?_, ?_⟩
          · simp only [Option.map_none, bins_eq]
            apply List.map_congr_left
            intro key known
            simp [binAt_append_singleton known, keyed]
          · simpa using slot_eq
          · simp [positions_append_singleton, keyed, unkeyable_eq]
      | some key =>
          have unkeyable_next : positions ((entries ++ [entry]).map baseline.keyOf) none =
              positions (entries.map baseline.keyOf) none := by
            simp [positions_append_singleton, keyed]
          rw [unkeyable_next, ← unkeyable_eq]
          simp only [Option.map_some]
          by_cases known : key ∈ baseline.binOrder entries
          · obtain ⟨pos, at_⟩ : ∃ pos, (baseline.binOrder entries).idxOf? key = some pos :=
              Option.isSome_iff_exists.mp (List.isSome_idxOf?.mpr known)
            have slot : (baseline.binning entries).slotOf.lookup key = some pos := by
              rw [slot_eq, at_]
            refine ⟨?_, ?_, ?_⟩
            · simp only [Binning.push, slot, known, if_true, bins_eq]
              rw [modify_map_of_idxOf? (nodup_binOrder baseline entries) at_]
              apply List.map_congr_left
              intro other otherKnown
              rw [binAt_append_singleton otherKnown, keyed]
              by_cases same : other = key
              · simp [same]
              · simp [same, Ne.symm same]
            · simpa [Binning.push, slot, known] using slot_eq
            · simp only [Binning.push, slot]
          · have slot : (baseline.binning entries).slotOf.lookup key = none := by
              rw [slot_eq, List.idxOf?_eq_none_iff]
              exact known
            refine ⟨?_, ?_, ?_⟩
            · simp only [Binning.push, slot, known, if_false, bins_eq]
              rw [modify_append_length, List.map_append, List.map_singleton,
                binAt_append_new keyed known]
              congr 1
              apply List.map_congr_left
              intro other otherKnown
              rw [binAt_append_singleton otherKnown, keyed, if_neg]
              intro same
              exact known (Option.some.inj same ▸ otherKnown)
            · intro sought
              simp only [Binning.push, slot, known, if_false, List.lookup_cons, bins_eq,
                List.length_map]
              rw [idxOf?_append_fresh known, ← slot_eq]
              by_cases same : sought = key
              · simp [same]
              · simp [same, beq_eq_false_iff_ne.mpr same]
            · simp only [Binning.push, slot]

/-! ## Settling -/

theorem settle_foldl (baseline : Baseline E) (bins : List Bin) (surfaced : List Nat)
    (silenced : Nat) :
    bins.foldl baseline.settle (surfaced, silenced) =
      (surfaced ++ (bins.filter fun bin => !baseline.withinThreshold bin).flatMap
          Bin.diagnostics,
        silenced + ((bins.filter baseline.withinThreshold).flatMap Bin.diagnostics).length) := by
  induction bins generalizing surfaced silenced with
  | nil => simp
  | cons bin rest ih =>
      rw [List.foldl_cons, settle]
      cases within : baseline.withinThreshold bin with
      | true => simp [ih, within, Nat.add_assoc]
      | false => simp [ih, within]

/-- How many entries are claimed under a key. -/
def claimedCount (baseline : Baseline E) (entries : List Entry) (key : Key) : Nat :=
  entries.countP fun entry => decide (baseline.claimedKey entry = some key)

/-- An entry is silenced when its claiming bucket's key stays within the
threshold. -/
def silences (baseline : Baseline E) (entries : List Entry) (entry : Entry) : Bool :=
  match baseline.claiming entry with
  | some b => decide (baseline.claimedCount entries b.key ≤ b.count)
  | none => false

theorem keyOf_eq_claimed_iff {baseline : Baseline E} {entry : Entry} {key : Key} :
    baseline.keyOf entry = some (.claimed key) ↔ baseline.claimedKey entry = some key := by
  rw [claimedKey_eq]
  cases claims : baseline.claiming entry with
  | none =>
      simp only [keyOf, claims, Option.map_none, reduceCtorEq, iff_false]
      cases entry.2.qualifiedRule <;> simp
  | some b =>
      have ruled := (qualifiedRule_of_claiming claims).2
      simp [keyOf, claims, ruled]

theorem length_positions_claimed (baseline : Baseline E) (entries : List Entry) (key : Key) :
    (positions (entries.map baseline.keyOf) (some (.claimed key))).length =
      baseline.claimedCount entries key := by
  rw [length_positions, List.countP_map, claimedCount]
  apply List.countP_congr
  intro entry _
  simp [keyOf_eq_claimed_iff]

/-- The threshold test of a bin is the entry-wise silencing test of each of its
members. -/
theorem withinThreshold_binAt {baseline : Baseline E} {entries : List Entry} {entry : Entry}
    {key : BinKey} (member : entry ∈ entries) (keyed : baseline.keyOf entry = some key) :
    baseline.withinThreshold (baseline.binAt entries key) = baseline.silences entries entry := by
  obtain ⟨opener, opener_eq⟩ : ∃ opener,
      entries.find? (fun entry => decide (baseline.keyOf entry = some key)) = some opener := by
    rw [← Option.isSome_iff_exists, List.find?_isSome]
    exact ⟨entry, member, by simpa using keyed⟩
  have openerKeyed : baseline.keyOf opener = some key := by
    simpa using List.find?_some opener_eq
  have sameClaim := claiming_eq_of_keyOf_eq openerKeyed keyed
  simp only [withinThreshold, binAt, openedBy, opener_eq, Option.bind_some, silences,
    ← sameClaim]
  cases claimed : baseline.claimBucket opener.1 opener.2 with
  | none => simp [claiming_eq_none_of_claimBucket claimed]
  | some bi =>
      obtain ⟨b, found, claims⟩ := exists_claiming_of_claimBucket claimed
      have key_eq : key = .claimed b.key := by
        have claimedAs := keyOf_eq_claimed_iff.mpr
          ((claimedKey_eq baseline opener).trans (congrArg (Option.map Bucket.key) claims))
        exact Option.some.inj (openerKeyed.symm.trans claimedAs)
      simp only [found, claims, key_eq, length_positions_claimed]

/-- The surfaced bin keys, in first-appearance order. -/
def loudKeys (baseline : Baseline E) (entries : List Entry) : List (Option BinKey) :=
  ((baseline.binOrder entries).filter fun key =>
    !baseline.withinThreshold (baseline.binAt entries key)).map some

/-- The silenced bin keys. -/
def quietKeys (baseline : Baseline E) (entries : List Entry) : List (Option BinKey) :=
  ((baseline.binOrder entries).filter fun key =>
    baseline.withinThreshold (baseline.binAt entries key)).map some

/-- The filter surfaces the loud bins one after the other, then the ruleless
entries, and counts the quiet bins. -/
theorem filter_eq {baseline : Baseline E} (nonempty : baseline.buckets ≠ [])
    (entries : List Entry) :
    baseline.filter entries =
      ((baseline.loudKeys entries ++ [none]).flatMap (positions (entries.map baseline.keyOf)),
        ((baseline.quietKeys entries).flatMap
          (positions (entries.map baseline.keyOf))).length) := by
  have occupied : baseline.buckets.isEmpty = false := by simpa using nonempty
  obtain ⟨bins_eq, -, unkeyable_eq⟩ := baseline.binning_eq entries
  simp only [filter, occupied, settle_foldl, bins_eq, unkeyable_eq, List.filter_map,
    List.flatMap_map, Bool.false_eq_true, if_false, List.nil_append, Nat.zero_add,
    loudKeys, quietKeys, List.flatMap_append, List.flatMap_singleton]
  rfl

theorem nodup_loudKeys (baseline : Baseline E) (entries : List Entry) :
    (baseline.loudKeys entries ++ [none]).Nodup :=
  nodup_map_some_append_none ((nodup_binOrder baseline entries).filter _)

theorem mem_loudKeys_iff {baseline : Baseline E} {entries : List Entry} {entry : Entry}
    (member : entry ∈ entries) :
    baseline.keyOf entry ∈ baseline.loudKeys entries ++ [none] ↔
      baseline.silences entries entry = false := by
  cases keyed : baseline.keyOf entry with
  | none =>
      have ruleless := keyOf_eq_none_iff.mp keyed
      simp [silences, claiming, ruleless]
  | some key =>
      have opened : key ∈ baseline.binOrder entries := mem_binOrder.mpr ⟨entry, member, keyed⟩
      simp [loudKeys, opened, withinThreshold_binAt member keyed]

theorem claiming_eq_none_of_empty {baseline : Baseline E} (empty : baseline.buckets = [])
    (entry : Entry) : baseline.claiming entry = none := by
  unfold claiming
  cases entry.2.qualifiedRule <;> simp [empty]

theorem filter_of_empty {baseline : Baseline E} (empty : baseline.buckets = [])
    (entries : List Entry) : baseline.filter entries = (List.range entries.length, 0) := by
  simp [filter, empty]

/-- An index surfaces exactly when its entry is not silenced. -/
theorem mem_filter_iff {baseline : Baseline E} {entries : List Entry} {i : Nat} :
    i ∈ (baseline.filter entries).1 ↔
      ∃ entry, entries[i]? = some entry ∧ baseline.silences entries entry = false := by
  by_cases empty : baseline.buckets = []
  · rw [filter_of_empty empty, List.mem_range]
    constructor
    · intro inRange
      exact ⟨entries[i], List.getElem?_eq_getElem inRange,
        by simp [silences, claiming_eq_none_of_empty empty]⟩
    · rintro ⟨entry, at_, -⟩
      exact (List.getElem?_eq_some_iff.mp at_).1
  · simp only [filter_eq empty, List.mem_flatMap, mem_positions, List.getElem?_map,
      Option.map_eq_some_iff]
    constructor
    · rintro ⟨_, loud, entry, at_, rfl⟩
      exact ⟨entry, at_, (mem_loudKeys_iff (List.mem_of_getElem? at_)).mp loud⟩
    · rintro ⟨entry, at_, loud⟩
      exact ⟨_, (mem_loudKeys_iff (List.mem_of_getElem? at_)).mpr loud, entry, at_, rfl⟩

theorem nodup_filter (baseline : Baseline E) (entries : List Entry) :
    (baseline.filter entries).1.Nodup := by
  by_cases empty : baseline.buckets = []
  · simp [filter_of_empty empty, List.nodup_range]
  · rw [filter_eq empty]
    exact nodup_flatMap_positions _ (nodup_loudKeys baseline entries)

/-- Nothing is lost: the surfaced and the silenced entries are all entries. -/
theorem length_filter_add (baseline : Baseline E) (entries : List Entry) :
    (baseline.filter entries).1.length + (baseline.filter entries).2 = entries.length := by
  by_cases empty : baseline.buckets = []
  · simp [filter_of_empty empty]
  · have split : (baseline.loudKeys entries ++ [none] ++ baseline.quietKeys entries).Perm
        ((baseline.binOrder entries).map some ++ [none]) := by
      have parts := (List.filter_append_perm
        (fun key => !baseline.withinThreshold (baseline.binAt entries key))
        (baseline.binOrder entries)).map some
      simp only [Bool.not_not, List.map_append] at parts
      calc
        _ = baseline.loudKeys entries ++ ([none] ++ baseline.quietKeys entries) :=
          List.append_assoc ..
        _ |>.Perm (baseline.loudKeys entries ++ (baseline.quietKeys entries ++ [none])) :=
          List.perm_append_comm.append_left _
        _ = baseline.loudKeys entries ++ baseline.quietKeys entries ++ [none] :=
          (List.append_assoc ..).symm
        _ |>.Perm ((baseline.binOrder entries).map some ++ [none]) := parts.append_right _
    have complete : ∀ key ∈ entries.map baseline.keyOf,
        key ∈ (baseline.binOrder entries).map some ++ [none] := by
      intro key keyMem
      obtain ⟨entry, member, rfl⟩ := List.mem_map.mp keyMem
      cases keyed : baseline.keyOf entry with
      | none => simp
      | some key => simpa using mem_binOrder.mpr ⟨entry, member, keyed⟩
    have partition := flatMap_positions_perm
      (nodup_map_some_append_none (nodup_binOrder baseline entries)) complete
    have total := ((split.flatMap_right (positions (entries.map baseline.keyOf))).trans
      partition).length_eq
    rw [List.flatMap_append, List.length_append, List.length_range, List.length_map] at total
    rw [filter_eq empty]
    exact total

end Rigor.Cli.Baseline
