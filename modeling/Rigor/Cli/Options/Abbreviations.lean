import Rigor.Cli.Options.Lookup

/-!
# Abbreviations of the declared names

When an abbreviation is accepted, when it is refused, and what more letters of the name change.
-/

namespace Rigor.Cli.Options

/-! ## Longer keys -/

section Longer

variable {icase : Bool} {key q cand : Text}

/-- A longer key asks for more. -/
theorem completionLoop_of_append (inRun : Bool) (found : completionLoop icase inRun (key ++ q) cand = true) :
    completionLoop icase inRun key cand = true := by
  induction key generalizing inRun cand with
  | nil => rw [completionLoop]
  | cons k key ih =>
      rw [List.cons_append, completionLoop.eq_def] at found
      rw [completionLoop.eq_def]
      by_cases word : isWord k = true
      · simp only [word, if_true] at found ⊢
        cases cand with
        | nil => cases found
        | cons c cand =>
            simp only at found ⊢
            split_ifs at found ⊢
            exact ih true found
      · simp only [word, Bool.false_eq_true, if_false] at found ⊢
        generalize (if inRun then cand.dropWhile isWord else cand) = cand at found ⊢
        cases cand with
        | nil => cases found
        | cons c cand =>
            simp only at found ⊢
            split_ifs at found ⊢
            exact ih false found

theorem Abbreviates.of_append (abbreviates : Abbreviates icase (key ++ q) cand) : Abbreviates icase key cand := by
  rw [← completionMatch_iff] at abbreviates ⊢
  exact completionLoop_of_append false abbreviates

theorem sameChar_self (icase : Bool) (c : Char) : sameChar icase c c = true := by
  cases icase <;> simp [sameChar]

theorem completionLoop_self (inRun : Bool) : completionLoop icase inRun key (key ++ q) = true := by
  induction key generalizing inRun with
  | nil => rw [completionLoop]
  | cons k key ih =>
      rw [List.cons_append, completionLoop.eq_def]
      by_cases word : isWord k = true
      · simp [word, sameChar_self, ih]
      · have stays : (if inRun then (k :: (key ++ q)).dropWhile isWord else k :: (key ++ q)) =
            k :: (key ++ q) := by
          simp [List.dropWhile_cons_of_neg word]
        simp only [word, Bool.false_eq_true, if_false, stays, sameChar_self, if_true, ih]

theorem abbreviates_append (key q : Text) : Abbreviates icase key (key ++ q) :=
  (completionMatch_iff key (key ++ q) icase).mp (completionLoop_self false)

theorem length_of_completionLoop (inRun : Bool) (found : completionLoop icase inRun key cand = true) :
    key.length ≤ cand.length := by
  induction key generalizing inRun cand with
  | nil => exact Nat.zero_le _
  | cons k key ih =>
      rw [completionLoop.eq_def] at found
      by_cases word : isWord k = true
      · simp only [word, if_true] at found
        cases cand with
        | nil => cases found
        | cons c cand =>
            simp only at found
            split_ifs at found
            exact Nat.succ_le_succ (ih true found)
      · simp only [word, Bool.false_eq_true, if_false] at found
        have shorter : (if inRun then cand.dropWhile isWord else cand).length ≤ cand.length := by
          split_ifs
          · exact (List.dropWhile_sublist _).length_le
          · exact le_rfl
        generalize (if inRun then cand.dropWhile isWord else cand) = dropped at found shorter
        cases dropped with
        | nil => cases found
        | cons c dropped =>
            simp only at found
            split_ifs at found
            exact (Nat.succ_le_succ (ih false found)).trans shorter

/-- An abbreviation is no longer than what it abbreviates. -/
theorem Abbreviates.length_le (abbreviates : Abbreviates icase key cand) : key.length ≤ cand.length :=
  length_of_completionLoop false ((completionMatch_iff key cand icase).mpr abbreviates)

end Longer

/-! ## Accepted and refused -/

section Settled

variable {switches : List Switch} {name q c : Text} {icase : Bool} {r : Resolved}

theorem complete_eq_invalid_iff : complete switches name icase = .invalid ↔
    exactName switches name = none ∧ Unknown (registrations switches) icase name ∧
      Unknown officiousTable icase name := by
  rw [← resolveCandidates_eq_none_iff, ← resolveCandidates_eq_none_iff]
  have never {cands : List (Text × Resolved)} : resolveCandidates cands ≠ some .invalid := by
    cases sorted : Library.StableSort.sortByKey (fun cand : Text × Resolved => cand.1.length) cands with
    | nil => simp [resolveCandidates, sorted]
    | cons first rest =>
        rw [resolveCandidates, sorted]
        change some (((settleRows first rest).map fun canon => Lookup.found canon.2).getD .ambiguous) ≠ _
        cases settleRows first rest <;> simp
  unfold complete
  cases exactName switches name with
  | some resolved => simp
  | none =>
      cases first : resolveCandidates (candidatesIn (registrations switches) name icase) with
      | some lookup =>
          have other : lookup ≠ .invalid := fun same => never (same ▸ first)
          simp [other]
      | none =>
          cases second : resolveCandidates (candidatesIn officiousTable name icase) with
          | some lookup =>
              have other : lookup ≠ .invalid := fun same => never (same ▸ second)
              simp [other]
          | none => simp

theorem Stands.of_append {table : List (Text × Resolved)} {row : Text × Resolved}
    (stands : Stands table icase name row) (longer : Abbreviates icase (name ++ q) row.1) :
    Stands table icase (name ++ q) row :=
  ⟨stands.1, longer, fun other mem abbreviates => stands.2.2 other mem abbreviates.of_append⟩

theorem lookup_of_mem {table : List (Text × Resolved)} (distinct : Distinct table) (mem : (c, r) ∈ table) :
    table.lookup c = some r := by
  cases found : table.lookup c with
  | none => exact absurd rfl (bne_iff_ne.mp (List.lookup_eq_none_iff.mp found _ mem))
  | some other =>
      rcases List.lookup_eq_some_iff.mp found with ⟨front, back, split, -⟩
      have also_ : (c, other) ∈ table := by simp [split]
      exact congrArg (some ∘ Prod.snd) (List.inj_on_of_nodup_map distinct.names also_ mem rfl)

theorem mem_of_exactName {i : Nat} {n : Bool} (found : exactName switches name = some (.switch i n)) :
    (name, Resolved.switch i n) ∈ registrations switches := by
  rcases exactName_target found with own | officious | ⟨target, -⟩
  · exact own
  · have target := target_of_mem_officiousTable _ officious
    simp at target
  · cases target

end Settled

/-- A name is refused where nothing begins with it, and otherwise found exactly where it is a name or where
one of its candidates begins them all. -/
theorem complete_settles (switches : List Switch) (name : Text) (icase : Bool)
    (distinct : Distinct (registrations switches)) :
    (∀ r, complete switches name icase = .found r ↔
      exactName switches name = some r ∨
        exactName switches name = none ∧
          ((∃ c, Stands (registrations switches) icase name (c, r)) ∨
            Unknown (registrations switches) icase name ∧ ∃ c, Stands officiousTable icase name (c, r))) ∧
    (complete switches name icase = .invalid ↔
      exactName switches name = none ∧ Unknown (registrations switches) icase name ∧
        Unknown officiousTable icase name) :=
  ⟨fun _ => complete_eq_found_iff distinct, complete_eq_invalid_iff⟩

theorem complete_settles_diff :
    complete diffSwitches "Cur".toList true = .found (.switch 1 false) ∧
      complete diffSwitches "Cur".toList false = .invalid := by
  have folded := complete_settles diffSwitches "Cur".toList true distinct_diffSwitches
  have strict := complete_settles diffSwitches "Cur".toList false distinct_diffSwitches
  exact ⟨(folded.1 _).mpr (Or.inr ⟨by decide, Or.inl ⟨"current".toList, by decide⟩⟩),
    strict.2.mpr ⟨by decide, by decide, by decide⟩⟩

/-- An abbreviation that is accepted for a name means the same with every further letter of that name, unless
it has become the name of an officious switch. -/
theorem complete_of_longer (switches : List Switch) (name q c : Text) (i : Nat) (n icase : Bool)
    (distinct : Distinct (registrations switches)) (named : (c, .switch i n) ∈ registrations switches)
    (accepted : complete switches name icase = .found (.switch i n))
    (longer : Abbreviates icase (name ++ q) c) (notOfficious : officiousTable.lookup (name ++ q) = none) :
    complete switches (name ++ q) icase = .found (.switch i n) := by
  have unique {other : Text} (mem : (other, Resolved.switch i n) ∈ registrations switches) : other = c :=
    congrArg Prod.fst (List.inj_on_of_nodup_map distinct.targets mem named rfl)
  have lookup := lookup_of_mem distinct named
  rcases (complete_eq_found_iff distinct).mp accepted with same | ⟨none_, ⟨other, stands⟩ | ⟨-, other, stands⟩⟩
  · have whole := unique (mem_of_exactName same)
    subst whole
    have nothing : q = [] := by
      have le := longer.length_le
      rw [List.length_append] at le
      exact List.length_eq_zero_iff.mp (Nat.le_zero.mp (Nat.le_of_add_le_add_left (a := name.length) le))
    subst nothing
    rwa [List.append_nil]
  · have here := unique stands.1
    subst here
    apply (complete_eq_found_iff distinct).mpr
    cases own : (registrations switches).lookup (name ++ q) with
    | some r =>
        -- The longer name is itself declared: it begins with `other`, and is no longer.
        have front := stands.2.2 _ (mem_of_lookup own) (abbreviates_append name q)
        have whole : other = name ++ q := front.eq_of_length_le longer.length_le
        rw [whole, own] at lookup
        exact Or.inl (by rw [exactName, own, lookup]; rfl)
    | none =>
        have nonempty : name ++ q ≠ [] := by
          intro nothing
          rw [List.append_eq_nil_iff] at nothing
          rw [nothing.1] at none_
          exact absurd none_ (by simp [exactName])
        refine Or.inr ⟨?_, Or.inl ⟨other, stands.of_append longer⟩⟩
        rw [exactName, own, notOfficious, if_neg nonempty]
        rfl
  · have target := target_of_mem_officiousTable _ stands.1
    simp at target

theorem complete_of_longer_diff :
    complete diffSwitches ("cu".toList ++ "rr".toList) true = .found (.switch 1 false) :=
  complete_of_longer diffSwitches "cu".toList "rr".toList "current".toList 1 false true distinct_diffSwitches
    (by decide)
    ((complete_eq_found_iff distinct_diffSwitches).mpr (Or.inr ⟨by decide, Or.inl ⟨"current".toList, by decide⟩⟩))
    (by decide) (by decide)

/-- An argument from a list is one of the list, or it abbreviates some of the list and one of these begins
them all; that one is delivered. -/
theorem convert_choice_iff {F : Type} (parse : Text → Option F) (zero : F) (list : List Text) (v : Text)
    (value : Value F) :
    convert parse zero (.choice list) v = .ok value ↔
      ∃ c, value = .str c ∧ (v ∈ list ∧ c = v ∨ v ∉ list ∧ c ∈ list ∧ Abbreviates false v c ∧
        ∀ other ∈ list, Abbreviates false v other → c <+: other) := by
  rw [convert]
  by_cases inside : v ∈ list
  · rw [if_pos inside, Except.ok.injEq]
    constructor
    · rintro rfl
      exact ⟨v, rfl, Or.inl ⟨inside, rfl⟩⟩
    · rintro ⟨c, rfl, ⟨-, rfl⟩ | ⟨outside, -⟩⟩
      · rfl
      · exact absurd inside outside
  · have member (c : Text) : c ∈ list.filter (fun c => completionMatch v c false) ↔
        c ∈ list ∧ Abbreviates false v c := by
      rw [List.mem_filter, completionMatch_iff]
    have perm := Library.StableSort.sortByKey_perm Text.len (list.filter fun c => completionMatch v c false)
    rw [if_neg inside]
    cases sorted : Library.StableSort.sortByKey Text.len (list.filter fun c => completionMatch v c false) with
    | nil =>
        rw [sorted] at perm
        refine iff_of_false (by simp) ?_
        rintro ⟨c, -, ⟨within, -⟩ | ⟨-, mem, abbreviates, -⟩⟩
        · exact inside within
        · exact absurd (perm.mem_iff.mpr ((member c).mpr ⟨mem, abbreviates⟩)) List.not_mem_nil
    | cons first rest =>
        have settled (c : Text) : settle id (fun _ _ => false) first rest = some c ↔
            c ∈ list ∧ Abbreviates false v c ∧ ∀ other ∈ list, Abbreviates false v other → c <+: other := by
          rw [settle_id_sorted_iff sorted, member, and_assoc]
          simp only [member, and_imp]
        simp only
        cases outcome : settle id (fun _ _ => false) first rest with
        | none =>
            refine iff_of_false (by simp) ?_
            rintro ⟨c, -, ⟨within, -⟩ | ⟨-, along⟩⟩
            · exact inside within
            · rw [(settled c).mpr along] at outcome
              cases outcome
        | some canon =>
            simp only [Except.ok.injEq]
            constructor
            · rintro rfl
              exact ⟨canon, rfl, Or.inr ⟨inside, (settled canon).mp outcome⟩⟩
            · rintro ⟨c, rfl, ⟨within, -⟩ | ⟨-, along⟩⟩
              · exact absurd within inside
              · rw [(settled c).mpr along] at outcome
                rw [Option.some.inj outcome]

end Rigor.Cli.Options
