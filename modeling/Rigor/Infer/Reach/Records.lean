import Mathlib.Data.List.Perm.Subperm
import Rigor.Infer.Reach.Memo

/-!
# What the frames record

Interned keys keep their ids apart, a frame records every id it is told, and an entry matches a stack
only if the stack answers the recorded tests as the first one did.
-/

namespace Rigor.Infer.Reach

/-! ## Interned keys -/

structure KeysOk (keys : List (Text × Nat)) : Prop where
  bound {key : Text} {id : Nat} : keys.lookup key = some id → id < keys.length
  injective {key other : Text} {id : Nat} : keys.lookup key = some id →
    keys.lookup other = some id → key = other

def KeysGrow (keys more : List (Text × Nat)) : Prop :=
  ∀ key id, keys.lookup key = some id → more.lookup key = some id

/-- Every id belongs to a key. -/
def Known (keys : List (Text × Nat)) (ids : List Nat) : Prop :=
  ∀ id ∈ ids, ∃ key, keys.lookup key = some id

/-- The id of the key is among the ids. -/
def Holds (keys : List (Text × Nat)) (ids : List Nat) (key : Text) : Prop :=
  ∃ id ∈ ids, keys.lookup key = some id

theorem keysOk_nil : KeysOk [] :=
  ⟨fun found => absurd found (by simp), fun found => absurd found (by simp)⟩

theorem KeysGrow.refl (keys : List (Text × Nat)) : KeysGrow keys keys :=
  fun _ _ found => found

theorem KeysGrow.trans {keys middle more : List (Text × Nat)} (first : KeysGrow keys middle)
    (second : KeysGrow middle more) : KeysGrow keys more :=
  fun key id found => second key id (first key id found)

theorem Known.grow {keys more : List (Text × Nat)} {ids : List Nat} (known : Known keys ids)
    (grow : KeysGrow keys more) : Known more ids := by
  intro id member
  obtain ⟨key, found⟩ := known id member
  exact ⟨key, grow key id found⟩

theorem Holds.grow {keys more : List (Text × Nat)} {ids wider : List Nat} {key : Text}
    (holds : Holds keys ids key) (grow : KeysGrow keys more) (subset : ids ⊆ wider) :
    Holds more wider key := by
  obtain ⟨id, member, found⟩ := holds
  exact ⟨id, subset member, grow key id found⟩

/-- Ids keep their keys. -/
theorem Holds.shrink {keys more : List (Text × Nat)} {ids : List Nat} {key : Text}
    (holds : Holds more ids key) (ok : KeysOk more) (grow : KeysGrow keys more)
    (known : Known keys ids) : Holds keys ids key := by
  obtain ⟨id, member, found⟩ := holds
  obtain ⟨other, before⟩ := known id member
  obtain rfl := ok.injective found (grow other id before)
  exact ⟨id, member, before⟩

section Intern

variable {Out Dead : Type} {memo : ReachMemo Out Dead} {key : Text}

theorem intern_lookup : (memo.intern key).1.keys.lookup key = some (memo.intern key).2 := by
  unfold ReachMemo.intern
  split
  case h_1 id found => exact found
  case h_2 => simp

theorem intern_grow : KeysGrow memo.keys (memo.intern key).1.keys := by
  intro other id found
  unfold ReachMemo.intern
  split
  case h_1 => exact found
  case h_2 missing =>
      rw [List.lookup_cons]
      have distinct : (other == key) = false := by
        rw [beq_eq_false_iff_ne]
        rintro rfl
        rw [missing] at found
        exact absurd found (by simp)
      simp only [distinct]
      exact found

theorem intern_keysOk (ok : KeysOk memo.keys)
    (room : memo.keys.lookup key = none → memo.keys.length ≤ u32Max) :
    KeysOk (memo.intern key).1.keys := by
  unfold ReachMemo.intern
  split
  case h_1 => exact ok
  case h_2 missing =>
      have fresh : memo.keys.length % (u32Max + 1) = memo.keys.length :=
        Nat.mod_eq_of_lt (Nat.lt_succ_of_le (room missing))
      rw [fresh]
      constructor
      · intro other id found
        rw [List.lookup_cons] at found
        split at found
        · obtain rfl := Option.some.inj found
          exact Nat.lt_succ_self _
        · exact Nat.lt_succ_of_lt (ok.bound found)
      · intro first second id foundFirst foundSecond
        rw [List.lookup_cons] at foundFirst foundSecond
        split at foundFirst
        case h_1 sameFirst =>
            obtain rfl := Option.some.inj foundFirst
            split at foundSecond
            case h_1 sameSecond =>
                exact (beq_iff_eq.mp sameFirst).trans (beq_iff_eq.mp sameSecond).symm
            case h_2 => exact absurd (ok.bound foundSecond) (Nat.lt_irrefl _)
        case h_2 =>
            split at foundSecond
            case h_1 =>
                obtain rfl := Option.some.inj foundSecond
                exact absurd (ok.bound foundFirst) (Nat.lt_irrefl _)
            case h_2 => exact ok.injective foundFirst foundSecond

theorem intern_ast : (memo.intern key).1.ast = memo.ast := by
  unfold ReachMemo.intern
  split <;> rfl

theorem intern_dead : (memo.intern key).1.dead = memo.dead := by
  unfold ReachMemo.intern
  split <;> rfl

theorem intern_entries : (memo.intern key).1.entries = memo.entries := by
  unfold ReachMemo.intern
  split <;> rfl

end Intern

/-! ## Frames -/

namespace MemoFrames

/-- Marking records every id, and a marked id is recorded. -/
theorem markAll_spec {stamp : Nat} {ids : List Nat} {marks : Nat → Nat} {tested : List Nat}
    (recorded : ∀ id, marks id = stamp → id ∈ tested) :
    (∀ id, id ∈ (markAll stamp ids marks tested).2 ↔ id ∈ tested ∨ id ∈ ids) ∧
      (∀ id, (markAll stamp ids marks tested).1 id = stamp →
        id ∈ (markAll stamp ids marks tested).2) ∧
      ∀ id, (markAll stamp ids marks tested).1 id = marks id ∨
        (markAll stamp ids marks tested).1 id = stamp := by
  induction ids generalizing marks tested with
  | nil => exact ⟨fun id => by simp [markAll], recorded, fun id => .inl rfl⟩
  | cons first ids inductionHypothesis =>
      rw [markAll]
      split
      case isTrue marked =>
          obtain ⟨members, kept, values⟩ := inductionHypothesis recorded
          refine ⟨fun id => ?_, kept, values⟩
          rw [members, List.mem_cons]
          constructor
          · rintro (before | later)
            · exact .inl before
            · exact .inr (.inr later)
          · rintro (before | rfl | later)
            · exact .inl before
            · exact .inl (recorded id marked)
            · exact .inr later
      case isFalse =>
          have recordedFirst : ∀ id, Function.update marks first stamp id = stamp →
              id ∈ tested ++ [first] := by
            intro id marked
            by_cases same : id = first
            · simp [same]
            · rw [Function.update_of_ne same] at marked
              exact List.mem_append_left _ (recorded id marked)
          obtain ⟨members, kept, values⟩ := inductionHypothesis recordedFirst
          refine ⟨fun id => ?_, kept, fun id => ?_⟩
          · rw [members, List.mem_append, List.mem_singleton, List.mem_cons, or_assoc]
          · rcases values id with same | stamped
            · by_cases isFirst : id = first
              · subst isFirst
                rw [Function.update_self] at same
                exact .inr same
              · rw [Function.update_of_ne isFirst] at same
                exact .inl same
            · exact .inr stamped

theorem mem_addFolding {folding more : List TruthyKey} {p : TruthyKey} :
    p ∈ addFolding folding more ↔ p ∈ folding ∨ p ∈ more := by
  unfold addFolding
  induction more generalizing folding with
  | nil => simp
  | cons first more inductionHypothesis =>
      rw [List.foldl_cons, inductionHypothesis, List.mem_cons]
      split
      case isTrue member =>
          constructor
          · rintro (before | later)
            · exact .inl before
            · exact .inr (.inr later)
          · rintro (before | rfl | later)
            · exact .inl before
            · exact .inl member
            · exact .inr later
      case isFalse => rw [List.mem_append, List.mem_singleton, or_assoc]

/-- The marks of a frame are ids it recorded. -/
def Marked (marks : Nat → Nat → Nat) (nextStamp : Nat) : List MemoFrame → Prop
  | [] => True
  | .barrier :: outer => Marked marks nextStamp outer
  | .reach _ stamp tested _ :: outer =>
      stamp ≤ nextStamp ∧ (∀ id, marks outer.length id = stamp → id ∈ tested) ∧
        Marked marks nextStamp outer

/-- Stamps are not above the counter, and every frame is marked as it recorded. -/
structure Ok (memo : MemoFrames) : Prop where
  bound (depth id : Nat) : memo.marks depth id ≤ memo.nextStamp
  marked : Marked memo.marks memo.nextStamp memo.frames

theorem ok_start : start.Ok :=
  ⟨fun _ _ => Nat.le_refl _, trivial⟩

/-- Only the marks below the depth of the list matter. -/
theorem Marked.congr {marks other : Nat → Nat → Nat} {nextStamp bound : Nat}
    {frames : List MemoFrame} (marked : Marked marks nextStamp frames) (le : nextStamp ≤ bound)
    (same : ∀ depth < frames.length, other depth = marks depth) :
    Marked other bound frames := by
  induction frames with
  | nil => trivial
  | cons frame outer inductionHypothesis =>
      have sameOuter : ∀ depth < outer.length, other depth = marks depth :=
        fun depth below => same depth (Nat.lt_succ_of_lt below)
      cases frame with
      | barrier => exact inductionHypothesis marked sameOuter
      | reach seen stamp tested folding =>
          obtain ⟨low, recorded, markedOuter⟩ := marked
          refine ⟨Nat.le_trans low le, fun id stamped => ?_,
            inductionHypothesis markedOuter sameOuter⟩
          rw [same outer.length (Nat.lt_succ_self _)] at stamped
          exact recorded id stamped

theorem Ok.pop {memo : MemoFrames} (ok : memo.Ok) : memo.pop.Ok := by
  refine ⟨ok.bound, ?_⟩
  have marked := ok.marked
  unfold MemoFrames.pop
  cases frames : memo.frames with
  | nil => trivial
  | cons frame outer =>
      rw [frames] at marked
      cases frame with
      | barrier => exact marked
      | reach seen stamp tested folding => exact marked.2.2

theorem Ok.pushBarrier {memo : MemoFrames} (ok : memo.Ok) : memo.pushBarrier.Ok :=
  ⟨ok.bound, ok.marked⟩

theorem marked_of_no_reach {marks : Nat → Nat → Nat} {nextStamp : Nat} {frames : List MemoFrame}
    (none : frames.any MemoFrame.isReach = false) : Marked marks nextStamp frames := by
  induction frames with
  | nil => trivial
  | cons frame outer inductionHypothesis =>
      rw [List.any_cons, Bool.or_eq_false_iff] at none
      cases frame with
      | barrier => exact inductionHypothesis none.2
      | reach seen stamp tested folding => exact absurd none.1 (by simp [MemoFrame.isReach])

/-- A new frame has a stamp of its own, unless the stamps wrap while a computation is
in progress. -/
theorem Ok.pushReach {memo : MemoFrames} (ok : memo.Ok) (seen : Nat)
    (noWrap : memo.nextStamp = u32Max → memo.frames.any MemoFrame.isReach = false) :
    (memo.pushReach seen).Ok := by
  unfold MemoFrames.pushReach
  split
  case isTrue full =>
      refine ⟨fun depth id => Nat.zero_le _, Nat.le_refl _, fun id stamped => ?_,
        marked_of_no_reach (noWrap full)⟩
      exact absurd stamped (by simp)
  case isFalse =>
      refine ⟨fun depth id => Nat.le_succ_of_le (ok.bound depth id), Nat.le_refl _,
        fun id stamped => ?_, ok.marked.congr (Nat.le_succ _) fun _ _ => rfl⟩
      have above : memo.marks memo.frames.length id = memo.nextStamp + 1 := stamped
      have low := ok.bound memo.frames.length id
      omega

theorem pushReach_frames (memo : MemoFrames) (seen : Nat) :
    ∃ stamp, (memo.pushReach seen).frames = .reach seen stamp [] [] :: memo.frames := by
  unfold MemoFrames.pushReach
  split <;> exact ⟨_, rfl⟩

theorem Ok.record {memo : MemoFrames} (ok : memo.Ok) (stack : Nat) (tested : List Nat)
    (folding : List TruthyKey) : (memo.record stack tested folding).Ok := by
  unfold MemoFrames.record
  split
  case h_2 => exact ok
  case h_1 seen stamp t f outer frames =>
      have marked := ok.marked
      rw [frames] at marked
      obtain ⟨low, recorded, markedOuter⟩ := marked
      simp only [frames, List.length_cons, Nat.add_sub_cancel]
      split
      case isTrue =>
          obtain ⟨_, kept, values⟩ := @markAll_spec stamp tested _ _ recorded
          refine ⟨fun d id => ?_, low, fun id stamped => ?_, ?_⟩
          · by_cases here : d = outer.length
            · subst here
              simp only [Function.update_self]
              rcases values id with same | stamped
              · rw [same]
                exact ok.bound outer.length id
              · rw [stamped]
                exact low
            · simp only [Function.update_of_ne here]
              exact ok.bound d id
          · simp only [Function.update_self] at stamped
            exact kept id stamped
          · refine markedOuter.congr (Nat.le_refl _) fun d below => ?_
            exact Function.update_of_ne (Nat.ne_of_lt below) _ _
      case isFalse =>
          simp only [Function.update_eq_self]
          exact ⟨ok.bound, low, recorded, markedOuter⟩

/-- A computation on the stack records the ids and the folds. -/
theorem record_reach {memo : MemoFrames} {stack stamp : Nat} {t : List Nat} {f : List TruthyKey}
    {outer : List MemoFrame} (ok : memo.Ok) (frames : memo.frames = .reach stack stamp t f :: outer)
    (tested : List Nat) (folding : List TruthyKey) :
    ∃ t' f', (memo.record stack tested folding).frames = .reach stack stamp t' f' :: outer ∧
      (∀ id, id ∈ t' ↔ id ∈ t ∨ id ∈ tested) ∧ ∀ p, p ∈ f' ↔ p ∈ f ∨ p ∈ folding := by
  have marked := ok.marked
  rw [frames] at marked
  simp only [MemoFrames.record, frames, List.length_cons, Nat.add_sub_cancel, if_true]
  exact ⟨_, _, rfl, (markAll_spec marked.2.1).1, fun p => mem_addFolding⟩

/-- Folds are recorded in every computation. -/
theorem record_nil (memo : MemoFrames) (stack other : Nat) (folding : List TruthyKey) :
    memo.record stack [] folding = memo.record other [] folding := by
  unfold MemoFrames.record
  simp only [markAll, ite_self]

theorem record_of_not_reach {memo : MemoFrames}
    (notReach : ∀ seen stamp t f outer, memo.frames ≠ .reach seen stamp t f :: outer)
    (stack : Nat) (tested : List Nat) (folding : List TruthyKey) :
    memo.record stack tested folding = memo := by
  unfold MemoFrames.record
  split
  case h_1 seen stamp t f outer frames => exact absurd frames (notReach seen stamp t f outer)
  case h_2 => rfl

end MemoFrames

/-! ## Entries -/

theorem idBit_getLsbD (id : Nat) : (idBit id).getLsbD (id % 64) = true := by
  have small : id % 64 < 64 := Nat.mod_lt _ (by decide)
  simp [idBit, small]

theorem testedBits_getLsbD {ids : List Nat} {id : Nat} (member : id ∈ ids) (bits : BitVec 64) :
    (ids.foldl (fun bits id => bits ||| idBit id) bits).getLsbD (id % 64) = true := by
  have kept (ids : List Nat) (bits : BitVec 64) (i : Nat) (set : bits.getLsbD i = true) :
      (ids.foldl (fun bits id => bits ||| idBit id) bits).getLsbD i = true := by
    induction ids generalizing bits with
    | nil => exact set
    | cons first ids inductionHypothesis =>
        exact inductionHypothesis _ (by simp [set])
  induction ids generalizing bits with
  | nil => exact absurd member List.not_mem_nil
  | cons first ids inductionHypothesis =>
      rw [List.foldl_cons]
      rcases List.mem_cons.mp member with rfl | member
      · exact kept ids _ _ (by simp [idBit_getLsbD])
      · exact inductionHypothesis member _

namespace MemoEntry

variable {Out : Type} {entry : MemoEntry Out}

/-- A clear bit proves an id untested. -/
def BitsOk (entry : MemoEntry Out) : Prop :=
  ∀ id ∈ entry.tested, entry.testedBits &&& idBit id ≠ 0#64

theorem bitsOk_of_foldl {ids : List Nat} (sameIds : ∀ id ∈ entry.tested, id ∈ ids)
    (bits : entry.testedBits = ids.foldl (fun bits id => bits ||| idBit id) 0#64) :
    entry.BitsOk := by
  intro id member zero
  have clear : (entry.testedBits &&& idBit id).getLsbD (id % 64) = false := by
    rw [zero]
    simp
  rw [BitVec.getLsbD_and, bits, testedBits_getLsbD (sameIds id member), idBit_getLsbD] at clear
  exact absurd clear (by simp)

theorem matchesFrom_iff (bits : entry.BitsOk) {stack : List Nat} {held : Nat} :
    entry.matchesFrom stack held = true ↔
      (∀ id ∈ stack, id ∈ entry.tested → id ∈ entry.present) ∧
        held + (stack.filter (· ∈ entry.tested)).length = entry.present.length := by
  induction stack generalizing held with
  | nil => simp [matchesFrom]
  | cons id stack inductionHypothesis =>
      rw [matchesFrom, List.forall_mem_cons]
      by_cases tested : id ∈ entry.tested
      · rw [if_pos ⟨bits id tested, tested⟩, List.filter_cons_of_pos (by simpa using tested),
          List.length_cons]
        by_cases present : id ∈ entry.present
        · rw [if_pos present, inductionHypothesis]
          simp [present, Nat.add_assoc, Nat.add_comm 1]
        · simp [present, tested]
      · rw [if_neg (fun both => tested both.2), List.filter_cons_of_neg (by simpa using tested),
          inductionHypothesis]
        simp [tested]

/-- A stack that matches holds exactly the present ones among the tested ids. -/
theorem mem_present_iff (bits : entry.BitsOk) {stack : List Nat} (distinct : stack.Nodup)
    (fits : entry.matches_ stack = true) {id : Nat} (tested : id ∈ entry.tested) :
    id ∈ entry.present ↔ id ∈ stack := by
  obtain ⟨included, count⟩ := (matchesFrom_iff bits).mp fits
  rw [Nat.zero_add] at count
  have held : stack.filter (· ∈ entry.tested) ⊆ entry.present := by
    intro other member
    obtain ⟨member, testedOther⟩ := List.mem_filter.mp member
    exact included other member (by simpa using testedOther)
  have same : (stack.filter (· ∈ entry.tested)).Perm entry.present :=
    (List.subperm_of_subset (distinct.filter _) held).perm_of_length_le (Nat.le_of_eq count.symm)
  rw [← same.mem_iff, List.mem_filter]
  simp [tested]

end MemoEntry

theorem findEntry_spec {Out : Type} {fits live : MemoEntry Out → Bool}
    {entries : List (MemoEntry Out)} :
    (∀ entry, (findEntry fits live entries).1 = some entry →
        entry ∈ entries ∧ fits entry = true ∧ live entry = true) ∧
      (findEntry fits live entries).2 ⊆ entries := by
  induction entries with
  | nil => exact ⟨fun entry found => absurd found (by simp [findEntry]), List.Subset.refl _⟩
  | cons first entries inductionHypothesis =>
      obtain ⟨found, rest⟩ := inductionHypothesis
      unfold findEntry
      split
      case isTrue fitsFirst =>
          split
          case isTrue liveFirst =>
              refine ⟨fun entry same => ?_, List.subset_cons_self _ _⟩
              obtain rfl := Option.some.inj same
              exact ⟨List.mem_cons_self, fitsFirst, liveFirst⟩
          case isFalse =>
              refine ⟨fun entry same => ?_, List.subset_cons_of_subset _ rest⟩
              obtain ⟨member, both⟩ := found entry same
              exact ⟨List.mem_cons_of_mem _ member, both⟩
      case isFalse =>
          refine ⟨fun entry same => ?_, List.cons_subset_cons _ rest⟩
          obtain ⟨member, both⟩ := found entry same
          exact ⟨List.mem_cons_of_mem _ member, both⟩

end Rigor.Infer.Reach
