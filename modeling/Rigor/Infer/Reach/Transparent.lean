import Rigor.Infer.Reach.Records
import Rigor.Infer.Reach.Worlds

/-!
# Transparency of the reach memo

A run with the memo does to the world what the run without it does, and gives the same answers.  The
invariant keeps for every entry that its computation can be repeated in every later world with the
same dead set, on every stack that agrees on the tested keys, while the folds it saw re-entered answer
`None`.
-/

namespace Rigor.Infer.Reach

variable {Out Dead : Type} {code : Code Out Dead} {ast : Ast}

/-- The stacks answer the tests alike. -/
def Agree (tested : Text → Prop) (stack base : List Text) : Prop :=
  stack.length = base.length ∧ ∀ key, tested key → (key ∈ stack ↔ key ∈ base)

/-- The folds answer `None`. -/
def Unanswered (folding : List TruthyKey) (world : World Dead) : Prop :=
  ∀ p ∈ folding, p ∈ world.truthyInFlight ∨ world.truthyMemo p = some none

/-- A state in which a computation that ended in `origin` can be repeated. -/
structure Conforms (ast : Ast) (origin : World Dead) (tested : Text → Prop)
    (folding : List TruthyKey) (base : List Text) (world : World Dead) (stack : List Text) :
    Prop where
  future : World.Future origin world
  dead : sameDead (origin.currentDead ast) (world.currentDead ast) = true
  folds : Unanswered folding world
  stack : Agree tested stack base

/-- What conforms to more dependencies in a later world conforms to fewer in an earlier one. -/
theorem Conforms.earlier {origin later world : World Dead} {tested wider : Text → Prop}
    {folding more : List TruthyKey} {base stack : List Text}
    (conforms : Conforms ast later wider more base world stack)
    (future : World.Future origin later)
    (dead : later.currentDead ast = origin.currentDead ast)
    (keys : ∀ key, tested key → wider key) (folds : folding ⊆ more) :
    Conforms ast origin tested folding base world stack where
  future := Relation.ReflTransGen.trans future conforms.future
  dead := dead ▸ conforms.dead
  folds p member := conforms.folds p (folds member)
  stack := ⟨conforms.stack.1, fun key member => conforms.stack.2 key (keys key member)⟩

/-- The program answers the same wherever it can be repeated, and changes nothing there. -/
def Stable (code : Code Out Dead) (ast : Ast) (origin : World Dead) (tested : Text → Prop)
    (folding : List TruthyKey) (base own : List Text) {scanning : Bool} {Answer : Type}
    (prog : Prog Out Dead scanning Answer) (answer : Answer) : Prop :=
  ∀ world stack, Conforms ast origin tested folding base world stack →
    ∃ fuel, exec code ast fuel prog stack own world = some (world, answer)

/-- An entry under a key of a memo that belongs to `ast` and `dead`. -/
structure EntryOk (code : Code Out Dead) (keys : List (Text × Nat)) (ast : Ast)
    (dead : Option (DeadSet Dead)) (world : World Dead) (key : EntryKey) (entry : MemoEntry Out) :
    Prop where
  known : Known keys entry.tested
  bits : entry.BitsOk
  repeats : ∃ origin base, origin.WellFormed ∧ World.Future origin world ∧
    sameDead (origin.currentDead ast) dead = true ∧ base.length = key.2.2 ∧
    (∀ k, Holds keys entry.tested k → (k ∈ base ↔ Holds keys entry.present k)) ∧
    Stable code ast origin (Holds keys entry.tested) entry.folding base []
      (code.body ast ⟨entry.root, key.1, key.2.1⟩) entry.out

/-- The answer of the call is the answer of `local_reach_uncached` in the state of the call. -/
def Event.Transparent (code : Code Out Dead) (event : Event Out Dead) : Prop :=
  ∃ fuel world, exec code event.ast fuel (code.body event.ast event.query) event.seen []
    event.world = some (world, event.answer)

def FramesOn (keys : List (Text × Nat)) (stack : Nat) (frames : List MemoFrame) : Prop :=
  ∀ seen stamp tested folding, MemoFrame.reach seen stamp tested folding ∈ frames →
    seen = stack ∧ Known keys tested

structure Inv (code : Code Out Dead) (stack : Nat) (typer : Typer Out Dead) : Prop where
  wf : typer.world.WellFormed
  keys : KeysOk typer.memo.keys
  frames : typer.frames.Ok
  framesOn : FramesOn typer.memo.keys stack typer.frames.frames
  entries (key : EntryKey) (entry : MemoEntry Out) : entry ∈ typer.memo.entries key →
    EntryOk code typer.memo.keys typer.memo.ast typer.memo.dead typer.world key entry
  events (event : Event Out Dead) : event ∈ typer.events → event.Transparent code

/-! ## Runs keep the frames -/

def FrameGrows : MemoFrame → MemoFrame → Prop
  | .barrier, .barrier => True
  | .reach seen stamp tested folding, .reach seen' stamp' tested' folding' =>
      seen = seen' ∧ stamp = stamp' ∧ tested ⊆ tested' ∧ folding ⊆ folding'
  | _, _ => False

/-- Only the innermost frame grows. -/
def Grows (frames more : List MemoFrame) : Prop :=
  match frames, more with
  | [], [] => True
  | frame :: outer, frame' :: outer' => FrameGrows frame frame' ∧ outer = outer'
  | _, _ => False

theorem FrameGrows.refl (frame : MemoFrame) : FrameGrows frame frame := by
  cases frame with
  | reach seen stamp tested folding => exact ⟨rfl, rfl, List.Subset.refl _, List.Subset.refl _⟩
  | barrier => trivial

theorem Grows.refl (frames : List MemoFrame) : Grows frames frames := by
  cases frames with
  | nil => trivial
  | cons frame outer => exact ⟨FrameGrows.refl frame, rfl⟩

theorem FrameGrows.trans {first second third : MemoFrame} (before : FrameGrows first second)
    (after : FrameGrows second third) : FrameGrows first third := by
  cases first <;> cases second <;> cases third <;> try trivial
  obtain ⟨rfl, rfl, testedBefore, foldingBefore⟩ := before
  obtain ⟨rfl, rfl, testedAfter, foldingAfter⟩ := after
  exact ⟨rfl, rfl, List.Subset.trans testedBefore testedAfter,
    List.Subset.trans foldingBefore foldingAfter⟩

theorem Grows.trans {first second third : List MemoFrame} (before : Grows first second)
    (after : Grows second third) : Grows first third := by
  cases first <;> cases second <;> cases third <;> try trivial
  obtain ⟨growsBefore, rfl⟩ := before
  obtain ⟨growsAfter, rfl⟩ := after
  exact ⟨growsBefore.trans growsAfter, rfl⟩

theorem Grows.nonempty {frames more : List MemoFrame} (grows : Grows frames more)
    (nonempty : frames ≠ []) : more ≠ [] := by
  cases frames with
  | nil => exact absurd rfl nonempty
  | cons frame outer =>
      cases more with
      | nil => exact grows.elim
      | cons frame' outer' => exact List.cons_ne_nil _ _

/-- What a grown computation frame was before. -/
theorem Grows.of_reach {frames outer : List MemoFrame} {seen stamp : Nat} {tested : List Nat}
    {folding : List TruthyKey} (grows : Grows frames (.reach seen stamp tested folding :: outer)) :
    ∃ tested' folding', frames = .reach seen stamp tested' folding' :: outer ∧
      tested' ⊆ tested ∧ folding' ⊆ folding := by
  cases frames with
  | nil => exact grows.elim
  | cons frame outer' =>
      obtain ⟨growsFrame, rfl⟩ := grows
      cases frame with
      | barrier => exact growsFrame.elim
      | reach seen' stamp' tested' folding' =>
          obtain ⟨rfl, rfl, testedSubset, foldingSubset⟩ := growsFrame
          exact ⟨tested', folding', rfl, testedSubset, foldingSubset⟩

/-! ## What a run does -/

/-- The run without the memo does the same, and in a computation without an allocation the program
can be repeated by what the frame recorded. -/
structure Simulates (code : Code Out Dead) (ast : Ast) (stack : Nat) (base own : List Text)
    {scanning : Bool} {Answer : Type} (prog : Prog Out Dead scanning Answer)
    (typer next : Typer Out Dead) (answer : Answer) : Prop where
  inv : Inv code stack next
  run : ∃ fuel, exec code ast fuel prog base own typer.world = some (next.world, answer)
  grows : Grows typer.frames.frames next.frames.frames
  keys : typer.frames.frames ≠ [] → KeysGrow typer.memo.keys next.memo.keys
  stable {seen stamp : Nat} {tested : List Nat} {folding : List TruthyKey}
    {outer : List MemoFrame} : next.frames.frames = .reach seen stamp tested folding :: outer →
    next.world.nextId = typer.world.nextId →
    Stable code ast next.world (Holds next.memo.keys tested) folding base own prog answer

/-- The same for the first call of a program, which goes on as `rest` with the keys `own'`. -/
structure CallSimulates (code : Code Out Dead) (ast : Ast) (base own own' : List Text)
    {scanning : Bool} {Answer : Type} (prog rest : Prog Out Dead scanning Answer)
    (typer next : Typer Out Dead) : Prop where
  ran : Ran ast scanning typer.world next.world
  run {fuel : Nat} {result : World Dead × Answer} :
    exec code ast fuel rest base own' next.world = some result →
    ∃ fuel', exec code ast fuel' prog base own typer.world = some result
  grows : Grows typer.frames.frames next.frames.frames
  keys : typer.frames.frames ≠ [] → KeysGrow typer.memo.keys next.memo.keys
  stable {seen stamp : Nat} {tested : List Nat} {folding : List TruthyKey}
    {outer : List MemoFrame} {world : World Dead} {on : List Text} {fuel : Nat}
    {result : World Dead × Answer} :
    next.frames.frames = .reach seen stamp tested folding :: outer →
    next.world.nextId = typer.world.nextId →
    Conforms ast next.world (Holds next.memo.keys tested) folding base world on →
    exec code ast fuel rest on own' world = some result →
    ∃ fuel', exec code ast fuel' prog on own world = some result

theorem Simulates.of_call {stack : Nat} {base own own' : List Text} {scanning : Bool}
    {Answer : Type} {prog rest : Prog Out Dead scanning Answer}
    {typer middle next : Typer Out Dead} {answer : Answer}
    (inScan : scanning = true → typer.world.deadInFlight = true)
    (call : CallSimulates code ast base own own' prog rest typer middle)
    (simulates : Simulates code ast stack base own' rest middle next answer) :
    Simulates code ast stack base own prog typer next answer := by
  obtain ⟨fuel, ranRest⟩ := simulates.run
  have ran : Ran ast scanning middle.world next.world :=
    exec_ran (fun scanning => call.ran.scan.trans (inScan scanning)) ranRest
  refine ⟨simulates.inv, call.run ranRest, call.grows.trans simulates.grows,
    fun nonempty => (call.keys nonempty).trans (simulates.keys (call.grows.nonempty nonempty)), ?_⟩
  intro seen stamp tested folding outer frames same world on conforms
  have low := call.ran.future.nextId_le
  have high := ran.future.nextId_le
  obtain ⟨fuel, again⟩ := simulates.stable frames (by omega) world on conforms
  have grew := simulates.grows
  rw [frames] at grew
  obtain ⟨tested', folding', framesMiddle, testedSubset, foldingSubset⟩ := grew.of_reach
  have keysGrow := simulates.keys (by rw [framesMiddle]; exact List.cons_ne_nil _ _)
  refine call.stable framesMiddle (by omega) (conforms.earlier ran.future
    (ran.future.currentDead_eq (by omega) ast) (fun key holds => ?_) foldingSubset) again
  exact holds.grow keysGrow testedSubset

/-! ## The invariant -/

theorem Stable.mono {origin : World Dead} {tested wider : Text → Prop}
    {folding more : List TruthyKey} {base own : List Text} {scanning : Bool} {Answer : Type}
    {prog : Prog Out Dead scanning Answer} {answer : Answer}
    (stable : Stable code ast origin tested folding base own prog answer)
    (keys : ∀ key, tested key → wider key) (folds : folding ⊆ more) :
    Stable code ast origin wider more base own prog answer :=
  fun world stack conforms => stable world stack
    (conforms.earlier Relation.ReflTransGen.refl rfl keys folds)

theorem EntryOk.grow {keys more : List (Text × Nat)} {dead : Option (DeadSet Dead)}
    {world : World Dead} {key : EntryKey} {entry : MemoEntry Out}
    (ok : EntryOk code keys ast dead world key entry) (keysOk : KeysOk more)
    (grow : KeysGrow keys more) : EntryOk code more ast dead world key entry := by
  obtain ⟨origin, base, wf, future, same, length, present, stable⟩ := ok.repeats
  refine ⟨ok.known.grow grow, ok.bits, origin, base, wf, future, same, length, fun k holds => ?_,
    stable.mono (fun k holds => holds.grow grow (List.Subset.refl _)) (List.Subset.refl _)⟩
  have holdsBefore := holds.shrink keysOk grow ok.known
  rw [present k holdsBefore]
  refine ⟨fun holdsPresent => holdsPresent.grow grow (List.Subset.refl _), ?_⟩
  rintro ⟨id, member, found⟩
  obtain ⟨id', _, before⟩ := holdsBefore
  obtain rfl : id' = id := Option.some.inj ((grow k id' before).symm.trans found)
  exact ⟨id', member, before⟩

theorem EntryOk.later {keys : List (Text × Nat)} {dead : Option (DeadSet Dead)}
    {world next : World Dead} {key : EntryKey} {entry : MemoEntry Out}
    (ok : EntryOk code keys ast dead world key entry) (future : World.Future world next) :
    EntryOk code keys ast dead next key entry := by
  obtain ⟨origin, base, wf, before, rest⟩ := ok.repeats
  exact ⟨ok.known, ok.bits, origin, base, wf, Relation.ReflTransGen.trans before future, rest⟩

theorem FramesOn.grow {keys more : List (Text × Nat)} {stack : Nat} {frames : List MemoFrame}
    (on : FramesOn keys stack frames) (grow : KeysGrow keys more) : FramesOn more stack frames := by
  intro seen stamp tested folding member
  obtain ⟨same, known⟩ := on seen stamp tested folding member
  exact ⟨same, known.grow grow⟩

/-- What the frames say after a record. -/
theorem record_spec {memo : MemoFrames} {keys : List (Text × Nat)} {stack : Nat}
    (ok : memo.Ok) (on : FramesOn keys stack memo.frames) {tested : List Nat}
    (known : Known keys tested) (folding : List TruthyKey) :
    FramesOn keys stack (memo.record stack tested folding).frames ∧
      Grows memo.frames (memo.record stack tested folding).frames ∧
      ∀ seen stamp t f outer,
        (memo.record stack tested folding).frames = .reach seen stamp t f :: outer →
        tested ⊆ t ∧ folding ⊆ f := by
  by_cases computing : ∃ seen stamp t f outer, memo.frames = .reach seen stamp t f :: outer
  · obtain ⟨seen, stamp, t, f, outer, frames⟩ := computing
    have onFrames := on
    rw [frames] at onFrames
    obtain ⟨rfl, knownFrame⟩ := onFrames seen stamp t f List.mem_cons_self
    obtain ⟨t', f', recorded, members, folds⟩ := MemoFrames.record_reach ok frames tested folding
    rw [recorded, frames]
    refine ⟨?_, ⟨⟨rfl, rfl, fun id member => (members id).mpr (.inl member),
      fun p member => (folds p).mpr (.inl member)⟩, rfl⟩, ?_⟩
    · intro seen' stamp' tested' folding' member
      rcases List.mem_cons.mp member with same | member
      · obtain ⟨rfl, rfl, rfl, rfl⟩ := MemoFrame.reach.inj same
        refine ⟨rfl, fun id member => ?_⟩
        rcases (members id).mp member with before | now
        · exact knownFrame id before
        · exact known id now
      · exact onFrames seen' stamp' tested' folding' (List.mem_cons_of_mem _ member)
    · intro seen' stamp' t'' f'' outer' same
      obtain ⟨first, _⟩ := List.cons.inj same
      obtain ⟨_, _, rfl, rfl⟩ := MemoFrame.reach.inj first
      exact ⟨fun id member => (members id).mpr (.inr member),
        fun p member => (folds p).mpr (.inr member)⟩
  · have notReach : ∀ seen stamp t f outer, memo.frames ≠ .reach seen stamp t f :: outer :=
      fun seen stamp t f outer frames => computing ⟨seen, stamp, t, f, outer, frames⟩
    rw [MemoFrames.record_of_not_reach notReach]
    exact ⟨on, Grows.refl _, fun seen stamp t f outer frames =>
      absurd frames (notReach seen stamp t f outer)⟩

section Calls

variable {stack : Nat} {typer : Typer Out Dead}

/-- A change of the world. -/
theorem Inv.later (inv : Inv code stack typer) {world : World Dead}
    (future : World.Future typer.world world) : Inv code stack { typer with world := world } :=
  ⟨future.wellFormed inv.wf, inv.keys, inv.frames, inv.framesOn,
    fun key entry member => (inv.entries key entry member).later future, inv.events⟩

theorem Inv.record (inv : Inv code stack typer) {tested : List Nat}
    (known : Known typer.memo.keys tested) (folding : List TruthyKey) :
    Inv code stack { typer with frames := typer.frames.record stack tested folding } :=
  ⟨inv.wf, inv.keys, inv.frames.record stack tested folding,
    (record_spec inv.frames inv.framesOn known folding).1, inv.entries, inv.events⟩

theorem Inv.note (inv : Inv code stack typer) {event : Event Out Dead}
    (transparent : event.Transparent code) : Inv code stack (typer.note event) := by
  refine ⟨inv.wf, inv.keys, inv.frames, inv.framesOn, inv.entries, fun other member => ?_⟩
  rcases List.mem_cons.mp member with rfl | member
  · exact transparent
  · exact inv.events other member

theorem Inv.intern (inv : Inv code stack typer) {key : Text}
    (room : typer.memo.keys.lookup key = none → typer.memo.keys.length ≤ u32Max) :
    Inv code stack { typer with memo := (typer.memo.intern key).1 } := by
  have keysOk := intern_keysOk inv.keys room
  refine ⟨inv.wf, keysOk, inv.frames, inv.framesOn.grow intern_grow, fun k entry member => ?_,
    inv.events⟩
  rw [intern_entries] at member
  simp only [intern_ast, intern_dead]
  exact (inv.entries k entry member).grow keysOk intern_grow

/-- `seen_contains` in the innermost computation records the key. -/
theorem noteTest_spec (inv : Inv code stack typer) {key : Text}
    (noWrap : (typer.noteTest stack key).wrapped = false) :
    Inv code stack (typer.noteTest stack key) ∧
      (typer.noteTest stack key).world = typer.world ∧
      Grows typer.frames.frames (typer.noteTest stack key).frames.frames ∧
      KeysGrow typer.memo.keys (typer.noteTest stack key).memo.keys ∧
      ∀ seen stamp tested folding outer, (typer.noteTest stack key).frames.frames =
        .reach seen stamp tested folding :: outer →
        Holds (typer.noteTest stack key).memo.keys tested key := by
  by_cases computing : ∃ seen stamp t f outer,
      typer.frames.frames = .reach seen stamp t f :: outer
  · obtain ⟨seen, stamp, t, f, outer, frames⟩ := computing
    have onFrames := inv.framesOn
    rw [frames] at onFrames
    obtain ⟨rfl, _⟩ := onFrames seen stamp t f List.mem_cons_self
    have noted : typer.noteTest seen key =
        { typer with
          memo := (typer.memo.intern key).1
          frames := typer.frames.record seen [(typer.memo.intern key).2] []
          wrapped := typer.wrapped ||
            (typer.memo.keys.lookup key).isNone && decide (u32Max < typer.memo.keys.length) } := by
      simp [Typer.noteTest, frames]
    rw [noted] at noWrap ⊢
    have room : typer.memo.keys.lookup key = none → typer.memo.keys.length ≤ u32Max := by
      intro missing
      simpa [missing] using (Bool.or_eq_false_iff.mp noWrap).2
    have known : Known (typer.memo.intern key).1.keys [(typer.memo.intern key).2] := by
      intro id member
      obtain rfl := List.mem_singleton.mp member
      exact ⟨key, intern_lookup⟩
    have interned := inv.intern room
    have kept := interned.record known []
    obtain ⟨_, grows, recorded⟩ := record_spec interned.frames interned.framesOn known []
    refine ⟨⟨kept.wf, kept.keys, kept.frames, kept.framesOn, kept.entries, kept.events⟩, rfl, grows,
      intern_grow, fun seen' stamp' tested folding outer' same => ?_⟩
    have member := (recorded seen' stamp' tested folding outer' same).1
    exact ⟨_, member List.mem_cons_self, intern_lookup⟩
  · have unchanged : typer.noteTest stack key = typer := by
      unfold Typer.noteTest
      split
      case h_1 seen stamp t f outer frames =>
          exact absurd ⟨seen, stamp, t, f, outer, frames⟩ computing
      case h_2 => rfl
    rw [unchanged]
    exact ⟨inv, rfl, Grows.refl _, KeysGrow.refl _, fun seen stamp tested folding outer frames =>
      absurd ⟨seen, stamp, tested, folding, outer, frames⟩ computing⟩

theorem noteReentry_spec (inv : Inv code stack typer) (key : TruthyKey) :
    Inv code stack (typer.noteReentry key) ∧
      Grows typer.frames.frames (typer.noteReentry key).frames.frames ∧
      ∀ seen stamp tested folding outer, (typer.noteReentry key).frames.frames =
        .reach seen stamp tested folding :: outer → key ∈ folding := by
  have known : Known typer.memo.keys [] := fun id member => absurd member List.not_mem_nil
  rw [Typer.noteReentry, MemoFrames.record_nil typer.frames 0 stack]
  obtain ⟨_, grows, recorded⟩ := record_spec inv.frames inv.framesOn known [key]
  exact ⟨inv.record known [key], grows, fun seen stamp tested folding outer same =>
    (recorded seen stamp tested folding outer same).2 List.mem_cons_self⟩

theorem resetUnlessValid_spec {memo : ReachMemo Out Dead} {dead : Option (DeadSet Dead)} :
    (memo.resetUnlessValid ast dead).keys = memo.keys ∧
      (memo.resetUnlessValid ast dead).ast = ast ∧
      sameDead (memo.resetUnlessValid ast dead).dead dead = true ∧
      ∀ key entry, entry ∈ (memo.resetUnlessValid ast dead).entries key →
        entry ∈ memo.entries key ∧ memo.ast = ast ∧
          (memo.resetUnlessValid ast dead).dead = memo.dead := by
  unfold ReachMemo.resetUnlessValid
  split
  case isTrue valid =>
      obtain ⟨sameAst, same⟩ := (Bool.and_eq_true_iff.mp valid)
      have sameAst : memo.ast = ast := beq_iff_eq.mp sameAst
      exact ⟨rfl, sameAst, same, fun key entry member => ⟨member, sameAst, rfl⟩⟩
  case isFalse =>
      exact ⟨rfl, rfl, World.sameDead_self dead, fun key entry member =>
        absurd member List.not_mem_nil⟩

/-- A prepared memo belongs to the tree and its dead set. -/
theorem prepare_spec (inv : Inv code stack typer) :
    Inv code stack (typer.prepare ast) ∧
      (typer.prepare ast).world = typer.world ∧
      (typer.prepare ast).frames.frames = typer.frames.frames ∧
      (typer.frames.frames ≠ [] → KeysGrow typer.memo.keys (typer.prepare ast).memo.keys) ∧
      (typer.prepare ast).memo.ast = ast ∧
      sameDead (typer.prepare ast).memo.dead (typer.world.currentDead ast) = true := by
  by_cases clear : typer.memo.ast ≠ ast ∧ typer.frames.frames = []
  · have prepared : typer.prepare ast =
        { typer with
          memo := ReachMemo.resetUnlessValid { typer.memo with keys := [] } ast
            (typer.world.currentDead ast)
          frames := { typer.frames with marks := fun _ _ => 0 } } := by
      simp only [Typer.prepare]
      rw [if_pos clear, if_pos clear]
    rw [prepared]
    obtain ⟨other, empty⟩ := clear
    obtain ⟨keys, sameAst, same, entries⟩ := @resetUnlessValid_spec _ _ ast
      { typer.memo with keys := [] } (typer.world.currentDead ast)
    refine ⟨⟨inv.wf, ?_, ⟨fun _ _ => Nat.zero_le _, ?_⟩, ?_, fun key entry member => ?_,
      inv.events⟩, rfl, rfl, fun nonempty => absurd empty nonempty, sameAst, same⟩
    · rw [keys]
      exact keysOk_nil
    · simp only [empty]
      trivial
    · intro seen stamp tested folding member
      simp only [empty] at member
      exact absurd member List.not_mem_nil
    · exact absurd (entries key entry member).2.1 other
  · have prepared : typer.prepare ast =
        { typer with memo := typer.memo.resetUnlessValid ast (typer.world.currentDead ast) } := by
      simp only [Typer.prepare]
      rw [if_neg clear, if_neg clear]
    rw [prepared]
    obtain ⟨keys, sameAst, same, entries⟩ := @resetUnlessValid_spec _ _ ast
      typer.memo (typer.world.currentDead ast)
    refine ⟨⟨inv.wf, ?_, inv.frames, ?_, fun key entry member => ?_, inv.events⟩, rfl, rfl,
      fun _ => ?_, sameAst, same⟩
    · rw [keys]
      exact inv.keys
    · rw [keys]
      exact inv.framesOn
    · obtain ⟨member, sameMemo, sameSet⟩ := entries key entry member
      rw [keys, sameAst, sameSet]
      rw [← sameMemo]
      exact inv.entries key entry member
    · rw [keys]
      exact KeysGrow.refl _

theorem lookup_spec (inv : Inv code stack typer) (query : Query) (seen : List Text) :
    Inv code stack (typer.lookup query seen).2 ∧
      ∀ entry, (typer.lookup query seen).1 = some entry →
        entry ∈ typer.memo.entries (query.useSpan, query.skipClassGuards, seen.length) ∧
          entry.root = query.root ∧ entry.matches_ (typer.memo.stackIds seen) = true ∧
          Unanswered entry.folding typer.world := by
  unfold Typer.lookup
  obtain ⟨found, rest⟩ := @findEntry_spec _
    (fun entry => entry.root == query.root && entry.matches_ (typer.memo.stackIds seen))
    (MemoEntry.live typer.world)
    (typer.memo.entries (query.useSpan, query.skipClassGuards, seen.length))
  refine ⟨⟨inv.wf, inv.keys, inv.frames, inv.framesOn, fun key entry member => ?_, inv.events⟩,
    fun entry same => ?_⟩
  · by_cases here : key = (query.useSpan, query.skipClassGuards, seen.length)
    · subst here
      simp only [Function.update_self] at member
      rcases List.mem_append.mp member with first | member
      · exact inv.entries _ entry (found entry (Option.mem_toList.mp first)).1
      · exact inv.entries _ entry (rest member)
    · simp only [Function.update_of_ne here] at member
      exact inv.entries key entry member
  · obtain ⟨member, fits, live⟩ := found entry same
    obtain ⟨root, fits⟩ := Bool.and_eq_true_iff.mp fits
    refine ⟨member, beq_iff_eq.mp root, fits, fun p memberFolding => ?_⟩
    simpa using List.all_eq_true.mp live p memberFolding

end Calls

/-! ## Entries -/

section Entries

variable {keys : List (Text × Nat)} {dead : Option (DeadSet Dead)} {world : World Dead}

/-- A stack that an entry fits answers its tests as the first one did. -/
theorem EntryOk.agree {entry : MemoEntry Out} {memo : ReachMemo Out Dead}
    (keysOk : KeysOk memo.keys) {base : List Text} {seen : List Text} (distinct : seen.Nodup)
    (bits : entry.BitsOk) (length : base.length = seen.length)
    (present : ∀ k, Holds memo.keys entry.tested k → (k ∈ base ↔ Holds memo.keys entry.present k))
    (fits : entry.matches_ (memo.stackIds seen) = true) :
    Agree (Holds memo.keys entry.tested) seen base := by
  refine ⟨length.symm, fun k holds => ?_⟩
  rw [present k holds]
  have distinctIds : (memo.stackIds seen).Nodup := by
    refine distinct.filterMap fun first second id foundFirst foundSecond => ?_
    exact keysOk.injective foundFirst foundSecond
  obtain ⟨id, tested, found⟩ := holds
  have onStack : k ∈ seen ↔ id ∈ memo.stackIds seen := by
    refine ⟨fun member => List.mem_filterMap.mpr ⟨k, member, found⟩, fun member => ?_⟩
    obtain ⟨other, memberSeen, foundOther⟩ := List.mem_filterMap.mp member
    rwa [keysOk.injective found foundOther]
  rw [onStack, ← MemoEntry.mem_present_iff bits distinctIds fits tested]
  refine ⟨fun member => ⟨id, member, found⟩, ?_⟩
  rintro ⟨other, member, foundOther⟩
  obtain rfl : other = id := Option.some.inj (foundOther.symm.trans found)
  exact member

/-- A stored answer can be repeated. -/
theorem newEntry_ok {memo : ReachMemo Out Dead} (keysOk : KeysOk memo.keys)
    (wf : world.WellFormed) {query : Query} {seen : List Text} {tested : List Nat}
    {folding : List TruthyKey} {out : Out} (known : Known memo.keys tested)
    (same : sameDead (world.currentDead ast) dead = true)
    (stable : Stable code ast world (Holds memo.keys tested) folding seen [] (code.body ast query)
      out) :
    EntryOk code memo.keys ast dead world (query.useSpan, query.skipClassGuards, seen.length)
      (Typer.newEntry memo query seen tested folding out) := by
  have mem_tested (id : Nat) :
      id ∈ (Typer.newEntry memo query seen tested folding out).tested ↔ id ∈ tested :=
    List.mem_insertionSort _
  refine ⟨fun id member => known id ((mem_tested id).mp member),
    MemoEntry.bitsOk_of_foldl (fun id member => (mem_tested id).mp member) rfl, world, seen, wf,
    Relation.ReflTransGen.refl, same, rfl, fun k holds => ?_,
    stable.mono (fun k holds => holds.imp fun id both => ⟨(mem_tested id).mpr both.1, both.2⟩)
      (List.Subset.refl _)⟩
  obtain ⟨id, member, found⟩ := holds
  have mem_present (other : Nat) :
      other ∈ (Typer.newEntry memo query seen tested folding out).present ↔
        other ∈ memo.stackIds seen ∧ other ∈ tested := by
    refine (List.mem_insertionSort _).trans ?_
    rw [List.mem_filter, decide_eq_true_eq]
  constructor
  · intro onStack
    exact ⟨id, (mem_present id).mpr ⟨List.mem_filterMap.mpr ⟨k, onStack, found⟩,
      (mem_tested id).mp member⟩, found⟩
  · rintro ⟨other, memberPresent, foundOther⟩
    obtain ⟨onStack, _⟩ := (mem_present other).mp memberPresent
    obtain ⟨k', memberSeen, found'⟩ := List.mem_filterMap.mp onStack
    rwa [keysOk.injective foundOther found']

end Entries

end Rigor.Infer.Reach
