import Rigor.Cli.Options.Scan

/-!
# Options and positionals

In the permuting mode options and positionals may stand in any order.  What the scan returns is what it
returns for the options first, each with its argument, then the terminator, then the positionals.
-/

namespace Rigor.Cli.Options

section Permute

variable {F : Type} {p : OptParser} {out : Outside F} {tok : Text} {rest rest' : List Text} {item : Item F}
  {posix : Bool} {items result : List (Item F)} {nonopts : List Text}

/-- Tokens that fire the same items whatever stands around them. -/
structure Block (p : OptParser) (out : Outside F) (block : List Text) (fired : List (Item F)) : Prop where
  runs : ∀ posix tail items nonopts,
    p.scan out posix (block ++ tail) items nonopts = p.scan out posix tail (items ++ fired) nonopts
  options : ∀ item ∈ fired, ∃ key negated value, item = .opt key negated value

theorem block_nil : Block p out [] [] :=
  ⟨fun _ _ _ _ => by rw [List.nil_append, List.append_nil], by simp⟩

theorem Block.append {first second : List Text} {fired fired' : List (Item F)} (one : Block p out first fired)
    (two : Block p out second fired') : Block p out (first ++ second) (fired ++ fired') := by
  constructor
  · intro posix tail items nonopts
    rw [List.append_assoc, one.runs, two.runs, List.append_assoc]
  · intro item mem
    rcases List.mem_append.mp mem with inFirst | inSecond
    · exact one.options item inFirst
    · exact two.options item inSecond

/-! ## A token and what it takes with it -/

/-- The pass fires a switch or ends the scan. -/
def Step.Decided : Step F → Prop
  | .fired _ _ => True
  | .exit _ => True
  | _ => False

/-- A decided pass is not the other kinds. -/
theorem Step.Decided.of_eq {step other : Step F} (decided : step.Decided) (same : step = other) :
    other.Decided :=
  same ▸ decided

theorem unresolved_decided {msg name : Text} : (p.unresolved out msg name).Decided := by
  rcases exists_unresolved_eq msg name with ⟨exit, same⟩
  rw [same]
  trivial

theorem shortFire_decided {target : OptParser.Target} {value : Option (Value F)} :
    (p.shortFire out target value rest).Decided := by
  unfold OptParser.shortFire
  split_ifs <;> trivial

theorem shortSwitch_decided {target : OptParser.Target} {restStr : Text} :
    (p.shortSwitch out target tok restStr rest).Decided := by
  unfold OptParser.shortSwitch
  generalize (if restStr = [] then none else some restStr) = val
  cases target.style with
  | flag =>
      cases val with
      | none => exact shortFire_decided
      | some v =>
          simp only
          split_ifs
          · trivial
          · exact shortFire_decided
  | required =>
      simp only
      cases takeArgument val rest with
      | none => trivial
      | some found =>
          simp only
          cases convert out.parseFloat out.zero target.kind found.1 with
          | error e => trivial
          | ok cv => exact shortFire_decided
  | optional =>
      cases val with
      | none => exact shortFire_decided
      | some v =>
          simp only
          cases convert out.parseFloat out.zero target.kind v with
          | error e => trivial
          | ok cv => exact shortFire_decided

theorem longSwitch_decided {sw : Switch} {negated : Bool} {eq : Option Text} :
    (OptParser.longSwitch out sw negated tok eq rest).Decided := by
  unfold OptParser.longSwitch
  cases sw.style with
  | flag =>
      simp only
      split_ifs <;> trivial
  | required =>
      simp only
      cases takeArgument eq rest with
      | none => trivial
      | some found =>
          simp only
          cases convert out.parseFloat out.zero sw.kind found.1 <;> trivial
  | optional =>
      cases eq with
      | none => trivial
      | some v =>
          simp only
          cases convert out.parseFloat out.zero sw.kind v <;> trivial

/-- Only the empty name is the terminator. -/
theorem complete_eq_terminator {switches : List Switch} {name : Text} {icase : Bool}
    (found : complete switches name icase = .found .terminator) : name = [] := by
  rcases complete_target found with ⟨c, own⟩ | ⟨c, officious⟩ | ⟨-, empty⟩
  · rcases target_of_mem_registrations own with ⟨i, n, -, target⟩
    cases target
  · have target := target_of_mem_officiousTable _ officious
    simp at target
  · exact empty

/-- What a name resolves to is in the table. -/
theorem getElem?_of_complete {name : Text} {icase : Bool} {i : Nat} {n : Bool}
    (found : complete p.switches name icase = .found (.switch i n)) : ∃ sw, p.switches[i]? = some sw := by
  rcases complete_target found with ⟨c, own⟩ | ⟨c, officious⟩ | ⟨target, -⟩
  · rcases target_of_mem_registrations own with ⟨i', n', inRange, target⟩
    cases target
    exact ⟨_, List.getElem?_eq_getElem inRange⟩
  · have target := target_of_mem_officiousTable _ officious
    simp at target
  · cases target

/-- The `unreachable!` of the short branch. -/
theorem shortTarget_of_complete {c : Char} {resolved : Resolved}
    (found : complete p.switches [c] false = .found resolved) :
    ∃ target, p.shortTarget resolved = some target := by
  cases resolved with
  | switch i n =>
      rcases getElem?_of_complete found with ⟨sw, here⟩
      exact ⟨_, by rw [OptParser.shortTarget, here]; rfl⟩
  | terminator => cases complete_eq_terminator found
  | help => exact ⟨_, rfl⟩
  | version => exact ⟨_, rfl⟩
  | completionBash => exact ⟨_, rfl⟩
  | completionZsh => exact ⟨_, rfl⟩

theorem shortStep_decided {c : Char} {restStr : Text} : (p.shortStep out tok c restStr rest).Decided := by
  unfold OptParser.shortStep
  cases found : complete p.switches [c] false with
  | invalid => exact unresolved_decided
  | ambiguous => exact unresolved_decided
  | found resolved =>
      rcases shortTarget_of_complete found with ⟨target, meant⟩
      simp only [meant]
      exact shortSwitch_decided

/-- A short option fires, or it ends the scan. -/
theorem scanStep_short {q : Text} (short : ∃ c t, q = '-' :: c :: t ∧ c ≠ '-') :
    (p.scanStep out q rest).Decided := by
  rcases short with ⟨c, t, rfl, notDash⟩
  unfold OptParser.scanStep
  split
  · rename_i same
    cases same
    exact absurd rfl notDash
  · rename_i same
    cases same
    exact shortStep_decided
  · rename_i other
    exact absurd rfl (other c t)

/-- An option with what it takes, and the other options of its cluster. -/
theorem exists_block (step : p.scanStep out tok rest = .fired item rest')
    (yields : p.scan out posix rest' items nonopts = .items result) :
    ∃ used tail fired, rest = used ++ tail ∧ Block p out (tok :: used) fired := by
  induction size : tok.length using Nat.strong_induction_on generalizing tok rest rest' item items with
  | h n ih =>
      subst size
      rcases scanStep_passes step with ⟨used, tail, pushed, rfl, rfl, passes⟩
      cases pushed with
      | none =>
          refine ⟨used, tail, [item], rfl, fun posix other items nonopts => ?_, ?_⟩
          · exact scan_fired (passes.local_ other)
          · simpa using passes.option
      | some q =>
          have shorter := passes.clustered q rfl
          rw [Option.toList_some, List.singleton_append] at yields
          rcases scan_cons_items yields with ⟨item', rest', next, yields⟩ | absent
          · rcases ih q.length shorter.1 next yields rfl with ⟨used', tail', fired, rfl, block⟩
            refine ⟨used ++ used', tail', item :: fired, (List.append_assoc _ _ _).symm, ?_, ?_⟩
            · intro posix other items nonopts
              have first := passes.local_ (used' ++ other)
              rw [List.cons_append, List.append_assoc, scan_fired first]
              rw [Option.toList_some, List.singleton_append, ← List.cons_append, block.runs, List.append_assoc,
                List.singleton_append]
            · exact List.forall_mem_cons.mpr ⟨passes.option, block.options⟩
          · have decided : (p.scanStep out q tail).Decided := scanStep_short shorter.2
            rcases absent with absent | absent
            · rw [absent] at decided
              cases decided
            · rw [absent] at decided
              cases decided

/-! ## The terminator -/

/-- The two dashes. -/
def dashes : Text :=
  ['-', '-']

/-- No declaration has the empty name. -/
def Named (p : OptParser) : Prop :=
  ∀ row ∈ registrations p.switches, row.1 ≠ []

instance (p : OptParser) : Decidable (Named p) :=
  inferInstanceAs (Decidable (∀ row ∈ registrations p.switches, _))

theorem scanStep_dashes (named : Named p) : p.scanStep out dashes rest = .terminator := by
  have unregistered : (registrations p.switches).lookup [] = none := by
    rw [List.lookup_eq_none_iff]
    intro row mem
    exact bne_iff_ne.mpr (named row mem).symm
  have exact_ : exactName p.switches [] = some .terminator := by
    rw [exactName, unregistered]
    rfl
  have completed : complete p.switches (OptParser.dashed []) true = .found .terminator := by
    rw [complete, OptParser.dashed, List.map_nil, exact_]
  have split : OptParser.splitName [] = ([], none) := rfl
  change p.longStep out dashes [] rest = .terminator
  unfold OptParser.longStep
  simp only [split, completed]
  rfl

theorem splitName_empty {stripped : Text} (split : OptParser.splitName stripped = ([], none)) :
    stripped = [] := by
  unfold OptParser.splitName at split
  split at split
  · cases split
  · exact congrArg Prod.fst split

/-- Only the two dashes are the terminator. -/
theorem scanStep_eq_terminator (step : p.scanStep out tok rest = .terminator) : tok = dashes := by
  unfold OptParser.scanStep at step
  split at step
  · rename_i stripped
    unfold OptParser.longStep at step
    cases split : OptParser.splitName stripped with
    | mk nameRaw eq =>
        simp only [split] at step
        cases found : complete p.switches (OptParser.dashed nameRaw) true with
        | invalid =>
            simp only [found] at step
            exact absurd (unresolved_decided.of_eq step) id
        | ambiguous =>
            simp only [found] at step
            exact absurd (unresolved_decided.of_eq step) id
        | found resolved =>
            simp only [found] at step
            cases resolved with
            | terminator =>
                have empty := List.map_eq_nil_iff.mp (complete_eq_terminator found)
                simp only at step
                split_ifs at step with given
                rw [Bool.not_eq_true, Option.isSome_eq_false_iff, Option.isNone_iff_eq_none] at given
                rw [dashes, splitName_empty (split.trans (by rw [empty, given]))]
            | help =>
                simp only at step
                split_ifs at step
            | version => cases step
            | completionBash =>
                simp only at step
                split at step <;> cases step
            | completionZsh => cases step
            | switch idx negated =>
                simp only at step
                cases here : p.switches[idx]? with
                | none => simp [here] at step
                | some sw =>
                    simp only [here] at step
                    exact absurd (longSwitch_decided.of_eq step) id
  · rename_i opt restStr notLong
    exact absurd (shortStep_decided.of_eq step) id
  · cases step

/-! ## The two parts of the arguments -/

/-- The options and the positionals of an argument list; a terminator may stand between them. -/
structure Divided (p : OptParser) (out : Outside F) (argv : List Text) (fired : List (Item F))
    (opts pos : List Text) : Prop where
  options : opts.Sublist argv
  positionals : pos.Sublist argv
  all : argv.Perm (opts ++ pos) ∨ argv.Perm (opts ++ dashes :: pos)
  block : Block p out opts fired

theorem divided_nil : Divided p out [] [] [] [] :=
  ⟨.slnil, .slnil, Or.inl (List.Perm.refl _), block_nil⟩

theorem divided_terminator (rest : List Text) : Divided p out (dashes :: rest) [] [] rest :=
  ⟨List.nil_sublist _, List.sublist_cons_self _ _, Or.inr (List.Perm.refl _), block_nil⟩

theorem Divided.positional {fired : List (Item F)} {opts pos : List Text}
    (divided : Divided p out rest fired opts pos) (tok : Text) :
    Divided p out (tok :: rest) fired opts (tok :: pos) := by
  refine ⟨divided.options.cons tok, divided.positionals.cons_cons tok, ?_, divided.block⟩
  rcases divided.all with all | all
  · exact Or.inl ((all.cons tok).trans List.perm_middle.symm)
  · exact Or.inr ((all.cons tok).trans ((List.perm_middle.symm).trans ((List.Perm.swap _ _ _).append_left opts)))

theorem Divided.option {block tail : List Text} {fired fired' : List (Item F)} {opts pos : List Text}
    (one : Block p out block fired) (divided : Divided p out tail fired' opts pos) :
    Divided p out (block ++ tail) (fired ++ fired') (block ++ opts) pos := by
  refine ⟨divided.options.append_left block, divided.positionals.trans (List.sublist_append_right _ _), ?_,
    one.append divided.block⟩
  rw [List.append_assoc, List.append_assoc]
  exact divided.all.imp (fun all => all.append_left block) (fun all => all.append_left block)

/-- A permuting scan divides its tokens. -/
theorem divided_of_scan (yields : p.scan out false rest items nonopts = .items result) :
    ∃ fired opts pos, Divided p out rest fired opts pos ∧
      result = items ++ fired ++ (nonopts ++ pos).map .positional := by
  induction size : rest.length using Nat.strong_induction_on generalizing rest items nonopts with
  | h n ih =>
      subst size
      cases rest with
      | nil =>
          rw [scan_nil, Parsed.items.injEq] at yields
          exact ⟨[], [], [], divided_nil, by simp [yields]⟩
      | cons tok rest =>
          rcases scan_cons_items yields with ⟨item, rest', step, after⟩ | step | step
          · rcases exists_block step after with ⟨used, tail, fired, rfl, block⟩
            rw [← List.cons_append, block.runs] at yields
            rcases ih tail.length (by rw [List.length_cons, List.length_append]; omega) yields rfl with
              ⟨fired', opts, pos, divided, rfl⟩
            exact ⟨fired ++ fired', tok :: used ++ opts, pos, divided.option block, by simp⟩
          · rw [scan_nonOption step, if_neg (by simp)] at yields
            rcases ih rest.length (by simp) yields rfl with ⟨fired, opts, pos, divided, rfl⟩
            exact ⟨fired, opts, tok :: pos, divided.positional tok, by simp⟩
          · rw [scan_terminator step, Parsed.items.injEq] at yields
            rw [scanStep_eq_terminator step]
            exact ⟨[], [], rest, divided_terminator rest, by rw [List.append_nil, yields]⟩

/-- What a permuting parse returns: every argument is an option, the argument of one, the terminator or a
positional, the options come first, and both modes return the same for the options, the terminator and the
positionals in that order. -/
theorem parseMode_permutes {argv : List Text} (named : Named p)
    (yields : p.parseMode out argv false = .items result) :
    ∃ (fired : List (Item F)) (opts pos : List Text), result = fired ++ pos.map .positional ∧
      (∀ item ∈ fired, ∃ key negated value, item = .opt key negated value) ∧
      opts.Sublist argv ∧ pos.Sublist argv ∧
      (argv.Perm (opts ++ pos) ∨ argv.Perm (opts ++ dashes :: pos)) ∧
      ∀ posix, p.parseMode out (opts ++ dashes :: pos) posix = .items result := by
  rcases divided_of_scan yields with ⟨fired, opts, pos, divided, rfl⟩
  refine ⟨fired, opts, pos, by simp, divided.block.options, divided.options, divided.positionals, divided.all,
    fun posix => ?_⟩
  rw [OptParser.parseMode, divided.block.runs, scan_terminator (scanStep_dashes named)]

/-! ## No panic -/

theorem scanStep_ne_panicked : p.scanStep out tok rest ≠ .panicked := by
  intro step
  unfold OptParser.scanStep at step
  split at step
  · rename_i stripped
    unfold OptParser.longStep at step
    cases split : OptParser.splitName stripped with
    | mk nameRaw eq =>
        simp only [split] at step
        cases found : complete p.switches (OptParser.dashed nameRaw) true with
        | invalid =>
            simp only [found] at step
            exact absurd (unresolved_decided.of_eq step) id
        | ambiguous =>
            simp only [found] at step
            exact absurd (unresolved_decided.of_eq step) id
        | found resolved =>
            simp only [found] at step
            cases resolved with
            | terminator =>
                simp only at step
                split_ifs at step
            | help =>
                simp only at step
                split_ifs at step
            | version => cases step
            | completionBash =>
                simp only at step
                split at step <;> cases step
            | completionZsh => cases step
            | switch idx negated =>
                rcases getElem?_of_complete found with ⟨sw, here⟩
                simp only [here] at step
                exact absurd (longSwitch_decided.of_eq step) id
  · rename_i opt restStr notLong
    exact absurd (shortStep_decided.of_eq step) id
  · cases step

theorem scan_ne_panicked : p.scan out posix rest items nonopts ≠ .panicked := by
  induction size : letters rest using Nat.strong_induction_on generalizing rest items nonopts with
  | h n ih =>
      subst size
      cases rest with
      | nil =>
          rw [scan_nil]
          simp
      | cons tok rest =>
          cases step : p.scanStep out tok rest with
          | fired item rest' =>
              rw [scan_fired step]
              exact ih _ (scanStep_letters step) rfl
          | nonOption =>
              rw [scan_nonOption step]
              split_ifs
              · simp
              · exact ih _ (by simp [letters]) rfl
          | terminator =>
              rw [scan_terminator step]
              simp
          | exit exit =>
              rw [scan_exit step]
              simp
          | panicked => exact absurd step scanStep_ne_panicked

/-- No command line brings the parser to its `unreachable!`, to an index outside its table of switches, or to an
index or a shift out of range among its suggestions. -/
theorem parseMode_ne_panicked (p : OptParser) (out : Outside F) (argv : List Text) (posix : Bool) :
    p.parseMode out argv posix ≠ .panicked :=
  scan_ne_panicked

end Permute

/-- The command line of a witness, with natural numbers for the floats. -/
def sampleOutside : Outside Nat where
  programName := "rigor".toList
  parseFloat _ := none
  zero := 0
  score _ _ _ _ := 0
  high _ := false
  boost d _ := d
  meets _ _ := false
  partialCmp a b := some (compare a b)
  quarter n := (n + 3) / 4
  toLowercase := id

def sampleArgv : List Text :=
  ["old.json".toList, "--current".toList, "now.json".toList, "lib".toList, "--format=json".toList]

theorem parseMode_permutes_sample : ∃ (fired : List (Item Nat)) (opts pos : List Text),
    [Item.opt "current".toList false (some (.str "now.json".toList)),
      .opt "format".toList false (some (.str "json".toList)), .positional "old.json".toList,
      .positional "lib".toList] = fired ++ pos.map .positional ∧
      (∀ item ∈ fired, ∃ key negated value, item = .opt key negated value) ∧
      opts.Sublist sampleArgv ∧ pos.Sublist sampleArgv ∧
      (sampleArgv.Perm (opts ++ pos) ∨ sampleArgv.Perm (opts ++ dashes :: pos)) ∧
      ∀ posix, diffParser.parseMode sampleOutside (opts ++ dashes :: pos) posix =
        .items [Item.opt "current".toList false (some (.str "now.json".toList)),
          .opt "format".toList false (some (.str "json".toList)), .positional "old.json".toList,
          .positional "lib".toList] := by
  apply parseMode_permutes
  · decide
  · unfold OptParser.parseMode sampleArgv
    rw [scan_nonOption rfl, if_neg (by decide), scan_fired rfl, scan_nonOption rfl, if_neg (by decide),
      scan_fired rfl, scan_nil]
    rfl

end Rigor.Cli.Options
