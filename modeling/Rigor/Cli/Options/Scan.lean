import Rigor.Cli.Options.Screens

/-!
# The scan of the arguments

`parse_mode` of `optparse.rs`.  A token is a long option, a short one, the terminator or no option.  An option
may take the token after it, and a cluster of short options goes back to the front without its first one.
-/

namespace Rigor.Cli.Options

/-- The outcome of a parse; `panicked` is an `unreachable!` or an index out of range. -/
inductive Parsed (F : Type) where
  | items (items : List (Item F))
  | exit (exit : Exit)
  | panicked

/-- What the loop makes of its first token. -/
inductive Step (F : Type) where
  | fired (item : Item F) (rest : List Text)
  | nonOption
  | terminator
  | exit (exit : Exit)
  | panicked

/-- The argument that stands in the token, or the next token. -/
def takeArgument (given : Option Text) (rest : List Text) : Option (Text × List Text) :=
  match given, rest with
  | some v, rest => some (v, rest)
  | none, v :: rest => some (v, rest)
  | none, [] => none

/-- The tokens after a flag of a cluster: the others go back as one token. -/
def requeue (leftover : Text) (rest : List Text) : List Text :=
  let pushed := '-' :: leftover.dropWhile (· = '-')
  if pushed ≠ ['-'] then pushed :: rest else rest

namespace OptParser

variable {F : Type} (p : OptParser) (out : Outside F)

def needless (tok : Text) : Exit :=
  err ("needless argument: ".toList ++ tok)

def missing (tok : Text) : Exit :=
  err ("missing argument: ".toList ++ tok)

/-- The error of a name that stands for no option, or for more than one. -/
def unresolved (msg name : Text) : Step F :=
  match p.errFor out msg name with
  | some exit => .exit exit
  | none => .panicked

/-! ## Long options -/

/-- The name and the value of a long option. -/
def splitName (stripped : Text) : Text × Option Text :=
  match Text.splitOnce '=' stripped with
  | some (name, value) => (name, some value)
  | none => (stripped, none)

/-- Underscores in a name become dashes. -/
def dashed (name : Text) : Text :=
  name.map fun c => if c = '_' then '-' else c

/-- A command's own switch, as a long option. -/
def longSwitch (sw : Switch) (negated : Bool) (tok : Text) (eq : Option Text) (rest : List Text) : Step F :=
  match sw.style with
  | .flag => if eq.isSome then .exit (needless tok) else .fired (.opt sw.key negated none) rest
  | .required =>
      match takeArgument eq rest with
      | none => .exit (missing tok)
      | some (v, rest) =>
          match convert out.parseFloat out.zero sw.kind v with
          | .ok val => .fired (.opt sw.key negated (some val)) rest
          | .error e => .exit (err (valueError e tok eq.isSome v))
  | .optional =>
      match eq with
      | some v =>
          match convert out.parseFloat out.zero sw.kind v with
          | .ok val => .fired (.opt sw.key negated (some val)) rest
          | .error e => .exit (err (valueError e tok true v))
      | none => .fired (.opt sw.key negated none) rest

/-- A token that begins with two dashes. -/
def longStep (tok stripped : Text) (rest : List Text) : Step F :=
  let (nameRaw, eq) := splitName stripped
  let name := dashed nameRaw
  match complete p.switches name true with
  | .invalid => p.unresolved out ("invalid option: ".toList ++ tok) name
  | .ambiguous => p.unresolved out ("ambiguous option: ".toList ++ tok) name
  | .found .terminator => if eq.isSome then .exit (needless tok) else .terminator
  | .found .help => if eq.isSome then .exit (needless tok) else .exit ⟨p.helpText, [], 0⟩
  | .found .version => .exit ⟨[], versionText out eq, 1⟩
  | .found .completionBash =>
      match takeArgument eq rest with
      | none => .exit (missing tok)
      | some (word, _) => .exit ⟨p.bashText word, [], 0⟩
  | .found .completionZsh => .exit ⟨p.compsysText out eq, [], 0⟩
  | .found (.switch idx negated) =>
      match p.switches[idx]? with
      | none => .panicked
      | some sw => longSwitch out sw negated tok eq rest

/-! ## Short options -/

/-- What a short option stands for. -/
structure Target where
  key : Text
  negated : Bool
  style : ArgStyle
  kind : ValueKind

/-- The terminator is the `unreachable!`. -/
def shortTarget : Resolved → Option Target
  | .switch i n => p.switches[i]?.map fun sw => ⟨sw.key, n, sw.style, sw.kind⟩
  | .help => some ⟨"@help".toList, false, .flag, .raw⟩
  | .version => some ⟨"@version".toList, false, .optional, .raw⟩
  | .completionBash => some ⟨"@comp-bash".toList, false, .required, .raw⟩
  | .completionZsh => some ⟨"@comp-zsh".toList, false, .optional, .raw⟩
  | .terminator => none

/-- The text of a fired value. -/
def firedText : Option (Value F) → Option Text
  | some (.str text) => some text
  | _ => none

/-- The switch fires; the officious ones print and exit. -/
def shortFire (target : Target) (value : Option (Value F)) (rest : List Text) : Step F :=
  if target.key = "@help".toList then .exit ⟨p.helpText, [], 0⟩
  else if target.key = "@version".toList then .exit ⟨[], versionText out (firedText value), 1⟩
  else if target.key = "@comp-bash".toList then .exit ⟨p.bashText ((firedText value).getD []), [], 0⟩
  else if target.key = "@comp-zsh".toList then .exit ⟨p.compsysText out (firedText value), [], 0⟩
  else .fired (.opt target.key target.negated value) rest

/-- The argument of a short option is the rest of its token. -/
def shortSwitch (target : Target) (tok restStr : Text) (rest : List Text) : Step F :=
  let val := if restStr = [] then none else some restStr
  match target.style with
  | .flag =>
      match val with
      | some v =>
          if ['='].isPrefixOf restStr then .exit (needless tok)
          else p.shortFire out target none (requeue v rest)
      | none => p.shortFire out target none rest
  | .required =>
      match takeArgument val rest with
      | none => .exit (missing tok)
      | some (v, rest) =>
          match convert out.parseFloat out.zero target.kind v with
          | .ok cv => p.shortFire out target (some cv) rest
          | .error e => .exit (err (shortValueError e tok val.isNone v))
  | .optional =>
      match val with
      | some v =>
          match convert out.parseFloat out.zero target.kind v with
          | .ok cv => p.shortFire out target (some cv) rest
          | .error e => .exit (err (shortValueError e tok false v))
      | none => p.shortFire out target none rest

/-- A token that begins with one dash. -/
def shortStep (tok : Text) (opt : Char) (restStr : Text) (rest : List Text) : Step F :=
  match complete p.switches [opt] false with
  | .invalid => p.unresolved out ("invalid option: ".toList ++ tok) [opt]
  | .ambiguous => p.unresolved out ("ambiguous option: ".toList ++ tok) [opt]
  | .found resolved =>
      match p.shortTarget resolved with
      | none => .panicked
      | some target => p.shortSwitch out target tok restStr rest

/-- One pass of the loop. -/
def scanStep (tok : Text) (rest : List Text) : Step F :=
  match tok with
  | '-' :: '-' :: stripped => p.longStep out tok stripped rest
  | '-' :: opt :: restStr => p.shortStep out tok opt restStr rest
  | _ => .nonOption

end OptParser

/-! ## What one pass does -/

section Pass

variable {F : Type} {p : OptParser} {out : Outside F} {tok restStr : Text} {rest rest' : List Text}
  {item : Item F} {posix : Bool} {items result : List (Item F)} {nonopts : List Text}

/-- A token that a cluster leaves: shorter, and again a short option. -/
def Clustered (tok q : Text) : Prop :=
  q.length < tok.length ∧ ∃ c t, q = '-' :: c :: t ∧ c ≠ '-'

/-- A pass takes `used` from the front and puts `pushed` there, whatever follows. -/
structure Passes (tok : Text) (step : List Text → Step F) (item : Item F) (used : List Text)
    (pushed : Option Text) : Prop where
  local_ : ∀ other, step (used ++ other) = .fired item (pushed.toList ++ other)
  option : ∃ key negated value, item = .opt key negated value
  clustered : ∀ q ∈ pushed, Clustered tok q

theorem unresolved_ne_fired {msg name : Text} : p.unresolved out msg name ≠ .fired item rest := by
  unfold OptParser.unresolved
  cases p.errFor out msg name <;> simp

/-- Such an error never panics. -/
theorem exists_unresolved_eq (msg name : Text) : ∃ exit, p.unresolved out msg name = .exit exit := by
  rcases exists_spellCorrect_eq out.toFloats p.dictionary name with ⟨corrections, found⟩
  have error : ∃ exit, p.errFor out msg name = some exit := by
    rw [OptParser.errFor, OptParser.suggestions, found]
    exact ⟨_, rfl⟩
  rcases error with ⟨exit, error⟩
  rw [OptParser.unresolved, error]
  exact ⟨exit, rfl⟩

theorem takeArgument_eq_some {given : Option Text} {v : Text} (taken : takeArgument given rest = some (v, rest')) :
    ∃ used, rest = used ++ rest' ∧ ∀ other, takeArgument given (used ++ other) = some (v, other) := by
  cases given with
  | some text =>
      cases taken
      exact ⟨[], rfl, fun _ => rfl⟩
  | none =>
      cases rest with
      | nil => cases taken
      | cons first rest =>
          cases taken
          exact ⟨[v], rfl, fun _ => rfl⟩

theorem requeue_eq (leftover : Text) :
    ∃ pushed : Option Text, (∀ other, requeue leftover other = pushed.toList ++ other) ∧
      ∀ q ∈ pushed, q.length ≤ leftover.length + 1 ∧ ∃ c t, q = '-' :: c :: t ∧ c ≠ '-' := by
  cases dropped : leftover.dropWhile (· = '-') with
  | nil =>
      refine ⟨none, fun other => ?_, by simp⟩
      simp [requeue, dropped]
  | cons c t =>
      refine ⟨some ('-' :: c :: t), fun other => ?_, ?_⟩
      · simp [requeue, dropped]
      · intro q mem
        cases mem
        have shorter := (List.dropWhile_sublist (l := leftover) (· = '-')).length_le
        have head := List.head_dropWhile_not (p := (· = '-')) (l := leftover) (by rw [dropped]; simp)
        simp only [dropped, List.head_cons, decide_eq_false_iff_not] at head
        rw [dropped] at shorter
        exact ⟨by simpa using shorter, c, t, rfl, head⟩

theorem longSwitch_passes {sw : Switch} {negated : Bool} {eq : Option Text}
    (fired : OptParser.longSwitch out sw negated tok eq rest = .fired item rest') :
    ∃ used, rest = used ++ rest' ∧ Passes tok (OptParser.longSwitch out sw negated tok eq) item used none := by
  have option (value : Option (Value F)) : ∃ key negated' value', (.opt sw.key negated value : Item F) =
      .opt key negated' value' :=
    ⟨sw.key, negated, value, rfl⟩
  unfold OptParser.longSwitch at fired ⊢
  cases style : sw.style with
  | flag =>
      cases given : eq.isSome with
      | true => simp [style, given] at fired
      | false =>
          simp only [style, given, Bool.false_eq_true, if_false, Step.fired.injEq] at fired
          rcases fired with ⟨rfl, rfl⟩
          exact ⟨[], rfl, fun _ => by simp, option _, by simp⟩
  | required =>
      cases taken : takeArgument eq rest with
      | none => simp [style, taken] at fired
      | some found =>
          rcases found with ⟨v, after⟩
          rcases takeArgument_eq_some taken with ⟨used, rfl, along⟩
          cases converted : convert out.parseFloat out.zero sw.kind v with
          | error e => simp [style, taken, converted] at fired
          | ok val =>
              simp only [style, taken, converted, Step.fired.injEq] at fired
              rcases fired with ⟨rfl, rfl⟩
              exact ⟨used, rfl, fun other => by simp [along, converted], option _, by simp⟩
  | optional =>
      cases eq with
      | none =>
          simp only [style, Step.fired.injEq] at fired
          rcases fired with ⟨rfl, rfl⟩
          exact ⟨[], rfl, fun _ => by simp, option _, by simp⟩
      | some v =>
          cases converted : convert out.parseFloat out.zero sw.kind v with
          | error e => simp [style, converted] at fired
          | ok val =>
              simp only [style, converted, Step.fired.injEq] at fired
              rcases fired with ⟨rfl, rfl⟩
              exact ⟨[], rfl, fun _ => by simp [converted], option _, by simp⟩

theorem longStep_passes {stripped : Text} (fired : p.longStep out tok stripped rest = .fired item rest') :
    ∃ used, rest = used ++ rest' ∧ Passes tok (p.longStep out tok stripped) item used none := by
  unfold OptParser.longStep at fired ⊢
  cases split : OptParser.splitName stripped with
  | mk nameRaw eq =>
      simp only [split] at fired ⊢
      cases found : complete p.switches (OptParser.dashed nameRaw) true with
      | invalid =>
          simp only [found] at fired
          exact absurd fired unresolved_ne_fired
      | ambiguous =>
          simp only [found] at fired
          exact absurd fired unresolved_ne_fired
      | found resolved =>
          simp only [found] at fired ⊢
          cases resolved with
          | terminator =>
              simp only at fired
              split at fired <;> cases fired
          | help =>
              simp only at fired
              split at fired <;> cases fired
          | version => cases fired
          | completionBash =>
              simp only at fired
              split at fired <;> cases fired
          | completionZsh => cases fired
          | switch idx negated =>
              simp only at fired ⊢
              cases here : p.switches[idx]? with
              | none => simp [here] at fired
              | some sw =>
                  simp only [here] at fired ⊢
                  exact longSwitch_passes fired

theorem shortFire_eq_fired {target : OptParser.Target} {value : Option (Value F)}
    (fired : p.shortFire out target value rest = .fired item rest') : rest' = rest ∧
      (∃ key negated value, item = .opt key negated value) ∧
      ∀ other, p.shortFire out target value other = .fired item other := by
  unfold OptParser.shortFire at fired ⊢
  split_ifs at fired ⊢
  rw [Step.fired.injEq] at fired
  rcases fired with ⟨rfl, rfl⟩
  exact ⟨rfl, ⟨_, _, _, rfl⟩, fun _ => rfl⟩

theorem shortSwitch_passes {target : OptParser.Target}
    (shorter : restStr.length + 1 < tok.length)
    (fired : p.shortSwitch out target tok restStr rest = .fired item rest') :
    ∃ used tail pushed, rest = used ++ tail ∧ rest' = Option.toList pushed ++ tail ∧
      Passes tok (p.shortSwitch out target tok restStr) item used pushed := by
  unfold OptParser.shortSwitch at fired ⊢
  generalize given : (if restStr = [] then none else some restStr) = val at fired ⊢
  cases style : target.style with
  | flag =>
      cases val with
      | none =>
          simp only [style] at fired ⊢
          rcases shortFire_eq_fired fired with ⟨rfl, option, along⟩
          exact ⟨[], rest', none, rfl, rfl, fun other => along other, option, by simp⟩
      | some v =>
          simp only [style] at fired ⊢
          split_ifs at fired ⊢ with needless
          rcases shortFire_eq_fired fired with ⟨rfl, option, along⟩
          rcases requeue_eq v with ⟨pushed, requeued, short⟩
          have same : v = restStr := by
            split_ifs at given
            exact (Option.some.inj given).symm
          refine ⟨[], rest, pushed, rfl, requeued rest, fun other => ?_, option, fun q mem => ?_⟩
          · rw [List.nil_append, along, requeued]
          · rcases short q mem with ⟨le, form⟩
            exact ⟨by rw [same] at le; omega, form⟩
  | required =>
      simp only [style] at fired ⊢
      cases taken : takeArgument val rest with
      | none => simp [taken] at fired
      | some found =>
          rcases found with ⟨v, after⟩
          rcases takeArgument_eq_some taken with ⟨used, rfl, along⟩
          cases converted : convert out.parseFloat out.zero target.kind v with
          | error e => simp [taken, converted] at fired
          | ok cv =>
              simp only [taken, converted] at fired
              rcases shortFire_eq_fired fired with ⟨rfl, option, fires⟩
              refine ⟨used, rest', none, rfl, rfl, fun other => ?_, option, by simp⟩
              simp only [along, converted]
              exact fires other
  | optional =>
      simp only [style] at fired ⊢
      cases val with
      | none =>
          rcases shortFire_eq_fired fired with ⟨rfl, option, along⟩
          exact ⟨[], rest', none, rfl, rfl, fun other => along other, option, by simp⟩
      | some v =>
          cases converted : convert out.parseFloat out.zero target.kind v with
          | error e => simp [converted] at fired
          | ok cv =>
              simp only [converted] at fired ⊢
              rcases shortFire_eq_fired fired with ⟨rfl, option, along⟩
              exact ⟨[], rest', none, rfl, rfl, fun other => along other, option, by simp⟩

theorem scanStep_passes (fired : p.scanStep out tok rest = .fired item rest') :
    ∃ used tail pushed, rest = used ++ tail ∧ rest' = Option.toList pushed ++ tail ∧
      Passes tok (p.scanStep out tok) item used pushed := by
  unfold OptParser.scanStep at fired ⊢
  split at fired
  · rename_i stripped
    rcases longStep_passes fired with ⟨used, rfl, passes⟩
    exact ⟨used, rest', none, rfl, rfl, passes⟩
  · rename_i opt restStr notLong
    unfold OptParser.shortStep at fired ⊢
    cases found : complete p.switches [opt] false with
    | invalid =>
        simp only [found] at fired
        exact absurd fired unresolved_ne_fired
    | ambiguous =>
        simp only [found] at fired
        exact absurd fired unresolved_ne_fired
    | found resolved =>
        cases meant : p.shortTarget resolved with
        | none => simp [found, meant] at fired
        | some target =>
            simp only [found, meant] at fired ⊢
            exact shortSwitch_passes (by simp) fired
  · cases fired

/-- The letters that are left, one more for each token. -/
def letters (rest : List Text) : Nat :=
  (rest.map fun tok => tok.length + 1).sum

theorem letters_append (first second : List Text) :
    letters (first ++ second) = letters first + letters second := by
  rw [letters, List.map_append, List.sum_append]
  rfl

theorem scanStep_letters (fired : p.scanStep out tok rest = .fired item rest') :
    letters rest' < letters (tok :: rest) := by
  rcases scanStep_passes fired with ⟨used, tail, pushed, rfl, rfl, passes⟩
  rw [← List.singleton_append, letters_append, letters_append, letters_append]
  have front : letters pushed.toList < letters [tok] := by
    cases pushed with
    | none => simp [letters]
    | some q =>
        have shorter := (passes.clustered q rfl).1
        simpa [letters] using shorter
  omega

end Pass

/-! ## The loop -/

namespace OptParser

variable {F : Type} (p : OptParser) (out : Outside F)

/-- The loop of `parse_mode`. -/
def scan (posix : Bool) : List Text → List (Item F) → List Text → Parsed F
  | [], items, nonopts => .items (items ++ nonopts.map .positional)
  | tok :: rest, items, nonopts =>
      match _step : p.scanStep out tok rest with
      | .fired item rest' => scan posix rest' (items ++ [item]) nonopts
      | .nonOption =>
          if posix then .items (items ++ (nonopts ++ tok :: rest).map .positional)
          else scan posix rest items (nonopts ++ [tok])
      | .terminator => .items (items ++ (nonopts ++ rest).map .positional)
      | .exit exit => .exit exit
      | .panicked => .panicked
termination_by rest => letters rest
decreasing_by
  · exact scanStep_letters _step
  · simp [letters]

def parseMode (argv : List Text) (posix : Bool) : Parsed F :=
  p.scan out posix argv [] []

/-- `parse_order`. -/
def parseOrder (argv : List Text) : Parsed F :=
  p.parseMode out argv true

/-- `parse`; `posixlyCorrect` says that `POSIXLY_CORRECT` is in the environment. -/
def parse (posixlyCorrect : Bool) (argv : List Text) : Parsed F :=
  p.parseMode out argv posixlyCorrect

end OptParser

section Loop

variable {F : Type} {p : OptParser} {out : Outside F} {tok : Text} {rest rest' : List Text} {item : Item F}
  {posix : Bool} {items : List (Item F)} {nonopts : List Text}

theorem scan_nil : p.scan out posix [] items nonopts = .items (items ++ nonopts.map .positional) := by
  rw [OptParser.scan]

theorem scan_fired (step : p.scanStep out tok rest = .fired item rest') :
    p.scan out posix (tok :: rest) items nonopts = p.scan out posix rest' (items ++ [item]) nonopts := by
  rw [OptParser.scan]
  split <;> simp_all

theorem scan_nonOption (step : p.scanStep out tok rest = .nonOption) :
    p.scan out posix (tok :: rest) items nonopts =
      if posix then .items (items ++ (nonopts ++ tok :: rest).map .positional)
      else p.scan out posix rest items (nonopts ++ [tok]) := by
  rw [OptParser.scan]
  split <;> simp_all

theorem scan_terminator (step : p.scanStep out tok rest = .terminator) :
    p.scan out posix (tok :: rest) items nonopts = .items (items ++ (nonopts ++ rest).map .positional) := by
  rw [OptParser.scan]
  split <;> simp_all

theorem scan_exit {exit : Exit} (step : p.scanStep out tok rest = .exit exit) :
    p.scan out posix (tok :: rest) items nonopts = .exit exit := by
  rw [OptParser.scan]
  split <;> simp_all

/-- The step of a scan that comes to an end with items. -/
theorem scan_cons_items {result : List (Item F)}
    (yields : p.scan out posix (tok :: rest) items nonopts = .items result) :
    (∃ item rest', p.scanStep out tok rest = .fired item rest' ∧
      p.scan out posix rest' (items ++ [item]) nonopts = .items result) ∨
    p.scanStep out tok rest = .nonOption ∨ p.scanStep out tok rest = .terminator := by
  rw [OptParser.scan] at yields
  split at yields
  · rename_i item rest' step
    exact Or.inl ⟨item, rest', step, yields⟩
  · rename_i step
    exact Or.inr (Or.inl step)
  · rename_i step
    exact Or.inr (Or.inr step)
  · cases yields
  · cases yields

end Loop

end Rigor.Cli.Options
