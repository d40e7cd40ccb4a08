import Rigor.Library.Wildcards
import Rigor.Text

/-!
# `fnmatch`

The matcher of `conformance_gate.rs` for path patterns, and the language of a pattern.
-/

namespace Rigor.Cli.Fnmatch

open Rigor.Library.Fuel Rigor.Library.Wildcards

/-! ## The matcher -/

/-- Past one backslash. -/
def skipEscape : Text → Text
  | '\\' :: rest => rest
  | p => p

/-- The first character, read through one backslash.  A NUL ends the pattern. -/
def unescaped (p : Text) : Option Char :=
  (skipEscape p).head?.filter fun c => c ≠ '\x00'

/-- One member of a class and the text after it. -/
def member (p : Text) : Option (Char × Text) :=
  match skipEscape p with
  | [] => none
  | c :: rest => if c = '\x00' then none else some (c, rest)

/-- Between two endpoints, or one of them. -/
def inRange (c lo hi : Char) : Bool :=
  c = lo || c = hi || (lo ≤ c && c ≤ hi)

theorem length_skipEscape_le (p : Text) : (skipEscape p).length ≤ p.length := by
  unfold skipEscape
  split
  · exact Nat.le_succ _
  · exact Nat.le_refl _

theorem length_lt_of_member {p rest : Text} {c : Char} (found : member p = some (c, rest)) :
    rest.length < p.length := by
  have shorter := length_skipEscape_le p
  rw [member] at found
  split at found
  · nomatch found
  · rename_i d after same
    rw [same, List.length_cons] at shorter
    rw [Option.ite_none_left_eq_some, Option.some.injEq, Prod.mk.injEq] at found
    rw [← found.2.2]
    exact shorter

/-- The loop of `bracket`: whether a member has been hit, and the text after the class. -/
def bracketLoop (c : Char) (ok : Bool) (p : Text) : Option (Bool × Text) :=
  if p.head? = some ']' then some (ok, p.tail)
  else
    match _ : member p with
    | none => none
    | some (lo, rest) =>
        if rest = [] then none
        else if rest.head? = some '-' ∧ rest.tail.head? ≠ some ']' then
          match _ : member rest.tail with
          | none => none
          | some (hi, rest') => bracketLoop c (ok || inRange c lo hi) rest'
        else bracketLoop c (ok || c = lo) rest
termination_by p.length
decreasing_by
  · have first := length_lt_of_member ‹member p = some (lo, rest)›
    have second := length_lt_of_member ‹member rest.tail = some (hi, rest')›
    rw [List.length_tail] at second
    omega
  · exact length_lt_of_member ‹member p = some (lo, rest)›

/-- The class after its `[`, as negated or not. -/
def classBody (p : Text) : Bool × Text :=
  if p.head? = some '!' ∨ p.head? = some '^' then (true, p.tail) else (false, p)

/-- The text after a class that the character is in. -/
def bracket (p : Text) (c : Char) : Option Text :=
  match bracketLoop c false (classBody p).2 with
  | none => none
  | some (ok, rest) => if ok ≠ (classBody p).1 then some rest else none

/-- One turn of the loop of `fnmatch_chars`. -/
def turn (state : State Text Char) : Bool ⊕ State Text Char :=
  match state.pattern with
  | '*' :: rest =>
      let after := rest.dropWhile (· = '*')
      if (unescaped after).isNone then .inl true
      else if state.text = [] then .inl false
      else .inr ⟨after, state.text, some (after, state.text)⟩
  | '?' :: rest =>
      match state.text with
      | [] => .inl false
      | _ :: text => .inr ⟨rest, text, state.retry⟩
  | '[' :: rest =>
      match state.text with
      | [] => .inl false
      | c :: text =>
          match bracket rest c with
          | some next => .inr ⟨next, text, state.retry⟩
          | none => backtrack state.retry
  | p =>
      let lit := skipEscape p
      let litEnd := lit.head?.all fun c => c = '\x00'
      match state.text, lit with
      | [], _ => .inl litEnd
      | _ :: _, [] => backtrack state.retry
      | c :: text, l :: rest =>
          if litEnd then backtrack state.retry
          else if c = l then .inr ⟨rest, text, state.retry⟩
          else backtrack state.retry

/-- `fnmatch_chars`. -/
def fnmatchChars (fuel : Nat) (p s : Text) : Option Bool :=
  if s.head? = some '.' ∧ unescaped p ≠ some '.' then some false
  else run turn fuel ⟨p, s, none⟩

/-! ## The language of a pattern -/

/-- A member, after a backslash or as it stands. -/
inductive Member : Text → Char → Text → Prop where
  | escaped (c : Char) (rest : Text) : Member ('\\' :: c :: rest) c rest
  | plain {c : Char} (other : c ≠ '\\') (rest : Text) : Member (c :: rest) c rest

/-- The endpoints of the members, up to the first `]`. -/
inductive Members : Text → List (Char × Char) → Text → Prop where
  | close (rest : Text) : Members (']' :: rest) [] rest
  | single {p rest after : Text} {c : Char} {members : List (Char × Char)}
      (more : p.head? ≠ some ']') (first : Member p c rest)
      (noRange : rest.head? = some '-' → rest.tail.head? = some ']')
      (others : Members rest members after) : Members p ((c, c) :: members) after
  | range {p middle rest after : Text} {lo hi : Char} {members : List (Char × Char)}
      (more : p.head? ≠ some ']') (first : Member p lo ('-' :: middle))
      (last : middle.head? ≠ some ']') (second : Member middle hi rest)
      (others : Members rest members after) : Members p ((lo, hi) :: members) after

/-- The character is in the class that the pattern starts with. -/
inductive InClass (c : Char) : Text → Text → Prop where
  | listed {p after : Text} {members : List (Char × Char)}
      (plain : p.head? ≠ some '!' ∧ p.head? ≠ some '^') (spelled : Members p members after)
      (hit : ∃ ends ∈ members, c = ends.1 ∨ c = ends.2 ∨ ends.1 ≤ c ∧ c ≤ ends.2) :
      InClass c p after
  | negated {sign : Char} {p after : Text} {members : List (Char × Char)}
      (isSign : sign = '!' ∨ sign = '^') (spelled : Members p members after)
      (miss : ¬∃ ends ∈ members, c = ends.1 ∨ c = ends.2 ∨ ends.1 ≤ c ∧ c ≤ ends.2) :
      InClass c (sign :: p) after

/-- The texts of a pattern. -/
inductive InLanguage : Text → Text → Prop where
  | done : InLanguage [] []
  | trailing : InLanguage ['\\'] []
  | star {p s : Text} (skipped : Text) (rest : InLanguage p s) : InLanguage ('*' :: p) (skipped ++ s)
  | any {p s : Text} (c : Char) (rest : InLanguage p s) : InLanguage ('?' :: p) (c :: s)
  | bracket {p after s : Text} {c : Char} (inClass : InClass c p after) (rest : InLanguage after s) :
      InLanguage ('[' :: p) (c :: s)
  | escaped {p s : Text} (c : Char) (rest : InLanguage p s) : InLanguage ('\\' :: c :: p) (c :: s)
  | literal {p s : Text} {c : Char} (plain : c ≠ '*' ∧ c ≠ '?' ∧ c ≠ '[' ∧ c ≠ '\\')
      (rest : InLanguage p s) : InLanguage (c :: p) (c :: s)

/-- A leading period has to be written. -/
def PeriodWritten (p s : Text) : Prop :=
  s.head? = some '.' → ∃ rest, Member p '.' rest

/-! ## Classes -/

/-- A backslash is skipped, or there is none. -/
theorem skipEscape_cases (p : Text) : (∃ rest, p = '\\' :: rest ∧ skipEscape p = rest) ∨
    (p.head? ≠ some '\\' ∧ skipEscape p = p) := by
  cases p with
  | nil => exact .inr ⟨nofun, rfl⟩
  | cons c rest =>
      by_cases escape : c = '\\'
      · exact .inl ⟨rest, by rw [escape], by rw [escape]; rfl⟩
      · refine .inr ⟨by simpa using escape, ?_⟩
        unfold skipEscape
        split
        · rename_i same
          exact absurd (List.cons.inj same).1 escape
        · rfl

theorem skipEscape_eq_cons_iff {p rest : Text} {c : Char} :
    skipEscape p = c :: rest ↔ Member p c rest := by
  constructor
  · intro skipped
    rcases skipEscape_cases p with ⟨rest', rfl, same⟩ | ⟨noEscape, same⟩
    · rw [same] at skipped
      rw [skipped]
      exact .escaped c rest
    · rw [same] at skipped
      rw [skipped, List.head?_cons] at noEscape
      rw [skipped]
      exact .plain (fun escape => noEscape (congrArg some escape)) rest
  · rintro (_ | other)
    · rfl
    · rcases skipEscape_cases (c :: rest) with ⟨rest', same, -⟩ | ⟨-, same⟩
      · exact absurd (List.cons.inj same).1 other
      · exact same

theorem member_eq_some_iff {p : Text} (noNul : '\x00' ∉ p) {c : Char} {rest : Text} :
    member p = some (c, rest) ↔ Member p c rest := by
  rw [← skipEscape_eq_cons_iff, member]
  have inside : ∀ d, d ∈ skipEscape p → d ∈ p := by
    intro d mem
    rcases skipEscape_cases p with ⟨rest', rfl, same⟩ | ⟨-, same⟩
    · rw [same] at mem
      exact List.mem_cons_of_mem _ mem
    · rwa [same] at mem
  cases skipped : skipEscape p with
  | nil => exact iff_of_false nofun nofun
  | cons d after =>
      have visible : d ≠ '\x00' := by
        rintro rfl
        exact noNul (inside _ (skipped ▸ List.mem_cons_self))
      simp only [if_neg visible, Option.some.injEq, Prod.mk.injEq, List.cons.injEq]

theorem inRange_iff {c lo hi : Char} :
    inRange c lo hi = true ↔ c = lo ∨ c = hi ∨ lo ≤ c ∧ c ≤ hi := by
  simp [inRange, or_assoc]

theorem bracketLoop_close (c : Char) (ok : Bool) (rest : Text) :
    bracketLoop c ok (']' :: rest) = some (ok, rest) := by
  rw [bracketLoop]
  exact if_pos rfl

theorem bracketLoop_of_more {p : Text} (more : p.head? ≠ some ']') (c : Char) (ok : Bool) :
    bracketLoop c ok p = (member p).bind fun (lo, rest) =>
      if rest = [] then none
      else if rest.head? = some '-' ∧ rest.tail.head? ≠ some ']' then
        (member rest.tail).bind fun (hi, rest') => bracketLoop c (ok || inRange c lo hi) rest'
      else bracketLoop c (ok || c = lo) rest := by
  rw [bracketLoop, if_neg more]
  split
  · rename_i found
    rw [found, Option.bind_none]
  · rename_i lo rest found
    rw [found, Option.bind_some]
    simp only
    congr 2
    split
    · rename_i found'
      rw [found', Option.bind_none]
    · rename_i found'
      rw [found', Option.bind_some]

/-- Where the class ends does not depend on the character. -/
theorem bracketLoop_same {a b : Char} {ok ok' x y : Bool} {p q r : Text}
    (first : bracketLoop a ok p = some (x, q)) (second : bracketLoop b ok' p = some (y, r)) :
    q = r ∧ q.length < p.length := by
  induction size : p.length using Nat.strongRecOn generalizing p ok ok' with
  | _ n ih =>
      subst size
      by_cases close : p.head? = some ']'
      · rcases List.head?_eq_some_iff.mp close with ⟨rest, rfl⟩
        rw [bracketLoop_close, Option.some.injEq, Prod.mk.injEq] at first second
        rw [← first.2, ← second.2]
        exact ⟨rfl, Nat.lt_succ_self _⟩
      · rw [bracketLoop_of_more close] at first second
        rcases Option.bind_eq_some_iff.mp first with ⟨⟨lo, rest⟩, found, first⟩
        rw [found, Option.bind_some] at second
        have shorter := length_lt_of_member found
        simp only at first second
        by_cases ended : rest = []
        · rw [if_pos ended] at first
          nomatch first
        · rw [if_neg ended] at first second
          by_cases range : rest.head? = some '-' ∧ rest.tail.head? ≠ some ']'
          · rw [if_pos range] at first second
            rcases Option.bind_eq_some_iff.mp first with ⟨⟨hi, rest'⟩, found', first⟩
            rw [found', Option.bind_some] at second
            have shorter' := length_lt_of_member found'
            rw [List.length_tail] at shorter'
            rcases ih rest'.length (by omega) first second rfl with ⟨same, less⟩
            exact ⟨same, by omega⟩
          · rw [if_neg range] at first second
            rcases ih rest.length shorter first second rfl with ⟨same, less⟩
            exact ⟨same, Nat.lt_trans less shorter⟩

theorem bracket_eq_some_iff {p q : Text} {c : Char} : bracket p c = some q ↔
    ∃ ok, bracketLoop c false (classBody p).2 = some (ok, q) ∧ ok ≠ (classBody p).1 := by
  rw [bracket]
  cases bracketLoop c false (classBody p).2 with
  | none => exact iff_of_false nofun (fun ⟨_, none_, _⟩ => nomatch none_)
  | some parts =>
      rcases parts with ⟨ok, rest⟩
      simp only [Option.ite_none_right_eq_some, Option.some.injEq, Prod.mk.injEq]
      constructor
      · rintro ⟨differs, rfl⟩
        exact ⟨ok, ⟨rfl, rfl⟩, differs⟩
      · rintro ⟨_, ⟨rfl, rfl⟩, differs⟩
        exact ⟨differs, rfl⟩

theorem length_classBody_le (p : Text) : (classBody p).2.length ≤ p.length := by
  rw [classBody]
  split
  · rw [List.length_tail]
    exact Nat.sub_le _ _
  · exact Nat.le_refl _

theorem length_lt_of_bracket {p q : Text} {c : Char} (found : bracket p c = some q) :
    q.length < p.length := by
  rcases bracket_eq_some_iff.mp found with ⟨ok, loop, -⟩
  exact Nat.lt_of_lt_of_le (bracketLoop_same loop loop).2 (length_classBody_le p)

theorem bracket_same {p q r : Text} {a b : Char} (first : bracket p a = some q)
    (second : bracket p b = some r) : q = r := by
  rcases bracket_eq_some_iff.mp first with ⟨_, loop, -⟩
  rcases bracket_eq_some_iff.mp second with ⟨_, loop', -⟩
  exact (bracketLoop_same loop loop').1

/-! ## The matcher as a machine -/

/-- What a pattern starts with. -/
def shape : Text → Shape Text Char
  | '*' :: rest => .star (rest.dropWhile (· = '*'))
  | '?' :: rest => .one fun _ => some rest
  | '[' :: rest => .one (bracket rest)
  | p =>
      match skipEscape p with
      | [] => .stop
      | l :: rest => if l = '\x00' then .stop else .one fun c => if c = l then some rest else none

/-- Neither a wildcard nor a class. -/
def Ordinary (p : Text) : Prop :=
  p.head? ≠ some '*' ∧ p.head? ≠ some '?' ∧ p.head? ≠ some '['

theorem shape_of_ordinary {p : Text} (ordinary : Ordinary p) : shape p =
    match skipEscape p with
    | [] => .stop
    | l :: rest =>
        if l = '\x00' then .stop else .one fun c => if c = l then some rest else none := by
  unfold shape
  split
  · exact absurd rfl ordinary.1
  · exact absurd rfl ordinary.2.1
  · exact absurd rfl ordinary.2.2
  · rfl

/-- The four ways in which a pattern starts. -/
theorem start_cases (p : Text) : (∃ rest, p = '*' :: rest) ∨ (∃ rest, p = '?' :: rest) ∨
    (∃ rest, p = '[' :: rest) ∨ Ordinary p := by
  by_cases star : p.head? = some '*'
  · exact .inl (List.head?_eq_some_iff.mp star)
  · by_cases any : p.head? = some '?'
    · exact .inr (.inl (List.head?_eq_some_iff.mp any))
    · by_cases cls : p.head? = some '['
      · exact .inr (.inr (.inl (List.head?_eq_some_iff.mp cls)))
      · exact .inr (.inr (.inr ⟨star, any, cls⟩))

theorem ordinary_shape_cases {p : Text} (ordinary : Ordinary p) :
    (shape p = .stop ∧ (skipEscape p).head?.all (· = '\x00') = true) ∨
      ∃ l rest, skipEscape p = l :: rest ∧ l ≠ '\x00' ∧
        shape p = .one fun c => if c = l then some rest else none := by
  rw [shape_of_ordinary ordinary]
  cases skipped : skipEscape p with
  | nil => exact .inl ⟨rfl, rfl⟩
  | cons l rest =>
      by_cases nul : l = '\x00'
      · exact .inl ⟨if_pos nul, by simp [nul]⟩
      · exact .inr ⟨l, rest, rfl, nul, if_neg nul⟩

theorem of_shape_star {p q : Text} (star : shape p = .star q) :
    ∃ rest, p = '*' :: rest ∧ q = rest.dropWhile (· = '*') := by
  rcases start_cases p with ⟨rest, rfl⟩ | ⟨rest, rfl⟩ | ⟨rest, rfl⟩ | ordinary
  · exact ⟨rest, rfl, (Shape.star.inj star).symm⟩
  · nomatch star
  · nomatch star
  · rcases ordinary_shape_cases ordinary with ⟨same, -⟩ | ⟨l, rest, -, -, same⟩
    · rw [same] at star
      nomatch star
    · rw [same] at star
      nomatch star

theorem of_shape_one {p : Text} {next : Char → Option Text} (one : shape p = .one next) :
    (∃ rest, p = '?' :: rest ∧ next = fun _ => some rest) ∨
      (∃ rest, p = '[' :: rest ∧ next = bracket rest) ∨
      ∃ l rest, Ordinary p ∧ skipEscape p = l :: rest ∧
        next = fun c => if c = l then some rest else none := by
  rcases start_cases p with ⟨rest, rfl⟩ | ⟨rest, rfl⟩ | ⟨rest, rfl⟩ | ordinary
  · nomatch one
  · exact .inl ⟨rest, rfl, (Shape.one.inj one).symm⟩
  · exact .inr (.inl ⟨rest, rfl, (Shape.one.inj one).symm⟩)
  · rcases ordinary_shape_cases ordinary with ⟨same, -⟩ | ⟨l, rest, skipped, -, same⟩
    · rw [same] at one
      nomatch one
    · rw [same] at one
      exact .inr (.inr ⟨l, rest, ordinary, skipped, (Shape.one.inj one).symm⟩)

/-- The patterns of `fnmatch`. -/
def grammar : Grammar Text Char where
  shape := shape
  size := List.length
  star_size := by
    intro p q star
    rcases of_shape_star star with ⟨rest, rfl, rfl⟩
    exact Nat.lt_succ_of_le (List.dropWhile_sublist _).length_le
  star_once := by
    intro p q r star star'
    rcases of_shape_star star with ⟨rest, rfl, rfl⟩
    rcases of_shape_star star' with ⟨rest', same, -⟩
    have stopped := List.head?_dropWhile_not (· = '*') rest
    rw [same] at stopped
    nomatch stopped
  one_size := by
    intro p q next a one found
    rcases of_shape_one one with ⟨rest, rfl, rfl⟩ | ⟨rest, rfl, rfl⟩ | ⟨l, rest, -, skipped, rfl⟩
    · obtain rfl := Option.some.inj found
      exact Nat.lt_succ_self _
    · exact Nat.lt_succ_of_lt (length_lt_of_bracket found)
    · rw [Option.ite_none_right_eq_some, Option.some.injEq] at found
      have shorter := length_skipEscape_le p
      rw [skipped, List.length_cons, found.2] at shorter
      exact shorter
  one_same := by
    intro p q r next a b one found found'
    rcases of_shape_one one with ⟨rest, rfl, rfl⟩ | ⟨rest, rfl, rfl⟩ | ⟨l, rest, -, -, rfl⟩
    · exact (Option.some.inj found).symm.trans (Option.some.inj found')
    · exact bracket_same found found'
    · rw [Option.ite_none_right_eq_some, Option.some.injEq] at found found'
      exact found.2.symm.trans found'.2

/-- After the stars the pattern ends where `unescaped` finds nothing. -/
theorem unescaped_isNone_iff {p : Text} (noStar : p.head? ≠ some '*') :
    (unescaped p).isNone = true ↔ shape p = .stop := by
  rcases start_cases p with ⟨rest, rfl⟩ | ⟨rest, rfl⟩ | ⟨rest, rfl⟩ | ordinary
  · exact absurd rfl noStar
  · exact iff_of_false nofun nofun
  · exact iff_of_false nofun nofun
  · rw [unescaped]
    rcases ordinary_shape_cases ordinary with ⟨same, ended⟩ | ⟨l, rest, skipped, visible, same⟩
    · rw [same]
      cases skipped : skipEscape p with
      | nil => exact iff_of_true rfl rfl
      | cons l rest =>
          rw [skipped] at ended
          exact iff_of_true (by simpa using ended) rfl
    · rw [same, skipped]
      exact iff_of_false (by simpa using visible) nofun

theorem turn_star (rest s : Text) (retry : Option (Text × Text)) :
    turn ⟨'*' :: rest, s, retry⟩ = step grammar ⟨'*' :: rest, s, retry⟩ := by
  have noStar : (rest.dropWhile (· = '*')).head? ≠ some '*' := by
    intro star
    have stopped := List.head?_dropWhile_not (· = '*') rest
    rw [star] at stopped
    cases stopped
  have first : shape ('*' :: rest) = .star (rest.dropWhile (· = '*')) := rfl
  have ended := unescaped_isNone_iff noStar
  simp only [turn, step, grammar]
  rw [first]
  generalize rest.dropWhile (· = '*') = after at *
  cases next : shape after with
  | stop =>
      simp only [next]
      rw [if_pos (ended.mpr next)]
  | star after' =>
      rcases of_shape_star next with ⟨rest', rfl, -⟩
      exact absurd rfl noStar
  | one test =>
      have goesOn : ¬(unescaped after).isNone = true := by
        rw [ended, next]
        rintro ⟨⟩
      simp only [next]
      rw [if_neg goesOn]
      cases s with
      | nil => rw [if_pos rfl]
      | cons c s => rw [if_neg (List.cons_ne_nil c s)]

theorem turn_ordinary {p : Text} (ordinary : Ordinary p) (s : Text) (retry : Option (Text × Text)) :
    turn ⟨p, s, retry⟩ = step grammar ⟨p, s, retry⟩ := by
  have unfolded : turn ⟨p, s, retry⟩ =
      match s, skipEscape p with
      | [], _ => .inl ((skipEscape p).head?.all fun c => c = '\x00')
      | _ :: _, [] => backtrack retry
      | c :: text, l :: rest =>
          if (skipEscape p).head?.all (fun c => c = '\x00') then backtrack retry
          else if c = l then .inr ⟨rest, text, retry⟩
          else backtrack retry := by
    unfold turn
    split
    · rename_i same
      exact absurd (congrArg List.head? same) ordinary.1
    · rename_i same
      exact absurd (congrArg List.head? same) ordinary.2.1
    · rename_i same
      exact absurd (congrArg List.head? same) ordinary.2.2
    · rfl
  rw [unfolded]
  simp only [step, grammar]
  rcases ordinary_shape_cases ordinary with ⟨same, ended⟩ | ⟨l, rest, skipped, visible, same⟩
  · rw [same, ended]
    cases s with
    | nil => rfl
    | cons c s => cases skipEscape p <;> rfl
  · rw [same, skipped]
    cases s with
    | nil => simp [visible]
    | cons c s =>
        by_cases hit : c = l
        · simp [visible, hit]
        · simp [visible, hit]

/-- The loop is the matcher of the grammar. -/
theorem turn_eq_step (state : State Text Char) : turn state = step grammar state := by
  rcases state with ⟨p, s, retry⟩
  rcases start_cases p with ⟨rest, rfl⟩ | ⟨rest, rfl⟩ | ⟨rest, rfl⟩ | ordinary
  · exact turn_star rest s retry
  · cases s <;> rfl
  · cases s with
    | nil => rfl
    | cons c s =>
        simp only [turn, step, grammar, shape]
        cases bracket rest c <;> rfl
  · exact turn_ordinary ordinary s retry

/-! ## The language as that of the machine -/

theorem suffix_of_member {p rest : Text} {c : Char} (first : Member p c rest) : rest <:+ p := by
  cases first with
  | escaped => exact ⟨['\\', c], rfl⟩
  | plain => exact ⟨[c], rfl⟩

theorem noNul_of_suffix {p rest : Text} (ends : rest <:+ p) (noNul : '\x00' ∉ p) :
    '\x00' ∉ rest :=
  fun mem => noNul (ends.subset mem)

theorem Members.ne_nil {p after : Text} {members : List (Char × Char)}
    (spelled : Members p members after) : p ≠ [] := by
  cases spelled with
  | close => exact List.cons_ne_nil _ _
  | single _ first _ _ => cases first <;> exact List.cons_ne_nil _ _
  | range _ first _ _ _ => cases first <;> exact List.cons_ne_nil _ _

theorem Members.suffix {p after : Text} {members : List (Char × Char)}
    (spelled : Members p members after) : after <:+ p := by
  induction spelled with
  | close rest => exact List.suffix_cons _ _
  | single _ first _ _ ih => exact ih.trans (suffix_of_member first)
  | range _ first _ second _ ih =>
      exact ((ih.trans (suffix_of_member second)).trans (List.suffix_cons _ _)).trans
        (suffix_of_member first)

theorem inRange_self (c lo : Char) : inRange c lo lo = decide (c = lo) := by
  rw [Bool.eq_iff_iff, inRange_iff, decide_eq_true_eq]
  constructor
  · rintro (same | same | both)
    · exact same
    · exact same
    · exact Char.le_antisymm both.2 both.1
  · exact fun same => .inl same

/-- Some member of the class is hit. -/
def hits (c : Char) (members : List (Char × Char)) : Bool :=
  members.any fun ends => inRange c ends.1 ends.2

theorem bracketLoop_of_members {p after : Text} {members : List (Char × Char)}
    (spelled : Members p members after) (noNul : '\x00' ∉ p) (c : Char) (ok : Bool) :
    bracketLoop c ok p = some (ok || hits c members, after) := by
  induction spelled generalizing ok with
  | close rest => rw [bracketLoop_close, hits, List.any_nil, Bool.or_false]
  | @single p rest after lo members more first noRange others ih =>
      have range : ¬(rest.head? = some '-' ∧ rest.tail.head? ≠ some ']') :=
        fun both => both.2 (noRange both.1)
      have inner := noNul_of_suffix (suffix_of_member first) noNul
      rw [bracketLoop_of_more more, (member_eq_some_iff noNul).mpr first, Option.bind_some]
      simp only
      rw [if_neg others.ne_nil, if_neg range, ih inner, hits, hits, List.any_cons, inRange_self,
        ← Bool.or_assoc]
  | @range p middle rest after lo hi members more first last second others ih =>
      have inner := noNul_of_suffix (suffix_of_member first) noNul
      have inner' := noNul_of_suffix (List.suffix_cons _ _) inner
      have inner'' := noNul_of_suffix (suffix_of_member second) inner'
      rw [bracketLoop_of_more more, (member_eq_some_iff noNul).mpr first, Option.bind_some]
      simp only
      rw [if_neg (List.cons_ne_nil _ _), if_pos ⟨rfl, last⟩, List.tail_cons,
        (member_eq_some_iff inner').mpr second, Option.bind_some]
      simp only
      rw [ih inner'', hits, hits, List.any_cons, ← Bool.or_assoc]

theorem members_of_bracketLoop {p after : Text} {c : Char} {ok found : Bool} (noNul : '\x00' ∉ p)
    (loop : bracketLoop c ok p = some (found, after)) : ∃ members, Members p members after := by
  induction size : p.length using Nat.strongRecOn generalizing p ok with
  | _ n ih =>
      subst size
      by_cases close : p.head? = some ']'
      · rcases List.head?_eq_some_iff.mp close with ⟨rest, rfl⟩
        rw [bracketLoop_close, Option.some.injEq, Prod.mk.injEq] at loop
        rw [← loop.2]
        exact ⟨[], .close rest⟩
      · rw [bracketLoop_of_more close] at loop
        rcases Option.bind_eq_some_iff.mp loop with ⟨⟨lo, rest⟩, isMember, loop⟩
        have shorter := length_lt_of_member isMember
        have first := (member_eq_some_iff noNul).mp isMember
        have inner := noNul_of_suffix (suffix_of_member first) noNul
        simp only at loop
        rw [Option.ite_none_left_eq_some] at loop
        by_cases range : rest.head? = some '-' ∧ rest.tail.head? ≠ some ']'
        · rw [if_pos range] at loop
          rcases Option.bind_eq_some_iff.mp loop.2 with ⟨⟨hi, rest'⟩, isMember', loop'⟩
          have shorter' := length_lt_of_member isMember'
          rcases List.head?_eq_some_iff.mp range.1 with ⟨middle, rfl⟩
          rw [List.tail_cons] at isMember' shorter' range
          have inner' := noNul_of_suffix (List.suffix_cons _ _) inner
          have second := (member_eq_some_iff inner').mp isMember'
          have less : rest'.length < p.length := by
            rw [List.length_cons] at shorter
            omega
          rcases ih rest'.length less (noNul_of_suffix (suffix_of_member second) inner') loop' rfl with
            ⟨members, others⟩
          exact ⟨_, .range close first range.2 second others⟩
        · rw [if_neg range] at loop
          rcases ih rest.length shorter inner loop.2 rfl with ⟨members, others⟩
          refine ⟨_, .single close first (fun dash => ?_) others⟩
          by_contra last
          exact range ⟨dash, last⟩

theorem hits_iff {c : Char} {members : List (Char × Char)} : hits c members = true ↔
    ∃ ends ∈ members, c = ends.1 ∨ c = ends.2 ∨ ends.1 ≤ c ∧ c ≤ ends.2 := by
  simp only [hits, List.any_eq_true, inRange_iff]

/-- The scanner of the class finds its members. -/
theorem bracket_iff {p after : Text} (noNul : '\x00' ∉ p) {c : Char} :
    bracket p c = some after ↔ InClass c p after := by
  constructor
  · intro found
    rcases bracket_eq_some_iff.mp found with ⟨ok, loop, differs⟩
    rw [classBody] at loop differs
    by_cases sign : p.head? = some '!' ∨ p.head? = some '^'
    · rw [if_pos sign] at loop differs
      obtain ⟨first, rest, rfl, isSign⟩ : ∃ first rest, p = first :: rest ∧
          (first = '!' ∨ first = '^') := by
        rcases sign with same | same
        · rcases List.head?_eq_some_iff.mp same with ⟨rest, rfl⟩
          exact ⟨_, rest, rfl, .inl rfl⟩
        · rcases List.head?_eq_some_iff.mp same with ⟨rest, rfl⟩
          exact ⟨_, rest, rfl, .inr rfl⟩
      have inner := noNul_of_suffix (List.suffix_cons first rest) noNul
      rcases members_of_bracketLoop inner loop with ⟨members, spelled⟩
      rw [List.tail_cons, bracketLoop_of_members spelled inner, Option.some.injEq,
        Prod.mk.injEq] at loop
      refine .negated isSign spelled ?_
      rw [← hits_iff]
      intro hit
      rw [hit] at loop
      exact differs loop.1.symm
    · rw [if_neg sign] at loop differs
      rcases members_of_bracketLoop noNul loop with ⟨members, spelled⟩
      rw [bracketLoop_of_members spelled noNul, Option.some.injEq, Prod.mk.injEq] at loop
      refine .listed (not_or.mp sign) spelled ?_
      rw [← hits_iff]
      have isHit : ok = true := by simpa using differs
      rw [← isHit, ← loop.1, Bool.false_or]
  · intro inClass
    rw [bracket_eq_some_iff, classBody]
    cases inClass with
    | listed plain spelled hit =>
        rw [if_neg (not_or.mpr plain)]
        rw [← hits_iff] at hit
        exact ⟨_, bracketLoop_of_members spelled noNul c false, by simp [hit]⟩
    | @negated sign p _ members isSign spelled miss =>
        have inner := noNul_of_suffix (List.suffix_cons sign p) noNul
        have signed : (sign :: p).head? = some '!' ∨ (sign :: p).head? = some '^' := by
          simpa using isSign
        rw [if_pos signed]
        rw [← hits_iff] at miss
        exact ⟨_, bracketLoop_of_members spelled inner c false, by simp [miss]⟩

theorem InClass.suffix {c : Char} {p after : Text} (inClass : InClass c p after) : after <:+ p := by
  cases inClass with
  | listed _ spelled _ => exact spelled.suffix
  | negated _ spelled _ => exact spelled.suffix.trans (List.suffix_cons _ _)

theorem shape_star (rest : Text) :
    grammar.shape ('*' :: rest) = .star (rest.dropWhile (· = '*')) :=
  rfl

/-- Another star takes no less. -/
theorem matches_cons_star {p s : Text} (skipped : Text) (found : Matches grammar p s) :
    Matches grammar ('*' :: p) (skipped ++ s) := by
  have here : grammar.shape ('*' :: p) = .star (p.dropWhile (· = '*')) := shape_star p
  by_cases star : p.head? = some '*'
  · rcases List.head?_eq_some_iff.mp star with ⟨rest, rfl⟩
    have inner : grammar.shape ('*' :: rest) = .star (rest.dropWhile (· = '*')) := shape_star rest
    rw [List.dropWhile_cons_of_pos (by decide)] at here
    rcases (matches_star_iff inner).mp found with now | ⟨a, skipped', rest', rfl, later⟩
    · exact .star here skipped now
    · rw [← List.cons_append, ← List.append_assoc]
      exact .star here _ later
  · have kept : p.dropWhile (· = '*') = p := by
      cases p with
      | nil => rfl
      | cons c p => exact List.dropWhile_cons_of_neg (by simpa using star)
    rw [kept] at here
    exact .star here skipped found

theorem matches_member {p rest s : Text} {c : Char} (first : Member p c rest)
    (ordinary : Ordinary p) (noNul : '\x00' ∉ p) (found : Matches grammar rest s) :
    Matches grammar p (c :: s) := by
  have visible : c ≠ '\x00' := by
    rintro rfl
    cases first with
    | escaped => exact noNul (List.mem_cons_of_mem _ List.mem_cons_self)
    | plain => exact noNul List.mem_cons_self
  have test : grammar.shape p = .one fun d => if d = c then some rest else none := by
    refine (shape_of_ordinary ordinary).trans ?_
    rw [skipEscape_eq_cons_iff.mpr first]
    exact if_neg visible
  exact .one test (if_pos rfl) found

theorem matches_of_inLanguage {p s : Text} (inLanguage : InLanguage p s) (noNul : '\x00' ∉ p) :
    Matches grammar p s := by
  induction inLanguage with
  | done => exact .stop rfl
  | trailing => exact .stop rfl
  | star skipped _ ih => exact matches_cons_star skipped (ih (noNul_of_suffix (List.suffix_cons _ _) noNul))
  | any c _ ih =>
      exact .one rfl rfl (ih (noNul_of_suffix (List.suffix_cons _ _) noNul))
  | bracket inClass _ ih =>
      have inner := noNul_of_suffix (List.suffix_cons _ _) noNul
      exact .one rfl ((bracket_iff inner).mpr inClass) (ih (noNul_of_suffix inClass.suffix inner))
  | @escaped p s c _ ih =>
      have first : Member ('\\' :: c :: p) c p := .escaped c p
      exact matches_member first ⟨nofun, nofun, nofun⟩ noNul
        (ih (noNul_of_suffix (suffix_of_member first) noNul))
  | @literal p s c plain _ ih =>
      have first : Member (c :: p) c p := .plain plain.2.2.2 p
      have ordinary : Ordinary (c :: p) := by
        simpa [Ordinary] using ⟨plain.1, plain.2.1, plain.2.2.1⟩
      exact matches_member first ordinary noNul
        (ih (noNul_of_suffix (suffix_of_member first) noNul))

/-- Stars may take nothing. -/
theorem inLanguage_of_dropWhile {p s : Text}
    (inLanguage : InLanguage (p.dropWhile (· = '*')) s) : InLanguage p s := by
  induction p with
  | nil => exact inLanguage
  | cons c p ih =>
      by_cases star : c = '*'
      · subst star
        exact .star [] (ih inLanguage)
      · rwa [List.dropWhile_cons_of_neg (by simpa using star)] at inLanguage

/-- A pattern that has ended is empty, or a backslash. -/
theorem inLanguage_nil {p : Text} (stop : grammar.shape p = .stop) (noNul : '\x00' ∉ p) :
    InLanguage p [] := by
  rcases start_cases p with ⟨rest, rfl⟩ | ⟨rest, rfl⟩ | ⟨rest, rfl⟩ | ordinary
  · nomatch stop
  · nomatch stop
  · nomatch stop
  · rcases ordinary_shape_cases ordinary with ⟨-, ended⟩ | ⟨l, rest, -, -, same⟩
    · rcases skipEscape_cases p with ⟨rest, rfl, same⟩ | ⟨-, same⟩
      · cases rest with
        | nil => exact .trailing
        | cons c rest =>
            rw [same] at ended
            obtain rfl : c = '\x00' := by simpa using ended
            exact absurd (List.mem_cons_of_mem _ List.mem_cons_self) noNul
      · cases p with
        | nil => exact .done
        | cons c rest =>
            rw [same] at ended
            obtain rfl : c = '\x00' := by simpa using ended
            exact absurd List.mem_cons_self noNul
    · rw [show shape p = Shape.stop from stop] at same
      nomatch same

theorem inLanguage_of_matches {p s : Text} (found : Matches grammar p s) (noNul : '\x00' ∉ p) :
    InLanguage p s := by
  induction found with
  | stop shape' => exact inLanguage_nil shape' noNul
  | @star p q text shape' skipped _ ih =>
      rcases of_shape_star shape' with ⟨rest, rfl, rfl⟩
      have ends : rest.dropWhile (· = '*') <:+ '*' :: rest :=
        (List.dropWhile_suffix _).trans (List.suffix_cons _ _)
      exact .star skipped (inLanguage_of_dropWhile (ih (noNul_of_suffix ends noNul)))
  | @one p q next c text shape' found _ ih =>
      rcases of_shape_one shape' with ⟨rest, rfl, rfl⟩ | ⟨rest, rfl, rfl⟩ | ⟨l, rest, ordinary, skipped, rfl⟩
      · obtain rfl := Option.some.inj found
        exact .any c (ih (noNul_of_suffix (List.suffix_cons _ _) noNul))
      · have inner := noNul_of_suffix (List.suffix_cons _ _) noNul
        have inClass := (bracket_iff inner).mp found
        exact .bracket inClass (ih (noNul_of_suffix inClass.suffix inner))
      · rw [Option.ite_none_right_eq_some, Option.some.injEq] at found
        rcases found with ⟨rfl, rfl⟩
        have first := skipEscape_eq_cons_iff.mp skipped
        have inner := ih (noNul_of_suffix (suffix_of_member first) noNul)
        cases first with
        | escaped => exact .escaped c inner
        | plain other =>
            have notStar : c ≠ '*' := fun same => ordinary.1 (congrArg some same)
            have notAny : c ≠ '?' := fun same => ordinary.2.1 (congrArg some same)
            have notClass : c ≠ '[' := fun same => ordinary.2.2 (congrArg some same)
            exact .literal ⟨notStar, notAny, notClass, other⟩ inner

/-- The guard against a leading period. -/
theorem unescaped_period_iff (p : Text) : unescaped p = some '.' ↔ ∃ rest, Member p '.' rest := by
  rw [unescaped, Option.filter_eq_some_iff, List.head?_eq_some_iff]
  simp only [skipEscape_eq_cons_iff]
  exact and_iff_left (by decide)

/-- The matcher always answers, and finds exactly the texts of the pattern. -/
theorem fnmatchChars_iff (p s : Text) (noNul : '\x00' ∉ p) :
    ∃ answer, Returns (fun fuel => fnmatchChars fuel p s) answer ∧
      (answer = true ↔ PeriodWritten p s ∧ InLanguage p s) := by
  by_cases guarded : s.head? = some '.' ∧ unescaped p ≠ some '.'
  · refine ⟨false, .of_const fun fuel => if_pos guarded, iff_of_false nofun ?_⟩
    rintro ⟨written, -⟩
    exact guarded.2 ((unescaped_period_iff p).mpr (written guarded.1))
  · have written : PeriodWritten p s := by
      intro period
      by_contra absent
      exact guarded ⟨period, fun same => absent ((unescaped_period_iff p).mp same)⟩
    have machine : turn = step grammar := funext turn_eq_step
    have inv : Inv grammar ⟨p, s, none⟩ := fun _ _ => nofun
    rcases run_returns ⟨p, s, none⟩ inv with ⟨answer, returns, correct⟩
    refine ⟨answer, ?_, ?_⟩
    · simp only [fnmatchChars, if_neg guarded, machine]
      exact returns
    · rw [correct, and_iff_right written]
      constructor
      · rintro (found | ⟨_, _, same, -⟩)
        · exact inLanguage_of_matches found noNul
        · nomatch same
      · exact fun inLanguage => .inl (matches_of_inLanguage inLanguage noNul)

/-- A star, an escape and a class. -/
theorem fnmatchChars_iff_hidden : '\x00' ∉ "*\\.[ab]".toList ∧
    ∃ answer, Returns (fun fuel => fnmatchChars fuel "*\\.[ab]".toList "x.b".toList) answer ∧
      (answer = true ↔ PeriodWritten "*\\.[ab]".toList "x.b".toList ∧
        InLanguage "*\\.[ab]".toList "x.b".toList) := by
  have noNul : '\x00' ∉ "*\\.[ab]".toList := by decide
  exact ⟨noNul, fnmatchChars_iff _ _ noNul⟩

end Rigor.Cli.Fnmatch
