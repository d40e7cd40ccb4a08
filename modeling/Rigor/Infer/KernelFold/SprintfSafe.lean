import Rigor.Infer.KernelFold.Pieces
import Rigor.Infer.KernelFold.Segments
import Rigor.Library.Fuel

/-!
# Runs of `sprintf`

Every run ends without a panic, and a run that answers has rendered the pieces of its template one
after the other, each directive with the next argument.
-/

namespace Rigor.Infer.KernelFold

open Rigor.Library Rigor.Rust Rigor.Types

/-! ## What is rendered -/

/-- The rendering of one piece: what it adds to the output, and the arguments before and after. -/
inductive Piece.Adds : Piece → List Scalar → Text → List Scalar → Prop where
  | literal {c : Char} (plain : c ≠ '%') (args : List Scalar) : Adds (.literal c plain) args [c] args
  | percent (args : List Scalar) : Adds .percent args ['%'] args
  | directive {spelled : Spelled} {arg : Scalar} {text : Text} (args : List Scalar)
      (capped : spelled.directive.Capped)
      (formatted : formatArg spelled.directive arg = .ok (some text)) :
      Adds (.directive spelled) (arg :: args) text args

/-- The pieces of a template rendered one after the other; no argument is left over. -/
inductive Renders : List Piece → List Scalar → Text → Prop where
  | nil : Renders [] [] []
  | cons {piece : Piece} {pieces : List Piece} {before after : List Scalar} {text out : Text}
      (adds : piece.Adds before text after) (rest : Renders pieces after out) :
      Renders (piece :: pieces) before (text ++ out)

/-- Every argument is consumed by one directive. -/
theorem Renders.countP_consumes {pieces : List Piece} {args : List Scalar} {out : Text}
    (renders : Renders pieces args out) : pieces.countP Piece.consumes = args.length := by
  induction renders with
  | nil => rfl
  | cons adds _ ih =>
      cases adds with
      | literal | percent =>
          rw [List.countP_cons_of_neg (by simp [Piece.consumes])]
          exact ih
      | directive =>
          rw [List.countP_cons_of_pos (by simp [Piece.consumes]), ih, List.length_cons]

/-! ## Iterations -/

section Steps

variable {chars : Text} {args : List Scalar} {s : Frame}

theorem formatArg_supported {d : Directive} {arg : Scalar} {text : Text}
    (formatted : formatArg d arg = .ok (some text)) : d.conv ∈ conversions := by
  unfold formatArg at formatted
  split at formatted
  case h_12 => nomatch formatted
  all_goals
    rename_i conv
    rw [conv]
    decide

theorem Frame.limited_cases (frame : Frame) :
    frame.limited = .done none ∨ frame.limited = .next frame := by
  rw [limited]
  split
  · exact .inl rfl
  · exact .inr rfl

/-- The iteration goes on after one piece of the template. -/
def Advances (chars : Text) (args : List Scalar) (s : Frame) (outcome : Outcome) : Prop :=
  ∃ (s' : Frame) (piece : Piece) (text : Text), outcome = .next s' ∧
    chars.drop s.i = piece.text ++ chars.drop s'.i ∧ s'.i = s.i + piece.text.length ∧
    s'.out = s.out ++ text ∧ piece.Adds (args.drop s.argi) text (args.drop s'.argi)

theorem advances_directive (percent : chars[s.i]? = some '%') :
    ∃ outcome, (match readDirective chars (s.i + 1) with
      | none => (return .done none : Checked Outcome)
      | some (d, i) => do
          match ← segment args s.argi d with
          | none => return .done none
          | some (text, argi) => return Frame.limited ⟨s.out ++ text, argi, i⟩) = .ok outcome ∧
      (outcome = .done none ∨ Advances chars args s outcome) := by
  cases read : readDirective chars (s.i + 1) with
  | none => exact ⟨_, rfl, .inl rfl⟩
  | some directive =>
      rcases directive with ⟨d, i⟩
      have capped := readDirective_capped read
      cases given : args[s.argi]? with
      | none =>
          simp only [segment, given]
          exact ⟨_, rfl, .inl rfl⟩
      | some arg =>
          rcases formatArg_ok capped arg with ⟨result, formatted⟩
          simp only [segment, given, formatted]
          cases result with
          | none => exact ⟨_, rfl, .inl rfl⟩
          | some text =>
              refine ⟨_, rfl, ?_⟩
              rcases Frame.limited_cases ⟨s.out ++ text, s.argi + 1, i⟩ with stops | goesOn
              · exact .inl stops
              · right
                rcases readDirective_sound read (formatArg_supported formatted) with
                  ⟨spelled, spells, rfl, rfl⟩
                refine ⟨_, .directive spelled, text, goesOn, ?_, ?_, rfl, ?_⟩
                · rw [drop_of_getElem? percent, spells]
                  rfl
                · simp only [Piece.text, List.length_cons]
                  omega
                · rw [drop_of_getElem? given]
                  exact .directive _ capped formatted

/-- Inside the template an iteration returns `None` or goes on after one piece. -/
theorem step_inside (args : List Scalar) (inside : s.i < chars.length) :
    ∃ outcome, step chars args s = .ok outcome ∧
      (outcome = .done none ∨ Advances chars args s outcome) := by
  have at_ := List.getElem?_eq_getElem inside
  rw [step, if_pos inside, charIndex, at_]
  simp only [bind, Except.bind]
  by_cases plain : chars[s.i] ≠ '%'
  · rw [if_pos plain]
    refine ⟨_, rfl, ?_⟩
    rcases Frame.limited_cases ⟨s.out ++ [chars[s.i]], s.argi, s.i + 1⟩ with stops | goesOn
    · exact .inl stops
    · right
      exact ⟨_, .literal _ plain, _, goesOn, drop_of_getElem? at_, rfl, rfl, .literal plain _⟩
  · rw [if_neg plain]
    rw [not_not.mp plain] at at_
    cases second : chars[s.i + 1]? with
    | none => exact ⟨_, rfl, .inl rfl⟩
    | some next =>
        simp only
        by_cases percent : next = '%'
        · rw [if_pos percent]
          refine ⟨_, rfl, .inr ⟨_, .percent, _, rfl, ?_, rfl, rfl, .percent _⟩⟩
          rw [drop_of_getElem? at_, drop_of_getElem? second, percent]
          rfl
        · rw [if_neg percent]
          exact advances_directive at_

/-- Within the limit a piece of the template is rendered. -/
theorem step_of_adds {piece : Piece} {text rest : Text} {after : List Scalar}
    (adds : piece.Adds (args.drop s.argi) text after)
    (spells : chars.drop s.i = piece.text ++ rest) (counted : s.argi ≤ args.length)
    (within : (s.out ++ text).len ≤ stringFoldByteLimit) :
    ∃ argi, args.drop argi = after ∧ argi ≤ args.length ∧
      step chars args s = .ok (.next ⟨s.out ++ text, argi, s.i + piece.text.length⟩) := by
  have limited : ∀ argi i, Frame.limited ⟨s.out ++ text, argi, i⟩ =
      .next ⟨s.out ++ text, argi, i⟩ :=
    fun _ _ => if_neg (Nat.not_lt.mpr within)
  have first := getElem?_of_drop spells
  have inside : s.i < chars.length := by
    rw [← Nat.not_le, ← List.drop_eq_nil_iff, spells]
    exact fun empty => piece.text_ne_nil (List.append_eq_nil_iff.mp empty).1
  rw [step, if_pos inside, charIndex, first]
  generalize before : args.drop s.argi = args' at adds
  cases adds with
  | @literal c plain =>
      refine ⟨s.argi, before, counted, ?_⟩
      simp only [Piece.text, List.singleton_append, List.head?_cons, bind, Except.bind]
      rw [if_pos plain, limited]
      rfl
  | percent =>
      refine ⟨s.argi, before, counted, ?_⟩
      have second : chars[s.i + 1]? = some '%' := getElem?_of_drop (drop_succ_of_drop spells)
      simp only [Piece.text, List.cons_append, List.head?_cons, bind, Except.bind, second]
      rfl
  | @directive spelled arg =>
      rename_i capped formatted
      have next : chars.drop (s.i + 1) = spelled.tail ++ rest := drop_succ_of_drop spells
      have given : args[s.argi]? = some arg := by rw [← List.head?_drop, before, List.head?_cons]
      have afterIt : args.drop (s.argi + 1) = after := by
        rw [← List.drop_drop, before, List.drop_one, List.tail_cons]
      refine ⟨s.argi + 1, afterIt, (List.getElem?_eq_some_iff.mp given).1, ?_⟩
      have read := (readDirective_spelled spelled next).mpr ⟨capped, rfl, rfl⟩
      have second := getElem?_of_drop next
      cases tail : spelled.tail ++ rest with
      | nil => simp [Spelled.tail] at tail
      | cons c more =>
          have notPercent : c ≠ '%' := by
            rintro rfl
            exact spelled.tail_ne_percent tail
          rw [tail, List.head?_cons] at second
          simp only [Piece.text, List.cons_append, List.head?_cons, bind, Except.bind, second]
          rw [if_neg (not_not.mpr rfl), if_neg notPercent]
          simp only [read, segment, given, formatted, bind, Except.bind, pure, Except.pure,
            Option.map_some, limited, List.length_cons]
          simp only [Nat.add_assoc, Nat.add_comm 1]

/-- After the template the interpreter returns. -/
theorem step_outside (args : List Scalar) (outside : ¬s.i < chars.length) :
    step chars args s = .ok (.done
      (if s.argi = args.length ∧ s.out.len ≤ stringFoldByteLimit then some s.out else none)) := by
  rw [step, if_neg outside]
  by_cases consumed : s.argi = args.length
  · rw [if_neg (not_not.mpr consumed)]
    by_cases within : s.out.len ≤ stringFoldByteLimit
    · rw [if_neg (Nat.not_lt.mpr within), if_pos ⟨consumed, within⟩]
      rfl
    · rw [if_pos (Nat.lt_of_not_le within), if_neg (fun both => within both.2)]
      rfl
  · rw [if_pos consumed, if_neg (fun both => consumed both.1)]
    rfl

end Steps

/-! ## Runs -/

/-- What a run that answers has done from a frame on. -/
def HasRendered (chars : Text) (args : List Scalar) (s : Frame) (out : Text) : Prop :=
  out.len ≤ stringFoldByteLimit ∧ ∃ (pieces : List Piece) (tail : Text),
    chars.drop s.i = spelling pieces ∧ Renders pieces (args.drop s.argi) tail ∧
      out = s.out ++ tail

/-- One iteration before a run that answers. -/
theorem HasRendered.of_advances {chars : Text} {args : List Scalar} {s s' : Frame} {out : Text}
    (advances : Advances chars args s (.next s')) (answers : HasRendered chars args s' out) :
    HasRendered chars args s out := by
  rcases advances with ⟨_, piece, text, ⟨⟩, spells, _, outs, adds⟩
  rcases answers with ⟨within, pieces, tail, rest, renders, rfl⟩
  refine ⟨within, piece :: pieces, text ++ tail, ?_, .cons adds renders, ?_⟩
  · rw [spells, rest]
    rfl
  · rw [outs, List.append_assoc]

/-- Every run ends, without a panic; the index grows with every iteration. -/
theorem run_ends (chars : Text) (args : List Scalar) (s : Frame) (inside : s.i ≤ chars.length) :
    ∃ result, (∀ fuel, chars.length - s.i < fuel → run chars args fuel s = some (.ok result)) ∧
      ∀ out, result = some out → HasRendered chars args s out := by
  induction left : chars.length - s.i using Nat.strongRecOn generalizing s with
  | _ n ih =>
      by_cases more : s.i < chars.length
      · rcases step_inside args more with ⟨outcome, stepped, rfl | advances⟩
        · refine ⟨none, fun fuel enough => ?_, nofun⟩
          rcases Nat.exists_eq_succ_of_ne_zero (Nat.ne_zero_of_lt enough) with ⟨fuel, rfl⟩
          rw [run, stepped]
        · have goesOn := advances
          rcases goesOn with ⟨s', piece, text, rfl, spells, next, _⟩
          have long := List.length_pos_iff.mpr piece.text_ne_nil
          have lengths := congrArg List.length spells
          rw [List.length_append, List.length_drop, List.length_drop] at lengths
          rcases ih (chars.length - s'.i) (by omega) s' (by omega) rfl with ⟨result, runs, answers⟩
          refine ⟨result, fun fuel enough => ?_, fun out answered =>
            .of_advances advances (answers out answered)⟩
          rcases Nat.exists_eq_succ_of_ne_zero (Nat.ne_zero_of_lt enough) with ⟨fuel, rfl⟩
          rw [run, stepped]
          exact runs fuel (by omega)
      · refine ⟨if s.argi = args.length ∧ s.out.len ≤ stringFoldByteLimit then some s.out else none,
          fun fuel enough => ?_, fun out answered => ?_⟩
        · rcases Nat.exists_eq_succ_of_ne_zero (Nat.ne_zero_of_lt enough) with ⟨fuel, rfl⟩
          rw [run, step_outside args more]
        · split at answered
          · rename_i ends
            cases answered
            refine ⟨ends.2, [], [], ?_, ?_, (List.append_nil _).symm⟩
            · exact List.drop_eq_nil_of_le (Nat.not_lt.mp more)
            · rw [ends.1, List.drop_length]
              exact .nil
          · nomatch answered

/-- A run over pieces that can be rendered within the limit answers. -/
theorem run_of_renders {chars : Text} {args args' : List Scalar} {pieces : List Piece} {tail : Text}
    (renders : Renders pieces args' tail) (s : Frame) (spells : chars.drop s.i = spelling pieces)
    (before : args.drop s.argi = args') (counted : s.argi ≤ args.length)
    (within : (s.out ++ tail).len ≤ stringFoldByteLimit) :
    Fuel.Returns (fun fuel => run chars args fuel s) (.ok (some (s.out ++ tail))) := by
  induction renders generalizing s with
  | nil =>
      have ends : ¬s.i < chars.length := Nat.not_lt.mpr (List.drop_eq_nil_iff.mp spells)
      have consumed : s.argi = args.length :=
        Nat.le_antisymm counted (List.drop_eq_nil_iff.mp before)
      rw [List.append_nil] at within ⊢
      apply Fuel.Returns.of_const
      intro fuel
      rw [run, step_outside args ends, if_pos ⟨consumed, within⟩]
  | @cons piece pieces _ _ text out adds rest ih =>
      rw [← List.append_assoc] at within ⊢
      have soFar : (s.out ++ text).len ≤ stringFoldByteLimit := by
        rw [Text.len_append] at within
        exact Nat.le_trans (Nat.le_add_right _ _) within
      subst before
      rcases step_of_adds adds spells counted soFar with ⟨argi, after, counted', stepped⟩
      apply Fuel.Returns.of_succ
      simp only [run, stepped]
      exact ih ⟨s.out ++ text, argi, s.i + piece.text.length⟩ (drop_add_length spells) after
        counted' within

/-- What `sprintf` answers: exactly the renderings within the limit. -/
theorem sprintf_answers_iff (template : Text) (args : List Scalar) (out : Text) :
    Fuel.Returns (sprintf template args) (.ok (some out)) ↔ out.len ≤ stringFoldByteLimit ∧
      ∃ pieces, template = spelling pieces ∧ Renders pieces args out := by
  rcases run_ends template args ⟨[], 0, 0⟩ (Nat.zero_le _) with ⟨result, runs, answers⟩
  constructor
  · intro answered
    have same := Except.ok.inj (Fuel.Returns.unique ⟨_, runs⟩ answered)
    rcases answers out same with ⟨within, pieces, tail, spells, renders, rfl⟩
    exact ⟨within, pieces, spells, renders⟩
  · rintro ⟨within, pieces, spells, renders⟩
    exact run_of_renders renders ⟨[], 0, 0⟩ spells rfl (Nat.zero_le _) within

/--
`sprintf` ends without a panic, asks for no segment wider or more precise than the limit, and
answers at most `STRING_FOLD_BYTE_LIMIT` bytes: the rendering of the pieces that spell the template,
whose directives take the arguments one by one.
-/
theorem sprintf_safe (template : Text) (args : List Scalar) :
    ∃ result, Fuel.Returns (sprintf template args) (.ok result) ∧
      (∀ i d j, readDirective template i = some (d, j) → d.Capped) ∧
      ∀ out, result = some out → out.len ≤ stringFoldByteLimit ∧
        ∃ pieces, spelling pieces = template ∧ Renders pieces args out ∧
          pieces.countP Piece.consumes = args.length ∧
          ∀ others, spelling others = template → others = pieces := by
  rcases run_ends template args ⟨[], 0, 0⟩ (Nat.zero_le _) with ⟨result, runs, answers⟩
  refine ⟨result, ⟨_, runs⟩, fun _ _ _ => readDirective_capped, fun out answered => ?_⟩
  rcases answers out answered with ⟨within, pieces, tail, spells, renders, rfl⟩
  refine ⟨within, pieces, spells.symm, renders, renders.countP_consumes, fun others same => ?_⟩
  exact spelling_injective (same.trans spells)

end Rigor.Infer.KernelFold
