import Rigor.Cli.Sidecar.Channel

/-!
# What every step of the channel keeps

While a thread waits, its line is with the worker, or the reply to it, or what the worker left of the reply
when it ended.  While no thread waits, the pipes are empty.
-/

namespace Rigor.Cli.Sidecar

open Rigor.Library.Runs Rigor.Types

universe u

variable {ι : Type u} {S : Setup ι} {w : World ι} {thread : ι} {call : Call}
  {answer : Option Scalar}

/-! ## What the folder relies on -/

/-- Some thread may ask for the call. -/
def Asked (S : Setup ι) (call : Call) : Prop :=
  ∃ thread history, S.next thread history = some call

/-- The conversions and the `Debug` forms are the standard ones, the dispatcher asks for calls of the table
only, and JSON carries them. -/
structure Setup.Sound (S : Setup ι) : Prop where
  converts : S.P.Converts
  standard : S.tables.Standard
  foldable : ∀ call, Asked S call → sidecarFoldable (scalarClass call.recv) call.method = true
  carries : ∀ call, Asked S call → Carries S.P call

theorem foldableTable_plain : ∀ row ∈ foldableTable, ∀ name ∈ row.2, unitSeparator ∉ name.toList := by
  decide

theorem method_plain (sound : S.Sound) (asked : Asked S call) : unitSeparator ∉ call.method := by
  have foldable := sound.foldable call asked
  rw [sidecarFoldable, List.any_eq_true] at foldable
  rcases foldable with ⟨row, inTable, holds⟩
  rw [Bool.and_eq_true, List.any_eq_true] at holds
  rcases holds.2 with ⟨name, inRow, same⟩
  rw [← of_decide_eq_true same]
  exact foldableTable_plain row inTable name inRow

/-- Calls of one key have one reply. -/
theorem received_eq_of_key_eq (sound : S.Sound) {call' : Call} (asked : Asked S call) (asked' : Asked S call')
    (same : key S.tables call = key S.tables call') : received S.P call = received S.P call' := by
  have requests := request_eq_of_key_eq sound.standard (method_plain sound asked) (method_plain sound asked') same
  simp only [request, Json.obj.injEq, List.cons.injEq, Prod.mk.injEq, true_and, and_true, Json.str.injEq,
    Json.arr.injEq] at requests
  rcases requests with ⟨recv, method, args⟩
  have answers : replied S.P call = replied S.P call' := by
    rw [replied, replied, outcome, outcome, ← decodeScalar_scalarToJson sound.converts,
      ← decodeScalar_scalarToJson sound.converts, ← mapM_decodeScalar sound.converts,
      ← mapM_decodeScalar sound.converts, recv, method, args]
  rw [received, received, answers]

/-! ## The invariant -/

/-- What is in the pipes while a thread waits. -/
inductive Flight (S : Setup ι) (w : World ι) (call : Call) : Prop where
  | asked (alive : w.alive = true) (toWorker : w.toWorker = requestLine S.P call) (toClient : w.toClient = [])
  | replied (result : Option RubyValue) (answers : replied S.P call = some result) (toWorker : w.toWorker = [])
      (toClient : w.toClient = S.P.rubyGenerate (replyTo result) ++ ['\n'])
  | exited (ended : w.alive = false) (toWorker : w.toWorker = []) (toClient : w.toClient = [])
  | torn (ended : w.alive = false) (toWorker : w.toWorker = []) (result : Option RubyValue)
      (answers : replied S.P call = some result)
      (toClient : w.toClient <+: S.P.rubyGenerate (replyTo result) ++ ['\n'])

/-- The worker has ended, or has sent a reply that cannot be read. -/
def Lost (S : Setup ι) (w : World ι) : Prop :=
  w.alive = false ∨ ∃ call ∈ w.sent, Unreadable S.P call

/-- The answer is what was read of the reply, or it is none after the worker was lost. -/
def Right (S : Setup ι) (w : World ι) (call : Call) (answer : Option Scalar) : Prop :=
  answer = received S.P call ∨ answer = none ∧ Lost S w

/-- The memo and the monitors, but for the call that waits. -/
structure Core (S : Setup ι) (w : World ι) (waiting : Option Call) : Prop where
  gone : w.dead = true → Lost S w
  memo : ∀ k answer, w.memo k = some answer → ∃ call, Asked S call ∧ key S.tables call = k ∧ Right S w call answer
  history : ∀ thread call answer, (call, answer) ∈ w.history thread →
    Asked S call ∧ w.memo (key S.tables call) = some answer
  once : (w.sent.map (key S.tables)).Nodup
  sent : ∀ call ∈ w.sent, w.memo (key S.tables call) ≠ none ∨ waiting = some call

/-- The pipes are empty while no thread waits, and a thread waits for a line that it wrote. -/
structure Good (S : Setup ι) (w : World ι) : Prop where
  core : Core S w (w.holder.map Prod.snd)
  idle : w.holder = none → w.toWorker = [] ∧ w.toClient = []
  busy : ∀ thread call, w.holder = some (thread, call) →
    w.dead = false ∧ Asked S call ∧ w.memo (key S.tables call) = none ∧ call ∈ w.sent ∧ Flight S w call

theorem good_initial : Good S (initialWorld : World ι) := by
  constructor
  · constructor
    · intro dead
      cases dead
    · intro k answer found
      cases found
    · intro thread call answer mem
      cases mem
    · exact List.nodup_nil
    · intro call mem
      cases mem
  · exact fun _ => ⟨rfl, rfl⟩
  · intro thread call holds
    cases holds

/-! ## Coming to an answer -/

theorem Core.waiting (core : Core S w none) (call : Call) : Core S w (some call) :=
  ⟨core.gone, core.memo, core.history, core.once, fun call' mem => by
    rcases core.sent call' mem with memoised | impossible
    · exact Or.inl memoised
    · cases impossible⟩

/-- A step that neither answers nor asks keeps the memo and the monitors; the worker may end in it. -/
theorem Core.of_same {w' : World ι} {waiting : Option Call} (core : Core S w waiting) (memo : w'.memo = w.memo)
    (history : w'.history = w.history) (sent : w'.sent = w.sent) (gone : w'.dead = true → Lost S w')
    (ended : Lost S w → Lost S w') : Core S w' waiting := by
  constructor
  · exact gone
  · intro k answer found
    rw [memo] at found
    rcases core.memo k answer found with ⟨call, asked, same, right⟩
    exact ⟨call, asked, same, right.imp_right fun late => ⟨late.1, ended late.2⟩⟩
  · intro thread call answer mem
    rw [history] at mem
    rw [memo]
    exact core.history thread call answer mem
  · rw [sent]
    exact core.once
  · rw [sent, memo]
    exact core.sent

/-- No thread waits after an answer. -/
theorem good_of_core (core : Core S w none) (free : w.holder = none)
    (idle : w.toWorker = [] ∧ w.toClient = []) : Good S w := by
  constructor
  · rw [free]
    exact core
  · exact fun _ => idle
  · intro thread call holds
    rw [free] at holds
    cases holds

/-! ## The worker -/

theorem frontLine_of_line {line : Text} (single : '\n' ∉ line) (rest : Text) :
    frontLine (line ++ '\n' :: rest) = some (line ++ ['\n'], rest) := by
  rw [frontLine, Text.splitOnce_append single]
  rfl

theorem frontLine_of_not_mem {pipe : Text} (none_ : '\n' ∉ pipe) : frontLine pipe = none := by
  rw [frontLine]
  cases split : Text.splitOnce '\n' pipe with
  | none => rfl
  | some found =>
      rw [(Text.of_splitOnce split).2] at none_
      exact absurd (List.mem_append_right _ List.mem_cons_self) none_

/-- The worker serves the line of a fold. -/
theorem serve_of_asked (sound : S.Sound) (asked : Asked S call) (toWorker : w.toWorker = requestLine S.P call) :
    w.serve S = match replied S.P call with
      | some result =>
          { w with toWorker := [], toClient := w.toClient ++ (S.P.rubyGenerate (replyTo result) ++ ['\n']) }
      | none => { w with alive := false, toWorker := [] } := by
  have carries := sound.carries call asked
  have front : frontLine w.toWorker = some (requestLine S.P call, []) := by
    rw [toWorker]
    exact frontLine_of_line carries.requestOneLine []
  unfold World.serve
  rw [front]
  simp only [serveLine_requestLine sound.converts carries]
  cases replied S.P call <;> rfl

theorem serve_of_replied (sound : S.Sound) (asked : Asked S call) (toWorker : w.toWorker = requestLine S.P call)
    {result : Option RubyValue} (replies : replied S.P call = some result) :
    w.serve S =
      { w with toWorker := [], toClient := w.toClient ++ (S.P.rubyGenerate (replyTo result) ++ ['\n']) } := by
  rw [serve_of_asked sound asked toWorker, replies]

theorem writing_of_asked (sound : S.Sound) (asked : Asked S call) (toWorker : w.toWorker = requestLine S.P call) :
    w.writing S = match replied S.P call with
      | some result => S.P.rubyGenerate (replyTo result) ++ ['\n']
      | none => [] := by
  have carries := sound.carries call asked
  have front : frontLine w.toWorker = some (requestLine S.P call, []) := by
    rw [toWorker]
    exact frontLine_of_line carries.requestOneLine []
  unfold World.writing
  rw [front]
  simp only [serveLine_requestLine sound.converts carries]
  cases replied S.P call <;> rfl

theorem writing_of_empty (toWorker : w.toWorker = []) : w.writing S = [] := by
  rw [World.writing, toWorker]
  rfl

theorem good_serve (sound : S.Sound) (good : Good S w) (line : '\n' ∈ w.toWorker) : Good S (w.serve S) := by
  cases holds : w.holder with
  | none =>
      rw [(good.idle holds).1] at line
      cases line
  | some held =>
      rcases held with ⟨thread, call⟩
      rcases good.busy thread call holds with ⟨notDead, asked, fresh, sent, flight⟩
      cases flight with
      | replied result answers toWorker toClient =>
          rw [toWorker] at line
          cases line
      | exited ended toWorker toClient =>
          rw [toWorker] at line
          cases line
      | torn ended toWorker result answers toClient =>
          rw [toWorker] at line
          cases line
      | asked running toWorker toClient =>
          rw [serve_of_asked sound asked toWorker]
          cases answers : replied S.P call with
          | some result =>
              constructor
              · exact good.core.of_same rfl rfl rfl good.core.gone id
              · intro free
                rw [holds] at free
                cases free
              · intro thread' call' holds'
                rw [holds] at holds'
                cases holds'
                exact ⟨notDead, asked, fresh, sent, .replied result answers rfl (by simp [toClient])⟩
          | none =>
              constructor
              · exact good.core.of_same rfl rfl rfl (fun _ => Or.inl rfl) (fun _ => Or.inl rfl)
              · intro free
                rw [holds] at free
                cases free
              · intro thread' call' holds'
                rw [holds] at holds'
                cases holds'
                exact ⟨notDead, asked, fresh, sent, .exited rfl rfl toClient⟩

theorem good_die (sound : S.Sound) (good : Good S w) (alive : w.alive = true) (written : Nat) :
    Good S (w.die S written) := by
  constructor
  · exact good.core.of_same rfl rfl rfl (fun _ => Or.inl rfl) (fun _ => Or.inl rfl)
  · intro free
    have pipes := good.idle free
    refine ⟨rfl, ?_⟩
    rw [World.die, writing_of_empty pipes.1, pipes.2]
    simp
  · intro thread call holds
    rcases good.busy thread call holds with ⟨notDead, asked, fresh, sent, flight⟩
    refine ⟨notDead, asked, fresh, sent, ?_⟩
    cases flight with
    | replied result answers toWorker toClient =>
        refine .replied result answers rfl ?_
        rw [World.die, writing_of_empty toWorker, toClient]
        simp
    | exited ended toWorker toClient =>
        rw [ended] at alive
        cases alive
    | torn ended toWorker result answers toClient =>
        rw [ended] at alive
        cases alive
    | asked running toWorker toClient =>
        cases answers : replied S.P call with
        | some result =>
            refine .torn rfl rfl result answers ?_
            rw [World.die, writing_of_asked sound asked toWorker, answers, toClient, List.nil_append]
            exact List.take_prefix _ _
        | none =>
            refine .exited rfl rfl ?_
            rw [World.die, writing_of_asked sound asked toWorker, answers, toClient]
            simp

/-- What a read finds: the reply, or the end of the worker. -/
theorem line_of_flight (sound : S.Sound) (asked : Asked S call) (flight : Flight S w call)
    (ready : '\n' ∈ w.toClient ∨ w.alive = false) : w.toWorker = [] ∧ w.line.2 = [] ∧
      ((∃ result, replied S.P call = some result ∧ w.line.1 ≠ [] ∧
        S.P.serdeParse (Text.trim w.line.1) = readBack S.P result) ∨
      (w.alive = false ∧ (w.line.1 = [] ∨ S.P.serdeParse (Text.trim w.line.1) = none))) := by
  have carries := sound.carries call asked
  have whole {result : Option RubyValue} (answers : replied S.P call = some result)
      (toClient : w.toClient = S.P.rubyGenerate (replyTo result) ++ ['\n']) :
      w.line = (S.P.rubyGenerate (replyTo result) ++ ['\n'], []) := by
    rw [World.line, toClient, frontLine_of_line (carries.replyOneLine result answers)]
    rfl
  have ended {result : Option RubyValue} :
      S.P.serdeParse (Text.trim (S.P.rubyGenerate (replyTo result) ++ ['\n'])) = readBack S.P result := by
    rw [Text.trim_concat_of_blank (by decide), readBack]
  cases flight with
  | asked alive toWorker toClient =>
      rcases ready with line | ended
      · rw [toClient] at line
        cases line
      · rw [alive] at ended
        cases ended
  | replied result answers toWorker toClient =>
      rw [whole answers toClient]
      exact ⟨toWorker, rfl, Or.inl ⟨result, answers, by simp, ended⟩⟩
  | exited gone toWorker toClient =>
      have line : w.line = ([], []) := by
        rw [World.line, toClient]
        rfl
      rw [line]
      exact ⟨toWorker, rfl, Or.inr ⟨gone, Or.inl rfl⟩⟩
  | torn gone toWorker result answers toClient =>
      rcases List.prefix_concat_iff.mp toClient with full | front
      · rw [whole answers full]
        exact ⟨toWorker, rfl, Or.inl ⟨result, answers, by simp, ended⟩⟩
      · have noFeed : '\n' ∉ w.toClient := fun mem =>
          carries.replyOneLine result answers (front.subset mem)
        have line : w.line = (w.toClient, []) := by
          rw [World.line, frontLine_of_not_mem noFeed]
          rfl
        rw [line]
        refine ⟨toWorker, rfl, ?_⟩
        by_cases nothing : w.toClient = []
        · exact Or.inr ⟨gone, Or.inl nothing⟩
        · by_cases complete : w.toClient = S.P.rubyGenerate (replyTo result)
          · refine Or.inl ⟨result, answers, nothing, ?_⟩
            rw [complete, readBack]
          · exact Or.inr ⟨gone, Or.inr (carries.torn result answers _ front complete)⟩

/-! ## The threads -/

/-- A thread writes the line of a call that has no answer yet. -/
theorem good_asked (good : Good S w) (free : w.holder = none) (found : w.memo (key S.tables call) = none)
    (isAsked : Asked S call) (dead : w.dead = false) (alive : w.alive = true) :
    Good S { w with
      toWorker := w.toWorker ++ requestLine S.P call
      holder := some (thread, call)
      sent := w.sent ++ [call] } := by
  have core : Core S w none := by
    have core := good.core
    rwa [free] at core
  have pipes := good.idle free
  have grows (w' : World ι) (alive' : w'.alive = w.alive) (sent' : w'.sent = w.sent ++ [call]) :
      Lost S w → Lost S w' := by
    rintro (ended | ⟨call', mem, unread⟩)
    · exact Or.inl (alive'.trans ended)
    · exact Or.inr ⟨call', sent' ▸ List.mem_append_left _ mem, unread⟩
  constructor
  · constructor
    · exact fun gone => grows _ rfl rfl (core.gone gone)
    · intro k answer known
      rcases core.memo k answer known with ⟨call', asked', same, right⟩
      exact ⟨call', asked', same, right.imp_right fun late => ⟨late.1, grows _ rfl rfl late.2⟩⟩
    · exact core.history
    · rw [List.map_append, List.nodup_append]
      refine ⟨core.once, by simp, ?_⟩
      intro k mem k' single
      rcases List.mem_map.mp mem with ⟨call', sent, rfl⟩
      rw [List.map_singleton, List.mem_singleton] at single
      rw [single]
      intro same
      rcases core.sent call' sent with memoised | impossible
      · exact memoised (same ▸ found)
      · cases impossible
    · intro call' mem
      rcases List.mem_append.mp mem with before | last
      · exact Or.inl ((core.sent call' before).resolve_right (Option.some_ne_none _ ∘ Eq.symm))
      · rw [List.mem_singleton] at last
        rw [last]
        exact Or.inr rfl
  · intro holds
    cases holds
  · intro thread' call' holds
    cases holds
    refine ⟨dead, isAsked, found, List.mem_append_right _ List.mem_cons_self, .asked alive ?_ pipes.2⟩
    change w.toWorker ++ requestLine S.P call = _
    rw [pipes.1, List.nil_append]

variable [DecidableEq ι]

theorem Core.answered (core : Core S w (some call)) (asked : Asked S call)
    (known : w.memo (key S.tables call) = some answer) : Core S (w.answered thread call answer) none := by
  constructor
  · exact core.gone
  · exact core.memo
  · intro other call' answer' mem
    by_cases here : other = thread
    · subst here
      simp only [World.answered, Function.update_self, List.mem_append, List.mem_singleton, Prod.mk.injEq] at mem
      rcases mem with before | ⟨rfl, rfl⟩
      · exact core.history other call' answer' before
      · exact ⟨asked, known⟩
    · simp only [World.answered, Function.update_of_ne here] at mem
      exact core.history other call' answer' mem
  · exact core.once
  · intro call' mem
    rcases core.sent call' mem with memoised | waiting
    · exact Or.inl memoised
    · rw [← Option.some.inj waiting]
      exact Or.inl (by simp [World.answered, known])

/-- A right answer for a call that is not in the memo. -/
theorem Core.memoised (core : Core S w (some call)) (asked : Asked S call)
    (fresh : w.memo (key S.tables call) = none) (right : Right S w call answer) :
    Core S (w.memoised S thread call answer) none := by
  apply Core.answered _ asked (Function.update_self _ _ _)
  have other {k : Text} {known : Option Scalar} (found : w.memo k = some known) : k ≠ key S.tables call := by
    rintro rfl
    rw [fresh] at found
    cases found
  constructor
  · exact core.gone
  · intro k known found
    change Function.update w.memo (key S.tables call) (some answer) k = some known at found
    by_cases here : k = key S.tables call
    · subst here
      rw [Function.update_self, Option.some.injEq] at found
      exact ⟨call, asked, rfl, found ▸ right⟩
    · rw [Function.update_of_ne here] at found
      exact core.memo k known found
  · intro thread' call' answer' mem
    rcases core.history thread' call' answer' mem with ⟨asked', found⟩
    exact ⟨asked', (Function.update_of_ne (other found) _ _).trans found⟩
  · exact core.once
  · intro call' mem
    rcases core.sent call' mem with memoised | waiting
    · left
      rcases Option.ne_none_iff_exists'.mp memoised with ⟨known, found⟩
      change Function.update w.memo (key S.tables call) (some answer) (key S.tables call') ≠ none
      rw [Function.update_of_ne (other found), found]
      exact Option.some_ne_none _
    · exact Or.inr waiting

theorem good_enter (good : Good S w) (free : w.holder = none)
    (asked : S.next thread (w.history thread) = some call) : Good S (w.enter S thread call) := by
  have core : Core S w none := by
    have core := good.core
    rwa [free] at core
  have isAsked : Asked S call := ⟨thread, _, asked⟩
  unfold World.enter
  cases found : w.memo (key S.tables call) with
  | some cached => exact good_of_core ((core.waiting call).answered isAsked found) rfl (good.idle free)
  | none =>
      simp only
      by_cases dead : w.dead = true
      · rw [if_pos dead]
        exact good_of_core ((core.waiting call).memoised isAsked found (Or.inr ⟨rfl, core.gone dead⟩)) rfl
          (good.idle free)
      · rw [if_neg dead]
        rw [Bool.not_eq_true] at dead
        by_cases alive : w.alive = true
        · rw [if_neg (not_not.mpr alive)]
          exact good_asked good free found isAsked dead alive
        · rw [if_pos alive]
          rw [Bool.not_eq_true] at alive
          have given : Core S { w with dead := true } (some call) :=
            (core.waiting call).of_same rfl rfl rfl (fun _ => Or.inl alive) id
          exact good_of_core (given.memoised isAsked found (Or.inr ⟨rfl, Or.inl alive⟩)) rfl (good.idle free)

theorem good_read (sound : S.Sound) (good : Good S w) (holds : w.holder.isSome = true)
    (ready : '\n' ∈ w.toClient ∨ w.alive = false) : Good S (w.read S) := by
  rcases Option.isSome_iff_exists.mp holds with ⟨held, holds⟩
  rcases held with ⟨thread, call⟩
  rcases good.busy thread call holds with ⟨notDead, asked, fresh, sent, flight⟩
  have core : Core S w (some call) := by
    have core := good.core
    rwa [holds] at core
  rcases line_of_flight sound asked flight ready with
    ⟨toWorker, rest, ⟨result, answers, nonempty, read⟩ | ⟨ended, bad⟩⟩
  · cases back : readBack S.P result with
    | some reply =>
        have given : Core S { w with toClient := w.line.2 } (some call) := core.of_same rfl rfl rfl core.gone id
        have right : received S.P call = resultOf S.P reply := by
          rw [received, answers, Option.bind_some, back, Option.bind_some]
        have step : w.read S = { w with toClient := w.line.2 }.memoised S thread call (received S.P call) := by
          rw [World.read, holds, right]
          simp only [if_neg nonempty, read, back]
        rw [step]
        exact good_of_core (given.memoised asked fresh (Or.inl rfl)) rfl ⟨toWorker, rest⟩
    | none =>
        have lost : Lost S w := Or.inr ⟨call, sent, result, answers, back⟩
        have given : Core S { w with toClient := w.line.2, dead := true } (some call) :=
          core.of_same rfl rfl rfl (fun _ => lost) id
        have step : w.read S = { w with toClient := w.line.2, dead := true }.memoised S thread call none := by
          rw [World.read, holds]
          simp only [if_neg nonempty, read, back]
        rw [step]
        exact good_of_core (given.memoised asked fresh (Or.inr ⟨rfl, lost⟩)) rfl ⟨toWorker, rest⟩
  · have given : Core S { w with toClient := w.line.2, dead := true } (some call) :=
      core.of_same rfl rfl rfl (fun _ => Or.inl ended) id
    have step : w.read S = { w with toClient := w.line.2, dead := true }.memoised S thread call none := by
      rw [World.read, holds]
      by_cases nothing : w.line.1 = []
      · simp only [if_pos nothing]
      · simp only [if_neg nothing, bad.resolve_left nothing]
    rw [step]
    exact good_of_core (given.memoised asked fresh (Or.inr ⟨rfl, Or.inl ended⟩)) rfl ⟨toWorker, rest⟩

theorem good_of_reachable (sound : S.Sound) (reachable : (channel S).Reachable w) : Good S w := by
  apply reachable.invariant (Good S)
  · rintro _ rfl
    exact good_initial
  · intro state event enabled good
    cases event with
    | enter thread =>
        rcases enabled with ⟨free, call, asked⟩
        change Good S (state.apply S (.enter thread))
        rw [World.apply, asked]
        exact good_enter good free asked
    | serve => exact good_serve sound good enabled.2
    | die written => exact good_die sound good enabled written
    | read => exact good_read sound good enabled.1 enabled.2

end Rigor.Cli.Sidecar
