import Rigor.Cli.Sidecar.Invariant

/-!
# What the threads are answered

Whatever the order in which the threads ask, and wherever the worker ends, an answer is what the client reads in
the reply to the call, or none once the worker was lost.  One call has one answer, and its line is written at
most once.
-/

namespace Rigor.Cli.Sidecar

open Rigor.Library.Runs Rigor.Types

universe u

variable {ι : Type u} [DecidableEq ι] {S : Setup ι} {w : World ι} {thread : ι} {call : Call}

/-! ## The answers -/

/-- In every reachable state: an answer is what is read of the reply to the call, which is what Ruby computes
where the reply is read as it was printed, or it is none, once the worker has ended or has sent a reply that
cannot be read; a call has one answer, whichever threads asked for it; and no key was written for twice. -/
theorem answers_of_reachable (sound : S.Sound) (reachable : (channel S).Reachable w) :
    (∀ thread call answer, (call, answer) ∈ w.history thread →
      (answer = received S.P call ∨ answer = none ∧ Lost S w) ∧
      (ReadsExactly S.P call → answer = evaluate S.P call ∨ answer = none ∧ Lost S w)) ∧
    (∀ thread other call answer answer', (call, answer) ∈ w.history thread →
      (call, answer') ∈ w.history other → answer = answer') ∧
    (w.sent.map (key S.tables)).Nodup := by
  have good := good_of_reachable sound reachable
  refine ⟨?_, ?_, good.core.once⟩
  · intro thread call answer mem
    rcases good.core.history thread call answer mem with ⟨asked, known⟩
    rcases good.core.memo _ _ known with ⟨call', asked', same, right⟩
    have own : Right S w call answer := by
      rw [Right, received_eq_of_key_eq sound asked asked' same.symm]
      exact right
    refine ⟨own, fun exact_ => ?_⟩
    rw [← received_eq_evaluate exact_]
    exact own
  · intro thread other call answer answer' mem mem'
    have known := (good.core.history thread call answer mem).2
    rw [(good.core.history other call answer' mem').2] at known
    exact (Option.some.inj known).symm

/-- While a thread asks for a fold, a step is enabled that is not the end of the worker: no thread waits for
a line that cannot come. -/
theorem progress_of_reachable (sound : S.Sound) (reachable : (channel S).Reachable w)
    (asking : ∃ thread call, S.next thread (w.history thread) = some call) :
    ∃ event : Event ι, event.Enabled S w ∧ ∀ written, event ≠ .die written := by
  have good := good_of_reachable sound reachable
  rcases asking with ⟨thread, call, asks⟩
  cases holds : w.holder with
  | none => exact ⟨.enter thread, ⟨holds, call, asks⟩, fun _ => by simp⟩
  | some held =>
      have waits : w.holder.isSome = true := by rw [holds]; rfl
      rcases (good.busy held.1 held.2 holds).2.2.2.2 with
        ⟨alive, toWorker, -⟩ | ⟨result, -, -, toClient⟩ | ⟨ended, -, -⟩ | ⟨ended, -, -, -, -⟩
      · exact ⟨.serve, ⟨alive, by rw [toWorker, requestLine]; simp⟩, fun _ => by simp⟩
      · exact ⟨.read, ⟨waits, Or.inl (by rw [toClient]; simp)⟩, fun _ => by simp⟩
      · exact ⟨.read, ⟨waits, Or.inr ended⟩, fun _ => by simp⟩
      · exact ⟨.read, ⟨waits, Or.inr ended⟩, fun _ => by simp⟩

/-- Beside a worker that is given up: the lock is free, the worker has no line, nothing more was written, and the
memo has grown by calls without a result only. -/
structure GivenUp (start w : World ι) : Prop where
  dead : w.dead = true
  free : w.holder = none
  silent : w.toWorker = []
  sent : w.sent = start.sent
  memo : ∀ k, w.memo k = start.memo k ∨ start.memo k = none ∧ w.memo k = some none

theorem GivenUp.enter {start : World ι} (up : GivenUp start w) : GivenUp start (w.enter S thread call) := by
  unfold World.enter
  cases found : w.memo (key S.tables call) with
  | some cached => exact ⟨up.dead, rfl, up.silent, up.sent, up.memo⟩
  | none =>
      simp only [if_pos up.dead]
      refine ⟨up.dead, rfl, up.silent, up.sent, fun k => ?_⟩
      change Function.update w.memo (key S.tables call) (some none) k = _ ∨ _ ∧
        Function.update w.memo (key S.tables call) (some none) k = _
      by_cases here : k = key S.tables call
      · subst here
        rw [Function.update_self]
        rcases up.memo (key S.tables call) with same | ⟨unknown, -⟩
        · exact Or.inr ⟨same.symm.trans found, rfl⟩
        · exact Or.inr ⟨unknown, rfl⟩
      · rw [Function.update_of_ne here]
        exact up.memo k

/-- Once the worker is given up, alive or not, no run writes to it again, and every answer that is not in the memo
by then is none. -/
theorem silent_of_dead (sound : S.Sound) (reachable : (channel S).Reachable w) (dead : w.dead = true)
    {w' : World ι} {events : List (Event ι)} (run : (channel S).Run w events w') :
    w'.sent = w.sent ∧ ∀ thread call answer, (call, answer) ∈ w'.history thread →
      w.memo (key S.tables call) = some answer ∨ w.memo (key S.tables call) = none ∧ answer = none := by
  have good := good_of_reachable sound reachable
  have free : w.holder = none := by
    cases holds : w.holder with
    | none => rfl
    | some held =>
        rw [(good.busy held.1 held.2 holds).1] at dead
        cases dead
  have start : GivenUp w w := ⟨dead, free, (good.idle free).1, rfl, fun _ => Or.inl rfl⟩
  have up : GivenUp w w' := by
    refine run.invariant (GivenUp w) (fun _ => True) ?_ (fun _ _ => trivial) start
    intro state event _ enabled up
    cases event with
    | enter thread =>
        rcases enabled with ⟨-, call, asked⟩
        change GivenUp w (state.apply S (.enter thread))
        rw [World.apply, asked]
        exact up.enter
    | serve =>
        have line : '\n' ∈ state.toWorker := enabled.2
        rw [up.silent] at line
        cases line
    | die written => exact ⟨up.dead, up.free, rfl, up.sent, up.memo⟩
    | read =>
        have waits : state.holder.isSome = true := enabled.1
        rw [up.free] at waits
        cases waits
  refine ⟨up.sent, fun thread call answer mem => ?_⟩
  rcases reachable with ⟨first, before, initial, front⟩
  have after := good_of_reachable sound ⟨first, before ++ events, initial, front.append run⟩
  have known := (after.core.history thread call answer mem).2
  rcases up.memo (key S.tables call) with same | ⟨unknown, none_⟩
  · exact Or.inl (same ▸ known)
  · rw [none_] at known
    exact Or.inr ⟨unknown, (Option.some.inj known).symm⟩

/-! ## A run -/

/-- `255.to_s(16)`. -/
def sampleCall : Call :=
  ⟨.int 255, "to_s".toList, [.int 16]⟩

def sampleRequest : Text :=
  "\x7b\"args\":[\x7b\"t\":\"int\",\"v\":16\x7d],\"method\":\"to_s\",\"op\":\"fold\",".toList ++
    "\"recv\":\x7b\"t\":\"int\",\"v\":255\x7d\x7d".toList

def sampleReply : Text :=
  "\x7b\"ok\":true,\"result\":\x7b\"t\":\"str\",\"v\":\"ff\"\x7d\x7d".toList

/-- Ruby and JSON on the one call. -/
def samplePlatform : Platform where
  integer v := match v with
    | .int n => some n
    | _ => none
  float v := match v with
    | .float bits => some bits
    | _ => none
  toS v := match v with
    | .str s => s
    | _ => []
  send _ _ _ := .returned (.str "ff".toList)
  version := "3.3.0".toList
  rubyParse line := if line = sampleRequest then some (request sampleCall) else none
  rubyGenerate _ := sampleReply
  serdeParse line :=
    if line = sampleReply then
      some (.obj [("ok".toList, .bool true), ("result".toList, tagged "str" (.str "ff".toList))])
    else none
  serdePrint _ := sampleRequest
  toF64 _ := 0

/-- Two threads that ask for the call once. -/
def sampleSetup : Setup Bool where
  P := samplePlatform
  tables := ⟨fun c => 32 ≤ c.toNat, fun bits => Nat.toDigits 10 bits.toNat⟩
  next _ history := if history = [] then some sampleCall else none

theorem eq_sampleCall_of_asked (asked : Asked sampleSetup call) : call = sampleCall := by
  rcases asked with ⟨thread, history, next⟩
  change (if history = [] then some sampleCall else none) = some call at next
  split_ifs at next
  exact (Option.some.inj next).symm

theorem carries_sampleCall : Carries samplePlatform sampleCall := by
  have torn (front : Text) (short : front <+: sampleReply) (differs : front ≠ sampleReply) :
      Text.trim front ≠ sampleReply := by
    intro same
    have less := lt_of_le_of_ne short.length_le fun equal => differs (short.eq_of_length equal)
    have trimmed : (Text.trim front).length ≤ front.length :=
      (List.rdropWhile_prefix _ _).length_le.trans (List.dropWhile_sublist _).length_le
    rw [same] at trimmed
    exact absurd less (Nat.not_lt.mpr trimmed)
  constructor
  · decide
  · decide
  · have read : strip (requestLine samplePlatform sampleCall) = sampleRequest := by decide
    rw [read]
    rfl
  · intro result _
    change '\n' ∉ sampleReply
    decide
  · intro result _ front short differs
    exact if_neg (torn front short differs)

theorem sound_sampleSetup : sampleSetup.Sound := by
  constructor
  · exact ⟨fun _ => rfl, fun _ => rfl, rfl, fun _ => rfl⟩
  · constructor
    · decide
    · intro bits
      exact ⟨not_mem_toDigits (by decide) (by decide), not_mem_toDigits (by decide) (by decide)⟩
    · intro bits bits' same
      exact Or.inl (UInt64.toNat_inj.mp (toDigits_ten_injective same))
  · intro call asked
    rw [eq_sampleCall_of_asked asked]
    decide
  · intro call asked
    rw [eq_sampleCall_of_asked asked]
    exact carries_sampleCall

/-- The first thread asks, the worker serves, the thread reads; the second one finds the answer. -/
def sampleRun : List (Event Bool) :=
  [.enter false, .serve, .read, .enter true]

def sampleWorld : World Bool :=
  sampleRun.foldl (fun w event => w.apply sampleSetup event) initialWorld

theorem reachable_sampleWorld : (channel sampleSetup).Reachable sampleWorld := by
  refine ⟨initialWorld, sampleRun, rfl, .cons ⟨rfl, sampleCall, rfl⟩ (.cons ⟨rfl, ?_⟩ (.cons ⟨rfl, Or.inl ?_⟩
    (.cons ⟨rfl, sampleCall, rfl⟩ (.nil _))))⟩
  · decide
  · decide

theorem answers_of_reachable_sample :
    (sampleWorld.history true = [(sampleCall, some (.str "ff".toList))] ∧ sampleWorld.sent = [sampleCall]) ∧
      (∀ thread call answer, (call, answer) ∈ sampleWorld.history thread →
        (answer = received samplePlatform call ∨ answer = none ∧ Lost sampleSetup sampleWorld) ∧
        (ReadsExactly samplePlatform call →
          answer = evaluate samplePlatform call ∨ answer = none ∧ Lost sampleSetup sampleWorld)) ∧
      (∀ thread other call answer answer', (call, answer) ∈ sampleWorld.history thread →
        (call, answer') ∈ sampleWorld.history other → answer = answer') ∧
      (sampleWorld.sent.map (key sampleSetup.tables)).Nodup :=
  ⟨⟨rfl, rfl⟩, answers_of_reachable sound_sampleSetup reachable_sampleWorld⟩

/-- A thread waits for the worker. -/
def askedWorld : World Bool :=
  initialWorld.apply sampleSetup (.enter false)

theorem reachable_askedWorld : (channel sampleSetup).Reachable askedWorld :=
  ⟨initialWorld, [.enter false], rfl, .cons ⟨rfl, sampleCall, rfl⟩ (.nil _)⟩

theorem progress_of_reachable_sample :
    askedWorld.holder = some (false, sampleCall) ∧
      ∃ event : Event Bool, event.Enabled sampleSetup askedWorld ∧ ∀ written, event ≠ .die written :=
  ⟨rfl, progress_of_reachable sound_sampleSetup reachable_askedWorld ⟨true, sampleCall, rfl⟩⟩

/-- The same call beside a client that cannot read the reply. -/
def garbledSetup : Setup Bool :=
  { sampleSetup with P := { samplePlatform with serdeParse := fun _ => none } }

theorem sound_garbledSetup : garbledSetup.Sound :=
  ⟨⟨sound_sampleSetup.converts.integer, sound_sampleSetup.converts.float, rfl, fun _ => rfl⟩,
    sound_sampleSetup.standard, sound_sampleSetup.foldable, fun call asked =>
      have carries := sound_sampleSetup.carries call asked
      ⟨carries.requestOneLine, carries.requestNonempty, carries.requestRead, carries.replyOneLine,
        fun _ _ _ _ _ => rfl⟩⟩

/-- The worker lives, and its reply is not read. -/
def garbledRun : List (Event Bool) :=
  [.enter false, .serve, .read]

def garbledWorld : World Bool :=
  garbledRun.foldl (fun w event => w.apply garbledSetup event) initialWorld

theorem reachable_garbledWorld : (channel garbledSetup).Reachable garbledWorld := by
  refine ⟨initialWorld, garbledRun, rfl, .cons ⟨rfl, sampleCall, rfl⟩ (.cons ⟨rfl, ?_⟩ (.cons ⟨rfl, Or.inl ?_⟩
    (.nil _)))⟩
  · decide
  · decide

theorem silent_of_dead_sample :
    (garbledWorld.alive = true ∧ garbledWorld.sent = [sampleCall]) ∧
      (garbledWorld.apply garbledSetup (.enter true)).sent = garbledWorld.sent ∧
      ∀ thread call answer, (call, answer) ∈ (garbledWorld.apply garbledSetup (.enter true)).history thread →
        garbledWorld.memo (key garbledSetup.tables call) = some answer ∨
          garbledWorld.memo (key garbledSetup.tables call) = none ∧ answer = none := by
  have enabled : (channel garbledSetup).Enabled (.enter true) garbledWorld := ⟨rfl, sampleCall, rfl⟩
  exact ⟨⟨rfl, rfl⟩, silent_of_dead sound_garbledSetup reachable_garbledWorld rfl (.cons enabled (.nil _))⟩

end Rigor.Cli.Sidecar
