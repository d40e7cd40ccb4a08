import Rigor.Library.Grouping
import Rigor.Text

/-!
# Baseline buckets, generation, matching and audit

The in-memory half of `baseline.rs`: how a baseline is generated from a run's
diagnostics, which bucket claims a diagnostic, how the filter bins a stream and
how the audit counts it.  The `regex` crate is not part of the repository; it
enters as `RegexEngine`, the two calls that the module makes.
-/

namespace Rigor.Cli

open Rigor.Library.Grouping

/-- The `regex` crate as the baseline uses it. -/
structure RegexEngine where
  Regex : Type
  /-- `Regex::new`: the compiled pattern, or the text of the compile error. -/
  new : Text → Except Text Regex
  /-- `Regex::is_match`: unanchored search. -/
  isMatch : Regex → Text → Bool

/-- The fields of a diagnostic that the baseline reads. -/
structure Diagnostic where
  ruleId : Text
  message : Text
deriving DecidableEq, Repr

/-- The `NO_RULE` sentinel of a ruleless diagnostic (a parse error). -/
def noRule : Text := []

def Diagnostic.qualifiedRule (diag : Diagnostic) : Option Text :=
  if diag.ruleId ≠ noRule then some diag.ruleId else none

/-- A diagnostic paired with its project-root-relative path. -/
abbrev Entry := Text × Diagnostic

/-- How `baseline generate` keys rows. -/
inductive MatchMode where
  | rule
  | message
deriving DecidableEq, Repr

/-- The `(file, rule, message-source)` tuple of a bucket. -/
structure Key where
  file : Text
  rule : Text
  message : Option Text
deriving DecidableEq, Repr

/-- One `ignored:` row.  `messageRegex` is always the compiled form of
`message`: both constructors of the source compile it on the spot. -/
structure Bucket (E : RegexEngine) where
  file : Text
  rule : Text
  message : Option Text
  messageRegex : Option E.Regex
  count : Nat
  compiled : messageRegex = message.bind fun source => (E.new source).toOption

namespace Bucket

variable {E : RegexEngine}

def ruleRow (file rule : Text) (count : Nat) : Bucket E where
  file := file
  rule := rule
  message := none
  messageRegex := none
  count := count
  compiled := rfl

def messageRow (file rule message : Text) (count : Nat) : Bucket E where
  file := file
  rule := rule
  message := some message
  messageRegex := (E.new message).toOption
  count := count
  compiled := rfl

def key (bucket : Bucket E) : Key :=
  ⟨bucket.file, bucket.rule, bucket.message⟩

/-- `bucket_eq`: full-tuple equality `(file, rule, message-source, count)`. -/
def bucketEq (a b : Bucket E) : Bool :=
  a.file = b.file ∧ a.rule = b.rule ∧ a.message = b.message ∧ a.count = b.count

/-- The compiled pattern is a function of the source, so the full tuple
determines the bucket. -/
theorem bucketEq_iff {a b : Bucket E} : a.bucketEq b = true ↔ a = b := by
  rcases a with ⟨afile, arule, amessage, aregex, acount, acompiled⟩
  rcases b with ⟨bfile, brule, bmessage, bregex, bcount, bcompiled⟩
  simp only [bucketEq, decide_eq_true_eq, mk.injEq]
  constructor
  · rintro ⟨rfl, rfl, rfl, rfl⟩
    exact ⟨rfl, rfl, rfl, acompiled.trans bcompiled.symm, rfl⟩
  · rintro ⟨rfl, rfl, rfl, -, rfl⟩
    exact ⟨rfl, rfl, rfl, rfl⟩

theorem messageRegex_eq_of_key_eq {a b : Bucket E} (same : a.key = b.key) :
    a.messageRegex = b.messageRegex := by
  have message_eq : a.message = b.message := congrArg Key.message same
  rw [a.compiled, b.compiled, message_eq]

end Bucket

/-- A parsed baseline: the buckets in file order. -/
structure Baseline (E : RegexEngine) where
  buckets : List (Bucket E)

/-! ## `Regexp.escape` -/

/-- The characters that `regexp_escape` prefixes with a backslash. -/
def metaCharacters : List Char :=
  " #$()*+-.?[\\]^{|}".toList

/-- The escape of one character. -/
def escapeChar (c : Char) : Text :=
  if c = '\t' then ['\\', 't']
  else if c = '\n' then ['\\', 'n']
  else if c = '\x0b' then ['\\', 'v']
  else if c = '\x0c' then ['\\', 'f']
  else if c = '\r' then ['\\', 'r']
  else if c ∈ metaCharacters then ['\\', c]
  else [c]

/-- Ruby's `Regexp.escape`. -/
def regexpEscape (s : Text) : Text :=
  s.flatMap escapeChar

namespace Baseline

variable {E : RegexEngine}

/-! ## Generation -/

/-- The row key of an entry; a ruleless diagnostic is not baselinable. -/
def entryKey (mode : MatchMode) (entry : Entry) : Option Key :=
  match entry.2.qualifiedRule with
  | none => none
  | some rule =>
      some
        { file := entry.1
          rule := rule
          message :=
            match mode with
            | .rule => none
            | .message => some (regexpEscape entry.2.message) }

/-- The two accumulators of `from_diagnostics`. -/
structure Census where
  order : List Key
  counts : List (Key × Nat)

/-- One keyed entry of the grouping loop. -/
def Census.record (census : Census) (key : Key) : Census where
  order := if (census.counts.lookup key).isNone then census.order ++ [key] else census.order
  counts := bump key census.counts

def Census.step (mode : MatchMode) (census : Census) (entry : Entry) : Census :=
  match entryKey mode entry with
  | none => census
  | some key => census.record key

/-- The bucket of one census key. -/
def bucketOfKey (key : Key) (count : Nat) : Bucket E :=
  match key.message with
  | none => .ruleRow key.file key.rule count
  | some message => .messageRow key.file key.rule message count

def fromDiagnostics (entries : List Entry) (mode : MatchMode) : Baseline E :=
  let census := entries.foldl (Census.step mode) { order := [], counts := [] }
  ⟨census.order.map fun key => bucketOfKey key ((census.counts.lookup key).getD 0)⟩

/-! ## Claiming -/

/-- The loop of `claim_bucket`: message rows are tried in file order, the first
rule row is the fallback. -/
def claimBucketLoop (rel rule message : Text) :
    List (Bucket E) → Nat → Option Nat → Option Nat
  | [], _, ruleFallback => ruleFallback
  | b :: rest, i, ruleFallback =>
      if b.file ≠ rel ∨ b.rule ≠ rule then
        claimBucketLoop rel rule message rest (i + 1) ruleFallback
      else
        match b.message, b.messageRegex with
        | some _, some re =>
            if E.isMatch re message then some i
            else claimBucketLoop rel rule message rest (i + 1) ruleFallback
        | some _, none => claimBucketLoop rel rule message rest (i + 1) ruleFallback
        | none, _ =>
            claimBucketLoop rel rule message rest (i + 1)
              (if ruleFallback.isNone then some i else ruleFallback)

/-- The index of the bucket that claims a diagnostic. -/
def claimBucket (baseline : Baseline E) (rel : Text) (diag : Diagnostic) : Option Nat :=
  match diag.qualifiedRule with
  | none => none
  | some rule => claimBucketLoop rel rule diag.message baseline.buckets 0 none

/-! ## Filtering -/

/-- A bin's identity: the claiming bucket's key, or `(file, rule)` for a
diagnostic that no bucket claims. -/
inductive BinKey where
  | claimed (key : Key)
  | noBucket (file rule : Text)
deriving DecidableEq, Repr

structure Bin where
  bucket : Option Nat
  diagnostics : List Nat
deriving DecidableEq, Repr

/-- The accumulators of the binning loop. -/
structure Binning where
  bins : List Bin
  slotOf : List (BinKey × Nat)
  unkeyable : List Nat

/-- The key and the claiming bucket of an entry, `none` for a ruleless one. -/
def binKey (baseline : Baseline E) (entry : Entry) : Option (BinKey × Option Nat) :=
  match entry.2.qualifiedRule with
  | none => none
  | some rule =>
      match baseline.claimBucket entry.1 entry.2 with
      | some bi =>
          match baseline.buckets[bi]? with
          | some b => some (.claimed b.key, some bi)
          | none => none
      | none => some (.noBucket entry.1 rule, none)

/-- Push entry `i` onto the bin of `key`, opening it first if it is new. -/
def Binning.push (binning : Binning) (i : Nat) (key : BinKey) (bucket : Option Nat) : Binning :=
  let (opened, pos) :=
    match binning.slotOf.lookup key with
    | some p => (binning, p)
    | none =>
        ({ binning with
            bins := binning.bins ++ [Bin.mk bucket []]
            slotOf := (key, binning.bins.length) :: binning.slotOf },
          binning.bins.length)
  { opened with
    bins := opened.bins.modify pos fun bin => { bin with diagnostics := bin.diagnostics ++ [i] } }

def binningStep (baseline : Baseline E) (binning : Binning) (item : Entry × Nat) : Binning :=
  match baseline.binKey item.1 with
  | none => { binning with unkeyable := binning.unkeyable ++ [item.2] }
  | some (key, bucket) => binning.push item.2 key bucket

def binning (baseline : Baseline E) (entries : List Entry) : Binning :=
  entries.zipIdx.foldl baseline.binningStep { bins := [], slotOf := [], unkeyable := [] }

/-- Whether a bin stays within its bucket's recorded threshold. -/
def withinThreshold (baseline : Baseline E) (bin : Bin) : Bool :=
  match bin.bucket with
  | some bi =>
      match baseline.buckets[bi]? with
      | some b => bin.diagnostics.length ≤ b.count
      | none => false
  | none => false

/-- The settling loop over the bins: surfaced indices and the silenced count. -/
def settle (baseline : Baseline E) (state : List Nat × Nat) (bin : Bin) : List Nat × Nat :=
  if baseline.withinThreshold bin then (state.1, state.2 + bin.diagnostics.length)
  else (state.1 ++ bin.diagnostics, state.2)

/-- Apply the baseline: the surfaced indices and how many were silenced. -/
def filter (baseline : Baseline E) (entries : List Entry) : List Nat × Nat :=
  if baseline.buckets.isEmpty then (List.range entries.length, 0)
  else
    let binning := baseline.binning entries
    let (surfaced, silenced) := binning.bins.foldl baseline.settle ([], 0)
    (surfaced ++ binning.unkeyable, silenced)

/-! ## Audit -/

inductive DriftStatus where
  | over
  | cleared
  | reducible
  | within
deriving DecidableEq, Repr

def statusFor (actual count : Nat) : DriftStatus :=
  if actual = 0 then .cleared
  else if actual > count then .over
  else if actual = count then .within
  else .reducible

/-- One audited bucket. -/
structure DriftRow (E : RegexEngine) where
  bucket : Bucket E
  actual : Nat
  status : DriftStatus
  delta : Int

/-- The key of the bucket that claims an entry. -/
def claimedKey (baseline : Baseline E) (entry : Entry) : Option Key :=
  match baseline.claimBucket entry.1 entry.2 with
  | some bi => (baseline.buckets[bi]?).map Bucket.key
  | none => none

def auditStep (baseline : Baseline E) (counts : List (Key × Nat)) (entry : Entry) :
    List (Key × Nat) :=
  match baseline.claimedKey entry with
  | some key => bump key counts
  | none => counts

def audit (baseline : Baseline E) (entries : List Entry) : List (DriftRow E) :=
  let counts := entries.foldl baseline.auditStep []
  baseline.buckets.map fun b =>
    let actual := (counts.lookup b.key).getD 0
    { bucket := b
      actual := actual
      status := statusFor actual b.count
      delta := (actual : Int) - (b.count : Int) }

/-- Drop the given buckets, compared by full tuple. -/
def without (baseline : Baseline E) (remove : List (Bucket E)) : Baseline E :=
  ⟨baseline.buckets.filter fun b => !remove.any fun r => b.bucketEq r⟩

end Baseline

end Rigor.Cli
