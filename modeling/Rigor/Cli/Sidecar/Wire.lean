import Mathlib.Data.List.Infix
import Rigor.Rust.Arithmetic
import Rigor.Rust.FloatText
import Rigor.Rust.Lines
import Rigor.Types.Ty

/-!
# The two ends of the sidecar

The client in `sidecar.rs` and the worker in `sidecar.rb`.  A fold goes out as a line of JSON with tagged
scalars; the worker makes the call and sends back a line with the tagged result, or a decline.
-/

namespace Rigor.Cli.Sidecar

open Rigor.Rust Rigor.Types

/-! ## JSON -/

inductive Json where
  | null
  | bool (value : Bool)
  | int (value : Int)
  | float (bits : UInt64)
  | str (value : Text)
  | arr (items : List Json)
  | obj (fields : List (Text × Json))

namespace Json

/-- `Value::get` at a key. -/
def get (json : Json) (key : Text) : Option Json :=
  match json with
  | obj fields => fields.lookup key
  | _ => none

def asBool : Json → Option Bool
  | bool value => some value
  | _ => none

def asStr : Json → Option Text
  | str value => some value
  | _ => none

def asI64 : Json → Option Int64
  | int value => narrow value
  | _ => none

/-- `as_u64`. -/
def asU64 : Json → Option Nat
  | int value => if 0 ≤ value ∧ value < 2 ^ 64 then some value.toNat else none
  | _ => none

end Json

/-! ## The interpreter -/

/-- The values that the worker sends, and any other one. -/
inductive RubyValue where
  | int (value : Int)
  | float (bits : UInt64)
  | str (value : Text)
  | sym (name : Text)
  | bool (value : Bool)
  | nil
  | other

/-- A call returns, raises a `StandardError`, or ends the process. -/
inductive Sent where
  | returned (value : RubyValue)
  | raised
  | exited

/-- What the two ends take from their surroundings: `Kernel#Integer`, `Kernel#Float`, `#to_s` and
`#public_send` of Ruby, the printers and the readers of JSON, and the nearest float of an integer. -/
structure Platform where
  integer : Json → Option Int
  float : Json → Option UInt64
  toS : Json → Text
  send : RubyValue → Text → List RubyValue → Sent
  version : Text
  rubyParse : Text → Option Json
  rubyGenerate : Json → Text
  serdeParse : Text → Option Json
  serdePrint : Json → Text
  toF64 : Int → UInt64

/-! ## The worker -/

section Worker

variable (P : Platform)

/-- `h[key]`; an object without the key answers `nil`, a string its part, any other value raises. -/
def fetch (h : Json) (key : Text) : Option Json :=
  match h with
  | .obj fields => some ((fields.lookup key).getD .null)
  | .str s => some (if key <:+: s then .str key else .null)
  | _ => none

def truthy : Json → Bool
  | .null => false
  | .bool value => value
  | _ => true

/-- `decode_scalar`; `none` stands for an error. -/
def decodeScalar (h : Json) : Option RubyValue :=
  match fetch h "t".toList with
  | some (.str t) =>
      if t = "int".toList then (fetch h "v".toList).bind fun v => (P.integer v).map .int
      else if t = "float".toList then (fetch h "v".toList).bind fun v => (P.float v).map .float
      else if t = "str".toList then (fetch h "v".toList).map fun v => .str (P.toS v)
      else if t = "sym".toList then (fetch h "v".toList).map fun v => .sym (P.toS v)
      else if t = "bool".toList then (fetch h "v".toList).map fun v => .bool (truthy v)
      else if t = "nil".toList then some .nil
      else none
  | _ => none

/-- A tag and a payload. -/
def tagged (t : String) (v : Json) : Json :=
  .obj [("t".toList, .str t.toList), ("v".toList, v)]

/-- `encode_scalar`. -/
def encodeScalar : RubyValue → Option Json
  | .int v => some (tagged "int" (.int v))
  | .float v => if F64.isFinite v then some (tagged "float" (.float v)) else none
  | .str v => some (tagged "str" (.str v))
  | .sym v => some (tagged "sym" (.str v))
  | .bool v => some (tagged "bool" (.bool v))
  | .nil => some (.obj [("t".toList, .str "nil".toList)])
  | .other => none

def declined : Json :=
  .obj [("ok".toList, .bool false)]

/-- `Array(v)`. -/
def arrayOf : Json → List Json
  | .arr items => items
  | .null => []
  | v => [v]

/-- `fold_call`; `none` where the process ends. -/
def foldCall (recvH method argHs : Json) : Option Json :=
  match decodeScalar P recvH, (arrayOf argHs).mapM (decodeScalar P) with
  | some recv, some args =>
      match P.send recv (P.toS method) args with
      | .returned result =>
          match encodeScalar result with
          | some enc => some (.obj [("ok".toList, .bool true), ("result".toList, enc)])
          | none => some declined
      | .raised => some declined
      | .exited => none
  | _, _ => some declined

/-- `String#strip`. -/
def strip (line : Text) : Text :=
  let blank := fun c => c = '\x00' ∨ c = ' ' ∨ ('\t' ≤ c ∧ c ≤ '\r')
  (line.dropWhile blank).rdropWhile blank

/-- What the loop makes of a line. -/
inductive Served where
  | reply (json : Json)
  | silent
  | exited

/-- The body of the loop of `sidecar.rb`. -/
def serveLine (line : Text) : Served :=
  if strip line = [] then .silent
  else
    match P.rubyParse (strip line) with
    | none => .reply (.obj [("error".toList, .str "bad_json".toList)])
    | some req =>
        match fetch req "op".toList with
        | none => .exited
        | some op =>
            match op.asStr with
            | some name =>
                if name = "ping".toList then .reply (.obj [("ok".toList, .bool true)])
                else if name = "fold".toList then
                  match fetch req "recv".toList, fetch req "method".toList, fetch req "args".toList with
                  | some recv, some method, some args =>
                      match foldCall P recv method args with
                      | some json => .reply json
                      | none => .exited
                  | _, _, _ => .exited
                else if name = "shutdown".toList then .exited
                else .reply (.obj [("error".toList, .str "unknown_op".toList), ("op".toList, op)])
            | none => .reply (.obj [("error".toList, .str "unknown_op".toList), ("op".toList, op)])

/-- The handshake line. -/
def banner : Text :=
  P.rubyGenerate (.obj [("rigor_sidecar".toList, .int 1), ("ruby_version".toList, .str P.version)]) ++ ['\n']

end Worker

/-! ## The client -/

/-- A fold that the dispatcher asks for. -/
structure Call where
  recv : Scalar
  method : Text
  args : List Scalar
  deriving DecidableEq

section Client

variable (P : Platform)

/-- `scalar_to_json`; a float that is not finite has no JSON. -/
def scalarToJson : Scalar → Json
  | .int i => tagged "int" (.int i.toInt)
  | .bigInt d => tagged "int" (.str d)
  | .float f => tagged "float" (if F64.isFinite f then .float f else .null)
  | .str s => tagged "str" (.str s)
  | .sym s => tagged "sym" (.str s)
  | .bool b => tagged "bool" (.bool b)
  | .nil => .obj [("t".toList, .str "nil".toList)]

/-- `as_f64`. -/
def asF64 : Json → Option UInt64
  | .int value => some (P.toF64 value)
  | .float bits => some bits
  | _ => none

/-- `json_to_scalar`. -/
def jsonToScalar (v : Json) : Option Scalar :=
  match (v.get "t".toList).bind Json.asStr with
  | some t =>
      if t = "int".toList then ((v.get "v".toList).bind Json.asI64).map .int
      else if t = "float".toList then ((v.get "v".toList).bind (asF64 P)).map .float
      else if t = "str".toList then ((v.get "v".toList).bind Json.asStr).map .str
      else if t = "sym".toList then ((v.get "v".toList).bind Json.asStr).map .sym
      else if t = "bool".toList then ((v.get "v".toList).bind Json.asBool).map .bool
      else if t = "nil".toList then some .nil
      else none
  | none => none

/-- The request of a fold. -/
def request (call : Call) : Json :=
  .obj [("op".toList, .str "fold".toList), ("recv".toList, scalarToJson call.recv),
    ("method".toList, .str call.method), ("args".toList, .arr (call.args.map scalarToJson))]

/-- The line that a fold writes. -/
def requestLine (call : Call) : Text :=
  P.serdePrint (request call) ++ ['\n']

/-- What `fold` makes of a reply. -/
def resultOf (reply : Json) : Option Scalar :=
  if (reply.get "ok".toList).bind Json.asBool = some true then (reply.get "result".toList).bind (jsonToScalar P)
  else none

/-- `read_handshake` on the first line; the version of the worker, or no usable handshake. -/
def readHandshake (line : Text) : Option Text :=
  if line = [] then none
  else
    match P.serdeParse line.trim with
    | none => none
    | some parsed =>
        if (parsed.get "rigor_sidecar".toList).bind Json.asU64 ≠ some 1 then none
        else some (((parsed.get "ruby_version".toList).bind Json.asStr).getD "unknown".toList)

end Client

/-! ## What a fold computes -/

section Meaning

variable (P : Platform)

/-- The conversions of Ruby on what the client sends. -/
structure Platform.Converts : Prop where
  integer : ∀ n, P.integer (.int n) = some n
  float : ∀ bits, P.float (.float bits) = some bits
  float_nil : P.float .null = none
  toS : ∀ s, P.toS (.str s) = s

/-- The Ruby value of a scalar; a big integer is read from its digits. -/
def valueOf : Scalar → Option RubyValue
  | .int i => some (.int i.toInt)
  | .bigInt d => (P.integer (.str d)).map .int
  | .float f => if F64.isFinite f then some (.float f) else none
  | .str s => some (.str s)
  | .sym s => some (.sym s)
  | .bool b => some (.bool b)
  | .nil => some .nil

/-- The scalar of a Ruby value, if it has one. -/
def RubyValue.scalar? : RubyValue → Option Scalar
  | .int n => (narrow n).map .int
  | .float f => if F64.isFinite f then some (.float f) else none
  | .str s => some (.str s)
  | .sym s => some (.sym s)
  | .bool b => some (.bool b)
  | .nil => some .nil
  | .other => none

/-- The call as Ruby makes it; an argument that Ruby cannot read raises. -/
def outcome (call : Call) : Sent :=
  match valueOf P call.recv, call.args.mapM (valueOf P) with
  | some recv, some args => P.send recv call.method args
  | _, _ => .raised

/-- The scalar that Ruby computes, if there is one. -/
def evaluate (call : Call) : Option Scalar :=
  match outcome P call with
  | .returned result => result.scalar?
  | _ => none

/-- What a call is answered with, where the worker lives to answer it. -/
def replied (call : Call) : Option (Option RubyValue) :=
  match outcome P call with
  | .returned result => some (some result)
  | .raised => some none
  | .exited => none

/-- The reply to a result. -/
def replyTo (result : Option RubyValue) : Json :=
  match result.bind encodeScalar with
  | some enc => .obj [("ok".toList, .bool true), ("result".toList, enc)]
  | none => declined

/-- What `serde_json` reads of the reply to a result: nothing, where the reply holds a number out of its range. -/
def readBack (result : Option RubyValue) : Option Json :=
  P.serdeParse (P.rubyGenerate (replyTo result)).trim

/-- What the client decodes of the reply to a call: the scalar that `serde_json` reads in it, or none where Ruby
declines or ends, or the reply cannot be read. -/
def received (call : Call) : Option Scalar :=
  (replied P call).bind fun result => (readBack P result).bind (resultOf P)

/-- The worker replies to the call, and `serde_json` cannot read the reply. -/
def Unreadable (call : Call) : Prop :=
  ∃ result, replied P call = some result ∧ readBack P result = none

/-- The lines of a call stay apart and whole.  `serde_json::to_string` and `JSON.generate` write no line break
and `JSON.parse` reads what the former wrote; a reply is an object, so that its last character closes it and no
proper beginning of it is JSON.  Nothing is asked of how `serde_json` reads the numbers of a reply. -/
structure Carries (call : Call) : Prop where
  requestOneLine : '\n' ∉ P.serdePrint (request call)
  requestNonempty : strip (requestLine P call) ≠ []
  requestRead : P.rubyParse (strip (requestLine P call)) = some (request call)
  replyOneLine : ∀ result, replied P call = some result → '\n' ∉ P.rubyGenerate (replyTo result)
  torn : ∀ result, replied P call = some result → ∀ front, front <+: P.rubyGenerate (replyTo result) →
    front ≠ P.rubyGenerate (replyTo result) → P.serdeParse (Text.trim front) = none

/-! ### Numbers that are read as they were printed -/

/-- A number as `serde_json` stores it: an integer outside its range becomes a float. -/
def readNumber (n : Int) : Json :=
  if -2 ^ 63 ≤ n ∧ n < 2 ^ 64 then .int n else .float (P.toF64 n)

/-- A tagged scalar as Ruby printed it. -/
def readTagged : RubyValue → Option Json
  | .int v => some (tagged "int" (readNumber P v))
  | value => encodeScalar value

/-- The reply to a result as Ruby printed it. -/
def readReply (result : Option RubyValue) : Json :=
  match result.bind (readTagged P) with
  | some enc => .obj [("ok".toList, .bool true), ("result".toList, enc)]
  | none => declined

/-- `serde_json` reads the number of the reply as it was printed.  Without its feature `float_roundtrip` it may
miss the last place of a float, and an integer of 309 digits is out of its range. -/
def ReadsExactly (call : Call) : Prop :=
  ∀ result, replied P call = some result → readBack P result = some (readReply P result)

/-! ## The worker makes the call -/

variable {P}

theorem decodeScalar_scalarToJson (converts : P.Converts) (s : Scalar) :
    decodeScalar P (scalarToJson s) = valueOf P s := by
  cases s with
  | int i => exact congrArg (Option.map RubyValue.int) (converts.integer i.toInt)
  | bigInt d => rfl
  | float f =>
      by_cases finite : F64.isFinite f = true
      · rw [scalarToJson, if_pos finite, valueOf, if_pos finite]
        exact congrArg (Option.map RubyValue.float) (converts.float f)
      · rw [scalarToJson, if_neg finite, valueOf, if_neg finite]
        exact congrArg (Option.map RubyValue.float) converts.float_nil
  | str s => exact congrArg (some ∘ RubyValue.str) (converts.toS s)
  | sym s => exact congrArg (some ∘ RubyValue.sym) (converts.toS s)
  | bool b => rfl
  | nil => rfl

theorem mapM_decodeScalar (converts : P.Converts) (args : List Scalar) :
    (args.map scalarToJson).mapM (decodeScalar P) = args.mapM (valueOf P) := by
  induction args with
  | nil => rfl
  | cons arg args ih =>
      rw [List.map_cons, List.mapM_cons, List.mapM_cons, decodeScalar_scalarToJson converts, ih]

theorem foldCall_request (converts : P.Converts) (call : Call) :
    foldCall P (scalarToJson call.recv) (.str call.method) (.arr (call.args.map scalarToJson)) =
      (replied P call).map replyTo := by
  rw [foldCall, decodeScalar_scalarToJson converts, arrayOf, mapM_decodeScalar converts, converts.toS, replied,
    outcome]
  cases valueOf P call.recv with
  | none => rfl
  | some recv =>
      cases call.args.mapM (valueOf P) with
      | none => rfl
      | some args =>
          simp only
          cases P.send recv call.method args with
          | raised => rfl
          | exited => rfl
          | returned result =>
              simp only [Option.map_some, replyTo, Option.bind_some]
              cases encodeScalar result <;> rfl

/-- On the line of a fold the worker replies with what Ruby computes, or its process ends. -/
theorem serveLine_requestLine (converts : P.Converts) {call : Call} (carries : Carries P call) :
    serveLine P (requestLine P call) = ((replied P call).map fun result => Served.reply (replyTo result)).getD
      .exited := by
  have folded := foldCall_request converts call
  rw [serveLine, if_neg carries.requestNonempty, carries.requestRead]
  change (match foldCall P (scalarToJson call.recv) (.str call.method) (.arr (call.args.map scalarToJson)) with
    | some json => Served.reply json
    | none => .exited) = _
  rw [folded]
  cases replied P call <;> rfl

/-! ## The client reads the result -/

theorem resultOf_readReply (result : Option RubyValue) :
    resultOf P (readReply P result) = result.bind RubyValue.scalar? := by
  cases result with
  | none => rfl
  | some value =>
      cases value with
      | int n =>
          change ((readNumber P n).asI64).map Scalar.int = (narrow n).map Scalar.int
          rw [readNumber]
          by_cases inside : -2 ^ 63 ≤ n ∧ n < 2 ^ 64
          · rw [if_pos inside]
            rfl
          · rw [if_neg inside, narrow, if_neg (by omega)]
            rfl
      | float f =>
          by_cases finite : F64.isFinite f = true
          · simp only [readReply, readTagged, encodeScalar, RubyValue.scalar?, Option.bind_some, if_pos finite]
            rfl
          · simp only [readReply, readTagged, encodeScalar, RubyValue.scalar?, Option.bind_some, if_neg finite]
            rfl
      | str s => rfl
      | sym s => rfl
      | bool b => rfl
      | nil => rfl
      | other => rfl

/-- What the client reads of a reply is what Ruby computes. -/
theorem resultOf_replied {call : Call} {result : Option RubyValue} (answers : replied P call = some result) :
    resultOf P (readReply P result) = evaluate P call := by
  rw [resultOf_readReply]
  cases made : outcome P call with
  | returned value =>
      rw [replied, made] at answers
      rw [evaluate, made, ← Option.some.inj answers]
      rfl
  | raised =>
      rw [replied, made] at answers
      rw [evaluate, made, ← Option.some.inj answers]
      rfl
  | exited => simp [replied, made] at answers

/-- What is read exactly is what Ruby computes. -/
theorem received_eq_evaluate {call : Call} (exact_ : ReadsExactly P call) : received P call = evaluate P call := by
  rw [received]
  cases answers : replied P call with
  | some result => rw [Option.bind_some, exact_ result answers, Option.bind_some, resultOf_replied answers]
  | none =>
      rw [Option.bind_none, evaluate]
      cases made : outcome P call with
      | returned value => simp [replied, made] at answers
      | raised => rfl
      | exited => rfl

/-- The banner of a worker is a usable handshake that gives its version. -/
theorem readHandshake_banner (read : P.serdeParse (banner P).trim = some
    (.obj [("rigor_sidecar".toList, .int 1), ("ruby_version".toList, .str P.version)])) :
    readHandshake P (banner P) = some P.version := by
  rw [readHandshake, if_neg (by simp [banner]), read]
  rfl

end Meaning

end Rigor.Cli.Sidecar
