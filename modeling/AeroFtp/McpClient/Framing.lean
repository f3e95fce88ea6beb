/-
The lines an MCP peer sends (`mcp_client_framing.rs`).

Every line is one JSON-RPC message.  What has been received of a line is held in a buffer of
bounded size, and the first error ends the session.  The JSON parser is a parameter.
-/
import Mathlib.Data.List.Basic

namespace AeroFtp.McpClient

abbrev Bytes := List UInt8

def maxMcpFrameBytes : Nat := 64 * 1024

def newline : UInt8 := 10

inductive FrameError
  | tooLarge
  | invalidJson
  | invalidJsonRpc
  | incomplete
  deriving DecidableEq, Repr

inductive Value
  | null
  | bool (b : Bool)
  /-- The text of a number, and whether it is an `i64` or a `u64`. -/
  | number (text : String) (integer : Bool)
  | string (text : String)
  | array (items : List Value)
  | object (fields : List (String × Value))

def Value.isString : Value → Bool
  | .string _ => true
  | _ => false

def validId : Value → Bool
  | .null | .string _ | .number .. => true
  | _ => false

def validParams : Value → Bool
  | .object _ | .array _ => true
  | _ => false

def validError : Value → Bool
  | .object error =>
    ((error.lookup "code").any fun | .number _ integer => integer | _ => false) &&
      (error.lookup "message").any Value.isString
  | _ => false

def validMessage (object : List (String × Value)) : Bool :=
  let has key := (object.lookup key).isSome
  ((object.lookup "jsonrpc").any fun | .string version => version == "2.0" | _ => false) &&
    (object.lookup "id").all validId &&
    match object.lookup "method" with
    | some method =>
      method.isString && !has "result" && !has "error" && (object.lookup "params").all validParams
    | none => has "id" && has "result" != has "error" && (object.lookup "error").all validError

/-- An error, and the buffer it leaves. -/
abbrev Failure := FrameError × Bytes

variable (fromSlice : Bytes → Option Value)

/-- A line that is complete, and is taken out of the buffer. -/
def takeLine (line : Bytes) : Except Failure Value :=
  match fromSlice line with
  -- the buffer is not cleared yet
  | none => .error (.invalidJson, line)
  | some (.object fields) =>
    if validMessage fields then .ok (.object fields) else .error (.invalidJsonRpc, [])
  | some _ => .error (.invalidJsonRpc, [])

/-- The messages so far and the buffer, after one more chunk. -/
def push (s : List Value × Bytes) (chunk : Bytes) : Except Failure (List Value × Bytes) :=
  if chunk = [] then .ok s
  else
    let take := (chunk.findIdx? (· == newline)).elim chunk.length (· + 1)
    if s.2.length + take > maxMcpFrameBytes then .error (.tooLarge, [])
    else
      let pending := s.2 ++ chunk.take take
      if pending.getLast? ≠ some newline then push (s.1, pending) (chunk.drop take)
      else do
        let message ← takeLine fromSlice pending
        push (s.1 ++ [message], []) (chunk.drop take)
termination_by chunk.length
decreasing_by all_goals
  have := List.length_pos_iff.mpr ‹chunk ≠ []›
  cases hn : chunk.findIdx? (· == newline) <;> simp <;> omega

def finish (pending : Bytes) : Except FrameError Unit :=
  if pending.isEmpty then .ok () else .error .incomplete

/-- Chunks pushed in order to a fresh decoder, up to the first error. -/
def pushAll (chunks : List Bytes) : Except Failure (List Value × Bytes) :=
  chunks.foldlM (push fromSlice) ([], [])

end AeroFtp.McpClient
