import SnapCpp.CassValue

/-!
`QCassandraOrderResult`, the reply of `snapdbproxy` to an order, and the part of
`QCassandraProxy::sendOrder()` that reads it from the socket: four letters, the
size of the rest, and a list of blobs.
-/
namespace SnapCpp.CassandraResult

open CassValue Encoder Decoder

/-- The fields of a `QCassandraOrderResult`; a new one has failed. -/
structure OrderResult where
  fSucceeded : Bool := false
  fResult : List Bytes := []
  deriving DecidableEq

namespace OrderResult

def expectedSize (r : OrderResult) : ℕ :=
  4 + 4 + 2 + (r.fResult.map fun b => 4 + b.length).sum

def writeCommand (succeeded : Bool) : Write Unit :=
  if succeeded then do
    appendSignedCharValue 'S'.toNat
    appendSignedCharValue 'U'.toNat
    appendSignedCharValue 'C'.toNat
    appendSignedCharValue 'S'.toNat
  else do
    appendSignedCharValue 'E'.toNat
    appendSignedCharValue 'R'.toNat
    appendSignedCharValue 'O'.toNat
    appendSignedCharValue 'R'.toNat

/-- The appends of `encodeResult()`. -/
def writeResult (r : OrderResult) : Write Unit := do
  writeCommand r.fSucceeded
  appendUInt32Value (r.expectedSize - 8)
  appendUInt16Value r.fResult.length
  r.fResult.forM appendBinaryValue

/-- `QCassandraOrderResult::encodeResult()`; a debug build compares the size with
the one computed in 32 bits. -/
def encodeResult (debug : Bool) (r : OrderResult) : Except String Bytes :=
  if 65535 < r.fResult.length then
    .error ("result has too make values, limit is 64Kb - 1 value " ++
      "(a maximum of about 20,000 rows in one go)")
  else do
    let (_, encoder) ← r.writeResult Encoder.empty
    if debug ∧ encoder.fArray.length ≠ r.expectedSize % 2 ^ 32 then
      throw ("QCassandraOrderResult::encodeResult(): " ++
        "the expected and encoded sizes do not match...")
    return encoder.fArray

def readResult (r : OrderResult) : Read (Bool × OrderResult) := do
  let count ← uint16Value
  let values ← binaryValues count
  return (true, { r with fResult := r.fResult ++ values })

def decodeResult (r : OrderResult) (encoded : Bytes) : Except String (Bool × OrderResult) := do
  let (result, _) ← r.readResult ⟨encoded, 0⟩
  return result

end OrderResult

/-- `QCassandraProxy::bio_read()` on what the socket delivers before it closes:
all the bytes or a failure. -/
def bioRead (size : ℕ) (stream : Bytes) : Option (Bytes × Bytes) :=
  if size ≤ stream.length then some (stream.take size, stream.drop size) else none

/-- The letters `SUCS`. -/
def success : Bytes := [83, 85, 67, 83]

/-- The letters `EROR`. -/
def failure : Bytes := [69, 82, 79, 82]

/-- What `sendOrder()` does for a blocking order once the order is written, with
what it leaves on the socket. -/
def readReply (stream : Bytes) : Except String (OrderResult × Bytes) :=
  match bioRead 8 stream with
  | none => .ok ({}, [])
  | some (buf, stream) =>
      match bioRead (number (buf.drop 4)) stream with
      | none => .ok ({}, [])
      | some (reply, stream) => do
          let (decoded, result) ← ({} : OrderResult).decodeResult reply
          if decoded then return ({ result with fSucceeded := buf.take 4 = success }, stream)
          else return (result, stream)

/-- The letters of `SUCS` or `EROR`. -/
def command (succeeded : Bool) : Bytes := if succeeded then success else failure

theorem length_command (succeeded : Bool) : (command succeeded).length = 4 := by
  cases succeeded <;> rfl

theorem writes_writeCommand (succeeded : Bool) :
    Writes (OrderResult.writeCommand succeeded) (command succeeded) := by
  have hsuccess : success = bigEndian 1 'S'.toNat ++ (bigEndian 1 'U'.toNat ++
      (bigEndian 1 'C'.toNat ++ bigEndian 1 'S'.toNat)) := by decide
  have hfailure : failure = bigEndian 1 'E'.toNat ++ (bigEndian 1 'R'.toNat ++
      (bigEndian 1 'O'.toNat ++ bigEndian 1 'R'.toNat)) := by decide
  rw [OrderResult.writeCommand, command]
  split_ifs
  · rw [hsuccess]
    exact .bind rfl <| .bind rfl <| .bind rfl rfl
  · rw [hfailure]
    exact .bind rfl <| .bind rfl <| .bind rfl rfl

namespace OrderResult

def body (r : OrderResult) : Bytes := bigEndian 2 r.fResult.length ++ blobs r.fResult

def encoded (r : OrderResult) : Bytes :=
  command r.fSucceeded ++ (bigEndian 4 r.body.length ++ r.body)

/-- A reply that `encodeResult()` accepts. -/
def Fits (r : OrderResult) : Prop := r.fResult.length ≤ 65535 ∧ r.expectedSize ≤ bufferMaxSize

theorem expectedSize_eq (r : OrderResult) : r.expectedSize = 8 + r.body.length := by
  rw [expectedSize, body, List.length_append, length_bigEndian, length_blobs]
  omega

theorem writes_writeResult (r : OrderResult) :
    Writes r.writeResult r.encoded := by
  have hsize : (r.expectedSize : ℤ) - 8 = r.body.length := by
    rw [expectedSize_eq]
    omega
  refine (writes_writeCommand r.fSucceeded).bind ?_
  rw [hsize]
  exact .bind rfl <| .bind rfl (.binaries r.fResult)

theorem length_encoded (r : OrderResult) : r.encoded.length = r.expectedSize := by
  rw [encoded, List.length_append, List.length_append, length_bigEndian, length_command,
    expectedSize_eq]
  omega

variable {r : OrderResult}

theorem encodeResult_error (debug : Bool)
    (h : 65535 < r.fResult.length ∨ bufferMaxSize < r.expectedSize) :
    ∃ message, r.encodeResult debug = .error message := by
  rw [encodeResult]
  split_ifs with hcount
  · exact ⟨_, rfl⟩
  · have hsize := h.resolve_left hcount
    rw [← length_encoded] at hsize
    refine ⟨"resulting value is more than 67108864 bytes", ?_⟩
    simp only [bind, r.writes_writeResult.run_empty_error hsize, Except.bind]

theorem encodeResult_ok (debug : Bool) (h : r.Fits) :
    r.encodeResult debug = .ok r.encoded := by
  obtain ⟨hcount, hsize⟩ := h
  have hlength := r.length_encoded
  have hwrap : r.expectedSize % 2 ^ 32 = r.expectedSize := by
    rw [bufferMaxSize] at hsize
    omega
  have he := r.writes_writeResult.run_empty (hlength.trans_le hsize)
  rw [encodeResult, if_neg (Nat.not_lt.mpr hcount)]
  simp only [bind, he, Except.bind, hlength, hwrap, ne_eq, not_true_eq_false, and_false, if_false]
  rfl

theorem decodeResult_body (h : r.Fits) :
    ({} : OrderResult).decodeResult r.body = .ok (true, ⟨false, r.fResult⟩) := by
  obtain ⟨hcount, hsize⟩ := h
  have hbody := r.expectedSize_eq
  have hsmall : r.body.length < 2 ^ 31 := by
    rw [bufferMaxSize] at hsize
    omega
  have hblobs : ∀ b ∈ r.fResult, b.length < 2 ^ 31 := by
    intro b hb
    have hle := length_le_length_blobs hb
    rw [body, List.length_append] at hsmall
    omega
  have hread := (Reads.uint16 r.fResult.length).bind (f := fun count => do
    let values ← binaryValues count
    return (true, ({ fResult := [] ++ values } : OrderResult))) (e := blobs r.fResult)
      (c := (true, ⟨false, r.fResult⟩)) (by
    rw [Nat.mod_eq_of_lt (by omega)]
    exact (Reads.binaries hblobs).map fun values => (true, ({ fResult := values } : OrderResult)))
  obtain ⟨d, hd⟩ := hread.run [] (by rwa [List.append_nil])
  rw [List.append_nil] at hd
  rw [decodeResult, readResult, body, hd]
  rfl

end OrderResult

theorem bioRead_append (a b : Bytes) : bioRead a.length (a ++ b) = some (a, b) := by
  rw [bioRead, if_pos (by simp), List.take_left, List.drop_left]

theorem command_eq_success_iff (succeeded : Bool) :
    decide (command succeeded = success) = succeeded := by
  cases succeeded <;> decide

theorem number_size {r : OrderResult} (h : r.Fits) :
    number (bigEndian 4 r.body.length) = r.body.length := by
  have hsize := h.2
  have hbody := r.expectedSize_eq
  have hvalue := number_bigEndian 4 r.body.length
  rw [bufferMaxSize] at hsize
  omega

theorem readReply_encoded {r : OrderResult} (h : r.Fits) (rest : Bytes) :
    readReply (r.encoded ++ rest) = .ok (r, rest) := by
  have hlength := length_command r.fSucceeded
  have hhead : (command r.fSucceeded ++ bigEndian 4 r.body.length).length = 8 := by
    rw [List.length_append, hlength, length_bigEndian]
  have hfirst : bioRead 8 (r.encoded ++ rest) =
      some (command r.fSucceeded ++ bigEndian 4 r.body.length, r.body ++ rest) := by
    rw [← hhead, ← bioRead_append]
    simp only [OrderResult.encoded, List.append_assoc]
  rw [readReply, hfirst]
  simp only [List.drop_left' hlength, List.take_left' hlength, number_size h, bioRead_append,
    OrderResult.decodeResult_body h, command_eq_success_iff]
  rfl

/-- `encodeResult()` throws exactly when there are too many blobs or the reply is
larger than a buffer may be. Otherwise `sendOrder()` reads the same result from the
socket and leaves what comes after it. -/
theorem result_roundTrips (debug : Bool) (r : OrderResult) :
    ((∃ message, r.encodeResult debug = .error message) ↔
      65535 < r.fResult.length ∨ bufferMaxSize < r.expectedSize) ∧
    ∀ bytes, r.encodeResult debug = .ok bytes →
      bytes.length = r.expectedSize ∧ ∀ rest, readReply (bytes ++ rest) = .ok (r, rest) := by
  by_cases h : 65535 < r.fResult.length ∨ bufferMaxSize < r.expectedSize
  · obtain ⟨message, he⟩ := OrderResult.encodeResult_error debug h
    refine ⟨iff_of_true ⟨message, he⟩ h, fun bytes hok => ?_⟩
    rw [he] at hok
    cases hok
  · have hfits : r.Fits := ⟨Nat.not_lt.mp (not_or.mp h).1, Nat.not_lt.mp (not_or.mp h).2⟩
    have he := OrderResult.encodeResult_ok debug hfits
    constructor
    · refine iff_of_false ?_ h
      rintro ⟨message, herror⟩
      rw [he] at herror
      cases herror
    · intro bytes hok
      obtain rfl := Except.ok.inj (he.symm.trans hok)
      exact ⟨r.length_encoded, readReply_encoded hfits⟩

end SnapCpp.CassandraResult
