import SnapCpp.Runs

/-!
The buffered output of TCP connections. What is written is kept in a buffer until the socket
takes it; the buffer is emptied once all of it was taken, and then a callback may write more. The
connections of clients and of clients of a server have the same code but for the test of a failed
write.
-/
namespace SnapCpp.BufferConnection

abbrev Bytes := List UInt8

/-- `snap_tcp_client_buffer_connection` and `snap_tcp_server_client_buffer_connection`. -/
inductive ConnectionClass where
  | client
  | serverClient
deriving DecidableEq, Repr

structure Connection where
  socket : ℤ
  fOutput : Bytes
  fPosition : ℕ
deriving DecidableEq, Repr

/-- What the `write()` of the socket returns, and `errno` after it. -/
structure SocketWrite where
  r : ℤ
  errno : ℕ
deriving DecidableEq, Repr

/-- On Linux, `EWOULDBLOCK` has the same number. -/
def eagain : ℕ := 11

def ewouldblock : ℕ := 11

/-- `write()`; there is no data for a null pointer. -/
def write (data : Option Bytes) (c : Connection) : Connection × ℤ :=
  if c.socket = -1 then (c, -1)
  else
    match data with
    | some (b :: d) => ({ c with fOutput := c.fOutput ++ b :: d }, (b :: d).length)
    | _ => (c, 0)

def isWriter (c : Connection) : Bool := c.socket ≠ -1 ∧ c.fOutput ≠ []

def offered (c : Connection) : Bytes := c.fOutput.drop c.fPosition

def isFailure (cls : ConnectionClass) (w : SocketWrite) : Bool :=
  match cls with
  | .client => w.r < 0 ∧ w.errno ≠ 0 ∧ w.errno ≠ eagain ∧ w.errno ≠ ewouldblock
  | .serverClient => w.r ≠ 0 ∧ w.errno ≠ 0 ∧ w.errno ≠ eagain ∧ w.errno ≠ ewouldblock

/-- `process_write()`, and whether it calls `process_error()`. The writes are those of
`process_empty_buffer()`, which is called when the buffer is empty. -/
def processWrite (cls : ConnectionClass) (w : SocketWrite) (writes : List (Option Bytes))
    (c : Connection) : Connection × Bool :=
  if c.socket = -1 then (c, false)
  else if 0 < w.r then
    let position := c.fPosition + w.r.toNat
    if c.fOutput.length ≤ position then
      (writes.foldl (fun c data => (write data c).1) { c with fOutput := [], fPosition := 0 },
        false)
    else ({ c with fPosition := position }, false)
  else (c, isFailure cls w)

structure World where
  connection : Connection
  written : Bytes
  sent : Bytes

inductive Action where
  | write (data : Option Bytes)
  | processWrite (w : SocketWrite) (writes : List (Option Bytes))

def dataOf (data : Option Bytes) : Bytes := data.getD []

def step (cls : ConnectionClass) (s : World) : Action → World
  | .write data =>
      { s with connection := (write data s.connection).1, written := s.written ++ dataOf data }
  | .processWrite w writes =>
      let taken := (offered s.connection).take w.r.toNat
      { connection := (processWrite cls w writes s.connection).1
        written := s.written ++
          if 0 < w.r ∧ s.connection.fOutput.length ≤ s.connection.fPosition + w.r.toNat then
            writes.flatMap dataOf
          else []
        sent := s.sent ++ taken }

def Allowed (s : World) : Action → Prop
  | .write _ => s.connection.socket ≠ -1
  | .processWrite w _ => s.connection.socket ≠ -1 ∧
      (0 ≤ w.r ∧ w.r ≤ (offered s.connection).length ∨
        w.r = -1 ∧ (w.errno = eagain ∨ w.errno = ewouldblock))

instance (s : World) (a : Action) : Decidable (Allowed s a) := by
  cases a <;> unfold Allowed <;> infer_instance

def fresh (socket : ℤ) : World := ⟨⟨socket, [], 0⟩, [], []⟩

structure Inv (s : World) : Prop where
  opened : s.connection.socket ≠ -1
  order : s.sent ++ offered s.connection = s.written
  unsent : s.connection.fOutput = [] ∧ s.connection.fPosition = 0 ∨
    s.connection.fPosition < s.connection.fOutput.length

theorem inv_fresh {socket : ℤ} (h : socket ≠ -1) : Inv (fresh socket) :=
  ⟨h, rfl, Or.inl ⟨rfl, rfl⟩⟩

variable {c : Connection}

theorem write_open (h : c.socket ≠ -1) (data : Option Bytes) :
    (write data c).1 = { c with fOutput := c.fOutput ++ dataOf data } := by
  unfold write
  rw [if_neg h]
  match data with
  | none => simp [dataOf]
  | some [] => simp [dataOf]
  | some (b :: d) => rfl

theorem foldl_write (h : c.socket ≠ -1) (writes : List (Option Bytes)) :
    writes.foldl (fun c data => (write data c).1) c =
      { c with fOutput := c.fOutput ++ writes.flatMap dataOf } := by
  induction writes generalizing c with
  | nil => simp
  | cons data writes ih =>
    rw [List.foldl_cons, write_open h, ih (by exact h), List.flatMap_cons, List.append_assoc]

theorem unsent_append (h : c.fOutput = [] ∧ c.fPosition = 0 ∨
    c.fPosition < c.fOutput.length) (data : Bytes) :
    c.fOutput ++ data = [] ∧ c.fPosition = 0 ∨ c.fPosition < (c.fOutput ++ data).length := by
  rw [List.length_append]
  rcases h with ⟨hempty, hzero⟩ | hlt
  · cases data with
    | nil => exact Or.inl ⟨by rw [hempty, List.nil_append], hzero⟩
    | cons b d =>
      refine Or.inr ?_
      rw [hzero, List.length_cons]
      omega
  · exact Or.inr (by omega)

theorem inv_write {s : World} (hs : Inv s) (h : s.connection.socket ≠ -1) (cls : ConnectionClass)
    (data : Option Bytes) : Inv (step cls s (.write data)) := by
  have hle : s.connection.fPosition ≤ s.connection.fOutput.length := by
    rcases hs.unsent with ⟨_, hzero⟩ | hlt <;> omega
  have hconnection : (step cls s (.write data)).connection =
      { s.connection with fOutput := s.connection.fOutput ++ dataOf data } := write_open h data
  refine ⟨?_, ?_, ?_⟩
  · rw [hconnection]
    exact h
  · have horder := hs.order
    rw [hconnection]
    show s.sent ++ (s.connection.fOutput ++ dataOf data).drop s.connection.fPosition =
      s.written ++ dataOf data
    rw [List.drop_append_of_le_length hle, ← List.append_assoc, ← horder]
    rfl
  · rw [hconnection]
    exact unsent_append hs.unsent _

theorem inv_processWrite {s : World} (hs : Inv s) (cls : ConnectionClass) {w : SocketWrite}
    {writes : List (Option Bytes)} (h : Allowed s (.processWrite w writes)) :
    Inv (step cls s (.processWrite w writes)) := by
  obtain ⟨hopen, hresult⟩ := h
  have horder := hs.order
  have hlength : (offered s.connection).length =
      s.connection.fOutput.length - s.connection.fPosition := List.length_drop
  by_cases htaken : 0 < w.r
  · have hle : w.r.toNat ≤ (offered s.connection).length := by omega
    have hsplit : s.sent ++ (offered s.connection).take w.r.toNat ++
        s.connection.fOutput.drop (s.connection.fPosition + w.r.toNat) = s.written := by
      rw [← horder, List.append_assoc]
      congr 1
      rw [← List.drop_drop]
      exact List.take_append_drop _ _
    by_cases hall : s.connection.fOutput.length ≤ s.connection.fPosition + w.r.toNat
    · -- the buffer is cleared, and the callback writes to an empty one
      have hconnection : (step cls s (.processWrite w writes)).connection =
          ⟨s.connection.socket, writes.flatMap dataOf, 0⟩ := by
        show (processWrite cls w writes s.connection).1 = _
        rw [processWrite, if_neg hopen, if_pos htaken]
        simp only [if_pos hall]
        exact foldl_write (c := ⟨s.connection.socket, [], 0⟩) hopen writes
      refine ⟨?_, ?_, ?_⟩
      · rw [hconnection]
        exact hopen
      · rw [hconnection]
        show s.sent ++ (offered s.connection).take w.r.toNat ++ writes.flatMap dataOf =
          s.written ++ _
        rw [if_pos ⟨htaken, hall⟩, ← hsplit, List.drop_eq_nil_of_le hall, List.append_nil]
      · rw [hconnection]
        exact unsent_append (c := ⟨s.connection.socket, [], 0⟩) (Or.inl ⟨rfl, rfl⟩) _
    · have hconnection : (step cls s (.processWrite w writes)).connection =
          { s.connection with fPosition := s.connection.fPosition + w.r.toNat } := by
        show (processWrite cls w writes s.connection).1 = _
        rw [processWrite, if_neg hopen, if_pos htaken]
        simp only [if_neg hall]
      refine ⟨?_, ?_, ?_⟩
      · rw [hconnection]
        exact hopen
      · rw [hconnection]
        show s.sent ++ (offered s.connection).take w.r.toNat ++ _ = s.written ++ _
        rw [if_neg (fun hand => hall hand.2), List.append_nil]
        exact hsplit
      · rw [hconnection]
        exact Or.inr (Nat.lt_of_not_le hall)
  · have hzero : w.r.toNat = 0 := by omega
    have hstep : step cls s (.processWrite w writes) = s := by
      show World.mk (processWrite cls w writes s.connection).1 _ _ = s
      rw [processWrite, if_neg hopen, if_neg htaken, if_neg (fun hand => htaken hand.1), hzero,
        List.take_zero, List.append_nil, List.append_nil]
    rw [hstep]
    exact hs

/-- Whatever was written and not sent is in the buffer, in order. -/
theorem output_conserved {cls : ConnectionClass} {socket : ℤ} {actions : List Action} {s : World}
    (hopen : socket ≠ -1)
    (h : Runs (fun a l b => Allowed a l ∧ b = step cls a l) (fresh socket) actions s) :
    s.sent ++ s.connection.fOutput.drop s.connection.fPosition = s.written ∧
      s.connection.fPosition ≤ s.connection.fOutput.length ∧
      (isWriter s.connection = true ↔ s.sent.length < s.written.length) := by
  have hinv : Inv s := by
    refine h.invariant Inv (inv_fresh hopen) ?_
    rintro a l b ha ⟨hallowed, rfl⟩
    cases l with
    | write data => exact inv_write ha hallowed cls data
    | processWrite w writes => exact inv_processWrite ha cls hallowed
  have horder := hinv.order
  have hwriter : isWriter s.connection = true ↔ s.connection.fOutput ≠ [] := by
    simp [isWriter, hinv.opened]
  refine ⟨horder, ?_, ?_⟩
  · rcases hinv.unsent with ⟨_, hzero⟩ | hlt <;> omega
  · rw [hwriter, ← horder, List.length_append, offered, List.length_drop]
    rcases hinv.unsent with ⟨hempty, hzero⟩ | hlt
    · simp [hempty]
    · have hne : s.connection.fOutput ≠ [] := List.ne_nil_of_length_pos (by omega)
      simp only [hne, ne_eq, not_false_eq_true, true_iff]
      omega

/-- Three bytes are sent in two parts, and the callback writes one more. -/
def partialActions : List Action :=
  [.write (some [1, 2, 3]), .processWrite ⟨2, 0⟩ [], .processWrite ⟨-1, eagain⟩ [],
    .processWrite ⟨1, 0⟩ [some [4]]]

theorem output_conserved_partial :
    let s := partialActions.foldl (step .client) (fresh 7)
    s.sent ++ s.connection.fOutput.drop s.connection.fPosition = s.written ∧
      s.connection.fPosition ≤ s.connection.fOutput.length ∧
      (isWriter s.connection = true ↔ s.sent.length < s.written.length) :=
  output_conserved (by decide)
    (Runs.of_checked (step .client) Allowed (fresh 7) partialActions (by decide))

end SnapCpp.BufferConnection
