import SnapCpp.Pieces
import SnapCpp.BufferConnection

/-!
How the readers of connections cut what they receive into lines. The buffered connections read
blocks of bytes and stop between two blocks when they reach a limit; the blocking connection
reads one byte at a time. A line is given to `process_line()` as a C string, so that a null byte
ends it in one reader and is left out in the other one.
-/
namespace SnapCpp.LineReader

open BufferConnection

def newline : UInt8 := 10

/-- The bytes that `c_str()` shows. -/
def cBytes (l : Bytes) : Bytes := l.takeWhile (· ≠ 0)

/-- `f_line`, and the lines that were given to `process_line()`. -/
structure Reader where
  fLine : Bytes
  lines : List Bytes
deriving DecidableEq

/-- What a call of `read()` puts in a buffer of 1024 bytes. -/
structure Block where
  bytes : Bytes
  bounds : 1 ≤ bytes.length ∧ bytes.length ≤ 1024

/-- What `read()` returns; the date is the one that is compared with the limit afterwards. -/
inductive Read where
  | data (block : Block) (now : ℤ)
  | unavailable
  | error

def addPieces (s : Reader) : List Bytes → Reader
  | [] => s
  | [last] => { s with fLine := s.fLine ++ last }
  | piece :: next :: rest =>
      addPieces ⟨[], s.lines ++ [cBytes (s.fLine ++ piece)]⟩ (next :: rest)

def readBuffer (s : Reader) (buffer : Bytes) : Reader := addPieces s (buffer.splitOn newline)

/-- The loop of `process_read()` with the number of lines so far, and what is left to read. -/
def readBlocks (eventLimit : ℕ) (dateLimit : ℤ) : ℕ → Reader → List Read → Reader × List Read
  | _, s, [] => (s, [])
  | _, s, .unavailable :: rest => (s, rest)
  | _, s, .error :: rest => (s, rest)
  | countLines, s, .data block now :: rest =>
      let countLines := countLines + block.bytes.count newline
      let s := readBuffer s block.bytes
      if eventLimit ≤ countLines ∨ dateLimit ≤ now then (s, rest)
      else readBlocks eventLimit dateLimit countLines s rest

/-- A call of `process_read()`. -/
structure ReadCall where
  socket : ℤ
  eventLimit : ℕ
  dateLimit : ℤ

/-- `process_read()` of `snap_tcp_client_buffer_connection`, and with the same code of
`snap_tcp_server_client_buffer_connection`. -/
def processRead (call : ReadCall) (s : Reader) (reads : List Read) : Reader × List Read :=
  if call.socket = -1 then (s, reads)
  else readBlocks call.eventLimit call.dateLimit 0 s reads

def processReads : List ReadCall → Reader → List Read → Reader × List Read
  | [], s, reads => (s, reads)
  | call :: calls, s, reads =>
      let (s, rest) := processRead call s reads
      processReads calls s rest

def received (reads : List Read) : Bytes :=
  reads.flatMap fun
    | .data block _ => block.bytes
    | _ => []

/-- What `poll()` reports, with the byte that is read where there is input. -/
structure Ready where
  input : Option UInt8
  pollErr : Bool
  pollHup : Bool
  pollNval : Bool

/-- A turn of the loop of `run()`; all but the last kind end it. -/
inductive Poll where
  | invalidSocket
  | timedOut
  | pollFailed
  | readFailed
  | ready (r : Ready)

/-- The loop of `run()` with the line so far and the lines that were given to `process_line()`,
and what is left to poll. -/
def runLoop (isDone : List Bytes → Bool) : Bytes → List Bytes → List Poll → List Bytes × List Poll
  | _, lines, [] => (lines, [])
  | _, lines, .invalidSocket :: rest => (lines, rest)
  | _, lines, .timedOut :: rest => (lines, rest)
  | _, lines, .pollFailed :: rest => (lines, rest)
  | _, lines, .readFailed :: rest => (lines, rest)
  | line, lines, .ready r :: rest =>
      if r.input = some newline then
        let lines := lines ++ [cBytes line]
        if isDone lines then (lines, rest) else runLoop isDone [] lines rest
      else
        -- one byte is appended as a C string
        let line := line ++ cBytes r.input.toList
        if r.pollErr ∨ r.pollHup ∨ r.pollNval then (lines, rest)
        else runLoop isDone line lines rest

def run (isDone : List Bytes → Bool) (polls : List Poll) : List Bytes × List Poll :=
  runLoop isDone [] [] polls

def polled (polls : List Poll) : Bytes :=
  polls.flatMap fun
    | .ready r => r.input.toList
    | _ => []

section Framing

def linesOf (w : Bytes) : List Bytes := (w.splitOn newline).dropLast

def unfinished (w : Bytes) : Bytes := (w.splitOn newline).getLastD []

structure Framed (ls : List Bytes) (l w : Bytes) : Prop where
  eq : w = ls.flatMap (· ++ [newline]) ++ l
  lines : ∀ k ∈ ls, newline ∉ k
  last : newline ∉ l

variable {ls : List Bytes} {l w p : Bytes} {s : Reader}

theorem framed_nil : Framed [] [] [] := ⟨rfl, by simp, by simp⟩

theorem intercalate_lines (ls : List Bytes) (l : Bytes) :
    [newline].intercalate (ls ++ [l]) = ls.flatMap (· ++ [newline]) ++ l := by
  induction ls with
  | nil => simp
  | cons k ls ih =>
    obtain ⟨m, ms, hms⟩ := List.exists_cons_of_ne_nil (l := ls ++ [l]) (by simp)
    rw [List.cons_append, hms, List.intercalate_cons_cons, ← hms, ih, List.flatMap_cons]
    simp

theorem Framed.split (h : Framed ls l w) : linesOf w = ls ∧ unfinished w = l := by
  have hpieces : ∀ k ∈ ls ++ [l], newline ∉ k :=
    List.forall_mem_append.mpr ⟨h.lines, List.forall_mem_singleton.mpr h.last⟩
  have hsplit : w.splitOn newline = ls ++ [l] := by
    rw [h.eq, ← intercalate_lines]
    exact List.splitOn_intercalate newline hpieces (by simp)
  rw [linesOf, unfinished, hsplit]
  simp

theorem Framed.append (h : Framed ls l w) (hp : newline ∉ p) : Framed ls (l ++ p) (w ++ p) := by
  refine ⟨?_, h.lines, ?_⟩
  · rw [h.eq, List.append_assoc]
  · rw [List.mem_append, not_or]
    exact ⟨h.last, hp⟩

theorem Framed.newline (h : Framed ls l w) :
    Framed (ls ++ [l]) [] (w ++ [LineReader.newline]) := by
  refine ⟨?_, List.forall_mem_append.mpr ⟨h.lines, List.forall_mem_singleton.mpr h.last⟩, by simp⟩
  rw [h.eq, List.flatMap_append, List.flatMap_singleton, List.append_nil, List.append_assoc]

structure Holds (s : Reader) (w : Bytes) : Prop where
  framed : ∃ ls, Framed ls s.fLine w ∧ s.lines = ls.map cBytes

theorem addPieces_holds (h : Holds s w) {ps : List Bytes} (hne : ps ≠ [])
    (hps : ∀ p ∈ ps, newline ∉ p) : Holds (addPieces s ps) (w ++ [newline].intercalate ps) := by
  induction ps generalizing s w with
  | nil => exact absurd rfl hne
  | cons p rest ih =>
    obtain ⟨hp, hrest⟩ := List.forall_mem_cons.mp hps
    obtain ⟨ls, hframed, hlines⟩ := h.framed
    cases rest with
    | nil =>
      rw [List.intercalate_singleton]
      exact ⟨ls, hframed.append hp, hlines⟩
    | cons q rest =>
      have hnext : Holds ⟨[], s.lines ++ [cBytes (s.fLine ++ p)]⟩ (w ++ p ++ [newline]) :=
        ⟨ls ++ [s.fLine ++ p], (hframed.append hp).newline, by simp [hlines]⟩
      have hall := ih hnext (by simp) hrest
      rw [List.intercalate_cons_cons, ← List.append_assoc, ← List.append_assoc]
      exact hall

theorem readBuffer_holds (h : Holds s w) (buffer : Bytes) :
    Holds (readBuffer s buffer) (w ++ buffer) := by
  obtain ⟨ps, hne, hps, rfl⟩ := Pieces.exists_pieces newline buffer
  rw [readBuffer, List.splitOn_intercalate newline hps hne]
  exact addPieces_holds h hne hps

theorem readBlocks_holds (h : Holds s w) (eventLimit : ℕ) (dateLimit : ℤ)
    (countLines : ℕ) (reads : List Read) :
    ∃ consumed, reads = consumed ++ (readBlocks eventLimit dateLimit countLines s reads).2 ∧
      Holds (readBlocks eventLimit dateLimit countLines s reads).1 (w ++ received consumed) := by
  induction reads generalizing s w countLines with
  | nil => exact ⟨[], rfl, by simpa [received, readBlocks] using h⟩
  | cons read rest ih =>
    cases read with
    | unavailable => exact ⟨[.unavailable], rfl, by simpa [received, readBlocks] using h⟩
    | error => exact ⟨[.error], rfl, by simpa [received, readBlocks] using h⟩
    | data block now =>
      have hblock := readBuffer_holds h block.bytes
      rw [readBlocks]
      split_ifs
      · exact ⟨[.data block now], rfl, by simpa [received] using hblock⟩
      · obtain ⟨consumed, hrest, hholds⟩ := ih hblock (countLines + block.bytes.count newline)
        refine ⟨.data block now :: consumed, by rw [List.cons_append, ← hrest], ?_⟩
        have hreceived : received (.data block now :: consumed) =
            block.bytes ++ received consumed := rfl
        rwa [hreceived, ← List.append_assoc]

theorem received_append (a b : List Read) : received (a ++ b) = received a ++ received b :=
  List.flatMap_append

theorem processReads_holds (h : Holds s w) (calls : List ReadCall)
    (reads : List Read) :
    ∃ consumed, reads = consumed ++ (processReads calls s reads).2 ∧
      Holds (processReads calls s reads).1 (w ++ received consumed) := by
  induction calls generalizing s w reads with
  | nil => exact ⟨[], rfl, by simpa [received, processReads] using h⟩
  | cons call calls ih =>
    have hcall : ∃ consumed, reads = consumed ++ (processRead call s reads).2 ∧
        Holds (processRead call s reads).1 (w ++ received consumed) := by
      rw [processRead]
      split_ifs
      · exact ⟨[], rfl, by simpa [received] using h⟩
      · exact readBlocks_holds h _ _ _ _
    obtain ⟨first, hfirst, hholds⟩ := hcall
    obtain ⟨consumed, hrest, hall⟩ := ih hholds (processRead call s reads).2
    refine ⟨first ++ consumed, ?_, ?_⟩
    · rw [processReads, List.append_assoc, ← hrest]
      exact hfirst
    · rw [received_append, ← List.append_assoc]
      exact hall

/-- What the blocking reader holds of a line: null bytes are left out. -/
def shown (l : Bytes) : Bytes := l.filter (· ≠ 0)

theorem cBytes_shown (l : Bytes) : cBytes (shown l) = shown l :=
  List.takeWhile_eq_self_iff.mpr fun _ hb => (List.mem_filter.mp hb).2

theorem shown_append (l : Bytes) (b : UInt8) : shown (l ++ [b]) = shown l ++ cBytes [b] := by
  rw [shown, List.filter_append]
  by_cases hb : b = 0 <;> simp [shown, cBytes, hb]

/-- The loop of `run()` reads up to where it ends. -/
theorem runLoop_holds (isDone : List Bytes → Bool) (h : Framed ls l w) (polls : List Poll) :
    ∃ consumed ls' l', polls = consumed ++ (runLoop isDone (shown l) (ls.map shown) polls).2 ∧
      Framed ls' l' (w ++ polled consumed) ∧
      (runLoop isDone (shown l) (ls.map shown) polls).1 = ls'.map shown := by
  induction polls generalizing ls l w with
  | nil => exact ⟨[], ls, l, rfl, by simpa [polled] using h, rfl⟩
  | cons poll rest ih =>
    cases poll with
    | invalidSocket => exact ⟨[.invalidSocket], ls, l, rfl, by simpa [polled] using h, rfl⟩
    | timedOut => exact ⟨[.timedOut], ls, l, rfl, by simpa [polled] using h, rfl⟩
    | pollFailed => exact ⟨[.pollFailed], ls, l, rfl, by simpa [polled] using h, rfl⟩
    | readFailed => exact ⟨[.readFailed], ls, l, rfl, by simpa [polled] using h, rfl⟩
    | ready r =>
      have hpolled : ∀ consumed, polled (.ready r :: consumed) =
          r.input.toList ++ polled consumed := fun consumed => rfl
      have hnone : polled [.ready r] = r.input.toList := by simp [polled]
      rw [runLoop]
      by_cases hend : r.input = some newline
      · rw [if_pos hend]
        simp only [cBytes_shown]
        have hline := h.newline
        have hmap : ls.map shown ++ [shown l] = (ls ++ [l]).map shown := by simp
        rw [hmap]
        split_ifs
        · refine ⟨[.ready r], ls ++ [l], [], rfl, ?_, rfl⟩
          rw [hnone, hend]
          exact hline
        · obtain ⟨consumed, ls', l', hrest, hframed, hlines⟩ := ih hline
          refine ⟨.ready r :: consumed, ls', l', congrArg (Poll.ready r :: ·) hrest, ?_, hlines⟩
          rw [hpolled, hend, ← List.append_assoc]
          exact hframed
      · rw [if_neg hend]
        simp only
        obtain ⟨m, hframed, hshown⟩ : ∃ m, Framed ls m (w ++ r.input.toList) ∧
            shown l ++ cBytes r.input.toList = shown m := by
          cases hinput : r.input with
          | none => exact ⟨l, by simpa using h, by simp [cBytes]⟩
          | some b =>
            have hb : newline ∉ [b] := by
              intro hmem
              exact hend (by rw [hinput, List.mem_singleton.mp hmem])
            exact ⟨l ++ [b], h.append hb, (shown_append l b).symm⟩
        rw [hshown]
        split_ifs
        · refine ⟨[.ready r], ls, m, rfl, ?_, rfl⟩
          rwa [hnone]
        · obtain ⟨consumed, ls', l', hrest, hall, hlines⟩ := ih hframed
          refine ⟨.ready r :: consumed, ls', l', congrArg (Poll.ready r :: ·) hrest, ?_, hlines⟩
          rwa [hpolled, ← List.append_assoc]

theorem cBytes_eq_iff (l : Bytes) : cBytes l = l ↔ 0 ∉ l := by
  rw [cBytes, List.takeWhile_eq_self_iff]
  constructor
  · intro h hmem
    exact absurd (h 0 hmem) (by decide)
  · intro h b hb
    have hne : b ≠ 0 := fun heq => h (heq ▸ hb)
    simpa using hne

theorem shown_eq_iff (l : Bytes) : shown l = l ↔ 0 ∉ l := by
  rw [shown, List.filter_eq_self]
  constructor
  · intro h hmem
    exact absurd (h 0 hmem) (by decide)
  · intro h b hb
    have hne : b ≠ 0 := fun heq => h (heq ▸ hb)
    simpa using hne

theorem map_eq_self_iff {f : Bytes → Bytes} (hf : ∀ l, f l = l ↔ 0 ∉ l) (ls : List Bytes) :
    ls.map f = ls ↔ ∀ l ∈ ls, 0 ∉ l := by
  conv_lhs => rhs; rw [← List.map_id ls]
  rw [List.map_inj_left]
  exact forall₂_congr fun l _ => hf l

/-- Both readers hand over the lines of the stream exactly when no line has a null byte. -/
theorem framing_iff {calls : List ReadCall} {reads consumed : List Read}
    {isDone : List Bytes → Bool} {polls seen : List Poll}
    (hreads : reads = consumed ++ (processReads calls ⟨[], []⟩ reads).2)
    (hpolls : polls = seen ++ (run isDone polls).2)
    (hsame : polled seen = received consumed) :
    ((processReads calls ⟨[], []⟩ reads).1.lines = linesOf (received consumed) ∧
      (processReads calls ⟨[], []⟩ reads).1.fLine = unfinished (received consumed) ∧
      (run isDone polls).1 = linesOf (received consumed)) ↔
    ∀ l ∈ linesOf (received consumed), 0 ∉ l := by
  obtain ⟨consumed', hconsumed, hholds⟩ :=
    processReads_holds (s := ⟨[], []⟩) ⟨[], framed_nil, rfl⟩ calls reads
  obtain ⟨seen', ls', l', hseen, hframed', hrun⟩ := runLoop_holds isDone framed_nil polls
  obtain rfl : consumed = consumed' := List.append_cancel_right (hreads.symm.trans hconsumed)
  obtain rfl : seen = seen' := List.append_cancel_right (hpolls.symm.trans hseen)
  obtain ⟨ls, hframed, hlines⟩ := hholds.framed
  rw [List.nil_append] at hframed hframed'
  rw [hsame] at hframed'
  obtain ⟨hls, hl⟩ := hframed.split
  obtain ⟨hls', _⟩ := hframed'.split
  obtain rfl : ls' = ls := hls'.symm.trans hls
  have hrun' : (run isDone polls).1 = ls'.map shown := hrun
  rw [hlines, hrun', hls, hl, map_eq_self_iff cBytes_eq_iff, map_eq_self_iff shown_eq_iff]
  exact ⟨fun h => h.1, fun h => ⟨h, rfl, h⟩⟩

def byteReady (b : UInt8) : Poll := .ready ⟨some b, false, false, false⟩

def twoBlocks : List Read :=
  [.data ⟨[97, 98], by decide⟩ 5, .unavailable, .data ⟨[99, 10, 100], by decide⟩ 6]

def twoCalls : List ReadCall := [⟨4, 10, 100⟩, ⟨4, 10, 100⟩]

theorem framing_two :
    ((processReads twoCalls ⟨[], []⟩ twoBlocks).1.lines = linesOf (received twoBlocks) ∧
      (processReads twoCalls ⟨[], []⟩ twoBlocks).1.fLine = unfinished (received twoBlocks) ∧
      (run (fun _ => false) ((received twoBlocks).map byteReady)).1 =
        linesOf (received twoBlocks)) ↔
    ∀ l ∈ linesOf (received twoBlocks), 0 ∉ l := by
  have hseen : (received twoBlocks).map byteReady = (received twoBlocks).map byteReady ++
      (run (fun _ => false) ((received twoBlocks).map byteReady)).2 := rfl
  exact framing_iff rfl hseen rfl

/-- What follows a null byte of a line is lost in one reader and kept in the other one. -/
theorem null_byte_lost : ¬ ∀ (calls : List ReadCall) (reads consumed : List Read)
    (isDone : List Bytes → Bool) (polls seen : List Poll),
    reads = consumed ++ (processReads calls ⟨[], []⟩ reads).2 →
    polls = seen ++ (run isDone polls).2 → polled seen = received consumed →
    (processReads calls ⟨[], []⟩ reads).1.lines = linesOf (received consumed) ∧
      (processReads calls ⟨[], []⟩ reads).1.fLine = unfinished (received consumed) ∧
      (run isDone polls).1 = linesOf (received consumed) := by
  intro h
  obtain ⟨hlines, _, _⟩ := h [⟨4, 10, 100⟩] [.data ⟨[97, 0, 98, 10], by decide⟩ 5]
    [.data ⟨[97, 0, 98, 10], by decide⟩ 5] (fun _ => false) ([97, 0, 98, 10].map byteReady)
    ([97, 0, 98, 10].map byteReady) rfl rfl rfl
  revert hlines
  decide

end Framing

end SnapCpp.LineReader
