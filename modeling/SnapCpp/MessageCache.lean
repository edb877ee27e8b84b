import SnapCpp.CommunicatorMessage
import SnapCpp.QNumber

/-!
The line of text that a `snap_communicator_message` remembers. The member functions
are programs that change the object one assignment at a time and may throw on the way,
so that what is left of the object after an exception is part of their meaning. What
the object remembers is always the line of its fields. A call that is rejected leaves
the object alone, except that `reply_to()` may have set the server already.
-/
namespace SnapCpp.MessageCache

open CommunicatorMessage QString QNumber Utf StringReplace

/-- A member function: a value or an exception, and the object in both cases. -/
abbrev Method := EStateM QString Message

def check : Except QString Unit → Method Unit
  | .ok () => pure ()
  | .error e => throw e

def clearCachedMessage : Method Unit := modify fun m => { m with fCachedMessage := [] }

/-- A setter of a name that may be empty; it does not check the `special` names. -/
def setName (field : Message → QString) (assign : QString → Message → Message)
    (special : List QString) (name : QString) : Method Unit := do
  if field (← get) ≠ name then
    if name ∉ special then check (verifyName name true true)
    modify (assign name)
    clearCachedMessage

def setSentFromServer : QString → Method Unit :=
  setName Message.fSentFromServer (fun name m => { m with fSentFromServer := name }) []

def setSentFromService : QString → Method Unit :=
  setName Message.fSentFromService (fun name m => { m with fSentFromService := name }) []

def setServer : QString → Method Unit :=
  setName Message.fServer (fun name m => { m with fServer := name }) [ascii ".", ascii "*"]

def setService : QString → Method Unit :=
  setName Message.fService (fun name m => { m with fService := name })
    [ascii "*", ascii "?", ascii "."]

def replyTo (message : Message) : Method Unit := do
  setServer message.fSentFromServer
  setService message.fSentFromService

def setCommand (command : QString) : Method Unit := do
  check (verifyName command false false)
  if (← get).fCommand ≠ command then
    modify fun m => { m with fCommand := command }
    clearCachedMessage

def addParameter (name value : QString) : Method Unit := do
  check (verifyName name false true)
  modify fun m => { m with fParameters := m.fParameters.insert name value }
  clearCachedMessage

def fromMessage (message : QString) : Method Bool := do
  match Message.fromMessage message (← get) with
  | none => return false
  | some n =>
      modify fun m => { m with fSentFromServer := n.fSentFromServer }
      modify fun m => { m with fSentFromService := n.fSentFromService }
      modify fun m => { m with fServer := n.fServer }
      modify fun m => { m with fService := n.fService }
      modify fun m => { m with fCommand := n.fCommand }
      modify fun m => { m with fParameters := n.fParameters }
      clearCachedMessage
      return true

def toMessage : Method QString := do
  if (← get).fCachedMessage.isEmpty then
    if (← get).fCommand.isEmpty then
      throw (ascii ("snap_communicator_message::to_message(): cannot build a valid message " ++
        "without at least a command."))
    modify fun m => { m with fCachedMessage := m.write }
  return (← get).fCachedMessage

/-- The value of a parameter, in one of the types that `add_parameter()` takes. -/
inductive Value
  | chars (value : List UInt8)
  | string (value : List UInt8)
  | text (value : QString)
  | int32 (value : Int32)
  | uint32 (value : UInt32)
  | int64 (value : Int64)
  | uint64 (value : UInt64)

def Value.toText : Value → QString
  | .chars value => fromUtf8 (cString value)
  | .string value => fromUtf8 (cString value)
  | .text value => value
  | .int32 value => number value.toInt
  | .uint32 value => number value.toNat
  | .int64 value => number value.toInt
  | .uint64 value => number value.toNat

inductive Call
  | setSentFromServer (name : QString)
  | setSentFromService (name : QString)
  | setServer (name : QString)
  | setService (name : QString)
  | replyTo (message : Message)
  | setCommand (command : QString)
  | addParameter (name : QString) (value : Value)
  | fromMessage (message : QString)
  | toMessage

/-- What a call gives back. -/
inductive Outcome
  | done
  | answer (b : Bool)
  | line (s : QString)
  deriving DecidableEq

def Call.run : Call → Method Outcome
  | .setSentFromServer name => do MessageCache.setSentFromServer name; return .done
  | .setSentFromService name => do MessageCache.setSentFromService name; return .done
  | .setServer name => do MessageCache.setServer name; return .done
  | .setService name => do MessageCache.setService name; return .done
  | .replyTo message => do MessageCache.replyTo message; return .done
  | .setCommand command => do MessageCache.setCommand command; return .done
  | .addParameter name value => do MessageCache.addParameter name value.toText; return .done
  | .fromMessage message => do return .answer (← MessageCache.fromMessage message)
  | .toMessage => do return .line (← MessageCache.toMessage)

def left {α : Type} (x : Method α) (m : Message) : Message :=
  match x.run m with
  | .ok _ n => n
  | .error _ n => n

def result {α : Type} (x : Method α) (m : Message) : Except QString α :=
  match x.run m with
  | .ok a _ => .ok a
  | .error e _ => .error e

def Rejected (call : Call) (m : Message) : Prop :=
  match result call.run m with
  | .ok outcome => outcome = .answer false
  | .error _ => True

/-- The object after some calls, each of which may have been rejected. -/
def reached (calls : List Call) : Message := calls.foldl (fun m call => left call.run m) {}

def fresh (m : Message) : Message := { m with fCachedMessage := [] }

section Runs

variable {α β : Type} {m n : Message} {name command : QString}

theorem run_pure (a : α) (m : Message) : (pure a : Method α).run m = .ok a m := rfl

theorem run_get_bind (f : Message → Method α) (m : Message) :
    (get >>= f : Method α).run m = (f m).run m := rfl

theorem run_bind (x : Method α) (f : α → Method β) (m : Message) :
    (x >>= f).run m = match x.run m with
      | .ok a n => (f a).run n
      | .error e n => .error e n := by
  change EStateM.bind x f m = _
  unfold EStateM.bind EStateM.run
  cases x m <;> rfl

theorem run_check (r : Except QString Unit) (m : Message) :
    (check r).run m = match r with
      | .ok () => .ok () m
      | .error e => .error e m := by
  cases r <;> rfl

theorem setName_run (field : Message → QString) (assign : QString → Message → Message)
    (special : List QString) (name : QString) (m : Message) :
    (setName field assign special name).run m =
      if field m = name then .ok () m
      else match if name ∈ special then .ok () else verifyName name true true with
        | .ok () => .ok () (fresh (assign name m))
        | .error e => .error e m := by
  rw [setName, run_get_bind]
  by_cases heq : field m = name
  · rw [if_pos heq, if_neg (not_not_intro heq), run_pure]
  · rw [if_neg heq, if_pos heq]
    by_cases hspecial : name ∈ special
    · rw [if_pos hspecial]
      simp only [hspecial, not_true_eq_false, if_false]
      rfl
    · rw [if_neg hspecial]
      simp only [hspecial, not_false_eq_true, if_true, run_bind, run_check]
      cases verifyName name true true <;> rfl

theorem setCommand_run (command : QString) (m : Message) :
    (setCommand command).run m = match verifyName command false false with
      | .ok () => .ok () (if m.fCommand = command then m else
          { m with fCommand := command, fCachedMessage := [] })
      | .error e => .error e m := by
  rw [setCommand, run_bind, run_check]
  cases verifyName command false false with
  | error e => rfl
  | ok u =>
    dsimp only
    rw [run_get_bind]
    by_cases heq : m.fCommand = command
    · rw [if_pos heq, if_neg (not_not_intro heq), run_pure]
    · rw [if_neg heq, if_pos heq]
      rfl

theorem addParameter_run (name value : QString) (m : Message) :
    (addParameter name value).run m = match verifyName name false true with
      | .ok () => .ok () { m with
          fParameters := m.fParameters.insert name value, fCachedMessage := [] }
      | .error e => .error e m := by
  rw [addParameter, run_bind, run_check]
  cases verifyName name false true <;> rfl

theorem fromMessage_run (message : QString) (m : Message) :
    (fromMessage message).run m = match Message.fromMessage message m with
      | none => .ok false m
      | some n => .ok true (fresh n) := by
  rw [fromMessage, run_get_bind]
  cases Message.fromMessage message m <;> rfl

theorem toMessage_run (m : Message) :
    toMessage.run m = match m.toMessage with
      | .ok (s, n) => .ok s n
      | .error e => .error e m := by
  rw [toMessage, run_get_bind, Message.toMessage]
  by_cases hcached : m.fCachedMessage.isEmpty = true
  · rw [if_pos hcached, if_pos hcached, run_get_bind]
    by_cases hcommand : m.fCommand.isEmpty = true
    · rw [if_pos hcommand, if_pos hcommand]
      rfl
    · rw [if_neg hcommand, if_neg hcommand]
      rfl
  · rw [if_neg hcached, if_neg hcached]
    rfl

theorem result_toMessage (m : Message) :
    result toMessage m = m.toMessage.map Prod.fst := by
  rw [result, toMessage_run]
  cases m.toMessage <;> rfl

end Runs

section Coherence

variable {α β : Type} {m n : Message} {x : Method α}

def Coherent (m : Message) : Prop :=
  m.fCachedMessage = [] ∨ m.fCommand ≠ [] ∧ m.fCachedMessage = m.write

theorem Coherent.toMessage (h : Coherent m) :
    result MessageCache.toMessage m = result MessageCache.toMessage (fresh m) := by
  rw [result_toMessage, result_toMessage]
  rcases h with hempty | ⟨hcommand, hcached⟩
  · have hsame : fresh m = m := by rw [fresh, ← hempty]
    rw [hsame]
  · have hne : m.write ≠ [] := by simp [Message.write, Message.writeHeader, hcommand]
    have hremembered : m.toMessage = .ok (m.write, m) := by
      rw [Message.toMessage, if_neg (by simpa [hcached] using hne), hcached]
    have hbuilt : (fresh m).toMessage = .ok (m.write, { m with fCachedMessage := m.write }) := by
      have hforgotten : (fresh m).fCachedMessage.isEmpty = true := rfl
      rw [Message.toMessage, if_pos hforgotten, if_neg (by simpa [fresh] using hcommand)]
      rfl
    rw [hremembered, hbuilt]
    rfl

def Keeps (x : Method α) : Prop := ∀ m, Coherent m → Coherent (left x m)

def Atomic (x : Method α) : Prop := ∀ m e, result x m = .error e → left x m = m

theorem Keeps.bind {f : α → Method β} (hx : Keeps x) (hf : ∀ a, Keeps (f a)) :
    Keeps (x >>= f) := by
  intro m hm
  have hn := hx m hm
  rw [left] at hn ⊢
  rw [run_bind]
  cases hrun : x.run m with
  | error e n => simpa only [hrun] using hn
  | ok a n =>
    rw [hrun] at hn
    exact hf a n hn

theorem keeps_pure (a : α) : Keeps (pure a) := fun _ hm => hm

theorem left_return (f : α → β) (m : Message) :
    left (do let a ← x; return f a) m = left x m := by
  rw [left, left, run_bind]
  cases x.run m <;> rfl

theorem result_return (f : α → β) (m : Message) :
    result (do let a ← x; return f a) m = (result x m).map f := by
  rw [result, result, run_bind]
  cases x.run m <;> rfl

theorem left_setName (field : Message → QString) (assign : QString → Message → Message)
    (special : List QString) (name : QString) (m : Message) :
    left (setName field assign special name) m = m ∨
      left (setName field assign special name) m = fresh (assign name m) := by
  rw [left, setName_run]
  by_cases heq : field m = name
  · rw [if_pos heq]
    exact Or.inl rfl
  · rw [if_neg heq]
    cases (if name ∈ special then .ok () else verifyName name true true : Except QString Unit) with
    | ok u => exact Or.inr rfl
    | error e => exact Or.inl rfl

theorem keeps_setName (field : Message → QString) (assign : QString → Message → Message)
    (special : List QString) (name : QString) : Keeps (setName field assign special name) := by
  intro m hm
  rcases left_setName field assign special name m with heq | heq
  · rwa [heq]
  · rw [heq]
    exact Or.inl rfl

theorem atomic_setName (field : Message → QString) (assign : QString → Message → Message)
    (special : List QString) (name : QString) : Atomic (setName field assign special name) := by
  intro m e
  rw [left, result, setName_run]
  by_cases heq : field m = name
  · rw [if_pos heq]
    exact fun _ => rfl
  · rw [if_neg heq]
    cases (if name ∈ special then .ok () else verifyName name true true : Except QString Unit) with
    | ok u => exact fun h => nomatch h
    | error e => exact fun _ => rfl

theorem keeps_replyTo (message : Message) : Keeps (replyTo message) :=
  (keeps_setName _ _ _ _).bind fun _ => keeps_setName _ _ _ _

/-- When `reply_to()` throws, the server may be the new one. -/
theorem left_replyTo {message : Message} {e : QString}
    (h : result (replyTo message) m = .error e) :
    left (replyTo message) m = m ∨
      left (replyTo message) m = fresh { m with fServer := message.fSentFromServer } := by
  have hserver : left (setServer message.fSentFromServer) m = m ∨
      left (setServer message.fSentFromServer) m =
        fresh { m with fServer := message.fSentFromServer } := left_setName _ _ _ _ _
  rw [left] at hserver ⊢
  rw [result] at h
  rw [replyTo, run_bind] at h ⊢
  cases hrun : (setServer message.fSentFromServer).run m with
  | error e' n => simpa only [hrun] using hserver
  | ok u n =>
    rw [hrun] at h hserver
    have hservice := atomic_setName Message.fService _ [ascii "*", ascii "?", ascii "."]
      message.fSentFromService n e h
    rw [left] at hservice
    dsimp only at hserver ⊢
    rw [setService, hservice]
    exact hserver

theorem setCommand_spec (command : QString) : Keeps (setCommand command) ∧
    Atomic (setCommand command) := by
  refine ⟨fun m hm => ?_, fun m e => ?_⟩
  · rw [left, setCommand_run]
    cases verifyName command false false with
    | error e => exact hm
    | ok u =>
      dsimp only
      split_ifs
      · exact hm
      · exact Or.inl rfl
  · rw [left, result, setCommand_run]
    cases verifyName command false false with
    | error e => exact fun _ => rfl
    | ok u => exact fun h => nomatch h

theorem addParameter_spec (name value : QString) : Keeps (addParameter name value) ∧
    Atomic (addParameter name value) := by
  refine ⟨fun m hm => ?_, fun m e => ?_⟩
  · rw [left, addParameter_run]
    cases verifyName name false true with
    | error e => exact hm
    | ok u => exact Or.inl rfl
  · rw [left, result, addParameter_run]
    cases verifyName name false true with
    | error e => exact fun _ => rfl
    | ok u => exact fun h => nomatch h

theorem keeps_fromMessage (message : QString) : Keeps (fromMessage message) := by
  intro m hm
  rw [left, fromMessage_run]
  cases Message.fromMessage message m with
  | none => exact hm
  | some n => exact Or.inl rfl

theorem left_fromMessage {message : QString} (h : result (fromMessage message) m ≠ .ok true) :
    left (fromMessage message) m = m := by
  rw [result, fromMessage_run] at h
  rw [left, fromMessage_run]
  cases hread : Message.fromMessage message m with
  | none => rfl
  | some n =>
    rw [hread] at h
    exact absurd rfl h

theorem toMessage_spec : Keeps toMessage ∧ Atomic toMessage := by
  refine ⟨fun m hm => ?_, fun m e => ?_⟩
  · rw [left, toMessage_run, Message.toMessage]
    by_cases hcached : m.fCachedMessage.isEmpty = true
    · rw [if_pos hcached]
      by_cases hcommand : m.fCommand.isEmpty = true
      · rw [if_pos hcommand]
        exact hm
      · rw [if_neg hcommand]
        exact Or.inr ⟨by simpa using hcommand, rfl⟩
    · rw [if_neg hcached]
      exact hm
  · rw [left, result, toMessage_run]
    cases m.toMessage with
    | error e => exact fun _ => rfl
    | ok r => exact fun h => nomatch h

end Coherence

section Runs

variable {m : Message} {call : Call}

theorem keeps_run (call : Call) : Keeps call.run := by
  cases call with
  | setSentFromServer name | setSentFromService name | setServer name | setService name =>
    exact (keeps_setName _ _ _ _).bind fun _ => keeps_pure _
  | replyTo message => exact (keeps_replyTo message).bind fun _ => keeps_pure _
  | setCommand command => exact (setCommand_spec command).1.bind fun _ => keeps_pure _
  | addParameter name value =>
    exact (addParameter_spec name value.toText).1.bind fun _ => keeps_pure _
  | fromMessage message => exact (keeps_fromMessage message).bind fun _ => keeps_pure _
  | toMessage => exact toMessage_spec.1.bind fun _ => keeps_pure _

/-- Whatever is called, what the object remembers is the line of its fields. -/
theorem coherent_reached (calls : List Call) : Coherent (reached calls) := by
  induction calls using List.reverseRecOn with
  | nil => exact Or.inl rfl
  | append_singleton calls call ih =>
    rw [reached, List.foldl_append]
    exact keeps_run call _ ih

/-- A call that only fails by an exception. -/
theorem Atomic.rejected {α : Type} {x : Method α} {f : α → Outcome} (hx : Atomic x)
    (hf : ∀ a, f a ≠ .answer false)
    (h : match result (do let a ← x; return f a) m with
      | .ok outcome => outcome = .answer false
      | .error _ => True) :
    left (do let a ← x; return f a) m = m := by
  rw [result_return] at h
  rw [left_return]
  cases hresult : result x m with
  | ok a =>
    rw [hresult] at h
    exact absurd h (hf a)
  | error e => exact hx m e hresult

theorem left_rejected (h : Rejected call m) : left call.run m = m ∨
    ∃ message, call = .replyTo message ∧
      left call.run m = fresh { m with fServer := message.fSentFromServer } := by
  unfold Rejected at h
  cases call with
  | setSentFromServer name | setSentFromService name | setServer name | setService name =>
    exact .inl ((atomic_setName _ _ _ _).rejected (fun _ => nofun) h)
  | setCommand command => exact .inl ((setCommand_spec command).2.rejected (fun _ => nofun) h)
  | addParameter name value =>
    exact .inl ((addParameter_spec name value.toText).2.rejected (fun _ => nofun) h)
  | toMessage => exact .inl (toMessage_spec.2.rejected (fun _ => nofun) h)
  | fromMessage message =>
    rw [Call.run, result_return] at h
    rw [Call.run, left_return]
    refine .inl (left_fromMessage fun htrue => ?_)
    rw [htrue] at h
    cases h
  | replyTo message =>
    rw [Call.run, result_return] at h
    rw [Call.run, left_return]
    cases hresult : result (MessageCache.replyTo message) m with
    | ok u =>
      rw [hresult] at h
      cases h
    | error e => exact (left_replyTo hresult).imp id fun heq => ⟨message, rfl, heq⟩

/-- After any calls, the line of an object is that of a new object with the same fields.
A rejected call leaves the object alone, except that `reply_to()` may have set the
server. -/
theorem cache_coherent (calls : List Call) :
    result toMessage (reached calls) = result toMessage (fresh (reached calls)) ∧
      ∀ call, Rejected call (reached calls) →
        left call.run (reached calls) = reached calls ∨
          ∃ message, call = .replyTo message ∧ left call.run (reached calls) =
            fresh { reached calls with fServer := message.fSentFromServer } :=
  ⟨(coherent_reached calls).toMessage, fun _ => left_rejected⟩

def received : Message where
  fSentFromServer := ascii "srv"
  fSentFromService := ascii "bad-name"
  fCommand := ascii "CMD"

/-- `reply_to()` throws on the service of a message after it has changed the server. -/
theorem reply_to_halfway :
    Message.fromMessage (ascii "<srv:bad-name CMD") {} = some received ∧
      ¬∀ (calls : List Call) (call : Call), Rejected call (reached calls) →
        fresh (left call.run (reached calls)) = fresh (reached calls) := by
  refine ⟨rfl, fun hall => ?_⟩
  have hserver := congrArg Message.fServer (hall [] (.replyTo received) trivial)
  exact absurd hserver (by decide)

end Runs

end SnapCpp.MessageCache
