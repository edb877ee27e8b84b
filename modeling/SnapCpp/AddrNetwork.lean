import SnapCpp.AddrMask

/-!
The network type of an address is computed once and kept until the address changes. The setters
of the address drop it; `apply_mask()` changes the address and does not.
-/
namespace SnapCpp.AddrNetwork

open QString AddrParser AddrMask
open AddrRoundTrip (privateAddr)
open SnapAddr (Address NetworkType)

def networkType (a : Addr) : NetworkType :=
  if isIpv4 a then Address.ipv4Network (hostIp a.address)
  else Address.ipv6Network (groups a.address)

/-- An `addr` object, with `f_private_network_defined`, where `none` is undefined. -/
structure CachedAddr where
  addr : Addr
  networkDefined : Option NetworkType
deriving DecidableEq

inductive Error where
  | family
  | port
  | nullProtocol
  | protocol
  | socket
  | io
  | socketFamily
deriving DecidableEq

def fresh (a : Addr) : CachedAddr := ⟨a, none⟩

def addressChanged (o : CachedAddr) : CachedAddr := { o with networkDefined := none }

def setIpv4 (s : SockAddr) (o : CachedAddr) : Except Error CachedAddr :=
  match s with
  | .inet ip port =>
      .ok (addressChanged { o with addr := { o.addr with address := mapped ip, port := port } })
  | _ => .error .family

def setIpv6 (s : SockAddr) (o : CachedAddr) : Except Error CachedAddr :=
  match s with
  | .inet6 ip port =>
      .ok (addressChanged { o with addr := { o.addr with address := ip, port := port } })
  | _ => .error .family

def setPort (port : ℤ) (o : CachedAddr) : Except Error CachedAddr :=
  if 65535 < port ∨ port < 0 then .error .port
  else .ok { o with addr := { o.addr with port := UInt16.ofNat port.toNat } }

/-- `set_protocol()` of a name, which may be a null pointer. -/
def setProtocolName (name : Option QString) (o : CachedAddr) : Except Error CachedAddr :=
  match name with
  | none => .error .nullProtocol
  | some name =>
      if name = ascii "ip" then
        .ok (addressChanged { o with addr := { o.addr with protocol := .ip } })
      else if name = ascii "tcp" then
        .ok (addressChanged { o with addr := { o.addr with protocol := .tcp } })
      else if name = ascii "udp" then
        .ok (addressChanged { o with addr := { o.addr with protocol := .udp } })
      else .error .protocol

/-- `set_protocol()` of a number. -/
def setProtocol (protocol : ℤ) (o : CachedAddr) : Except Error CachedAddr :=
  if protocol = 0 then .ok { o with addr := { o.addr with protocol := .ip } }
  else if protocol = 6 then .ok { o with addr := { o.addr with protocol := .tcp } }
  else if protocol = 17 then .ok { o with addr := { o.addr with protocol := .udp } }
  else .error .protocol

def setMask (mask : Vector UInt8 16) (o : CachedAddr) : CachedAddr :=
  { o with addr := { o.addr with mask := mask } }

/-- `apply_mask()` of an object, which leaves the network type as it is. -/
def applyObjectMask (o : CachedAddr) : CachedAddr := { o with addr := applyMask o.addr }

/-- `set_from_socket()` with what `getpeername()` or `getsockname()` says. -/
def setFromSocket (s : ℤ) (name : Option SockAddr) (o : CachedAddr) : Except Error CachedAddr :=
  if s < 0 then .error .socket
  else
    match name with
    | none => .error .io
    | some (.inet ip port) => setIpv4 (.inet ip port) o
    | some (.inet6 ip port) => setIpv6 (.inet6 ip port) o
    | some (.other _) => .error .socketFamily

def getNetworkType (o : CachedAddr) : NetworkType × CachedAddr :=
  match o.networkDefined with
  | some type => (type, o)
  | none => (networkType o.addr, { o with networkDefined := some (networkType o.addr) })

inductive Call where
  | setIpv4 (s : SockAddr)
  | setIpv6 (s : SockAddr)
  | setPort (port : ℤ)
  | setProtocolName (name : Option QString)
  | setProtocol (protocol : ℤ)
  | setMask (mask : Vector UInt8 16)
  | applyMask
  | setFromSocket (s : ℤ) (name : Option SockAddr)
  | getNetworkType
deriving DecidableEq

/-- What is left of an object by a call that may throw before it changes anything. -/
def attempt (o : CachedAddr) (result : Except Error CachedAddr) : CachedAddr :=
  match result with
  | .ok o => o
  | .error _ => o

def step (o : CachedAddr) : Call → CachedAddr
  | .setIpv4 s => attempt o (setIpv4 s o)
  | .setIpv6 s => attempt o (setIpv6 s o)
  | .setPort port => attempt o (setPort port o)
  | .setProtocolName name => attempt o (setProtocolName name o)
  | .setProtocol protocol => attempt o (setProtocol protocol o)
  | .setMask mask => setMask mask o
  | .applyMask => applyObjectMask o
  | .setFromSocket s name => attempt o (setFromSocket s name o)
  | .getNetworkType => (getNetworkType o).2

def run (o : CachedAddr) (calls : List Call) : CachedAddr := calls.foldl step o

section Coherence

def Coherent (o : CachedAddr) : Prop :=
  ∀ type, o.networkDefined = some type → type = networkType o.addr

variable {o o' : CachedAddr}

theorem getNetworkType_eq_iff :
    (getNetworkType o).1 = networkType o.addr ↔ Coherent o := by
  rw [getNetworkType, Coherent]
  cases o.networkDefined with
  | none => simp
  | some type => simp

def KeepsType (o : CachedAddr) : Prop :=
  o.networkDefined = none ∨ networkType (applyMask o.addr) = networkType o.addr

theorem coherent_applyMask (h : Coherent o) :
    Coherent (applyObjectMask o) ↔ KeepsType o := by
  have hcached : (applyObjectMask o).networkDefined = o.networkDefined := rfl
  rw [Coherent, KeepsType, hcached]
  cases hdefined : o.networkDefined with
  | none => simp
  | some type =>
    have htype := h type hdefined
    simp [applyObjectMask, htype, eq_comm]

/-- A call drops the network type, or leaves it and the address alone. -/
def Sets (o o' : CachedAddr) : Prop :=
  o'.networkDefined = none ∨
    o'.networkDefined = o.networkDefined ∧ o'.addr.address = o.addr.address

theorem Coherent.of_sets (h : Coherent o) (hsets : Sets o o') :
    Coherent o' := by
  intro type htype
  rcases hsets with hnone | ⟨hsame, haddress⟩
  · rw [hnone] at htype
    cases htype
  · have htypes : networkType o'.addr = networkType o.addr := by
      rw [networkType, networkType, isIpv4, isIpv4, haddress]
    exact (h type (hsame ▸ htype)).trans htypes.symm

theorem sets_attempt {result : Except Error CachedAddr}
    (hresult : ∀ o', result = .ok o' → Sets o o') : Sets o (attempt o result) := by
  cases result with
  | error e => exact .inr ⟨rfl, rfl⟩
  | ok o' => exact hresult o' rfl

theorem sets_setIpv4 {s : SockAddr} (h : setIpv4 s o = .ok o') :
    Sets o o' := by
  cases s with
  | inet ip port =>
    rw [← Except.ok.inj h]
    exact .inl rfl
  | inet6 ip port => cases h
  | other family => cases h

theorem sets_setIpv6 {s : SockAddr} (h : setIpv6 s o = .ok o') :
    Sets o o' := by
  cases s with
  | inet ip port => cases h
  | inet6 ip port =>
    rw [← Except.ok.inj h]
    exact .inl rfl
  | other family => cases h

theorem sets_setProtocolName {name : Option QString} (h : setProtocolName name o = .ok o') :
    Sets o o' := by
  cases name with
  | none => cases h
  | some name =>
    rw [setProtocolName] at h
    split_ifs at h <;> rw [← Except.ok.inj h] <;> exact .inl rfl

theorem sets_setFromSocket {s : ℤ} {name : Option SockAddr} (h : setFromSocket s name o = .ok o') :
    Sets o o' := by
  unfold setFromSocket at h
  split_ifs at h
  match name with
  | none => cases h
  | some (.inet ip port) => exact sets_setIpv4 h
  | some (.inet6 ip port) => exact sets_setIpv6 h
  | some (.other family) => cases h

theorem sets_step (o : CachedAddr) {call : Call} (hmask : call ≠ .applyMask)
    (hget : call ≠ .getNetworkType) : Sets o (step o call) := by
  cases call with
  | setIpv4 s => exact sets_attempt fun _ => sets_setIpv4
  | setIpv6 s => exact sets_attempt fun _ => sets_setIpv6
  | setPort port =>
    refine sets_attempt fun o' hport => ?_
    rw [AddrNetwork.setPort] at hport
    split_ifs at hport
    rw [← Except.ok.inj hport]
    exact .inr ⟨rfl, rfl⟩
  | setProtocolName name => exact sets_attempt fun _ => sets_setProtocolName
  | setProtocol protocol =>
    refine sets_attempt fun o' hprotocol => ?_
    rw [AddrNetwork.setProtocol] at hprotocol
    split_ifs at hprotocol <;> rw [← Except.ok.inj hprotocol] <;> exact .inr ⟨rfl, rfl⟩
  | setMask mask => exact .inr ⟨rfl, rfl⟩
  | applyMask => exact absurd rfl hmask
  | setFromSocket s name => exact sets_attempt fun _ => sets_setFromSocket
  | getNetworkType => exact absurd rfl hget

theorem step_getNetworkType (o : CachedAddr) : (step o .getNetworkType).addr = o.addr ∧
    (step o .getNetworkType).networkDefined = some (getNetworkType o).1 := by
  rw [step, getNetworkType]
  cases hdefined : o.networkDefined with
  | none => exact ⟨rfl, rfl⟩
  | some type => exact ⟨rfl, hdefined⟩

theorem Coherent.step {o : CachedAddr} (h : Coherent o) {call : Call}
    (hcall : call ≠ .applyMask) : Coherent (step o call) := by
  by_cases hget : call = .getNetworkType
  · subst hget
    intro type htype
    obtain ⟨haddr, hdefined⟩ := step_getNetworkType o
    rw [haddr, ← Option.some.inj (hdefined.symm.trans htype)]
    exact getNetworkType_eq_iff.mpr h
  · exact h.of_sets (sets_step o hcall hget)

section Prefixes

variable {o : CachedAddr} {call : Call} {calls : List Call}

theorem coherent_cons_iff (h : Coherent o) :
    (∀ front, front <+: call :: calls → Coherent (run o front)) ↔
      ∀ front, front <+: calls → Coherent (run (step o call) front) := by
  constructor
  · intro hall front hfront
    exact hall (call :: front) (List.cons_prefix_cons.mpr ⟨rfl, hfront⟩)
  · intro hall front hfront
    rcases List.prefix_cons_iff.mp hfront with rfl | ⟨rest, rfl, hrest⟩
    · exact h
    · exact hall rest hrest

theorem keepsType_cons_iff :
    (∀ front, front ++ [.applyMask] <+: call :: calls → KeepsType (run o front)) ↔
      (call = .applyMask → KeepsType o) ∧
        ∀ front, front ++ [.applyMask] <+: calls → KeepsType (run (step o call) front) := by
  constructor
  · intro hall
    refine ⟨fun hcall => ?_, fun front hfront => ?_⟩
    · exact hall [] (List.cons_prefix_cons.mpr ⟨hcall.symm, List.nil_prefix⟩)
    · exact hall (call :: front) (List.cons_prefix_cons.mpr ⟨rfl, hfront⟩)
  · rintro ⟨hcall, hall⟩ front hfront
    cases front with
    | nil => exact hcall (List.cons_prefix_cons.mp hfront).1.symm
    | cons first rest =>
      obtain ⟨rfl, hrest⟩ := List.cons_prefix_cons.mp hfront
      exact hall rest hrest

theorem coherent_run_iff (h : Coherent o) :
    (∀ front, front <+: calls → Coherent (run o front)) ↔
      ∀ front, front ++ [.applyMask] <+: calls → KeepsType (run o front) := by
  induction calls generalizing o with
  | nil =>
    refine ⟨fun _ front hfront => ?_, fun _ front hfront => ?_⟩
    · have hnil := List.prefix_nil.mp hfront
      simp at hnil
    · rw [List.prefix_nil.mp hfront]
      exact h
  | cons call calls ih =>
    rw [coherent_cons_iff h, keepsType_cons_iff]
    by_cases hcall : call = .applyMask
    · subst hcall
      have hstep : Coherent (step o .applyMask) ↔ KeepsType o := coherent_applyMask h
      constructor
      · intro hall
        have hcoherent := hall [] List.nil_prefix
        exact ⟨fun _ => hstep.mp hcoherent, (ih hcoherent).mp hall⟩
      · rintro ⟨hkeeps, hall⟩
        exact (ih (hstep.mpr (hkeeps rfl))).mpr hall
    · rw [ih (h.step hcall)]
      exact (and_iff_right fun habsurd => absurd habsurd hcall).symm

end Prefixes

section Answers

variable {o : CachedAddr} {call : Call} {calls : List Call} {type : NetworkType}

/-- The network type is not dropped by any of the calls. -/
def Kept (o : CachedAddr) (calls : List Call) : Prop :=
  ∀ front, front <+: calls → (run o front).networkDefined ≠ none

theorem run_append (o : CachedAddr) (front back : List Call) :
    run o (front ++ back) = run (run o front) back := List.foldl_append

theorem step_defined (h : (step o call).networkDefined = some type) :
    o.networkDefined = some type ∨ call = .getNetworkType ∧ type = networkType o.addr := by
  by_cases hmask : call = .applyMask
  · subst hmask
    exact .inl h
  by_cases hget : call = .getNetworkType
  · subst hget
    rw [(step_getNetworkType o).2, getNetworkType] at h
    cases hdefined : o.networkDefined with
    | none =>
      rw [hdefined] at h
      exact .inr ⟨rfl, (Option.some.inj h).symm⟩
    | some kept =>
      rw [hdefined] at h
      exact .inl h
  · rcases sets_step o hmask hget with hnone | ⟨hsame, -⟩
    · rw [hnone] at h
      cases h
    · exact .inl (hsame ▸ h)

/-- A network type that is not dropped stays what it is. -/
theorem Kept.run_defined (h : Kept o calls) (ho : o.networkDefined = some type) :
    (run o calls).networkDefined = some type := by
  induction calls generalizing o with
  | nil => exact ho
  | cons call calls ih =>
    have hrest : Kept (step o call) calls := fun front hfront =>
      h (call :: front) (List.cons_prefix_cons.mpr ⟨rfl, hfront⟩)
    obtain ⟨kept, hkept⟩ := Option.ne_none_iff_exists'.mp (hrest [] List.nil_prefix)
    refine ih hrest ?_
    by_cases hget : call = .getNetworkType
    · subst hget
      rw [(step_getNetworkType o).2, getNetworkType, ho]
    · have hsame := (step_defined hkept).resolve_right fun hnew => hget hnew.1
      rw [show (step o call).networkDefined = some kept from hkept, ← hsame, ho]

/-- A network type was computed by an earlier call. -/
theorem exists_computed {a : Addr} (h : (run (fresh a) calls).networkDefined = some type) :
    ∃ front back, calls = front ++ [.getNetworkType] ++ back ∧
      type = networkType (run (fresh a) (front ++ [.getNetworkType])).addr ∧
      Kept (run (fresh a) (front ++ [.getNetworkType])) back := by
  induction calls using List.reverseRecOn with
  | nil => cases h
  | append_singleton calls call ih =>
    rw [run_append] at h
    rcases step_defined h with hold | ⟨rfl, htype⟩
    · obtain ⟨front, back, rfl, htype, hkept⟩ := ih hold
      refine ⟨front, back ++ [call], by simp, htype, fun m hm => ?_⟩
      rcases List.prefix_concat_iff.mp hm with rfl | hm
      · rw [← run_append, ← List.append_assoc, run_append, h]
        simp
      · exact hkept m hm
    · refine ⟨calls, [], by simp, ?_, fun m hm => ?_⟩
      · rw [run_append]
        exact htype.trans (congrArg networkType (step_getNetworkType _).1.symm)
      · rw [List.prefix_nil.mp hm, run_append]
        exact fun hnone => by cases (step_getNetworkType _).2.symm.trans hnone

/-- The calls that ask for a network type get the right one if and only if the masks between two
of them keep it, where nothing drops it. -/
theorem answers_iff (a : Addr) (calls : List Call) :
    (∀ front, front ++ [.getNetworkType] <+: calls →
        (getNetworkType (run (fresh a) front)).1 = networkType (run (fresh a) front).addr) ↔
      ∀ front back, front ++ [.getNetworkType] ++ back ++ [.getNetworkType] <+: calls →
        Kept (run (fresh a) (front ++ [.getNetworkType])) back →
          networkType (run (fresh a) (front ++ [.getNetworkType] ++ back)).addr =
            networkType (run (fresh a) (front ++ [.getNetworkType])).addr := by
  constructor
  · intro hall front back hprefix hkept
    have hfirst := hall front (((List.prefix_append _ back).trans
      (List.prefix_append _ _)).trans hprefix)
    obtain ⟨haddr, hdefined⟩ := step_getNetworkType (run (fresh a) front)
    have hsecond := hall _ hprefix
    rw [getNetworkType, run_append, hkept.run_defined (by rw [run_append]; exact hdefined)]
      at hsecond
    rw [run_append, ← hsecond, hfirst, run_append]
    exact congrArg networkType haddr.symm
  · intro hall front hprefix
    rw [getNetworkType_eq_iff]
    intro type htype
    obtain ⟨before, back, rfl, rfl, hkept⟩ := exists_computed htype
    exact (hall before back hprefix hkept).symm

end Answers

/-- Every answer in a run is the network type of the address if and only if each mask is applied
while nothing is kept, or keeps the network type; the answers to the calls of the run itself are if
and only if no mask between two of them changes it. -/
theorem getNetworkType_run_iff (a : Addr) (calls : List Call) :
    ((∀ front, front <+: calls →
        (getNetworkType (run (fresh a) front)).1 = networkType (run (fresh a) front).addr) ↔
      ∀ front, front ++ [.applyMask] <+: calls → KeepsType (run (fresh a) front)) ∧
    ((∀ front, front ++ [.getNetworkType] <+: calls →
        (getNetworkType (run (fresh a) front)).1 = networkType (run (fresh a) front).addr) ↔
      ∀ front back, front ++ [.getNetworkType] ++ back ++ [.getNetworkType] <+: calls →
        Kept (run (fresh a) (front ++ [.getNetworkType])) back →
          networkType (run (fresh a) (front ++ [.getNetworkType] ++ back)).addr =
            networkType (run (fresh a) (front ++ [.getNetworkType])).addr) := by
  refine ⟨?_, answers_iff a calls⟩
  have hfresh : Coherent (fresh a) := fun type htype => by cases htype
  rw [← coherent_run_iff hfresh]
  exact forall_congr' fun front => forall_congr' fun _ => getNetworkType_eq_iff

/-- A private address whose mask clears all of it stays private. -/
theorem stale_network : ¬ ∀ (a : Addr) (calls : List Call),
    (getNetworkType (run (fresh a) calls)).1 = networkType (run (fresh a) calls).addr := by
  intro h
  have hstale := h privateAddr [.getNetworkType, .setMask (maskIpv4 #v[0, 0, 0, 0]), .applyMask]
  exact absurd hstale (by decide +kernel)

end Coherence

end SnapCpp.AddrNetwork
