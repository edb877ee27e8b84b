import SnapCpp.LockHandlers

/-!
How snaplock daemons learn of each other. A daemon that starts broadcasts
LOCKREADY to the daemons already started and to itself; a daemon that hears a
new name answers with a broadcast of its own. The broadcasts die out, and
when none is in flight every daemon knows exactly the started ones.
-/
namespace SnapCpp.LockMembership

open QString LockTicket LockDaemon LockNetwork

/-- The daemons, those started so far, the copies in flight with the server
each is for, and how many broadcasts each daemon has made. -/
structure Mesh where
  daemon : QString → Daemon
  started : List QString := []
  inFlight : List (QString × Message) := []
  broadcasts : QString → ℕ := fun _ => 0

inductive MeshAction
  | start (server : QString)
  | deliver (index : ℕ)

namespace Mesh

def send (m : Mesh) (server : QString) (d : Daemon) : Mesh where
  daemon := Function.update m.daemon server d
  started := m.started
  inFlight := m.inFlight ++ d.outbox.flatMap (fun x => m.started.map (fun t => (t, x.message)))
  broadcasts := Function.update m.broadcasts server (m.broadcasts server + d.outbox.length)

def start (m : Mesh) (server : QString) : Mesh :=
  ({ m with started := server :: m.started }).send server
    ({ m.daemon server with outbox := [] }).sendLockReady

def deliver (m : Mesh) (index : ℕ) : Mesh :=
  match m.inFlight[index]? with
  | none => m
  | some (target, message) =>
      match ({ m.daemon target with outbox := [] }).processMessage message with
      | .ok d => ({ m with inFlight := m.inFlight.eraseIdx index }).send target d
      | .error _ => { m with inFlight := m.inFlight.eraseIdx index }

def step (c : Cluster) (m : Mesh) : MeshAction → Mesh
  | .start server => if server ∈ c.servers ∧ server ∉ m.started then m.start server else m
  | .deliver index => m.deliver index

def run (c : Cluster) (m : Mesh) (actions : List MeshAction) : Mesh := actions.foldl (step c) m

def initial : Mesh where
  daemon := fun s => { fServerName := s, clock := ⟨0, []⟩ }

def Knows (m : Mesh) (server name : QString) : Prop := (m.daemon server).fComputers.Has name

/-- The LOCKREADY of a server is on its way to another one. -/
def Coming (m : Mesh) (target name : QString) : Prop :=
  (target, broadcast (.lockReady name)) ∈ m.inFlight

end Mesh

def discovered (d : Daemon) : ℕ := (d.fComputers.erase d.fServerName).size

structure Converging (c : Cluster) (m : Mesh) : Prop where
  nodup : m.started.Nodup
  member : ∀ s ∈ m.started, s ∈ c.servers
  name : ∀ s, (m.daemon s).fServerName = s
  known : ∀ s x b, (m.daemon s).fComputers.find? x = some b → b = true ∧ x ∈ m.started
  flight : ∀ e ∈ m.inFlight, e.1 ∈ m.started ∧
    ∃ x ∈ m.started, e.2 = broadcast (.lockReady x)
  silent : ∀ s, s ∉ m.started → m.broadcasts s = 0 ∧ (m.daemon s).fComputers = OrderedMap.empty
  bound : ∀ s ∈ m.started, m.broadcasts s ≤ 1 + discovered (m.daemon s)
  meets : ∀ s ∈ m.started, ∀ t ∈ m.started, m.Knows t s ∨ m.Coming t s ∨
    ¬ m.Knows s t ∧ m.Coming s t

section Deliver

variable {c : Cluster} {m : Mesh}

/-- What the delivery of the LOCKREADY of `x` to `t` changes. -/
structure Delivered (m m' : Mesh) (index : ℕ) (t x : QString) : Prop where
  found : m.inFlight[index]? = some (t, broadcast (.lockReady x))
  started : m'.started = m.started
  name : (m'.daemon t).fServerName = (m.daemon t).fServerName
  others : ∀ s, s ≠ t → m'.daemon s = m.daemon s
  effect : m.Knows t x ∧ (m'.daemon t).fComputers = (m.daemon t).fComputers ∧
      m'.inFlight = m.inFlight.eraseIdx index ∧ m'.broadcasts = m.broadcasts ∨
    ¬ m.Knows t x ∧ (m'.daemon t).fComputers = (m.daemon t).fComputers.insert x true ∧
      (x = t ∧ m'.inFlight = m.inFlight.eraseIdx index ∧ m'.broadcasts = m.broadcasts ∨
        x ≠ t ∧ m'.inFlight = m.inFlight.eraseIdx index ++
            m.started.map (fun s => (s, broadcast (.lockReady t))) ∧
          m'.broadcasts = Function.update m.broadcasts t (m.broadcasts t + 1))

theorem deliver_cases (hm : Converging c m) (index : ℕ) :
    m.deliver index = m ∨ ∃ t x, Delivered m (m.deliver index) index t x := by
  cases hfound : m.inFlight[index]? with
  | none => exact Or.inl (by simp [Mesh.deliver, hfound])
  | some e =>
    obtain ⟨t, message⟩ := e
    obtain ⟨ht, x, hx, hmessage⟩ := hm.flight _ (List.mem_of_getElem? hfound)
    dsimp only at ht hmessage
    subst hmessage
    have hname := hm.name t
    obtain ⟨d, hd⟩ := lockReady_ok ({ m.daemon t with outbox := [] })
      (c.valid x (hm.member x hx)).1
    have hdeliver : m.deliver index =
        ({ m with inFlight := m.inFlight.eraseIdx index }).send t d := by
      simp only [Mesh.deliver, hfound, Daemon.processMessage, broadcast, hd]
    refine Or.inr ⟨t, x, ?_⟩
    rw [hdeliver]
    obtain ⟨-, ⟨hknown, rfl⟩ | ⟨hnew, hself, rfl⟩ | ⟨hnew, hother, rfl⟩⟩ := lockReady_cases hd
    · refine ⟨hfound, rfl, by simp [Mesh.send], fun s hs => by simp [Mesh.send, hs], Or.inl ?_⟩
      exact ⟨hknown, by simp [Mesh.send], by simp [Mesh.send], by simp [Mesh.send]⟩
    · have hxt : x = t := hself.trans hname
      refine ⟨hfound, rfl, by simp [Mesh.send], fun s hs => by simp [Mesh.send, hs], Or.inr ?_⟩
      exact ⟨hnew, by simp [Mesh.send],
        Or.inl ⟨hxt, by simp [Mesh.send], by simp [Mesh.send]⟩⟩
    · have hxt : x ≠ t := fun heq => hother (heq.trans hname.symm)
      refine ⟨hfound, rfl, by simp [Mesh.send, Daemon.sendLockReady, Daemon.post],
        fun s hs => by simp [Mesh.send, hs], Or.inr ⟨hnew, ?_, Or.inr ⟨hxt, ?_, ?_⟩⟩⟩
      · simp [Mesh.send, Daemon.sendLockReady, Daemon.post]
      · simp [Mesh.send, Daemon.sendLockReady, Daemon.post, hname]
      · simp [Mesh.send, Daemon.sendLockReady, Daemon.post]

variable {m' : Mesh} {index : ℕ} {t x : QString} {a b : QString}

theorem Delivered.knows_mono (h : Delivered m m' index t x) (hk : m.Knows a b) : m'.Knows a b := by
  by_cases ha : a = t
  · subst ha
    rcases h.effect with ⟨-, hcomputers, -⟩ | ⟨-, hcomputers, -⟩
    · rwa [Mesh.Knows, hcomputers]
    · rw [Mesh.Knows, hcomputers, OrderedMap.Has, OrderedMap.find?_insert]
      split_ifs
      · simp
      · exact hk
  · rwa [Mesh.Knows, h.others a ha]

theorem Delivered.knows_cases (h : Delivered m m' index t x) (hk : m'.Knows a b) :
    m.Knows a b ∨ a = t ∧ b = x := by
  by_cases ha : a = t
  · subst ha
    rcases h.effect with ⟨-, hcomputers, -⟩ | ⟨-, hcomputers, -⟩
    · rw [Mesh.Knows, hcomputers] at hk
      exact Or.inl hk
    · rw [Mesh.Knows, hcomputers, OrderedMap.Has, OrderedMap.find?_insert] at hk
      split_ifs at hk with hb
      · exact Or.inr ⟨rfl, hb⟩
      · exact Or.inl hk
  · rw [Mesh.Knows, h.others a ha] at hk
    exact Or.inl hk

theorem Delivered.knows_self (h : Delivered m m' index t x) : m'.Knows t x := by
  rcases h.effect with ⟨hk, -⟩ | ⟨-, hcomputers, -⟩
  · exact h.knows_mono hk
  · rw [Mesh.Knows, hcomputers, OrderedMap.Has, OrderedMap.find?_insert, if_pos rfl]
    simp

/-- Only the copy that is delivered leaves the network. -/
theorem Delivered.coming (h : Delivered m m' index t x) (hc : m.Coming a b) :
    m'.Coming a b ∨ a = t ∧ b = x := by
  by_cases hab : a = t ∧ b = x
  · exact Or.inr hab
  · have hkept : (a, broadcast (.lockReady b)) ∈ m.inFlight.eraseIdx index := by
      obtain ⟨i, hi⟩ := List.getElem?_of_mem hc
      refine List.mem_eraseIdx_iff_getElem?.mpr ⟨i, ?_, hi⟩
      rintro rfl
      rw [h.found] at hi
      simp only [Option.some.injEq, Prod.mk.injEq, broadcast, Message.mk.injEq,
        Command.lockReady.injEq, true_and] at hi
      exact hab ⟨hi.1.symm, hi.2.symm⟩
    refine Or.inl ?_
    rcases h.effect with ⟨-, -, hflight, -⟩ | ⟨-, -, ⟨-, hflight, -⟩ | ⟨-, hflight, -⟩⟩
    · rwa [Mesh.Coming, hflight]
    · rwa [Mesh.Coming, hflight]
    · rw [Mesh.Coming, hflight]
      exact List.mem_append_left _ hkept

/-- A daemon that discovers another one tells it about itself. -/
theorem Delivered.answer (h : Delivered m m' index t x) (hnew : ¬ m.Knows t x) (hxt : x ≠ t)
    (hx : x ∈ m.started) : m'.Coming x t := by
  rcases h.effect with ⟨hk, -⟩ | ⟨-, -, ⟨hself, -⟩ | ⟨-, hflight, -⟩⟩
  · exact absurd hk hnew
  · exact absurd hself hxt
  · rw [Mesh.Coming, hflight]
    exact List.mem_append_right _ (List.mem_map.mpr ⟨x, hx, rfl⟩)

theorem Delivered.meets (h : Delivered m m' index t x) (hm : Converging c m) :
    ∀ s ∈ m'.started, ∀ u ∈ m'.started, m'.Knows u s ∨ m'.Coming u s ∨
      ¬ m'.Knows s u ∧ m'.Coming s u := by
  intro s hs u hu
  rw [h.started] at hs hu
  rcases hm.meets s hs u hu with hk | hcoming | ⟨hnew, hcoming⟩
  · exact Or.inl (h.knows_mono hk)
  · rcases h.coming hcoming with hc | ⟨rfl, rfl⟩
    · exact Or.inr (Or.inl hc)
    · exact Or.inl h.knows_self
  · rcases h.coming hcoming with hc | ⟨rfl, rfl⟩
    · by_cases hk : m'.Knows s u
      · rcases h.knows_cases hk with hold | ⟨rfl, rfl⟩
        · exact absurd hold hnew
        · by_cases hus : u = s
          · subst hus
            exact Or.inl hk
          · exact Or.inr (Or.inl (h.answer hnew hus hu))
      · exact Or.inr (Or.inr ⟨hk, hc⟩)
    · by_cases hus : u = s
      · subst hus
        exact Or.inl h.knows_self
      · exact Or.inr (Or.inl (h.answer hnew hus hu))

theorem discovered_insert {d d' : Daemon} (hname : d'.fServerName = d.fServerName)
    (hcomputers : d'.fComputers = d.fComputers.insert x true) (hnew : ¬ d.fComputers.Has x)
    (hx : x ≠ d.fServerName) : discovered d' = discovered d + 1 := by
  have hswap : (d.fComputers.insert x true).erase d.fServerName =
      (d.fComputers.erase d.fServerName).insert x true := by
    refine OrderedMap.ext_find? _ _ (fun k => ?_)
    simp only [OrderedMap.find?_erase, OrderedMap.find?_insert]
    by_cases hk : k = x
    · simp [hk, hx]
    · simp [hk]
  unfold discovered
  rw [hname, hcomputers, hswap]
  refine OrderedMap.size_insert _ x true ?_
  rw [OrderedMap.Has, OrderedMap.find?_erase, if_neg hx]
  exact hnew

theorem discovered_insert_self {d d' : Daemon} (hname : d'.fServerName = d.fServerName)
    (hcomputers : d'.fComputers = d.fComputers.insert d.fServerName true) :
    discovered d' = discovered d := by
  have hswap : (d.fComputers.insert d.fServerName true).erase d.fServerName =
      d.fComputers.erase d.fServerName := by
    refine OrderedMap.ext_find? _ _ (fun k => ?_)
    simp only [OrderedMap.find?_erase, OrderedMap.find?_insert]
    split_ifs <;> rfl
  unfold discovered
  rw [hname, hcomputers, hswap]

theorem Delivered.bound (h : Delivered m m' index t x) (hm : Converging c m) :
    ∀ s ∈ m'.started, m'.broadcasts s ≤ 1 + discovered (m'.daemon s) := by
  intro s hs
  rw [h.started] at hs
  have hold := hm.bound s hs
  by_cases hst : s = t
  · subst hst
    rcases h.effect with ⟨-, hcomputers, -, hsent⟩ | ⟨hnew, hcomputers, hcase⟩
    · have hsame : discovered (m'.daemon s) = discovered (m.daemon s) := by
        unfold discovered
        rw [h.name, hcomputers]
      rw [hsent, hsame]
      exact hold
    · rcases hcase with ⟨hself, -, hsent⟩ | ⟨hother, -, hsent⟩
      · rw [hself] at hcomputers
        have hsame := discovered_insert_self h.name (by rw [hm.name s]; exact hcomputers)
        rw [hsent, hsame]
        exact hold
      · have hmore := discovered_insert h.name hcomputers hnew (by rw [hm.name s]; exact hother)
        rw [hsent, hmore]
        simp only [Function.update_self]
        omega
  · have hsent : m'.broadcasts s = m.broadcasts s := by
      rcases h.effect with ⟨-, -, -, hsent⟩ | ⟨-, -, ⟨-, -, hsent⟩ | ⟨-, -, hsent⟩⟩
      · rw [hsent]
      · rw [hsent]
      · rw [hsent, Function.update_of_ne hst]
    rw [hsent, h.others s hst]
    exact hold

theorem Delivered.target_started (h : Delivered m m' index t x) (hm : Converging c m) :
    t ∈ m.started ∧ x ∈ m.started := by
  obtain ⟨ht, y, hy, heq⟩ := hm.flight _ (List.mem_of_getElem? h.found)
  simp only [broadcast, Message.mk.injEq, Command.lockReady.injEq, true_and] at heq
  exact ⟨ht, heq ▸ hy⟩

theorem Delivered.converging (h : Delivered m m' index t x) (hm : Converging c m) :
    Converging c m' where
  nodup := by
    rw [h.started]
    exact hm.nodup
  member := by
    rw [h.started]
    exact hm.member
  name := by
    intro s
    by_cases hs : s = t
    · rw [hs, h.name]
      exact hm.name t
    · rw [h.others s hs]
      exact hm.name s
  known := by
    intro s y b hfind
    rw [h.started]
    by_cases hs : s = t
    · subst hs
      rcases h.effect with ⟨-, hcomputers, -⟩ | ⟨-, hcomputers, -⟩
      · rw [hcomputers] at hfind
        exact hm.known s y b hfind
      · rw [hcomputers, OrderedMap.find?_insert] at hfind
        split_ifs at hfind with hy
        · cases hfind
          exact ⟨rfl, hy ▸ (h.target_started hm).2⟩
        · exact hm.known s y b hfind
    · rw [h.others s hs] at hfind
      exact hm.known s y b hfind
  flight := by
    rw [h.started]
    have herase : ∀ e ∈ m.inFlight.eraseIdx index, e.1 ∈ m.started ∧
        ∃ y ∈ m.started, e.2 = broadcast (.lockReady y) :=
      fun e he => hm.flight e (List.mem_of_mem_eraseIdx he)
    rcases h.effect with ⟨-, -, hflight, -⟩ | ⟨-, -, ⟨-, hflight, -⟩ | ⟨-, hflight, -⟩⟩
    · rw [hflight]
      exact herase
    · rw [hflight]
      exact herase
    · rw [hflight]
      intro e he
      rcases List.mem_append.mp he with he | he
      · exact herase e he
      · obtain ⟨s, hs, rfl⟩ := List.mem_map.mp he
        exact ⟨hs, t, (h.target_started hm).1, rfl⟩
  silent := by
    intro s hs
    rw [h.started] at hs
    have hst : s ≠ t := fun heq => hs (heq ▸ (h.target_started hm).1)
    obtain ⟨hnone, hempty⟩ := hm.silent s hs
    refine ⟨?_, by rw [h.others s hst]; exact hempty⟩
    rcases h.effect with ⟨-, -, -, hsent⟩ | ⟨-, -, ⟨-, -, hsent⟩ | ⟨-, -, hsent⟩⟩
    · rw [hsent, hnone]
    · rw [hsent, hnone]
    · rw [hsent, Function.update_of_ne hst, hnone]
  bound := h.bound hm
  meets := h.meets hm

end Deliver

section Start

variable {c : Cluster} {m : Mesh} {server : QString}

theorem start_daemon (m : Mesh) (server s : QString) :
    ((m.start server).daemon s).fServerName = (m.daemon s).fServerName ∧
      ((m.start server).daemon s).fComputers = (m.daemon s).fComputers := by
  by_cases hs : s = server
  · subst hs
    simp [Mesh.start, Mesh.send, Daemon.sendLockReady, Daemon.post]
  · simp [Mesh.start, Mesh.send, hs]

theorem start_inFlight (hm : Converging c m) (server : QString) :
    (m.start server).inFlight = m.inFlight ++
      (server :: m.started).map (fun t => (t, broadcast (.lockReady server))) := by
  simp [Mesh.start, Mesh.send, Daemon.sendLockReady, Daemon.post, hm.name server]

theorem start_broadcasts (m : Mesh) (server : QString) : (m.start server).broadcasts =
    Function.update m.broadcasts server (m.broadcasts server + 1) := by
  simp [Mesh.start, Mesh.send, Daemon.sendLockReady, Daemon.post]

/-- The old daemons hear of the new one first and will answer it. -/
theorem start_converging (hm : Converging c m) (hserver : server ∈ c.servers)
    (hnew : server ∉ m.started) : Converging c (m.start server) where
  nodup := List.nodup_cons.mpr ⟨hnew, hm.nodup⟩
  member := List.forall_mem_cons.mpr ⟨hserver, hm.member⟩
  name := fun s => (start_daemon m server s).1.trans (hm.name s)
  known := by
    intro s x b hfind
    rw [(start_daemon m server s).2] at hfind
    obtain ⟨hb, hx⟩ := hm.known s x b hfind
    exact ⟨hb, List.mem_cons_of_mem _ hx⟩
  flight := by
    rw [start_inFlight hm]
    intro e he
    rcases List.mem_append.mp he with he | he
    · obtain ⟨ht, x, hx, heq⟩ := hm.flight e he
      exact ⟨List.mem_cons_of_mem _ ht, x, List.mem_cons_of_mem _ hx, heq⟩
    · obtain ⟨t, ht, rfl⟩ := List.mem_map.mp he
      exact ⟨ht, server, List.mem_cons_self .., rfl⟩
  silent := by
    intro s hs
    have hne : s ≠ server := fun heq => hs (heq ▸ List.mem_cons_self ..)
    have hold : s ∉ m.started := fun hmem => hs (List.mem_cons_of_mem _ hmem)
    obtain ⟨hnone, hempty⟩ := hm.silent s hold
    rw [start_broadcasts, Function.update_of_ne hne, (start_daemon m server s).2]
    exact ⟨hnone, hempty⟩
  bound := by
    intro s hs
    have hsame : discovered ((m.start server).daemon s) = discovered (m.daemon s) := by
      unfold discovered
      rw [(start_daemon m server s).1, (start_daemon m server s).2]
    rw [hsame, start_broadcasts]
    by_cases hss : s = server
    · subst hss
      rw [Function.update_self, (hm.silent s hnew).1]
      omega
    · have hold : s ∈ m.started := by
        rcases List.mem_cons.mp hs with heq | hold
        · exact absurd heq hss
        · exact hold
      rw [Function.update_of_ne hss]
      exact hm.bound s hold
  meets := by
    have hcoming : ∀ t ∈ server :: m.started, (m.start server).Coming t server := by
      intro t ht
      rw [Mesh.Coming, start_inFlight hm]
      exact List.mem_append_right _ (List.mem_map.mpr ⟨t, ht, rfl⟩)
    have hknows : ∀ a b, (m.start server).Knows a b ↔ m.Knows a b := by
      intro a b
      rw [Mesh.Knows, (start_daemon m server a).2, Mesh.Knows]
    have hunknown : ∀ a, ¬ m.Knows a server := by
      intro a hk
      obtain ⟨b, hb⟩ := Option.ne_none_iff_exists'.mp hk
      exact hnew (hm.known a server b hb).2
    intro s hs u hu
    by_cases hsn : s = server
    · rw [hsn]
      exact Or.inr (Or.inl (hcoming u hu))
    · by_cases hun : u = server
      · rw [hun]
        exact Or.inr (Or.inr ⟨fun hk => hunknown s ((hknows s server).mp hk), hcoming s hs⟩)
      · have hs' : s ∈ m.started := (List.mem_cons.mp hs).resolve_left hsn
        have hu' : u ∈ m.started := (List.mem_cons.mp hu).resolve_left hun
        have hkept : ∀ a b, m.Coming a b → (m.start server).Coming a b := by
          intro a b hc
          rw [Mesh.Coming, start_inFlight hm]
          exact List.mem_append_left _ hc
        rcases hm.meets s hs' u hu' with hk | hc | ⟨hk, hc⟩
        · exact Or.inl ((hknows u s).mpr hk)
        · exact Or.inr (Or.inl (hkept u s hc))
        · exact Or.inr (Or.inr ⟨fun hk' => hk ((hknows s u).mp hk'), hkept s u hc⟩)

end Start

theorem step_converging {c : Cluster} {m : Mesh} (hm : Converging c m) (a : MeshAction) :
    Converging c (m.step c a) := by
  cases a with
  | start server =>
    simp only [Mesh.step]
    split_ifs with h
    · exact start_converging hm h.1 h.2
    · exact hm
  | deliver index =>
    rcases deliver_cases hm index with hsame | ⟨t, x, h⟩
    · rw [Mesh.step, hsame]
      exact hm
    · exact h.converging hm

theorem run_converging (c : Cluster) (actions : List MeshAction) :
    Converging c (Mesh.initial.run c actions) := by
  unfold Mesh.run
  refine List.foldlRecOn actions _ ?_ (fun m hm a _ => step_converging hm a)
  exact ⟨List.nodup_nil, by simp [Mesh.initial], fun _ => rfl, by simp [Mesh.initial],
    by simp [Mesh.initial], fun _ _ => ⟨rfl, rfl⟩, by simp [Mesh.initial], by simp [Mesh.initial]⟩

section Quiet

variable {c : Cluster} {m : Mesh} {s : QString}

theorem Converging.has_iff (hm : Converging c m) (hquiet : m.inFlight = []) (hs : s ∈ m.started)
    (x : QString) : (m.daemon s).fComputers.Has x ↔ x ∈ m.started := by
  constructor
  · intro hk
    obtain ⟨b, hb⟩ := Option.ne_none_iff_exists'.mp hk
    exact (hm.known s x b hb).2
  · intro hx
    have hnone : ∀ a b, ¬ m.Coming a b := by
      intro a b hc
      rw [Mesh.Coming, hquiet] at hc
      cases hc
    rcases hm.meets x hx s hs with hk | hc | ⟨-, hc⟩
    · exact hk
    · exact absurd hc (hnone s x)
    · exact absurd hc (hnone x s)

theorem Converging.size (hm : Converging c m) (hquiet : m.inFlight = []) (hs : s ∈ m.started) :
    (m.daemon s).fComputers.size = m.started.length := by
  rw [OrderedMap.size_eq_length_keys]
  refine List.Perm.length_eq ((List.perm_ext_iff_of_nodup (OrderedMap.keys_nodup _)
    hm.nodup).mpr (fun x => ?_))
  rw [← OrderedMap.has_iff_mem_keys]
  exact hm.has_iff hquiet hs x

theorem Converging.same (hm : Converging c m) (hquiet : m.inFlight = []) {t : QString}
    (hs : s ∈ m.started) (ht : t ∈ m.started) :
    (m.daemon s).fComputers = (m.daemon t).fComputers := by
  refine OrderedMap.ext_find? _ _ (fun x => ?_)
  by_cases hx : x ∈ m.started
  · obtain ⟨b, hb⟩ := Option.ne_none_iff_exists'.mp ((hm.has_iff hquiet hs x).mpr hx)
    obtain ⟨b', hb'⟩ := Option.ne_none_iff_exists'.mp ((hm.has_iff hquiet ht x).mpr hx)
    rw [hb, hb', (hm.known s x b hb).1, (hm.known t x b' hb').1]
  · rw [not_not.mp (fun h => hx ((hm.has_iff hquiet hs x).mp h)),
      not_not.mp (fun h => hx ((hm.has_iff hquiet ht x).mp h))]

theorem Converging.broadcasts_le (hm : Converging c m) (s : QString) :
    m.broadcasts s ≤ 1 + discovered (m.daemon s) ∧ m.broadcasts s ≤ c.servers.length := by
  by_cases hs : s ∈ m.started
  · refine ⟨hm.bound s hs, (hm.bound s hs).trans ?_⟩
    have hsub : s :: ((m.daemon s).fComputers.erase (m.daemon s).fServerName).keys ⊆
        c.servers := by
      intro x hx
      rcases List.mem_cons.mp hx with rfl | hx
      · exact hm.member x hs
      · have hhas := (OrderedMap.has_iff_mem_keys _ x).mpr hx
        obtain ⟨b, hb⟩ := Option.ne_none_iff_exists'.mp hhas
        rw [OrderedMap.find?_erase] at hb
        split_ifs at hb
        exact hm.member x (hm.known s x b hb).2
    have hnodup : (s :: ((m.daemon s).fComputers.erase (m.daemon s).fServerName).keys).Nodup := by
      refine List.nodup_cons.mpr ⟨?_, OrderedMap.keys_nodup _⟩
      rw [← OrderedMap.has_iff_mem_keys, OrderedMap.Has, OrderedMap.find?_erase, hm.name s,
        if_pos rfl]
      simp
    have hlength := (List.subperm_of_subset hnodup hsub).length_le
    rw [List.length_cons, ← OrderedMap.size_eq_length_keys] at hlength
    unfold discovered
    omega
  · rw [(hm.silent s hs).1]
    exact ⟨Nat.zero_le _, Nat.zero_le _⟩

end Quiet

/-- Whatever the order of starts and deliveries, a daemon broadcasts LOCKREADY
at most once when it starts and once for each other server it discovers, and
when nothing is in flight all started daemons know exactly the started ones. -/
theorem membership_converges (c : Cluster) (actions : List MeshAction) :
    let m := Mesh.initial.run c actions
    (∀ s, m.broadcasts s ≤ 1 + discovered (m.daemon s) ∧ m.broadcasts s ≤ c.servers.length) ∧
    (m.inFlight = [] → ∀ s ∈ m.started,
      (∀ x, (m.daemon s).fComputers.Has x ↔ x ∈ m.started) ∧
      (m.daemon s).quorum = m.started.length / 2 + 1 ∧
      ∀ t ∈ m.started, (m.daemon s).fComputers = (m.daemon t).fComputers ∧
        (m.daemon s).quorum = (m.daemon t).quorum) := by
  intro m
  have hm : Converging c m := run_converging c actions
  refine ⟨hm.broadcasts_le, fun hquiet s hs => ⟨hm.has_iff hquiet hs, ?_, fun t ht => ?_⟩⟩
  · rw [Daemon.quorum, hm.size hquiet hs]
  · have hsame := hm.same hquiet hs ht
    exact ⟨hsame, by rw [Daemon.quorum, Daemon.quorum, hsame]⟩

/-- Two daemons, the second one started when the first one is settled. -/
def laterStart : List MeshAction :=
  [.start [97], .deliver 0, .start [98]] ++ List.replicate 6 (.deliver 0)

theorem membership_converges_pair :
    (Mesh.initial.run pair laterStart).inFlight = [] ∧
    (Mesh.initial.run pair laterStart).broadcasts [97] = 2 ∧
    ((Mesh.initial.run pair laterStart).daemon [97]).quorum = 2 ∧
    ((Mesh.initial.run pair laterStart).daemon [97]).fComputers =
      ((Mesh.initial.run pair laterStart).daemon [98]).fComputers :=
  ⟨by decide, by decide, by decide,
    (((membership_converges pair laterStart).2 (by decide) [97] (by decide)).2.2
      [98] (by decide)).1⟩

end SnapCpp.LockMembership
