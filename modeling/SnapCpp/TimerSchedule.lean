import SnapCpp.Ensures
import SnapCpp.Runs

/-!
The timeouts of connections. A delay makes a schedule of dates, and the loop of
`snap_communicator::run()` triggers a timeout when the date that was saved before `poll()` has
come; it then moves the date of the schedule past the current time. A date that is set on its own
goes before the schedule and triggers once. Dates are in microseconds, and no sum of them
overflows.
-/
namespace SnapCpp.TimerSchedule

/-- The members of `snap_connection` for timeouts; -1 is for none. -/
structure Timer where
  fTimeoutDelay : ℤ
  fTimeoutNextDate : ℤ
  fTimeoutDate : ℤ
  fSavedTimeoutStamp : ℤ
deriving DecidableEq

inductive Error where
  | delayTooSmall
  | dateTooSmall
deriving DecidableEq

/-- `set_timeout_delay()` at a date. -/
def setTimeoutDelay (now timeoutUs : ℤ) (c : Timer) : Except Error Timer :=
  if timeoutUs ≠ -1 ∧ timeoutUs < 10 then .error .delayTooSmall
  else .ok { c with fTimeoutDelay := timeoutUs, fTimeoutNextDate := now + timeoutUs }

/-- `calculate_next_tick()` at a date. -/
def calculateNextTick (now : ℤ) (c : Timer) : Timer :=
  if c.fTimeoutDelay = -1 then c
  else
    let gap := now - c.fTimeoutNextDate
    if gap < 0 then c
    else
      let ticks := (gap + c.fTimeoutDelay - 1).tdiv c.fTimeoutDelay
      { c with fTimeoutNextDate := c.fTimeoutNextDate + ticks * c.fTimeoutDelay }

def setTimeoutDate (dateUs : ℤ) (c : Timer) : Except Error Timer :=
  if dateUs < -1 then .error .dateTooSmall else .ok { c with fTimeoutDate := dateUs }

def getTimeoutTimestamp (c : Timer) : ℤ :=
  if c.fTimeoutDate ≠ -1 then c.fTimeoutDate
  else if c.fTimeoutDelay ≠ -1 then c.fTimeoutNextDate
  else -1

def saveTimeoutTimestamp (c : Timer) : Timer :=
  { c with fSavedTimeoutStamp := getTimeoutTimestamp c }

/-- A connection while passes of `run()` go over it. The saved timestamp is `pending` until it is
checked, and `scheduled` when it is the date of the schedule. The scheduled dates that triggered
a timeout are kept, and the calls of `calculate_next_tick()` with the next dates before and after
them. -/
structure World where
  timer : Timer
  clock : ℤ
  pending : Bool
  scheduled : Bool
  fired : List ℤ
  ticks : List (ℤ × ℤ × ℤ)

inductive Action where
  /-- The first loop of a pass over the connections. -/
  | save (enabled : Bool)
  /-- A callback of any connection sets a date. -/
  | date (dateUs : ℤ)
  /-- The check of the second loop, and the date that `calculate_next_tick()` reads. -/
  | check (now tickNow : ℤ)
deriving DecidableEq

def isDue (now : ℤ) (c : Timer) : Bool := c.fSavedTimeoutStamp ≠ -1 ∧ c.fSavedTimeoutStamp ≤ now

/-- What the check does to a connection that is due, up to the callback. -/
def timeOut (now tickNow : ℤ) (c : Timer) : Timer :=
  let c := calculateNextTick tickNow c
  if c.fTimeoutDate ≤ now then { c with fTimeoutDate := -1 } else c

def step (w : World) : Action → Except Error World
  | .save enabled =>
      if enabled then
        .ok { w with
          timer := saveTimeoutTimestamp w.timer
          pending := true
          scheduled := w.timer.fTimeoutDate = -1 ∧ w.timer.fTimeoutDelay ≠ -1 }
      else .ok { w with pending := false }
  | .date dateUs => (setTimeoutDate dateUs w.timer).map fun c => { w with timer := c }
  | .check now tickNow =>
      if isDue now w.timer then
        let c := timeOut now tickNow w.timer
        .ok { w with
          timer := c
          clock := tickNow
          pending := false
          fired := if w.scheduled then w.fired ++ [w.timer.fSavedTimeoutStamp] else w.fired
          ticks := w.ticks ++ [(tickNow, w.timer.fTimeoutNextDate, c.fTimeoutNextDate)] }
      else .ok { w with clock := now, pending := false }

/-- A timestamp is saved at the start of a pass and checked once, and the clock does not go
back. -/
def Allowed (w : World) : Action → Prop
  | .save _ => w.pending = false
  | .date _ => True
  | .check now tickNow => w.pending = true ∧ w.clock ≤ now ∧ now ≤ tickNow

instance (w : World) (a : Action) : Decidable (Allowed w a) := by
  cases a <;> unfold Allowed <;> infer_instance

/-- `calculate_next_tick()` is not called at a date of the schedule. -/
def OffSchedule (w : World) : Action → Prop
  | .check now tickNow => isDue now w.timer = true → w.timer.fTimeoutNextDate ≤ tickNow →
      ¬ w.timer.fTimeoutDelay ∣ tickNow - w.timer.fTimeoutNextDate
  | _ => True

instance (w : World) (a : Action) : Decidable (OffSchedule w a) := by
  cases a <;> unfold OffSchedule <;> infer_instance

def Step (w : World) (a : Action) (w' : World) : Prop := Allowed w a ∧ step w a = .ok w'

section Tick

variable {c : Timer} {now : ℤ}

/-- The date is moved past the current time, or to it when this is a date of the schedule. -/
theorem calculateNextTick_spec (now : ℤ) (hd : 10 ≤ c.fTimeoutDelay) :
    (∃ ticks, 0 ≤ ticks ∧ (calculateNextTick now c).fTimeoutNextDate =
      c.fTimeoutNextDate + ticks * c.fTimeoutDelay) ∧
    (c.fTimeoutNextDate ≤ now →
      now ≤ (calculateNextTick now c).fTimeoutNextDate ∧
      (calculateNextTick now c).fTimeoutNextDate < now + c.fTimeoutDelay) := by
  rw [calculateNextTick, if_neg (by omega)]
  simp only
  split_ifs with hgap
  · exact ⟨⟨0, by omega, by omega⟩, fun hle => absurd hgap (by omega)⟩
  · have hnonneg : 0 ≤ now - c.fTimeoutNextDate + c.fTimeoutDelay - 1 := by omega
    rw [Int.tdiv_eq_ediv_of_nonneg hnonneg]
    have hdiv := Int.mul_ediv_add_emod (now - c.fTimeoutNextDate + c.fTimeoutDelay - 1)
      c.fTimeoutDelay
    have hmod := Int.emod_nonneg (now - c.fTimeoutNextDate + c.fTimeoutDelay - 1)
      (show c.fTimeoutDelay ≠ 0 by omega)
    have hlt := Int.emod_lt_of_pos (now - c.fTimeoutNextDate + c.fTimeoutDelay - 1)
      (show 0 < c.fTimeoutDelay by omega)
    refine ⟨⟨_, Int.ediv_nonneg hnonneg (by omega), rfl⟩, fun _ => ?_⟩
    simp only
    rw [Int.mul_comm _ c.fTimeoutDelay]
    constructor <;> omega

/-- The date that is left is in the future unless the call was made at a date of the
schedule. -/
theorem next_in_future_iff (hd : 10 ≤ c.fTimeoutDelay) (h : c.fTimeoutNextDate ≤ now) :
    (now < (calculateNextTick now c).fTimeoutNextDate ∧
      (calculateNextTick now c).fTimeoutNextDate ≤ now + c.fTimeoutDelay) ↔
    ¬ c.fTimeoutDelay ∣ now - c.fTimeoutNextDate := by
  obtain ⟨⟨ticks, _, hticks⟩, hbounds⟩ := calculateNextTick_spec now hd
  obtain ⟨hle, hlt⟩ := hbounds h
  constructor
  · rintro ⟨hfuture, -⟩ ⟨k, hk⟩
    -- the two dates are multiples of the delay apart, by less than one delay
    have hgap : (calculateNextTick now c).fTimeoutNextDate - now =
        (ticks - k) * c.fTimeoutDelay := by
      rw [hticks, Int.sub_mul, Int.mul_comm k]
      omega
    have hpos : 0 < (ticks - k) * c.fTimeoutDelay := by omega
    have hone : 1 ≤ ticks - k := by
      by_contra hnot
      have hnonpos := Int.mul_nonpos_of_nonpos_of_nonneg (show ticks - k ≤ 0 by omega)
        (show 0 ≤ c.fTimeoutDelay by omega)
      omega
    have hge := Int.mul_le_mul_of_nonneg_right hone (show 0 ≤ c.fTimeoutDelay by omega)
    omega
  · intro hnot
    refine ⟨lt_of_le_of_ne hle fun heq => hnot ⟨ticks, ?_⟩, by omega⟩
    rw [heq, hticks, Int.mul_comm]
    omega

end Tick

section Runs

/-- A connection whose delay was just set, in a pass or between two passes. -/
def start (c : Timer) (clock : ℤ) (pending : Bool) : World := ⟨c, clock, pending, false, [], []⟩

/-- A call of `calculate_next_tick()` went well: the date did not go back, and it is in the future
where it had come. -/
def WellTicked (d : ℤ) (tick : ℤ × ℤ × ℤ) : Prop :=
  tick.2.1 ≤ tick.2.2 ∧ (tick.2.1 ≤ tick.1 → tick.1 < tick.2.2 ∧ tick.2.2 ≤ tick.1 + d)

structure Inv (t₀ d : ℤ) (w : World) : Prop where
  delay : w.timer.fTimeoutDelay = d
  date : ∃ k : ℤ, 1 ≤ k ∧ w.timer.fTimeoutNextDate = t₀ + k * d
  saved : w.pending = true → w.scheduled = true →
    w.timer.fSavedTimeoutStamp = w.timer.fTimeoutNextDate
  behind : ∀ f ∈ w.fired, f < w.timer.fTimeoutNextDate
  nodup : w.fired.Nodup
  ticks : ∀ tick ∈ w.ticks, WellTicked d tick

variable {t₀ d : ℤ} {w w' : World} {a : Action}

theorem inv_start {c c' : Timer} (hd : 10 ≤ d) (h : setTimeoutDelay t₀ d c = .ok c')
    (pending : Bool) : Inv t₀ d (start c' t₀ pending) := by
  rw [setTimeoutDelay, if_neg (by omega)] at h
  obtain rfl := Except.ok.inj h
  refine ⟨rfl, ⟨1, by omega, by simp [start]⟩, ?_, ?_, List.nodup_nil, ?_⟩
  · intro _ hscheduled
    cases hscheduled
  · intro f hf
    cases hf
  · intro tick htick
    cases htick

@[simp] theorem calculateNextTick_delay (now : ℤ) (c : Timer) :
    (calculateNextTick now c).fTimeoutDelay = c.fTimeoutDelay := by
  unfold calculateNextTick
  simp only
  split_ifs <;> rfl

@[simp] theorem timeOut_delay (now tickNow : ℤ) (c : Timer) :
    (timeOut now tickNow c).fTimeoutDelay = c.fTimeoutDelay := by
  rw [← calculateNextTick_delay tickNow c]
  unfold timeOut
  simp only
  split_ifs <;> rfl

@[simp] theorem timeOut_nextDate (now tickNow : ℤ) (c : Timer) :
    (timeOut now tickNow c).fTimeoutNextDate = (calculateNextTick tickNow c).fTimeoutNextDate := by
  unfold timeOut
  simp only
  split_ifs <;> rfl

theorem setTimeoutDate_ok {dateUs : ℤ} {c c' : Timer} (h : setTimeoutDate dateUs c = .ok c') :
    c' = { c with fTimeoutDate := dateUs } := by
  rw [setTimeoutDate] at h
  split_ifs at h
  exact (Except.ok.inj h).symm

theorem inv_check (hd : 10 ≤ d) (hw : Inv t₀ d w) {now tickNow : ℤ}
    (hallowed : Allowed w (.check now tickNow)) (hoff : OffSchedule w (.check now tickNow))
    (h : step w (.check now tickNow) = .ok w') : Inv t₀ d w' := by
  obtain ⟨hpending, _, hle⟩ := hallowed
  have hdelay : 10 ≤ w.timer.fTimeoutDelay := by
    rw [hw.delay]
    exact hd
  rw [step] at h
  by_cases hdue : isDue now w.timer = true
  · rw [if_pos hdue] at h
    obtain rfl := Except.ok.inj h
    obtain ⟨⟨ticks, hnonneg, hticks⟩, _⟩ := calculateNextTick_spec tickNow hdelay
    have hfuture : w.timer.fTimeoutNextDate ≤ tickNow →
        tickNow < (calculateNextTick tickNow w.timer).fTimeoutNextDate ∧
          (calculateNextTick tickNow w.timer).fTimeoutNextDate ≤ tickNow + d := by
      intro hcome
      rw [← hw.delay]
      exact (next_in_future_iff hdelay hcome).mpr (hoff hdue hcome)
    have hmono : w.timer.fTimeoutNextDate ≤
        (calculateNextTick tickNow w.timer).fTimeoutNextDate := by
      have hprod := Int.mul_nonneg hnonneg (show 0 ≤ w.timer.fTimeoutDelay by omega)
      omega
    -- a scheduled date that triggers is the next date, which has come
    have hfired : w.scheduled = true → w.timer.fSavedTimeoutStamp = w.timer.fTimeoutNextDate ∧
        w.timer.fTimeoutNextDate < (calculateNextTick tickNow w.timer).fTimeoutNextDate := by
      intro hscheduled
      have hsaved := hw.saved hpending hscheduled
      have hcome : w.timer.fSavedTimeoutStamp ≤ now := by
        have hboth : w.timer.fSavedTimeoutStamp ≠ -1 ∧ w.timer.fSavedTimeoutStamp ≤ now := by
          simpa [isDue] using hdue
        exact hboth.2
      have hlater := hfuture (by omega)
      exact ⟨hsaved, by omega⟩
    refine ⟨by simp [hw.delay], ?_, ?_, ?_, ?_, ?_⟩
    · obtain ⟨k, hk, hdate⟩ := hw.date
      refine ⟨k + ticks, by omega, ?_⟩
      simp only [timeOut_nextDate]
      rw [hticks, hdate, hw.delay, Int.add_mul]
      omega
    · intro hfalse
      cases hfalse
    · simp only [timeOut_nextDate]
      have hbehind : ∀ f ∈ w.fired,
          f < (calculateNextTick tickNow w.timer).fTimeoutNextDate := fun f hf =>
        lt_of_lt_of_le (hw.behind f hf) hmono
      split_ifs with hscheduled
      · obtain ⟨hsaved, hlt⟩ := hfired hscheduled
        rw [List.forall_mem_append, List.forall_mem_singleton, hsaved]
        exact ⟨hbehind, hlt⟩
      · exact hbehind
    · split_ifs with hscheduled
      · obtain ⟨hsaved, _⟩ := hfired hscheduled
        refine List.nodup_append.mpr ⟨hw.nodup, List.nodup_singleton _, ?_⟩
        intro f hf g hg
        obtain rfl := List.mem_singleton.mp hg
        have hlt := hw.behind f hf
        omega
      · exact hw.nodup
    · rw [List.forall_mem_append, List.forall_mem_singleton]
      refine ⟨hw.ticks, ?_, ?_⟩
      · simpa using hmono
      · simpa using hfuture
  · rw [if_neg hdue] at h
    obtain rfl := Except.ok.inj h
    exact ⟨hw.delay, hw.date, fun hfalse => (by cases hfalse), hw.behind, hw.nodup, hw.ticks⟩

theorem inv_step (hd : 10 ≤ d) (hw : Inv t₀ d w) (h : Step w a w') (hoff : OffSchedule w a) :
    Inv t₀ d w' := by
  obtain ⟨hallowed, hstep⟩ := h
  cases a with
  | save enabled =>
    rw [step] at hstep
    split_ifs at hstep
    · obtain rfl := Except.ok.inj hstep
      refine ⟨hw.delay, hw.date, ?_, hw.behind, hw.nodup, hw.ticks⟩
      intro _ hscheduled
      have hnone : w.timer.fTimeoutDate = -1 ∧ w.timer.fTimeoutDelay ≠ -1 := by
        simpa using hscheduled
      simp [saveTimeoutTimestamp, getTimeoutTimestamp, hnone]
    · obtain rfl := Except.ok.inj hstep
      exact ⟨hw.delay, hw.date, fun hfalse => (by cases hfalse), hw.behind, hw.nodup, hw.ticks⟩
  | date dateUs =>
    rw [step] at hstep
    obtain ⟨c, hset, hstep⟩ := bind_eq_ok hstep
    obtain rfl := Except.ok.inj hstep
    rw [setTimeoutDate_ok hset]
    exact ⟨hw.delay, hw.date, hw.saved, hw.behind, hw.nodup, hw.ticks⟩
  | check now tickNow => exact inv_check hd hw hallowed hoff hstep

theorem nextDate_le_step (hd : 10 ≤ w.timer.fTimeoutDelay) (h : Step w a w') :
    w.timer.fTimeoutNextDate ≤ w'.timer.fTimeoutNextDate := by
  obtain ⟨_, hstep⟩ := h
  cases a with
  | save enabled =>
    rw [step] at hstep
    split_ifs at hstep
    all_goals
      obtain rfl := Except.ok.inj hstep
      exact Int.le_refl _
  | date dateUs =>
    rw [step] at hstep
    obtain ⟨c, hset, hstep⟩ := bind_eq_ok hstep
    obtain rfl := Except.ok.inj hstep
    rw [setTimeoutDate_ok hset]
  | check now tickNow =>
    rw [step] at hstep
    by_cases hdue : isDue now w.timer = true
    · rw [if_pos hdue] at hstep
      obtain rfl := Except.ok.inj hstep
      obtain ⟨⟨ticks, hnonneg, hticks⟩, _⟩ := calculateNextTick_spec tickNow hd
      have hprod := Int.mul_nonneg hnonneg (show 0 ≤ w.timer.fTimeoutDelay by omega)
      simp only [timeOut_nextDate]
      omega
    · rw [if_neg hdue] at hstep
      obtain rfl := Except.ok.inj hstep
      exact Int.le_refl _

def CalmStep (w : World) (a : Action) (w' : World) : Prop := Step w a w' ∧ OffSchedule w a

/-- In a run that does not tick at a date of the schedule, the next date stays on the schedule and
does not go back, every tick leaves it in the future, and no date triggers twice. -/
theorem schedule_of_calm {c c' : Timer} (hd : 10 ≤ d) (hset : setTimeoutDelay t₀ d c = .ok c')
    {pending : Bool} {first later : List Action} {w₁ w₂ : World}
    (h₁ : Runs CalmStep (start c' t₀ pending) first w₁) (h₂ : Runs CalmStep w₁ later w₂) :
    (∃ k : ℤ, 1 ≤ k ∧ w₁.timer.fTimeoutNextDate = t₀ + k * d) ∧
      w₁.timer.fTimeoutNextDate ≤ w₂.timer.fTimeoutNextDate ∧
      (∀ tick ∈ w₁.ticks, WellTicked d tick) ∧ w₁.fired.Nodup := by
  have hinv : Inv t₀ d w₁ := by
    refine h₁.invariant (Inv t₀ d) (inv_start hd hset pending) ?_
    rintro a l b ha ⟨hstep, hoff⟩
    exact inv_step hd ha hstep hoff
  have hlater : Inv t₀ d w₂ ∧ w₁.timer.fTimeoutNextDate ≤ w₂.timer.fTimeoutNextDate := by
    refine h₂.invariant (fun w => Inv t₀ d w ∧ w₁.timer.fTimeoutNextDate ≤
      w.timer.fTimeoutNextDate) ⟨hinv, Int.le_refl _⟩ ?_
    rintro a l b ⟨ha, hle⟩ ⟨hstep, hoff⟩
    have hdelay : 10 ≤ a.timer.fTimeoutDelay := by
      rw [ha.delay]
      exact hd
    exact ⟨inv_step hd ha hstep hoff, Int.le_trans hle (nextDate_le_step hdelay hstep)⟩
  exact ⟨hinv.date, hlater.2, hinv.ticks, hinv.nodup⟩

def tenTimer : Timer := ⟨10, 10, -1, -1⟩

theorem setTimeoutDelay_ten : setTimeoutDelay 0 10 ⟨-1, 0, -1, -1⟩ = .ok tenTimer := rfl

theorem schedule_of_calm_ten :
    ∃ w₁ w₂ : World, w₁.fired = [10] ∧ w₂.fired = [10, 20] ∧
      (∃ k : ℤ, 1 ≤ k ∧ w₁.timer.fTimeoutNextDate = 0 + k * 10) ∧
      w₁.timer.fTimeoutNextDate ≤ w₂.timer.fTimeoutNextDate ∧
      (∀ tick ∈ w₁.ticks, WellTicked 10 tick) ∧ w₁.fired.Nodup := by
  have h₁ : Runs CalmStep (start tenTimer 0 false) [.save true, .check 13 14]
      ⟨⟨10, 20, -1, 10⟩, 14, false, true, [10], [(14, 10, 20)]⟩ :=
    Runs.cons ⟨⟨by decide, rfl⟩, by decide⟩
      (Runs.cons ⟨⟨by decide, rfl⟩, by decide⟩ (Runs.nil _))
  have h₂ : Runs CalmStep ⟨⟨10, 20, -1, 10⟩, 14, false, true, [10], [(14, 10, 20)]⟩
      [.save true, .check 25 25]
      ⟨⟨10, 30, -1, 20⟩, 25, false, true, [10, 20], [(14, 10, 20), (25, 20, 30)]⟩ :=
    Runs.cons ⟨⟨by decide, rfl⟩, by decide⟩
      (Runs.cons ⟨⟨by decide, rfl⟩, by decide⟩ (Runs.nil _))
  exact ⟨_, _, rfl, rfl, schedule_of_calm (by decide) setTimeoutDelay_ten h₁ h₂⟩

/-- A tick at the date itself leaves the date where it is, and it triggers again. -/
theorem tick_on_schedule : ¬ ∀ (t₀ d : ℤ) (c c' : Timer) (pending : Bool) (actions : List Action)
    (w : World), 10 ≤ d → setTimeoutDelay t₀ d c = .ok c' →
    Runs Step (start c' t₀ pending) actions w →
    (∀ tick ∈ w.ticks, WellTicked d tick) ∧ w.fired.Nodup := by
  intro h
  have hrun : Runs Step (start tenTimer 0 false)
      [.save true, .check 10 10, .save true, .check 10 10]
      ⟨⟨10, 10, -1, 10⟩, 10, false, true, [10, 10], [(10, 10, 10), (10, 10, 10)]⟩ :=
    Runs.cons ⟨by decide, rfl⟩ (Runs.cons ⟨by decide, rfl⟩
      (Runs.cons ⟨by decide, rfl⟩ (Runs.cons ⟨by decide, rfl⟩ (Runs.nil _))))
  obtain ⟨_, hnodup⟩ := h 0 10 ⟨-1, 0, -1, -1⟩ tenTimer false _ _ (by decide) setTimeoutDelay_ten
    hrun
  revert hnodup
  decide

end Runs

end SnapCpp.TimerSchedule
