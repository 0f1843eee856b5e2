import HardenedMinix.Lib.Deadlines
import HardenedMinix.Libsys.Tmrs

/-!
# Watchdog timers

`set_timer`, `cancel_timer` and `expire_timers`, over the one alarm of the service in the clock of
the kernel. Watchdogs may set and cancel timers, so an expiry is a sequence of steps.
-/

namespace HardenedMinix.Watchdog

open Lib Tmrs

/-- A process with privileges; each has one `s_alarm_timer`. -/
abbrev PrivId := Nat

/-! ## The clock -/

structure Clk where
  realtime : Clock
  /-- `clock_timers`; the only watchdog is `cause_alarm` -/
  timers : Queue PrivId Unit
  nextTimeout : Clock

/-- `next_timeout` is set to the head of the queue. -/
def Clk.renew (c : Clk) : Clk :=
  { c with nextTimeout := if c.timers.timers = [] then tmrNever else c.timers.headTime }

/-- `set_timer` of the kernel. -/
def Clk.setTimer (c : Clk) (p : PrivId) (t : Clock) : Clk :=
  let c := { c with timers := (settimer c.timers p t ()).1 }
  { c with nextTimeout := c.timers.headTime }

def Clk.resetTimer (c : Clk) (p : PrivId) : Clk :=
  Clk.renew { c with timers := (clrtimer c.timers p).1 }

/-- `do_setalarm`, for an absolute time. -/
def Clk.setalarm (c : Clk) (p : PrivId) (t : Clock) : Clk :=
  if t = 0 then c.resetTimer p
  else
    Clk.setTimer { c with
      timers := { c.timers with expTime := Function.update c.timers.expTime p t } } p t

/-- `timer_int_handler`: whose alarms have gone off. -/
def Clk.tick (c : Clk) : List PrivId × Clk :=
  let c := { c with realtime := c.realtime + 1 }
  if c.nextTimeout ≤ c.realtime then
    let (expired, q) := exptimers c.realtime c.timers.func c.timers.timers c.timers.expTime
    (expired, Clk.renew { c with timers := q })
  else ([], c)

/-! ## The timers of a service -/

variable {ι ω : Type*} [DecidableEq ι]

structure State (ι ω : Type*) where
  self : PrivId
  timers : Queue ι ω
  /-- `expiring`, with the time for which `expire_timers` has been called -/
  expiring : Option Clock
  /-- a notification of the clock has not been received yet -/
  notified : Bool
  clk : Clk
  /-- what has happened to the timers, for the proofs -/
  log : List (Deadlines.Event ι Clock ω)

namespace State

def note (s : State ι ω) (e : Deadlines.Event ι Clock ω) : State ι ω :=
  { s with log := s.log ++ [e] }

def sysSetalarm (s : State ι ω) (t : Clock) : State ι ω :=
  { s with clk := s.clk.setalarm s.self t }

def setTimer (s : State ι ω) (tp : ι) (ticks : Int) (f : ω) : State ι ω :=
  let t := s.clk.realtime + ticks
  let (q, prev, next) := settimer s.timers tp t f
  let s := { s with timers := q }.note (.armed tp t f)
  if s.expiring = none ∧ (prev = 0 ∨ prev > next) then s.sysSetalarm next else s

def cancelTimer (s : State ι ω) (tp : ι) : State ι ω :=
  let (q, prev, next) := clrtimer s.timers tp
  let s := { s with timers := q }.note (.cancelled tp)
  if s.expiring = none ∧ (prev < next ∨ next = 0) then s.sysSetalarm next else s

/-- `expire_timers` begins. -/
def expireTimers (s : State ι ω) (now : Clock) : State ι ω :=
  { s with expiring := some now }.note (.began now)

def callWatchdog (s : State ι ω) (now : Clock) : State ι ω :=
  match pop s.timers now with
  | none => s
  | some (tp, q) => { s with timers := q }.note (.called tp (s.timers.func tp))

def expired (s : State ι ω) : State ι ω :=
  let next := s.timers.headTime
  let s := { s with expiring := none }.note .ended
  if next > 0 then s.sysSetalarm next else s

def tick (s : State ι ω) : State ι ω :=
  let (gone, clk) := s.clk.tick
  { s with clk := clk, notified := s.notified || gone.contains s.self }

end State

inductive Op (ι ω : Type*) where
  | tick
  /-- the alarm of another process -/
  | setalarm (p : PrivId) (t : Clock)
  | setTimer (tp : ι) (ticks : Int) (f : ω)
  | cancelTimer (tp : ι)
  /-- `expire_timers` is called, for a notification of the clock or otherwise -/
  | expireTimers (now : Clock) (notification : Bool)
  | callWatchdog (now : Clock)
  | expired (now : Clock)

/-- A watchdog sets timers with positive delays, and nobody expires timers of the future. -/
def Op.Enabled (s : State ι ω) : Op ι ω → Prop
  | .tick => True
  | .setalarm p _ => p ≠ s.self
  | .setTimer _ ticks _ => s.expiring ≠ none → 0 < ticks
  | .cancelTimer _ => True
  | .expireTimers now notification =>
    s.expiring = none ∧ 0 ≤ now ∧ now ≤ s.clk.realtime ∧ (notification = true → s.notified = true)
  | .callWatchdog now => s.expiring = some now ∧ pop s.timers now ≠ none
  | .expired now => s.expiring = some now ∧ pop s.timers now = none

def step (s : State ι ω) : Op ι ω → State ι ω
  | .tick => s.tick
  | .setalarm p t => { s with clk := s.clk.setalarm p t }
  | .setTimer tp ticks f => s.setTimer tp ticks f
  | .cancelTimer tp => s.cancelTimer tp
  | .expireTimers now notification =>
    { s with notified := s.notified && !notification }.expireTimers now
  | .callWatchdog now => s.callWatchdog now
  | .expired _ => s.expired

structure Boot (s : State ι ω) : Prop where
  timers : s.timers.timers = []
  expiring : s.expiring = none
  realtime : s.clk.realtime = 0
  clkTimers : s.clk.timers.timers = []
  nextTimeout : s.clk.nextTimeout = 0
  log : s.log = []

/-- A run whose operations all meet `Cond`. -/
inductive Runs (Cond : State ι ω → Op ι ω → Prop) : State ι ω → List (Op ι ω) → State ι ω → Prop
  | refl (s : State ι ω) : Runs Cond s [] s
  | step {s s' : State ι ω} {ops : List (Op ι ω)} {op : Op ι ω} (h : Runs Cond s ops s')
      (hen : op.Enabled s') (hcond : Cond s' op) :
      Runs Cond s (ops ++ [op]) (Watchdog.step s' op)

/-- No timer is set for the time 0, which stands for no timer. -/
def NotZero (s : State ι ω) : Op ι ω → Prop
  | .setTimer _ ticks _ => s.clk.realtime + ticks ≠ 0
  | _ => True

end HardenedMinix.Watchdog
