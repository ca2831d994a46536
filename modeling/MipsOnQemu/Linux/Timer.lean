/-
# MipsOnQemu.Linux.Timer -- the timer wheel

`__mod_timer`, `mod_timer`, `del_timer` and `__run_timers` of `kernel/timer.c` on one timer base. Timers
are known by their addresses; the lists of a base are the slots of `tv1` to `tv5` (levels 0 to 4) and the
`work_list` of `__run_timers`. A timer has one list entry, so it is taken out of whichever list it is on.

`__run_timers` gives up the lock of the base while it calls a handler: what handlers (and interrupts) do
to timers happens between the steps of its two loops, and so it is a step machine here, where each step
`run` is one round of the outer loop up to the inner one, or one round of the inner loop.
-/

import MipsOnQemu.Lib.Runs
import MipsOnQemu.Lib.Wheel
import MipsOnQemu.Lib.Words

namespace Linux

open Function

/-- `TVN_BITS`; the argument is `CONFIG_BASE_SMALL`. -/
def tvnBits (small : Bool) : Nat := if small then 4 else 6

def tvrBits (small : Bool) : Nat := if small then 6 else 8

/-- A list that a timer can be on. -/
inductive TimerSlot where
  | vec (level index : Nat)
  | work
  deriving DecidableEq

structure Timer where
  expires : BitVec 32
  /-- `entry.next` is not `NULL` -/
  pending : Bool

structure TimerState where
  jiffies : BitVec 32
  timerJiffies : BitVec 32
  lists : TimerSlot → List Nat
  timers : Nat → Timer

/-- The index of a time in a level: its bits from `TVR_BITS + (level - 1) * TVN_BITS` on, or the lowest
ones. -/
def tvIndex (small : Bool) : Nat → BitVec 32 → Nat
  | 0, x => (x &&& ((1#32 <<< tvrBits small) - 1#32)).toNat
  | level + 1, x =>
    ((x >>> (tvrBits small + level * tvnBits small)) &&& ((1#32 <<< tvnBits small) - 1#32)).toNat

/-- The list that `internal_add_timer` chooses. -/
def timerSlot (small : Bool) (timerJiffies expires : BitVec 32) : TimerSlot :=
  let idx := expires - timerJiffies
  if idx < 1#32 <<< tvrBits small then .vec 0 (tvIndex small 0 expires)
  else if idx < 1#32 <<< (tvrBits small + tvnBits small) then .vec 1 (tvIndex small 1 expires)
  else if idx < 1#32 <<< (tvrBits small + 2 * tvnBits small) then .vec 2 (tvIndex small 2 expires)
  else if idx < 1#32 <<< (tvrBits small + 3 * tvnBits small) then .vec 3 (tvIndex small 3 expires)
  else if idx.toInt < 0 then
    -- a time in the past
    .vec 0 (tvIndex small 0 timerJiffies)
  else if 0xffffffff#32 < idx then .vec 4 (tvIndex small 4 (0xffffffff#32 + timerJiffies))
  else .vec 4 (tvIndex small 4 expires)

def internalAddTimer (small : Bool) (s : TimerState) (timer : Nat) : TimerState :=
  let slot := timerSlot small s.timerJiffies (s.timers timer).expires
  { s with
    lists := update s.lists slot (s.lists slot ++ [timer])
    timers := update s.timers timer { s.timers timer with pending := true } }

def detachTimer (s : TimerState) (timer : Nat) (clearPending : Bool) : TimerState :=
  { s with
    lists := fun slot => (s.lists slot).filter (· != timer)
    timers := if clearPending then
        update s.timers timer { s.timers timer with pending := false }
      else s.timers }

def setExpires (s : TimerState) (timer : Nat) (expires : BitVec 32) : TimerState :=
  { s with timers := update s.timers timer { s.timers timer with expires := expires } }

def rawModTimer (small : Bool) (s : TimerState) (timer : Nat) (expires : BitVec 32) : Bool × TimerState :=
  let s' := if (s.timers timer).pending then detachTimer s timer false else s
  ((s.timers timer).pending, internalAddTimer small (setExpires s' timer expires) timer)

def modTimer (small : Bool) (s : TimerState) (timer : Nat) (expires : BitVec 32) : Bool × TimerState :=
  if (s.timers timer).expires = expires ∧ (s.timers timer).pending = true then (true, s)
  else rawModTimer small s timer expires

def delTimer (s : TimerState) (timer : Nat) : Bool × TimerState :=
  if (s.timers timer).pending then (true, detachTimer s timer true) else (false, s)

def cascade (small : Bool) (s : TimerState) (level index : Nat) : TimerState :=
  (s.lists (.vec level index)).foldl (internalAddTimer small)
    { s with lists := update s.lists (.vec level index) [] }

/-- The chain of `cascade` calls in `__run_timers`, from the first of the levels on. -/
def cascadeLevels (small : Bool) : List Nat → TimerState → TimerState
  | [], s => s
  | level :: levels, s =>
    let s' := cascade small s level (tvIndex small level s.timerJiffies)
    if tvIndex small level s.timerJiffies = 0 then cascadeLevels small levels s' else s'

/-- A round of the outer loop of `__run_timers`, up to the inner one. -/
def startRound (small : Bool) (s : TimerState) : TimerState :=
  let index := tvIndex small 0 s.timerJiffies
  let s := if index = 0 then cascadeLevels small [1, 2, 3, 4] s else s
  { s with
    timerJiffies := s.timerJiffies + 1
    lists := update (update s.lists .work (s.lists (.vec 0 index))) (.vec 0 index) [] }

/-! ## Runs -/

/-- What can be seen of a step. -/
inductive TimerEvent where
  | quiet
  /-- the round of the outer loop for a tick begins -/
  | round (tick : BitVec 32)
  /-- the handler of a timer is called -/
  | call (timer : Nat)
  deriving DecidableEq

/-- `__run_timers`, up to the next call of a handler, the next round, or the end. -/
def runTimers (small : Bool) (s : TimerState) : TimerEvent × TimerState :=
  match s.lists .work with
  | timer :: _ => (.call timer, detachTimer s timer true)
  | [] =>
    if 0 ≤ (s.jiffies - s.timerJiffies).toInt then (.round s.timerJiffies, startRound small s)
    else (.quiet, s)

inductive TimerOp where
  /-- `__mod_timer` -/
  | rawMod (timer : Nat) (expires : BitVec 32)
  /-- `mod_timer` -/
  | mod (timer : Nat) (expires : BitVec 32)
  | del (timer : Nat)
  /-- time goes on -/
  | tick (ticks : BitVec 32)
  | run

def TimerOp.exec (small : Bool) (s : TimerState) : TimerOp → Option (TimerEvent × TimerState)
  | .rawMod timer expires => some (.quiet, (rawModTimer small s timer expires).2)
  | .mod timer expires => some (.quiet, (modTimer small s timer expires).2)
  | .del timer => some (.quiet, (delTimer s timer).2)
  | .tick ticks => some (.quiet, { s with jiffies := s.jiffies + ticks })
  | .run => some (runTimers small s)

/-- A base after `init_timers_cpu`; no timer is pending. -/
def initTimers (jiffies : BitVec 32) (expires : Nat → BitVec 32) : TimerState :=
  ⟨jiffies, jiffies, fun _ => [], fun timer => ⟨expires timer, false⟩⟩

end Linux
