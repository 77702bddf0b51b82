/-!
# The world

Some of what evaluation depends on belongs to no session: how often each ticking function has ticked, and which interrupt
flags are raised. Functions and flags go by numbers.
-/

namespace TinyLisp

/-- What is shared by all sessions: the serial numbers of the functions that ticked, once for every tick, and the raised
interrupt flags. -/
structure World where
  ticks : List Nat := []
  raised : List Nat := []
  deriving DecidableEq, Repr

namespace World

/-- Whether an interrupt flag is raised. -/
def isRaised (w : World) (flag : Nat) : Bool := w.raised.contains flag

/-- The world with an interrupt flag raised. -/
def raise (w : World) (flag : Nat) : World := { w with raised := flag :: w.raised }

/-- The world with an interrupt flag lowered. -/
def lower (w : World) (flag : Nat) : World := { w with raised := w.raised.filter (· != flag) }

/-- How often a function has ticked. -/
def ticksOf (w : World) (serial : Nat) : Nat := w.ticks.count serial

/-- The world after a tick of a function. -/
def tick (w : World) (serial : Nat) : World := { w with ticks := serial :: w.ticks }

/-- A raised flag is up. -/
theorem isRaised_raise (w : World) (flag : Nat) : (w.raise flag).isRaised flag = true := by simp [isRaised, raise]

/-- A lowered flag is down. -/
theorem isRaised_lower (w : World) (flag : Nat) : (w.lower flag).isRaised flag = false := by simp [isRaised, lower]

/-- A tick counts for the function that ticked and for no other. -/
theorem ticksOf_tick (w : World) (serial other : Nat) :
    (w.tick serial).ticksOf other = w.ticksOf other + if serial = other then 1 else 0 := by
  simp [ticksOf, tick, List.count_cons]

end World

end TinyLisp
