import Petri.Simulation.Event

/-! # Histories

The events that a simulation has reported. They are kept with the latest first and with their number,
so that adding some and asking for the latest ones take no longer when the history is long.
-/
namespace Petri
set_option autoImplicit false

structure History where
  /-- The events, latest first. -/
  latest : List Event := []
  size : Nat := 0
  size_eq : size = latest.length := by simp
  deriving DecidableEq

namespace History

def toList (h : History) : List Event := h.latest.reverse

def append (h : History) (events : List Event) : History where
  latest := events.reverse ++ h.latest
  size := h.size + events.length
  size_eq := by simp [h.size_eq, Nat.add_comm]

def since (h : History) (n : Nat) : List Event := (h.latest.take (h.size - n)).reverse

theorem length_toList (h : History) : h.toList.length = h.size := by simp [toList, h.size_eq]

theorem toList_append (h : History) (events : List Event) :
    (h.append events).toList = h.toList ++ events := by simp [toList, append]

theorem since_eq_drop (h : History) (n : Nat) : h.since n = h.toList.drop n := by
  simp [since, toList, h.size_eq, List.drop_reverse]

end History
end Petri
