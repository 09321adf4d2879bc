import Haze.Audio.SampleList
import Mathlib.Data.Fin.VecNotation

/-
  A session as its readers know it, and the name that `SessionNew` makes for one that is given
  none. It has at most 17 bytes (`length_sessionNameRandom_le`).
-/

namespace Haze

structure Session where
  sessionName : Option CString
  createdAt : Int64
  sampleList : Option SampleList

def sessionGetName (s : Session) : CString := s.sessionName.getD (.ofBytes [])

def firstNames : Fin 15 → String :=
  ![ "goofball", "biscuit", "wombat", "noodle", "badger", "gizmo", "doofus", "gecko", "rascal",
    "walrus", "dingo", "muppet", "turnip", "hobbit", "chimp"]

def secondNames : Fin 15 → String :=
  ![ "flabby", "haughty", "clumsy", "grumpy", "sneaky", "goofy", "sluggish", "silly", "cheeky",
    "wobbly", "cranky", "greedy", "shabby", "lousy", "spunky"]

/-- `session_name_random`, for two random numbers. -/
def sessionNameRandom (first second : Fin 15) : CString :=
  .ofString (firstNames first ++ "_" ++ secondNames second)

end Haze
