import Haze.Object

/-
  What the functions behind the methods return: whether they succeeded, and the text of
  the failure.
-/

open Msgpack

namespace Haze

/-- `Result`: what a session function returns. -/
structure Result where
  success : Bool
  msg : Option CString

def resultErr (msg : String) : Result := { success := false, msg := some (.ofString msg) }

/-- `ResultAudio`: what an audio function returns. -/
structure ResultAudio where
  success : Bool
  msg : Option CString

def resultAudioOk : ResultAudio := { success := true, msg := none }
def resultAudioErr (msg : String) : ResultAudio :=
  { success := false, msg := some (.ofString msg) }

/-- The formatted text is cut to a buffer of 256 bytes, and the message is a copy of it;
without memory for the copy it is `NULL`. -/
def resultAudioErrF (text : Bytes) (copied : Bool) : ResultAudio :=
  { success := false, msg := if copied then some (.ofBytes (text.take 255)) else none }

end Haze
