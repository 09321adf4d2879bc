import Haze.Server.Dispatcher

/-
  A connection of the server: `ServerDispatch` and `haze_on_read`.

  A read appends its bytes to the connection's buffer, and the loop hands what the buffer
  starts with to the dispatcher until the buffer is empty or the connection is closed.
  `hazeReads` is a run of reads; its events are, in order, the requests handed to the
  dispatcher and what the connection does.
-/

open Msgpack

namespace Haze

variable {p : Platform}

/-! ## Dispatching a buffer -/

/-- What is seen of a run: a request handed to the dispatcher, `haze_send`,
`HazeServerBroadcast` and `uv_close`. -/
inductive Event where
  | dispatch (request : Request)
  | send (data : RawBuffer)
  | broadcast (data : RawBuffer)
  | close

def Event.isClose : Event → Bool
  | .close => true
  | _ => false

/-- `DispatchBytes`, with what the call changes: the `len` of the buffer, the context, and
the events it adds. -/
structure DispatchBytes (p : Platform) where
  ok : Bool
  response : Option RawBuffer
  notification : Option RawBuffer
  len : Nat
  ctx : Context p
  events : List Event

def serverDispatch (ctx : Context p) (connection : Nat) (buffer : Bytes) : DispatchBytes p :=
  match requestUnmarshal buffer with
  | (none, len) =>
    { ok := false, response := none, notification := none, len := len, ctx := ctx, events := [] }
  | (some request, len) =>
    let (dr, ctx) := dispatchRPCMessage ctx connection request
    { ok := true
      response := dr.response.bind responseMarshal
      notification := dr.notification.bind notificationMarshal
      len := len
      ctx := ctx
      events := [.dispatch request] }

/-- What one pass of the loop sends. -/
def DispatchBytes.sends (db : DispatchBytes p) : List Event :=
  (db.response.map Event.send).toList ++ (db.notification.map Event.broadcast).toList

/-! ## The read loop -/

/-- The loop over the buffered bytes: the context, the bytes left and the events. -/
def hazeReadLoop (connection : Nat) (ctx : Context p) (buffer : Bytes) :
    Context p × Bytes × List Event :=
  if _hempty : buffer = [] then (ctx, buffer, [])
  else
    let db := serverDispatch ctx connection buffer
    if db.ok = false then (db.ctx, buffer, db.events ++ [.close])
    else if hconsumed : db.len = 0 ∨ buffer.length < db.len then
      (db.ctx, buffer, db.events ++ db.sends ++ [.close])
    else
      let (ctx, rest, later) := hazeReadLoop connection db.ctx (buffer.drop db.len)
      (ctx, rest, db.events ++ db.sends ++ later)
termination_by buffer.length
decreasing_by
  have hpos := List.length_pos_iff.mpr _hempty
  have hlen : db.len ≠ 0 := fun h => hconsumed (.inl h)
  rw [List.length_drop]
  exact Nat.sub_lt hpos (Nat.pos_of_ne_zero hlen)

/-- One pass of the loop over a buffer that is not empty. -/
theorem hazeReadLoop_step (connection : Nat) (ctx : Context p) {buffer : Bytes}
    (hbuf : buffer ≠ []) {db : DispatchBytes p} (hdb : serverDispatch ctx connection buffer = db) :
    hazeReadLoop connection ctx buffer =
      if db.ok = false then (db.ctx, buffer, db.events ++ [.close])
      else if db.len = 0 ∨ buffer.length < db.len then
        (db.ctx, buffer, db.events ++ db.sends ++ [.close])
      else
        let later := hazeReadLoop connection db.ctx (buffer.drop db.len)
        (later.1, later.2.1, db.events ++ db.sends ++ later.2.2) := by
  subst hdb
  rw [hazeReadLoop, dif_neg hbuf]
  rfl

@[simp] theorem hazeReadLoop_nil (connection : Nat) (ctx : Context p) :
    hazeReadLoop connection ctx [] = (ctx, [], []) := by
  rw [hazeReadLoop, dif_pos rfl]

theorem hazeReadLoop_length_le (connection : Nat) (ctx : Context p) (buffer : Bytes) :
    (hazeReadLoop connection ctx buffer).2.1.length ≤ buffer.length := by
  induction hn : buffer.length using Nat.strong_induction_on generalizing ctx buffer with
  | _ n ih =>
      rcases eq_or_ne buffer [] with rfl | hbuf
      · simp
      · rw [hazeReadLoop_step connection ctx hbuf rfl]
        split_ifs with hok hlen
        · exact hn.le
        · exact hn.le
        · have hpos := List.length_pos_iff.mpr hbuf
          have hlt : (buffer.drop (serverDispatch ctx connection buffer).len).length < n := by
            rw [List.length_drop]
            omega
          exact (ih _ hlt _ _ rfl).trans hlt.le

/-! ## Reads -/

/-- The doubling loop. -/
def growCap (cap len : Nat) : Nat :=
  if h : 0 < cap ∧ cap < len then growCap (cap * 2) len else cap
termination_by len - cap
decreasing_by omega

theorem le_growCap {cap : Nat} (len : Nat) (hcap : 0 < cap) : len ≤ growCap cap len := by
  induction hn : len - cap using Nat.strong_induction_on generalizing cap with
  | _ n ih =>
      rw [growCap]
      split_ifs with hgrow
      · exact ih _ (by omega) (by omega) rfl
      · omega

/-- `HazeConn`: the buffered bytes, the capacity of the buffer, which they fit, and
whether the handle was closed. -/
structure HazeConn where
  buffer : Bytes
  bufferCap : Nat
  fits : buffer.length ≤ bufferCap
  closed : Bool

/-- The capacity after room was made for `newLen` bytes. -/
def grownCap (bufferCap newLen : Nat) : Nat :=
  if bufferCap < newLen then growCap (if bufferCap = 0 then 1024 else bufferCap) newLen
  else bufferCap

theorem le_grownCap (bufferCap newLen : Nat) : newLen ≤ grownCap bufferCap newLen := by
  rw [grownCap]
  split_ifs
  · exact le_growCap _ (by decide)
  · exact le_growCap _ (by omega)
  · omega

/-- What libuv hands to the read callback: a failure, or the bytes read, which may be
none. -/
inductive Read where
  | failed
  | data (bytes : Bytes)

/-- `haze_on_read`. -/
def hazeOnRead (connection : Nat) (ctx : Context p) (conn : HazeConn) :
    Read → Context p × HazeConn × List Event
  | .failed => (ctx, { conn with closed := true }, [.close])
  | .data [] => (ctx, conn, [])
  | .data (b :: bs) =>
    let data := conn.buffer ++ b :: bs
    let out := hazeReadLoop connection ctx data
    let rest := out.2.1
    -- what is left over must not exceed 4 MiB
    let events := out.2.2 ++ if 4 * 1024 * 1024 < rest.length then [.close] else []
    (out.1,
      { buffer := rest
        bufferCap := grownCap conn.bufferCap data.length
        fits := (hazeReadLoop_length_le connection ctx data).trans (le_grownCap _ _)
        closed := conn.closed || events.any Event.isClose },
      events)

/-- A run of reads. A closed handle reads no more. -/
def hazeReads (connection : Nat) (ctx : Context p) (conn : HazeConn) :
    List Read → Context p × HazeConn × List Event
  | [] => (ctx, conn, [])
  | read :: reads =>
    if conn.closed then (ctx, conn, [])
    else
      let (ctx, conn, events) := hazeOnRead connection ctx conn read
      let (ctx, conn, later) := hazeReads connection ctx conn reads
      (ctx, conn, events ++ later)

/-- The requests handed to the dispatcher. -/
def dispatched (events : List Event) : List Request :=
  events.filterMap fun
    | .dispatch request => some request
    | _ => none

/-- The data handed to `haze_send`. -/
def sent (events : List Event) : List RawBuffer :=
  events.filterMap fun
    | .send data => some data
    | _ => none

end Haze
