import Haze.Server.Stream
import Haze.Transition.Run

/-
  The life of one connection, from callback to callback.

  `hazeOnConnect` starts it, and `ConnStep` lets libuv deliver what it may: no read once the
  handle is closing, no more bytes than `haze_on_alloc` was offered, and one close callback.
  The handle is closed from many places, and only `haze_on_write_done` asks first; `ConnInv`
  says why none of them closes it again: a handle that is not closing has nothing buffered
  between two callbacks, and the loop of `haze_on_read` closes it once exactly when it leaves
  bytes behind (`hazeReadLoop_closes`).
-/

open Transition

namespace Haze

variable {p : Platform}

/-! ## Callbacks -/

/-- What libuv suggests to `haze_on_alloc`. -/
def suggestedSize : Nat := 65536

/-- A connection with what was done to its handle: the calls of `uv_close`, whether the branch
for more than 4 MiB was taken, and whether the close callback has run. -/
structure ConnState where
  conn : HazeConn
  closes : Nat
  overflowed : Bool
  released : Bool

/-- The bytes of a read. -/
def Read.bytes : Read → List UInt8
  | .failed => []
  | .data bs => bs

/-- Whether a read leaves more than 4 MiB. -/
def overflows (connection : Nat) (ctx : Context p) (conn : HazeConn) : Read → Bool
  | .data (b :: bs) =>
    4 * 1024 * 1024 < (hazeReadLoop connection ctx (conn.buffer ++ b :: bs)).2.1.length
  | _ => false

inductive Callback (p : Platform) where
  | read (ctx : Context p) (memory : Bool) (read : Read)
  | writeDone (failed : Bool)
  | closed

namespace ConnState

/-- `haze_on_read` with the memory it may ask for: a buffer that cannot grow closes the
handle. -/
def onRead (connection : Nat) (s : ConnState) (ctx : Context p) (memory : Bool) (read : Read) :
    ConnState :=
  if memory = false ∧ s.conn.bufferCap < s.conn.buffer.length + read.bytes.length then
    { s with conn := { s.conn with closed := true }, closes := s.closes + 1 }
  else
    let (_, conn, events) := hazeOnRead connection ctx s.conn read
    { s with
      conn := conn
      closes := s.closes + events.countP Event.isClose
      overflowed := s.overflowed || overflows connection ctx s.conn read }

/-- `haze_on_write_done`: a failed write closes a handle that is not closing. -/
def onWriteDone (s : ConnState) (failed : Bool) : ConnState :=
  if failed ∧ s.closes = 0 then
    { s with conn := { s.conn with closed := true }, closes := s.closes + 1 }
  else s

/-- `haze_on_close`: the buffer and the connection are freed. -/
def onClose (s : ConnState) : ConnState :=
  { s with conn := { hazeConnNew with closed := true }, released := true }

end ConnState

/-- `haze_on_connect` behind `uv_tcp_init`: a connection that is not accepted, or cannot be
read, is closed at once. -/
def hazeOnConnect (accepted reading : Bool) : ConnState :=
  let closing := { hazeConnNew with closed := true }
  if accepted = false then
    { conn := closing, closes := 1, overflowed := false, released := false }
  else if reading = false then
    { conn := closing, closes := 1, overflowed := false, released := false }
  else { conn := hazeConnNew, closes := 0, overflowed := false, released := false }

/-- The callbacks libuv delivers to a handle, whatever the context the reads find. A write
may be done at any time. -/
inductive ConnStep (connection : Nat) : ConnState → Callback p → ConnState → Prop where
  | read {s : ConnState} {ctx : Context p} {memory : Bool} {read : Read} :
      s.closes = 0 → s.released = false → read.bytes.length ≤ suggestedSize →
        ConnStep connection s (.read ctx memory read) (s.onRead connection ctx memory read)
  | writeDone {s : ConnState} {failed : Bool} :
      ConnStep connection s (.writeDone failed) (s.onWriteDone failed)
  | closed {s : ConnState} :
      s.closes ≠ 0 → s.released = false → ConnStep connection s .closed s.onClose

/-! ## The read loop -/

theorem countP_isClose_sends (db : DispatchBytes p) : db.sends.countP Event.isClose = 0 := by
  rw [List.countP_eq_zero]
  exact List.any_eq_false.mp (any_isClose_sends db)

theorem countP_isClose_serverDispatch (ctx : Context p) (connection : Nat) (buffer : List UInt8) :
    (serverDispatch ctx connection buffer).events.countP Event.isClose = 0 := by
  unfold serverDispatch
  split <;> rfl

/-- The loop closes the handle once if it leaves bytes in the buffer, and not at all if it
leaves none. -/
theorem hazeReadLoop_closes (connection : Nat) (ctx : Context p) (buffer : List UInt8) :
    (hazeReadLoop connection ctx buffer).2.2.countP Event.isClose =
      if (hazeReadLoop connection ctx buffer).2.1 = [] then 0 else 1 := by
  induction hn : buffer.length using Nat.strong_induction_on generalizing ctx buffer with
  | _ n ih =>
      rcases eq_or_ne buffer [] with rfl | hbuf
      · simp
      · have hdispatch := countP_isClose_serverDispatch ctx connection buffer
        have hsends := countP_isClose_sends (serverDispatch ctx connection buffer)
        have hclose : [Event.close].countP Event.isClose = 1 := rfl
        rw [hazeReadLoop_step connection ctx hbuf rfl]
        by_cases hok : (serverDispatch ctx connection buffer).ok = false
        · rw [if_pos hok, if_neg hbuf, List.countP_append, hdispatch, hclose]
        · by_cases hlen : (serverDispatch ctx connection buffer).len = 0 ∨
              buffer.length < (serverDispatch ctx connection buffer).len
          · rw [if_neg hok, if_pos hlen, if_neg hbuf, List.countP_append, List.countP_append,
              hdispatch, hsends, hclose]
          · have hpos := List.length_pos_iff.mpr hbuf
            have hlt : (buffer.drop (serverDispatch ctx connection buffer).len).length < n := by
              rw [List.length_drop]
              omega
            have hrest := ih _ hlt (serverDispatch ctx connection buffer).ctx _ rfl
            rw [if_neg hok, if_neg hlen]
            simp only [List.countP_append, hdispatch, hsends, Nat.zero_add]
            exact hrest

/-! ## The invariant -/

/-- What holds between two callbacks. -/
structure ConnInv (s : ConnState) : Prop where
  once : s.closes ≤ 1
  empty : s.closes = 0 → s.conn.buffer = []
  small : s.overflowed = false

theorem connInv_start (accepted reading : Bool) : ConnInv (hazeOnConnect accepted reading) := by
  cases accepted <;> cases reading <;> exact ⟨by decide, by decide, rfl⟩

/-- A read into an empty buffer leaves at most what it brought, which is less than 4 MiB. -/
theorem hazeReadLoop_small (connection : Nat) (ctx : Context p) {bytes : List UInt8}
    (hread : bytes.length ≤ suggestedSize) :
    ¬4 * 1024 * 1024 < (hazeReadLoop connection ctx bytes).2.1.length := by
  have hleft := hazeReadLoop_length_le connection ctx bytes
  unfold suggestedSize at hread
  omega

theorem overflows_of_empty (connection : Nat) (ctx : Context p) {conn : HazeConn} {read : Read}
    (hempty : conn.buffer = []) (hread : read.bytes.length ≤ suggestedSize) :
    overflows connection ctx conn read = false := by
  match read, hread with
  | .failed, _ => rfl
  | .data [], _ => rfl
  | .data (b :: bs), hread =>
      have hread : (b :: bs).length ≤ suggestedSize := hread
      have hsmall := hazeReadLoop_small connection ctx hread
      show decide (4 * 1024 * 1024 <
        (hazeReadLoop connection ctx (conn.buffer ++ b :: bs)).2.1.length) = false
      rw [hempty, List.nil_append]
      exact decide_eq_false hsmall

/-- A read into an empty buffer closes the handle at most once, and leaves the buffer empty
if it does not close it. -/
theorem hazeOnRead_of_empty (connection : Nat) (ctx : Context p) {conn : HazeConn} {read : Read}
    (hempty : conn.buffer = []) (hread : read.bytes.length ≤ suggestedSize) :
    let out := hazeOnRead connection ctx conn read
    out.2.2.countP Event.isClose ≤ 1 ∧
      (out.2.2.countP Event.isClose = 0 → out.2.1.buffer = []) := by
  match read, hread with
  | .failed, _ => exact ⟨le_rfl, fun _ => hempty⟩
  | .data [], _ => exact ⟨Nat.zero_le 1, fun _ => hempty⟩
  | .data (b :: bs), hread =>
      have hread : (b :: bs).length ≤ suggestedSize := hread
      have hsmall := hazeReadLoop_small connection ctx hread
      have hcloses := hazeReadLoop_closes connection ctx (b :: bs)
      unfold hazeOnRead
      simp only [hempty, List.nil_append, if_neg hsmall, List.append_nil, hcloses]
      split_ifs with hleft
      · exact ⟨Nat.zero_le 1, fun _ => hleft⟩
      · exact ⟨le_rfl, fun h => absurd h (by simp)⟩

/-- The handle was open, so the buffer was empty. -/
theorem connInv_onRead {connection : Nat} {s : ConnState} {ctx : Context p} {memory : Bool}
    {read : Read} (hinv : ConnInv s) (hopen : s.closes = 0)
    (hread : read.bytes.length ≤ suggestedSize) :
    ConnInv (s.onRead connection ctx memory read) := by
  have hempty := hinv.empty hopen
  unfold ConnState.onRead
  split_ifs with hmem
  · exact ⟨by simp [hopen], fun h => absurd h (Nat.succ_ne_zero _), hinv.small⟩
  · obtain ⟨honce, hleft⟩ := hazeOnRead_of_empty connection ctx hempty hread
    have hover := overflows_of_empty connection ctx hempty hread
    refine ⟨?_, ?_, ?_⟩
    · show s.closes + _ ≤ 1
      rw [hopen, Nat.zero_add]
      exact honce
    · intro hstill
      exact hleft (Nat.eq_zero_of_add_eq_zero_left hstill)
    · show (s.overflowed || _) = false
      rw [hinv.small, hover]
      rfl

theorem connInv_onWriteDone {s : ConnState} (failed : Bool) (hinv : ConnInv s) :
    ConnInv (s.onWriteDone failed) := by
  unfold ConnState.onWriteDone
  split_ifs with hclosing
  · exact ⟨by simp [hclosing.2], fun h => absurd h (Nat.succ_ne_zero _), hinv.small⟩
  · exact hinv

/-- The step lemma: every callback keeps the invariant. -/
theorem connInv_step {connection : Nat} {s s' : ConnState} {callback : Callback p}
    (hinv : ConnInv s) (hstep : ConnStep connection s callback s') : ConnInv s' := by
  cases hstep with
  | read hopen _ hread => exact connInv_onRead hinv hopen hread
  | writeDone => exact connInv_onWriteDone _ hinv
  | closed => exact ⟨hinv.once, fun _ => rfl, hinv.small⟩

/-- Whatever libuv delivers, in every state reached the buffered bytes fit the buffer, a
handle that is not closing has none, the branch for more than 4 MiB was not taken, and the
handle was closed at most once. -/
theorem connection_invariant {connection : Nat} {accepted reading : Bool}
    {callbacks : List (Callback p)} {s : ConnState}
    (hrun : Run (ConnStep connection) (hazeOnConnect accepted reading) callbacks s) :
    s.conn.buffer.length ≤ s.conn.bufferCap ∧ (s.closes = 0 → s.conn.buffer = []) ∧
      s.overflowed = false ∧ s.closes ≤ 1 := by
  have hinv : ConnInv s := hrun.invariant (connInv_start accepted reading)
    fun _ _ _ hinv hstep => connInv_step hinv hstep
  exact ⟨s.conn.fits, hinv.empty, hinv.small, hinv.once⟩

theorem ConnState.onWriteDone_true (s : ConnState) :
    (s.onWriteDone true).closes ≠ 0 ∧ (s.onWriteDone true).released = s.released := by
  unfold onWriteDone
  split_ifs with hclosing
  · exact ⟨Nat.succ_ne_zero _, rfl⟩
  · exact ⟨fun h => hclosing ⟨rfl, h⟩, rfl⟩

/-- A ping is read, its answer cannot be written, nor can another one, and the handle ends. -/
theorem connection_invariant_failed_write :
    ∃ s : ConnState,
      Run (ConnStep (p := stillPlatform) 0) (hazeOnConnect true true)
        [.read stillContext true
            (.data ([0x94, 0x00, 0x07, 0xa9] ++ (CString.ofString "test/ping").bytes ++ [0x90])),
          .writeDone true, .writeDone true, .closed] s ∧
        s.conn.buffer.length ≤ s.conn.bufferCap ∧ (s.closes = 0 → s.conn.buffer = []) ∧
        s.overflowed = false ∧ s.closes ≤ 1 := by
  have hread : Run (ConnStep (p := stillPlatform) 0) (hazeOnConnect true true)
      ([] ++ [.read stillContext true
        (.data ([0x94, 0x00, 0x07, 0xa9] ++ (CString.ofString "test/ping").bytes ++ [0x90]))]) _ :=
    .snoc .nil (.read rfl rfl (by decide))
  have hfailed := (hread.snoc (show ConnStep 0 _ (.writeDone true) _ from .writeDone)).snoc
    (show ConnStep 0 _ (.writeDone true) _ from .writeDone)
  have hend := hfailed.snoc (.closed (ConnState.onWriteDone_true _).1 (by
    rw [(ConnState.onWriteDone_true _).2, (ConnState.onWriteDone_true _).2]
    rfl))
  exact ⟨_, hend, connection_invariant hend⟩

end Haze
