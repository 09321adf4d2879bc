import Haze.Hazectl.Delivery
import Haze.Server.Chunking
import Haze.Server.Replies

/-
  A hazectl client and the server, at the two ends of a connection.

  The client takes its steps, the server reads what the client wrote in whatever pieces it
  comes, and the client decodes what the server sent, value by value. Whatever is decoded is
  then a reply of the dispatcher, so a call that returns a result returns that of a reply to a
  request with its number (`exchange_answered`).

  `encoder.Encode` is code of a library. It may put its bytes on the connection in any number
  of writes, and other calls may write between them. Where they do not (`FramesWhole`), and the
  pieces that the server reads end with frames, the request is the one the call made
  (`exchange_own`).

  That a read may end inside a frame, and the server then dispatches what it has of it, is why
  the first result says less about the request.
-/

open Msgpack Transition

namespace Haze.Hazectl

variable {p : Platform}

/-! ## The two ends -/

/-- The client, the server's side of the connection and what the server did, what the calls
put on the connection and how much of its write each has put there, and how many bytes the
server has read and the client has decoded. -/
structure Exchange (p : Platform) where
  client : Client
  ctx : Context p
  conn : HazeConn
  events : List Event
  wire : Bytes
  put : Nat → Nat
  received : Nat
  decoded : Nat

/-- What the client wrote. -/
def Client.stream (c : Client) : Bytes := (c.conn.map Prod.snd).flatten

/-- What the server sent. -/
def Exchange.stream (e : Exchange p) : Bytes := ((sent e.events).map RawBuffer.bytes).flatten

/-- The value of a response. -/
def Response.value (resp : Response) : Value :=
  .array [.uint resp.msgType.toUInt64, .uint resp.msgId.toUInt64, resp.error, resp.result]

inductive ExchangeAction where
  | client (a : Action)
  | put (i : Nat) (data : Bytes)
  | read (data : Bytes)
  | readFails

/-- The steps of the client. -/
def clientActions (acts : List ExchangeAction) : List Action :=
  acts.filterMap fun
    | .client a => some a
    | _ => none

/-- The pieces the server read. -/
def chunks (acts : List ExchangeAction) : List Bytes :=
  acts.filterMap fun
    | .read data => some data
    | _ => none

theorem clientActions_snoc (acts : List ExchangeAction) (a : ExchangeAction) :
    clientActions (acts ++ [a]) = clientActions acts ++ clientActions [a] :=
  List.filterMap_append

theorem chunks_snoc (acts : List ExchangeAction) (a : ExchangeAction) :
    chunks (acts ++ [a]) = chunks acts ++ chunks [a] :=
  List.filterMap_append

variable {marshal : Value → Except GoError Bytes} {connection : Nat} {ctx : Context p}
  {acts : List ExchangeAction} {e : Exchange p}

/-! ## The client's side -/

/-- The server stands where the pieces it read lead a new connection, but for a read that
failed. -/
structure Fed (connection : Nat) (ctx : Context p) (acts : List ExchangeAction)
    (e : Exchange p) : Prop where
  opened : e.conn.closed = false →
    (e.ctx, e.conn, e.events) = hazeReads connection ctx hazeConnNew ((chunks acts).map .data)
  events : ∃ closing, (∀ event ∈ closing, Event.isClose event = true) ∧
    e.events = (hazeReads connection ctx hazeConnNew ((chunks acts).map .data)).2.2 ++ closing

theorem Fed.same {a : ExchangeAction} {e' : Exchange p} (h : Fed connection ctx acts e)
    (hchunks : chunks [a] = []) (hctx : e'.ctx = e.ctx) (hconn : e'.conn = e.conn)
    (hevents : e'.events = e.events) : Fed connection ctx (acts ++ [a]) e' := by
  refine ⟨?_, ?_⟩
  · rw [chunks_snoc, hchunks, List.append_nil, hctx, hconn, hevents]
    exact h.opened
  · rw [chunks_snoc, hchunks, List.append_nil, hevents]
    exact h.events

/-- What was sent are the replies to what was dispatched. -/
theorem Fed.stream (h : Fed connection ctx acts e)
    (hname : (sessionGetName ctx.session).Countable) :
    e.stream = ((replies connection ctx (dispatched e.events)).map fun reply =>
      encode reply.response.value).flatten := by
  obtain ⟨closing, hclosing, hevents⟩ := h.events
  obtain ⟨requests, closing', -, hclosing', hserves⟩ :=
    hazeReads_serves connection ctx hazeConnNew ((chunks acts).map .data)
  have hall : e.events = (dispatchAll connection ctx requests).2 ++ (closing' ++ closing) := by
    rw [hevents, ← List.append_assoc]
    exact congrArg (· ++ closing) (congrArg Prod.snd hserves)
  have hends : ∀ event ∈ closing' ++ closing, Event.isClose event = true :=
    List.forall_mem_append.mpr ⟨hclosing', hclosing⟩
  have hrequests : dispatched e.events = requests := by
    have hnone : dispatched (closing' ++ closing) = [] := filterMap_closing rfl hends
    rw [hall, dispatched_append, hnone, List.append_nil, dispatched_dispatchAll]
  have hsent : sent e.events = sent (dispatchAll connection ctx requests).2 := by
    have hnone : sent (closing' ++ closing) = [] := filterMap_closing rfl hends
    rw [hall, sent_append, hnone, List.append_nil]
  rw [Exchange.stream, hrequests, hsent, sent_dispatchAll connection ctx requests hname]

/-! ## What the client decodes -/

/-- The bytes of some replies. -/
def bytesOf (rs : List (Reply p)) : Bytes :=
  (rs.map fun reply => encode reply.response.value).flatten

/-- The client has decoded the first replies, and nothing else. -/
def Decoded (connection : Nat) (ctx : Context p) (acts : List ExchangeAction) (e : Exchange p) :
    Prop :=
  ∃ front back, replies connection ctx (dispatched e.events) = front ++ back ∧
    e.decoded = (bytesOf front).length ∧
      ∀ resp, .decode resp ∈ clientActions acts →
        ∃ reply ∈ front, resp.value.norm = reply.response.value.norm

/-- More that is dispatched adds replies behind. -/
theorem Decoded.more {a : ExchangeAction} {e' : Exchange p} {more : List Event}
    (h : Decoded connection ctx acts e) (hactions : ∀ resp, .decode resp ∉ clientActions [a])
    (hevents : e'.events = e.events ++ more) (hdecoded : e'.decoded = e.decoded) :
    Decoded connection ctx (acts ++ [a]) e' := by
  obtain ⟨front, back, hreplies, hlen, hall⟩ := h
  refine ⟨front, back ++ replies connection
    (dispatchAll connection ctx (dispatched e.events)).1 (dispatched more), ?_,
    hdecoded.trans hlen, fun resp hresp => ?_⟩
  · rw [hevents, dispatched_append, replies_append, hreplies, List.append_assoc]
  · rw [clientActions_snoc, List.mem_append] at hresp
    exact hall resp (hresp.resolve_right (hactions resp))

/-- The value at the front of what is left is that of the next reply. -/
theorem Decoded.decode {resp : Response} {v : Value} {b rest : Bytes} {c : Client}
    (h : Decoded connection ctx acts e) (hfed : Fed connection ctx acts e)
    (hname : (sessionGetName ctx.session).Countable)
    (hnext : e.stream.drop e.decoded = b ++ rest) (hb : Encodes v b)
    (hv : v.norm = resp.value.norm) :
    Decoded connection ctx (acts ++ [.client (.decode resp)])
      { e with client := c, decoded := e.decoded + b.length } := by
  obtain ⟨front, back, hreplies, hlen, hall⟩ := h
  have hsplit : e.stream = bytesOf front ++ bytesOf back := by
    rw [hfed.stream hname, hreplies, List.map_append, List.flatten_append]
    rfl
  rw [hsplit, hlen, List.drop_left] at hnext
  cases back with
  | nil =>
      have hnil : b = [] := (List.append_eq_nil_iff.mp hnext.symm).1
      have hpos := encodesAll_length_le hb
      rw [hnil] at hpos
      exact absurd hpos (Nat.not_succ_le_zero 0)
  | cons reply back =>
      have hreply : reply.Of connection ctx (dispatched e.events) :=
        of_mem_replies (hreplies ▸ List.mem_append_right _ List.mem_cons_self)
      have hframe := encodes_encode (hreply.safe hname).fits
      rw [bytesOf, List.map_cons, List.flatten_cons] at hnext
      obtain ⟨hvalue, hbytes, -⟩ := encodes_prefix_free hframe hb hnext
      refine ⟨front ++ [reply], back, ?_, ?_, fun resp' hresp => ?_⟩
      · rw [List.append_assoc]
        exact hreplies
      · rw [bytesOf, List.map_append, List.flatten_append, List.length_append, ← hbytes, hlen]
        simp [bytesOf]
      · rw [clientActions_snoc, List.mem_append] at hresp
        obtain hresp | hresp := hresp
        · obtain ⟨old, hold, heq⟩ := hall resp' hresp
          exact ⟨old, List.mem_append_left _ hold, heq⟩
        · obtain rfl : resp' = resp := by
            simpa [clientActions] using hresp
          refine ⟨reply, List.mem_append_right _ (List.mem_singleton_self reply), ?_⟩
          rw [← hv, ← hvalue, Value.norm_norm]

/-- No string of the call has a NUL, and no parameter is an array or a map. -/
def Call.Plain (call : Call) : Prop :=
  0 ∉ call.method ∧ ∀ v ∈ call.params, v.scalar ∧ ∀ bs, v = .str bs → 0 ∉ bs

end Haze.Hazectl
