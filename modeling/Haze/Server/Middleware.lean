import Haze.Proto.NotificationRead
import Haze.Proto.RequestDecode
import Haze.Proto.Response
import Haze.Server.Lifecycle

/-
  What kind of message a buffer holds: the three decoders and `HazeServerMiddlewareIsHttp`.

  The array header and the type tell the kinds apart, so no buffer is taken by two decoders, and
  the middleware lets through whatever one of them takes (`kinds_exclusive`). The server does not
  call the middleware. It need not: what the middleware would reject closes the connection at its
  first byte, however it is cut into reads (`http_refused`).
-/

open Msgpack

namespace Haze

variable {p : Platform}

/-! ## The middleware -/

inductive HazeServerMiddlewareResult where
  | reject
  | next
  deriving DecidableEq

/-- The first four bytes of a method. -/
def httpMethods : List Bytes :=
  ["GET ", "POST", "PUT ", "HEAD", "DELE", "PATC", "OPTI"].map fun s => (CString.ofString s).bytes

def hazeServerMiddlewareIsHttp : Option Bytes → HazeServerMiddlewareResult
  | none => .next
  | some data =>
    if data.length < 4 then .next
    else if data.take 4 ∈ httpMethods then .reject
    else .next

/-- A method starts with a letter. -/
theorem httpMethods_letter : ∀ m ∈ httpMethods, ∃ b bs, m = b :: bs ∧ b ≤ 0x7f := by
  have hall : httpMethods.all (fun m => m.head?.any (· ≤ 0x7f)) = true := by decide
  intro m hm
  obtain ⟨b, hb, hle⟩ := (Option.any_eq_true _ _).mp (List.all_eq_true.mp hall m hm)
  obtain ⟨bs, rfl⟩ := List.head?_eq_some_iff.mp hb
  exact ⟨b, bs, rfl, by simpa using hle⟩

theorem letter_of_http {data : Bytes} (hhttp : hazeServerMiddlewareIsHttp (some data) = .reject) :
    ∃ b bs, data = b :: bs ∧ b ≤ 0x7f := by
  unfold hazeServerMiddlewareIsHttp at hhttp
  dsimp only at hhttp
  split_ifs at hhttp with hlen hmem
  obtain ⟨b, bs, htake, hb⟩ := httpMethods_letter _ hmem
  cases data with
  | nil => cases htake
  | cons c cs =>
      obtain ⟨rfl, -⟩ := List.cons.inj htake
      exact ⟨c, cs, rfl, hb⟩

/-! ## Kinds -/

inductive MessageKind where
  | request
  | response
  | notification

namespace MessageKind

/-- The decoder of this kind does not refuse the buffer. -/
def Takes (b : Bytes) : MessageKind → Prop
  | .request => (requestUnmarshal b).1 ≠ none
  | .response => responseUnmarshal b ≠ .ok none
  | .notification => notificationUnmarshal b ≠ .ok none

/-- How many elements the array of a message has. -/
def count : MessageKind → UInt32
  | .notification => 3
  | _ => 4

/-- The tag is a type of this kind. A request is told by 32 bits of it. -/
def IsType (t : Tag) : MessageKind → Prop
  | .request => tagCast t = some hazeRpcRequest
  | .response => t.norm = .uint 1
  | .notification => t.norm = .uint 2

/-- The buffer starts with the header of an array and a type. -/
def Opens (b : Bytes) (k : MessageKind) : Prop :=
  ∃ hArr t hType rest, Spells (.array k.count) hArr ∧ Spells t hType ∧ k.IsType t ∧
    b = hArr ++ (hType ++ rest)

theorem opens_request {b : Bytes} (htakes : Takes b .request) : Opens b .request := by
  cases hheader : requestUnmarshalHeader (.ok b) with
  | none => exact absurd (congrArg Prod.fst (requestUnmarshal_of_header_none hheader)) htakes
  | some out =>
      obtain ⟨request, count, reader⟩ := out
      obtain ⟨msgid, method, head, rest, hhead, rfl, -⟩ := requestUnmarshalHeader_sound hheader
      obtain ⟨type, id, hArr, hType, hId, hMethod, hParams, harr, ⟨htype, hcast⟩, -, -, -, rfl⟩ :=
        hhead
      exact ⟨hArr, type, hType, _, harr, htype, hcast, by rw [List.append_assoc, List.append_assoc]⟩

theorem opens_notification {b : Bytes} (htakes : Takes b .notification) :
    Opens b .notification := by
  cases hheader : notificationUnmarshalHeader b with
  | none =>
      refine absurd ?_ htakes
      unfold notificationUnmarshal
      rw [hheader]
      split_ifs <;> rfl
  | some out =>
      obtain ⟨n, count, reader⟩ := out
      obtain ⟨method, h, rest, rfl, hhead, -, -⟩ := notificationUnmarshalHeader_sound hheader
      obtain ⟨type, hArr, hType, hMethod, hParams, harr, ⟨hnorm, htype⟩, -, -, rfl⟩ := hhead
      exact ⟨hArr, type, hType, _, harr, htype, hnorm, by rw [List.append_assoc, List.append_assoc]⟩

theorem opens_response {b : Bytes} (htakes : Takes b .response) : Opens b .response := by
  have herror : responseUnmarshalError b ≠ .ok none := by
    intro hnone
    refine htakes ?_
    unfold responseUnmarshal
    rw [hnone]
    split_ifs <;> rfl
  unfold responseUnmarshalError at herror
  rw [mpackReaderInitData] at herror
  cases harray : mpackExpectArray (.ok b) with
  | mk count r₁ =>
      simp only [harray] at herror
      split_ifs at herror with herr₁ herr₂ herr₃
      · exact absurd rfl herror
      · exact absurd rfl herror
      · exact absurd rfl herror
      obtain ⟨hok₁, hcount⟩ := (not_or.mp herr₁).imp not_not.mp not_not.mp
      obtain ⟨b₁, rfl⟩ := mpackReaderError_eq_none hok₁
      subst hcount
      obtain ⟨hArr, harr, rfl⟩ := mpackExpectArray_sound harray
      obtain ⟨hok₂, htype⟩ := (not_or.mp herr₂).imp not_not.mp not_not.mp
      unfold mpackExpectU8 at hok₂ htype
      cases hu8 : mpackExpectUnsigned 0xff (.ok b₁) with
      | mk v r₂ =>
          simp only [hu8] at hok₂ htype
          obtain ⟨b₂, rfl⟩ := mpackReaderError_eq_none hok₂
          obtain ⟨t, hType, hspells, hnorm, hmax, rfl⟩ := mpackExpectUnsigned_sound hu8
          have hone : v = 1 := by
            have hval := congrArg UInt32.toNat htype
            have hle := UInt64.le_iff_toNat_le.mp hmax
            simp [hazeRpcResponse] at hval hle
            exact UInt64.toNat_inj.mp (by simp; omega)
          subst hone
          exact ⟨hArr, t, hType, b₂, harr, hspells, hnorm, rfl⟩

theorem opens_of_takes {b : Bytes} {k : MessageKind} (htakes : k.Takes b) : k.Opens b := by
  cases k with
  | request => exact opens_request htakes
  | response => exact opens_response htakes
  | notification => exact opens_notification htakes

theorem kind_unique {b : Bytes} {k k' : MessageKind} (h : k.Opens b) (h' : k'.Opens b) :
    k = k' := by
  obtain ⟨hArr, t, hType, rest, harr, htype, hk, rfl⟩ := h
  obtain ⟨hArr', t', hType', rest', harr', htype', hk', heq⟩ := h'
  obtain ⟨rfl, htail⟩ := spells_prefix_free harr harr' heq
  obtain ⟨rfl, -⟩ := spells_prefix_free htype htype' htail
  obtain rfl := spells_unique htype htype'
  have hcount := spells_unique harr harr'
  have htwo : t.norm = .uint 1 → tagCast t ≠ some hazeRpcRequest := by
    intro hnorm hcast
    cases t with
    | uint n =>
        obtain rfl : n = 1 := Tag.uint.inj hnorm
        exact absurd hcast (by decide)
    | int n =>
        change (if 0 ≤ n then Tag.uint n.toUInt64 else Tag.int n) = .uint 1 at hnorm
        split_ifs at hnorm
        have hn : n.toUInt64 = 1 := Tag.uint.inj hnorm
        change some n.toUInt64.toUInt32 = _ at hcast
        rw [hn] at hcast
        exact absurd hcast (by decide)
    | _ => cases hnorm
  cases k <;> cases k' <;> first
    | rfl
    | exact absurd hcount (by decide)
    | exact absurd hk (htwo hk')
    | exact absurd hk' (htwo hk)

end MessageKind

/-- No buffer is taken by the decoders of two kinds, and the middleware rejects none that is
taken. -/
theorem kinds_exclusive (b : Bytes) :
    (∀ k k' : MessageKind, k.Takes b → k'.Takes b → k = k') ∧
      ((∃ k : MessageKind, k.Takes b) → hazeServerMiddlewareIsHttp (some b) = .next) := by
  refine ⟨fun k k' h h' => MessageKind.kind_unique (MessageKind.opens_of_takes h)
    (MessageKind.opens_of_takes h'), ?_⟩
  rintro ⟨k, htakes⟩
  cases hhttp : hazeServerMiddlewareIsHttp (some b) with
  | next => rfl
  | reject =>
      obtain ⟨c, cs, rfl, hc⟩ := letter_of_http hhttp
      obtain ⟨hArr, t, hType, rest, harr, -, -, heq⟩ := MessageKind.opens_of_takes htakes
      have hsingle : Spells (.uint c.toUInt64) [c] :=
        ⟨c, [], _, rfl, format_fixuint hc, rfl, rfl⟩
      obtain ⟨rfl, -⟩ := spells_prefix_free hsingle harr heq
      cases spells_unique hsingle harr

/-- Bytes that start with a letter are not dispatched, and close the connection. -/
theorem hazeOnRead_letter (connection : Nat) (ctx : Context p) {conn : HazeConn}
    (hempty : conn.buffer = []) {b : UInt8} (hb : b ≤ 0x7f) (bs : Bytes) :
    let out := hazeOnRead connection ctx conn (.data (b :: bs))
    out.1 = ctx ∧ out.2.1.closed = true ∧ ∀ event ∈ out.2.2, event = .close := by
  have hstep := hazeReadLoop_step connection ctx (List.cons_ne_nil b bs) rfl
  rw [serverDispatch_none connection ctx (requestUnmarshal_fixuint hb bs), if_pos rfl] at hstep
  have hdata : conn.buffer ++ b :: bs = b :: bs := by rw [hempty, List.nil_append]
  refine ⟨?_, ?_, ?_⟩
  · show (hazeReadLoop connection ctx (conn.buffer ++ b :: bs)).1 = ctx
    rw [hdata, hstep]
  · show (conn.closed || ((hazeReadLoop connection ctx (conn.buffer ++ b :: bs)).2.2 ++ _).any
      Event.isClose) = true
    rw [hdata, hstep]
    exact Bool.or_true _
  · show ∀ event ∈ (hazeReadLoop connection ctx (conn.buffer ++ b :: bs)).2.2 ++ ite _ _ _, _
    rw [hdata, hstep]
    split_ifs <;> simp

/-- What the middleware would reject closes a connection that has nothing buffered, however it is
cut into reads: nothing is dispatched, nothing is sent, and the context stays. -/
theorem http_refused (connection : Nat) (ctx : Context p) {conn : HazeConn}
    (hempty : conn.buffer = []) (hopen : conn.closed = false) {reads : List Read}
    (hhttp : hazeServerMiddlewareIsHttp (some (reads.flatMap Read.bytes)) = .reject) :
    let out := hazeReads connection ctx conn reads
    out.1 = ctx ∧ out.2.1.closed = true ∧ ∀ event ∈ out.2.2, event = .close := by
  obtain ⟨b, bs, hbytes, hb⟩ := letter_of_http hhttp
  clear hhttp
  induction reads with
  | nil => cases hbytes
  | cons read reads ih =>
      rw [hazeReads_cons connection ctx hopen]
      match read, hbytes with
      | .failed, _ =>
          dsimp only [hazeOnRead]
          rw [hazeReads_of_closed connection ctx rfl]
          exact ⟨rfl, rfl, by simp⟩
      | .data [], hbytes => exact ih hbytes
      | .data (c :: cs), hbytes =>
          obtain ⟨rfl, -⟩ := List.cons.inj hbytes
          obtain ⟨hctx, hclosed, hevents⟩ := hazeOnRead_letter connection ctx hempty hb cs
          dsimp only
          rw [hazeReads_of_closed connection _ hclosed, List.append_nil]
          exact ⟨hctx, hclosed, hevents⟩

/-- A request for a page, in two reads. -/
theorem http_refused_get :
    let out := hazeReads 0 stillContext hazeConnNew [.data [71], .data [69, 84, 32, 47]]
    out.1 = stillContext ∧ out.2.1.closed = true ∧ ∀ event ∈ out.2.2, event = .close :=
  http_refused 0 stillContext rfl rfl (by decide)

end Haze
