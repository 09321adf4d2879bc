import Haze.Proto.RequestDecode
import Haze.Server.Connection

/-
  The passes of the read loop of `haze_on_read`.

  A request that comes back took at least its header off the buffer and nothing behind the
  buffer, whatever the reader met after the header (`requestUnmarshal_consumed`): a reader in
  error reports no bytes as remaining, so the whole buffer counts as consumed. It has no more
  parameters than the header can count (`requestUnmarshal_length_lt`). So the loop never meets
  an invalid consumption, and it makes at most one pass for each byte (`hazeReadLoop_passes`).
-/

open Msgpack

namespace Haze

variable {p : Platform}

/-! ## What is consumed -/

theorem requestUnmarshalParam_follows (request : Request) (reader : Reader) (i : UInt32) :
    reader.Follows (requestUnmarshalParam request reader i).2 := by
  have htag := (mpackReadTag_follows reader).1
  unfold requestUnmarshalParam
  generalize mpackReadTag reader = read at htag
  obtain ⟨tag, next⟩ := read
  cases tag with
  | str len => exact htag.trans (mpackReadBytes_follows next len.toNat)
  | bin len => exact htag.trans (mpackReadBytes_follows next len.toNat)
  | _ => exact htag

theorem requestUnmarshalParams_follows (left : Nat) (request : Request) (reader : Reader)
    (i : UInt32) : reader.Follows (requestUnmarshalParams request reader i left).2 := by
  induction left generalizing request reader i with
  | zero => exact .refl reader
  | succ left ih =>
      rw [requestUnmarshalParams]
      exact (requestUnmarshalParam_follows request reader i).trans (ih _ _ (i + 1))

/-- The length left in the buffer is that of a part which is not empty. -/
theorem requestUnmarshal_consumed {b : Bytes} {request : Request} {len : Nat}
    (hread : requestUnmarshal b = (some request, len)) : 0 < len ∧ len ≤ b.length := by
  obtain ⟨msgid, method, count, head, rest, hh, rfl, -, -⟩ :=
    requestUnmarshal_sound (congrArg Prod.fst hread)
  have hunmarshal := requestUnmarshal_of_header hh rest
  rw [hread] at hunmarshal
  have hlen := (Prod.mk.inj hunmarshal).2
  have hpos := List.length_pos_iff.mpr (requestHeader_ne_nil hh)
  have hfollows := requestUnmarshalParams_follows count.toNat (headerRequest msgid method)
    (.ok rest) 0
  have hremaining : mpackReaderRemaining _ ≤ rest.length := hfollows.remaining_le
  rw [List.length_append] at hlen ⊢
  omega

/-! ## What is read -/

theorem requestUnmarshalParam_length_le {request : Request} (reader : Reader) {i : UInt32}
    (hle : request.parameters.length ≤ i.toNat) :
    (requestUnmarshalParam request reader i).1.parameters.length ≤ i.toNat + 1 := by
  have happend : ∀ param,
      (requestParamAppend request param i).2.parameters.length ≤ i.toNat + 1 := by
    intro param
    rw [requestParamAppend_past param hle, List.length_append, List.length_append,
      List.length_replicate, List.length_singleton]
    omega
  unfold requestUnmarshalParam
  split
  case h_9 => exact Nat.le_succ_of_le hle
  case h_10 => exact Nat.le_succ_of_le hle
  all_goals exact happend _

theorem requestUnmarshalParams_length_le (left : Nat) {request : Request} (reader : Reader)
    {i : UInt32} (hle : request.parameters.length ≤ i.toNat) (hlt : i.toNat + left < 2 ^ 32) :
    (requestUnmarshalParams request reader i left).1.parameters.length ≤ i.toNat + left := by
  induction left generalizing request reader i with
  | zero => exact hle
  | succ left ih =>
      have hone := requestUnmarshalParam_length_le reader hle
      have hnext : (i + 1).toNat = i.toNat + 1 := by
        rw [UInt32.toNat_add]
        exact Nat.mod_eq_of_lt (show i.toNat + 1 < 2 ^ 32 by omega)
      rw [requestUnmarshalParams]
      have hrest := ih (requestUnmarshalParam request reader i).2 (hnext ▸ hone)
        (by rw [hnext]; omega)
      rw [hnext] at hrest
      exact hrest.trans (by omega)

/-- A request has no more parameters than its header can count. -/
theorem requestUnmarshal_length_lt {b : Bytes} {request : Request} {len : Nat}
    (hread : requestUnmarshal b = (some request, len)) :
    request.parameters.length < 2 ^ 32 := by
  obtain ⟨msgid, method, count, head, rest, hh, rfl, -, -⟩ :=
    requestUnmarshal_sound (congrArg Prod.fst hread)
  have hunmarshal := requestUnmarshal_of_header hh rest
  rw [hread] at hunmarshal
  have hcount := requestUnmarshalParams_length_le count.toNat (.ok rest)
    (show (headerRequest msgid method).parameters.length ≤ (0 : UInt32).toNat from le_rfl)
    (by rw [UInt32.toNat_zero, Nat.zero_add]; exact count.toNat_lt)
  rw [Option.some.inj (Prod.mk.inj hunmarshal).1]
  rw [UInt32.toNat_zero, Nat.zero_add] at hcount
  exact lt_of_le_of_lt hcount count.toNat_lt

/-! ## The passes -/

/-- One pass of the loop: the bytes in the buffer, whether a request came back, and the `len`
it left in the buffer. -/
structure Pass where
  available : Nat
  ok : Bool
  consumed : Nat
  deriving DecidableEq

/-- `hazeReadLoop` together with its passes. -/
def hazeReadTrace (connection : Nat) (ctx : Context p) (buffer : Bytes) :
    (Context p × Bytes × List Event) × List Pass :=
  if _hempty : buffer = [] then ((ctx, buffer, []), [])
  else
    let db := serverDispatch ctx connection buffer
    let pass : Pass := { available := buffer.length, ok := db.ok, consumed := db.len }
    if db.ok = false then ((db.ctx, buffer, db.events ++ [.close]), [pass])
    else if hconsumed : db.len = 0 ∨ buffer.length < db.len then
      ((db.ctx, buffer, db.events ++ db.sends ++ [.close]), [pass])
    else
      let ((ctx, rest, later), passes) := hazeReadTrace connection db.ctx (buffer.drop db.len)
      ((ctx, rest, db.events ++ db.sends ++ later), pass :: passes)
termination_by buffer.length
decreasing_by
  have hpos := List.length_pos_iff.mpr _hempty
  have hlen : db.len ≠ 0 := fun h => hconsumed (.inl h)
  rw [List.length_drop]
  exact Nat.sub_lt hpos (Nat.pos_of_ne_zero hlen)

/-- The requests that come back are dispatched from what the buffer starts with. -/
theorem serverDispatch_consumed (connection : Nat) (ctx : Context p) (buffer : Bytes)
    (hok : (serverDispatch ctx connection buffer).ok = true) :
    0 < (serverDispatch ctx connection buffer).len ∧
      (serverDispatch ctx connection buffer).len ≤ buffer.length := by
  unfold serverDispatch at hok ⊢
  cases hread : requestUnmarshal buffer with
  | mk request len =>
      rw [hread] at hok
      cases request with
      | none => exact absurd hok Bool.noConfusion
      | some request => exact requestUnmarshal_consumed hread

/-- Every pass that got a request goes on, behind at least one byte. -/
theorem hazeReadTrace_step (connection : Nat) (ctx : Context p) {buffer : Bytes}
    (hbuf : buffer ≠ []) {db : DispatchBytes p} (hdb : serverDispatch ctx connection buffer = db) :
    hazeReadTrace connection ctx buffer =
      if db.ok = false then
        ((db.ctx, buffer, db.events ++ [.close]), [⟨buffer.length, false, db.len⟩])
      else
        let later := hazeReadTrace connection db.ctx (buffer.drop db.len)
        ((later.1.1, later.1.2.1, db.events ++ db.sends ++ later.1.2.2),
          ⟨buffer.length, true, db.len⟩ :: later.2) := by
  subst hdb
  rw [hazeReadTrace, dif_neg hbuf]
  dsimp only
  by_cases hok : (serverDispatch ctx connection buffer).ok = false
  · rw [if_pos hok, if_pos hok, hok]
  · have htrue := Bool.not_eq_false _ |>.mp hok
    obtain ⟨hpos, hle⟩ := serverDispatch_consumed connection ctx buffer htrue
    have hvalid : ¬((serverDispatch ctx connection buffer).len = 0 ∨
        buffer.length < (serverDispatch ctx connection buffer).len) := by
      omega
    rw [if_neg hok, if_neg hok, dif_neg hvalid, htrue]

/-- The loop is `hazeReadLoop`. -/
theorem hazeReadTrace_fst (connection : Nat) (ctx : Context p) (buffer : Bytes) :
    (hazeReadTrace connection ctx buffer).1 = hazeReadLoop connection ctx buffer := by
  induction hn : buffer.length using Nat.strong_induction_on generalizing ctx buffer with
  | _ n ih =>
      by_cases hbuf : buffer = []
      · rw [hbuf, hazeReadLoop_nil, hazeReadTrace, dif_pos rfl]
      · rw [hazeReadLoop_step connection ctx hbuf rfl, hazeReadTrace, dif_neg hbuf]
        dsimp only
        split_ifs with hok hinvalid
        · rfl
        · rfl
        · have hpos := List.length_pos_iff.mpr hbuf
          have hlt : (buffer.drop (serverDispatch ctx connection buffer).len).length < n := by
            rw [List.length_drop]
            omega
          rw [← ih _ hlt _ _ rfl]

/-- The length that comes back with a request is between 1 and that of the buffer. So in the
loop no consumption is invalid, and there are at most as many passes as bytes. -/
theorem hazeReadLoop_passes (b : Bytes) :
    (∀ request len, requestUnmarshal b = (some request, len) → 1 ≤ len ∧ len ≤ b.length) ∧
      ∀ (p : Platform) (connection : Nat) (ctx : Context p),
        (hazeReadTrace connection ctx b).1 = hazeReadLoop connection ctx b ∧
          (∀ pass ∈ (hazeReadTrace connection ctx b).2,
            pass.ok = true → 1 ≤ pass.consumed ∧ pass.consumed ≤ pass.available) ∧
          (hazeReadTrace connection ctx b).2.length ≤ b.length := by
  refine ⟨fun request len hread => requestUnmarshal_consumed hread, fun p connection ctx =>
    ⟨hazeReadTrace_fst connection ctx b, ?_⟩⟩
  induction hn : b.length using Nat.strong_induction_on generalizing ctx b with
  | _ n ih =>
      by_cases hbuf : b = []
      · rw [hazeReadTrace, dif_pos hbuf]
        exact ⟨fun pass hpass => absurd hpass List.not_mem_nil, Nat.zero_le _⟩
      · have hpos := List.length_pos_iff.mpr hbuf
        rw [hazeReadTrace_step connection ctx hbuf rfl]
        split_ifs with hok
        · refine ⟨fun pass hpass htrue => ?_, by rw [List.length_singleton]; omega⟩
          rw [List.mem_singleton.mp hpass] at htrue
          exact absurd htrue Bool.noConfusion
        · -- the rest of the passes run on what is left behind the consumed bytes
          obtain ⟨hlen, hle⟩ := serverDispatch_consumed connection ctx b
            (Bool.not_eq_false _ |>.mp hok)
          have hlt : (b.drop (serverDispatch ctx connection b).len).length < n := by
            rw [List.length_drop]
            omega
          obtain ⟨hvalid, hcount⟩ := ih _ hlt _ (serverDispatch ctx connection b).ctx rfl
          refine ⟨fun pass hpass htrue => ?_, ?_⟩
          · rcases List.mem_cons.mp hpass with rfl | hpass
            · exact ⟨hlen, hle⟩
            · exact hvalid pass hpass htrue
          · rw [List.length_cons]
            omega

end Haze
