import Haze.Proto.Marshal

/-
  The dynamic value type of the C++ client, and which of its objects is which object of
  the server.

  `Corresponds o p` says that the C object `o` and the C++ object `p` have the same kinds
  and payloads, all the way down. A C string ends at its first NUL and a C++ string does
  not, so a C++ object with a NUL in a string corresponds to nothing.
-/

open Msgpack

namespace Haze.Cpp

/-- `std::vector<uint8_t>`. -/
abbrev BinaryBuffer := Bytes

/-- `Haze::Object`. Floats and doubles are their bit patterns; a map holds the keys and
values of its table. -/
inductive Object where
  | und
  | nil
  | bool (v : Bool)
  | int (v : Int64)
  | uint (v : UInt64)
  | float (bits : UInt32)
  | double (bits : UInt64)
  | str (s : Bytes)
  | bin (b : BinaryBuffer)
  | array (xs : List Object)
  | map (table : List (Object × Object))
  deriving Inhabited

/-- The same kinds and payloads. -/
inductive Corresponds : Haze.Object → Object → Prop where
  | und : Corresponds .und .und
  | nil : Corresponds .nil .nil
  | bool (v : Bool) : Corresponds (.bool v) (.bool v)
  | int (v : Int64) : Corresponds (.int v) (.int v)
  | uint (v : UInt64) : Corresponds (.uint v) (.uint v)
  | float (bits : UInt32) : Corresponds (.float bits) (.float bits)
  | double (bits : UInt64) : Corresponds (.double bits) (.double bits)
  | str (s : CString) : Corresponds (.str (some s)) (.str s.bytes)
  | bin (b : Bytes) : Corresponds (.bin (some (rawBufferNew (some b)))) (.bin b)
  | array {xs : List Haze.Object} {ys : List Object} :
      List.Forall₂ Corresponds xs ys → Corresponds (.array (some xs)) (.array ys)
  | map {pairs : List (Haze.Object × Haze.Object)} {table : List (Object × Object)} :
      List.Forall₂ Corresponds (pairs.map Prod.fst) (table.map Prod.fst) →
        List.Forall₂ Corresponds (pairs.map Prod.snd) (table.map Prod.snd) →
          Corresponds (.map (some pairs)) (.map table)

/-- A field of a response: a C `NULL` is a C++ Nil. -/
def CorrespondsField (obj : Option Haze.Object) (p : Object) : Prop :=
  match obj with
  | none => p = .nil
  | some o => Corresponds o p

theorem corresponds_nil_iff {p : Object} : Corresponds .nil p ↔ p = .nil := by
  constructor
  · intro h
    cases h
    rfl
  · intro h
    rw [h]
    exact .nil

/-- The C string at the start of some bytes is all of them when they have no NUL. -/
theorem corresponds_str_iff {s : Bytes} :
    Corresponds (.str (some (.ofBytes s))) (.str s) ↔ 0 ∉ s := by
  constructor
  · intro h
    generalize hc : CString.ofBytes s = c at h
    cases h
    exact c.nulFree
  · intro h
    have hbytes := CString.ofBytes_bytes h
    have hcorr := Corresponds.str (.ofBytes s)
    rwa [hbytes] at hcorr

theorem corresponds_array_iff {xs : List Haze.Object} {ys : List Object} :
    Corresponds (.array (some xs)) (.array ys) ↔ List.Forall₂ Corresponds xs ys := by
  constructor
  · intro h
    cases h with
    | array h => exact h
  · exact .array

end Haze.Cpp
