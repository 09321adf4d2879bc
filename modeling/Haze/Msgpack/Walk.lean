import Haze.Msgpack.Stream
import Haze.Transition.Run

/-
  Walks over a byte stream.

  A walk takes nodes off a stream, a header and its payload at a time, while values are
  wanted. The elements of an array join the values that are wanted; the body of a map does
  not, so this is how far a reader gets that leaves it in the stream. A walk is a run of a
  deterministic system (`take_deterministic`): it is over when nothing is wanted
  (`not_take_zero`) or when no node stands at the front (`not_take_of_stuck`), and one that
  is over tells which headers are reached (`reaches_iff`).
-/

open Transition

namespace Msgpack

/-- A header and its payload. -/
abbrev Node := Tag × Bytes

/-- How many values an array adds to those wanted. -/
def Tag.elements : Tag → Nat
  | .array n => n.toNat
  | _ => 0

/-- One node is taken. The state is how many values are wanted and the bytes ahead. -/
inductive Take : Nat × Bytes → Node → Nat × Bytes → Prop where
  | intro {wanted : Nat} {t : Tag} {h payload rest : Bytes} :
      Spells t h → payload.length = t.payloadLength →
        Take (wanted + 1, h ++ payload ++ rest) (t, payload) (wanted + t.elements, rest)

abbrev Walk := Run Take

/-- A header of `t` stands at the front. -/
def Opens (t : Tag) (bs : Bytes) : Prop := ∃ h rest, Spells t h ∧ bs = h ++ rest

/-- No node stands at the front. -/
def Stuck (bs : Bytes) : Prop :=
  ∀ t h rest, Spells t h → bs = h ++ rest → rest.length < t.payloadLength

/-- On the way through `wanted` values a header of `t` is reached. -/
def Reaches (t : Tag) (wanted : Nat) (bs : Bytes) : Prop :=
  ∃ ns left rest, Walk (wanted, bs) ns (left + 1, rest) ∧ Opens t rest

/-! ## One node -/

theorem take_deterministic : Deterministic Take := by
  intro s a b t u ha hb
  generalize hs : s = s' at hb
  cases ha with
  | @intro wanted t h payload rest hh hlen =>
      cases hb with
      | @intro wanted' t' h' payload' rest' hh' hlen' =>
          obtain ⟨hwanted, hbytes⟩ := Prod.mk.inj hs
          rw [List.append_assoc, List.append_assoc] at hbytes
          obtain ⟨rfl, htail⟩ := spells_prefix_free hh hh' hbytes
          obtain rfl := spells_unique hh hh'
          obtain ⟨rfl, rfl⟩ := List.append_inj htail (hlen.trans hlen'.symm)
          obtain rfl := Nat.succ.inj hwanted
          exact ⟨rfl, rfl⟩

theorem not_take_zero (bs : Bytes) (n : Node) (s : Nat × Bytes) : ¬Take (0, bs) n s := by
  intro h
  cases h

theorem not_take_of_stuck {bs : Bytes} (hstuck : Stuck bs) (wanted : Nat) (n : Node)
    (s : Nat × Bytes) : ¬Take (wanted, bs) n s := by
  intro h
  cases h with
  | intro hh hlen =>
      have hlt := hstuck _ _ _ hh (List.append_assoc _ _ _)
      rw [List.length_append, hlen] at hlt
      omega

theorem take_opens {wanted : Nat} {bs : Bytes} {n : Node} {s : Nat × Bytes}
    (h : Take (wanted, bs) n s) : Opens n.1 bs := by
  cases h with
  | intro hh _ => exact ⟨_, _, hh, List.append_assoc _ _ _⟩

theorem opens_unique {t u : Tag} {bs : Bytes} (ht : Opens t bs) (hu : Opens u bs) : t = u := by
  obtain ⟨h, rest, hh, rfl⟩ := ht
  obtain ⟨k, rest', hk, heq⟩ := hu
  obtain ⟨rfl, -⟩ := spells_prefix_free hh hk heq
  exact spells_unique hh hk

/-! ## Walks -/

/-- More values may be wanted behind those of a walk. -/
theorem walk_add {s t : Nat × Bytes} {ns : List Node} (h : Walk s ns t) (k : Nat) :
    Walk (s.1 + k, s.2) ns (t.1 + k, t.2) := by
  induction h with
  | nil => exact .nil
  | snoc _ hstep ih =>
      refine .snoc ih ?_
      cases hstep with
      | @intro wanted t h payload rest hh hlen =>
          have htake := @Take.intro (wanted + k) t h payload rest hh hlen
          rwa [Nat.add_right_comm, Nat.add_right_comm wanted k] at htake

theorem walk_length_le {s t : Nat × Bytes} {ns : List Node} (h : Walk s ns t) :
    t.2.length ≤ s.2.length := by
  refine h.invariant (P := fun u => u.2.length ≤ s.2.length) le_rfl fun u n v hu hstep => ?_
  cases hstep with
  | intro =>
      dsimp only at hu ⊢
      rw [List.length_append] at hu
      omega

/-- Which header a walk that is over has reached. -/
theorem reaches_iff {t : Tag} {wanted left : Nat} {bs rest : Bytes} {ns : List Node}
    (hwalk : Walk (wanted, bs) ns (left, rest)) (hend : ∀ n s, ¬Take (left, rest) n s)
    (hns : ∀ n ∈ ns, n.1 ≠ t) : Reaches t wanted bs ↔ left ≠ 0 ∧ Opens t rest := by
  constructor
  · intro ⟨ms, left', rest', hreach, hopens⟩
    obtain ⟨cs, rfl, hback⟩ := hwalk.to_end take_deterministic hend hreach
    cases cs with
    | nil =>
        obtain ⟨rfl, rfl⟩ := Prod.mk.inj (run_nil_iff.mp hback)
        exact ⟨Nat.succ_ne_zero left', hopens⟩
    | cons n cs =>
        -- the walk went through the header
        obtain ⟨m, hstep, -⟩ := run_cons_iff.mp hback
        have hsame := opens_unique (take_opens hstep) hopens
        exact absurd hsame (hns n (List.mem_append_right ms List.mem_cons_self))
  · intro ⟨hleft, hopens⟩
    obtain ⟨left, rfl⟩ := Nat.exists_eq_succ_of_ne_zero hleft
    exact ⟨ns, left, rest, hwalk, hopens⟩

end Msgpack
