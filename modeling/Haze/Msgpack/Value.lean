import Haze.Msgpack.Format

/-
  MessagePack values and the encodings they have.

  `Value` is the tree a byte string denotes. A value is seen from outside through its
  `tag`, its `payload` (the bytes of a string or a binary) and its `children` (the
  elements of an array, the keys and values of a map in turn). `EncodesAll vs bs` says
  that `bs` is a sequence of encodings of `vs`, of any header width: a header for the
  first value, its payload, then its children in front of the values that are still
  pending. `Encodes v bs` is the case of one value.

  `encodesAll_append` and `encodesAll_split` cut a sequence anywhere between values.
-/

namespace Msgpack

/-! ## Values -/

inductive Value where
  | nil
  | bool (b : Bool)
  | uint (n : UInt64)
  | int (n : Int64)
  | float (bits : UInt32)
  | double (bits : UInt64)
  | str (s : Bytes)
  | bin (s : Bytes)
  | array (vs : List Value)
  | map (kvs : List (Value × Value))
  deriving Inhabited

namespace Value

/-- What a header of this value counts: bytes, elements or pairs. -/
def count : Value → Nat
  | str s => s.length
  | bin s => s.length
  | array vs => vs.length
  | map kvs => kvs.length
  | _ => 0

def tag : Value → Tag
  | nil => .nil
  | bool b => .bool b
  | uint n => .uint n
  | int n => .int n
  | float bits => .float bits
  | double bits => .double bits
  | str s => .str (.ofNat s.length)
  | bin s => .bin (.ofNat s.length)
  | array vs => .array (.ofNat vs.length)
  | map kvs => .map (.ofNat kvs.length)

/-- The bytes between the header and the children. -/
def payload : Value → Bytes
  | str s => s
  | bin s => s
  | _ => []

/-- The elements of an array; the keys and values of a map, in turn. -/
def children : Value → List Value
  | array vs => vs
  | map kvs => kvs.flatMap fun kv => [kv.1, kv.2]
  | _ => []

/-- Neither an array nor a map. -/
def scalar : Value → Bool
  | array _ | map _ => false
  | _ => true

theorem children_of_scalar {v : Value} (h : v.scalar) : v.children = [] := by
  cases v <;> first | rfl | cases h

/-- Induction over values: a property that passes from the children to their parent
holds of every value. -/
@[elab_as_elim]
theorem childInduction {P : Value → Prop}
    (step : ∀ v, (∀ w ∈ v.children, P w) → P v) (v : Value) : P v := by
  refine Value.rec (motive_1 := P) (motive_2 := fun vs => ∀ w ∈ vs, P w)
    (motive_3 := fun kvs => ∀ w ∈ (map kvs).children, P w)
    (motive_4 := fun kv => P kv.1 ∧ P kv.2) ?nil ?bool ?uint ?int ?float ?double ?str ?bin
    ?array ?map ?noElems ?elems ?noPairs ?pairs ?pair v
  case array => exact fun vs ih => step _ ih
  case map => exact fun kvs ih => step _ ih
  case noElems => exact List.forall_mem_nil P
  case elems => exact fun w vs hw hvs => List.forall_mem_cons.mpr ⟨hw, hvs⟩
  case noPairs => exact List.forall_mem_nil P
  case pairs =>
    intro kv kvs hkv hkvs
    simp only [children, List.flatMap_cons, List.cons_append, List.nil_append,
      List.forall_mem_cons] at hkvs ⊢
    exact ⟨hkv.1, hkv.2, hkvs⟩
  case pair => exact fun k w hk hw => ⟨hk, hw⟩
  all_goals intros; exact step _ (List.forall_mem_nil P)

end Value

/-! ## Encodings -/

/-- `bs` is a sequence of encodings of the values, in order. -/
inductive EncodesAll : List Value → Bytes → Prop where
  | nil : EncodesAll [] []
  | cons {v : Value} {vs : List Value} {h body : Bytes} :
      Spells v.tag h → v.count < 2 ^ 32 → EncodesAll (v.children ++ vs) body →
        EncodesAll (v :: vs) (h ++ v.payload ++ body)

/-- `bs` is an encoding of the value. -/
def Encodes (v : Value) (bs : Bytes) : Prop := EncodesAll [v] bs

theorem encodesAll_append {vs ws : List Value} {bs cs : Bytes} (hvs : EncodesAll vs bs)
    (hws : EncodesAll ws cs) : EncodesAll (vs ++ ws) (bs ++ cs) := by
  induction hvs with
  | nil => simpa using hws
  | @cons v vs h body hh hcount _ ih =>
      rw [List.append_assoc] at ih
      rw [List.cons_append, List.append_assoc]
      exact EncodesAll.cons hh hcount ih

/-- A sequence of encodings splits wherever its values do. -/
theorem encodesAll_split {us : List Value} {bs : Bytes} (hus : EncodesAll us bs) :
    ∀ {vs ws : List Value}, us = vs ++ ws →
      ∃ b₁ b₂, bs = b₁ ++ b₂ ∧ EncodesAll vs b₁ ∧ EncodesAll ws b₂ := by
  induction hus with
  | nil =>
      intro vs ws heq
      obtain ⟨rfl, rfl⟩ := List.append_eq_nil_iff.mp heq.symm
      exact ⟨[], [], rfl, .nil, .nil⟩
  | @cons u us h body hh hcount hbody ih =>
      intro vs ws heq
      cases vs with
      | nil =>
          rw [List.nil_append] at heq
          exact ⟨[], _, rfl, .nil, heq ▸ EncodesAll.cons hh hcount hbody⟩
      | cons v vs =>
          rw [List.cons_append] at heq
          obtain ⟨rfl, rfl⟩ := List.cons.inj heq
          obtain ⟨b₁, b₂, rfl, hb₁, hb₂⟩ := ih (List.append_assoc _ _ _).symm
          exact ⟨h ++ u.payload ++ b₁, b₂, by simp, EncodesAll.cons hh hcount hb₁, hb₂⟩

theorem encodesAll_cons_iff {v : Value} {vs : List Value} {bs : Bytes} :
    EncodesAll (v :: vs) bs ↔
      ∃ b₁ b₂, bs = b₁ ++ b₂ ∧ Encodes v b₁ ∧ EncodesAll vs b₂ := by
  constructor
  · intro hbs
    exact encodesAll_split hbs (List.singleton_append (x := v)).symm
  · rintro ⟨b₁, b₂, rfl, hv, hvs⟩
    exact encodesAll_append hv hvs

theorem encodes_iff {v : Value} {bs : Bytes} :
    Encodes v bs ↔ ∃ h body, Spells v.tag h ∧ v.count < 2 ^ 32 ∧
      EncodesAll v.children body ∧ bs = h ++ v.payload ++ body := by
  constructor
  · rintro (_ | ⟨hh, hcount, hbody⟩)
    rw [List.append_nil] at hbody
    exact ⟨_, _, hh, hcount, hbody, rfl⟩
  · rintro ⟨h, body, hh, hcount, hbody, rfl⟩
    exact EncodesAll.cons hh hcount (by rwa [List.append_nil])

theorem encodes_of_scalar {v : Value} {h : Bytes} (hv : v.scalar) (hh : Spells v.tag h)
    (hcount : v.count < 2 ^ 32) : Encodes v (h ++ v.payload) := by
  refine encodes_iff.mpr ⟨h, [], hh, hcount, ?_, (List.append_nil _).symm⟩
  rw [Value.children_of_scalar hv]
  exact .nil

@[simp] theorem encodesAll_nil_iff {bs : Bytes} : EncodesAll [] bs ↔ bs = [] := by
  constructor
  · rintro ⟨⟩
    rfl
  · rintro rfl
    exact .nil

/-- Every value takes at least one byte. -/
theorem encodesAll_length_le {vs : List Value} {bs : Bytes} (hbs : EncodesAll vs bs) :
    vs.length ≤ bs.length := by
  induction hbs with
  | nil => simp
  | @cons v vs h body hh _ _ ih =>
      have hpos := spells_length_pos hh
      simp only [List.length_append, List.length_cons] at ih ⊢
      omega

theorem encodesAll_eq_nil_iff {vs : List Value} {bs : Bytes} (hbs : EncodesAll vs bs) :
    bs = [] ↔ vs = [] := by
  constructor
  · rintro rfl
    exact List.length_eq_zero_iff.mp (Nat.le_zero.mp (encodesAll_length_le hbs))
  · rintro rfl
    exact encodesAll_nil_iff.mp hbs

end Msgpack
