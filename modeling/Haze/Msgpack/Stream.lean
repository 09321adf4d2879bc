import Haze.Msgpack.Value

/-
  Encodings as streams of nodes.

  `preorderAll vs` lists the nodes of some values in the order their headers stand on
  the wire, and `Nodes ns bs` says that `bs` is the headers and payloads of the nodes
  one after another, whatever tree they come from. A stream of nodes is determined by
  its bytes (`nodes_unique`, `nodes_length_unique`), and so are values by their encodings:
  no encoding opens another (`encodesAll_prefix_free`).
-/

namespace Msgpack

/-! ## Preorder -/

mutual

/-- A value and everything inside it, in wire order. -/
def Value.preorder : Value → List Value
  | .array vs => .array vs :: preorderAll vs
  | .map kvs => .map kvs :: preorderPairs kvs
  | v => [v]

def preorderAll : List Value → List Value
  | [] => []
  | v :: vs => v.preorder ++ preorderAll vs

def preorderPairs : List (Value × Value) → List Value
  | [] => []
  | (k, v) :: kvs => k.preorder ++ v.preorder ++ preorderPairs kvs

end

@[simp] theorem preorderAll_nil : preorderAll [] = [] := rfl

@[simp] theorem preorderAll_append (vs ws : List Value) :
    preorderAll (vs ++ ws) = preorderAll vs ++ preorderAll ws := by
  induction vs with
  | nil => rfl
  | cons v vs ih => rw [List.cons_append, preorderAll, preorderAll, ih, List.append_assoc]

theorem preorderPairs_eq (kvs : List (Value × Value)) :
    preorderPairs kvs = preorderAll (Value.map kvs).children := by
  induction kvs with
  | nil => rfl
  | cons kv kvs ih => simp [preorderPairs, ih, Value.children, preorderAll]

theorem Value.preorder_eq (v : Value) : v.preorder = v :: preorderAll v.children := by
  cases v <;> simp [Value.preorder, Value.children, preorderPairs_eq]

/-- The first node opens its own subtree. -/
theorem preorderAll_cons (v : Value) (vs : List Value) :
    preorderAll (v :: vs) = v :: preorderAll (v.children ++ vs) := by
  rw [preorderAll, Value.preorder_eq, preorderAll_append, List.cons_append]

theorem preorderAll_singleton (v : Value) : preorderAll [v] = v.preorder := by
  rw [preorderAll, preorderAll_nil, List.append_nil]

/-! ## Streams -/

/-- `bs` is the headers and payloads of the nodes, in order. -/
inductive Nodes : List Value → Bytes → Prop where
  | nil : Nodes [] []
  | cons {v : Value} {ns : List Value} {h body : Bytes} :
      Spells v.tag h → v.count < 2 ^ 32 → Nodes ns body → Nodes (v :: ns) (h ++ v.payload ++ body)

theorem nodes_of_encodesAll {vs : List Value} {bs : Bytes} (hbs : EncodesAll vs bs) :
    Nodes (preorderAll vs) bs := by
  induction hbs with
  | nil => exact .nil
  | cons hh hcount _ ih =>
      rw [preorderAll_cons]
      exact .cons hh hcount ih

theorem nodes_append {ns ms : List Value} {bs cs : Bytes} (hns : Nodes ns bs)
    (hms : Nodes ms cs) : Nodes (ns ++ ms) (bs ++ cs) := by
  induction hns with
  | nil => exact hms
  | cons hh hcount _ ih =>
      rw [List.append_assoc]
      exact .cons hh hcount ih

/-- The payload length a tag announces. -/
def Tag.payloadLength : Tag → Nat
  | .str n => n.toNat
  | .bin n => n.toNat
  | _ => 0

theorem Value.length_payload {v : Value} (hcount : v.count < 2 ^ 32) :
    v.payload.length = v.tag.payloadLength := by
  cases v <;> simp only [Value.payload, Value.tag, Tag.payloadLength, List.length_nil]
  all_goals exact (UInt32.toNat_ofNat_of_lt' hcount).symm

/-- The node at the start of a byte string takes the same bytes however it is read. -/
theorem node_unique {v w : Value} {h k x y : Bytes} (hv : Spells v.tag h)
    (hvc : v.count < 2 ^ 32) (hw : Spells w.tag k) (hwc : w.count < 2 ^ 32)
    (heq : h ++ (v.payload ++ x) = k ++ (w.payload ++ y)) :
    h ++ v.payload = k ++ w.payload ∧ x = y := by
  obtain ⟨rfl, htail⟩ := spells_prefix_free hv hw heq
  have hlen : v.payload.length = w.payload.length := by
    rw [Value.length_payload hvc, Value.length_payload hwc, spells_unique hv hw]
  obtain ⟨hpayload, rfl⟩ := List.append_inj htail hlen
  exact ⟨by rw [hpayload], rfl⟩

theorem nodes_unique {ns ms : List Value} {b c x y : Bytes} (hns : Nodes ns b)
    (hms : Nodes ms c) (hlen : ns.length = ms.length) (heq : b ++ x = c ++ y) :
    b = c ∧ x = y := by
  induction hns generalizing ms c with
  | nil =>
      cases hms with
      | nil => exact ⟨rfl, heq⟩
      | cons => cases hlen
  | cons hh hcount _ ih =>
      cases hms with
      | nil => cases hlen
      | cons hk hcount' hms =>
          simp only [List.append_assoc] at heq
          obtain ⟨hhead, htail⟩ := node_unique hh hcount hk hcount' heq
          obtain ⟨rfl, rfl⟩ := ih hms (Nat.succ.inj hlen) htail
          exact ⟨by rw [hhead], rfl⟩

theorem nodes_length_unique {ns ms : List Value} {b : Bytes} (hns : Nodes ns b)
    (hms : Nodes ms b) : ns.length = ms.length := by
  have hempty : ∀ {v : Value} {h body : Bytes}, Spells v.tag h → h ++ v.payload ++ body ≠ [] :=
    fun hh => List.append_ne_nil_of_left_ne_nil
      (List.append_ne_nil_of_left_ne_nil (spells_ne_nil hh) _) _
  generalize hb : b = b' at hms
  induction hns generalizing ms b' with
  | nil =>
      cases hms with
      | nil => rfl
      | cons hk => exact absurd hb.symm (hempty hk)
  | cons hh hcount _ ih =>
      cases hms with
      | nil => exact absurd hb (hempty hh)
      | cons hk hcount' hms =>
          simp only [List.append_assoc] at hb
          obtain ⟨-, hbody⟩ := node_unique hh hcount hk hcount' hb
          rw [List.length_cons, List.length_cons, ih _ hbody hms]

/-! ## Values from their encodings -/

/-- The children a tag announces: the elements of an array, the keys and values of a map. -/
def Tag.childCount : Tag → Nat
  | .array n => n.toNat
  | .map n => 2 * n.toNat
  | _ => 0

theorem Value.length_children {v : Value} (hcount : v.count < 2 ^ 32) :
    v.children.length = v.tag.childCount := by
  cases v with
  | array vs => exact (UInt32.toNat_ofNat_of_lt' hcount).symm
  | map kvs =>
      have hto : (UInt32.ofNat kvs.length).toNat = kvs.length := UInt32.toNat_ofNat_of_lt' hcount
      rw [tag, Tag.childCount, hto, children]
      clear hcount hto
      induction kvs with
      | nil => rfl
      | cons kv kvs ih =>
          rw [List.flatMap_cons, List.length_append, ih]
          simp only [List.length_cons, List.length_nil]
          omega
  | _ => rfl

theorem Value.pairs_unique {kvs kvs' : List (Value × Value)}
    (h : (map kvs).children = (map kvs').children) : kvs = kvs' := by
  induction kvs generalizing kvs' with
  | nil =>
      cases kvs' with
      | nil => rfl
      | cons => cases h
  | cons kv kvs ih =>
      cases kvs' with
      | nil => cases h
      | cons kv' kvs' =>
          simp only [children, List.flatMap_cons, List.cons_append, List.nil_append,
            List.cons.injEq] at h
          rw [Prod.ext h.1 h.2.1, ih h.2.2]

/-- A value is its header, its payload and its children. -/
theorem Value.eq_of_node {v w : Value} (htag : v.tag = w.tag) (hpayload : v.payload = w.payload)
    (hchildren : v.children = w.children) : v = w := by
  cases v with
  | str s =>
      cases w with
      | str s' => exact congrArg str hpayload
      | _ => cases htag
  | bin s =>
      cases w with
      | bin s' => exact congrArg bin hpayload
      | _ => cases htag
  | array vs =>
      cases w with
      | array vs' => exact congrArg array hchildren
      | _ => cases htag
  | map kvs =>
      cases w with
      | map kvs' => exact congrArg map (pairs_unique hchildren)
      | _ => cases htag
  | _ =>
      cases w <;> cases htag
      rfl

/-- Encodings of as many values at the start of one byte string are encodings of the same
values. -/
theorem encodesAll_prefix_free {vs ws : List Value} {b c x y : Bytes} (hvs : EncodesAll vs b)
    (hws : EncodesAll ws c) (hlen : vs.length = ws.length) (heq : b ++ x = c ++ y) :
    vs = ws ∧ b = c ∧ x = y := by
  induction hvs generalizing ws c with
  | nil =>
      cases hws with
      | nil => exact ⟨rfl, rfl, heq⟩
      | cons => cases hlen
  | @cons v vs h body hh hcount _ ih =>
      cases hws with
      | nil => cases hlen
      | @cons w ws k body' hk hcount' hbody' =>
          simp only [List.append_assoc] at heq
          obtain ⟨rfl, htail⟩ := spells_prefix_free hh hk heq
          have htag := spells_unique hh hk
          have hpayload : v.payload.length = w.payload.length := by
            rw [Value.length_payload hcount, Value.length_payload hcount', htag]
          obtain ⟨hpayload, htail⟩ := List.append_inj htail hpayload
          have hchildren : v.children.length = w.children.length := by
            rw [Value.length_children hcount, Value.length_children hcount', htag]
          obtain ⟨hnodes, rfl, rfl⟩ := ih hbody' (by
            rw [List.length_append, List.length_append, hchildren]
            exact congrArg _ (Nat.succ.inj hlen)) htail
          obtain ⟨hchildren, rfl⟩ := List.append_inj hnodes hchildren
          obtain rfl := Value.eq_of_node htag hpayload hchildren
          exact ⟨rfl, rfl, rfl⟩

theorem encodes_prefix_free {v w : Value} {b c x y : Bytes} (hv : Encodes v b)
    (hw : Encodes w c) (heq : b ++ x = c ++ y) : v = w ∧ b = c ∧ x = y := by
  obtain ⟨hvw, hbytes⟩ := encodesAll_prefix_free hv hw rfl heq
  exact ⟨List.singleton_inj.mp hvw, hbytes⟩

end Msgpack
